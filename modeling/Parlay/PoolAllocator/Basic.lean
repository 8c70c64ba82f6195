import Mathlib

/-!
# The pool allocator

`pool_allocator` (`parlay/internal/pool_allocator.h`) hands out headerless blocks
from buckets of fixed sizes. Requests up to `max_small` go to a thread-local
`block_allocator` per small bucket, requests up to `max_size` to a shared stack
per large bucket, and larger ones straight to `operator new`.

The model is sequential, as the claims about it are. `size_t` arithmetic wraps
modulo `2^64` (`sizeAdd`, `sizeSub`). Every array access of the source is
checked: an index past the end is a `Fault`, so "the code only indexes inside
the arrays" is "the call does not fault". The heap remembers the number of
bytes each block was obtained with (`blockBytes`).

`block_allocator` and `hazptr_stack` are not in the source: a small bucket's
`alloc()` is a fresh block of the bucket's size and a large bucket is a list
used as a stack.
-/

namespace Parlay.PoolAllocator

/-! ## `size_t` -/

/-- `size_t` is 64 bits wide. -/
def sizeMod : Nat := 2 ^ 64

/-- `a + b` on `size_t`. -/
def sizeAdd (a b : Nat) : Nat := (a + b) % sizeMod

/-- `a - b` on `size_t`, for `b < 2^64`. -/
def sizeSub (a b : Nat) : Nat := (a + (sizeMod - b)) % sizeMod

theorem sizeSub_sizeAdd {a b : Nat} (ha : a < sizeMod) (hb : b < sizeMod) :
    sizeSub (sizeAdd a b) b = a := by
  unfold sizeSub sizeAdd
  rw [Nat.mod_add_mod, show a + b + (sizeMod - b) = a + sizeMod by omega,
    Nat.add_mod_right, Nat.mod_eq_of_lt ha]

/-! ## Construction -/

/-- Maximum alignment guaranteed by the allocator. -/
def maxAlignment : Nat := 128

/-- Sizes below this are small. -/
def largeThreshold : Nat := 2 ^ 18

/-- A sizes vector the constructor admits: "Sizes must be at least 8, and must
increase", non-empty (`max_size` reads its last entry), each a `size_t`. -/
structure Sizes where
  toList : List Nat
  ne_nil : toList ≠ []
  ge_eight : ∀ s ∈ toList, 8 ≤ s
  lt_sizeMod : ∀ s ∈ toList, s < sizeMod
  increasing : toList.Pairwise (· < ·)

/-- The constructor's loop
`while (num_small < num_buckets && sizes[num_small] < large_threshold) num_small++`. -/
def countSmall : List Nat → Nat
  | [] => 0
  | s :: rest => if s < largeThreshold then countSmall rest + 1 else 0

/-- The fields `pool_allocator`'s constructor computes. -/
structure Layout where
  sizes : List Nat
  numBuckets : Nat
  numSmall : Nat
  maxSmall : Nat
  maxSize : Nat
deriving DecidableEq, Repr

/-- `pool_allocator(sizes_)`. -/
def poolAllocator (sizes : Sizes) : Layout :=
  let numSmall := countSmall sizes.toList
  { sizes := sizes.toList
    numBuckets := sizes.toList.length
    numSmall := numSmall
    maxSmall := if numSmall > 0 then sizes.toList.getD (numSmall - 1) 0 else 0
    maxSize := sizes.toList.getD (sizes.toList.length - 1) 0 }

/-- An out-of-bounds access: `sizes[i]`, `small_allocators[i]` or
`large_buckets[i]` past the end of the array. -/
inductive Fault where
  | sizes (i : Nat)
  | smallAllocators (i : Nat)
  | largeBuckets (i : Nat)
deriving DecidableEq, Repr

/-- `sizes[i]`. -/
def Layout.sizeAt (L : Layout) (i : Nat) : Except Fault Nat :=
  match L.sizes[i]? with
  | some s => .ok s
  | none => .error (.sizes i)

/-- The bucket search `while (n > sizes[bucket]) bucket++`, run from `bucket` over
`sizes` from that position on. Running off the end reads `sizes[num_buckets]`. -/
def findBucket (n : Nat) : List Nat → Nat → Except Fault Nat
  | [], bucket => .error (.sizes bucket)
  | s :: rest, bucket => if n > s then findBucket n rest (bucket + 1) else .ok bucket

/-! ## State -/

/-- The mutable part of a `pool_allocator`, with the heap it draws on. -/
structure Pool where
  largeAllocated : Nat
  largeUsed : Nat
  /-- `large_buckets[j]`, the free blocks of bucket `num_small + j`, top first. -/
  largeBuckets : List (List Nat)
  /-- The bytes each block was obtained with. -/
  blockBytes : Nat → Nat
  /-- The address the next fresh block gets. -/
  nextAddr : Nat

/-- The allocator right after construction. -/
def Layout.initial (L : Layout) : Pool :=
  { largeAllocated := 0, largeUsed := 0,
    largeBuckets := List.replicate (L.numBuckets - L.numSmall) [],
    blockBytes := fun _ => 0, nextAddr := 0 }

/-- A fresh block of `bytes` bytes. -/
def Pool.fresh (p : Pool) (bytes : Nat) : Pool × Nat :=
  ({ p with blockBytes := Function.update p.blockBytes p.nextAddr bytes,
            nextAddr := p.nextAddr + 1 }, p.nextAddr)

/-- Modelled from the spec: `small_allocators[bucket].alloc()`. `block_allocator`
is not in the source; its blocks have the bucket's size. -/
def Layout.smallAlloc (L : Layout) (p : Pool) (bucket : Nat) : Except Fault (Pool × Nat) :=
  if bucket < L.numSmall then .ok (p.fresh (L.sizes.getD bucket 0))
  else .error (.smallAllocators bucket)

/-- Modelled from the spec: `small_allocators[bucket].free(ptr)`, which changes
nothing the model tracks. -/
def Layout.smallFree (L : Layout) (p : Pool) (bucket : Nat) : Except Fault Pool :=
  if bucket < L.numSmall then .ok p else .error (.smallAllocators bucket)

/-- `large_buckets[j].pop()`. -/
def Layout.popLarge (L : Layout) (p : Pool) (j : Nat) : Except Fault (Pool × Option Nat) :=
  if j < L.numBuckets - L.numSmall then
    match p.largeBuckets.getD j [] with
    | [] => .ok (p, none)
    | r :: rest => .ok ({ p with largeBuckets := p.largeBuckets.set j rest }, some r)
  else .error (.largeBuckets j)

/-- `large_buckets[j].push(ptr)`. -/
def Layout.pushLarge (L : Layout) (p : Pool) (j ptr : Nat) : Except Fault Pool :=
  if j < L.numBuckets - L.numSmall then
    .ok { p with largeBuckets := p.largeBuckets.set j (ptr :: p.largeBuckets.getD j []) }
  else .error (.largeBuckets j)

/-! ## Operations -/

/-- The round-up of `alloc_size` to a multiple of `max_alignment`, in `size_t`. -/
def roundUp (allocSize : Nat) : Nat :=
  if allocSize % maxAlignment ≠ 0 then
    sizeAdd allocSize (maxAlignment - allocSize % maxAlignment)
  else allocSize

/-- The end of `allocate_large`: `::operator new` of `alloc_size` rounded up,
then `large_allocated += n`. -/
def Pool.newLarge (p : Pool) (allocSize n : Nat) : Pool × Nat :=
  let (p, a) := p.fresh (roundUp allocSize)
  ({ p with largeAllocated := sizeAdd p.largeAllocated n }, a)

/-- `allocate_large(n)`. -/
def allocateLarge (L : Layout) (p : Pool) (n : Nat) : Except Fault (Pool × Nat) :=
  let p := { p with largeUsed := sizeAdd p.largeUsed n }
  if n ≤ L.maxSize then do
    let bucket ← findBucket n (L.sizes.drop L.numSmall) L.numSmall
    match ← L.popLarge p (bucket - L.numSmall) with
    | (p, some r) => pure (p, r)
    | (p, none) => pure (p.newLarge (← L.sizeAt bucket) n)
  else pure (p.newLarge n n)

/-- `deallocate_large(ptr, n)`. -/
def deallocateLarge (L : Layout) (p : Pool) (ptr n : Nat) : Except Fault Pool :=
  let p := { p with largeUsed := sizeSub p.largeUsed n }
  if n > L.maxSize then pure { p with largeAllocated := sizeSub p.largeAllocated n }
  else do
    let bucket ← findBucket n (L.sizes.drop L.numSmall) L.numSmall
    L.pushLarge p (bucket - L.numSmall) ptr

/-- `allocate(n)`. -/
def allocate (L : Layout) (p : Pool) (n : Nat) : Except Fault (Pool × Nat) :=
  if n > L.maxSmall then allocateLarge L p n
  else do
    let bucket ← findBucket n L.sizes 0
    L.smallAlloc p bucket

/-- `deallocate(ptr, n)`. -/
def deallocate (L : Layout) (p : Pool) (ptr n : Nat) : Except Fault Pool :=
  if n > L.maxSmall then deallocateLarge L p ptr n
  else do
    let bucket ← findBucket n L.sizes 0
    L.smallFree p bucket

/-- The loop `while (r) { large_allocated -= sizes[i]; ... }` of `clear` over one
bucket of size `size`. -/
def drain (size : Nat) : Nat → List Nat → Nat
  | allocated, [] => allocated
  | allocated, _ :: rest => drain size (sizeSub allocated size) rest

/-- `clear()`: every large bucket is emptied, one `sizes[i]` at a time. -/
def clear (L : Layout) (p : Pool) : Pool :=
  { p with
    largeAllocated :=
      ((L.sizes.drop L.numSmall).zip p.largeBuckets).foldl
        (fun allocated bucket => drain bucket.1 allocated bucket.2) p.largeAllocated
    largeBuckets := p.largeBuckets.map fun _ => [] }

/-- `stats()`: the pair `(total_u, total_a - total_u)`. `block_allocator` is not in
the source: `small i` is the pair `(num_allocated_blocks, num_used_blocks)` of
small bucket `i`. -/
def stats (L : Layout) (p : Pool) (small : Nat → Nat × Nat) : Nat × Nat :=
  let (totalA, totalU) := (List.range L.numSmall).foldl
    (fun (acc : Nat × Nat) i =>
      (sizeAdd acc.1 ((small i).1 * L.sizes.getD i 0 % sizeMod),
       sizeAdd acc.2 ((small i).2 * L.sizes.getD i 0 % sizeMod)))
    (p.largeAllocated, p.largeUsed)
  (totalU, sizeSub totalA totalU)

/-! ## Clients

A client calls `allocate`, `deallocate` and `clear` in any order. `deallocate k`
hands back the `k`-th block the client holds, with the size it asked for, so
every sequence of calls meets `deallocate`'s contract. -/

/-- A call of the allocator; sizes are `size_t`. -/
inductive Call where
  | allocate (n : Fin sizeMod)
  | deallocate (k : Nat)
  | clear

/-- The allocator with the blocks its client holds, each with its request size. -/
structure Client where
  pool : Pool
  held : List (Nat × Nat)

/-- One call. A `deallocate k` with no `k`-th held block does nothing. -/
def Client.call (L : Layout) (c : Client) : Call → Except Fault Client
  | .allocate n => do
    let (p, a) ← allocate L c.pool n
    pure ⟨p, c.held ++ [(a, n.val)]⟩
  | .deallocate k =>
    match c.held[k]? with
    | some (a, n) => do
      let p ← deallocate L c.pool a n
      pure ⟨p, c.held.eraseIdx k⟩
    | none => pure c
  | .clear => pure { c with pool := clear L c.pool }

/-- A sequence of calls. -/
def Client.run (L : Layout) : Client → List Call → Except Fault Client
  | c, [] => .ok c
  | c, call :: calls => do Client.run L (← c.call L call) calls

/-- A fresh allocator with no block handed out. -/
def Layout.start (L : Layout) : Client := ⟨L.initial, []⟩

/-! ## One lemma per operation -/

theorem Layout.sizeAt_ok {L : Layout} {i v : Nat} (h : L.sizeAt i = .ok v) :
    v = L.sizes.getD i 0 := by
  unfold Layout.sizeAt at h
  split at h <;> simp_all

theorem Layout.popLarge_ok {L : Layout} {p p' : Pool} {j : Nat} {r : Option Nat}
    (h : L.popLarge p j = .ok (p', r)) :
    j < L.numBuckets - L.numSmall ∧
      ((p.largeBuckets.getD j [] = [] ∧ p' = p ∧ r = none) ∨
       ∃ x rest, p.largeBuckets.getD j [] = x :: rest ∧
         p' = { p with largeBuckets := p.largeBuckets.set j rest } ∧ r = some x) := by
  unfold Layout.popLarge at h
  split at h
  · refine ⟨‹_›, ?_⟩
    split at h <;> cases h
    · exact .inl ⟨‹_›, rfl, rfl⟩
    · exact .inr ⟨_, _, ‹_›, rfl, rfl⟩
  · cases h

@[simp] theorem Pool.fresh_largeUsed (p : Pool) (bytes : Nat) :
    (p.fresh bytes).1.largeUsed = p.largeUsed := rfl

@[simp] theorem Pool.fresh_largeBuckets (p : Pool) (bytes : Nat) :
    (p.fresh bytes).1.largeBuckets = p.largeBuckets := rfl

@[simp] theorem Pool.fresh_nextAddr (p : Pool) (bytes : Nat) :
    (p.fresh bytes).1.nextAddr = p.nextAddr + 1 := rfl

@[simp] theorem Pool.fresh_addr (p : Pool) (bytes : Nat) : (p.fresh bytes).2 = p.nextAddr := rfl

@[simp] theorem Pool.fresh_blockBytes (p : Pool) (bytes : Nat) :
    (p.fresh bytes).1.blockBytes = Function.update p.blockBytes p.nextAddr bytes := rfl

@[simp] theorem Pool.newLarge_largeUsed (p : Pool) (s n : Nat) :
    (p.newLarge s n).1.largeUsed = p.largeUsed := rfl

@[simp] theorem Pool.newLarge_largeBuckets (p : Pool) (s n : Nat) :
    (p.newLarge s n).1.largeBuckets = p.largeBuckets := rfl

@[simp] theorem Pool.newLarge_nextAddr (p : Pool) (s n : Nat) :
    (p.newLarge s n).1.nextAddr = p.nextAddr + 1 := rfl

@[simp] theorem Pool.newLarge_addr (p : Pool) (s n : Nat) :
    (p.newLarge s n).2 = p.nextAddr := rfl

@[simp] theorem Pool.newLarge_blockBytes (p : Pool) (s n : Nat) :
    (p.newLarge s n).1.blockBytes = Function.update p.blockBytes p.nextAddr (roundUp s) := rfl

/-- The large-bucket branch of `allocate_large` after the search: a pooled block
or a fresh one of the bucket's size. -/
def LargeOutcome (L : Layout) (p p' : Pool) (n a b : Nat) : Prop :=
  (∃ rest, b - L.numSmall < L.numBuckets - L.numSmall ∧
    p.largeBuckets.getD (b - L.numSmall) [] = a :: rest ∧
    p' = { p with largeBuckets := p.largeBuckets.set (b - L.numSmall) rest }) ∨
  (p.largeBuckets.getD (b - L.numSmall) [] = [] ∧ (p', a) = p.newLarge (L.sizes.getD b 0) n)

/-- Everything `allocate` can do: a small block, a large block (pooled or fresh),
or an oversize block. -/
theorem allocate_cases {L : Layout} {p p' : Pool} {n a : Nat}
    (h : allocate L p n = .ok (p', a)) :
    (n ≤ L.maxSmall ∧ ∃ b, findBucket n L.sizes 0 = .ok b ∧ b < L.numSmall ∧
      (p', a) = p.fresh (L.sizes.getD b 0)) ∨
    (L.maxSmall < n ∧ n ≤ L.maxSize ∧ ∃ b,
      findBucket n (L.sizes.drop L.numSmall) L.numSmall = .ok b ∧
      LargeOutcome L { p with largeUsed := sizeAdd p.largeUsed n } p' n a b) ∨
    (L.maxSmall < n ∧ L.maxSize < n ∧
      (p', a) = ({ p with largeUsed := sizeAdd p.largeUsed n }).newLarge n n) := by
  unfold allocate at h
  split at h
  · unfold allocateLarge at h
    split at h
    · refine .inr (.inl ⟨by omega, by omega, ?_⟩)
      cases hb : findBucket n (L.sizes.drop L.numSmall) L.numSmall with
      | error f => simp [hb, bind, Except.bind] at h
      | ok b =>
        refine ⟨b, rfl, ?_⟩
        cases hpop : L.popLarge { p with largeUsed := sizeAdd p.largeUsed n } (b - L.numSmall) with
        | error f => simp [hb, hpop, bind, Except.bind] at h
        | ok res =>
          obtain ⟨p1, r⟩ := res
          obtain ⟨hj, ⟨hnil, rfl, rfl⟩ | ⟨x, rest, hcons, rfl, rfl⟩⟩ := Layout.popLarge_ok hpop
          · cases hs : L.sizeAt b with
            | error f => simp [hb, hpop, hs, bind, Except.bind] at h
            | ok v =>
              simp only [hb, hpop, hs, bind, Except.bind, pure, Except.pure, Except.ok.injEq] at h
              exact .inr ⟨hnil, by rw [← h, Layout.sizeAt_ok hs]⟩
          · simp only [hb, hpop, bind, Except.bind, pure, Except.pure, Except.ok.injEq,
              Prod.mk.injEq] at h
            obtain ⟨rfl, rfl⟩ := h
            exact .inl ⟨rest, hj, hcons, rfl⟩
    · exact .inr (.inr ⟨by omega, by omega, by simpa [pure, Except.pure] using h.symm⟩)
  · refine .inl ⟨by omega, ?_⟩
    cases hb : findBucket n L.sizes 0 with
    | error f => simp [hb, bind, Except.bind] at h
    | ok b =>
      simp only [hb, bind, Except.bind, Layout.smallAlloc] at h
      split at h
      · exact ⟨b, rfl, by assumption, by cases h; rfl⟩
      · cases h

/-- Everything `deallocate` can do: hand a small block back, delete an oversize
one, or push a large one onto the bucket its size selects. -/
theorem deallocate_cases {L : Layout} {p p' : Pool} {a n : Nat}
    (h : deallocate L p a n = .ok p') :
    (n ≤ L.maxSmall ∧ ∃ b, findBucket n L.sizes 0 = .ok b ∧ b < L.numSmall ∧ p' = p) ∨
    (L.maxSmall < n ∧ n ≤ L.maxSize ∧ ∃ b,
      findBucket n (L.sizes.drop L.numSmall) L.numSmall = .ok b ∧
      b - L.numSmall < L.numBuckets - L.numSmall ∧
      p' = { p with largeUsed := sizeSub p.largeUsed n,
                    largeBuckets := p.largeBuckets.set (b - L.numSmall)
                      (a :: p.largeBuckets.getD (b - L.numSmall) []) }) ∨
    (L.maxSmall < n ∧ L.maxSize < n ∧
      p' = { p with largeUsed := sizeSub p.largeUsed n,
                    largeAllocated := sizeSub p.largeAllocated n }) := by
  unfold deallocate at h
  split at h
  · unfold deallocateLarge at h
    split at h
    · exact .inr (.inr ⟨by omega, by omega, by simpa [pure, Except.pure] using h.symm⟩)
    · refine .inr (.inl ⟨by omega, by omega, ?_⟩)
      cases hb : findBucket n (L.sizes.drop L.numSmall) L.numSmall with
      | error f => simp [hb, bind, Except.bind] at h
      | ok b =>
        simp only [hb, bind, Except.bind, Layout.pushLarge] at h
        split at h
        · exact ⟨b, rfl, by assumption, by cases h; rfl⟩
        · cases h
  · refine .inl ⟨by omega, ?_⟩
    cases hb : findBucket n L.sizes 0 with
    | error f => simp [hb, bind, Except.bind] at h
    | ok b =>
      simp only [hb, bind, Except.bind, Layout.smallFree] at h
      split at h
      · exact ⟨b, rfl, by assumption, by cases h; rfl⟩
      · cases h

/-- Everything one call of the client can do. -/
theorem Client.call_cases {L : Layout} {c c' : Client} {call : Call}
    (h : c.call L call = .ok c') :
    (∃ (n : Fin sizeMod) (p : Pool) (a : Nat), call = .allocate n ∧ allocate L c.pool n = .ok (p, a) ∧
      c' = ⟨p, c.held ++ [(a, n.val)]⟩) ∨
    (∃ k a n p, call = .deallocate k ∧ c.held[k]? = some (a, n) ∧
      deallocate L c.pool a n = .ok p ∧ c' = ⟨p, c.held.eraseIdx k⟩) ∨
    (∃ k, call = .deallocate k ∧ c.held[k]? = none ∧ c' = c) ∨
    (call = .clear ∧ c' = { c with pool := clear L c.pool }) := by
  cases call with
  | allocate n =>
    cases ha : allocate L c.pool n with
    | error f => simp [Client.call, ha, bind, Except.bind] at h
    | ok r =>
      simp only [Client.call, ha, bind, Except.bind, pure, Except.pure, Except.ok.injEq] at h
      exact .inl ⟨n, r.1, r.2, rfl, ha, h.symm⟩
  | deallocate k =>
    cases hk : c.held[k]? with
    | none => simp only [Client.call, hk, pure, Except.pure, Except.ok.injEq] at h; exact .inr (.inr (.inl ⟨k, rfl, hk, h.symm⟩))
    | some e =>
      obtain ⟨a, n⟩ := e
      cases hd : deallocate L c.pool a n with
      | error f => simp [Client.call, hk, hd, bind, Except.bind] at h
      | ok p =>
        simp only [Client.call, hk, hd, bind, Except.bind, pure, Except.pure, Except.ok.injEq] at h
        exact .inr (.inl ⟨k, a, n, p, rfl, hk, hd, h.symm⟩)
  | clear =>
    simp only [Client.call, pure, Except.pure, Except.ok.injEq] at h
    exact .inr (.inr (.inr ⟨rfl, h.symm⟩))

/-- A property every call keeps holds after every sequence of calls. -/
theorem Client.run_induction {L : Layout} {P : Client → Prop}
    (step : ∀ {c c' call}, P c → c.call L call = .ok c' → P c') :
    ∀ {c c' : Client} {calls : List Call}, P c → c.run L calls = .ok c' → P c'
  | c, c', [], hc, h => by cases h; exact hc
  | c, c', call :: calls, hc, h => by
    cases hcall : c.call L call with
    | error f => simp [Client.run, hcall, bind, Except.bind] at h
    | ok c₁ =>
      simp only [Client.run, hcall, bind, Except.bind] at h
      exact Client.run_induction step (step hc hcall) h

/-! ## The bucket search -/

theorem findBucket_of_le (n : Nat) :
    ∀ (l : List Nat) (start m : Nat), m < l.length → n ≤ l.getD m 0 →
      ∃ b, findBucket n l start = .ok b ∧ start ≤ b ∧ b ≤ start + m ∧ n ≤ l.getD (b - start) 0
  | [], _, _, hm, _ => absurd hm (Nat.not_lt_zero _)
  | s :: rest, start, m, hm, hn => by
    by_cases hs : n > s
    · cases m with
      | zero => exact absurd hn (by simpa using hs)
      | succ m =>
        obtain ⟨b, hb, h1, h2, h3⟩ :=
          findBucket_of_le n rest (start + 1) m (by simpa using hm) (by simpa using hn)
        refine ⟨b, by simp [findBucket, hs, hb], by omega, by omega, ?_⟩
        rw [show b - start = b - (start + 1) + 1 by omega]
        simpa using h3
    · exact ⟨start, by simp [findBucket, hs], le_refl _, by omega, by simpa using hs⟩

/-- Every bucket the search returns is at or after its start and inside the list. -/
theorem findBucket_ok {n : Nat} :
    ∀ {l : List Nat} {start b : Nat}, findBucket n l start = .ok b →
      start ≤ b ∧ b < start + l.length ∧ n ≤ l.getD (b - start) 0
  | [], _, _, h => by simp [findBucket] at h
  | s :: rest, start, b, h => by
    unfold findBucket at h
    split at h
    · obtain ⟨h1, h2, h3⟩ := findBucket_ok h
      refine ⟨by omega, by simp; omega, ?_⟩
      rw [show b - start = b - (start + 1) + 1 by omega]
      simpa using h3
    · cases h
      exact ⟨le_refl _, by simp, by simp; omega⟩

end Parlay.PoolAllocator
