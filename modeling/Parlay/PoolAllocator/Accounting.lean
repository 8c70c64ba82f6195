import Parlay.PoolAllocator.RoundTrip
import Parlay.PoolAllocator.BestFit

/-!
# `large_allocated` when every request is a bucket size

`large_counters_wrap` shows `large_allocated` wrapping: a fresh block of a
large bucket adds its request `n` to the counter, while `clear()` subtracts the
bucket's size `sizes[i]` for it. The two agree exactly when the request is the
bucket's size. So when every large request up to `max_size` is one of the
large bucket sizes, `large_allocated` is the blocks pooled on the large
buckets, each at its bucket's size (`pooledBytes`), plus the large requests the
client holds, all modulo `2^64`. The increasing sizes make the bucket of such a
request the one of exactly its size (`findBucket_of_mem`).

These are not always the bytes `operator new` gave: a large block is obtained
with its bucket's size rounded up to `max_alignment`, and an oversize one with
its request rounded up, while the counter adds the request. When the large
sizes and the oversize requests are multiples of `max_alignment`, nothing is
rounded up, and the two agree (`largeBlockBytes`, read from the bytes
`ExactFit` records for each block).

Results:
1. `AllocatedOk.call`: every call whose request is a large bucket size keeps
   the accounting.
2. `ExactFit.pooled_bytes`, `ExactFit.held_bytes`: with aligned sizes, the
   bytes of the pooled and of the held large blocks.
3. `largeAllocated_of_bucket_sizes`: after any sequence of such calls,
   `large_allocated` is the pooled bytes plus the held large requests, and
   with aligned sizes the bytes from `operator new`; when these stay below
   `2^64`, `large_used ≤ large_allocated`, and the large part of `stats()`
   reports the held requests as used and the pooled bytes as reserve.
-/

namespace Parlay.PoolAllocator

/-! ## The bucket of a size in the list -/

/-- In an increasing list, the search for a value of the list stops at that value. -/
theorem findBucket_of_mem {n start b : Nat} {l : List Nat} (hinc : l.Pairwise (· < ·))
    (hn : n ∈ l) (hb : findBucket n l start = .ok b) : l.getD (b - start) 0 = n := by
  obtain ⟨m, hm, rfl⟩ := List.getElem_of_mem hn
  obtain ⟨b', hb', -, hle, -⟩ := findBucket_of_le l[m] l start m hm (by simp [hm])
  obtain rfl : b = b' := by rw [hb] at hb'; exact Except.ok.inj hb'
  obtain ⟨hsb, hlt, hge⟩ := findBucket_ok hb
  have hi : b - start < l.length := by omega
  rcases Nat.lt_or_eq_of_le (show b - start ≤ m by omega) with hlt' | heq
  · have := List.pairwise_iff_getElem.1 hinc _ _ hi hm hlt'
    simp only [List.getD_eq_getElem?_getD, List.getElem?_eq_getElem hi, Option.getD_some] at hge
    omega
  · simp [heq, hm]

/-! ## Pooled bytes -/

/-- The bytes of the blocks on a list of buckets, each at its bucket's size. -/
def bucketBytes : List Nat → List (List Nat) → Nat
  | s :: sizes, bucket :: buckets => s * bucket.length + bucketBytes sizes buckets
  | _, _ => 0

/-- The bytes of the blocks pooled on the large buckets, each counted at its
bucket's size, as `clear()` subtracts them. -/
def pooledBytes (L : Layout) (p : Pool) : Nat :=
  bucketBytes (L.sizes.drop L.numSmall) p.largeBuckets

/-- Replacing one bucket changes the bytes by that bucket's blocks. -/
theorem bucketBytes_set : ∀ (sizes : List Nat) (buckets : List (List Nat)) (j : Nat)
    (x : List Nat), j < buckets.length →
    bucketBytes sizes (buckets.set j x) + sizes.getD j 0 * (buckets.getD j []).length =
      bucketBytes sizes buckets + sizes.getD j 0 * x.length
  | [], _, _, _, _ => by simp only [bucketBytes, List.getD_nil, Nat.zero_mul]
  | _ :: _, [], _, _, h => absurd h (Nat.not_lt_zero _)
  | s :: sizes, b :: buckets, 0, x, _ => by
    simp only [List.set_cons_zero, bucketBytes, List.getD_cons_zero]
    omega
  | s :: sizes, b :: buckets, j + 1, x, h => by
    have := bucketBytes_set sizes buckets j x (Nat.lt_of_succ_lt_succ h)
    simp only [List.set_cons_succ, bucketBytes, List.getD_cons_succ]
    omega

/-- Empty buckets hold no bytes. -/
theorem bucketBytes_empty : ∀ (sizes : List Nat) (buckets : List (List Nat)),
    (∀ b ∈ buckets, b = []) → bucketBytes sizes buckets = 0
  | [], _, _ => rfl
  | _ :: _, [], _ => rfl
  | _ :: sizes, b :: buckets, h => by
    simp only [bucketBytes, h b (List.mem_cons_self _ _), List.length_nil, Nat.mul_zero,
      Nat.zero_add]
    exact bucketBytes_empty sizes buckets fun b' hb' => h b' (List.mem_cons_of_mem _ hb')

/-- Draining a bucket of `k` blocks of `size` bytes subtracts `k * size`. -/
theorem drain_eq {size : Nat} (hs : size ≤ sizeMod) :
    ∀ (x : Nat) (l : List Nat), drain size ((x + size * l.length) % sizeMod) l = x % sizeMod
  | x, [] => by simp [drain]
  | x, _ :: l => by
    have hsub : sizeSub ((x + size * (l.length + 1)) % sizeMod) size =
        (x + size * l.length) % sizeMod := by
      rw [sizeSub, Nat.mod_add_mod,
        show x + size * (l.length + 1) + (sizeMod - size) = x + size * l.length + sizeMod by
          rw [Nat.mul_succ]; omega,
        Nat.add_mod_right]
    simp only [drain, List.length_cons, hsub]
    exact drain_eq hs x l

/-- `clear()`'s loop over the large buckets subtracts their bytes. -/
theorem foldl_drain (x : Nat) : ∀ (sizes : List Nat) (buckets : List (List Nat)),
    (∀ s ∈ sizes, s ≤ sizeMod) →
    (sizes.zip buckets).foldl (fun allocated bucket => drain bucket.1 allocated bucket.2)
      ((x + bucketBytes sizes buckets) % sizeMod) = x % sizeMod
  | [], _, _ => by simp [bucketBytes]
  | _ :: _, [], _ => by simp [bucketBytes]
  | s :: sizes, b :: buckets, hs => by
    simp only [List.zip_cons_cons, List.foldl_cons, bucketBytes]
    rw [show x + (s * b.length + bucketBytes sizes buckets) =
        (x + bucketBytes sizes buckets) + s * b.length by omega,
      drain_eq (hs s (List.mem_cons_self _ _))]
    exact foldl_drain x sizes buckets fun t ht => hs t (List.mem_cons_of_mem _ ht)

/-! ## Every call keeps the accounting -/

/-- Runs of calls keep what each call of the list keeps. -/
theorem Client.run_induction_of_mem {L : Layout} {P : Client → Prop} :
    ∀ {calls : List Call} {c c' : Client},
      (∀ {c c' call}, call ∈ calls → P c → c.call L call = .ok c' → P c') →
      P c → c.run L calls = .ok c' → P c'
  | [], _, _, _, hc, h => by cases h; exact hc
  | call :: calls, c, c', step, hc, h => by
    cases hcall : c.call L call with
    | error f => simp [Client.run, hcall, bind, Except.bind] at h
    | ok c₁ =>
      simp only [Client.run, hcall, bind, Except.bind] at h
      exact Client.run_induction_of_mem (fun hm => step (List.mem_cons_of_mem _ hm))
        (step (List.mem_cons_self _ _) hc hcall) h

/-- The request is one of the large bucket sizes, if it is pooled at all. -/
def BucketSized (L : Layout) (n : Nat) : Prop :=
  L.maxSmall < n → n ≤ L.maxSize → n ∈ L.sizes.drop L.numSmall

/-- What every state keeps when every large request is a bucket size:
`large_allocated` is the pooled bytes plus the held large requests. -/
structure AllocatedOk (L : Layout) (c : Client) : Prop where
  wf : Wf L c
  sized : ∀ e ∈ c.held, BucketSized L e.2
  allocated : c.pool.largeAllocated = (pooledBytes L c.pool + heldLarge L c.held) % sizeMod

section Accounting

variable {S : Sizes}

@[simp] theorem Pool.newLarge_largeAllocated (p : Pool) (s n : Nat) :
    (p.newLarge s n).1.largeAllocated = sizeAdd p.largeAllocated n := rfl

/-- A request that is a large bucket size finds the bucket of exactly its size. -/
theorem bucket_size_eq {n b : Nat} (hn : BucketSized (poolAllocator S) n)
    (hlo : (poolAllocator S).maxSmall < n) (hhi : n ≤ (poolAllocator S).maxSize)
    (hb : findBucket n ((poolAllocator S).sizes.drop (poolAllocator S).numSmall)
      (poolAllocator S).numSmall = .ok b) :
    ((poolAllocator S).sizes.drop (poolAllocator S).numSmall).getD (b - (poolAllocator S).numSmall) 0
      = n :=
  findBucket_of_mem (S.increasing.sublist (List.drop_sublist _ _)) (hn hlo hhi) hb

theorem AllocatedOk.allocate {c : Client} {p : Pool} {n a : Nat} (h : AllocatedOk (poolAllocator S) c)
    (hlt : n < sizeMod) (hn : BucketSized (poolAllocator S) n)
    (ha : allocate (poolAllocator S) c.pool n = .ok (p, a)) :
    AllocatedOk (poolAllocator S) ⟨p, c.held ++ [(a, n)]⟩ := by
  have hsized : ∀ e ∈ c.held ++ [(a, n)], BucketSized (poolAllocator S) e.2 := by
    simpa [or_imp, forall_and] using And.intro h.sized hn
  refine ⟨h.wf.allocate hlt ha, hsized, ?_⟩
  simp only [heldLarge_append]
  have hall := h.allocated
  rcases allocate_cases ha with ⟨hs, b, -, -, he⟩ |
      ⟨hlo, hhi, b, hb, ⟨rest, hj, hget, rfl⟩ | ⟨-, he⟩⟩ | ⟨hlo, -, he⟩
  · -- a small block: nothing large changes
    obtain ⟨rfl, -⟩ := eq_of_pair_eq he
    simpa [pooledBytes, show ¬ (poolAllocator S).maxSmall < n by omega] using hall
  · -- a pooled block leaves its bucket, whose size is the request
    dsimp only at hget
    have hset := bucketBytes_set ((poolAllocator S).sizes.drop (poolAllocator S).numSmall)
      c.pool.largeBuckets (b - (poolAllocator S).numSmall) rest (by rw [h.wf.buckets]; exact hj)
    rw [hget, bucket_size_eq hn hlo hhi hb, List.length_cons, Nat.mul_succ] at hset
    simp only [pooledBytes, if_pos hlo] at hall ⊢
    rw [hall]
    congr 1
    omega
  all_goals
    -- a fresh block adds its request
    obtain ⟨rfl, -⟩ := eq_of_pair_eq he
    simp only [Pool.newLarge_largeAllocated, Pool.newLarge_largeBuckets, if_pos hlo,
      pooledBytes] at hall ⊢
    rw [hall, sizeAdd_mod, Nat.add_assoc]

theorem AllocatedOk.deallocate {c : Client} {p : Pool} {k a n : Nat}
    (h : AllocatedOk (poolAllocator S) c) (hk : c.held[k]? = some (a, n))
    (hd : deallocate (poolAllocator S) c.pool a n = .ok p) :
    AllocatedOk (poolAllocator S) ⟨p, c.held.eraseIdx k⟩ := by
  have hmem := List.getElem?_mem hk
  refine ⟨h.wf.deallocate hd, fun e he => h.sized e (List.mem_of_mem_eraseIdx he), ?_⟩
  have hall := h.allocated
  rw [heldLarge_eraseIdx _ hk] at hall
  rcases deallocate_cases hd with ⟨hs, -, -, -, rfl⟩ | ⟨hlo, hhi, b, hb, hj, rfl⟩ | ⟨hlo, -, rfl⟩
  · simpa [show ¬ (poolAllocator S).maxSmall < n by omega] using hall
  · -- the block goes back on the bucket of its size
    have hset := bucketBytes_set ((poolAllocator S).sizes.drop (poolAllocator S).numSmall)
      c.pool.largeBuckets (b - (poolAllocator S).numSmall)
      (a :: c.pool.largeBuckets.getD (b - (poolAllocator S).numSmall) []) (by rw [h.wf.buckets]; exact hj)
    rw [bucket_size_eq (h.sized _ hmem) hlo hhi hb] at hset
    simp only [List.length_cons, Nat.mul_succ, if_pos hlo] at hset hall
    simp only [pooledBytes] at hall ⊢
    rw [hall]
    congr 1
    omega
  · -- an oversize block goes back to `operator delete`
    simp only [if_pos hlo] at hall
    simp only [pooledBytes] at hall ⊢
    rw [hall, ← Nat.add_assoc]
    exact sizeSub_mod (h.wf.held_lt _ hmem)

theorem AllocatedOk.clear {c : Client} (h : AllocatedOk (poolAllocator S) c) :
    AllocatedOk (poolAllocator S) { c with pool := clear (poolAllocator S) c.pool } := by
  refine ⟨h.wf.clear, h.sized, ?_⟩
  simp only [PoolAllocator.clear, pooledBytes]
  rw [bucketBytes_empty _ _ (by simp), Nat.zero_add, h.allocated, pooledBytes, Nat.add_comm]
  exact foldl_drain _ _ _ fun s hs => (S.lt_sizeMod s (List.mem_of_mem_drop hs)).le

theorem AllocatedOk.call {c c' : Client} {call : Call} (h : AllocatedOk (poolAllocator S) c)
    (hcall : ∀ n : Fin sizeMod, call = .allocate n → BucketSized (poolAllocator S) n.val)
    (hc : c.call (poolAllocator S) call = .ok c') : AllocatedOk (poolAllocator S) c' := by
  rcases Client.call_cases hc with ⟨n, p, a, rfl, ha, rfl⟩ | ⟨k, a, n, p, -, hk, hd, rfl⟩ |
      ⟨k, -, -, rfl⟩ | ⟨-, rfl⟩
  · exact h.allocate n.isLt (hcall n rfl) ha
  · exact h.deallocate hk hd
  · exact h
  · exact h.clear

/-- The large part of `stats()`, with no small block counted: the pair
`(large_used, large_allocated - large_used)`. -/
theorem stats_no_small (L : Layout) {p : Pool} (ha : p.largeAllocated < sizeMod)
    (hu : p.largeUsed < sizeMod) :
    stats L p (fun _ => (0, 0)) = (p.largeUsed, sizeSub p.largeAllocated p.largeUsed) := by
  suffices ∀ (l : List Nat) (x y : Nat), x < sizeMod → y < sizeMod →
      l.foldl (fun (acc : Nat × Nat) i =>
        (sizeAdd acc.1 (0 * L.sizes.getD i 0 % sizeMod),
         sizeAdd acc.2 (0 * L.sizes.getD i 0 % sizeMod))) (x, y) = (x, y) by
    simp only [stats, this _ _ _ ha hu]
  intro l
  induction l with
  | nil => intros; rfl
  | cons i l ih =>
    intro x y hx hy
    simpa [sizeAdd, Nat.mod_eq_of_lt hx, Nat.mod_eq_of_lt hy] using ih x y hx hy

/-! ## The bytes from `operator new` -/

/-- The bytes `::operator new` gave for the large blocks: each block pooled on
a large bucket, and each block the client holds for a request above
`max_small`, at the bytes it was obtained with. -/
def largeBlockBytes (L : Layout) (c : Client) : Nat :=
  (c.pool.largeBuckets.flatten.map c.pool.blockBytes).sum +
    ((c.held.filter fun e => L.maxSmall < e.2).map fun e => c.pool.blockBytes e.1).sum

/-- A size that is a multiple of `max_alignment` is not rounded up. -/
theorem roundUp_of_aligned {n : Nat} (h : n % maxAlignment = 0) : roundUp n = n := by
  simp [roundUp, h]

theorem getD_drop (l : List Nat) (k j : Nat) : (l.drop k).getD j 0 = l.getD (k + j) 0 := by
  simp only [List.getD_eq_getElem?_getD, List.getElem?_drop]

/-- Blocks that each have the size of their bucket add up to `bucketBytes`. -/
theorem sum_eq_bucketBytes (f : Nat → Nat) : ∀ (sizes : List Nat) (buckets : List (List Nat)),
    buckets.length = sizes.length → (∀ j, ∀ a ∈ buckets.getD j [], f a = sizes.getD j 0) →
    (buckets.flatten.map f).sum = bucketBytes sizes buckets
  | [], [], _, _ => rfl
  | [], _ :: _, h, _ => absurd h (by simp)
  | _ :: _, [], h, _ => absurd h (by simp)
  | s :: sizes, b :: buckets, hl, hf => by
    have h0 : ∀ a ∈ b, f a = s := by simpa using hf 0
    simp only [List.flatten_cons, List.map_append, List.sum_append, bucketBytes,
      List.map_congr_left h0, List.map_const', List.sum_replicate, smul_eq_mul, Nat.mul_comm,
      sum_eq_bucketBytes f sizes buckets (by simpa using hl) fun j => hf (j + 1)]

/-- Pooled blocks were obtained with their bucket's size, rounded up: when the
large sizes are multiples of `max_alignment`, they add up to `pooledBytes`. -/
theorem ExactFit.pooled_bytes {c : Client} (h : ExactFit (poolAllocator S) c)
    (hw : Wf (poolAllocator S) c)
    (haligned : ∀ s ∈ (poolAllocator S).sizes.drop (poolAllocator S).numSmall, s % maxAlignment = 0) :
    (c.pool.largeBuckets.flatten.map c.pool.blockBytes).sum = pooledBytes (poolAllocator S) c.pool := by
  have hlen : c.pool.largeBuckets.length =
      ((poolAllocator S).sizes.drop (poolAllocator S).numSmall).length := by
    rw [hw.buckets, List.length_drop]; rfl
  refine sum_eq_bucketBytes _ _ _ hlen fun j a ha => ?_
  have hj : j < ((poolAllocator S).sizes.drop (poolAllocator S).numSmall).length := by
    by_contra hj
    rw [List.getD_eq_default _ _ (by omega)] at ha
    exact List.not_mem_nil a ha
  rw [h.pooled j a ha, ← getD_drop, roundUp_of_aligned (haligned _ (by
    rw [List.getD_eq_getElem _ _ hj]; exact List.getElem_mem hj))]

/-- A block held for a large request that is a bucket size, or for an oversize
request, was obtained with the request rounded up: when those are multiples of
`max_alignment`, the held large blocks add up to `heldLarge`. -/
theorem ExactFit.held_bytes {c : Client} (h : ExactFit (poolAllocator S) c)
    (hsized : ∀ e ∈ c.held, BucketSized (poolAllocator S) e.2)
    (haligned : ∀ s ∈ (poolAllocator S).sizes.drop (poolAllocator S).numSmall, s % maxAlignment = 0)
    (hover : ∀ e ∈ c.held, (poolAllocator S).maxSize < e.2 → e.2 % maxAlignment = 0) :
    ((c.held.filter fun e => (poolAllocator S).maxSmall < e.2).map fun e => c.pool.blockBytes e.1).sum =
      heldLarge (poolAllocator S) c.held := by
  unfold heldLarge
  congr 1
  refine List.map_congr_left fun e he => ?_
  obtain ⟨he, hlo⟩ := List.mem_filter.1 he
  replace hlo : (poolAllocator S).maxSmall < e.2 := by simpa using hlo
  obtain ⟨-, hbucket, hbig⟩ := h.held e he
  by_cases hhi : e.2 ≤ (poolAllocator S).maxSize
  · obtain ⟨b, hb, hbytes⟩ := hbucket hlo hhi
    have hn := bucket_size_eq (hsized e he) hlo hhi hb
    rw [getD_drop, Nat.add_sub_cancel' (findBucket_ok hb).1] at hn
    rw [hbytes, hn, roundUp_of_aligned (haligned _ (hsized e he hlo hhi))]
  · rw [hbig hlo (by omega), roundUp_of_aligned (hover e he (by omega))]

end Accounting

/-- Every request the client holds was held before the run or made by one of
its calls. -/
theorem Client.held_request {L : Layout} {Q : Nat → Prop} {calls : List Call} {c c' : Client}
    (hq : ∀ n : Fin sizeMod, Call.allocate n ∈ calls → Q n.val) (hc : ∀ e ∈ c.held, Q e.2)
    (h : c.run L calls = .ok c') : ∀ e ∈ c'.held, Q e.2 := by
  refine Client.run_induction_of_mem (P := fun c => ∀ e ∈ c.held, Q e.2) (fun hm hc hcall => ?_) hc h
  rcases Client.call_cases hcall with ⟨n, p, a, rfl, -, rfl⟩ | ⟨k, a, n, p, -, -, -, rfl⟩ |
      ⟨k, -, -, rfl⟩ | ⟨-, rfl⟩
  · intro e he
    rcases List.mem_append.1 he with he | he
    · exact hc e he
    · rw [List.mem_singleton.1 he]
      exact hq n hm
  · exact fun e he => hc e (List.mem_of_mem_eraseIdx he)
  · exact hc
  · exact hc

/-- When every large request up to `max_size` is one of the large bucket
sizes, `large_allocated` is the pooled bytes plus the held large requests,
modulo `2^64`, in every state any sequence of calls reaches. When besides the
large bucket sizes and the oversize requests are multiples of `max_alignment`,
so that nothing is rounded up, these are the bytes `operator new` gave for the
large blocks pooled or held. While they stay below `2^64`, the counters do not
wrap: `large_used ≤ large_allocated`, and the large part of `stats()` reports
the held requests as used and the pooled bytes as reserve. -/
theorem largeAllocated_of_bucket_sizes {S : Sizes} {calls : List Call} {c : Client}
    (hsized : ∀ n : Fin sizeMod, Call.allocate n ∈ calls → BucketSized (poolAllocator S) n.val)
    (hrun : (poolAllocator S).start.run (poolAllocator S) calls = .ok c) :
    c.pool.largeAllocated =
        (pooledBytes (poolAllocator S) c.pool + heldLarge (poolAllocator S) c.held) % sizeMod ∧
      ((∀ s ∈ (poolAllocator S).sizes.drop (poolAllocator S).numSmall, s % maxAlignment = 0) →
        (∀ n : Fin sizeMod, Call.allocate n ∈ calls → (poolAllocator S).maxSize < n.val →
          n.val % maxAlignment = 0) →
        c.pool.largeAllocated = largeBlockBytes (poolAllocator S) c % sizeMod) ∧
      (pooledBytes (poolAllocator S) c.pool + heldLarge (poolAllocator S) c.held < sizeMod →
        c.pool.largeUsed ≤ c.pool.largeAllocated ∧
        stats (poolAllocator S) c.pool (fun _ => (0, 0)) =
          (heldLarge (poolAllocator S) c.held, pooledBytes (poolAllocator S) c.pool)) := by
  have hinit : AllocatedOk (poolAllocator S) (poolAllocator S).start :=
    ⟨Wf.start, by simp [Layout.start], by
      simp [Layout.start, Layout.initial, pooledBytes, heldLarge,
        bucketBytes_empty _ _ fun _ => List.eq_of_mem_replicate]⟩
  have hok : AllocatedOk (poolAllocator S) c := Client.run_induction_of_mem
    (fun hm h hc => h.call (fun n hn => hsized n (hn ▸ hm)) hc) hinit hrun
  have hused : UsedOk (poolAllocator S) c := Client.run_induction (fun h hc => UsedOk.call h hc)
    ⟨by simp [Layout.start], by simp [Layout.start, Layout.initial, heldLarge]⟩ hrun
  have hfit : ExactFit (poolAllocator S) c :=
    Client.run_induction (fun h hc => ExactFit.call h hc) ExactFit.start hrun
  refine ⟨hok.allocated, fun haligned hover => ?_, fun hlt => ?_⟩
  · have hheld := Client.held_request (Q := fun n => (poolAllocator S).maxSize < n → n % maxAlignment = 0)
      hover (by simp [Layout.start]) hrun
    rw [hok.allocated, largeBlockBytes, hfit.pooled_bytes hok.wf haligned,
      hfit.held_bytes hok.sized haligned hheld]
  have hu : c.pool.largeUsed = heldLarge (poolAllocator S) c.held := by
    rw [hused.used, Nat.mod_eq_of_lt (by omega)]
  have ha : c.pool.largeAllocated =
      pooledBytes (poolAllocator S) c.pool + heldLarge (poolAllocator S) c.held := by
    rw [hok.allocated, Nat.mod_eq_of_lt hlt]
  refine ⟨by omega, ?_⟩
  rw [stats_no_small _ hok.wf.allocated_lt hok.wf.used_lt, hu, ha, sizeSub,
    show pooledBytes (poolAllocator S) c.pool + heldLarge (poolAllocator S) c.held +
        (sizeMod - heldLarge (poolAllocator S) c.held) =
      pooledBytes (poolAllocator S) c.pool + sizeMod by omega,
    Nat.add_mod_right, Nat.mod_eq_of_lt (by omega)]

/-- A `2^19`-byte block taken fresh, handed back and reused, then a fresh
`2^18`-byte block handed back: the client holds the reused block, the
`2^18`-byte bucket pools the other. The sizes and requests are multiples of
`max_alignment`, so `large_allocated` counts both as `operator new` gave them. -/
theorem largeAllocated_bucket_sized_reuse :
    let calls : List Call := [.allocate ⟨2 ^ 19, by decide⟩, .deallocate 0,
      .allocate ⟨2 ^ 19, by decide⟩, .allocate ⟨2 ^ 18, by decide⟩, .deallocate 1]
    ∃ c, (poolAllocator twoLargeSizes).start.run (poolAllocator twoLargeSizes) calls = .ok c ∧
      c.held = [(0, 2 ^ 19)] ∧ c.pool.largeBuckets = [[1], []] ∧
      (∀ n : Fin sizeMod, Call.allocate n ∈ calls → BucketSized (poolAllocator twoLargeSizes) n.val) ∧
      (∀ s ∈ (poolAllocator twoLargeSizes).sizes.drop (poolAllocator twoLargeSizes).numSmall,
          s % maxAlignment = 0) ∧
      (∀ n : Fin sizeMod, Call.allocate n ∈ calls → (poolAllocator twoLargeSizes).maxSize < n.val →
          n.val % maxAlignment = 0) ∧
      c.pool.largeAllocated =
          (pooledBytes (poolAllocator twoLargeSizes) c.pool +
            heldLarge (poolAllocator twoLargeSizes) c.held) % sizeMod ∧
      ((∀ s ∈ (poolAllocator twoLargeSizes).sizes.drop (poolAllocator twoLargeSizes).numSmall,
          s % maxAlignment = 0) →
        (∀ n : Fin sizeMod, Call.allocate n ∈ calls → (poolAllocator twoLargeSizes).maxSize < n.val →
          n.val % maxAlignment = 0) →
        c.pool.largeAllocated = largeBlockBytes (poolAllocator twoLargeSizes) c % sizeMod) ∧
      (pooledBytes (poolAllocator twoLargeSizes) c.pool +
          heldLarge (poolAllocator twoLargeSizes) c.held < sizeMod →
        c.pool.largeUsed ≤ c.pool.largeAllocated ∧
        stats (poolAllocator twoLargeSizes) c.pool (fun _ => (0, 0)) =
          (heldLarge (poolAllocator twoLargeSizes) c.held,
            pooledBytes (poolAllocator twoLargeSizes) c.pool)) := by
  intro calls
  have hmem : ∀ n : Fin sizeMod, Call.allocate n ∈ calls →
      n = ⟨2 ^ 19, by decide⟩ ∨ n = ⟨2 ^ 18, by decide⟩ := by
    intro n hn
    simp only [calls, List.mem_cons, Call.allocate.injEq, reduceCtorEq, List.mem_singleton,
      or_false, false_or, List.not_mem_nil] at hn
    tauto
  have hsized : ∀ n : Fin sizeMod, Call.allocate n ∈ calls →
      BucketSized (poolAllocator twoLargeSizes) n.val := fun n hn _ _ => by
    rcases hmem n hn with rfl | rfl <;> decide
  have hover : ∀ n : Fin sizeMod, Call.allocate n ∈ calls →
      (poolAllocator twoLargeSizes).maxSize < n.val → n.val % maxAlignment = 0 := fun n hn _ => by
    rcases hmem n hn with rfl | rfl <;> decide
  exact ⟨_, rfl, rfl, rfl, hsized, by decide, hover, largeAllocated_of_bucket_sizes hsized rfl⟩

end Parlay.PoolAllocator
