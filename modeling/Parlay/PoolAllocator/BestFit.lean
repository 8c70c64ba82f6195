import Parlay.PoolAllocator.Ownership

/-!
# Every block has exactly the size of the bucket that fits its request

`allocate(n)` searches `while (n > sizes[bucket]) bucket++`: it stops at the
first bucket whose size is at least `n`. A small block is obtained with that
bucket's size, a large one with that size rounded up to `max_alignment`, and an
oversize one with `n` rounded up. `deallocate(ptr, n)` pushes a large block on
the bucket the same search selects, so a block taken from a bucket was obtained
with that bucket's size, however often it was handed back and reused. So every
block the client holds has exactly the bytes its request prescribes, and the
bucket is the first one that fits the request.

Results:
1. `findBucket_least`: the bucket search passes only sizes below `n`.
2. `ExactFit.call`: every call keeps the exact sizes of the held and the
   pooled blocks.
3. `held_block_best_fit`: in every state any sequence of calls reaches, a block
   held for `n` bytes has the size of the first bucket that fits `n`, rounded
   up above `max_small`, or `n` rounded up above `max_size`.
-/

namespace Parlay.PoolAllocator

/-! ## The bucket search -/

/-- The search from position `start` passes only sizes below `n`. -/
theorem findBucket_least {n : Nat} : ∀ {l : List Nat} {start b : Nat},
    findBucket n l start = .ok b → ∀ j, start ≤ j → j < b → l.getD (j - start) 0 < n
  | [], _, _, h => by simp [findBucket] at h
  | s :: rest, start, b, h => by
    unfold findBucket at h
    split at h
    · intro j hj hjb
      rcases Nat.eq_or_lt_of_le hj with rfl | hlt
      · simpa using ‹n > s›
      · have := findBucket_least h j hlt hjb
        rwa [show j - start = (j - (start + 1)) + 1 by omega, List.getD_cons_succ]
    · cases h
      intro j hj hjb
      omega

/-! ## The bytes a request is served with -/

/-- A block of `bytes` bytes serves a request for `n`: the size of the bucket
the search selects for a small request, that size rounded up to
`max_alignment` for a large one, and `n` rounded up for an oversize one. -/
def Layout.Serves (L : Layout) (n bytes : Nat) : Prop :=
  (n ≤ L.maxSmall → ∃ b, findBucket n L.sizes 0 = .ok b ∧ bytes = L.sizes.getD b 0) ∧
  (L.maxSmall < n → n ≤ L.maxSize →
    ∃ b, findBucket n (L.sizes.drop L.numSmall) L.numSmall = .ok b ∧
      bytes = roundUp (L.sizes.getD b 0)) ∧
  (L.maxSmall < n → L.maxSize < n → bytes = roundUp n)

/-- Every block is held or pooled at most once, below the next fresh address; a
held block has the bytes its request is served with, and a pooled block the
size of its bucket rounded up. -/
structure ExactFit (L : Layout) (c : Client) : Prop where
  excl : Exclusive c
  held : ∀ e ∈ c.held, L.Serves e.2 (c.pool.blockBytes e.1)
  pooled : ∀ j, ∀ a ∈ c.pool.largeBuckets.getD j [],
    c.pool.blockBytes a = roundUp (L.sizes.getD (L.numSmall + j) 0)

theorem getD_mem_of_mem {l : List (List Nat)} {j a : Nat} (h : a ∈ l.getD j []) :
    l.getD j [] ∈ l := by
  rw [List.getD_eq_getElem?_getD] at h ⊢
  cases hj : l[j]? with
  | none => simp [hj] at h
  | some x => simpa using List.getElem?_mem hj

theorem Exclusive.held_lt {c : Client} (h : Exclusive c) {e : Nat × Nat} (he : e ∈ c.held) :
    e.1 < c.pool.nextAddr :=
  h.lt_next _ (List.mem_append_left _ (List.mem_map_of_mem _ he))

theorem Exclusive.pooled_lt {c : Client} (h : Exclusive c) {j a : Nat}
    (ha : a ∈ c.pool.largeBuckets.getD j []) : a < c.pool.nextAddr :=
  h.lt_next _ (List.mem_append_right _ (List.mem_flatten.2 ⟨_, getD_mem_of_mem ha, ha⟩))

section Calls

variable {L : Layout}

theorem ExactFit.start : ExactFit L L.start :=
  ⟨Exclusive.start, by simp [Layout.start], fun j a ha => by
    simp only [Layout.start, getD_initial] at ha
    exact absurd ha (List.not_mem_nil a)⟩

/-- A fresh block for a new request, obtained with bytes that serve it. The
blocks held or pooled before lie below its address and keep their bytes. -/
theorem ExactFit.fresh {c : Client} {p : Pool} {n bytes : Nat} (h : ExactFit L c)
    (hbuckets : p.largeBuckets = c.pool.largeBuckets) (hnext : p.nextAddr = c.pool.nextAddr + 1)
    (hbytes : p.blockBytes = Function.update c.pool.blockBytes c.pool.nextAddr bytes)
    (hserves : L.Serves n bytes) : ExactFit L ⟨p, c.held ++ [(c.pool.nextAddr, n)]⟩ := by
  have old : ∀ x, x < c.pool.nextAddr → p.blockBytes x = c.pool.blockBytes x := fun x hx => by
    rw [hbytes, Function.update_noteq (Nat.ne_of_lt hx)]
  refine ⟨h.excl.fresh hbuckets hnext, fun e he => ?_, fun j a ha => ?_⟩
  · rcases List.mem_append.mp he with he | he
    · rw [old _ (h.excl.held_lt he)]
      exact h.held e he
    · simp only [List.mem_singleton] at he
      subst he
      simpa [hbytes] using hserves
  · rw [hbuckets] at ha
    rw [old _ (h.excl.pooled_lt ha)]
    exact h.pooled j a ha

theorem ExactFit.allocate {c : Client} {p : Pool} {n a : Nat} (h : ExactFit L c)
    (ha : allocate L c.pool n = .ok (p, a)) : ExactFit L ⟨p, c.held ++ [(a, n)]⟩ := by
  rcases allocate_cases ha with ⟨hn, b, hb, -, he⟩ |
      ⟨hn, hmax, b, hb, ⟨rest, -, hcons, rfl⟩ | ⟨-, he⟩⟩ | ⟨hn, hmax, he⟩
  · -- a small block with the bucket's size
    obtain ⟨rfl, rfl⟩ := eq_of_pair_eq he
    exact h.fresh rfl rfl rfl ⟨fun _ => ⟨b, hb, rfl⟩, fun h1 => absurd h1 (by omega),
      fun h1 => absurd h1 (by omega)⟩
  · -- a pooled block, obtained with its bucket's size
    have hlo := (findBucket_ok hb).1
    replace hcons : c.pool.largeBuckets.getD (b - L.numSmall) [] = a :: rest := hcons
    have hhead : a ∈ c.pool.largeBuckets.getD (b - L.numSmall) [] := by
      rw [hcons]
      exact List.mem_cons_self a rest
    refine ⟨h.excl.allocate ha, fun e he => ?_, fun j x hx => ?_⟩
    · rcases List.mem_append.mp he with he | he
      · exact h.held e he
      · simp only [List.mem_singleton] at he
        subst he
        refine ⟨fun h1 => absurd h1 (by omega), fun _ _ => ⟨b, hb, ?_⟩,
          fun _ h2 => absurd h2 (by omega)⟩
        simpa [Nat.add_sub_cancel' hlo] using h.pooled _ a hhead
    · rcases mem_getD_set hx with ⟨rfl, hrest⟩ | ⟨-, hx⟩
      · exact h.pooled _ x (by rw [hcons]; exact List.mem_cons_of_mem a hrest)
      · exact h.pooled j x hx
  · -- a fresh block of the bucket's size, rounded up
    obtain ⟨rfl, rfl⟩ := eq_of_pair_eq he
    exact h.fresh rfl rfl rfl ⟨fun h1 => absurd h1 (by omega), fun _ _ => ⟨b, hb, rfl⟩,
      fun _ h2 => absurd h2 (by omega)⟩
  · -- an oversize block of the request, rounded up
    obtain ⟨rfl, rfl⟩ := eq_of_pair_eq he
    exact h.fresh rfl rfl rfl ⟨fun h1 => absurd h1 (by omega), fun _ h2 => absurd h2 (by omega),
      fun _ _ => rfl⟩

theorem ExactFit.deallocate {c : Client} {p : Pool} {k a n : Nat} (h : ExactFit L c)
    (hk : c.held[k]? = some (a, n)) (hd : deallocate L c.pool a n = .ok p) :
    ExactFit L ⟨p, c.held.eraseIdx k⟩ := by
  have hmem := List.getElem?_mem hk
  have sub : ∀ e ∈ c.held.eraseIdx k, e ∈ c.held := fun _ he => List.mem_of_mem_eraseIdx he
  have hex := h.excl.deallocate hk hd
  rcases deallocate_cases hd with ⟨-, -, -, -, rfl⟩ | ⟨hn, hmax, b, hb, -, rfl⟩ | ⟨-, -, rfl⟩
  · exact ⟨hex, fun e he => h.held e (sub e he), h.pooled⟩
  · -- the block goes on the bucket its request selects
    have hlo := (findBucket_ok hb).1
    refine ⟨hex, fun e he => h.held e (sub e he), fun j x hx => ?_⟩
    rcases mem_getD_set hx with ⟨rfl, hpushed⟩ | ⟨-, hx⟩
    · rcases List.mem_cons.mp hpushed with rfl | hold
      · obtain ⟨b', hb', hbytes⟩ := (h.held _ hmem).2.1 hn hmax
        obtain rfl : b' = b := by rw [hb] at hb'; exact (Except.ok.inj hb').symm
        simpa [Nat.add_sub_cancel' hlo] using hbytes
      · exact h.pooled _ x hold
    · exact h.pooled j x hx
  · exact ⟨hex, fun e he => h.held e (sub e he), h.pooled⟩

theorem ExactFit.clear {c : Client} (h : ExactFit L c) :
    ExactFit L { c with pool := clear L c.pool } :=
  ⟨h.excl.clear, h.held, fun j a ha => absurd (getD_clear L c.pool j ▸ ha) (List.not_mem_nil a)⟩

theorem ExactFit.call {c c' : Client} {call : Call} (h : ExactFit L c)
    (hc : c.call L call = .ok c') : ExactFit L c' := by
  rcases Client.call_cases hc with ⟨n, p, a, -, ha, rfl⟩ | ⟨k, a, n, p, -, hk, hd, rfl⟩ |
      ⟨k, -, -, rfl⟩ | ⟨-, rfl⟩
  · exact h.allocate ha
  · exact h.deallocate hk hd
  · exact h
  · exact h.clear

end Calls

/-! ## The first bucket that fits -/

section BestFit

variable {S : Sizes}

/-- The small buckets are at most `max_small`. -/
theorem size_le_maxSmall {j : Nat} (hj : j < (poolAllocator S).numSmall) :
    (poolAllocator S).sizes.getD j 0 ≤ (poolAllocator S).maxSmall := by
  have hle : (poolAllocator S).numSmall ≤ S.toList.length := numSmall_le S
  rw [maxSmall_eq S (by omega)]
  show S.toList.getD j 0 ≤ S.toList.getD ((poolAllocator S).numSmall - 1) 0
  rcases Nat.lt_or_eq_of_le (show j ≤ (poolAllocator S).numSmall - 1 by omega) with hlt | heq
  · rw [List.getD_eq_getElem _ _ (by omega), List.getD_eq_getElem _ _ (by omega)]
    exact Nat.le_of_lt (List.pairwise_iff_getElem.1 S.increasing j _ (by omega) (by omega) hlt)
  · rw [heq]

end BestFit

/-- In every state any sequence of calls reaches, a block the client holds for
a request of `n` bytes was obtained with the size of the first bucket `b` that
fits `n`: exactly that size for a small request, that size rounded up to
`max_alignment` above `max_small`, and `n` rounded up above `max_size`. A
reused block is no exception. -/
theorem held_block_best_fit {S : Sizes} {calls : List Call} {c : Client}
    (hrun : (poolAllocator S).start.run (poolAllocator S) calls = .ok c) {a n : Nat}
    (hheld : (a, n) ∈ c.held) :
    (n ≤ (poolAllocator S).maxSmall → ∃ b, n ≤ S.toList.getD b 0 ∧
      (∀ j < b, S.toList.getD j 0 < n) ∧ c.pool.blockBytes a = S.toList.getD b 0) ∧
    ((poolAllocator S).maxSmall < n → n ≤ (poolAllocator S).maxSize → ∃ b, n ≤ S.toList.getD b 0 ∧
      (∀ j < b, S.toList.getD j 0 < n) ∧ c.pool.blockBytes a = roundUp (S.toList.getD b 0)) ∧
    ((poolAllocator S).maxSmall < n → (poolAllocator S).maxSize < n →
      c.pool.blockBytes a = roundUp n) := by
  obtain ⟨hsmall, hlarge, hover⟩ :=
    (Client.run_induction (fun h hc => ExactFit.call h hc) ExactFit.start hrun).held _ hheld
  refine ⟨fun hn => ?_, fun hlo hhi => ?_, hover⟩
  · obtain ⟨b, hb, hbytes⟩ := hsmall hn
    refine ⟨b, by simpa using (findBucket_ok hb).2.2, fun j hj => ?_, hbytes⟩
    simpa using findBucket_least hb j (Nat.zero_le j) hj
  · obtain ⟨b, hb, hbytes⟩ := hlarge hlo hhi
    obtain ⟨-, -, hfits⟩ := findBucket_drop_ok hb
    refine ⟨b, hfits, fun j hj => ?_, hbytes⟩
    by_cases hs : j < (poolAllocator S).numSmall
    · exact lt_of_le_of_lt (size_le_maxSmall hs) hlo
    · have := findBucket_least hb j (by omega) hj
      simpa [List.getD_eq_getElem?_getD, Nat.add_sub_cancel' (show (poolAllocator S).numSmall ≤ j by omega)]
        using this

/-- A `2^19`-byte block handed back is reused for a request of 300000 bytes:
the `2^19`-byte bucket is the first of `[2^18, 2^19]` that fits it, and the
block still has the bytes it was obtained with. -/
theorem held_block_best_fit_reused :
    let calls : List Call :=
      [.allocate ⟨2 ^ 19, by decide⟩, .deallocate 0, .allocate ⟨300000, by decide⟩]
    ∃ c, (poolAllocator twoLargeSizes).start.run (poolAllocator twoLargeSizes) calls = .ok c ∧
      c.held = [(0, 300000)] ∧ c.pool.nextAddr = 1 ∧
      ((300000 ≤ (poolAllocator twoLargeSizes).maxSmall → ∃ b, 300000 ≤ twoLargeSizes.toList.getD b 0 ∧
        (∀ j < b, twoLargeSizes.toList.getD j 0 < 300000) ∧
        c.pool.blockBytes 0 = twoLargeSizes.toList.getD b 0) ∧
      ((poolAllocator twoLargeSizes).maxSmall < 300000 → 300000 ≤ (poolAllocator twoLargeSizes).maxSize →
        ∃ b, 300000 ≤ twoLargeSizes.toList.getD b 0 ∧ (∀ j < b, twoLargeSizes.toList.getD j 0 < 300000) ∧
          c.pool.blockBytes 0 = roundUp (twoLargeSizes.toList.getD b 0)) ∧
      ((poolAllocator twoLargeSizes).maxSmall < 300000 → (poolAllocator twoLargeSizes).maxSize < 300000 →
        c.pool.blockBytes 0 = roundUp 300000)) := by
  intro calls
  exact ⟨_, rfl, rfl, rfl,
    @held_block_best_fit twoLargeSizes calls _ rfl 0 300000 (List.mem_cons_self _ _)⟩

end Parlay.PoolAllocator
