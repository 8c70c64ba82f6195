import Parlay.PoolAllocator.Basic

/-!
# What the pool allocator keeps, and where it slips

Results:
1. `allocate_ok_iff`, `deallocate_ok_iff`: for every admitted sizes vector the
   bucket searches index `sizes`, `small_allocators` and `large_buckets` only
   inside their bounds, except for a request of `0` bytes when no bucket is
   small: `max_small` is then `0`, so `n > max_small` fails and the request
   takes the small path into an empty `small_allocators`
   (`allocate_zero_without_small_buckets`).
2. `largeUsed_eq_heldLarge`: `large_used` is the sum of the large requests the
   client holds. `large_allocated` is not the bytes of the large blocks: a
   fresh block adds its request `n`, `clear` subtracts its bucket's size, and a
   pooled block is handed out again for a larger request, so the counter wraps
   below zero and `large_used` overtakes it (`large_counters_wrap`).
3. `allocate_fits`: a large request gets a block at least as large as the
   request, as long as neither the request nor any bucket size is within
   `max_alignment` of `2^64`; next to `2^64` the round-up wraps to a tiny block
   (`allocate_near_size_max_undersized`).
-/

namespace Parlay.PoolAllocator

/-! ## The layout the constructor computes -/

theorem countSmall_le : ∀ l : List Nat, countSmall l ≤ l.length
  | [] => le_refl _
  | s :: rest => by
    unfold countSmall
    split
    · simpa using countSmall_le rest
    · exact Nat.zero_le _

/-- A search from position `k` returns a bucket at or after `k`, inside `l`, whose
size covers the request. -/
theorem findBucket_drop_ok {n k b : Nat} {l : List Nat} (hb : findBucket n (l.drop k) k = .ok b) :
    k ≤ b ∧ b < l.length ∧ n ≤ l.getD b 0 := by
  obtain ⟨h1, h2, h3⟩ := findBucket_ok hb
  simp only [List.length_drop] at h2
  refine ⟨h1, by omega, ?_⟩
  simpa [Nat.add_sub_cancel' h1] using h3

theorem Layout.sizeAt_of_lt {L : Layout} {i : Nat} (h : i < L.sizes.length) :
    L.sizeAt i = .ok (L.sizes.getD i 0) := by
  simp [Layout.sizeAt, List.getElem?_eq_getElem h]

section Layout

variable (S : Sizes)

theorem numSmall_le : (poolAllocator S).numSmall ≤ (poolAllocator S).numBuckets :=
  countSmall_le S.toList

theorem numBuckets_pos : 0 < (poolAllocator S).numBuckets :=
  List.length_pos.mpr S.ne_nil

theorem maxSmall_eq_zero (h : (poolAllocator S).numSmall = 0) :
    (poolAllocator S).maxSmall = 0 := by
  simp only [poolAllocator] at h ⊢
  simp [h]

theorem maxSmall_eq (h : 0 < (poolAllocator S).numSmall) :
    (poolAllocator S).maxSmall =
      (poolAllocator S).sizes.getD ((poolAllocator S).numSmall - 1) 0 := by
  simp only [poolAllocator] at h ⊢
  simp [h]

theorem maxSize_eq :
    (poolAllocator S).maxSize =
      (poolAllocator S).sizes.getD ((poolAllocator S).numBuckets - 1) 0 := rfl

/-- A request above `max_small` and up to `max_size` finds a large bucket. -/
theorem findBucket_large {n : Nat} (hlo : (poolAllocator S).maxSmall < n)
    (hhi : n ≤ (poolAllocator S).maxSize) :
    ∃ b, findBucket n ((poolAllocator S).sizes.drop (poolAllocator S).numSmall)
        (poolAllocator S).numSmall = .ok b ∧
      (poolAllocator S).numSmall ≤ b ∧ b < (poolAllocator S).numBuckets := by
  have hle := numSmall_le S
  have hpos := numBuckets_pos S
  have hsmall := maxSmall_eq S
  have hmax := maxSize_eq S
  set L := poolAllocator S
  have hlt : L.numSmall < L.numBuckets := by
    by_contra hge
    rw [hsmall (by omega), show L.numSmall = L.numBuckets by omega, ← hmax] at hlo
    omega
  have hlast : L.numSmall + (L.numBuckets - 1 - L.numSmall) = L.numBuckets - 1 := by omega
  obtain ⟨b, hb, h1, h2, -⟩ := findBucket_of_le n (L.sizes.drop L.numSmall) L.numSmall
    (L.numBuckets - 1 - L.numSmall)
    (by simp [L, poolAllocator] at hlt ⊢; omega)
    (by rw [hmax] at hhi; simpa [hlast] using hhi)
  exact ⟨b, hb, h1, by omega⟩

/-- A request up to `max_small` finds a small bucket, when there is one. -/
theorem findBucket_small (n : Nat) (hs : 0 < (poolAllocator S).numSmall)
    (hn : n ≤ (poolAllocator S).maxSmall) :
    ∃ b, findBucket n (poolAllocator S).sizes 0 = .ok b ∧ b < (poolAllocator S).numSmall := by
  have hle := numSmall_le S
  rw [maxSmall_eq S hs] at hn
  obtain ⟨b, hb, -, h2, -⟩ := findBucket_of_le n _ 0 ((poolAllocator S).numSmall - 1)
    (by simp only [poolAllocator] at hle hs ⊢; omega) hn
  exact ⟨b, hb, by omega⟩

end Layout

/-! ## Array bounds -/

section Bounds

variable {S : Sizes} {p : Pool} {n : Nat}

theorem allocate_zero_of_numSmall_eq_zero (h : (poolAllocator S).numSmall = 0) :
    allocate (poolAllocator S) p 0 = .error (.smallAllocators 0) := by
  obtain ⟨s, rest, hs⟩ := List.exists_cons_of_ne_nil S.ne_nil
  have h8 := S.ge_eight s (by simp [hs])
  simp [allocate, maxSmall_eq_zero S h, poolAllocator, hs, findBucket,
    show ¬ 0 > s by omega, bind, Except.bind, Layout.smallAlloc]
  simpa [poolAllocator, hs] using h

theorem deallocate_zero_of_numSmall_eq_zero {a : Nat} (h : (poolAllocator S).numSmall = 0) :
    deallocate (poolAllocator S) p a 0 = .error (.smallAllocators 0) := by
  obtain ⟨s, rest, hs⟩ := List.exists_cons_of_ne_nil S.ne_nil
  have h8 := S.ge_eight s (by simp [hs])
  simp [deallocate, maxSmall_eq_zero S h, poolAllocator, hs, findBucket,
    show ¬ 0 > s by omega, bind, Except.bind, Layout.smallFree]
  simpa [poolAllocator, hs] using h

/-- `allocate` stays inside every array it indexes exactly when the request is
not `0` bytes with no small bucket. -/
theorem allocate_ok_iff :
    (∃ r, allocate (poolAllocator S) p n = .ok r) ↔
      ¬((poolAllocator S).numSmall = 0 ∧ n = 0) := by
  constructor
  · rintro ⟨r, hr⟩ ⟨hs, rfl⟩
    rw [allocate_zero_of_numSmall_eq_zero hs] at hr
    cases hr
  · intro hn
    unfold allocate
    split
    · unfold allocateLarge
      split
      · obtain ⟨b, hb, h1, h2⟩ := findBucket_large S ‹_› ‹_›
        have hj : b - (poolAllocator S).numSmall <
            (poolAllocator S).numBuckets - (poolAllocator S).numSmall := by omega
        cases hl : p.largeBuckets.getD (b - (poolAllocator S).numSmall) [] <;>
          simp only [hb, bind, Except.bind, Layout.popLarge, hj, if_true, hl, pure, Except.pure,
            Layout.sizeAt_of_lt (show b < (poolAllocator S).sizes.length from h2)] <;>
          exact ⟨_, rfl⟩
      · exact ⟨_, rfl⟩
    · have hs : 0 < (poolAllocator S).numSmall := by
        by_contra h0
        have := maxSmall_eq_zero S (by omega)
        omega
      obtain ⟨b, hb, hlt⟩ := findBucket_small S n hs (by omega)
      simp [hb, bind, Except.bind, Layout.smallAlloc, hlt]

/-- `deallocate` stays inside every array it indexes exactly when the size is
not `0` with no small bucket. -/
theorem deallocate_ok_iff {a : Nat} :
    (∃ p', deallocate (poolAllocator S) p a n = .ok p') ↔
      ¬((poolAllocator S).numSmall = 0 ∧ n = 0) := by
  constructor
  · rintro ⟨r, hr⟩ ⟨hs, rfl⟩
    rw [deallocate_zero_of_numSmall_eq_zero hs] at hr
    cases hr
  · intro hn
    unfold deallocate
    split
    · unfold deallocateLarge
      split
      · exact ⟨_, rfl⟩
      · obtain ⟨b, hb, h1, h2⟩ := findBucket_large S ‹_› (by omega)
        have hj : b - (poolAllocator S).numSmall <
            (poolAllocator S).numBuckets - (poolAllocator S).numSmall := by omega
        simp [hb, bind, Except.bind, Layout.pushLarge, hj]
    · have hs : 0 < (poolAllocator S).numSmall := by
        by_contra h0
        have := maxSmall_eq_zero S (by omega)
        omega
      obtain ⟨b, hb, hlt⟩ := findBucket_small S n hs (by omega)
      simp [hb, bind, Except.bind, Layout.smallFree, hlt]

end Bounds

/-- One bucket of `2^18` bytes: admitted, and none of its sizes is small. -/
def largeOnlySizes : Sizes :=
  ⟨[2 ^ 18], by simp, by decide, by decide, by simp⟩

theorem allocate_zero_without_small_buckets (p : Pool) :
    (poolAllocator largeOnlySizes).numSmall = 0 ∧
      allocate (poolAllocator largeOnlySizes) p 0 = .error (.smallAllocators 0) ∧
      deallocate (poolAllocator largeOnlySizes) p p.nextAddr 0 =
        .error (.smallAllocators 0) :=
  ⟨rfl, allocate_zero_of_numSmall_eq_zero rfl, deallocate_zero_of_numSmall_eq_zero rfl⟩

/-! ## Accounting -/

/-- The large requests the client holds, summed. -/
def heldLarge (L : Layout) (held : List (Nat × Nat)) : Nat :=
  ((held.filter fun e => L.maxSmall < e.2).map Prod.snd).sum

theorem heldLarge_append (L : Layout) (held : List (Nat × Nat)) (a n : Nat) :
    heldLarge L (held ++ [(a, n)]) = heldLarge L held + if L.maxSmall < n then n else 0 := by
  unfold heldLarge
  split <;> simp [List.filter_append, *]

theorem heldLarge_eraseIdx (L : Layout) {held : List (Nat × Nat)} {k a n : Nat}
    (h : held[k]? = some (a, n)) :
    heldLarge L held = heldLarge L (held.eraseIdx k) + if L.maxSmall < n then n else 0 := by
  obtain ⟨hk, hget⟩ := List.getElem?_eq_some_iff.mp h
  have hsplit : held = held.take k ++ (a, n) :: held.drop (k + 1) := by
    rw [← hget, ← List.drop_eq_getElem_cons hk, List.take_append_drop]
  rw [List.eraseIdx_eq_take_drop_succ]
  conv_lhs => rw [hsplit]
  unfold heldLarge
  split
  · simp [List.filter_append, List.filter_cons, List.sum_append, ‹_›]
    omega
  · simp [List.filter_append, List.filter_cons, List.sum_append, ‹_›]

theorem eq_of_pair_eq {p' : Pool} {a : Nat} {r : Pool × Nat} (h : (p', a) = r) :
    p' = r.1 ∧ a = r.2 := by
  subst h
  exact ⟨rfl, rfl⟩

theorem allocate_largeUsed {L : Layout} {p p' : Pool} {n a : Nat}
    (h : allocate L p n = .ok (p', a)) :
    p'.largeUsed = if L.maxSmall < n then sizeAdd p.largeUsed n else p.largeUsed := by
  rcases allocate_cases h with ⟨hn, b, -, -, he⟩ | ⟨hn, -, b, -, ⟨rest, -, -, rfl⟩ | ⟨-, he⟩⟩ |
      ⟨hn, -, he⟩
  · simp [(eq_of_pair_eq he).1, show ¬ L.maxSmall < n by omega]
  · simp [hn]
  all_goals simp [(eq_of_pair_eq he).1, hn]

theorem deallocate_largeUsed {L : Layout} {p p' : Pool} {a n : Nat}
    (h : deallocate L p a n = .ok p') :
    p'.largeUsed = if L.maxSmall < n then sizeSub p.largeUsed n else p.largeUsed := by
  rcases deallocate_cases h with ⟨hn, -, -, -, rfl⟩ | ⟨hn, -, -, -, -, rfl⟩ | ⟨hn, -, rfl⟩
  · simp [show ¬ L.maxSmall < n by omega]
  all_goals simp [hn]

theorem sizeAdd_mod (S n : Nat) : sizeAdd (S % sizeMod) n = (S + n) % sizeMod :=
  Nat.mod_add_mod S sizeMod n

theorem sizeSub_mod {S n : Nat} (hn : n < sizeMod) :
    sizeSub ((S + n) % sizeMod) n = S % sizeMod := by
  rw [sizeSub, Nat.mod_add_mod, show S + n + (sizeMod - n) = S + sizeMod by omega,
    Nat.add_mod_right]

/-- `large_used` is the sum of the held large requests, and every held request
is a `size_t`. -/
structure UsedOk (L : Layout) (c : Client) : Prop where
  held_lt : ∀ e ∈ c.held, e.2 < sizeMod
  used : c.pool.largeUsed = heldLarge L c.held % sizeMod

theorem UsedOk.call {L : Layout} {c c' : Client} {call : Call} (h : UsedOk L c)
    (hc : c.call L call = .ok c') : UsedOk L c' := by
  rcases Client.call_cases hc with ⟨n, p, a, -, ha, rfl⟩ | ⟨k, a, n, p, -, hk, hd, rfl⟩ |
      ⟨k, -, -, rfl⟩ | ⟨-, rfl⟩
  · refine ⟨fun e he => ?_, ?_⟩
    · rcases List.mem_append.mp he with he | he
      · exact h.held_lt e he
      · simp only [List.mem_singleton] at he
        exact he ▸ n.isLt
    · rw [allocate_largeUsed ha, heldLarge_append, h.used]
      split <;> simp [sizeAdd_mod]
  · refine ⟨fun e he => h.held_lt e (List.mem_of_mem_eraseIdx he), ?_⟩
    have hn : n < sizeMod := h.held_lt _ (List.getElem?_mem hk)
    rw [deallocate_largeUsed hd, h.used, heldLarge_eraseIdx L hk]
    split
    · exact sizeSub_mod hn
    · simp
  · exact h
  · exact ⟨h.held_lt, h.used⟩

/-- `large_used` is the sum of the large requests the client holds, in every
state any sequence of calls reaches. -/
theorem largeUsed_eq_heldLarge {L : Layout} {calls : List Call} {c : Client}
    (h : L.start.run L calls = .ok c) :
    c.pool.largeUsed = heldLarge L c.held % sizeMod :=
  (Client.run_induction (fun hc hcall => UsedOk.call hc hcall)
    ⟨by simp [Layout.start], by simp [Layout.start, Layout.initial, heldLarge]⟩ h).used

/-- Two large buckets, of `2^18` and `2^19` bytes. -/
def twoLargeSizes : Sizes :=
  ⟨[2 ^ 18, 2 ^ 19], by simp, by decide, by decide, by decide⟩

theorem largeUsed_eq_heldLarge_two_requests :
    let calls : List Call := [.allocate ⟨300000, by decide⟩, .allocate ⟨500000, by decide⟩,
      .deallocate 0]
    ∃ c, (poolAllocator twoLargeSizes).start.run (poolAllocator twoLargeSizes) calls = .ok c ∧
      c.pool.largeUsed = heldLarge (poolAllocator twoLargeSizes) c.held % sizeMod := by
  intro calls
  exact ⟨_, rfl, @largeUsed_eq_heldLarge _ calls _ rfl⟩

/-- A request of 300000 bytes gets a fresh `2^19`-byte block but adds 300000 to
`large_allocated`. Handed back, the block goes to the `2^19` bucket. `clear`
then subtracts `2^19` and `large_allocated` wraps below zero; a request of
500000 bytes instead gets the same block again, and `large_used` exceeds
`large_allocated`, so the reserve `stats()` reports wraps too. -/
theorem large_counters_wrap :
    ((poolAllocator twoLargeSizes).start.run (poolAllocator twoLargeSizes)
        [.allocate ⟨300000, by decide⟩, .deallocate 0, .clear]).map
        (·.pool.largeAllocated) = .ok (sizeMod - 224288) ∧
    ((poolAllocator twoLargeSizes).start.run (poolAllocator twoLargeSizes)
        [.allocate ⟨300000, by decide⟩, .deallocate 0, .allocate ⟨500000, by decide⟩]).map
        (fun c => (c.pool.largeUsed, c.pool.largeAllocated,
          stats (poolAllocator twoLargeSizes) c.pool fun _ => (0, 0))) =
      .ok (500000, 300000, 500000, sizeMod - 200000) :=
  ⟨rfl, rfl⟩

/-! ## Block sizes -/

theorem le_roundUp {s : Nat} (h : s + maxAlignment ≤ sizeMod) : s ≤ roundUp s := by
  unfold roundUp sizeAdd
  split
  · have : s % maxAlignment < maxAlignment := Nat.mod_lt _ (by decide)
    rw [Nat.mod_eq_of_lt (by omega)]
    omega
  · exact le_refl _

theorem mem_getD_set {l : List (List Nat)} {j j' : Nat} {x : List Nat} {a : Nat}
    (h : a ∈ (l.set j x).getD j' []) : (j' = j ∧ a ∈ x) ∨ (j' ≠ j ∧ a ∈ l.getD j' []) := by
  by_cases hj : j' = j
  · subst hj
    by_cases hl : j' < l.length
    · simp_all
    · simp_all [List.getElem?_eq_none]
  · right
    simp only [List.getD_eq_getElem?_getD, List.getElem?_set, Ne.symm hj, if_false] at h
    exact ⟨hj, by simpa using h⟩

/-- Every block held or pooled lies below the next fresh address; a pooled block
is at least as large as its bucket, and a held large block at least as large as
the bucket its request selects. -/
structure BlocksFit (L : Layout) (c : Client) : Prop where
  held_lt : ∀ e ∈ c.held, e.1 < c.pool.nextAddr
  pooled_lt : ∀ j, ∀ a ∈ c.pool.largeBuckets.getD j [], a < c.pool.nextAddr
  pooled_fit : ∀ j, ∀ a ∈ c.pool.largeBuckets.getD j [],
    L.sizes.getD (L.numSmall + j) 0 ≤ c.pool.blockBytes a
  held_fit : ∀ e ∈ c.held, ∀ b, L.maxSmall < e.2 → e.2 ≤ L.maxSize →
    findBucket e.2 (L.sizes.drop L.numSmall) L.numSmall = .ok b →
    L.sizes.getD b 0 ≤ c.pool.blockBytes e.1

theorem getD_mem_of_lt {l : List Nat} {i : Nat} (h : i < l.length) : l.getD i 0 ∈ l := by
  simp [List.getElem?_eq_getElem h]

theorem getD_initial (L : Layout) (j : Nat) : L.initial.largeBuckets.getD j [] = [] := by
  simp only [Layout.initial, List.getD_eq_getElem?_getD, List.getElem?_replicate]
  split <;> rfl

theorem getD_clear (L : Layout) (p : Pool) (j : Nat) :
    (clear L p).largeBuckets.getD j [] = [] := by
  simp only [PoolAllocator.clear, List.getD_eq_getElem?_getD, List.getElem?_map]
  cases p.largeBuckets[j]? <;> rfl

section Fit

variable {L : Layout}

/-- A fresh block for the client's new request keeps `BlocksFit`, when it is at
least as large as the bucket the request selects. -/
theorem BlocksFit.fresh {c : Client} {p : Pool} {bytes n : Nat} (h : BlocksFit L c)
    (hbuckets : p.largeBuckets = c.pool.largeBuckets) (hnext : p.nextAddr = c.pool.nextAddr + 1)
    (hbytes : p.blockBytes = Function.update c.pool.blockBytes c.pool.nextAddr bytes)
    (hfit : ∀ b, L.maxSmall < n → n ≤ L.maxSize →
      findBucket n (L.sizes.drop L.numSmall) L.numSmall = .ok b → L.sizes.getD b 0 ≤ bytes) :
    BlocksFit L ⟨p, c.held ++ [(c.pool.nextAddr, n)]⟩ := by
  have old : ∀ x, x < c.pool.nextAddr → p.blockBytes x = c.pool.blockBytes x := fun x hx => by
    rw [hbytes, Function.update_noteq (Nat.ne_of_lt hx)]
  refine ⟨fun e he => ?_, fun j a ha => ?_, fun j a ha => ?_, fun e he b h1 h2 hb => ?_⟩
  · rcases List.mem_append.mp he with he | he
    · exact hnext ▸ Nat.lt_succ_of_lt (h.held_lt e he)
    · simp only [List.mem_singleton] at he
      simp [he, hnext]
  · rw [hbuckets] at ha
    exact hnext ▸ Nat.lt_succ_of_lt (h.pooled_lt j a ha)
  · rw [hbuckets] at ha
    rw [old a (h.pooled_lt j a ha)]
    exact h.pooled_fit j a ha
  · rcases List.mem_append.mp he with he | he
    · rw [old e.1 (h.held_lt e he)]
      exact h.held_fit e he b h1 h2 hb
    · simp only [List.mem_singleton] at he
      subst he
      simpa [hbytes] using hfit b h1 h2 hb

theorem BlocksFit.allocate (hwrap : ∀ s ∈ L.sizes, s + maxAlignment ≤ sizeMod) {c : Client}
    {p : Pool} {n a : Nat} (h : BlocksFit L c) (ha : allocate L c.pool n = .ok (p, a)) :
    BlocksFit L ⟨p, c.held ++ [(a, n)]⟩ := by
  rcases allocate_cases ha with ⟨hn, b, -, -, he⟩ |
      ⟨hn, hmax, b, hb, ⟨rest, -, hcons, rfl⟩ | ⟨-, he⟩⟩ | ⟨hn, hmax, he⟩
  · obtain ⟨rfl, rfl⟩ := eq_of_pair_eq he
    exact h.fresh rfl rfl rfl fun _ h1 => absurd h1 (by omega)
  · have hlo := (findBucket_ok hb).1
    replace hcons : c.pool.largeBuckets.getD (b - L.numSmall) [] = a :: rest := hcons
    have hhead : a ∈ c.pool.largeBuckets.getD (b - L.numSmall) [] := by
      rw [hcons]
      exact List.mem_cons_self a rest
    refine ⟨fun e he => ?_, fun j x hx => ?_, fun j x hx => ?_, fun e he b' _ _ hb' => ?_⟩
    · rcases List.mem_append.mp he with he | he
      · exact h.held_lt e he
      · simp only [List.mem_singleton] at he
        subst he
        exact h.pooled_lt _ a hhead
    · rcases mem_getD_set hx with ⟨rfl, hrest⟩ | ⟨-, hx⟩
      · exact h.pooled_lt _ x (by rw [hcons]; exact List.mem_cons_of_mem a hrest)
      · exact h.pooled_lt j x hx
    · rcases mem_getD_set hx with ⟨rfl, hrest⟩ | ⟨-, hx⟩
      · exact h.pooled_fit _ x (by rw [hcons]; exact List.mem_cons_of_mem a hrest)
      · exact h.pooled_fit j x hx
    · rcases List.mem_append.mp he with he | he
      · exact h.held_fit e he b' ‹_› ‹_› hb'
      · simp only [List.mem_singleton] at he
        subst he
        obtain rfl : b' = b := by rw [hb] at hb'; exact (Except.ok.inj hb').symm
        simpa [Nat.add_sub_cancel' hlo] using h.pooled_fit _ a hhead
  · obtain ⟨rfl, rfl⟩ := eq_of_pair_eq he
    refine h.fresh rfl rfl rfl fun b' _ _ hb' => ?_
    obtain rfl : b' = b := by rw [hb] at hb'; exact (Except.ok.inj hb').symm
    exact le_roundUp (hwrap _ (getD_mem_of_lt (findBucket_drop_ok hb).2.1))
  · obtain ⟨rfl, rfl⟩ := eq_of_pair_eq he
    exact h.fresh rfl rfl rfl fun _ _ h2 => absurd h2 (by omega)

theorem BlocksFit.deallocate {c : Client} {p : Pool} {k a n : Nat} (h : BlocksFit L c)
    (hk : c.held[k]? = some (a, n)) (hd : deallocate L c.pool a n = .ok p) :
    BlocksFit L ⟨p, c.held.eraseIdx k⟩ := by
  have hmem := List.getElem?_mem hk
  have sub : ∀ e ∈ c.held.eraseIdx k, e ∈ c.held := fun _ he => List.mem_of_mem_eraseIdx he
  rcases deallocate_cases hd with ⟨-, -, -, -, rfl⟩ | ⟨hn, hmax, b, hb, -, rfl⟩ | ⟨-, -, rfl⟩
  · exact ⟨fun e he => h.held_lt e (sub e he), h.pooled_lt, h.pooled_fit,
      fun e he => h.held_fit e (sub e he)⟩
  · have hlo := (findBucket_ok hb).1
    refine ⟨fun e he => h.held_lt e (sub e he), fun j x hx => ?_, fun j x hx => ?_,
      fun e he => h.held_fit e (sub e he)⟩
    · rcases mem_getD_set hx with ⟨rfl, hpushed⟩ | ⟨-, hx⟩
      · rcases List.mem_cons.mp hpushed with rfl | hold
        · exact h.held_lt _ hmem
        · exact h.pooled_lt _ x hold
      · exact h.pooled_lt j x hx
    · rcases mem_getD_set hx with ⟨rfl, hpushed⟩ | ⟨-, hx⟩
      · rcases List.mem_cons.mp hpushed with rfl | hold
        · simpa [Nat.add_sub_cancel' hlo] using h.held_fit _ hmem b hn hmax hb
        · exact h.pooled_fit _ x hold
      · exact h.pooled_fit j x hx
  · exact ⟨fun e he => h.held_lt e (sub e he), h.pooled_lt, h.pooled_fit,
      fun e he => h.held_fit e (sub e he)⟩

theorem BlocksFit.clear {c : Client} (h : BlocksFit L c) :
    BlocksFit L { c with pool := clear L c.pool } :=
  ⟨h.held_lt, fun j a ha => absurd (getD_clear L c.pool j ▸ ha) (List.not_mem_nil a),
    fun j a ha => absurd (getD_clear L c.pool j ▸ ha) (List.not_mem_nil a), h.held_fit⟩

theorem BlocksFit.call (hwrap : ∀ s ∈ L.sizes, s + maxAlignment ≤ sizeMod) {c c' : Client}
    {call : Call} (h : BlocksFit L c) (hc : c.call L call = .ok c') : BlocksFit L c' := by
  rcases Client.call_cases hc with ⟨n, p, a, -, ha, rfl⟩ | ⟨k, a, n, p, -, hk, hd, rfl⟩ |
      ⟨k, -, -, rfl⟩ | ⟨-, rfl⟩
  · exact h.allocate hwrap ha
  · exact h.deallocate hk hd
  · exact h
  · exact h.clear

end Fit

/-- A request above `max_small` gets a block of at least the requested size, in
every state any sequence of calls reaches, when neither the request nor a
bucket size is within `max_alignment` of `2^64`. -/
theorem allocate_fits {L : Layout} (hwrap : ∀ s ∈ L.sizes, s + maxAlignment ≤ sizeMod)
    {calls : List Call} {c : Client} {p : Pool} {n a : Nat}
    (hrun : L.start.run L calls = .ok c) (hlarge : L.maxSmall < n)
    (hn : n + maxAlignment ≤ sizeMod) (h : allocate L c.pool n = .ok (p, a)) :
    n ≤ p.blockBytes a := by
  have hfit : BlocksFit L c := Client.run_induction (fun hc hcall => hc.call hwrap hcall)
    ⟨by simp [Layout.start], fun j a ha => absurd (getD_initial L j ▸ ha) (List.not_mem_nil a),
      fun j a ha => absurd (getD_initial L j ▸ ha) (List.not_mem_nil a),
      by simp [Layout.start]⟩ hrun
  rcases allocate_cases h with ⟨hn', -⟩ | ⟨-, hmax, b, hb, ⟨rest, -, hcons, rfl⟩ | ⟨-, he⟩⟩ |
      ⟨-, -, he⟩
  · omega
  · obtain ⟨hlo, -, hsize⟩ := findBucket_drop_ok hb
    replace hcons : c.pool.largeBuckets.getD (b - L.numSmall) [] = a :: rest := hcons
    have hpooled := hfit.pooled_fit _ a (by rw [hcons]; exact List.mem_cons_self a rest)
    rw [Nat.add_sub_cancel' hlo] at hpooled
    exact le_trans hsize hpooled
  · obtain ⟨rfl, rfl⟩ := eq_of_pair_eq he
    obtain ⟨-, hlt, hsize⟩ := findBucket_drop_ok hb
    simp only [Pool.newLarge_blockBytes, Pool.newLarge_addr, Function.update_same]
    exact le_trans hsize (le_roundUp (hwrap _ (getD_mem_of_lt hlt)))
  · obtain ⟨rfl, rfl⟩ := eq_of_pair_eq he
    simpa using le_roundUp hn

/-- A `2^19`-byte block handed back is reused, with no fresh block, for a
request of 300000 bytes. -/
theorem allocate_fits_reused_block :
    let calls : List Call := [.allocate ⟨2 ^ 19, by decide⟩, .deallocate 0]
    ∃ c p a, (poolAllocator twoLargeSizes).start.run (poolAllocator twoLargeSizes) calls = .ok c ∧
      allocate (poolAllocator twoLargeSizes) c.pool 300000 = .ok (p, a) ∧ a = 0 ∧ p.nextAddr = 1 ∧
      300000 ≤ p.blockBytes a := by
  intro calls
  exact ⟨_, _, _, rfl, rfl, rfl, rfl, @allocate_fits (poolAllocator twoLargeSizes) (by decide)
    calls _ _ 300000 _ rfl (by decide) (by decide) rfl⟩

/-- A single bucket of 8 bytes. -/
def eightByteSizes : Sizes :=
  ⟨[8], by simp, by decide, by decide, by simp⟩

theorem roundUp_sizeMax : roundUp (sizeMod - 1) = 0 := by decide

/-- A request of `2^64 - 1` bytes is above `max_size`: `alloc_size = n` is rounded
up by one byte to `2^64`, which wraps to `0`, whatever the allocator held before. -/
theorem allocate_near_size_max_undersized (p : Pool) :
    (allocate (poolAllocator eightByteSizes) p (sizeMod - 1)).map
      (fun r => r.1.blockBytes r.2) = .ok 0 := by
  have hsmall : (poolAllocator eightByteSizes).maxSmall = 8 := rfl
  have hmax : (poolAllocator eightByteSizes).maxSize = 8 := rfl
  simp only [allocate, allocateLarge, hsmall, hmax, show sizeMod - 1 > 8 by decide,
    show ¬ sizeMod - 1 ≤ 8 by decide, if_true, if_false]
  simp only [pure, Except.pure, Except.map, Pool.newLarge_blockBytes, Pool.newLarge_addr,
    Function.update_same, roundUp_sizeMax]

end Parlay.PoolAllocator
