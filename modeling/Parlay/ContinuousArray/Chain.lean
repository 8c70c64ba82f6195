import Parlay.ContinuousArray.Basic

/-!
# The live chain of blocks

When the reuse list stays empty (the deque never calls `free_retired`),
`get_block` always calls `malloc`, and `malloc` hands out addresses in the same
order as `ca_alloc` hands out ids: every block sits at the address equal to its
id. `Chain ca lo hi` says that the blocks `lo` (the tail) to `hi` (the head)
are linked both ways. This module gives the owner's `put_head` and `get_head`
their specifications on such a chain: each moves `block_in_use` by at most one
block and lands on `index >> BLOCK_SIZE_LOG`, so their assertions hold.

Results:
1. `Chain.create`: the constructor builds the chain of block 0.
2. `putHead_chain`: `put_head(b, v)` with `block_in_use` on the block of
   `b - 1` or of `b` stores `v` at `b`, allocating the next block when `b`
   starts one past the head.
3. `getHead_chain`: `get_head(b)` with `block_in_use` on the block of `b` or of
   `b + 1` reads the element at `b`.
4. `putHead_misuse`: `put_head(b, v)` for any other `b` dereferences null or
   fails its assertion.
-/

namespace Parlay.ContinuousArray

theorem desiredBlockId_eq (index : Nat) : desiredBlockId index = index / 16384 := by
  simp [desiredBlockId, blockSizeLog, Nat.shiftRight_eq_div_pow]

theorem offset_eq (index : Nat) : offset index = index % 16384 := by
  have h := Nat.and_pow_two_sub_one_eq_mod index 14
  simpa [offset, blockSizeMask, blockSize, blockSizeLog] using h

variable {T : Type}

/-- The element stored for the logical index `index`, in the block whose
address is its id. -/
def CA.value (ca : CA T) (index : Nat) : Option T :=
  (ca.mem (desiredBlockId index)).bind fun blk => blk.array (offset index)

/-- Blocks `lo` to `hi` form the live chain, at the addresses equal to their ids. -/
structure Chain (ca : CA T) (lo hi : Nat) : Prop where
  tail : ca.tail = some lo
  head : ca.head = some hi
  le : lo ≤ hi
  brk : ca.brk = hi + 1
  curr : ca.currBlockId = hi + 1
  reuse : ca.blocksToReuse = none
  ids : ∀ k, k ≤ hi → (ca.mem k).map Block.blockId = some k
  next : ∀ k, k < hi → (ca.mem k).bind Block.next = some (k + 1)
  headNext : (ca.mem hi).bind Block.next = none
  prev : ∀ k, lo < k → k ≤ hi → (ca.mem k).bind Block.prev = some (k - 1)
  fresh : ∀ k, hi < k → ca.mem k = none

theorem Chain.create : Chain (create : CA T) 0 0 where
  tail := rfl
  head := rfl
  le := le_rfl
  brk := rfl
  curr := rfl
  reuse := rfl
  ids k hk := by obtain rfl : k = 0 := by omega
                 rfl
  next k hk := absurd hk (Nat.not_lt_zero k)
  headNext := rfl
  prev k h1 h2 := absurd h2 (by omega)
  fresh k hk := by simp [ContinuousArray.create, malloc, unconstructed, show k ≠ 0 by omega]

theorem Chain.mem {ca : CA T} {lo hi k : Nat} (hc : Chain ca lo hi) (hk : k ≤ hi) :
    ∃ blk, ca.mem k = some blk ∧ blk.blockId = k := by
  simpa using hc.ids k hk

/-- Moving `block_in_use` leaves the chain alone. -/
theorem Chain.setInUse {ca : CA T} {lo hi : Nat} (hc : Chain ca lo hi) (u : Option Nat) :
    Chain { ca with blockInUse := u } lo hi :=
  ⟨hc.tail, hc.head, hc.le, hc.brk, hc.curr, hc.reuse, hc.ids, hc.next, hc.headNext, hc.prev,
    hc.fresh⟩

/-! ## Storing an element -/

/-- `blk->array[off].store(v)` on the block at address `p`. -/
def CA.store (ca : CA T) (p off : Nat) (v : T) : CA T :=
  let stored := (ca.mem p).map fun blk => { blk with array := Function.update blk.array off (some v) }
  { ca with mem := Function.update ca.mem p stored }

@[simp] theorem CA.store_tail (ca : CA T) (p off : Nat) (v : T) : (ca.store p off v).tail = ca.tail := rfl
@[simp] theorem CA.store_head (ca : CA T) (p off : Nat) (v : T) : (ca.store p off v).head = ca.head := rfl
@[simp] theorem CA.store_blockInUse (ca : CA T) (p off : Nat) (v : T) :
    (ca.store p off v).blockInUse = ca.blockInUse := rfl
@[simp] theorem CA.store_toRetire (ca : CA T) (p off : Nat) (v : T) :
    (ca.store p off v).toRetire = ca.toRetire := rfl
@[simp] theorem CA.store_faults (ca : CA T) (p off : Nat) (v : T) :
    (ca.store p off v).faults = ca.faults := rfl

theorem CA.store_mem (ca : CA T) (p off : Nat) (v : T) (k : Nat) :
    (ca.store p off v).mem k =
      if k = p then (ca.mem k).map fun blk => { blk with array := Function.update blk.array off (some v) }
      else ca.mem k := by
  by_cases hk : k = p
  · subst hk; simp [CA.store]
  · simp [CA.store, hk]

/-- A store changes no link and no id. -/
theorem Chain.store {ca : CA T} {lo hi : Nat} (hc : Chain ca lo hi) (p off : Nat) (v : T) :
    Chain (ca.store p off v) lo hi where
  tail := hc.tail
  head := hc.head
  le := hc.le
  brk := hc.brk
  curr := hc.curr
  reuse := hc.reuse
  ids k hk := by rw [CA.store_mem]; split_ifs <;> simp [hc.ids k hk, Option.map_map, Function.comp_def]
  next k hk := by rw [CA.store_mem]; split_ifs <;> simp [hc.next k hk, Option.map_map, Option.bind_map]
  headNext := by rw [CA.store_mem]; split_ifs <;> simp [hc.headNext, Option.bind_map]
  prev k h1 h2 := by rw [CA.store_mem]; split_ifs <;> simp [hc.prev k h1 h2, Option.bind_map]
  fresh k hk := by rw [CA.store_mem]; split_ifs <;> simp [hc.fresh k hk]

theorem CA.store_value (ca : CA T) (p off : Nat) (v : T) (index : Nat) :
    (ca.store p off v).value index =
      if desiredBlockId index = p ∧ offset index = off then (ca.mem p).map fun _ => v
      else ca.value index := by
  simp only [CA.value, CA.store_mem]
  by_cases hp : desiredBlockId index = p
  · subst hp
    cases hm : ca.mem (desiredBlockId index) <;> by_cases ho : offset index = off <;>
      simp [hm, ho, Function.update_noteq]
  · simp [hp]

/-! ## `ca_alloc` and `put_head` -/

/-- What `ca_alloc()` leaves on a chain with head block `blkHi`: block `hi + 1`
at the next address, linked after the head. -/
def CA.appended (ca : CA T) (hi : Nat) (blkHi : Block T) : CA T :=
  let mem := Function.update ca.mem (hi + 1) (some ⟨some hi, none, hi + 1, fun _ => none⟩)
  { ca with mem := Function.update mem hi (some { blkHi with next := some (hi + 1) }),
            brk := hi + 2, currBlockId := hi + 2, head := some (hi + 1) }

@[simp] theorem CA.appended_blockInUse (ca : CA T) (hi : Nat) (blkHi : Block T) :
    (ca.appended hi blkHi).blockInUse = ca.blockInUse := rfl
@[simp] theorem CA.appended_tail (ca : CA T) (hi : Nat) (blkHi : Block T) :
    (ca.appended hi blkHi).tail = ca.tail := rfl
@[simp] theorem CA.appended_toRetire (ca : CA T) (hi : Nat) (blkHi : Block T) :
    (ca.appended hi blkHi).toRetire = ca.toRetire := rfl
@[simp] theorem CA.appended_faults (ca : CA T) (hi : Nat) (blkHi : Block T) :
    (ca.appended hi blkHi).faults = ca.faults := rfl

theorem caAlloc_eq {ca : CA T} {lo hi : Nat} {blkHi : Block T} (hc : Chain ca lo hi)
    (hHi : ca.mem hi = some blkHi) : caAlloc ca = some (ca.appended hi blkHi) := by
  simp [caAlloc, getBlock, popReuseBlock, hc.reuse, malloc, CA.set, hc.brk, hc.head, hc.curr, hHi,
    Block.fresh, CA.appended]

theorem CA.appended_mem (ca : CA T) (hi : Nat) (blkHi : Block T) (k : Nat) :
    (ca.appended hi blkHi).mem k =
      if k = hi then some { blkHi with next := some (hi + 1) }
      else if k = hi + 1 then some ⟨some hi, none, hi + 1, fun _ => none⟩ else ca.mem k := by
  by_cases h1 : k = hi
  · subst h1; simp [CA.appended]
  · by_cases h2 : k = hi + 1
    · subst h2; simp [CA.appended]
    · simp [CA.appended, h1, h2]

/-- `ca_alloc()` extends the chain by one block. -/
theorem Chain.appended {ca : CA T} {lo hi : Nat} {blkHi : Block T} (hc : Chain ca lo hi)
    (hHi : ca.mem hi = some blkHi) : Chain (ca.appended hi blkHi) lo (hi + 1) where
  tail := hc.tail
  head := rfl
  le := by have := hc.le; omega
  brk := rfl
  curr := rfl
  reuse := hc.reuse
  ids k hk := by
    rw [CA.appended_mem]
    split_ifs with h1 h2
    · subst h1; simpa [hHi] using hc.ids k le_rfl
    · simp [h2]
    · exact hc.ids k (by omega)
  next k hk := by
    rw [CA.appended_mem]
    split_ifs with h1 h2
    · simp [h1]
    · omega
    · exact hc.next k (by omega)
  headNext := by rw [CA.appended_mem]; simp
  prev k h1 h2 := by
    rw [CA.appended_mem]
    split_ifs with h3 h4
    · subst h3; simpa [hHi] using hc.prev k h1 le_rfl
    · subst h4; simp
    · exact hc.prev k h1 (by omega)
  fresh k hk := by rw [CA.appended_mem]; split_ifs <;> first | omega | exact hc.fresh k (by omega)

theorem CA.appended_value {ca : CA T} {lo hi : Nat} {blkHi : Block T} (hc : Chain ca lo hi)
    (hHi : ca.mem hi = some blkHi) (index : Nat) :
    (ca.appended hi blkHi).value index = ca.value index := by
  simp only [CA.value, CA.appended_mem]
  split_ifs with h1 h2
  · simp [h1, hHi]
  · simp [h2, hc.fresh (hi + 1) (by omega)]
  · rfl

theorem index_eq_iff (j b : Nat) :
    j = b ↔ desiredBlockId j = desiredBlockId b ∧ offset j = offset b := by
  simp only [desiredBlockId_eq, offset_eq]
  omega

/-- Storing `v` for index `b` in its block changes the element of `b` only. -/
theorem CA.store_value_self {ca : CA T} {b : Nat} {blk : Block T} (v : T)
    (hm : ca.mem (desiredBlockId b) = some blk) (j : Nat) :
    (ca.store (desiredBlockId b) (offset b) v).value j = if j = b then some v else ca.value j := by
  rw [CA.store_value]
  by_cases hj : j = b
  · subst hj
    simp [hm]
  · rw [if_neg (mt (index_eq_iff j b).2 hj), if_neg hj]

@[simp] theorem CA.setInUse_value (ca : CA T) (u : Option Nat) (j : Nat) :
    ({ ca with blockInUse := u } : CA T).value j = ca.value j := rfl

/-- `put_head(b, v)` with `block_in_use` already on the block of `b`. -/
theorem putHead_stay {ca : CA T} {lo hi : Nat} {b : Nat} (v : T) (hc : Chain ca lo hi)
    (hu : ca.blockInUse = some (desiredBlockId b)) (hd : desiredBlockId b ≤ hi) :
    putHead ca b v = some (ca.store (desiredBlockId b) (offset b) v) := by
  obtain ⟨blk, hblk, hid⟩ := hc.mem hd
  have hcurr : ca.currBlockId ≠ desiredBlockId b := by rw [hc.curr]; omega
  by_cases ho : offset b = 0 <;>
    simp [putHead, ho, hu, hcurr, CA.get, hblk, hid, CA.check, CA.set, CA.store]

/-- `put_head(b, v)` at the start of a block that exists: `block_in_use` steps
to `next`. -/
theorem putHead_next {ca : CA T} {lo hi u : Nat} {b : Nat} (v : T) (hc : Chain ca lo hi)
    (hu : ca.blockInUse = some u) (hub : u + 1 = desiredBlockId b) (ho : offset b = 0)
    (hd : desiredBlockId b ≤ hi) :
    putHead ca b v = some ({ ca with blockInUse := some (desiredBlockId b) }.store
      (desiredBlockId b) (offset b) v) := by
  obtain ⟨blk, hblk, hid⟩ := hc.mem (show u ≤ hi by omega)
  obtain ⟨blk', hblk', hid'⟩ := hc.mem hd
  have hnext : blk.next = some (desiredBlockId b) := by
    simpa [hblk, hub] using hc.next u (by omega)
  have hcurr : ca.currBlockId ≠ desiredBlockId b := by rw [hc.curr]; omega
  simp [putHead, ho, hu, hcurr, CA.get, hblk, hid, hnext, hblk', hid', CA.check, CA.set, CA.store,
    show desiredBlockId b ≠ u by omega]

/-- `put_head(b, v)` at the start of the block after the head: `ca_alloc()`
appends it and `block_in_use` steps to it. -/
theorem putHead_alloc {ca : CA T} {lo hi : Nat} {b : Nat} {blkHi : Block T} (v : T)
    (hc : Chain ca lo hi) (hHi : ca.mem hi = some blkHi) (hu : ca.blockInUse = some hi)
    (hd : hi + 1 = desiredBlockId b) (ho : offset b = 0) :
    putHead ca b v = some ({ ca.appended hi blkHi with blockInUse := some (desiredBlockId b) }.store
      (desiredBlockId b) (offset b) v) := by
  have hid : blkHi.blockId = hi := by simpa [hHi] using hc.ids hi le_rfl
  have hcurr : ca.currBlockId = desiredBlockId b := by rw [hc.curr, hd]
  simp [putHead, ho, hu, hcurr, caAlloc_eq hc hHi, CA.get, CA.appended_mem, hid, CA.check, CA.set,
    CA.store, ← hd]

/-- `put_head(b, v)` with `block_in_use` on the block of `b - 1` or of `b`, and
every index below `b` in an allocated block: it stores `v` for `b` and nothing
else, leaves `block_in_use` on the block of `b`, extends the chain by the block
of `b` when that block is new, and leaves the blocks below `block_in_use` alone. -/
theorem putHead_chain {ca : CA T} {lo hi u b : Nat} (v : T) (hc : Chain ca lo hi)
    (hu : ca.blockInUse = some u) (hhi : u ≤ hi)
    (hub : u = desiredBlockId (b - 1) ∨ u = desiredBlockId b) (hb : b ≤ (hi + 1) * 16384) :
    ∃ ca' hi', putHead ca b v = some ca' ∧ Chain ca' lo hi' ∧ hi ≤ hi' ∧ hi' ≤ hi + 1 ∧
      b < (hi' + 1) * 16384 ∧
      ca'.blockInUse = some (desiredBlockId b) ∧ ca'.faults = ca.faults ∧
      ca'.toRetire = ca.toRetire ∧ (∀ k, k < u → ca'.mem k = ca.mem k) ∧
      ∀ j, ca'.value j = if j = b then some v else ca.value j := by
  have key : u = desiredBlockId b ∨ (u + 1 = desiredBlockId b ∧ offset b = 0) := by
    simp only [desiredBlockId_eq, offset_eq] at hub ⊢
    omega
  rcases key with hd | ⟨hd, ho⟩
  · obtain ⟨blk, hblk, -⟩ := hc.mem (show desiredBlockId b ≤ hi by omega)
    refine ⟨_, hi, putHead_stay v hc (hd ▸ hu) (by omega), hc.store _ _ _, le_rfl, by omega, ?_,
      by simp [hu, hd],
      rfl, rfl, fun k hk => by rw [CA.store_mem, if_neg (by omega)], CA.store_value_self v hblk⟩
    rw [desiredBlockId_eq] at hd
    omega
  · by_cases hnew : desiredBlockId b ≤ hi
    · obtain ⟨blk, hblk, -⟩ := hc.mem hnew
      have hm : ({ ca with blockInUse := some (desiredBlockId b) } : CA T).mem (desiredBlockId b) =
          some blk := hblk
      refine ⟨_, hi, putHead_next v hc hu hd ho hnew, (hc.setInUse _).store _ _ _, le_rfl, by omega, ?_,
        by simp, rfl, rfl, fun k hk => by rw [CA.store_mem, if_neg (by omega)],
        fun j => (CA.store_value_self v hm j).trans (by simp)⟩
      rw [desiredBlockId_eq] at hnew
      omega
    · have hd' : hi + 1 = desiredBlockId b := by rw [desiredBlockId_eq] at hnew ⊢; omega
      obtain rfl : u = hi := by omega
      obtain ⟨blkHi, hHi, -⟩ := hc.mem le_rfl
      have hm : ({ ca.appended u blkHi with blockInUse := some (desiredBlockId b) } : CA T).mem
          (desiredBlockId b) = some ⟨some u, none, u + 1, fun _ => none⟩ := by
        show (ca.appended u blkHi).mem _ = _
        rw [CA.appended_mem, ← hd']
        simp
      refine ⟨_, u + 1, putHead_alloc v hc hHi hu hd' ho, ((hc.appended hHi).setInUse _).store _ _ _,
        by omega, le_rfl, ?_, by simp, rfl, rfl, fun k hk => ?_, fun j => ?_⟩
      · rw [desiredBlockId_eq] at hd'
        omega
      · show (CA.store _ _ _ _).mem k = _
        rw [CA.store_mem, if_neg (by omega), show (ca.appended u blkHi).mem k = _ from
          CA.appended_mem ca u blkHi k, if_neg (by omega), if_neg (by omega)]
      · rw [CA.store_value_self v hm]
        split_ifs
        · rfl
        · exact CA.appended_value hc hHi j

/-- A store changes no block's `prev`. -/
@[simp] theorem CA.store_prev (ca : CA T) (p off : Nat) (v : T) (k : Nat) :
    ((ca.store p off v).mem k).bind Block.prev = (ca.mem k).bind Block.prev := by
  rw [CA.store_mem]
  split_ifs <;> simp [Option.bind_map, Function.comp_def]

/-- `ca_alloc()` changes no `prev` of a block up to the head. -/
theorem CA.appended_prev {ca : CA T} {hi k : Nat} {blkHi : Block T} (hHi : ca.mem hi = some blkHi)
    (hk : k ≤ hi) : ((ca.appended hi blkHi).mem k).bind Block.prev = (ca.mem k).bind Block.prev := by
  rw [CA.appended_mem]
  split_ifs with h1 h2
  · subst h1; simp [hHi]
  · omega
  · rfl

/-- `put_head(b, v)` under the hypotheses of `putHead_chain` changes no `prev`
of a block up to the head: the backward links the thieves search stay. -/
theorem putHead_prev {ca ca' : CA T} {lo hi u b : Nat} (v : T) (hc : Chain ca lo hi)
    (hu : ca.blockInUse = some u) (hhi : u ≤ hi)
    (hub : u = desiredBlockId (b - 1) ∨ u = desiredBlockId b)
    (hput : putHead ca b v = some ca') {k : Nat} (hk : k ≤ hi) :
    (ca'.mem k).bind Block.prev = (ca.mem k).bind Block.prev := by
  have key : u = desiredBlockId b ∨ (u + 1 = desiredBlockId b ∧ offset b = 0) := by
    simp only [desiredBlockId_eq, offset_eq] at hub ⊢
    omega
  rcases key with hd | ⟨hd, ho⟩
  · rw [putHead_stay v hc (hd ▸ hu) (by omega), Option.some.injEq] at hput
    subst hput
    exact CA.store_prev _ _ _ _ _
  · by_cases hnew : desiredBlockId b ≤ hi
    · rw [putHead_next v hc hu hd ho hnew, Option.some.injEq] at hput
      subst hput
      exact CA.store_prev _ _ _ _ _
    · obtain rfl : u = hi := by rw [desiredBlockId_eq] at hnew hd; omega
      obtain ⟨blkHi, hHi, -⟩ := hc.mem le_rfl
      rw [putHead_alloc v hc hHi hu (by omega) ho, Option.some.injEq] at hput
      subst hput
      rw [CA.store_prev]
      exact CA.appended_prev hHi hk

/-- `put_head(b, v)` with `b` outside its contract: the block of `b` is neither
the block in use nor, for the first index of a block, the one after it.
`block_in_use` moves by at most one block per call. When `block_in_use` is the
head and `b` starts a block other than the next one, the call dereferences the
head's null `next` (a `CA.get` of `none`); in every other case its assertion
fails, and `v` is stored in the block `block_in_use` now points to. -/
theorem putHead_misuse {ca : CA T} {lo hi u b : Nat} (v : T) (hc : Chain ca lo hi)
    (hu : ca.blockInUse = some u) (hhi : u ≤ hi)
    (hbad : desiredBlockId b ≠ u ∧ (offset b = 0 → desiredBlockId b ≠ u + 1)) :
    (offset b = 0 ∧ u = hi → putHead ca b v = none) ∧
      (¬(offset b = 0 ∧ u = hi) →
        ∃ ca', putHead ca b v = some ca' ∧ ca'.faults = ca.faults ++ [.putHead]) := by
  obtain ⟨blk, hblk, hid⟩ := hc.mem hhi
  refine ⟨fun ⟨ho, hhead⟩ => ?_, fun hnot => ?_⟩
  · -- the head's `next` is null, and `ca_alloc` is not called
    subst hhead
    have hcurr : ¬ca.currBlockId = desiredBlockId b := by
      rw [hc.curr]; exact Ne.symm (hbad.2 ho)
    have hnext : blk.next = none := by simpa [hblk] using hc.headNext
    simp only [putHead, ho, ↓reduceIte, hcurr, Option.pure_def, CA.get, ne_eq, ite_not,
      CA.check_blockInUse, Option.bind_eq_bind, Option.some_bind, hu, hblk, hid, hbad.1, hnext,
      Option.none_bind]
  by_cases ho : offset b = 0
  · have hne := hbad.2 ho
    have hhead : u ≠ hi := fun h => hnot ⟨ho, h⟩
    by_cases hcurr : ca.currBlockId = desiredBlockId b
    · -- `ca_alloc` appends block `hi + 1`, but `block_in_use` steps to `u + 1`
      have hlt : u < hi := by rw [hc.curr] at hcurr; omega
      obtain ⟨blkHi, hHi, -⟩ := hc.mem le_rfl
      have hc' := hc.appended hHi
      obtain ⟨ub, hub, huid⟩ := hc'.mem (show u ≤ hi + 1 by omega)
      obtain ⟨nb, hnb, hnid⟩ := hc'.mem (show u + 1 ≤ hi + 1 by omega)
      have hnx : ub.next = some (u + 1) := by simpa [hub] using hc'.next u (by omega)
      simp only [putHead, ho, ↓reduceIte, hcurr, caAlloc_eq hc hHi, CA.get, ne_eq, ite_not,
        Option.pure_def, CA.set, CA.check, Option.bind_eq_bind, Option.some_bind,
        CA.appended_blockInUse, hu, hub, CA.appended_faults, huid, hbad.1, hnx, hnb, hnid, Ne.symm hne,
        Option.map_some', Option.some.injEq, exists_eq_left']
    · -- `block_in_use` steps to `u + 1`, which is not the block of `b`
      obtain ⟨nb, hnb, hnid⟩ := hc.mem (show u + 1 ≤ hi by omega)
      have hnx : blk.next = some (u + 1) := by simpa [hblk] using hc.next u (by omega)
      simp only [putHead, ho, ↓reduceIte, hcurr, Option.pure_def, CA.get, ne_eq, ite_not, CA.set,
        CA.check, Option.bind_eq_bind, Option.some_bind, hu, hblk, hid, hbad.1, hnx, hnb, hnid,
        Ne.symm hne, Option.map_some', Option.some.injEq, exists_eq_left']
  · -- inside a block `block_in_use` does not move
    simp only [putHead, ho, ↓reduceIte, Option.pure_def, CA.get, CA.set, CA.check,
      Option.bind_eq_bind, Option.some_bind, hu, hblk, hid, Ne.symm hbad.1, Option.map_some',
      Option.some.injEq, exists_eq_left']

theorem putHead_misuse_on_create :
    putHead (create : CA Nat) 32768 7 = none ∧
      ∃ ca', putHead (create : CA Nat) 16385 7 = some ca' ∧
        ca'.faults = (create : CA Nat).faults ++ [.putHead] :=
  ⟨(putHead_misuse 7 Chain.create rfl le_rfl ⟨by decide, fun _ => by decide⟩).1 ⟨by decide, rfl⟩,
    (putHead_misuse 7 Chain.create rfl le_rfl ⟨by decide, fun h => absurd h (by decide)⟩).2
      fun h => absurd h.1 (by decide)⟩

/-! ## `get_head` -/

/-- `get_head(b)` with `block_in_use` on the block of `b`. -/
theorem getHead_stay {ca : CA T} {lo hi b : Nat} (hc : Chain ca lo hi)
    (hu : ca.blockInUse = some (desiredBlockId b)) (hd : desiredBlockId b ≤ hi) :
    getHead ca b = some (ca, ca.value b) := by
  obtain ⟨blk, hblk, hid⟩ := hc.mem hd
  simp [getHead, hu, CA.get, hblk, hid, CA.check, CA.value]

/-- `get_head(b)` with `block_in_use` on the next block, inside the chain:
`block_in_use` steps back along `prev`. -/
theorem getHead_prev {ca : CA T} {lo hi b : Nat} (hc : Chain ca lo hi)
    (hu : ca.blockInUse = some (desiredBlockId b + 1)) (hlo : lo ≤ desiredBlockId b)
    (hd : desiredBlockId b + 1 ≤ hi) :
    getHead ca b = some ({ ca with blockInUse := some (desiredBlockId b) }, ca.value b) := by
  obtain ⟨blk, hblk, hid⟩ := hc.mem hd
  obtain ⟨blk', hblk', hid'⟩ := hc.mem (show desiredBlockId b ≤ hi by omega)
  have hprev : blk.prev = some (desiredBlockId b) := by
    simpa [hblk] using hc.prev (desiredBlockId b + 1) (by omega) hd
  simp [getHead, hu, CA.get, hblk, hid, hprev, hblk', hid', CA.check, CA.value]

/-- `get_head(b)` with `block_in_use` on the block of `b` or of `b + 1`, the
block of `b` at or above the tail: it reads the element at `b` and leaves
`block_in_use` on the block of `b`. -/
theorem getHead_chain {ca : CA T} {lo hi u b : Nat} (hc : Chain ca lo hi)
    (hu : ca.blockInUse = some u) (hhi : u ≤ hi)
    (hub : u = desiredBlockId b ∨ u = desiredBlockId (b + 1)) (hlo : lo ≤ desiredBlockId b) :
    getHead ca b = some ({ ca with blockInUse := some (desiredBlockId b) }, ca.value b) := by
  by_cases hs : u = desiredBlockId b
  · subst hs
    rw [getHead_stay hc hu hhi, ← hu]
  · have hd : u = desiredBlockId b + 1 := by
      simp only [desiredBlockId_eq] at hub hs ⊢
      omega
    exact getHead_prev hc (hd ▸ hu) hlo (hd ▸ hhi)

end Parlay.ContinuousArray
