import Parlay.ContinuousArray.Teardown

/-!
# Recycling the retired blocks

`free_retired()` empties `to_retire` and pushes each retired block onto the
reuse list, reading its `prev` before `push_reuse_block` overwrites it. On the
chain `lo..hi` over the stack of the retired blocks `0..lo - 1`, it pushes
`lo - 1` first and `0` last: the reuse list is `0, 1, ..., lo - 1`, each block
linked by `prev` to the one above it (`CA.recycled`). Only `prev` fields
change, so no element moves. The destructor then frees the live chain `hi` down
to `lo` (`tail->prev` is the retire list, now empty) and the reuse list `0` up
to `lo - 1`: still every block `malloc` returned, each once. The next
`get_block()` takes block `0` and does not call `malloc`.

Results:
1. `freeRetired_of_stacked`: what `free_retired()` leaves.
2. `destroy_of_recycled`: what the destructor frees after it.
3. `getBlock_recycled`: the next block comes from the reuse list.
-/

namespace Parlay.ContinuousArray

variable {T : Type}

/-- The block above block `k` in the reuse list `0, 1, ..., lo - 1`. -/
def above (lo k : Nat) : Option Nat := if k + 1 < lo then some (k + 1) else none

/-- The array once the retired blocks `j` to `lo - 1` are on the reuse list,
block `j` on top. -/
def CA.recycled (ca : CA T) (lo j : Nat) : CA T :=
  { ca with
    mem := fun k =>
      if j ≤ k ∧ k < lo then (ca.mem k).map fun blk => { blk with prev := above lo k } else ca.mem k
    blocksToReuse := if j < lo then some j else none }

/-- One pass of the loop of `free_retired()`: block `j`, read before its `prev`
is overwritten, goes on top of the reuse list. -/
theorem pushReuseBlock_recycled {ca : CA T} {lo j : Nat} {blk : Block T} (hj : j < lo)
    (hm : ca.mem j = some blk) :
    pushReuseBlock (ca.recycled lo (j + 1)) j = some (ca.recycled lo j) := by
  simp only [pushReuseBlock, CA.set, CA.recycled, show ¬ (j + 1 ≤ j ∧ j < lo) by omega, if_false,
    hm, Option.map_some', if_pos hj, Option.some.injEq]
  congr 1
  funext k
  by_cases hk : k = j
  · subst hk
    simp [hm, above, hj]
  · rw [Function.update_noteq hk]
    by_cases hr : j + 1 ≤ k ∧ k < lo
    · rw [if_pos hr, if_pos ⟨by omega, hr.2⟩]
    · rw [if_neg hr, if_neg (by omega)]

/-- The loop of `free_retired()` from the retire stack's block `j - 1` on. -/
theorem freeRetiredLoop_recycled {ca : CA T} {lo : Nat} (hs : ∀ k, k < lo → (ca.mem k).bind Block.prev = below k)
    (hm : ∀ k, k < lo → ca.mem k ≠ none) :
    ∀ j fuel, j ≤ lo → j ≤ fuel →
      freeRetiredLoop fuel (ca.recycled lo j) (below j) = some (ca.recycled lo 0)
  | 0, fuel, _, _ => by cases fuel <;> rfl
  | j + 1, fuel + 1, hj, hf => by
    obtain ⟨blk, hblk⟩ := Option.ne_none_iff_exists'.1 (hm j (by omega))
    have hprev : blk.prev = below j := by simpa [hblk] using hs j (by omega)
    have hget : (ca.recycled lo (j + 1)).get (some j) = some blk := by
      simp [CA.get, CA.recycled, hblk]
    have hpush := pushReuseBlock_recycled (show j < lo by omega) hblk
    simp only [below, freeRetiredLoop, hget, hpush, hprev, Option.bind_eq_bind, Option.some_bind]
    exact freeRetiredLoop_recycled hs hm j fuel (by omega) (by omega)

/-- `free_retired()` on the chain `lo..hi` over the stack of the retired blocks
`0..lo - 1`: `to_retire` is empty and the retired blocks form the reuse list. -/
theorem freeRetired_of_stacked {ca : CA T} {lo hi : Nat} (hc : Chain ca lo hi) (hs : Stacked ca lo) :
    freeRetired ca = some ({ ca with toRetire := none }.recycled lo 0) := by
  have hstart : ({ ca with toRetire := none } : CA T).recycled lo lo = { ca with toRetire := none } := by
    simp only [CA.recycled, lt_irrefl, if_false, ← hc.reuse]
    congr 1
    funext k
    rw [if_neg (by omega)]
  have hloop := @freeRetiredLoop_recycled T { ca with toRetire := none } lo hs.links
    (fun k hk => by obtain ⟨blk, hblk, -⟩ := hc.mem (show k ≤ hi by have := hc.le; omega); simp [hblk])
    lo (ca.brk + 1) le_rfl (by rw [hc.brk]; have := hc.le; omega)
  rw [hstart] at hloop
  simpa [freeRetired, getRetired, hs.top] using hloop

@[simp] theorem CA.recycled_value (ca : CA T) (lo j index : Nat) :
    (ca.recycled lo j).value index = ca.value index := by
  simp only [CA.value, CA.recycled]
  split_ifs <;> cases ca.mem (desiredBlockId index) <;> rfl

/-! ## The destructor after `free_retired()` -/

/-- Walking `prev` from block `m` down a chain that ends at block `lo` frees
`m` down to `lo`. -/
theorem CA.freeChain_down {ca : CA T} {lo : Nat} (hbot : (ca.mem lo).bind Block.prev = none) :
    ∀ m, lo ≤ m → (∀ k, lo < k → k ≤ m → (ca.mem k).bind Block.prev = some (k - 1)) →
      ∀ fuel, m - lo < fuel → ca.freeChain fuel (some m) = (List.range' lo (m + 1 - lo)).reverse
  | _, _, _, 0, hf => absurd hf (Nat.not_lt_zero _)
  | m, hm, h, fuel + 1, hf => by
    rcases Nat.eq_or_lt_of_le hm with rfl | hlt
    · simp [CA.freeChain, hbot]
    · obtain ⟨m, rfl⟩ : ∃ m', m = m' + 1 := ⟨m - 1, by omega⟩
      rw [CA.freeChain, h (m + 1) hlt le_rfl, Nat.add_sub_cancel,
        CA.freeChain_down hbot m (by omega) (fun k h1 h2 => h k h1 (by omega)) fuel (by omega),
        show m + 1 + 1 - lo = (m + 1 - lo) + 1 by omega, List.range'_1_concat, List.reverse_append,
        show lo + (m + 1 - lo) = m + 1 by omega]
      rfl

/-- Walking `prev` up the reuse list from block `j` frees `j` up to `lo - 1`. -/
theorem CA.freeChain_up {ca : CA T} {lo : Nat} (h : ∀ k, k < lo → (ca.mem k).bind Block.prev = above lo k) :
    ∀ j fuel, j < lo → lo - j ≤ fuel → ca.freeChain fuel (some j) = List.range' j (lo - j)
  | _, 0, hj, hf => absurd hf (by omega)
  | j, fuel + 1, hj, hf => by
    rw [CA.freeChain, h j hj, above]
    split_ifs with hnext
    · rw [CA.freeChain_up h (j + 1) fuel hnext (by omega),
        show lo - j = (lo - (j + 1)) + 1 by omega, List.range'_succ]
    · rw [CA.freeChain_none, show lo - j = 1 by omega]
      rfl

/-- `~continuous_array()` after `free_retired()`: the live chain `hi` down to
`lo`, then the reuse list `0` up to `lo - 1`. -/
theorem destroy_of_recycled {ca : CA T} {lo hi fuel : Nat} (hc : Chain ca lo hi) (hf : hi < fuel) :
    destroy ({ ca with toRetire := none }.recycled lo 0) fuel =
      some ((List.range' lo (hi + 1 - lo)).reverse ++ List.range lo) := by
  obtain ⟨blk, hblk, -⟩ := hc.mem hc.le
  let ca₁ : CA T := ({ ca with toRetire := none } : CA T).recycled lo 0
  let ca' : CA T := { ca₁ with
    toRetire := none
    mem := Function.update ca₁.mem lo (some { blk with prev := none }) }
  have hmem : ∀ k, ca'.mem k = if k = lo then some { blk with prev := none } else
      if k < lo then (ca.mem k).map fun b => { b with prev := above lo k } else ca.mem k := by
    intro k
    simp only [ca', ca₁, CA.recycled, Function.update_apply, Nat.zero_le, true_and]
  have hset : ({ ca₁ with toRetire := none } : CA T).set ca₁.tail
      (fun b => { b with prev := ca₁.toRetire }) = some ca' := by
    simp [CA.set, ca₁, ca', CA.recycled, hc.tail, hblk, show ¬ lo < lo from lt_irrefl lo]
  have hdown : ∀ k, lo < k → k ≤ hi → (ca'.mem k).bind Block.prev = some (k - 1) := by
    intro k h1 h2
    rw [hmem, if_neg (by omega), if_neg (by omega)]
    exact hc.prev k h1 h2
  have hup : ∀ k, k < lo → (ca'.mem k).bind Block.prev = above lo k := by
    intro k hk
    obtain ⟨b, hb, -⟩ := hc.mem (show k ≤ hi by have := hc.le; omega)
    rw [hmem, if_neg (by omega), if_pos hk, hb]
    rfl
  simp only [destroy, getRetired, hset, Option.bind_eq_bind, Option.some_bind]
  rw [show ca'.head = some hi from hc.head, CA.freeChain_down (by rw [hmem, if_pos rfl]; rfl) hi hc.le
    hdown fuel (by omega)]
  rcases Nat.eq_zero_or_pos lo with h0 | hpos
  · subst h0
    simp [ca', ca₁, CA.recycled]
  · rw [show ca'.blocksToReuse = some 0 by simp [ca', ca₁, CA.recycled, hpos],
      CA.freeChain_up hup 0 fuel hpos (by have := hc.le; omega), List.range_eq_range']
    rfl

/-- After `free_retired()`, `get_block()` takes block `0`, the oldest retired
block, from the reuse list, and does not call `malloc`. -/
theorem getBlock_recycled {ca : CA T} {lo hi : Nat} (hc : Chain ca lo hi) (hpos : 0 < lo) :
    ∃ ca', getBlock ({ ca with toRetire := none }.recycled lo 0) = some (ca', 0) ∧
      ca'.brk = ca.brk := by
  obtain ⟨blk, hblk, -⟩ := hc.mem (show 0 ≤ hi from Nat.zero_le hi)
  refine ⟨{ ({ ca with toRetire := none } : CA T).recycled lo 0 with blocksToReuse := above lo 0 },
    ?_, rfl⟩
  simp only [getBlock, popReuseBlock, CA.recycled, if_pos hpos, Nat.zero_le, true_and, hblk,
    Option.map_some', Option.bind_eq_bind, Option.some_bind]
  rfl

/-- The blocks the destructor frees after `free_retired()` are the blocks
`0` to `m - 1`, each once. -/
theorem recycled_perm_range {lo m : Nat} (h : lo ≤ m) :
    ((List.range' lo (m - lo)).reverse ++ List.range lo).Perm (List.range m) := by
  have hsplit : List.range lo ++ List.range' lo (m - lo) = List.range m := by
    simpa [List.range_eq_range', Nat.sub_add_cancel h] using List.range'_append_1 0 lo (m - lo)
  rw [← hsplit]
  exact List.perm_append_comm.trans ((List.reverse_perm _).append_left _)

end Parlay.ContinuousArray
