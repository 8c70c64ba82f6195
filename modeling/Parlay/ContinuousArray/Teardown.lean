import Parlay.ContinuousArray.TailRun

/-!
# Tearing down a continuous array

When every `get_tail` runs alone, each retirement pushes the tail block onto
`to_retire` right above the block retired before it: the retired blocks `0` to
`lo - 1` form a stack, newest first, linked by `prev` down to `nullptr`
(`Stacked`). The destructor links the tail block to that stack and walks
`prev` from `head`, so it frees the blocks `hi` down to `0`: every block
`malloc` returned, each once, and both of its loops end at `nullptr`.

Results:
1. `Stacked.retireAlone`: a retirement that runs alone keeps the stack.
2. `destroy_of_stacked`: on the chain `lo..hi` over the stack of blocks below
   `lo`, `~continuous_array()` frees `hi, hi - 1, ..., 0`.
-/

namespace Parlay.ContinuousArray

variable {T : Type}

/-- The block right below block `k` in the retire stack; `nullptr` below block `0`. -/
def below : Nat → Option Nat
  | 0 => none
  | k + 1 => some k

/-- The retired blocks `0` to `lo - 1` are stacked on `to_retire`, newest on
top, each linked by `prev` to the block retired before it. -/
structure Stacked (ca : CA T) (lo : Nat) : Prop where
  top : ca.toRetire = below lo
  links : ∀ k, k < lo → (ca.mem k).bind Block.prev = below k

theorem Stacked.create : Stacked (create : CA T) 0 :=
  ⟨rfl, fun _ hk => absurd hk (Nat.not_lt_zero _)⟩

/-- An operation that keeps `to_retire` and every block below `lo` keeps the stack. -/
theorem Stacked.of_eq {ca ca' : CA T} {lo : Nat} (h : Stacked ca lo)
    (hr : ca'.toRetire = ca.toRetire) (hm : ∀ k, k < lo → ca'.mem k = ca.mem k) :
    Stacked ca' lo :=
  ⟨hr.trans h.top, fun k hk => (hm k hk).symm ▸ h.links k hk⟩

theorem Stacked.retireAlone {ca : CA T} {lo : Nat} (h : Stacked ca lo) (blk : Block T) :
    Stacked (ca.retireAlone lo blk) (lo + 1) where
  top := rfl
  links k hk := by
    rw [CA.retireAlone_mem]
    split_ifs with hlo
    · simpa [hlo] using h.top
    · exact h.links k (by omega)

/-- Walking `prev` from block `m`, where each block at or below `m` links to the
block below it, visits `m` down to `0` and stops at `nullptr`. -/
theorem CA.freeChain_below {ca : CA T} {m : Nat}
    (h : ∀ k, k ≤ m → (ca.mem k).bind Block.prev = below k) :
    ∀ fuel, m < fuel → ca.freeChain fuel (some m) = (List.range (m + 1)).reverse := by
  induction m with
  | zero =>
    rintro (_ | fuel) hf
    · omega
    · simp [CA.freeChain, h 0 le_rfl, below, List.range_succ]
  | succ m ih =>
    rintro (_ | fuel) hf
    · omega
    · rw [CA.freeChain, h (m + 1) le_rfl, below,
        ih (fun k hk => h k (by omega)) fuel (by omega), List.range_succ (m + 1),
        List.reverse_append, List.reverse_singleton, List.singleton_append]

/-- `~continuous_array()` on the chain `lo..hi` with the blocks below `lo`
stacked on `to_retire`: setting `tail->prev` to the stack makes `prev` lead
from `head` through every block, so the first loop frees `hi` down to `0` and
the reuse list, empty, frees nothing more. -/
theorem destroy_of_stacked {ca : CA T} {lo hi fuel : Nat} (hc : Chain ca lo hi)
    (hs : Stacked ca lo) (hf : hi < fuel) :
    destroy ca fuel = some (List.range (hi + 1)).reverse := by
  obtain ⟨blk, hblk, -⟩ := hc.mem hc.le
  let ca' : CA T := { ca with
    toRetire := none
    mem := Function.update ca.mem lo (some { blk with prev := below lo }) }
  have hprev : ∀ k, k ≤ hi → (ca'.mem k).bind Block.prev = below k := by
    intro k hk
    simp only [ca', Function.update_apply]
    split_ifs with hlo
    · subst hlo
      rfl
    · rcases Nat.lt_or_gt_of_ne hlo with hlt | hgt
      · exact hs.links k hlt
      · obtain ⟨k, rfl⟩ : ∃ j, k = j + 1 := ⟨k - 1, by omega⟩
        exact hc.prev (k + 1) hgt hk
  have hset : ({ ca with toRetire := none } : CA T).set ca.tail
      (fun b => { b with prev := ca.toRetire }) = some ca' := by
    simp [CA.set, hc.tail, hblk, hs.top, ca']
  simp only [destroy, getRetired, hset, Option.bind_eq_bind, Option.some_bind]
  rw [show ca'.head = some hi from hc.head, show ca'.blocksToReuse = none from hc.reuse,
    CA.freeChain_below hprev fuel hf, CA.freeChain_none, List.append_nil]
  rfl

end Parlay.ContinuousArray
