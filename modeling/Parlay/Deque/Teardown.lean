import Parlay.Deque.OneThief
import Parlay.ContinuousArray.Retiring
import Parlay.ContinuousArray.Reuse

/-!
# One thief: tearing the deque down after any interleaving

`sequential_destroy_frees_each_block_once` tears down a deque whose calls ran
one at a time. With one thief the calls may interleave in any way: the thief's
retirement of a block is then spread over several steps, between which the
owner pushes, pops and allocates blocks. The owner writes only at and above
`block_in_use`, which is never below the tail, and never touches `to_retire`,
so the retire stack below the tail is only ever changed by the thief, as
`RetireStacked` describes (`TailStacked`). Once the thief is idle the stack is
whole, and `~continuous_array()` frees every block `malloc` returned, each
once.

Results:
1. `TailStacked.step`: every step of the system keeps `TailStacked`.
2. `one_thief_destroy_frees_each_block_once`: in every state an interleaving
   of the owner and one thief reaches with the thief idle, the destructor
   frees the blocks `brk - 1` down to `0`.
3. `one_thief_free_retired_then_destroy`: in such a state `free_retired()` is
   safe: it moves the retired blocks to the reuse list, the destructor still
   frees every block once, and the next block comes from the reuse list.
-/

namespace Parlay.Deque

open ContinuousArray

variable {V : Type} {n : Nat}

/-! ## The owner never writes below the tail -/

theorem getHead_frame {ca ca' : CA V} {b : Nat} {v : Option V} (h : getHead ca b = some (ca', v)) :
    ca'.tail = ca.tail ∧ ca'.toRetire = ca.toRetire ∧ ca'.mem = ca.mem := by
  simp only [getHead, Option.bind_eq_bind, Option.bind_eq_some, Option.some.injEq,
    Prod.mk.injEq] at h
  obtain ⟨_, _, _, _, rfl, -⟩ := h
  split_ifs <;> simp

/-- An owner step keeps `tail`, `to_retire`, every block below the tail and
every `prev` up to the head: `put_head` writes into `block_in_use` and the
blocks it allocates, and `get_head` only moves `block_in_use`. -/
theorem ownerStep_frame {s s' : BlockState V n} {lo hi : Nat} (h : Layout s lo hi)
    (hsh : Shape s) (hs : ownerStep (blocks V) s = some s') :
    s'.arr.tail = s.arr.tail ∧ s'.arr.toRetire = s.arr.toRetire ∧
      (∀ k, k < lo → s'.arr.mem k = s.arr.mem k) ∧
      ∀ k, k ≤ hi → (s'.arr.mem k).bind Block.prev = (s.arr.mem k).bind Block.prev := by
  obtain ⟨u, hu, huhi, hin⟩ := h.inUse
  have hlo := h.lo_le_inUse hsh hin
  have hown := hsh.owner
  have hx := h.extent
  unfold Deque.ownerStep at hs
  cases hcase : s.owner with
  | idle => simp [hcase] at hs
  | pushPut b v =>
    simp only [hcase, OwnerOk, InUse, Owner.extent] at hown hin hx
    obtain ⟨ca', hi', hput, hc', -, -, -, -, -, hret, hmem, -⟩ :=
      putHead_chain v h.chain hu huhi (hown.1 ▸ hin) (hown.1 ▸ hx)
    simp only [hcase, blocks_putHead, hput, Option.map_some', Option.some.injEq] at hs
    subst hs
    exact ⟨by simp [hc'.tail, h.chain.tail], hret, fun k hk => hmem k (by omega),
      fun k hk => putHead_prev v h.chain hu huhi (hown.1 ▸ hin) hput hk⟩
  | popRead b t =>
    simp only [hcase, blocks_getHead, Option.map_eq_some'] at hs
    obtain ⟨⟨ca', v⟩, hget, rfl⟩ := hs
    obtain ⟨ht, hr, hm⟩ := getHead_frame hget
    split_ifs <;> exact ⟨ht, hr, fun k _ => congrFun hm k, fun k _ => congrArg (fun m => (m k).bind Block.prev) hm⟩
  | pushStore b | popStore b | popRestore b _ =>
    simp only [hcase, Option.some.injEq] at hs
    subst hs
    exact ⟨rfl, rfl, fun _ _ => rfl, fun _ _ => rfl⟩
  | popLoadTop b | popCas b _ =>
    simp only [hcase] at hs
    split_ifs at hs <;> cases hs <;> exact ⟨rfl, rfl, fun _ _ => rfl, fun _ _ => rfl⟩

/-! ## The retire stack over whole runs -/

/-- The retire stack below the tail `lo`, as the thief's position leaves it. -/
def StackedAt (ca : CA V) (lo : Nat) : Thief GetTail → Prop
  | .claimed _ _ g => RetireStacked ca lo g
  | _ => Stacked ca lo

/-- The retire stack below the tail, as the thief has left it. -/
def TailStacked (s : BlockState V 1) : Prop :=
  ∃ lo, s.arr.tail = some lo ∧ StackedAt s.arr lo (s.thieves 0)

theorem StackedAt.of_eq {ca ca' : CA V} {lo : Nat} {t : Thief GetTail} (h : StackedAt ca lo t)
    (hr : ca'.toRetire = ca.toRetire) (hm : ∀ k, k < lo → ca'.mem k = ca.mem k) :
    StackedAt ca' lo t := by
  cases t
  case claimed => exact RetireStacked.of_eq h hr hm
  all_goals exact Stacked.of_eq h hr hm

theorem TailStacked.init : TailStacked (init (blocks V) : BlockState V 1) :=
  ⟨0, rfl, Stacked.create⟩

/-- A step that keeps the array and the thief keeps `TailStacked`. -/
theorem TailStacked.of_eq {s s' : BlockState V 1} (h : TailStacked s) (ha : s'.arr = s.arr)
    (ht : s'.thieves 0 = s.thieves 0) : TailStacked s' := by
  unfold TailStacked
  rw [ha, ht]
  exact h

/-- A step of the thief keeps `TailStacked`: outside `get_tail` it changes
neither the array nor whether the stack is whole, and inside it
`RetireStacked.step` applies. -/
theorem TailStacked.thiefStep {s s' : BlockState V 1} {lo hi : Nat} (h : Layout s lo hi)
    (hsole : SoleReader s) (hst : TailStacked s) (hs : thiefStep (blocks V) s 0 = some s') :
    TailStacked s' := by
  obtain ⟨lo₀, ht₀, hst₀⟩ := hst
  obtain rfl : lo = lo₀ := Option.some.inj (h.chain.tail.symm.trans ht₀)
  unfold Deque.thiefStep at hs
  cases hthief : s.thieves 0 with
  | idle | assertFailed => simp [hthief] at hs
  | loadedTop _ | loadedBot _ _ =>
    rw [hthief] at hst₀
    simp only [hthief] at hs
    split_ifs at hs <;> cases hs <;> exact ⟨lo, ht₀, by simpa using hst₀⟩
  | claimed oldTop localBot g =>
    rw [hthief] at hst₀
    simp only [hthief, blocks_tailStep, Option.map_eq_some'] at hs
    obtain ⟨⟨ca', r⟩, hstep, rfl⟩ := hs
    obtain ⟨lo', ht', hg', hv⟩ :=
      RetireStacked.step (hsole 0 _ _ _ hthief lo ht₀) hst₀ ht₀ hstep
    cases r with
    | inl g' => exact ⟨lo', ht', by simpa [StackedAt] using hg' g' rfl⟩
    | inr v => exact ⟨lo', ht', by simpa [StackedAt] using hv v rfl⟩

/-- Every step of the system keeps `TailStacked`. -/
theorem TailStacked.step {s s' : BlockState V 1} {a : Act V 1} {lo hi : Nat} (h : Layout s lo hi)
    (hsh : Shape s) (hsole : SoleReader s) (hst : TailStacked s) (hs : step (blocks V) s a = some s') :
    TailStacked s' := by
  cases a with
  | owner =>
    obtain ⟨ht, hr, hm, -⟩ := ownerStep_frame h hsh hs
    obtain ⟨lo₀, ht₀, hst₀⟩ := hst
    obtain rfl : lo = lo₀ := Option.some.inj (h.chain.tail.symm.trans ht₀)
    rw [← ownerStep_thieves _ hs] at hst₀
    exact ⟨lo, ht.trans ht₀, hst₀.of_eq hr hm⟩
  | thief i =>
    obtain rfl : i = 0 := Subsingleton.elim i 0
    exact hst.thiefStep h hsole hs
  | pushBottom v | popBottom =>
    cases hown : s.owner <;> simp only [Deque.step, hown, reduceCtorEq] at hs
    try split at hs
    all_goals simp only [Option.some.injEq] at hs; subst hs; exact hst.of_eq rfl rfl
  | popTop i =>
    obtain rfl : i = 0 := Subsingleton.elim i 0
    obtain ⟨lo₀, ht₀, hst₀⟩ := hst
    cases hthief : s.thieves 0 <;>
      simp only [Deque.step, hthief, reduceCtorEq, Option.some.injEq] at hs
    subst hs
    rw [hthief] at hst₀
    exact ⟨lo₀, ht₀, by simpa using hst₀⟩

theorem reachable_tailStacked {s : BlockState V 1} (h : Reachable (blocks V) s) : TailStacked s := by
  induction h with
  | init => exact TailStacked.init
  | step hr hs ih =>
    obtain ⟨lo, hi, hl⟩ := reachable_layout hr
    exact ih.step hl (reachable_shape _ hr) (reachable_abstract hr).2.2 hs

/-- With one thief, after any interleaving of `push_bottom`, `pop_bottom` and
`pop_top` from `Deque()`, once the thief is idle, `~continuous_array()` frees
every block `malloc` returned exactly once, `brk - 1` down to `0`, retired
blocks included; both of its loops end at `nullptr`, so any bound on their
iterations from `brk` on gives the same list. -/
theorem one_thief_destroy_frees_each_block_once {s : BlockState V 1} (h : Reachable (blocks V) s)
    (hidle : s.thieves 0 = .idle) :
    ∀ bound, s.arr.brk ≤ bound → destroy s.arr bound = some (List.range s.arr.brk).reverse := by
  obtain ⟨lo, hi, hl⟩ := reachable_layout h
  obtain ⟨lo', ht, hst⟩ := reachable_tailStacked h
  obtain rfl : lo' = lo := Option.some.inj (ht.symm.trans hl.chain.tail)
  rw [hidle] at hst
  intro bound hb
  rw [hl.chain.brk] at hb ⊢
  exact destroy_of_stacked hl.chain hst (by omega)

/-- With one thief, in every state an interleaving reaches with the thief idle,
the owner may call `free_retired()`. It returns, changes no element, and
leaves `to_retire` empty with the retired blocks `0` to `lo - 1` (`lo` the
tail) on the reuse list. The destructor afterwards frees the live chain
`brk - 1` down to `lo` and then the reuse list `0` up to `lo - 1`: every block
`malloc` returned, each once. The next `get_block()` reuses block `0` instead
of calling `malloc`. -/
theorem one_thief_free_retired_then_destroy {s : BlockState V 1} (h : Reachable (blocks V) s)
    (hidle : s.thieves 0 = .idle) :
    ∃ ca lo, freeRetired s.arr = some ca ∧ s.arr.tail = some lo ∧ ca.toRetire = none ∧
      (∀ j, ca.value j = s.arr.value j) ∧
      (∀ bound, s.arr.brk ≤ bound →
        destroy ca bound = some ((List.range' lo (s.arr.brk - lo)).reverse ++ List.range lo) ∧
        ((List.range' lo (s.arr.brk - lo)).reverse ++ List.range lo).Perm (List.range s.arr.brk)) ∧
      (0 < lo → ∃ ca', getBlock ca = some (ca', 0) ∧ ca'.brk = s.arr.brk) := by
  obtain ⟨lo, hi, hl⟩ := reachable_layout h
  obtain ⟨lo', ht, hst⟩ := reachable_tailStacked h
  obtain rfl : lo = lo' := Option.some.inj (hl.chain.tail.symm.trans ht)
  rw [hidle] at hst
  have hbrk := hl.chain.brk
  refine ⟨_, lo, freeRetired_of_stacked hl.chain hst, ht, rfl, fun j => (CA.recycled_value _ lo 0 j).trans rfl,
    fun bound hb => ⟨?_, recycled_perm_range (by have := hl.chain.le; omega)⟩,
    getBlock_recycled hl.chain⟩
  rw [show s.arr.brk - lo = hi + 1 - lo by rw [hbrk]]
  refine destroy_of_recycled hl.chain ?_
  omega

/-- `popRace` run to its end on `continuous_array`: the owner reads the slot,
loses its CAS and restores `bot`; the thief's `get_tail` searches from the
tail and reads the element. -/
def popRaceDone : List (Act Nat 1) :=
  popRace ++ [.owner, .owner, .owner, .thief 0, .thief 0, .thief 0, .thief 0, .thief 0]

/-- After the race both threads have returned, the thief with the element. -/
theorem one_thief_free_retired_race :
    ∃ s, run (blocks Nat) (init (blocks Nat)) popRaceDone = some s ∧ s.thieves 0 = .idle ∧
      s.history = [.pushBottom 7, .popBottom none, .popTop (some 7) true] ∧
      ∃ ca lo, freeRetired s.arr = some ca ∧ s.arr.tail = some lo ∧ ca.toRetire = none ∧
        (∀ j, ca.value j = s.arr.value j) ∧
        (∀ bound, s.arr.brk ≤ bound →
          destroy ca bound = some ((List.range' lo (s.arr.brk - lo)).reverse ++ List.range lo) ∧
          ((List.range' lo (s.arr.brk - lo)).reverse ++ List.range lo).Perm (List.range s.arr.brk)) ∧
        (0 < lo → ∃ ca', getBlock ca = some (ca', 0) ∧ ca'.brk = s.arr.brk) :=
  ⟨_, rfl, rfl, rfl,
    one_thief_free_retired_then_destroy (Reachable.init.run (l := popRaceDone) rfl) rfl⟩

theorem one_thief_destroy_race :
    ∃ s, run (blocks Nat) (init (blocks Nat)) popRaceDone = some s ∧ s.thieves 0 = .idle ∧
      s.history = [.pushBottom 7, .popBottom none, .popTop (some 7) true] ∧
      ∀ bound, s.arr.brk ≤ bound → destroy s.arr bound = some (List.range s.arr.brk).reverse :=
  ⟨_, rfl, rfl, rfl,
    one_thief_destroy_frees_each_block_once (Reachable.init.run (l := popRaceDone) rfl) rfl⟩

end Parlay.Deque
