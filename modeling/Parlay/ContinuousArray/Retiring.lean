import Parlay.ContinuousArray.Teardown
import Parlay.ContinuousArray.SoleReader

/-!
# The retire stack while the only reader runs

`Stacked` holds between calls of `get_tail`. Inside a retirement it is broken
for a while: the CAS on `tail` takes block `lo - 1` out of the chain, and only
`old_block->prev = old_to_retire` and the CAS on `to_retire` put it on the
stack. `RetireStacked` says where the only reader in progress has got to: past
the CAS and before `prev` is set, the blocks below `lo - 1` are stacked; after
`prev` is set, the push would complete the stack; everywhere else the blocks
below the tail are stacked.

Results:
1. `RetireStacked.step`: every step of the only `get_tail` keeps
   `RetireStacked`, and when the call returns the stack is whole.
2. `RetireStacked.of_eq`: a step of another thread that keeps `tail`,
   `to_retire` and every block below the tail keeps it too.
-/

namespace Parlay.ContinuousArray

variable {T : Type}

/-- The retire stack while the only call of `get_tail` in progress is at `g`
and `tail` is block `lo`. -/
def RetireStacked (ca : CA T) (lo : Nat) : GetTail → Prop
  | .retire _ (.checkYounger old) | .retire _ (.link old) =>
    old = some (lo - 1) ∧ 0 < lo ∧ Stacked ca (lo - 1)
  | .retire _ (.push old expected) =>
    old = some (lo - 1) ∧ 0 < lo ∧ ca.toRetire = expected ∧ Stacked { ca with toRetire := old } lo
  | _ => Stacked ca lo

theorem below_of_pos {lo : Nat} (h : 0 < lo) : below lo = some (lo - 1) := by
  obtain ⟨k, rfl⟩ : ∃ k, lo = k + 1 := ⟨lo - 1, by omega⟩
  rfl

/-- A step that keeps `tail`, `to_retire` and every block below the tail keeps
the stack wherever the reader is. -/
theorem RetireStacked.of_eq {ca ca' : CA T} {lo : Nat} {g : GetTail} (h : RetireStacked ca lo g)
    (hr : ca'.toRetire = ca.toRetire) (hm : ∀ k, k < lo → ca'.mem k = ca.mem k) :
    RetireStacked ca' lo g := by
  have hm' : ∀ k, k < lo - 1 → ca'.mem k = ca.mem k := fun k hk => hm k (by omega)
  rcases g with _ | _ | _ | _ | ⟨_, _ | _ | _ | _ | _ | _ | _⟩ | _
  all_goals first
    | exact Stacked.of_eq h hr hm
    | exact ⟨h.1, h.2.1, Stacked.of_eq h.2.2 hr hm'⟩
    | exact ⟨h.1, h.2.1, hr.trans h.2.2.1, Stacked.of_eq h.2.2.2 rfl hm⟩

/-- `old_block->prev = old_to_retire` on block `lo - 1`, the blocks below it
stacked: pushing it completes the stack below `lo`. -/
theorem Stacked.link {ca ca' : CA T} {lo : Nat} (hlo : 0 < lo) (h : Stacked ca (lo - 1))
    (hs : (ca.set (some (lo - 1)) fun blk => { blk with prev := ca.toRetire }) = some ca') :
    Stacked { ca' with toRetire := some (lo - 1) } lo := by
  simp only [CA.set, Option.map_eq_some'] at hs
  obtain ⟨blk, hblk, rfl⟩ := hs
  refine ⟨(below_of_pos hlo).symm, fun k hk => ?_⟩
  by_cases hk' : k = lo - 1
  · subst hk'
    simpa using h.top
  · simpa [Function.update_noteq hk'] using h.links k (by omega)

/-- An assertion keeps the stack wherever the reader is. -/
theorem RetireStacked.check {ca : CA T} {lo : Nat} {g : GetTail} (h : RetireStacked ca lo g)
    (c : Prop) [Decidable c] (f : Check) : RetireStacked (ca.check c f) lo g :=
  h.of_eq (CA.check_toRetire ..) fun k _ => congrFun (CA.check_mem ..) k

/-- A step to position `g` of `get_tail` that keeps `tail`. -/
theorem RetireStacked.stay {ca : CA T} {lo : Nat} {g : GetTail} (ht : ca.tail = some lo)
    (h : RetireStacked ca lo g) :
    ∃ lo', ca.tail = some lo' ∧
      (∀ g', (.inl g : GetTail ⊕ Option T) = .inl g' → RetireStacked ca lo' g') ∧
      (∀ v, (.inl g : GetTail ⊕ Option T) = .inr v → Stacked ca lo') :=
  ⟨lo, ht, by rintro _ ⟨⟩; exact h, by rintro _ ⟨⟩⟩

/-- A step of the only call `get_tail(index)` in progress keeps the stack as
`RetireStacked` describes it, and the stack is whole when the call returns. -/
theorem RetireStacked.step {ca ca' : CA T} {lo index : Nat} {g : GetTail}
    {r : GetTail ⊕ Option T} (hg : SoleOk lo index g) (h : RetireStacked ca lo g)
    (ht : ca.tail = some lo) (hs : g.step ca index = some (ca', r)) :
    ∃ lo', ca'.tail = some lo' ∧
      (∀ g', r = .inl g' → RetireStacked ca' lo' g') ∧ (∀ v, r = .inr v → Stacked ca' lo') := by
  have htc : ∀ c : Prop, [Decidable c] → ∀ f : Check, (ca.check c f).tail = some lo :=
    fun _ _ _ => (CA.check_tail ..).trans ht
  cases g with
  | loadTail => cases hs; exact RetireStacked.stay ht h
  | forward t b | backward t b =>
    cases b with
    | none => cases hs; exact RetireStacked.stay ht h
    | some p =>
      simp only [GetTail.step, Option.map_eq_some'] at hs
      obtain ⟨blk, -, he⟩ := hs
      split_ifs at he <;> cases he <;> exact RetireStacked.stay ht h
  | found t b =>
    cases b with
    | none => cases hs
    | some p =>
      simp only [GetTail.step, Option.bind_eq_bind, Option.bind_eq_some] at hs
      obtain ⟨blk, -, he⟩ := hs
      split_ifs at he
      · obtain ⟨tb, -, he⟩ := Option.bind_eq_some.1 he
        split_ifs at he <;> cases he <;> exact RetireStacked.stay (htc ..) (h.check ..)
      · cases he
        exact RetireStacked.stay (htc ..) (h.check ..)
  | retire p r0 =>
    obtain ⟨rfl, -, hr⟩ := hg
    simp only [GetTail.step, Option.map_eq_some'] at hs
    obtain ⟨⟨ca₁, r1⟩, hstep, he⟩ := hs
    cases he
    cases r0 with
    | loadTail => cases hstep; exact RetireStacked.stay ht h
    | loadNext old =>
      simp only [Retire.step, Option.map_eq_some'] at hstep
      obtain ⟨blk, -, he⟩ := hstep
      cases he
      exact RetireStacked.stay (htc ..) (h.check ..)
    | cas old next =>
      -- the CAS cannot fail: it takes block `lo` out of the chain
      obtain ⟨rfl, hn, hd⟩ := hr
      rw [Retire.step_cas ca ht] at hstep
      cases hstep
      have hlo : desiredBlockId index - 1 = lo := by omega
      refine ⟨desiredBlockId index, hn, ?_, by rintro _ ⟨⟩⟩
      rintro _ ⟨⟩
      exact ⟨by rw [hlo], by omega, by rw [hlo]; exact Stacked.of_eq h rfl fun _ _ => rfl⟩
    | recheck old next => exact hr.elim
    | checkYounger old =>
      simp only [Retire.step, Option.bind_eq_bind, Option.bind_eq_some] at hstep
      obtain ⟨tb, -, ob, -, he⟩ := hstep
      cases he
      exact RetireStacked.stay (htc ..) (h.check ..)
    | link old =>
      -- `old_block->prev = old_to_retire`: the push would complete the stack
      obtain ⟨rfl, hlo, hst⟩ := h
      simp only [Retire.step, Option.map_eq_some'] at hstep
      obtain ⟨ca₂, hset, he⟩ := hstep
      obtain ⟨rfl, rfl⟩ := Prod.mk.inj he
      have hsame : ca₂.tail = ca.tail ∧ ca₂.toRetire = ca.toRetire := by
        simp only [CA.set, Option.map_eq_some'] at hset
        obtain ⟨_, _, rfl⟩ := hset
        exact ⟨rfl, rfl⟩
      exact RetireStacked.stay (hsame.1.trans ht) ⟨rfl, hlo, hsame.2, Stacked.link hlo hst hset⟩
    | push old expected =>
      obtain ⟨rfl, -, hexp, hst⟩ := h
      rw [Retire.step_push ca hexp] at hstep
      cases hstep
      exact RetireStacked.stay ht hst
  | read p =>
    simp only [GetTail.step, Option.map_eq_some'] at hs
    obtain ⟨blk, -, he⟩ := hs
    cases he
    exact ⟨lo, ht, by rintro _ ⟨⟩, fun _ _ => h⟩

end Parlay.ContinuousArray
