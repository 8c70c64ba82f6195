import Parlay.ContinuousArray.TailRun

/-!
# `get_tail` with no other reader

With one thief, at most one call of `get_tail` is in progress, and only that
call moves `tail`; the owner's operations never do. The call then keeps
seeing the tail it loaded, walks forward from it to the block of its index,
retires the tail exactly when its index starts the next block, and reads the
element stored for its index (`SoleOk`).

Results:
1. `Retire.step_ne_none`: the retirement made by such a call never
   dereferences null.
2. `GetTail.step_sole`: every step of such a call exists, keeps the chain and
   every element, fails no assertion, and the value the call returns is the
   element stored for its index.
-/

namespace Parlay.ContinuousArray

variable {T : Type}

/-- What the only call `get_tail(index)` in progress knows while `tail` is block
`lo`: the tail is at or below the block `d` of `index`; the forward search is
between them; once the search turns, it is on block `d`; a retirement runs for
`d = lo + 1`; and the read is in block `d`. -/
def SoleOk (lo index : Nat) : GetTail → Prop
  | .loadTail => lo ≤ desiredBlockId index
  | .forward t b => t = some lo ∧ ∃ a, b = some a ∧ lo ≤ a ∧ a ≤ desiredBlockId index
  | .backward t b | .found t b =>
    t = some lo ∧ b = some (desiredBlockId index) ∧ lo ≤ desiredBlockId index
  | .retire p r => p = desiredBlockId index ∧ Boundary index ∧ RetireOk lo (desiredBlockId index) r
  | .read p => p = desiredBlockId index

/-- A step of a retirement for `d = lo + 1` never dereferences null: the blocks
it reads, the tail and block `d - 1`, are allocated. -/
theorem Retire.step_ne_none {ca : CA T} {lo hi d : Nat} {r : Retire} (hc : Chain ca lo hi)
    (hd : d ≤ hi) (hr : RetireOk lo d r) : r.step ca ≠ none := by
  cases r with
  | loadTail => simp [Retire.step]
  | loadNext old =>
    obtain ⟨rfl, -⟩ := hr
    obtain ⟨blk, hblk, -⟩ := hc.mem hc.le
    simp [Retire.step, CA.get, hblk]
  | cas old next =>
    simp only [Retire.step]
    split_ifs <;> simp
  | recheck old next => exact hr.elim
  | checkYounger old =>
    obtain ⟨rfl, -⟩ := hr
    obtain ⟨tb, htb, -⟩ := hc.mem hc.le
    obtain ⟨ob, hob, -⟩ := hc.mem (show d - 1 ≤ hi by omega)
    simp [Retire.step, CA.get, hc.tail, htb, hob]
  | link old =>
    obtain ⟨rfl, -⟩ := hr
    obtain ⟨ob, hob, -⟩ := hc.mem (show d - 1 ≤ hi by omega)
    simp [Retire.step_link ca hob]
  | push old expected =>
    simp only [Retire.step]
    split_ifs <;> simp

/-- A step of the only call `get_tail(index)` in progress, for an index whose
block is in the chain: it exists, keeps the chain, every element and the
failed assertions (`TailStep`, `faults`), keeps what the call knows, and
returns the element stored for `index` when it returns. -/
theorem GetTail.step_sole {ca : CA T} {lo hi index : Nat} {g : GetTail} (hc : Chain ca lo hi)
    (hd : desiredBlockId index ≤ hi) (hg : SoleOk lo index g) :
    ∃ ca' r, g.step ca index = some (ca', r) ∧ ∃ lo', TailStep ca ca' lo lo' hi index ∧
      ca'.faults = ca.faults ∧ (∀ g', r = .inl g' → SoleOk lo' index g') ∧
      ∀ v, r = .inr v → v = ca.value index := by
  cases g with
  | loadTail =>
    refine ⟨ca, _, rfl, lo, .refl hc index, rfl, ?_, by rintro _ ⟨⟩⟩
    rintro _ ⟨⟩
    exact ⟨hc.tail, lo, hc.tail, le_rfl, hg⟩
  | forward t b =>
    obtain ⟨rfl, a, rfl, hla, had⟩ := hg
    obtain ⟨blk, hblk, hid⟩ := hc.mem (show a ≤ hi by omega)
    refine ⟨ca, _, GetTail.step_forward ca hblk, lo, .refl hc index, rfl, ?_, by rintro _ ⟨⟩⟩
    rintro _ ⟨⟩
    rw [hid]
    split_ifs with hlt
    · exact ⟨rfl, a + 1, hc.next_eq (by omega) hblk, by omega, hlt⟩
    · exact ⟨rfl, by rw [show a = desiredBlockId index by omega], hla.trans had⟩
  | backward t b =>
    obtain ⟨rfl, rfl, hld⟩ := hg
    obtain ⟨blk, hblk, hid⟩ := hc.mem hd
    refine ⟨ca, _, GetTail.step_backward ca hblk, lo, .refl hc index, rfl, ?_, by rintro _ ⟨⟩⟩
    rintro _ ⟨⟩
    rw [if_neg (by omega)]
    exact ⟨rfl, rfl, hld⟩
  | found t b =>
    obtain ⟨rfl, rfl, hld⟩ := hg
    obtain ⟨blk, hblk, hid⟩ := hc.mem hd
    obtain ⟨tb, htb, htid⟩ := hc.mem hc.le
    refine ⟨ca, _, GetTail.step_found ca hblk hid htb, lo, .refl hc index, rfl, ?_,
      by rintro _ ⟨⟩⟩
    rintro _ ⟨⟩
    split_ifs with hr
    · obtain ⟨h0, hne, hnext⟩ := hr
      exact ⟨rfl, ⟨h0, by omega⟩, show lo + 1 = _ by omega⟩
    · rfl
  | retire p r =>
    obtain ⟨rfl, hB, hr⟩ := hg
    obtain ⟨⟨ca', r'⟩, hs⟩ := Option.ne_none_iff_exists'.1 (Retire.step_ne_none hc hd hr)
    obtain ⟨lo', hts, hf, hr'⟩ := Retire.step_chain hc hd hB hr hs
    cases r' with
    | none =>
      exact ⟨ca', .inl (.read (desiredBlockId index)), by simp [GetTail.step, hs], lo', hts, hf,
        by rintro _ ⟨⟩; rfl, by rintro _ ⟨⟩⟩
    | some r'' =>
      exact ⟨ca', _, GetTail.step_retire hs, lo', hts, hf,
        by rintro _ ⟨⟩; exact ⟨rfl, hB, hr' r'' rfl⟩, by rintro _ ⟨⟩⟩
  | read p =>
    subst hg
    obtain ⟨blk, hblk, -⟩ := hc.mem hd
    refine ⟨ca, _, GetTail.step_read ca hblk, lo, .refl hc index, rfl, by rintro _ ⟨⟩, ?_⟩
    rintro _ ⟨⟩
    simp [CA.value, hblk]

end Parlay.ContinuousArray
