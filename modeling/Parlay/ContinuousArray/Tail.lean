import Parlay.ContinuousArray.Chain

/-!
# `get_tail` on the live chain

A thief calls `get_tail(index)` for an index it won with its CAS on `top`, so
no two calls in progress read the same index. Reading the first element of
block `d ≥ 1` retires block `d - 1`; only the reader of that element moves
`tail` from block `d - 1`, so such a reader finds `tail` still on block
`d - 1` when it searches and when it retires (`ReaderOk`). Its retirement then
takes one pass: its CAS on `tail` succeeds and the block it pushes onto
`to_retire` is out of the chain.

Results:
1. `GetTail.step_chain`: a step of `get_tail` keeps the chain, moves `tail` by
   one block only for the reader of the first element of the next block, and
   keeps what the caller knows.
2. `ReaderOk.advance`: another reader's knowledge survives that move.
-/

namespace Parlay.ContinuousArray

variable {T : Type}

/-- `index` is the first element of a block other than block 0: reading it
retires the block before. -/
def Boundary (index : Nat) : Prop := offset index = 0 ∧ 0 < desiredBlockId index

/-- What a call `ca_retire_last_block()` made by the reader of the first
element of block `d` knows, while `tail` is block `lo`. -/
def RetireOk (lo d : Nat) : Retire → Prop
  | .loadTail => lo + 1 = d
  | .loadNext old => old = some lo ∧ lo + 1 = d
  | .cas old next => old = some lo ∧ next = some d ∧ lo + 1 = d
  | .recheck _ _ => False
  | .checkYounger old | .link old | .push old _ => old = some (d - 1) ∧ d ≤ lo

/-- What a call `get_tail(index)` knows, while `tail` is block `lo`: the block
`t` it loaded is not past the tail, and a call that will retire still has the
tail on the block before its own and walks from it to its own block. -/
def ReaderOk (lo index : Nat) : GetTail → Prop
  | .loadTail => Boundary index → lo < desiredBlockId index
  | .forward t b => ∃ a, t = some a ∧ a ≤ lo ∧ (Boundary index → lo < desiredBlockId index ∧
      (a + 1 = desiredBlockId index → b = some a ∨ b = some (desiredBlockId index)))
  | .backward t b | .found t b => ∃ a, t = some a ∧ a ≤ lo ∧
      (Boundary index → lo < desiredBlockId index ∧
        (a + 1 = desiredBlockId index → b = some (desiredBlockId index)))
  | .retire p r => Boundary index ∧ p = desiredBlockId index ∧ RetireOk lo (desiredBlockId index) r
  | .read _ => True

/-! ## What the retirement writes -/

theorem Chain.check {ca : CA T} {lo hi : Nat} (hc : Chain ca lo hi) (c : Prop) [Decidable c]
    (f : Check) : Chain (ca.check c f) lo hi := by
  unfold CA.check
  split_ifs
  · exact hc
  · exact ⟨hc.tail, hc.head, hc.le, hc.brk, hc.curr, hc.reuse, hc.ids, hc.next, hc.headNext,
      hc.prev, hc.fresh⟩

theorem CA.check_value (ca : CA T) (c : Prop) [Decidable c] (f : Check) (j : Nat) :
    (ca.check c f).value j = ca.value j := by
  simp [CA.value]

theorem CA.check_faults (ca : CA T) (c : Prop) [Decidable c] (f : Check) :
    ∀ f' ∈ (ca.check c f).faults, f' ∈ ca.faults ∨ f' = f := by
  unfold CA.check
  split_ifs
  · exact fun f' h => .inl h
  · simp

/-- The CAS of the reader of the first element of block `lo + 1` moves `tail`
one block on. -/
theorem Chain.advance {ca : CA T} {lo hi : Nat} (hc : Chain ca lo hi) (hlt : lo < hi) :
    Chain { ca with tail := some (lo + 1) } (lo + 1) hi :=
  ⟨rfl, hc.head, hlt, hc.brk, hc.curr, hc.reuse, hc.ids, hc.next, hc.headNext,
    fun k h1 h2 => hc.prev k (by omega) h2, hc.fresh⟩

theorem Chain.setToRetire {ca : CA T} {lo hi : Nat} (hc : Chain ca lo hi) (x : Option Nat) :
    Chain { ca with toRetire := x } lo hi :=
  ⟨hc.tail, hc.head, hc.le, hc.brk, hc.curr, hc.reuse, hc.ids, hc.next, hc.headNext, hc.prev,
    hc.fresh⟩

/-- `old_block->prev = old_to_retire` on a block at or below the tail: the
chain above the tail keeps its links. -/
theorem Chain.setPrev {ca ca' : CA T} {lo hi k : Nat} (hc : Chain ca lo hi) (hk : k < lo)
    {x : Option Nat} (hs : (ca.set (some k) fun blk => { blk with prev := x }) = some ca') :
    Chain ca' lo hi ∧ ca'.blockInUse = ca.blockInUse ∧ ca'.toRetire = ca.toRetire ∧
      ca'.faults = ca.faults ∧ ∀ j, ca'.value j = ca.value j := by
  simp only [CA.set, Option.map_eq_some'] at hs
  obtain ⟨blk, hblk, rfl⟩ := hs
  have hmem : ∀ j, j ≠ k → (Function.update ca.mem k (some { blk with prev := x })) j = ca.mem j :=
    fun j hj => Function.update_noteq hj _ _
  refine ⟨⟨hc.tail, hc.head, hc.le, hc.brk, hc.curr, hc.reuse, fun j hj => ?_, fun j hj => ?_, ?_,
    fun j h1 h2 => by simpa [hmem j (by omega)] using hc.prev j h1 h2, fun j hj => ?_⟩,
    rfl, rfl, rfl, fun j => ?_⟩
  · by_cases hjk : j = k
    · subst hjk; simpa [hblk] using hc.ids j hj
    · simpa [hmem j hjk] using hc.ids j hj
  · by_cases hjk : j = k
    · subst hjk; simpa [hblk] using hc.next j hj
    · simpa [hmem j hjk] using hc.next j hj
  · simpa [hmem hi (by have := hc.le; omega)] using hc.headNext
  · simpa [hmem j (by have := hc.le; omega)] using hc.fresh j hj
  · simp only [CA.value]
    by_cases hjk : desiredBlockId j = k
    · rw [hjk]; simp [hblk]
    · simp [hmem _ hjk]

/-! ## One step of a reader -/

/-- What one step of `get_tail(index)` does to the array: the chain stays, its
tail moves one block on only for the reader of the first element of the block
after it, and `block_in_use`, every element and the absence of failed
assertions other than the one in `get_tail` are kept. -/
structure TailStep (ca ca' : CA T) (lo lo' hi index : Nat) : Prop where
  chain : Chain ca' lo' hi
  inUse : ca'.blockInUse = ca.blockInUse
  value : ∀ j, ca'.value j = ca.value j
  faults : ∀ f ∈ ca'.faults, f ∈ ca.faults ∨ f = .getTail
  moved : lo' = lo ∨ Boundary index ∧ lo + 1 = desiredBlockId index ∧ lo' = lo + 1

theorem TailStep.refl {ca : CA T} {lo hi : Nat} (hc : Chain ca lo hi) (index : Nat) :
    TailStep ca ca lo lo hi index :=
  ⟨hc, rfl, fun _ => rfl, fun _ h => .inl h, .inl rfl⟩

theorem TailStep.check {ca : CA T} {lo hi : Nat} (hc : Chain ca lo hi) (c : Prop) [Decidable c]
    (index : Nat) : TailStep ca (ca.check c .getTail) lo lo hi index :=
  ⟨hc.check c _, by simp, CA.check_value ca c _, CA.check_faults ca c _, .inl rfl⟩

theorem Chain.blockId_eq {ca : CA T} {lo hi k : Nat} {blk : Block T} (hc : Chain ca lo hi)
    (hk : k ≤ hi) (hm : ca.mem k = some blk) : blk.blockId = k := by
  simpa [hm] using hc.ids k hk

theorem Chain.next_eq {ca : CA T} {lo hi k : Nat} {blk : Block T} (hc : Chain ca lo hi)
    (hk : k < hi) (hm : ca.mem k = some blk) : blk.next = some (k + 1) := by
  simpa [hm] using hc.next k hk

/-- A step of `ca_retire_last_block()` made by the reader of the first element
of block `d = lo + 1`: it moves the tail to `d` with its CAS, which cannot fail,
and then pushes block `d - 1`; none of its assertions fails. -/
theorem Retire.step_chain {ca ca' : CA T} {lo hi index : Nat} {r : Retire} {r' : Option Retire}
    (hc : Chain ca lo hi) (hd : desiredBlockId index ≤ hi) (hB : Boundary index)
    (hr : RetireOk lo (desiredBlockId index) r) (hs : r.step ca = some (ca', r')) :
    ∃ lo', TailStep ca ca' lo lo' hi index ∧ ca'.faults = ca.faults ∧
      ∀ r'', r' = some r'' → RetireOk lo' (desiredBlockId index) r'' := by
  cases r with
  | loadTail =>
    cases hs
    exact ⟨lo, .refl hc index, rfl, by rintro _ ⟨⟩; exact ⟨hc.tail, hr⟩⟩
  | loadNext old =>
    obtain ⟨rfl, hlo⟩ := hr
    obtain ⟨blk, hblk, -⟩ := hc.mem (show lo ≤ hi by omega)
    have hnext := hc.next_eq (show lo < hi by omega) hblk
    simp only [Retire.step, CA.get, Option.some_bind, hblk, hnext, Option.map_some',
      CA.check_pos _ _ (Option.some_ne_none (lo + 1)), Option.some.injEq] at hs
    cases hs
    exact ⟨lo, .refl hc index, rfl, by rintro _ ⟨⟩; exact ⟨rfl, by rw [hlo], hlo⟩⟩
  | cas old next =>
    obtain ⟨rfl, hn, hlo⟩ := hr
    rw [← hlo] at hn
    subst hn
    simp only [Retire.step, hc.tail, if_true, Option.some.injEq] at hs
    cases hs
    refine ⟨lo + 1, ⟨hc.advance (by omega), rfl, fun _ => rfl, fun _ h => .inl h,
      .inr ⟨hB, hlo, rfl⟩⟩, rfl, ?_⟩
    rintro _ ⟨⟩
    exact ⟨by rw [← hlo]; rfl, by omega⟩
  | recheck old next => exact hr.elim
  | checkYounger old =>
    obtain ⟨rfl, hdlo⟩ := hr
    obtain ⟨tb, htb, htid⟩ := hc.mem hc.le
    obtain ⟨ob, hob, hoid⟩ := hc.mem (show desiredBlockId index - 1 ≤ hi by omega)
    simp only [Retire.step, CA.get, hc.tail, Option.some_bind, htb, hob, Option.bind_eq_bind,
      CA.check_pos _ _ (show tb.blockId > ob.blockId by have := hB.2; omega),
      Option.some.injEq] at hs
    cases hs
    exact ⟨lo, .refl hc index, rfl, by rintro _ ⟨⟩; exact ⟨rfl, hdlo⟩⟩
  | link old =>
    obtain ⟨rfl, hdlo⟩ := hr
    simp only [Retire.step, Option.map_eq_some'] at hs
    obtain ⟨ca₁, hs₁, he⟩ := hs
    cases he
    obtain ⟨hc', hu, -, hf, hv⟩ := hc.setPrev (show desiredBlockId index - 1 < lo by
      have := hB.2; omega) hs₁
    exact ⟨lo, ⟨hc', hu, hv, fun f h => .inl (hf ▸ h), .inl rfl⟩, hf,
      by rintro _ ⟨⟩; exact ⟨rfl, hdlo⟩⟩
  | push old expected =>
    simp only [Retire.step] at hs
    split_ifs at hs
    · cases hs
      exact ⟨lo, ⟨hc.setToRetire _, rfl, fun _ => rfl, fun _ h => .inl h, .inl rfl⟩, rfl,
        by rintro _ ⟨⟩⟩
    · cases hs
      exact ⟨lo, .refl hc index, rfl, by rintro _ ⟨⟩; exact hr⟩

/-- A step of `get_tail(index)` from what its caller knows, for an index whose
block is in the chain: the step keeps the chain (`TailStep`) and what the
caller knows. -/
theorem GetTail.step_chain {ca ca' : CA T} {lo hi index : Nat} {g : GetTail}
    {r : GetTail ⊕ Option T} (hc : Chain ca lo hi) (hd : desiredBlockId index ≤ hi)
    (hg : ReaderOk lo index g) (hs : g.step ca index = some (ca', r)) :
    ∃ lo', TailStep ca ca' lo lo' hi index ∧ ∀ g', r = .inl g' → ReaderOk lo' index g' := by
  cases g with
  | loadTail =>
    cases hs
    refine ⟨lo, .refl hc index, ?_⟩
    rintro _ ⟨⟩
    exact ⟨lo, hc.tail, le_rfl, fun hB => ⟨hg hB, fun _ => .inl hc.tail⟩⟩
  | forward t b =>
    obtain ⟨a, rfl, ha, hw⟩ := hg
    cases b with
    | none =>
      cases hs
      refine ⟨lo, .refl hc index, ?_⟩
      rintro _ ⟨⟩
      exact ⟨a, rfl, ha, fun hB => ⟨(hw hB).1, fun h => by simpa using (hw hB).2 h⟩⟩
    | some p =>
      simp only [GetTail.step, Option.map_eq_some'] at hs
      obtain ⟨blk, hblk, hs⟩ := hs
      refine ⟨lo, ?_⟩
      split_ifs at hs with hlt <;> cases hs <;> refine ⟨.refl hc index, ?_⟩ <;> rintro _ ⟨⟩ <;>
        refine ⟨a, rfl, ha, fun hB => ⟨(hw hB).1, fun h => ?_⟩⟩ <;>
        obtain hp | hp := (hw hB).2 h <;> cases hp
      · exact .inr (by rw [hc.next_eq (by omega) hblk, h])
      · exact absurd (hc.blockId_eq hd hblk) (by omega)
      · exact absurd (hc.blockId_eq (by omega) hblk) (by omega)
      · rfl
  | backward t b =>
    obtain ⟨a, rfl, ha, hw⟩ := hg
    cases b with
    | none =>
      cases hs
      exact ⟨lo, .refl hc index, by rintro _ ⟨⟩; exact ⟨a, rfl, ha, hw⟩⟩
    | some p =>
      simp only [GetTail.step, Option.map_eq_some'] at hs
      obtain ⟨blk, hblk, hs⟩ := hs
      refine ⟨lo, ?_⟩
      split_ifs at hs with hgt <;> cases hs <;> refine ⟨.refl hc index, ?_⟩ <;> rintro _ ⟨⟩
      · refine ⟨a, rfl, ha, fun hB => ⟨(hw hB).1, fun h => ?_⟩⟩
        obtain ⟨⟩ := (hw hB).2 h
        exact absurd (hc.blockId_eq hd hblk) (by omega)
      · exact ⟨a, rfl, ha, hw⟩
  | found t b =>
    obtain ⟨a, rfl, ha, hw⟩ := hg
    obtain - | p := b
    · cases hs
    simp only [GetTail.step, Option.bind_eq_bind, Option.bind_eq_some] at hs
    obtain ⟨blk, hblk, hs⟩ := hs
    obtain ⟨tb, htb, htid⟩ := hc.mem (show a ≤ hi by have := hc.le; omega)
    simp only [CA.get, CA.check_mem, Option.some_bind, htb] at hs
    split_ifs at hs with hcut hret <;> cases hs <;> refine ⟨lo, .check hc _ index, ?_⟩ <;>
      rintro _ ⟨⟩
    · have hB : Boundary index := ⟨hcut.1, by omega⟩
      obtain ⟨hlt, hp⟩ := hw hB
      cases hp (show a + 1 = desiredBlockId index by omega)
      exact ⟨hB, rfl, show lo + 1 = desiredBlockId index by omega⟩
    · trivial
    · trivial
  | retire p r =>
    obtain ⟨hB, rfl, hr⟩ := hg
    simp only [GetTail.step, Option.map_eq_some'] at hs
    obtain ⟨⟨ca₁, r₁⟩, hs₁, he⟩ := hs
    cases he
    obtain ⟨lo', hstep, -, hr'⟩ := Retire.step_chain hc hd hB hr hs₁
    refine ⟨lo', hstep, ?_⟩
    rintro _ ⟨⟩
    cases r₁ with
    | none => trivial
    | some r' => exact ⟨hB, rfl, hr' r' rfl⟩
  | read p =>
    simp only [GetTail.step, Option.map_eq_some'] at hs
    obtain ⟨blk, -, he⟩ := hs
    cases he
    exact ⟨lo, .refl hc index, by rintro _ ⟨⟩⟩

/-- The reader of the first element of block `lo + 1` moved the tail there:
every other reader keeps what it knows. -/
theorem ReaderOk.advance {lo i j : Nat} {g : GetTail} (hg : ReaderOk lo i g) (hj : Boundary j)
    (hlo : lo + 1 = desiredBlockId j) (hij : i ≠ j) : ReaderOk (lo + 1) i g := by
  have key : Boundary i → desiredBlockId i ≠ lo + 1 := fun hB he =>
    hij ((index_eq_iff i j).2 ⟨by omega, by rw [hB.1, hj.1]⟩)
  cases g with
  | loadTail => exact fun hB => by have := hg hB; have := key hB; omega
  | forward t b | backward t b | found t b =>
    obtain ⟨a, ht, ha, hw⟩ := hg
    exact ⟨a, ht, by omega, fun hB => ⟨by have := (hw hB).1; have := key hB; omega, (hw hB).2⟩⟩
  | retire p r =>
    obtain ⟨hB, hp, hr⟩ := hg
    refine ⟨hB, hp, ?_⟩
    cases r with
    | loadTail => exact absurd hr.symm (key hB)
    | loadNext old => exact absurd hr.2.symm (key hB)
    | cas old next => exact absurd hr.2.2.symm (key hB)
    | recheck old next => exact hr.elim
    | checkYounger old | link old | push old _ => exact ⟨hr.1, by have := hr.2; omega⟩
  | read p => trivial

end Parlay.ContinuousArray
