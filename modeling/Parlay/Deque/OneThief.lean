import Parlay.Deque.Blocks
import Parlay.Deque.Conservation
import Parlay.ContinuousArray.SoleReader

/-!
# One thief: the deque on `continuous_array` is the deque on the ideal array

With one thief no two calls of `get_tail` overlap, and the race of
`delayed_thief_derefs_null` cannot happen. A state of the deque on
`continuous_array` then stands for a state of the deque on the ideal array
(`abstract`): the same counters, program counters and history, with the
elements the blocks store as its array. Each owner step, each invocation and
each step of `pop_top` outside `get_tail` is the same step of the ideal deque;
a step inside `get_tail` that does not return changes no element and stands
for no step; the step that returns reads the element stored for its index,
as the ideal array's single read does.

Results:
1. `ownerStep_abstract`, `thiefStep_abstract`: the simulation, one step at a
   time, for any number of thieves whose calls of `get_tail` keep a reader
   invariant (`ReaderStep`), such as knowing their tail (`SoleOk`).
2. `reachable_abstract`: with one thief, every reachable state stands for a
   reachable state of the ideal deque, and no assertion has failed.
3. `one_thief_refines_ideal`: with one thief the deque on `continuous_array`
   refines the ideal deque, keeps its balance of values (`Conserved`), fails
   no assertion, and the thief never dereferences null.
-/

namespace Parlay.Deque

open ContinuousArray

variable {V : Type} {n : Nat}

/-! ## The ideal deque a deque on blocks stands for -/

/-- A thief's position, forgetting where it is inside `get_tail`. -/
def Thief.forget {R : Type} : Thief R → Thief Unit
  | .idle => .idle
  | .loadedTop oldTop => .loadedTop oldTop
  | .loadedBot oldTop localBot => .loadedBot oldTop localBot
  | .claimed oldTop localBot _ => .claimed oldTop localBot ()
  | .assertFailed => .assertFailed

/-- The deque on the ideal array that a deque on `continuous_array` stands for:
the same counters, program counters and history, and as its array the elements
the blocks store. -/
def abstract (s : BlockState V n) : IdealState V n where
  bot := s.bot
  top := s.top
  arr := s.arr.value
  owner := s.owner
  thieves i := (s.thieves i).forget
  history := s.history

section Abstract

variable (s : BlockState V n)

@[simp] theorem abstract_bot : (abstract s).bot = s.bot := rfl
@[simp] theorem abstract_top : (abstract s).top = s.top := rfl
@[simp] theorem abstract_arr : (abstract s).arr = s.arr.value := rfl
@[simp] theorem abstract_owner : (abstract s).owner = s.owner := rfl
@[simp] theorem abstract_thieves (i : Fin n) : (abstract s).thieves i = (s.thieves i).forget := rfl
@[simp] theorem abstract_history : (abstract s).history = s.history := rfl

theorem abstract_setArr (a : CA V) : abstract (s.setArr a) = (abstract s).setArr a.value := rfl
theorem abstract_setOwner (o : Owner V) : abstract (s.setOwner o) = (abstract s).setOwner o := rfl
theorem abstract_record (e : Event V) : abstract (s.record e) = (abstract s).record e := rfl

theorem abstract_setThief (i : Fin n) (t : Thief GetTail) :
    abstract (s.setThief i t) = (abstract s).setThief i t.forget := by
  simp only [abstract, State.setThief, State.mk.injEq, true_and, and_true]
  funext j
  by_cases hj : j = i
  · subst hj
    simp
  · simp [Function.update_noteq hj]

end Abstract

theorem create_value : (create : CA V).value = fun _ => none := by
  funext j
  by_cases hj : desiredBlockId j = 0 <;>
    simp [CA.value, ContinuousArray.create, malloc, unconstructed, Block.fresh, hj]

theorem abstract_init : abstract (init (blocks V) : BlockState V n) = init (ideal V) := by
  simp only [abstract, Deque.init, blocks_empty, create_value, Thief.forget]
  rfl

/-! ## Owner steps -/

/-- An owner step is the same step of the ideal deque, keeps the tail and fails
no assertion: `put_head(b, v)` stores what the ideal array stores, and
`get_head(b)` reads what it reads. -/
theorem ownerStep_abstract {s s' : BlockState V n} {lo hi : Nat} (h : Layout s lo hi)
    (hsh : Shape s) (hs : ownerStep (blocks V) s = some s') :
    ownerStep (ideal V) (abstract s) = some (abstract s') ∧ s'.arr.tail = s.arr.tail ∧
      s'.arr.faults = s.arr.faults := by
  obtain ⟨u, hu, huhi, hin⟩ := h.inUse
  have hlo := h.lo_le_inUse hsh hin
  have hown := hsh.owner
  have hx := h.extent
  unfold Deque.ownerStep at hs ⊢
  simp only [abstract_owner, abstract_top]
  cases hcase : s.owner with
  | idle => simp [hcase] at hs
  | pushPut b v =>
    simp only [hcase, OwnerOk, InUse, Owner.extent] at hown hin hx
    obtain ⟨ca', hi', hput, hc', -, -, -, -, hf, -, -, hval⟩ :=
      putHead_chain v h.chain hu huhi (hown.1 ▸ hin) (hown.1 ▸ hx)
    simp only [hcase, blocks_putHead, hput, Option.map_some', Option.some.injEq] at hs
    subst hs
    have hv : ca'.value = Function.update s.arr.value b (some v) :=
      funext fun j => by rw [hval, Function.update_apply]
    refine ⟨?_, by rw [State.setOwner_arr, State.setArr_arr, hc'.tail, h.chain.tail], hf⟩
    simp [hcase, ideal, abstract_setArr, abstract_setOwner, hv]
  | popRead b t =>
    simp only [hcase, OwnerOk, InUse] at hown hin
    have hget := getHead_chain h.chain hu huhi hin (by
      rcases h.retired with h0 | hlt
      · omega
      · rw [desiredBlockId_eq]; omega)
    simp only [hcase, blocks_getHead, hget, Option.map_some', Option.some.injEq] at hs
    subst hs
    refine ⟨?_, by split_ifs <;> rfl, by split_ifs <;> rfl⟩
    simp only [abstract_owner, hcase, ideal, Option.map_some', abstract_arr, Option.some.injEq]
    split_ifs <;> rfl
  | pushStore b | popStore b | popRestore b _ =>
    simp only [hcase, Option.some.injEq] at hs ⊢
    subst hs
    exact ⟨rfl, rfl, rfl⟩
  | popLoadTop b | popCas b _ =>
    simp only [hcase] at hs ⊢
    split_ifs at hs ⊢ <;> cases hs <;> exact ⟨rfl, rfl, rfl⟩

/-! ## Thief steps -/

/-- Every thread inside `get_tail` is where the reader invariant `P` puts it,
for the array and the tail of the state. -/
def Readers (P : CA V → Nat → Nat → GetTail → Prop) (s : BlockState V n) : Prop :=
  ∀ i oldTop localBot g, s.thieves i = .claimed oldTop localBot g →
    ∀ lo, s.arr.tail = some lo → P s.arr lo oldTop g

/-- Every thread inside `get_tail` knows where the tail is (`SoleOk`). -/
def SoleReader (s : BlockState V n) : Prop := Readers (fun _ lo index g => SoleOk lo index g) s

/-- `P` is kept by a call of `get_tail(index)` it holds for, on the chain and
with the block of `index` in it: the call's next step exists, keeps the chain
and `P`, fails no assertion, and returns the element stored for `index`. -/
def ReaderStep (P : CA V → Nat → Nat → GetTail → Prop) : Prop :=
  ∀ {ca : CA V} {lo hi index : Nat} {g : GetTail}, Chain ca lo hi → desiredBlockId index ≤ hi →
    ReaderOk lo index g → P ca lo index g →
    ∃ ca' r, g.step ca index = some (ca', r) ∧ ∃ lo', TailStep ca ca' lo lo' hi index ∧
      ca'.faults = ca.faults ∧ (∀ g', r = .inl g' → P ca' lo' index g') ∧
      ∀ v, r = .inr v → v = ca.value index

theorem soleOk_readerStep : ReaderStep (fun (_ : CA V) lo index g => SoleOk lo index g) :=
  fun hc hd _ hg => GetTail.step_sole hc hd hg

/-- A step of thief `i` is the same step of the ideal deque, or, inside
`get_tail` before it returns, no step at all; it fails no assertion, and
thief `i` is where the reader invariant `P` puts it after the step, for any
`P` that every call starts in and that every step of a call keeps. -/
theorem thiefStep_abstract (P : CA V → Nat → Nat → GetTail → Prop)
    (hstart : ∀ ca lo index, lo ≤ desiredBlockId index → P ca lo index .loadTail)
    (hread : ReaderStep P) {s s' : BlockState V n} {lo hi : Nat} {i : Fin n}
    (h : Layout s lo hi) (hsh : Shape s) (hP : Readers P s)
    (hs : thiefStep (blocks V) s i = some s') :
    (abstract s' = abstract s ∨ thiefStep (ideal V) (abstract s) i = some (abstract s')) ∧
      s'.arr.faults = s.arr.faults ∧
      ∀ oldTop localBot g, s'.thieves i = .claimed oldTop localBot g →
        ∀ lo', s'.arr.tail = some lo' → P s'.arr lo' oldTop g := by
  unfold Deque.thiefStep at hs ⊢
  cases hthief : s.thieves i with
  | idle => simp [hthief] at hs
  | assertFailed => simp [hthief] at hs
  | loadedTop oldTop =>
    simp only [hthief, abstract_thieves, Thief.forget, abstract_bot] at hs ⊢
    split_ifs at hs ⊢ <;> cases hs <;>
      exact ⟨.inr (by simp [abstract_setThief, abstract_record, Thief.forget]), rfl, by simp⟩
  | loadedBot oldTop localBot =>
    simp only [hthief, abstract_thieves, Thief.forget, abstract_top] at hs ⊢
    split_ifs at hs ⊢ with htop <;> cases hs
    · refine ⟨.inr (by simp [abstract_setThief, Thief.forget]; rfl), rfl, ?_⟩
      simp only [State.setThief_thieves, Function.update_same, Thief.claimed.injEq]
      rintro _ _ _ ⟨rfl, rfl, rfl⟩ lo' ht
      rw [show lo' = lo by simpa [h.chain.tail] using ht.symm]
      refine hstart _ _ _ ?_
      rw [desiredBlockId_eq]
      rcases h.retired with h0 | hlt <;> omega
    · exact ⟨.inr (by simp [abstract_setThief, abstract_record, Thief.forget]), rfl, by simp⟩
  | claimed oldTop localBot g =>
    obtain ⟨ca', r, hstep, lo', hts, hf, hg', hv⟩ :=
      hread h.chain (h.claimed_le hsh hthief) (h.readers i _ _ _ hthief)
        (hP i _ _ _ hthief lo h.chain.tail)
    simp only [hthief, blocks_tailStep, hstep, Option.map_some', Option.some.injEq] at hs
    subst hs
    cases r with
    | inl g' =>
      refine ⟨.inl ?_, hf, ?_⟩
      · simp only [Sum.elim_inl, abstract, State.setThief, State.setArr, funext hts.value,
          State.mk.injEq, true_and, and_true]
        funext j
        by_cases hj : j = i
        · subst hj
          simp [hthief, Thief.forget]
        · simp [Function.update_noteq hj]
      · simp only [Sum.elim_inl, State.setThief_thieves, Function.update_same, Thief.claimed.injEq,
          State.setThief_arr, State.setArr_arr]
        rintro _ _ _ ⟨rfl, rfl, rfl⟩ lo'' ht
        rw [show lo'' = lo' by simpa [hts.chain.tail] using ht.symm]
        exact hg' g' rfl
    | inr v =>
      refine ⟨.inr ?_, hf, by simp⟩
      simp [hthief, Thief.forget, ideal, abstract_setThief, abstract_setArr, abstract_record,
        hv v rfl, funext hts.value]

/-! ## One thief -/

/-- With one thief, every step is a step of the ideal deque or no step at all,
fails no assertion, and keeps what the thief inside `get_tail` knows. -/
theorem step_abstract {s s' : BlockState V 1} {a : Act V 1} {lo hi : Nat} (h : Layout s lo hi)
    (hsh : Shape s) (hsole : SoleReader s) (hs : step (blocks V) s a = some s') :
    (abstract s' = abstract s ∨ step (ideal V) (abstract s) a = some (abstract s')) ∧
      s'.arr.faults = s.arr.faults ∧ SoleReader s' := by
  cases a with
  | owner =>
    obtain ⟨hsim, htail, hf⟩ := ownerStep_abstract h hsh hs
    refine ⟨.inr hsim, hf, fun i oldTop localBot g hi lo' ht => ?_⟩
    rw [ownerStep_thieves _ hs] at hi
    exact hsole i _ _ _ hi lo' (htail ▸ ht)
  | thief i =>
    obtain ⟨hsim, hf, hown⟩ :=
      thiefStep_abstract _ (fun _ _ _ h => h) soleOk_readerStep h hsh hsole hs
    refine ⟨hsim, hf, fun j => ?_⟩
    obtain rfl : j = i := Subsingleton.elim j i
    exact hown
  | pushBottom v =>
    cases hown : s.owner <;> simp only [Deque.step, hown, reduceCtorEq, Option.some.injEq] at hs
    subst hs
    exact ⟨.inr (by simp [Deque.step, hown, abstract_setOwner, abstract_record]), rfl, hsole⟩
  | popBottom =>
    cases hown : s.owner <;> simp only [Deque.step, hown, reduceCtorEq] at hs
    split at hs <;> simp only [Option.some.injEq] at hs <;> subst hs
    · exact ⟨.inr (by simp [Deque.step, hown, abstract_record, *]), rfl, hsole⟩
    · exact ⟨.inr (by simp [Deque.step, hown, abstract_setOwner, *]), rfl, hsole⟩
  | popTop i =>
    cases hthief : s.thieves i <;>
      simp only [Deque.step, hthief, reduceCtorEq, Option.some.injEq] at hs
    subst hs
    refine ⟨.inr (by simp [Deque.step, hthief, Thief.forget, abstract_setThief]), rfl, fun j => ?_⟩
    obtain rfl : j = i := Subsingleton.elim j i
    simp

/-- With one thief, every reachable state of the deque on `continuous_array`
stands for a reachable state of the deque on the ideal array; no assertion has
failed, and the thief inside `get_tail` knows where the tail is. -/
theorem reachable_abstract {s : BlockState V 1} (h : Reachable (blocks V) s) :
    Reachable (ideal V) (abstract s) ∧ s.arr.faults = [] ∧ SoleReader s := by
  induction h with
  | init =>
    refine ⟨by rw [abstract_init]; exact .init, rfl, fun i _ _ _ hi => ?_⟩
    simp [Deque.init] at hi
  | step hr hs ih =>
    obtain ⟨habs, hf, hsole⟩ := ih
    obtain ⟨lo, hi, hl⟩ := reachable_layout hr
    obtain ⟨hsim, hf', hsole'⟩ := step_abstract hl (reachable_shape _ hr) hsole hs
    refine ⟨?_, hf'.trans hf, hsole'⟩
    rcases hsim with he | hstep
    · exact he ▸ habs
    · exact habs.step hstep

/-- With one thief, the deque on `continuous_array` behaves as the deque on the
ideal array. Every state an interleaving reaches stands for a state the ideal
deque reaches: the same `bot`, `top`, program counters and history, with the
elements the blocks store as its array. So every pushed value is in exactly
one place (`Conserved`); no assertion of `continuous_array` has failed; and
the thief's next step inside `get_tail` always exists: it never dereferences
null. -/
theorem one_thief_refines_ideal {s : BlockState V 1} (h : Reachable (blocks V) s) :
    Reachable (ideal V) (abstract s) ∧ Conserved (abstract s) ∧ s.arr.faults = [] ∧
      ∀ oldTop localBot g, s.thieves 0 = .claimed oldTop localBot g →
        thiefStep (blocks V) s 0 ≠ none := by
  obtain ⟨habs, hf, hsole⟩ := reachable_abstract h
  refine ⟨habs, reachable_conserved habs, hf, fun oldTop localBot g hc => ?_⟩
  obtain ⟨lo, hi, hl⟩ := reachable_layout h
  obtain ⟨ca', r, hstep, -⟩ := GetTail.step_sole hl.chain (hl.claimed_le (reachable_shape _ h) hc)
    (hsole 0 _ _ _ hc lo hl.chain.tail)
  simp [Deque.thiefStep, hc, hstep]

/-- Mid-race between `pop_top` and `pop_bottom`: the thief has claimed index
`0` and the owner is about to read it. -/
theorem one_thief_refines_ideal_race :
    ∃ s, run (blocks Nat) (init (blocks Nat)) popRace = some s ∧ s.owner = .popRead 0 0 ∧
      (∃ g, s.thieves 0 = .claimed 0 1 g) ∧
      Reachable (ideal Nat) (abstract s) ∧ Conserved (abstract s) ∧ s.arr.faults = [] ∧
      ∀ oldTop localBot g, s.thieves 0 = .claimed oldTop localBot g →
        thiefStep (blocks Nat) s 0 ≠ none :=
  ⟨_, rfl, rfl, ⟨_, rfl⟩, one_thief_refines_ideal (Reachable.init.run (l := popRace) rfl)⟩

end Parlay.Deque
