import Parlay.Deque.Invariant

/-!
# No value is lost, duplicated or invented

Every value passed to `push_bottom` is, at each moment, in exactly one place:
returned by a `pop_bottom` or `pop_top`, in a slot at `top ≤ i < bot`, or in
the hands of a thread between the step that took it out of that range and the
step that returns it. `Conserved` says so as one multiset equation, over
`Option V` so that a null slot in the range would show as a `none` that no
`push_bottom` supplied.

Results:
1. `reachable_conserved`: the balance holds in every reachable state.
2. `conservation`: with every thread idle, `top ≤ bot` and the pushed values
   are the non-null returned values plus the slots at `top ≤ i < bot`; and at
   the step at which a `pop_bottom` returns null, `bot ≤ top` and every pushed
   value has been returned or is held by a thief that won its CAS.
-/

namespace Parlay.Deque

variable {V : Type} {n : Nat}

/-! ## Where values are -/

/-- A returned pointer as a multiset: `nullptr` counts for nothing. -/
def nonNull : Option V → Multiset (Option V)
  | some v => {some v}
  | none => 0

/-- The value `push_bottom` was called with. -/
def Event.given : Event V → Multiset (Option V)
  | .pushBottom v => {some v}
  | _ => 0

/-- The non-null value an operation returned. -/
def Event.taken : Event V → Multiset (Option V)
  | .popBottom r | .popTop r _ => nonNull r
  | _ => 0

/-- The values passed to `push_bottom`. -/
def pushed (h : List (Event V)) : Multiset (Option V) := (h.map Event.given).sum

/-- The non-null values returned by `pop_bottom` and `pop_top`. -/
def popped (h : List (Event V)) : Multiset (Option V) := (h.map Event.taken).sum

/-- The slot values at indices `top ≤ i < bot`. -/
def liveRange (slots : Nat → Option V) (top bot : Nat) : Multiset (Option V) :=
  ↑((List.range' top (bot - top)).map slots)

/-- The value the owner has taken out of the range `top ≤ i < bot` and not yet
returned or published: the pushed value until `bot` is raised over it, and the
slot `b` from the store `bot = b` until `top` passes it or the CAS is decided. -/
def Owner.held (top : Nat) (slots : Nat → Option V) : Owner V → Multiset (Option V)
  | .pushPut _ v => {some v}
  | .pushStore b => {slots b}
  | .popLoadTop b | .popRead b _ | .popCas b _ => if top ≤ b then {slots b} else 0
  | .popRestore _ val => nonNull val
  | _ => 0

/-- The slot a thief claimed by its CAS and has not yet returned. -/
def Thief.held (slots : Nat → Option V) : Thief Unit → Multiset (Option V)
  | .claimed oldTop _ _ => {slots oldTop}
  | _ => 0

/-- What all thieves hold. -/
def thievesHeld (thieves : Fin n → Thief Unit) (slots : Nat → Option V) : Multiset (Option V) :=
  ∑ i, (thieves i).held slots

/-- The balance: pushed values are returned, live, or held. -/
def Conserved (s : IdealState V n) : Prop :=
  pushed s.history = popped s.history + liveRange s.arr s.top s.bot +
    s.owner.held s.top s.arr + thievesHeld s.thieves s.arr

/-! ## Bookkeeping lemmas -/

@[simp] theorem pushed_append (h : List (Event V)) (e : Event V) :
    pushed (h ++ [e]) = pushed h + e.given := by
  simp [pushed]

@[simp] theorem popped_append (h : List (Event V)) (e : Event V) :
    popped (h ++ [e]) = popped h + e.taken := by
  simp [popped]

theorem none_not_mem_pushed (h : List (Event V)) : none ∉ pushed h := by
  induction h with
  | nil => simp [pushed]
  | cons e h ih =>
    have he : none ∉ e.given := by cases e <;> simp [Event.given]
    simpa [pushed] using ⟨he, ih⟩

theorem liveRange_empty {slots : Nat → Option V} {top bot : Nat} (h : bot ≤ top) :
    liveRange slots top bot = 0 := by
  simp [liveRange, Nat.sub_eq_zero_of_le h]

/-- Raising `bot` by one adds slot `bot` to the range, if it lies above `top`. -/
theorem liveRange_succ_bot (slots : Nat → Option V) (top b : Nat) :
    liveRange slots top (b + 1) = liveRange slots top b + if top ≤ b then {slots b} else 0 := by
  split
  · have : b + 1 - top = b - top + 1 := by omega
    simp only [liveRange, this, List.range'_concat, List.map_append, List.map_singleton,
      one_mul, Nat.add_sub_cancel' ‹top ≤ b›]
    rw [← Multiset.coe_singleton, Multiset.coe_add]
  · simp [liveRange_empty (show b ≤ top by omega), liveRange_empty (show b + 1 ≤ top by omega)]

/-- Raising `top` by one takes slot `top` out of a non-empty range. -/
theorem liveRange_succ_top (slots : Nat → Option V) {top bot : Nat} (h : top < bot) :
    liveRange slots top bot = {slots top} + liveRange slots (top + 1) bot := by
  have : bot - top = bot - (top + 1) + 1 := by omega
  simp [liveRange, this, List.range'_succ]

theorem liveRange_congr {slots slots' : Nat → Option V} {top bot : Nat}
    (h : ∀ i, i < bot → slots' i = slots i) : liveRange slots' top bot = liveRange slots top bot := by
  simp only [liveRange]
  congr 1
  exact List.map_congr_left fun i hi => h i (by simp at hi; omega)

theorem thievesHeld_update (f : Fin n → Thief Unit) (slots : Nat → Option V) (i : Fin n) (t : Thief Unit) :
    thievesHeld (Function.update f i t) slots + (f i).held slots =
      thievesHeld f slots + t.held slots := by
  simp only [thievesHeld, Function.apply_update (fun _ (x : Thief Unit) => x.held slots)]
  rw [Finset.sum_update_of_mem (Finset.mem_univ i),
    Finset.sum_eq_add_sum_diff_singleton (Finset.mem_univ i) (fun j => (f j).held slots)]
  abel

/-- A thread whose `held` is zero before and after its step leaves the thieves' total alone. -/
theorem thievesHeld_update_idle (f : Fin n → Thief Unit) (slots : Nat → Option V) (i : Fin n) (t : Thief Unit)
    (hi : (f i).held slots = 0) (ht : t.held slots = 0) :
    thievesHeld (Function.update f i t) slots = thievesHeld f slots := by
  simpa [hi, ht] using thievesHeld_update f slots i t

theorem thievesHeld_congr {f : Fin n → Thief Unit} {slots slots' : Nat → Option V}
    (h : ∀ i oldTop localBot r, f i = .claimed oldTop localBot r → slots' oldTop = slots oldTop) :
    thievesHeld f slots' = thievesHeld f slots := by
  refine Finset.sum_congr rfl fun i _ => ?_
  cases hi : f i with
  | claimed oldTop localBot r => simp [Thief.held, h i _ _ _ hi]
  | _ => rfl

theorem OwnerOk.bot_of_contests {bot top k : Nat} {o : Owner V}
    (h : OwnerOk bot top o) (hk : o.Contests k) : bot = k := by
  cases o <;> simp only [OwnerOk, Owner.Contests] at h hk <;> omega

/-- The owner holds the slot it contests, and gives it up when `top` passes it. -/
theorem Owner.held_of_contests {o : Owner V} {k : Nat} (slots : Nat → Option V)
    (h : o.Contests k) : o.held k slots = {slots k} ∧ o.held (k + 1) slots = 0 := by
  cases o with
  | popLoadTop b | popCas b _ =>
    simp only [Owner.Contests] at h
    simp [Owner.held, h]
  | popRead b t =>
    obtain ⟨rfl, -⟩ := h
    simp [Owner.held]
  | _ => exact h.elim

/-- A winning CAS of `top` hands slot `top` to the winner: out of the live
range, or out of the owner's hands when the owner contests it. -/
theorem OwnerOk.cas_handover {bot top : Nat} {o : Owner V} (h : OwnerOk bot top o)
    (slots : Nat → Option V) (hk : top < bot ∨ o.Contests top) :
    liveRange slots top bot + o.held top slots =
      liveRange slots (top + 1) bot + o.held (top + 1) slots + {slots top} := by
  rcases hk with hk | hk
  · rw [liveRange_succ_top slots hk]
    have : o.held (top + 1) slots = o.held top slots := by
      cases o <;> simp only [OwnerOk, Owner.held] at h ⊢ <;> split_ifs <;> first | rfl | omega
    rw [this]
    abel
  · have hb := h.bot_of_contests hk
    obtain ⟨h1, h2⟩ := Owner.held_of_contests slots hk
    rw [h1, h2, liveRange_empty (show bot ≤ top by omega),
      liveRange_empty (show bot ≤ top + 1 by omega)]
    simp

/-- A value in the balance's right side, past the returned values, is a pushed
value, so not null. -/
theorem Conserved.ne_none {s : IdealState V n} (hc : Conserved s) {x : Option V}
    (hx : {x} ≤ liveRange s.arr s.top s.bot + s.owner.held s.top s.arr +
      thievesHeld s.thieves s.arr) : x ≠ none := by
  rintro rfl
  refine none_not_mem_pushed s.history ?_
  rw [hc, add_assoc, add_assoc]
  exact Multiset.mem_add.2 (.inr (Multiset.singleton_le.1 (by simpa [add_assoc] using hx)))

theorem nonNull_of_ne_none {x : Option V} (h : x ≠ none) : nonNull x = {x} := by
  cases x <;> simp_all [nonNull]

/-! ## The balance is invariant -/

theorem Conserved.init : Conserved (Deque.init (ideal V) : IdealState V n) := by
  simp [Conserved, Deque.init, ideal, pushed, popped, liveRange, Owner.held, thievesHeld, Thief.held]

/-- The value the owner's CAS will return is the slot it read: no step writes
slot `b` between the owner's `get_head(b)` and its CAS. -/
def CasRead (s : IdealState V n) : Prop := ∀ b val, s.owner = .popCas b val → val = s.arr b

theorem CasRead.step {s s' : IdealState V n} {a : Act V n} (hc : CasRead s)
    (h : step (ideal V) s a = some s') : CasRead s' := by
  intro b val hb
  cases a with
  | owner =>
    change ownerStep (ideal V) s = some s' at h
    unfold Deque.ownerStep at h
    cases hown : s.owner <;>
      simp only [hown, ideal, Option.map_some', reduceCtorEq, Option.some.injEq] at h <;>
      (try split at h) <;> (try simp only [Option.some.injEq] at h) <;> subst h <;> simp at hb
    obtain ⟨rfl, rfl⟩ := hb
    rfl
  | thief i =>
    have hframe : s'.owner = s.owner ∧ s'.arr = s.arr := by
      change thiefStep (ideal V) s i = some s' at h
      unfold Deque.thiefStep at h
      cases hthief : s.thieves i <;>
        simp only [hthief, ideal, Option.map_some', reduceCtorEq, Option.some.injEq] at h <;>
        (repeat' split at h) <;> (try simp only [Option.some.injEq] at h) <;> subst h <;> simp
    rw [hframe.1] at hb
    rw [hframe.2]
    exact hc b val hb
  | pushBottom v =>
    cases hown : s.owner <;> simp only [Deque.step, hown, reduceCtorEq, Option.some.injEq] at h
    subst h
    simp at hb
  | popBottom =>
    cases hown : s.owner <;> simp only [Deque.step, hown, reduceCtorEq] at h
    split at h <;> simp only [Option.some.injEq] at h <;> subst h <;> simp_all
  | popTop i =>
    cases hthief : s.thieves i <;>
      simp only [Deque.step, hthief, reduceCtorEq, Option.some.injEq] at h
    subst h
    exact hc b val hb

theorem reachable_casRead {s : IdealState V n} (h : Reachable (ideal V) s) : CasRead s := by
  induction h with
  | init => intro b val hb; cases hb
  | step _ hs ih => exact ih.step hs

theorem Conserved.ownerStep {s s' : IdealState V n} (hs : Shape s) (hc : Conserved s)
    (hcas : CasRead s) (h : ownerStep (ideal V) s = some s') : Conserved s' := by
  have ho := hs.owner
  have hbal : pushed s.history = _ := hc
  unfold Deque.ownerStep at h
  unfold Conserved
  cases hown : s.owner with
  | idle => simp [hown] at h
  | pushPut b v =>
    simp only [hown, OwnerOk, ideal, Option.map_some', Option.some.injEq] at h ho
    subst h
    have hthieves : ∀ i oldTop localBot r, s.thieves i = .claimed oldTop localBot r →
        Function.update s.arr b (some v) oldTop = s.arr oldTop := fun i oldTop localBot r hi => by
      have := hs.thief i
      simp only [hi, ThiefOk] at this
      simp [show oldTop ≠ b by omega]
    have hlive : liveRange (Function.update s.arr b (some v)) s.top s.bot =
        liveRange s.arr s.top s.bot :=
      liveRange_congr fun i hi => Function.update_noteq (by omega) _ _
    rw [hown] at hbal
    simp only [State.setOwner, State.setArr, Owner.held, Function.update_same,
      thievesHeld_congr hthieves, hlive]
    exact hbal
  | pushStore b =>
    simp only [hown, OwnerOk, Option.some.injEq] at h ho
    subst h
    rw [hown, ho.1] at hbal
    simp only [State.setOwner, Owner.held, liveRange_succ_bot, if_pos ho.2, hbal]
    abel
  | popStore b =>
    simp only [hown, OwnerOk, Option.some.injEq] at h ho
    subst h
    rw [hown, ho.1, liveRange_succ_bot] at hbal
    simp only [State.setOwner, Owner.held, hbal]
    abel
  | popLoadTop b =>
    simp only [hown, OwnerOk] at h ho
    rw [hown] at hbal
    split at h <;> simp only [Option.some.injEq] at h <;> subst h
    · exact hbal
    next hlt => simpa [State.setOwner, Owner.held, nonNull, hlt] using hbal
  | popRead b t =>
    simp only [hown, OwnerOk, ideal, Option.map_some', Option.some.injEq] at h ho
    split at h <;> subst h
    · rw [hown] at hbal
      exact hbal
    · have htop : s.top ≤ b := ho.2.2.2.2 (by omega)
      have hne : s.arr b ≠ none := hc.ne_none (by simp [hown, Owner.held, htop, add_assoc])
      rw [hown] at hbal
      simp only [Owner.held, if_pos htop] at hbal
      simp only [State.setOwner, State.setArr, State.record, Owner.held, pushed_append,
        popped_append, Event.given, Event.taken, nonNull_of_ne_none hne, hbal]
      abel
  | popCas b val =>
    have hval := hcas b val hown
    subst hval
    simp only [hown, OwnerOk] at h ho
    split at h <;> simp only [Option.some.injEq] at h <;> subst h
    next htop =>
      have hne : s.arr b ≠ none := hc.ne_none (by simp [hown, Owner.held, htop, add_assoc])
      rw [hown, ho.1, htop] at hbal
      simp only [Owner.held, le_refl, if_true, liveRange_empty (le_refl b)] at hbal
      simp only [State.setOwner, Owner.held, nonNull_of_ne_none hne, ho.1,
        liveRange_empty (Nat.le_succ b), hbal]
    next htop =>
      rw [hown] at hbal
      simpa [State.setOwner, Owner.held, nonNull, show ¬ s.top ≤ b by omega] using hbal
  | popRestore b val =>
    simp only [hown, OwnerOk, Option.some.injEq] at h ho
    subst h
    rw [hown, ho.1, ho.2, liveRange_empty (Nat.le_succ b)] at hbal
    simp only [State.setOwner, State.record, Owner.held, pushed_append, popped_append, Event.given,
      Event.taken, ho.2, liveRange_empty (le_refl (b + 1)), hbal]
    abel

theorem Conserved.thiefStep {s s' : IdealState V n} {i : Fin n} (hs : Shape s) (hc : Conserved s)
    (h : thiefStep (ideal V) s i = some s') : Conserved s' := by
  have hti := hs.thief i
  have hbal : pushed s.history = _ := hc
  have hidle : ∀ t : Thief Unit, t.held s.arr = 0 → (s.thieves i).held s.arr = 0 →
      thievesHeld (Function.update s.thieves i t) s.arr = thievesHeld s.thieves s.arr :=
    fun t ht hi => thievesHeld_update_idle s.thieves s.arr i t hi ht
  unfold Deque.thiefStep at h
  unfold Conserved
  cases hthief : s.thieves i with
  | idle => simp [hthief] at h
  | assertFailed => simp [hthief] at h
  | loadedTop oldTop =>
    simp only [hthief] at h
    split at h
    · simp only [Option.some.injEq] at h
      subst h
      simpa [State.setThief, hidle .assertFailed rfl (by simp [hthief, Thief.held])] using hbal
    · split at h <;> simp only [Option.some.injEq] at h <;> subst h
      · simpa [State.setThief, hidle (.loadedBot _ _) rfl (by simp [hthief, Thief.held])] using hbal
      · simpa [State.setThief, State.record, Event.given, Event.taken, nonNull,
          hidle .idle rfl (by simp [hthief, Thief.held])] using hbal
  | loadedBot oldTop localBot =>
    simp only [hthief, ThiefOk] at h hti
    split at h <;> simp only [Option.some.injEq] at h <;> subst h
    next htop =>
      have hand := hs.owner.cas_handover s.arr (htop ▸ hti.2.2 htop)
      have hupd := thievesHeld_update s.thieves s.arr i (.claimed oldTop localBot ())
      simp only [hthief, Thief.held, add_zero] at hupd
      simp only [State.setThief, ideal, hupd]
      rw [hbal, add_assoc _ (liveRange _ _ _), hand, htop]
      abel
    · simpa [State.setThief, State.record, Event.given, Event.taken, nonNull,
        hidle .idle rfl (by simp [hthief, Thief.held])] using hbal
  | claimed oldTop localBot r =>
    simp only [hthief, ideal, Option.map_some', Option.some.injEq, Sum.elim_inr] at h
    subst h
    have hupd := thievesHeld_update s.thieves s.arr i .idle
    simp only [hthief, Thief.held, add_zero] at hupd
    have hne : s.arr oldTop ≠ none := hc.ne_none <| by
      rw [← hupd]
      exact (Multiset.le_add_left _ _).trans (Multiset.le_add_left _ _)
    simp only [State.setThief, State.setArr, State.record, pushed_append, popped_append,
      Event.given, Event.taken, nonNull_of_ne_none hne, hbal, ← hupd]
    abel

theorem Conserved.step {s s' : IdealState V n} {a : Act V n} (hs : Shape s) (hc : Conserved s)
    (hcas : CasRead s) (h : step (ideal V) s a = some s') : Conserved s' := by
  have hbal : pushed s.history = _ := hc
  cases a with
  | owner => exact hc.ownerStep hs hcas h
  | thief i => exact hc.thiefStep hs h
  | pushBottom v =>
    cases hown : s.owner <;> simp only [Deque.step, hown, reduceCtorEq, Option.some.injEq] at h
    subst h
    rw [hown] at hbal
    simp only [Conserved, State.setOwner, State.record, pushed_append, popped_append, Event.given,
      Event.taken, Owner.held, hbal, add_zero]
    abel
  | popBottom =>
    cases hown : s.owner <;> simp only [Deque.step, hown, reduceCtorEq] at h
    rw [hown] at hbal
    split at h <;> simp only [Option.some.injEq] at h <;> subst h <;>
      simpa [Conserved, State.setOwner, State.record, Event.given, Event.taken, nonNull,
        Owner.held, hown] using hbal
  | popTop i =>
    cases hthief : s.thieves i <;> simp only [Deque.step, hthief, reduceCtorEq, Option.some.injEq] at h
    subst h
    simpa [Conserved, State.setThief,
      thievesHeld_update_idle s.thieves s.arr i (.loadedTop s.top) (by simp [hthief, Thief.held]) rfl]
      using hbal

theorem reachable_conserved {s : IdealState V n} (h : Reachable (ideal V) s) : Conserved s := by
  induction h with
  | init => exact Conserved.init
  | step hr hs ih => exact ih.step (reachable_shape _ hr) (reachable_casRead hr) hs

/-! ## The conservation property -/

/-- No thread is inside an operation. -/
def Quiescent (s : IdealState V n) : Prop := s.owner = .idle ∧ ∀ i, s.thieves i = .idle

theorem thievesHeld_idle {f : Fin n → Thief Unit} (slots : Nat → Option V) (h : ∀ i, f i = .idle) :
    thievesHeld f slots = 0 := by
  simp [thievesHeld, h, Thief.held]

/-- The steps at which `pop_bottom` returns null: on `bot = 0`, after reading
a null slot below the contested index, or after losing to a thief. -/
theorem step_returns_null {s s' : IdealState V n} {a : Act V n} (h : step (ideal V) s a = some s')
    (hh : s'.history = s.history ++ [.popBottom none]) :
    (s.owner = .idle ∧ s.bot = 0) ∨ (∃ b t, s.owner = .popRead b t ∧ t ≠ b ∧ s.arr b = none) ∨
      ∃ b, s.owner = .popRestore b none := by
  cases a with
  | pushBottom v =>
    cases hown : s.owner <;> simp only [Deque.step, hown, reduceCtorEq, Option.some.injEq] at h
    subst h
    simp at hh
  | popBottom =>
    cases hown : s.owner <;> simp only [Deque.step, hown, reduceCtorEq] at h
    split at h <;> simp only [Option.some.injEq] at h <;> subst h
    · exact .inl ⟨rfl, ‹_›⟩
    · simp at hh
  | owner =>
    change ownerStep (ideal V) s = some s' at h
    unfold Deque.ownerStep at h
    cases hown : s.owner <;>
      simp only [hown, ideal, Option.map_some', reduceCtorEq, Option.some.injEq] at h <;>
      (try split at h) <;> (try simp only [Option.some.injEq] at h) <;> subst h <;> simp at hh
    · exact .inr (.inl ⟨_, _, rfl, ‹_›, hh⟩)
    · exact .inr (.inr ⟨_, by rw [hh]⟩)
  | popTop i =>
    cases hthief : s.thieves i <;> simp only [Deque.step, hthief, reduceCtorEq, Option.some.injEq] at h
    subst h
    simp at hh
  | thief i =>
    change thiefStep (ideal V) s i = some s' at h
    unfold Deque.thiefStep at h
    cases hthief : s.thieves i <;>
      simp only [hthief, ideal, Option.map_some', reduceCtorEq, Option.some.injEq] at h <;>
      (repeat' split at h) <;> (try simp only [Option.some.injEq] at h) <;> subst h <;> simp at hh

/-- With every thread idle, `top ≤ bot` and the pushed values are exactly the
non-null returned values and the slots at `top ≤ i < bot`. At the step at which
a `pop_bottom` returns null, `bot ≤ top`, and every pushed value has been
returned or is held by a thief that won its CAS and will return it. -/
theorem conservation {s : IdealState V n} (h : Reachable (ideal V) s) :
    (Quiescent s → s.top ≤ s.bot ∧
      pushed s.history = popped s.history + liveRange s.arr s.top s.bot) ∧
    (∀ a s', step (ideal V) s a = some s' → s'.history = s.history ++ [.popBottom none] →
      s.bot ≤ s.top ∧ pushed s.history = popped s.history + thievesHeld s.thieves s.arr) := by
  have hs := reachable_shape _ h
  have hc := reachable_conserved h
  refine ⟨fun ⟨hown, hidle⟩ => ?_, fun a s' hstep hhist => ?_⟩
  · have ho := hs.owner
    rw [hown] at ho
    refine ⟨ho, ?_⟩
    simpa [Conserved, hown, Owner.held, thievesHeld_idle s.arr hidle] using hc
  · have ho := hs.owner
    have hbal : pushed s.history = _ := hc
    rcases step_returns_null hstep hhist with ⟨hown, hbot⟩ | ⟨b, t, hown, htb, hnull⟩ | ⟨b, hown⟩
    · rw [hown, hbot, liveRange_empty (Nat.zero_le _)] at hbal
      simpa [Owner.held, hbot] using hbal
    · simp only [hown, OwnerOk] at ho
      exact absurd hnull (hc.ne_none (by
        simp [hown, Owner.held, show s.top ≤ b from ho.2.2.2.2 (by omega), add_assoc]))
    · simp only [hown, OwnerOk] at ho
      rw [hown, liveRange_empty (show s.bot ≤ s.top by omega)] at hbal
      exact ⟨by omega, by simpa [Owner.held, nonNull] using hbal⟩

/-- The two thieves' race run to its end: the winner returns the one element,
every thread is idle, and what was pushed was returned. -/
theorem conservation_race :
    ∃ s, run (ideal Nat) (init (ideal Nat)) (twoThievesRace ++ [.thief 0]) = some s ∧
      Quiescent s ∧ popped s.history = {some 7} ∧
      (Quiescent s → s.top ≤ s.bot ∧
        pushed s.history = popped s.history + liveRange s.arr s.top s.bot) ∧
      (∀ a s', step (ideal Nat) s a = some s' → s'.history = s.history ++ [.popBottom none] →
        s.bot ≤ s.top ∧ pushed s.history = popped s.history + thievesHeld s.thieves s.arr) :=
  ⟨_, rfl, ⟨rfl, by decide⟩, by decide,
    conservation (Reachable.init.run (l := twoThievesRace ++ [(.thief 0 : Act Nat 2)]) rfl)⟩

end Parlay.Deque
