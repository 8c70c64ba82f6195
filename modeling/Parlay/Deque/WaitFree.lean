import Parlay.Deque.Sequential
import Parlay.Deque.Teardown

/-!
# Every operation returns within a bounded number of its own steps

None of the three operations of `Deque<V>` waits for another thread. `pop_top`
makes one attempt at its CAS on `top` and returns null when it fails, and the
owner's CAS in `pop_bottom` ends the call whichever way it goes. So on the
ideal array, `push_bottom` takes three steps, `pop_bottom` at most six and
`pop_top` at most four, the call included, whatever the other threads do in
between: the deque is wait-free.

Each program counter carries the number of steps its thread still takes
(`Owner.stepsLeft`, `Thief.stepsLeft`). Every step of a thread inside its
operation lowers that number, and no step of another thread changes it.

On `continuous_array` with one thief the same holds, but a `pop_top` is
bounded only by how far the tail lags behind the block of its index: its
`get_tail` walks forward one block per step from the tail (`GetTail.stepsLeft`).
Neither CAS of `ca_retire_last_block()` can fail, since only the one thief
writes `tail` and `to_retire`.

Results:
1. `step_stepsLeft`: a step of thread `t` inside its operation lowers the
   steps it has left; a step of another thread leaves them alone.
2. `run_rank`: over any interleaving in which `t` calls no new operation, a
   rank that every step of `t` lowers bounds the steps `t` takes;
   `run_stepsLeft` is the case of the ideal array.
3. `ideal_wait_free`: in every reachable state a thread inside an operation can
   take its next step, and it returns within five more steps of its own.
4. `GetTail.stepsLeft_step`: every step of the only call of `get_tail` lowers
   the steps it has left.
5. `one_thief_wait_free`: with one thief on `continuous_array`, every thread
   inside an operation can take its next step and returns within the steps it
   has left: at most five for the owner, and at most thirteen more than the
   blocks from the tail to the block of its index for the thief
   (`blockStepsLeft_le`).
-/

namespace Parlay.Deque

/-! ## Threads and the steps they have left -/

section Threads

variable {A V R : Type} {n : Nat}

/-- The thread an action moves: the owner (`none`) or thief `i`. -/
def Act.thread : Act V n → Option (Fin n)
  | .pushBottom _ | .popBottom | .owner => none
  | .popTop i | .thief i => some i

/-- The action calls an operation, rather than taking a step inside one. -/
def Act.invokes : Act V n → Bool
  | .pushBottom _ | .popBottom | .popTop _ => true
  | .owner | .thief _ => false

/-- The action by which thread `t` takes its next step. -/
def Act.next : Option (Fin n) → Act V n
  | none => .owner
  | some i => .thief i

/-- The steps the owner still takes before its operation returns. -/
def Owner.stepsLeft : Owner V → Nat
  | .idle => 0
  | .pushPut _ _ | .popCas _ _ => 2
  | .pushStore _ | .popRestore _ _ => 1
  | .popStore _ => 5
  | .popLoadTop _ => 4
  | .popRead _ _ => 3

/-- The steps a thief still takes in `pop_top` on the ideal array, where
`get_tail` is one read. -/
def Thief.stepsLeft : Thief Unit → Nat
  | .idle | .assertFailed => 0
  | .loadedTop _ => 3
  | .loadedBot _ _ => 2
  | .claimed _ _ _ => 1

/-- Thread `t` is outside any operation. -/
def State.Idle (s : State A V R n) : Option (Fin n) → Prop
  | none => s.owner = .idle
  | some i => s.thieves i = .idle

/-- The steps thread `t` still takes before its operation returns. -/
def State.stepsLeft (s : IdealState V n) : Option (Fin n) → Nat
  | none => s.owner.stepsLeft
  | some i => (s.thieves i).stepsLeft

end Threads

/-! ## One step -/

section Steps

variable {A V R : Type} {n : Nat} {S : Storage A V R}

/-- Every step of the owner moves it to a position with fewer steps left. -/
theorem ownerStep_stepsLeft {s s' : State A V R n} (hs : ownerStep S s = some s') :
    s'.owner.stepsLeft < s.owner.stepsLeft := by
  unfold Deque.ownerStep at hs
  cases hown : s.owner <;> simp only [hown, reduceCtorEq, Option.map_eq_some'] at hs
  case pushPut | popRead =>
    obtain ⟨_, -, rfl⟩ := hs
    try split_ifs
    all_goals simp [Owner.stepsLeft]
  all_goals
    try split at hs
    all_goals simp only [Option.some.injEq] at hs; subst hs; simp [Owner.stepsLeft]

/-- A step of thief `j` leaves the owner and every other thief where they are. -/
theorem thiefStep_frame {s s' : State A V R n} {j : Fin n} (hs : thiefStep S s j = some s') :
    s'.owner = s.owner ∧ ∀ i, i ≠ j → s'.thieves i = s.thieves i := by
  unfold Deque.thiefStep at hs
  cases hthief : s.thieves j <;> simp only [hthief, reduceCtorEq, Option.map_eq_some'] at hs
  case claimed =>
    obtain ⟨⟨_, _ | _⟩, -, rfl⟩ := hs <;>
      exact ⟨rfl, fun i hi => by simp [Function.update_noteq hi]⟩
  all_goals
    repeat' split at hs
    all_goals
      simp only [Option.some.injEq] at hs; subst hs
      exact ⟨rfl, fun i hi => by simp [Function.update_noteq hi]⟩

/-- A rank that each step of thread `t` inside its operation lowers, and that no
step of another thread raises, bounds the steps `t` takes over any run in which
it calls no new operation. `P` is an invariant the steps keep. -/
theorem run_rank {P : State A V R n → Prop} (rank : State A V R n → Nat) (t : Option (Fin n))
    (hP : ∀ {s s' a}, P s → step S s a = some s' → P s')
    (hrank : ∀ {s s' a}, P s → step S s a = some s' → (a.thread = t → a.invokes = false) →
      rank s' + (if a.thread = t then 1 else 0) ≤ rank s)
    {s s' : State A V R n} {acts : List (Act V n)} (h : P s) (hr : run S s acts = some s')
    (ha : ∀ a ∈ acts, a.thread = t → a.invokes = false) :
    acts.countP (fun a => a.thread = t) + rank s' ≤ rank s := by
  induction acts generalizing s with
  | nil => cases hr; simp
  | cons a acts ih =>
    obtain ⟨s₁, h₁, hr⟩ := Option.bind_eq_some.1 hr
    have hstep := hrank h h₁ (ha a (List.mem_cons_self a acts))
    have hrest := ih (hP h h₁) hr fun b hb => ha b (List.mem_cons_of_mem a hb)
    simp only [List.countP_cons, decide_eq_true_eq]
    split_ifs at hstep ⊢ <;> omega

end Steps

section Ideal

variable {V : Type} {n : Nat}

/-- On the ideal array every step of a thief inside `pop_top` lowers its steps
left: `get_tail` returns at its first step. -/
theorem thiefStep_stepsLeft {s s' : IdealState V n} {i : Fin n}
    (hs : thiefStep (ideal V) s i = some s') : (s'.thieves i).stepsLeft < (s.thieves i).stepsLeft := by
  unfold Deque.thiefStep at hs
  cases hthief : s.thieves i <;> simp only [hthief, reduceCtorEq, Option.map_eq_some'] at hs
  case claimed =>
    obtain ⟨_, hx, rfl⟩ := hs
    simp only [ideal, Option.some.injEq] at hx
    subst hx
    simp [Thief.stepsLeft]
  all_goals
    repeat' split at hs
    all_goals simp only [Option.some.injEq] at hs; subst hs; simp [Thief.stepsLeft]

/-- A step of thread `t` inside its operation lowers the steps `t` has left; a
step of any other thread, a call included, leaves them alone. -/
theorem step_stepsLeft {s s' : IdealState V n} {a : Act V n} (t : Option (Fin n))
    (hs : step (ideal V) s a = some s') (ha : a.thread = t → a.invokes = false) :
    s'.stepsLeft t + (if a.thread = t then 1 else 0) ≤ s.stepsLeft t := by
  cases a with
  | owner =>
    cases t with
    | none => simpa [Act.thread, State.stepsLeft] using ownerStep_stepsLeft hs
    | some i => simp [Act.thread, State.stepsLeft, ownerStep_thieves _ hs]
  | thief j =>
    have hf := thiefStep_frame hs
    cases t with
    | none => simp [Act.thread, State.stepsLeft, hf.1]
    | some i =>
      by_cases hij : i = j
      · subst hij
        simpa [Act.thread, State.stepsLeft] using thiefStep_stepsLeft hs
      · simp [Act.thread, State.stepsLeft, hf.2 i hij, Ne.symm hij]
  | pushBottom v | popBottom =>
    cases hown : s.owner <;> simp only [Deque.step, hown, reduceCtorEq] at hs
    cases t with
    | none => simp [Act.thread, Act.invokes] at ha
    | some i =>
      try split at hs
      all_goals
        simp only [Option.some.injEq] at hs; subst hs
        simp [Act.thread, State.stepsLeft]
  | popTop j =>
    cases hthief : s.thieves j <;> simp only [Deque.step, hthief, reduceCtorEq, Option.some.injEq] at hs
    subst hs
    cases t with
    | none => simp [Act.thread, State.stepsLeft]
    | some i =>
      by_cases hij : i = j
      · subst hij
        simp [Act.thread, Act.invokes] at ha
      · simp [Act.thread, State.stepsLeft, Function.update_noteq hij, Ne.symm hij]

/-- Over any interleaving in which thread `t` calls no new operation, the
steps `t` takes and the steps it has left at the end add up to at most what it
had left at the start. -/
theorem run_stepsLeft {s s' : IdealState V n} {acts : List (Act V n)} (t : Option (Fin n))
    (hr : run (ideal V) s acts = some s') (ha : ∀ a ∈ acts, a.thread = t → a.invokes = false) :
    acts.countP (fun a => a.thread = t) + s'.stepsLeft t ≤ s.stepsLeft t :=
  run_rank (P := fun _ => True) (fun s => s.stepsLeft t) t (fun _ _ => trivial)
    (fun _ hs ha => step_stepsLeft t hs ha) trivial hr ha

/-- On the ideal array a thread inside an operation can take its next step,
unless it is a thief whose assertion failed. -/
theorem step_next_ideal (s : IdealState V n) (t : Option (Fin n)) (hbusy : ¬ s.Idle t)
    (hok : ∀ i, t = some i → s.thieves i ≠ .assertFailed) :
    ∃ s', step (ideal V) s (Act.next t) = some s' := by
  rw [← Option.isSome_iff_exists]
  cases t with
  | none =>
    unfold Act.next Deque.step Deque.ownerStep
    cases hown : s.owner <;> simp only [State.Idle, hown, not_true_eq_false] at hbusy ⊢
    all_goals (try split_ifs) <;> rfl
  | some i =>
    have hfail := hok i rfl
    unfold Act.next Deque.step Deque.thiefStep
    cases hthief : s.thieves i <;>
      simp only [State.Idle, hthief, not_true_eq_false, ne_eq] at hbusy hfail ⊢
    all_goals (try split_ifs) <;> rfl

/-- The owner has at most five steps left, a thief at most three, and a thread
has none left exactly when it is idle, once the failed assertion is ruled out. -/
theorem stepsLeft_le (s : IdealState V n) (t : Option (Fin n)) : s.stepsLeft t ≤ 5 := by
  cases t with
  | none => cases h : s.owner <;> simp [State.stepsLeft, Owner.stepsLeft, h]
  | some i => cases h : s.thieves i <;> simp [State.stepsLeft, Thief.stepsLeft, h]

theorem stepsLeft_eq_zero (s : IdealState V n) (t : Option (Fin n))
    (hok : ∀ i, t = some i → s.thieves i ≠ .assertFailed) : s.stepsLeft t = 0 ↔ s.Idle t := by
  cases t with
  | none => cases h : s.owner <;> simp [State.stepsLeft, Owner.stepsLeft, State.Idle, h]
  | some i =>
    have := hok i rfl
    cases h : s.thieves i <;> simp_all [State.stepsLeft, Thief.stepsLeft, State.Idle]

/-- The deque on the ideal array is wait-free, for any number of thieves. In
every reachable state, a thread inside an operation can take its next step,
whatever the other threads have done; over any interleaving that follows, as
long as it calls no new operation, it takes at most the steps it has left, and
those are at most five; and it has none left exactly when it has returned. -/
theorem ideal_wait_free {s : IdealState V n} (h : Reachable (ideal V) s) (t : Option (Fin n)) :
    (¬ s.Idle t → ∃ s', step (ideal V) s (Act.next t) = some s') ∧
    (∀ acts s', run (ideal V) s acts = some s' → (∀ a ∈ acts, a.thread = t → a.invokes = false) →
      acts.countP (fun a => a.thread = t) + s'.stepsLeft t ≤ s.stepsLeft t) ∧
    s.stepsLeft t ≤ 5 ∧ (s.stepsLeft t = 0 ↔ s.Idle t) := by
  have hok : ∀ i, t = some i → s.thieves i ≠ .assertFailed := fun i _ => (top_bounds h).2.2.2.2.1 i
  exact ⟨fun hbusy => step_next_ideal s t hbusy hok, fun _ _ hr ha => run_stepsLeft t hr ha,
    stepsLeft_le s t, stepsLeft_eq_zero s t hok⟩

/-- Right after `push_bottom(7)` is called the owner has two steps left. -/
theorem ideal_wait_free_push :
    let s : IdealState Nat 1 := ((init (ideal Nat)).setOwner (.pushPut 0 7)).record (.pushBottom 7)
    Reachable (ideal Nat) s ∧ s.stepsLeft none = 2 ∧
      (¬ s.Idle none → ∃ s', step (ideal Nat) s (Act.next none) = some s') ∧
      (∀ acts s', run (ideal Nat) s acts = some s' → (∀ a ∈ acts, a.thread = none → a.invokes = false) →
        acts.countP (fun a => a.thread = none) + s'.stepsLeft none ≤ s.stepsLeft none) ∧
      s.stepsLeft none ≤ 5 ∧ (s.stepsLeft none = 0 ↔ s.Idle none) := by
  intro s
  have h : Reachable (ideal Nat) s := Reachable.init.step (a := .pushBottom 7) rfl
  exact ⟨h, rfl, ideal_wait_free h none⟩

end Ideal

end Parlay.Deque

/-! ## One thief on `continuous_array` -/

namespace Parlay.ContinuousArray

variable {T : Type}

/-- The steps `ca_retire_last_block()` still takes when its CAS on `tail` and
its CAS on `to_retire` succeed. -/
def Retire.stepsLeft : Retire → Nat
  | .loadTail => 6
  | .loadNext _ => 5
  | .cas _ _ | .recheck _ _ => 4
  | .checkYounger _ => 3
  | .link _ => 2
  | .push _ _ => 1

/-- The steps a call `get_tail(index)` still takes, `d` being the block of
`index` and `lo` the tail: the forward search visits the blocks from the tail
to `d`; then come the backward search, the test, a retirement and the read. -/
def GetTail.stepsLeft (d lo : Nat) : GetTail → Nat
  | .loadTail => d - lo + 11
  | .forward _ (some a) => d - a + 10
  | .forward _ none => 10
  | .backward _ _ => 9
  | .found _ _ => 8
  | .retire _ r => r.stepsLeft + 1
  | .read _ => 1

theorem GetTail.stepsLeft_pos (d lo : Nat) (g : GetTail) : 0 < g.stepsLeft d lo := by
  cases g with
  | forward t b => cases b <;> simp only [GetTail.stepsLeft] <;> omega
  | _ => simp only [GetTail.stepsLeft]; omega

/-- A step of the retirement made by the only call of `get_tail` lowers the
steps it has left: its CAS on `tail` finds the tail it loaded, and its CAS on
`to_retire` finds the value it read. -/
theorem Retire.stepsLeft_step {ca ca' : CA T} {lo d : Nat} {r r' : Retire} (hc : Chain ca lo hi)
    (hr : RetireOk lo d r) (hpush : ∀ old expected, r = .push old expected → ca.toRetire = expected)
    (hs : r.step ca = some (ca', some r')) : r'.stepsLeft < r.stepsLeft := by
  cases r with
  | loadTail => cases hs; simp [Retire.stepsLeft]
  | loadNext old =>
    obtain ⟨_, -, he⟩ := Option.map_eq_some'.1 hs
    cases he; simp [Retire.stepsLeft]
  | cas old next =>
    rw [Retire.step_cas ca (hc.tail.trans hr.1.symm)] at hs
    cases hs; simp [Retire.stepsLeft]
  | recheck old next => exact hr.elim
  | checkYounger old =>
    simp only [Retire.step, Option.bind_eq_bind, Option.bind_eq_some] at hs
    obtain ⟨_, -, _, -, he⟩ := hs
    cases he; simp [Retire.stepsLeft]
  | link old =>
    obtain ⟨_, -, he⟩ := Option.map_eq_some'.1 hs
    cases he; simp [Retire.stepsLeft]
  | push old expected =>
    rw [Retire.step_push ca (hpush old expected rfl)] at hs
    cases hs

/-- A step of the only call `get_tail(index)` in progress lowers the steps it
has left: the forward search moves one block closer to the block of `index`,
and the retirement's CASes cannot fail. -/
theorem GetTail.stepsLeft_step {ca ca' : CA T} {lo lo' hi index : Nat} {g g' : GetTail}
    (hc : Chain ca lo hi) (hd : desiredBlockId index ≤ hi) (hg : SoleOk lo index g)
    (hst : RetireStacked ca lo g) (hs : g.step ca index = some (ca', .inl g')) :
    g'.stepsLeft (desiredBlockId index) lo' < g.stepsLeft (desiredBlockId index) lo := by
  cases g with
  | loadTail =>
    cases hs
    simp only [GetTail.stepsLeft, hc.tail, Option.getD_some]
    omega
  | forward t b =>
    obtain ⟨rfl, a, rfl, hla, had⟩ := hg
    obtain ⟨blk, hblk, hid⟩ := hc.mem (show a ≤ hi by omega)
    rw [GetTail.step_forward ca hblk] at hs
    cases hs
    split_ifs with hlt
    · rw [hc.next_eq (by omega) hblk]
      simp only [GetTail.stepsLeft]
      omega
    · simp only [GetTail.stepsLeft]
      omega
  | backward t b =>
    obtain ⟨rfl, rfl, -⟩ := hg
    obtain ⟨blk, hblk, hid⟩ := hc.mem hd
    rw [GetTail.step_backward ca hblk, hid, if_neg (lt_irrefl _)] at hs
    cases hs
    simp [GetTail.stepsLeft]
  | found t b =>
    obtain ⟨rfl, rfl, -⟩ := hg
    obtain ⟨blk, hblk, hid⟩ := hc.mem hd
    obtain ⟨tb, htb, -⟩ := hc.mem hc.le
    rw [GetTail.step_found ca hblk hid htb] at hs
    cases hs
    split_ifs <;> simp [GetTail.stepsLeft, Retire.stepsLeft]
  | retire p r =>
    obtain ⟨-, -, hr⟩ := hg
    obtain ⟨⟨ca₁, o⟩, hstep, he⟩ := Option.map_eq_some'.1 hs
    cases o with
    | none =>
      cases he
      cases r <;> simp [GetTail.stepsLeft, Retire.stepsLeft]
    | some r' =>
      cases he
      have hpush : ∀ old expected, r = .push old expected → ca.toRetire = expected := by
        rintro old expected rfl
        exact hst.2.2.1
      have := Retire.stepsLeft_step hc hr hpush hstep
      simp only [GetTail.stepsLeft]
      omega
  | read p =>
    obtain ⟨_, -, he⟩ := Option.map_eq_some'.1 hs
    cases he

end Parlay.ContinuousArray

namespace Parlay.Deque

section OneThief

open ContinuousArray

variable {V : Type} {n : Nat}

/-- The steps the thief still takes in `pop_top` on `continuous_array`, the
tail being block `lo`: its `get_tail` walks from the tail to the block of the
index it claims. -/
def Thief.blockStepsLeft (lo : Nat) : Thief GetTail → Nat
  | .idle | .assertFailed => 0
  | .loadedTop oldTop => desiredBlockId oldTop - lo + 13
  | .loadedBot oldTop _ => desiredBlockId oldTop - lo + 12
  | .claimed oldTop _ g => g.stepsLeft (desiredBlockId oldTop) lo

/-- The steps thread `t` still takes on `continuous_array`. -/
def State.blockStepsLeft (s : BlockState V n) : Option (Fin n) → Nat
  | none => s.owner.stepsLeft
  | some i => (s.thieves i).blockStepsLeft (s.arr.tail.getD 0)

/-- With one thief, each of its steps lowers the steps it has left. -/
theorem thiefStep_blockStepsLeft {s s' : BlockState V 1} (hr : Reachable (blocks V) s)
    (hs : thiefStep (blocks V) s 0 = some s') :
    s'.blockStepsLeft (some 0) < s.blockStepsLeft (some 0) := by
  obtain ⟨lo, hi, hl⟩ := reachable_layout hr
  unfold Deque.thiefStep at hs
  cases hthief : s.thieves 0 with
  | idle | assertFailed => simp [hthief] at hs
  | loadedTop oldTop =>
    simp only [hthief] at hs
    split_ifs at hs <;> cases hs <;>
      simp only [State.blockStepsLeft, Thief.blockStepsLeft, hthief, State.setThief_thieves,
        Function.update_same, State.setThief_arr, State.record_thieves, State.record_arr] <;> omega
  | loadedBot oldTop localBot =>
    simp only [hthief] at hs
    split_ifs at hs <;> cases hs <;>
      simp only [State.blockStepsLeft, Thief.blockStepsLeft, GetTail.stepsLeft, hthief,
        State.setThief_thieves, Function.update_same, State.setThief_arr, State.record_thieves,
        State.record_arr, blocks_getTail] <;> omega
  | claimed oldTop localBot g =>
    simp only [hthief, blocks_tailStep, Option.map_eq_some'] at hs
    obtain ⟨⟨ca', r⟩, hstep, rfl⟩ := hs
    cases r with
    | inl g' =>
      have hsole := (reachable_abstract hr).2.2 0 _ _ _ hthief lo hl.chain.tail
      obtain ⟨lo₁, ht₁, hst⟩ := reachable_tailStacked hr
      obtain rfl : lo = lo₁ := Option.some.inj (hl.chain.tail.symm.trans ht₁)
      rw [hthief] at hst
      simpa [State.blockStepsLeft, Thief.blockStepsLeft, hthief, hl.chain.tail] using
        GetTail.stepsLeft_step hl.chain (hl.claimed_le (reachable_shape _ hr) hthief) hsole hst hstep
    | inr v =>
      simpa [State.blockStepsLeft, Thief.blockStepsLeft, hthief] using GetTail.stepsLeft_pos _ _ g

/-- With one thief, a step of thread `t` inside its operation lowers the steps
`t` has left; a step of the other thread, a call included, leaves them alone:
the owner never moves `tail`. -/
theorem step_blockStepsLeft {s s' : BlockState V 1} {a : Act V 1} (t : Option (Fin 1))
    (hr : Reachable (blocks V) s) (hs : step (blocks V) s a = some s')
    (ha : a.thread = t → a.invokes = false) :
    s'.blockStepsLeft t + (if a.thread = t then 1 else 0) ≤ s.blockStepsLeft t := by
  cases a with
  | owner =>
    cases t with
    | none => simpa [Act.thread, State.blockStepsLeft] using ownerStep_stepsLeft hs
    | some i =>
      obtain ⟨lo, hi, hl⟩ := reachable_layout hr
      obtain ⟨ht, -, -⟩ := ownerStep_frame hl (reachable_shape _ hr) hs
      simp [Act.thread, State.blockStepsLeft, ownerStep_thieves _ hs, ht]
  | thief j =>
    obtain rfl := Subsingleton.elim j 0
    cases t with
    | none => simp [Act.thread, State.blockStepsLeft, (thiefStep_frame hs).1]
    | some i =>
      obtain rfl := Subsingleton.elim i 0
      simpa [Act.thread] using thiefStep_blockStepsLeft hr hs
  | pushBottom v | popBottom =>
    cases hown : s.owner <;> simp only [Deque.step, hown, reduceCtorEq] at hs
    cases t with
    | none => simp [Act.thread, Act.invokes] at ha
    | some i =>
      try split at hs
      all_goals
        simp only [Option.some.injEq] at hs; subst hs
        simp [Act.thread, State.blockStepsLeft]
  | popTop j =>
    cases hthief : s.thieves j <;> simp only [Deque.step, hthief, reduceCtorEq, Option.some.injEq] at hs
    subst hs
    cases t with
    | none => simp [Act.thread, State.blockStepsLeft]
    | some i =>
      obtain rfl := Subsingleton.elim i j
      simp [Act.thread, Act.invokes] at ha

/-- With one thief, over any interleaving in which thread `t` calls no new
operation, `t` takes at most the steps it had left. -/
theorem run_blockStepsLeft {s s' : BlockState V 1} {acts : List (Act V 1)} (t : Option (Fin 1))
    (h : Reachable (blocks V) s) (hr : run (blocks V) s acts = some s')
    (ha : ∀ a ∈ acts, a.thread = t → a.invokes = false) :
    acts.countP (fun a => a.thread = t) + s'.blockStepsLeft t ≤ s.blockStepsLeft t :=
  run_rank (P := Reachable (blocks V)) (fun s => s.blockStepsLeft t) t (fun h hs => h.step hs)
    (fun h hs ha => step_blockStepsLeft t h hs ha) h hr ha

/-- With one thief, a thread inside an operation on `continuous_array` can take
its next step: the owner's `put_head` and `get_head` and every step of the
thief's `get_tail` exist. -/
theorem step_next_blocks {s : BlockState V 1} (h : Reachable (blocks V) s) (t : Option (Fin 1))
    (hbusy : ¬ s.Idle t) : ∃ s', step (blocks V) s (Act.next t) = some s' := by
  obtain ⟨lo, hi, hl⟩ := reachable_layout h
  have hsh := reachable_shape _ h
  cases t with
  | none =>
    obtain ⟨s', -, hs', -⟩ := hl.ownerStep_some hsh hbusy
    exact ⟨s', hs'⟩
  | some i =>
    obtain rfl := Subsingleton.elim i 0
    rw [← Option.isSome_iff_exists]
    unfold Act.next Deque.step Deque.thiefStep
    have hfail := (top_bounds h).2.2.2.2.1 0
    cases hthief : s.thieves 0 with
    | idle => exact absurd hthief hbusy
    | assertFailed => exact absurd hthief hfail
    | loadedTop oldTop => simp only [hthief]; split_ifs <;> rfl
    | loadedBot oldTop localBot => simp only [hthief]; split_ifs <;> rfl
    | claimed oldTop localBot g =>
      obtain ⟨ca', r, hstep, -⟩ := GetTail.step_sole hl.chain (hl.claimed_le hsh hthief)
        ((reachable_abstract h).2.2 0 _ _ _ hthief lo hl.chain.tail)
      simp [hthief, hstep]

theorem blockStepsLeft_eq_zero {s : BlockState V 1} (h : Reachable (blocks V) s) (t : Option (Fin 1)) :
    s.blockStepsLeft t = 0 ↔ s.Idle t := by
  cases t with
  | none => cases hown : s.owner <;> simp [State.blockStepsLeft, Owner.stepsLeft, State.Idle, hown]
  | some i =>
    have hfail := (top_bounds h).2.2.2.2.1 i
    cases hthief : s.thieves i with
    | claimed oldTop localBot g =>
      simpa [State.blockStepsLeft, Thief.blockStepsLeft, State.Idle, hthief] using
        (GetTail.stepsLeft_pos _ _ g).ne'
    | _ => simp_all [State.blockStepsLeft, Thief.blockStepsLeft, State.Idle]

/-- The index a thief's `pop_top` loaded from `top`: the one it claims if its
CAS wins. -/
def Thief.oldTop : Thief R → Nat
  | .loadedTop oldTop | .loadedBot oldTop _ | .claimed oldTop _ _ => oldTop
  | .idle | .assertFailed => 0

theorem Retire.stepsLeft_le (r : Retire) : r.stepsLeft ≤ 6 := by
  cases r <;> simp [Retire.stepsLeft]

/-- With one thief, the owner has at most five steps left, and the thief at
most thirteen more than the blocks from the tail to the block of its index:
its forward search never starts below the tail. -/
theorem blockStepsLeft_le {s : BlockState V 1} (h : Reachable (blocks V) s) :
    s.blockStepsLeft none ≤ 5 ∧
      s.blockStepsLeft (some 0) ≤ desiredBlockId (s.thieves 0).oldTop - s.arr.tail.getD 0 + 13 := by
  refine ⟨by cases hown : s.owner <;> simp [State.blockStepsLeft, Owner.stepsLeft, hown], ?_⟩
  obtain ⟨lo, hi, hl⟩ := reachable_layout h
  simp only [State.blockStepsLeft, hl.chain.tail, Option.getD_some]
  cases hthief : s.thieves 0 with
  | claimed oldTop localBot g =>
    have hsole := (reachable_abstract h).2.2 0 _ _ _ hthief lo hl.chain.tail
    simp only [Thief.blockStepsLeft, Thief.oldTop]
    cases g with
    | forward t b =>
      obtain ⟨-, a, rfl, hlo, -⟩ := hsole
      simp only [GetTail.stepsLeft]
      omega
    | retire p r =>
      have := Retire.stepsLeft_le r
      simp only [GetTail.stepsLeft]
      omega
    | _ => simp only [GetTail.stepsLeft]; omega
  | _ => simp only [Thief.blockStepsLeft, Thief.oldTop]; omega

/-- With one thief, the deque on `continuous_array` is wait-free as well. In
every reachable state a thread inside an operation can take its next step,
whatever the other thread has done; over any interleaving that follows, as long
as it calls no new operation, it takes at most the steps it has left; and it
has none left exactly when it has returned. The owner has at most five left;
the thief at most thirteen more than the number of blocks from the tail to the
block of the index it claims, so a `pop_top` is bounded by how far the tail
lags behind `top`. -/
theorem one_thief_wait_free {s : BlockState V 1} (h : Reachable (blocks V) s) (t : Option (Fin 1)) :
    (¬ s.Idle t → ∃ s', step (blocks V) s (Act.next t) = some s') ∧
    (∀ acts s', run (blocks V) s acts = some s' → (∀ a ∈ acts, a.thread = t → a.invokes = false) →
      acts.countP (fun a => a.thread = t) + s'.blockStepsLeft t ≤ s.blockStepsLeft t) ∧
    (s.blockStepsLeft t = 0 ↔ s.Idle t) ∧ s.blockStepsLeft none ≤ 5 ∧
    s.blockStepsLeft (some 0) ≤ desiredBlockId (s.thieves 0).oldTop - s.arr.tail.getD 0 + 13 :=
  ⟨step_next_blocks h t, fun _ _ hr ha => run_blockStepsLeft t h hr ha, blockStepsLeft_eq_zero h t,
    blockStepsLeft_le h⟩

/-- A thief has loaded `top = 0`: it has at most thirteen steps left. -/
theorem one_thief_wait_free_steal :
    let s : BlockState Nat 1 := (init (blocks Nat)).setThief 0 (.loadedTop 0)
    Reachable (blocks Nat) s ∧ desiredBlockId (s.thieves 0).oldTop - s.arr.tail.getD 0 + 13 = 13 ∧
      (¬ s.Idle (some 0) → ∃ s', step (blocks Nat) s (Act.next (some 0)) = some s') ∧
      (∀ acts s', run (blocks Nat) s acts = some s' →
        (∀ a ∈ acts, a.thread = some 0 → a.invokes = false) →
        acts.countP (fun a => a.thread = some 0) + s'.blockStepsLeft (some 0) ≤
          s.blockStepsLeft (some 0)) ∧
      (s.blockStepsLeft (some 0) = 0 ↔ s.Idle (some 0)) ∧ s.blockStepsLeft none ≤ 5 ∧
      s.blockStepsLeft (some 0) ≤ desiredBlockId (s.thieves 0).oldTop - s.arr.tail.getD 0 + 13 := by
  intro s
  have h : Reachable (blocks Nat) s := Reachable.init.step (a := .popTop 0) rfl
  exact ⟨h, by decide, one_thief_wait_free h (some 0)⟩

end OneThief

end Parlay.Deque
