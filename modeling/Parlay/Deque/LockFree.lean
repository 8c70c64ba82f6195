import Parlay.Deque.WaitFree

/-!
# A lost CAS is paid for by a won one

Each operation returns within a few steps (`ideal_wait_free`), but it may return
empty-handed. A `pop_top` whose CAS on `top` fails returns null, and a
`pop_bottom` whose CAS fails gives up the last element, whether the deque was
empty or not. Neither retries. A CAS of `top` fails only when `top` has moved
since its thread read it, and `top` moves only by a CAS that succeeds, by one.
So over any interleaving, from any state, on any storage and with any number
of thieves, a thread loses at most one CAS more than all threads together win:
the deque is lock-free.

`State.behind` is `1` when the `top` a thread has read, and will compare
against, is no longer the current one. Its own lost CAS takes it back to `0`;
only a won CAS can raise it.

Results:
1. `step_cas`: one step moves `top` by the CAS it wins, and a lost CAS of
   thread `t` lowers `t`'s staleness, which only a won CAS raises.
2. `lock_free`: over every run, `top` counts the won CASes, and the CASes a
   thread loses are at most the won ones plus its staleness at the start.
-/

namespace Parlay.Deque

section CasLog

variable {A V R : Type} {n : Nat}

/-- The CAS of `top` an action makes from `s`: `some true` when it succeeds,
`some false` when it fails, `none` when the step makes no CAS. -/
def casOutcome (s : State A V R n) : Act V n → Option Bool
  | .owner =>
    match s.owner with
    | .popCas b _ => some (decide (s.top = b))
    | _ => none
  | .thief i =>
    match s.thieves i with
    | .loadedBot oldTop _ => some (decide (s.top = oldTop))
    | _ => none
  | _ => none

variable (S : Storage A V R)

/-- The CASes of `top` along a run, in order: the thread that made each and
whether it succeeded. -/
def casLog (s : State A V R n) : List (Act V n) → List (Option (Fin n) × Bool)
  | [] => []
  | a :: acts =>
    match step S s a with
    | none => []
    | some s' => ((casOutcome s a).map fun w => (a.thread, w)).toList ++ casLog s' acts

/-- `1` when the owner will compare `top` against a value that is no longer
current, so that its CAS will fail. -/
def Owner.behind (top : Nat) : Owner V → Nat
  | .popRead _ t | .popCas t _ => if top = t then 0 else 1
  | _ => 0

/-- `1` when the `old_top` thief holds is no longer `top`, so that its CAS will fail. -/
def Thief.behind (top : Nat) : Thief R → Nat
  | .loadedTop t | .loadedBot t _ => if top = t then 0 else 1
  | _ => 0

/-- Whether the `top` thread `t` has read is stale. -/
def State.behind (s : State A V R n) : Option (Fin n) → Nat
  | none => s.owner.behind s.top
  | some i => (s.thieves i).behind s.top

end CasLog

section Steps

variable {A V R : Type} {n : Nat} {S : Storage A V R}

theorem Owner.behind_le_one (o : Owner V) (top : Nat) : o.behind top ≤ 1 := by
  cases o <;> simp only [Owner.behind] <;> (try split_ifs) <;> omega

theorem Thief.behind_le_one (x : Thief R) (top : Nat) : x.behind top ≤ 1 := by
  cases x <;> simp only [Thief.behind] <;> (try split_ifs) <;> omega

theorem State.behind_le_one (s : State A V R n) (t : Option (Fin n)) : s.behind t ≤ 1 := by
  cases t with
  | none => exact Owner.behind_le_one _ _
  | some i => exact Thief.behind_le_one _ _

/-- A step that leaves thread `t` where it is makes its `top` stale only by
moving `top`. -/
theorem State.behind_frame {s s' : State A V R n} {w : Nat} (t : Option (Fin n))
    (hown : t = none → s'.owner = s.owner) (hthief : ∀ i, t = some i → s'.thieves i = s.thieves i)
    (htop : s'.top = s.top + w) : s'.behind t ≤ s.behind t + w := by
  rcases w with _ | w
  · cases t with
    | none => simp [State.behind, hown rfl, htop]
    | some i => simp [State.behind, hthief i rfl, htop]
  · have := s'.behind_le_one t
    omega

/-- A step of the owner moves `top` by the CAS it wins, and a CAS it loses was
against a stale `top`. -/
theorem ownerStep_cas {s s' : State A V R n} (hs : ownerStep S s = some s') :
    s'.top = s.top + (if casOutcome s .owner = some true then 1 else 0) ∧
    s'.owner.behind s'.top + (if casOutcome s .owner = some false then 1 else 0) ≤
      s.owner.behind s.top := by
  unfold Deque.ownerStep at hs
  cases hown : s.owner <;> simp only [hown, reduceCtorEq, Option.map_eq_some'] at hs
  case pushPut | popRead =>
    obtain ⟨_, -, rfl⟩ := hs
    try split_ifs
    all_goals simp_all [casOutcome, Owner.behind]
  all_goals
    try split at hs
    all_goals simp only [Option.some.injEq] at hs; subst hs; simp_all [casOutcome, Owner.behind]

/-- A step of thief `i` moves `top` by the CAS it wins, and a CAS it loses was
against a stale `top`. -/
theorem thiefStep_cas {s s' : State A V R n} {i : Fin n} (hs : thiefStep S s i = some s') :
    s'.top = s.top + (if casOutcome s (.thief i) = some true then 1 else 0) ∧
    (s'.thieves i).behind s'.top + (if casOutcome s (.thief i) = some false then 1 else 0) ≤
      (s.thieves i).behind s.top := by
  unfold Deque.thiefStep at hs
  cases hthief : s.thieves i <;> simp only [hthief, reduceCtorEq, Option.map_eq_some'] at hs
  case claimed =>
    obtain ⟨⟨_, _ | _⟩, -, rfl⟩ := hs <;> simp [casOutcome, hthief, Thief.behind]
  all_goals
    repeat' split at hs
    all_goals simp only [Option.some.injEq] at hs; subst hs; simp_all [casOutcome, Thief.behind]

/-- One step moves `top` by the CAS it wins. A CAS that thread `t` loses lowers
the staleness of `t`'s `top`, and only a won CAS raises it. -/
theorem step_cas {s s' : State A V R n} {a : Act V n} (t : Option (Fin n))
    (hs : step S s a = some s') :
    s'.top = s.top + (if casOutcome s a = some true then 1 else 0) ∧
    s'.behind t + (if a.thread = t ∧ casOutcome s a = some false then 1 else 0) ≤
      s.behind t + (if casOutcome s a = some true then 1 else 0) := by
  cases a with
  | owner =>
    obtain ⟨htop, hown⟩ := ownerStep_cas hs
    refine ⟨htop, ?_⟩
    cases t with
    | none =>
      simp only [State.behind, Act.thread, true_and]
      split_ifs at hown ⊢ <;> omega
    | some i =>
      have := State.behind_frame (some i) (by simp) (fun _ _ => by rw [ownerStep_thieves S hs]) htop
      simpa [Act.thread] using this
  | thief j =>
    obtain ⟨htop, hthief⟩ := thiefStep_cas hs
    have hf := thiefStep_frame hs
    refine ⟨htop, ?_⟩
    by_cases hj : t = some j
    · subst hj
      simp only [State.behind, Act.thread, true_and]
      split_ifs at hthief ⊢ <;> omega
    · have := State.behind_frame t (fun _ => hf.1)
        (fun i hi => hf.2 i fun hij => hj (hij ▸ hi)) htop
      simpa [Act.thread, Ne.symm hj] using this
  | pushBottom v | popBottom =>
    cases hown : s.owner <;> simp only [Deque.step, hown, reduceCtorEq] at hs
    try split at hs
    all_goals
      simp only [Option.some.injEq] at hs; subst hs
      cases t <;> simp [casOutcome, State.behind, Owner.behind]
  | popTop j =>
    cases hthief : s.thieves j <;> simp only [Deque.step, hthief, reduceCtorEq, Option.some.injEq] at hs
    subst hs
    cases t with
    | none => simp [casOutcome, State.behind]
    | some i =>
      by_cases hij : i = j
      · subst hij
        simp [casOutcome, State.behind, Thief.behind]
      · simp [casOutcome, State.behind, Function.update_noteq hij]

/-- The CAS log of a run is the CAS of its first step followed by the log of
the rest. -/
theorem casLog_cons {s s₁ : State A V R n} {a : Act V n} (acts : List (Act V n))
    (hs : step S s a = some s₁) :
    casLog S s (a :: acts) = ((casOutcome s a).map fun w => (a.thread, w)).toList ++ casLog S s₁ acts := by
  simp [casLog, hs]

end Steps

variable {A V R : Type} {n : Nat} {S : Storage A V R}

/-- Over any run, `top` moves by the CASes that succeed, and the CASes thread
`t` loses are paid for by them. -/
theorem run_cas {s s' : State A V R n} {acts : List (Act V n)} (t : Option (Fin n))
    (hr : run S s acts = some s') :
    s'.top = s.top + (casLog S s acts).countP (·.2) ∧
    (casLog S s acts).count (t, false) + s'.behind t ≤
      (casLog S s acts).countP (·.2) + s.behind t := by
  induction acts generalizing s with
  | nil => cases hr; simp [casLog]
  | cons a acts ih =>
    obtain ⟨s₁, h₁, hr⟩ := Option.bind_eq_some.1 hr
    obtain ⟨htop, hbehind⟩ := step_cas t h₁
    obtain ⟨ihtop, ihbehind⟩ := ih hr
    rw [casLog_cons acts h₁]
    cases hc : casOutcome s a with
    | none =>
      simp only [hc, reduceCtorEq, and_false, if_false, Nat.add_zero] at htop hbehind
      simp only [Option.map_none', Option.toList_none, List.nil_append]
      omega
    | some w =>
      cases w <;>
        simp only [hc, Option.map_some', Option.toList_some, List.singleton_append,
          List.count_cons, List.countP_cons, beq_iff_eq, Prod.mk.injEq, and_true, and_false,
          Option.some.injEq, reduceCtorEq, if_true, if_false, Bool.false_eq_true] at htop hbehind ⊢ <;>
        (try split_ifs at hbehind ⊢) <;> exact ⟨by omega, by omega⟩

/-- The deque is lock-free, on any storage and for any number of thieves. Over
any interleaving from any state, `top` moves exactly by the CASes that succeed.
The CASes thread `t` loses (a `pop_top` that returns null, a `pop_bottom` that
gives up the last element) and its staleness at the end are at most the CASes
all threads win plus its staleness at the start, which is at most one. -/
theorem lock_free {s s' : State A V R n} {acts : List (Act V n)} (hr : run S s acts = some s')
    (t : Option (Fin n)) :
    s'.top = s.top + (casLog S s acts).countP (·.2) ∧
    (casLog S s acts).count (t, false) + s'.behind t ≤
      (casLog S s acts).countP (·.2) + s.behind t ∧
    s.behind t ≤ 1 :=
  ⟨(run_cas t hr).1, (run_cas t hr).2, s.behind_le_one t⟩

/-- In the race the first thief wins its CAS and the second loses; the loss is
paid for by the win. -/
theorem lock_free_race :
    ∃ s', run (ideal Nat) (init (ideal Nat)) twoThievesRace = some s' ∧
      s'.top = (init (ideal Nat) : IdealState Nat 2).top +
        (casLog (ideal Nat) (init (ideal Nat)) twoThievesRace).countP (·.2) ∧
      (casLog (ideal Nat) (init (ideal Nat)) twoThievesRace).count (some 1, false) +
          s'.behind (some 1) ≤
        (casLog (ideal Nat) (init (ideal Nat)) twoThievesRace).countP (·.2) +
          (init (ideal Nat) : IdealState Nat 2).behind (some 1) ∧
      (init (ideal Nat) : IdealState Nat 2).behind (some 1) ≤ 1 :=
  ⟨_, rfl, @lock_free _ _ _ _ (ideal Nat) (init (ideal Nat)) _ twoThievesRace rfl (some 1)⟩

example : casLog (ideal Nat) (init (ideal Nat)) twoThievesRace = [(some 0, true), (some 1, false)] := by
  decide

end Parlay.Deque
