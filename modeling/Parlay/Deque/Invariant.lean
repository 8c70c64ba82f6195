import Parlay.Deque.Protocol

/-!
# Invariants of the deque protocol

Every result here holds for any storage: the facts are about `bot`, `top` and
the program counters, which the array never touches.

Results:
1. `Shape`: what each program counter says about `bot` and `top`, in every
   reachable state (`reachable_shape`). A thief that would win its CAS now
   takes an index still in the deque, or one the owner contests with a CAS of
   its own (`ThiefOk`, the heart of the ABP argument).
2. `top_bounds`: `top` never decreases, `top ≤ bot + 1` always and `top ≤ bot`
   outside `pop_bottom`, the assertion in `pop_top` never fails, and
   `push_bottom` never writes a slot a thief has claimed and not yet read.
-/

namespace Parlay.Deque

variable {A V R : Type} {n : Nat}

/-! ## Program counters -/

/-- The owner contests index `k` with the thieves: it stored `bot = k`, and
reads or read `top = k`, so it will CAS `top` from `k`. -/
def Owner.Contests : Owner V → Nat → Prop
  | .popLoadTop b, k => b = k
  | .popRead b t, k => b = k ∧ t = k
  | .popCas b _, k => b = k
  | _, _ => False

/-- What the owner's program counter says about `bot` and `top`. -/
def OwnerOk (bot top : Nat) : Owner V → Prop
  | .idle => top ≤ bot
  | .pushPut b _ => bot = b ∧ top ≤ b
  | .pushStore b => bot = b ∧ top ≤ b
  | .popStore b => bot = b + 1 ∧ top ≤ b + 1
  | .popLoadTop b => bot = b ∧ top ≤ b + 1
  | .popRead b t => bot = b ∧ t ≤ top ∧ top ≤ b + 1 ∧ t ≤ b ∧ (t < b → top ≤ b)
  | .popCas b _ => bot = b ∧ b ≤ top ∧ top ≤ b + 1
  | .popRestore b _ => bot = b ∧ top = b + 1

/-- What a thief's program counter says. A thief that would win its CAS now
(`top = oldTop`) takes an index below `bot`, or one the owner contests. -/
def ThiefOk (top bot : Nat) (o : Owner V) : Thief R → Prop
  | .idle => True
  | .loadedTop oldTop => oldTop ≤ top
  | .loadedBot oldTop localBot =>
    oldTop < localBot ∧ oldTop ≤ top ∧ (top = oldTop → oldTop < bot ∨ o.Contests oldTop)
  | .claimed oldTop _ _ => oldTop < top
  | .assertFailed => False

/-- The program counters agree with `bot` and `top`. -/
structure Shape (s : State A V R n) : Prop where
  owner : OwnerOk s.bot s.top s.owner
  thief : ∀ i, ThiefOk s.top s.bot s.owner (s.thieves i)

theorem OwnerOk.top_le {bot top : Nat} {o : Owner V} (h : OwnerOk bot top o) : top ≤ bot + 1 := by
  cases o <;> simp only [OwnerOk] at h <;> omega

/-- One more CAS on `top` keeps every thief's facts: none of them can win at the
new `top` yet. -/
theorem ThiefOk.succ_top {top bot bot' : Nat} {o o' : Owner V} {t : Thief R}
    (h : ThiefOk top bot o t) : ThiefOk (top + 1) bot' o' t := by
  cases t <;> simp only [ThiefOk] at h ⊢ <;> omega

/-- An owner step that leaves `top` alone keeps every thief's facts when a
thief able to win at `top` still finds its index below `bot` or contested. -/
theorem ThiefOk.of_owner {top bot bot' : Nat} {o o' : Owner V} {t : Thief R}
    (h : ThiefOk top bot o t)
    (hk : top < bot ∨ o.Contests top → top < bot' ∨ o'.Contests top) :
    ThiefOk top bot' o' t := by
  cases t with
  | loadedBot oldTop localBot =>
    obtain ⟨h1, h2, h3⟩ := h
    exact ⟨h1, h2, fun he => he ▸ hk (he ▸ h3 he)⟩
  | _ => exact h

/-- A CAS on `top` that the winner was entitled to keeps the owner's facts. -/
theorem OwnerOk.succ_top {bot top : Nat} {o : Owner V}
    (h : OwnerOk bot top o) (hk : top < bot ∨ o.Contests top) : OwnerOk bot (top + 1) o := by
  cases o <;> simp only [OwnerOk, Owner.Contests, or_false] at h hk ⊢ <;> omega

theorem thiefOk_update {top bot : Nat} {o : Owner V} {f : Fin n → Thief R} {i : Fin n}
    {x : Thief R} (hf : ∀ j, ThiefOk top bot o (f j)) (hx : ThiefOk top bot o x) (j : Fin n) :
    ThiefOk top bot o (Function.update f i x j) := by
  by_cases hj : j = i
  · subst hj
    simpa using hx
  · simpa [Function.update_noteq hj] using hf j

theorem Shape.init (S : Storage A V R) : Shape (init S : State A V R n) :=
  ⟨le_refl 0, fun _ => trivial⟩

/-- A step that leaves `top` and the thieves alone keeps the shape when the
owner's new position agrees with `bot` and `top`, and a thief able to win at
`top` still finds its index below `bot` or contested. -/
theorem Shape.of_owner {s s' : State A V R n} (h : Shape s) (htop : s'.top = s.top)
    (hth : s'.thieves = s.thieves) (ho : OwnerOk s'.bot s'.top s'.owner)
    (hk : s.top < s.bot ∨ s.owner.Contests s.top → s.top < s'.bot ∨ s'.owner.Contests s.top) :
    Shape s' :=
  ⟨ho, fun i => by rw [hth, htop]; exact (h.thief i).of_owner hk⟩

/-- A thief step that leaves `top` alone keeps the shape when the thief's new
position agrees with `bot` and `top`. -/
theorem Shape.of_thief {s : State A V R n} (h : Shape s) (i : Fin n) (t : Thief R)
    (ht : ThiefOk s.top s.bot s.owner t) : Shape (s.setThief i t) :=
  ⟨h.owner, thiefOk_update h.thief ht⟩

theorem Shape.record {s : State A V R n} (h : Shape s) (e : Event V) : Shape (s.record e) :=
  ⟨h.owner, h.thief⟩

theorem Shape.setArr {s : State A V R n} (h : Shape s) (a : A) : Shape (s.setArr a) :=
  ⟨h.owner, h.thief⟩

section Steps

variable (S : Storage A V R)

theorem Shape.ownerStep {s s' : State A V R n} (h : Shape s) (hs : ownerStep S s = some s') :
    Shape s' := by
  have ho := h.owner
  unfold Deque.ownerStep at hs
  cases hown : s.owner with
  | idle => simp [hown] at hs
  | pushPut b v =>
    simp only [hown, OwnerOk, Option.map_eq_some'] at hs ho
    obtain ⟨a, -, rfl⟩ := hs
    exact h.of_owner rfl rfl (by simpa [OwnerOk] using ho) (by simp [hown, Owner.Contests])
  | pushStore b =>
    simp only [hown, OwnerOk, Option.some.injEq] at hs ho
    subst hs
    exact h.of_owner rfl rfl (by simp [OwnerOk] ; omega) (by simp [hown, Owner.Contests] ; omega)
  | popStore b =>
    simp only [hown, OwnerOk, Option.some.injEq] at hs ho
    subst hs
    exact h.of_owner rfl rfl (by simp [OwnerOk] ; omega) (by simp [hown, Owner.Contests] ; omega)
  | popLoadTop b =>
    simp only [hown, OwnerOk] at hs ho
    split at hs <;> simp only [Option.some.injEq] at hs <;> subst hs <;>
      exact h.of_owner rfl rfl (by simp [OwnerOk]; omega) (by simp [hown, Owner.Contests] <;> omega)
  | popRead b t =>
    simp only [hown, OwnerOk, Option.map_eq_some'] at hs ho
    obtain ⟨⟨a, val⟩, -, rfl⟩ := hs
    split_ifs <;>
      exact h.of_owner rfl rfl (by simp [OwnerOk] ; omega) (by simp [hown, Owner.Contests] ; omega)
  | popCas b val =>
    simp only [hown, OwnerOk] at hs ho
    split at hs <;> simp only [Option.some.injEq] at hs <;> subst hs
    next htop => exact ⟨by simp [OwnerOk]; omega, fun i => htop ▸ (h.thief i).succ_top⟩
    · exact h.of_owner rfl rfl (by simp [OwnerOk] ; omega) (by simp [hown, Owner.Contests] ; omega)
  | popRestore b val =>
    simp only [hown, OwnerOk, Option.some.injEq] at hs ho
    subst hs
    exact h.of_owner rfl rfl (by simp [OwnerOk] ; omega) (by simp [hown, Owner.Contests] ; omega)

theorem Shape.thiefStep {s s' : State A V R n} {i : Fin n} (h : Shape s)
    (hs : thiefStep S s i = some s') : Shape s' := by
  have ho := h.owner
  have hti := h.thief i
  unfold Deque.thiefStep at hs
  cases hthief : s.thieves i with
  | idle => simp [hthief] at hs
  | assertFailed => simp [hthief] at hs
  | loadedTop oldTop =>
    simp only [hthief, ThiefOk] at hs hti
    split at hs
    · exact absurd ho.top_le (by omega)
    · split at hs <;> simp only [Option.some.injEq] at hs <;> subst hs
      · exact h.of_thief i _ ⟨by omega, hti, fun _ => .inl (by omega)⟩
      · exact (h.of_thief i .idle trivial).record _
  | loadedBot oldTop localBot =>
    simp only [hthief, ThiefOk] at hs hti
    split at hs <;> simp only [Option.some.injEq] at hs <;> subst hs
    next htop =>
      have hown := ho.succ_top (htop ▸ hti.2.2 htop)
      rw [htop] at hown
      refine ⟨hown, fun j => ?_⟩
      by_cases hj : j = i
      · subst hj
        simp [ThiefOk, htop]
      · simpa [Function.update_noteq hj, htop] using (h.thief j).succ_top
    · exact (h.of_thief i .idle trivial).record _
  | claimed oldTop localBot r =>
    simp only [hthief, Option.map_eq_some'] at hs
    obtain ⟨⟨a, next | val⟩, -, rfl⟩ := hs
    · exact (h.setArr a).of_thief i _ (by simpa [hthief] using hti)
    · exact ((h.setArr a).of_thief i .idle trivial).record _

/-- Every step keeps the program counters in agreement with `bot` and `top`. -/
theorem Shape.step {s s' : State A V R n} {a : Act V n} (h : Shape s)
    (hs : step S s a = some s') : Shape s' := by
  have ho := h.owner
  cases a with
  | owner => exact h.ownerStep S hs
  | thief i => exact h.thiefStep S hs
  | pushBottom v =>
    cases hown : s.owner <;> simp only [Deque.step, hown, reduceCtorEq, Option.some.injEq] at hs
    subst hs
    simp only [hown, OwnerOk] at ho
    exact h.of_owner rfl rfl (by simp [OwnerOk]; omega) (by simp [hown, Owner.Contests])
  | popBottom =>
    cases hown : s.owner <;> simp only [Deque.step, hown, reduceCtorEq] at hs
    simp only [hown, OwnerOk] at ho
    split at hs <;> simp only [Option.some.injEq] at hs <;> subst hs <;>
      exact h.of_owner rfl rfl (by simp [OwnerOk, hown]; omega) (by simp [hown, Owner.Contests])
  | popTop i =>
    cases hthief : s.thieves i <;>
      simp only [Deque.step, hthief, reduceCtorEq, Option.some.injEq] at hs
    subst hs
    exact h.of_thief i _ (le_refl _)

theorem reachable_shape {s : State A V R n} (h : Reachable S s) : Shape s := by
  induction h with
  | init => exact Shape.init S
  | step _ hs ih => exact ih.step S hs

/-! ## Claimed indices -/

/-- The index a thief won with its CAS on `top` and has not yet read. -/
def Thief.claim : Thief R → Option Nat
  | .claimed oldTop _ _ => some oldTop
  | _ => none

/-- No two thieves hold the same index. -/
def ClaimsDistinct (thieves : Fin n → Thief R) : Prop :=
  ∀ i j k, (thieves i).claim = some k → (thieves j).claim = some k → i = j

/-- A thief's new position claims nothing, or the index it already held, or
one no thief holds. -/
theorem ClaimsDistinct.update {f : Fin n → Thief R} {i : Fin n} {x : Thief R}
    (h : ClaimsDistinct f)
    (hx : ∀ k, x.claim = some k → (f i).claim = some k ∨ ∀ j, (f j).claim ≠ some k) :
    ClaimsDistinct (Function.update f i x) := by
  have side : ∀ j k, x.claim = some k → (f j).claim = some k → j ≠ i → False := fun j k hk hj hji =>
    (hx k hk).elim (fun hi => hji (h j i k hj hi)) (fun hn => hn j hj)
  intro a b k ha hb
  by_cases hai : a = i <;> by_cases hbi : b = i
  · rw [hai, hbi]
  · subst hai; simp only [Function.update_same, Function.update_noteq hbi] at ha hb
    exact (side b k ha hb hbi).elim
  · subst hbi; simp only [Function.update_same, Function.update_noteq hai] at ha hb
    exact (side a k hb ha hai).elim
  · simp only [Function.update_noteq hai, Function.update_noteq hbi] at ha hb
    exact h a b k ha hb

theorem ownerStep_thieves {s s' : State A V R n} (hs : ownerStep S s = some s') :
    s'.thieves = s.thieves := by
  unfold Deque.ownerStep at hs
  cases hown : s.owner <;> simp only [hown, reduceCtorEq, Option.map_eq_some'] at hs
  case pushPut | popRead =>
    obtain ⟨_, -, rfl⟩ := hs
    try split_ifs
    all_goals rfl
  all_goals
    try split at hs
    all_goals simp only [Option.some.injEq] at hs; subst hs; rfl

/-- A successful CAS claims `top`, which every claimed index lies below; a
thief inside `get_tail` keeps its index until it returns. -/
theorem ClaimsDistinct.step {s s' : State A V R n} {a : Act V n} (hsh : Shape s)
    (h : ClaimsDistinct s.thieves) (hs : step S s a = some s') : ClaimsDistinct s'.thieves := by
  have none_claim : ∀ {i : Fin n} {x : Thief R}, x.claim = none →
      ClaimsDistinct (Function.update s.thieves i x) := fun hx =>
    h.update fun k hk => by simp [hx] at hk
  cases a with
  | owner => rwa [ownerStep_thieves S hs]
  | pushBottom v =>
    cases hown : s.owner <;> simp only [Deque.step, hown, reduceCtorEq, Option.some.injEq] at hs
    rwa [← hs]
  | popBottom =>
    cases hown : s.owner <;> simp only [Deque.step, hown, reduceCtorEq] at hs
    split at hs <;> simp only [Option.some.injEq] at hs <;> rwa [← hs]
  | popTop i =>
    cases hthief : s.thieves i <;>
      simp only [Deque.step, hthief, reduceCtorEq, Option.some.injEq] at hs
    rw [← hs]
    exact none_claim rfl
  | thief i =>
    simp only [Deque.step, Deque.thiefStep] at hs
    cases hthief : s.thieves i <;> simp only [hthief, reduceCtorEq, Option.map_eq_some'] at hs
    case loadedTop oldTop =>
      split at hs <;> [skip; split at hs] <;> simp only [Option.some.injEq] at hs <;> subst hs <;>
        exact none_claim rfl
    case loadedBot oldTop localBot =>
      split at hs <;> simp only [Option.some.injEq] at hs <;> subst hs
      next htop =>
        refine h.update fun k hk => .inr fun j hj => ?_
        simp only [Thief.claim, Option.some.injEq] at hk
        have hj' := hsh.thief j
        cases hsj : s.thieves j <;> simp only [hsj, Thief.claim, reduceCtorEq] at hj
        simp only [hsj, ThiefOk] at hj'
        simp only [Option.some.injEq] at hj
        omega
      · exact none_claim rfl
    case claimed oldTop localBot r =>
      obtain ⟨⟨a, r' | val⟩, -, rfl⟩ := hs
      · exact h.update fun k hk => .inl (by simpa [hthief, Thief.claim] using hk)
      · exact none_claim rfl

theorem reachable_claimsDistinct {s : State A V R n} (h : Reachable S s) :
    ClaimsDistinct s.thieves := by
  induction h with
  | init => intro i j k hi; simp [Deque.init, Thief.claim] at hi
  | step hr hs ih => exact ih.step S (reachable_shape S hr) hs

/-! ## `top` -/

theorem ownerStep_top {s s' : State A V R n} (hs : ownerStep S s = some s') :
    s'.top = s.top ∨ s'.top = s.top + 1 := by
  unfold Deque.ownerStep at hs
  cases hown : s.owner <;> simp only [hown, reduceCtorEq, Option.map_eq_some'] at hs
  case pushPut | popRead =>
    obtain ⟨_, -, rfl⟩ := hs
    try split_ifs
    all_goals simp
  all_goals
    try split at hs
    all_goals simp only [Option.some.injEq] at hs; subst hs; simp_all

theorem thiefStep_top {s s' : State A V R n} {i : Fin n} (hs : thiefStep S s i = some s') :
    s'.top = s.top ∨ s'.top = s.top + 1 := by
  unfold Deque.thiefStep at hs
  cases hthief : s.thieves i <;> simp only [hthief, reduceCtorEq, Option.map_eq_some'] at hs
  case claimed =>
    obtain ⟨⟨_, _ | _⟩, -, rfl⟩ := hs <;> simp
  all_goals
    repeat' split at hs
    all_goals simp only [Option.some.injEq] at hs; subst hs; simp_all

/-- Every step leaves `top` alone or moves it up by one, by a successful CAS. -/
theorem step_top {s s' : State A V R n} {a : Act V n} (hs : step S s a = some s') :
    s'.top = s.top ∨ s'.top = s.top + 1 := by
  cases a with
  | owner => exact ownerStep_top S hs
  | thief i => exact thiefStep_top S hs
  | pushBottom v =>
    cases hown : s.owner <;> simp [Deque.step, hown] at hs
    simp [← hs]
  | popBottom =>
    cases hown : s.owner <;> simp [Deque.step, hown] at hs
    split at hs <;> simp at hs <;> simp [← hs]
  | popTop i =>
    cases hthief : s.thieves i <;> simp [Deque.step, hthief] at hs
    simp [← hs]

end Steps

/-- The owner is inside `pop_bottom`. -/
def Owner.InPopBottom : Owner V → Prop
  | .popStore _ | .popLoadTop _ | .popRead _ _ | .popCas _ _ | .popRestore _ _ => True
  | _ => False

/-- In every reachable state: `top` never decreases; `top ≤ bot + 1`, and
`top ≤ bot` unless the owner is inside `pop_bottom`; a thief about to load
`bot` finds `local_bot + 1 >= old_top`, so the assertion in `pop_top` never
fails; and the slot `push_bottom` is about to store lies above every index a
thief has claimed and not yet read. -/
theorem top_bounds {S : Storage A V R} {s : State A V R n} (h : Reachable S s) :
    (∀ a s', step S s a = some s' → s.top ≤ s'.top) ∧
    s.top ≤ s.bot + 1 ∧
    (¬ s.owner.InPopBottom → s.top ≤ s.bot) ∧
    (∀ i oldTop, s.thieves i = .loadedTop oldTop → oldTop ≤ s.bot + 1) ∧
    (∀ i, s.thieves i ≠ .assertFailed) ∧
    (∀ b v i oldTop localBot r, s.owner = .pushPut b v →
      s.thieves i = .claimed oldTop localBot r → oldTop < b) := by
  have hs := reachable_shape S h
  have htop := hs.owner.top_le
  refine ⟨fun a s' h' => by rcases step_top S h' with h' | h' <;> omega, htop, fun hp => ?_,
    fun i oldTop hi => ?_, fun i hi => ?_, fun b v i oldTop localBot r ho hi => ?_⟩
  · have ho := hs.owner
    cases hown : s.owner <;>
      simp only [hown, OwnerOk, Owner.InPopBottom, not_true_eq_false] at ho hp ⊢
    all_goals omega
  · have := hs.thief i
    simp only [hi, ThiefOk] at this
    omega
  · have := hs.thief i
    simp [hi, ThiefOk] at this
  · have h1 := hs.thief i
    have h2 := hs.owner
    simp only [hi, ThiefOk] at h1
    simp only [ho, OwnerOk] at h2
    omega

/-- After the two thieves' race the winner's CAS has moved `top` to `1`. -/
theorem top_bounds_race :
    ∃ s, run (ideal Nat) (init (ideal Nat)) twoThievesRace = some s ∧ s.top = 1 ∧
      (∀ a s', step (ideal Nat) s a = some s' → s.top ≤ s'.top) ∧
      s.top ≤ s.bot + 1 ∧ (¬ s.owner.InPopBottom → s.top ≤ s.bot) ∧
      (∀ i oldTop, s.thieves i = .loadedTop oldTop → oldTop ≤ s.bot + 1) ∧
      (∀ i, s.thieves i ≠ .assertFailed) ∧
      (∀ b v i oldTop localBot r, s.owner = .pushPut b v →
        s.thieves i = .claimed oldTop localBot r → oldTop < b) :=
  ⟨_, rfl, rfl, top_bounds (Reachable.init.run (l := twoThievesRace) rfl)⟩

end Parlay.Deque
