import Parlay.Deque.Teardown
import Parlay.Deque.Linearizable
import Parlay.ContinuousArray.Walk

/-!
# Two thieves: the deque on `continuous_array` is the deque on the ideal array

`delayed_thief_derefs_null` needs three thieves: two retirements overlap and
leave a block off the backward links, and a third thief searches them. With
two thieves, the only thread that retires while a thief searches in
`get_tail` is the other thief, whose retirements push each block on top of
the one before. Every search then reaches its block (`Walks`), and every
state of the deque on `continuous_array` stands for a state of the deque on
the ideal array, as with one thief.

Results:
1. `step_simulates`: for any number of thieves whose calls of `get_tail` keep
   a reader invariant, each step is a step of the ideal deque or no step.
2. `Walks.step`: with two thieves every step keeps `Walks`.
3. `two_thieves_refine_ideal`: with two thieves the deque on
   `continuous_array` refines the ideal deque, keeps its balance of values,
   fails no assertion, and no thief dereferences null.
4. `two_thieves_linearizable`: with two thieves it is linearizable.
-/

namespace Parlay.Deque

open ContinuousArray

variable {V : Type} {n : Nat}

/-! ## The simulation for any reader invariant -/

/-- With every thread inside `get_tail` where a reader invariant `P` puts it,
each step of the deque on `continuous_array` is a step of the deque on the
ideal array or, inside `get_tail` before it returns, no step at all, and it
fails no assertion. -/
theorem step_simulates (P : CA V → Nat → Nat → GetTail → Prop)
    (hstart : ∀ ca lo index, lo ≤ desiredBlockId index → P ca lo index .loadTail)
    (hread : ReaderStep P) {s s' : BlockState V n} {a : Act V n} {lo hi : Nat}
    (h : Layout s lo hi) (hsh : Shape s) (hP : Readers P s)
    (hs : step (blocks V) s a = some s') :
    (abstract s' = abstract s ∨ step (ideal V) (abstract s) a = some (abstract s')) ∧
      s'.arr.faults = s.arr.faults := by
  cases a with
  | owner =>
    obtain ⟨hsim, -, hf⟩ := ownerStep_abstract h hsh hs
    exact ⟨.inr hsim, hf⟩
  | thief i => exact (thiefStep_abstract P hstart hread h hsh hP hs).imp_right And.left
  | pushBottom v =>
    cases hown : s.owner <;> simp only [Deque.step, hown, reduceCtorEq, Option.some.injEq] at hs
    subst hs
    exact ⟨.inr (by simp [Deque.step, hown, abstract_setOwner, abstract_record]), rfl⟩
  | popBottom =>
    cases hown : s.owner <;> simp only [Deque.step, hown, reduceCtorEq] at hs
    split at hs <;> simp only [Option.some.injEq] at hs <;> subst hs
    · exact ⟨.inr (by simp [Deque.step, hown, abstract_record, *]), rfl⟩
    · exact ⟨.inr (by simp [Deque.step, hown, abstract_setOwner, *]), rfl⟩
  | popTop i =>
    cases hthief : s.thieves i <;>
      simp only [Deque.step, hthief, reduceCtorEq, Option.some.injEq] at hs
    subst hs
    exact ⟨.inr (by simp [Deque.step, hthief, Thief.forget, abstract_setThief]), rfl⟩

theorem walkOk_start (ca : CA V) (lo index : Nat) (h : lo ≤ desiredBlockId index) :
    WalkOk ca lo index .loadTail :=
  ⟨trivial, fun _ => linked_of_le _ h⟩

theorem walkOk_readerStep : ReaderStep (@WalkOk V) :=
  fun hc hd hg hw => GetTail.step_walk hc hd hg hw

/-! ## The two-thief invariant -/

/-- What thief `t` leaves on `to_retire` for a reader searching for block `d`. -/
def Thief.Pushed (toRetire : Option Nat) (d lo : Nat) : Thief GetTail → Prop
  | .claimed _ _ g => g.Pushed toRetire d lo
  | _ => Settled toRetire d lo

theorem Thief.pushed_of_le (toRetire : Option Nat) {d lo : Nat} (h : lo ≤ d) (t : Thief GetTail) :
    t.Pushed toRetire d lo := by
  cases t with
  | claimed _ _ g => exact GetTail.pushed_of_le toRetire h g
  | _ => exact fun hd => absurd hd (by omega)

/-- A thief outside `get_tail`, or at its start, leaves the last retired block
on top of `to_retire`. -/
theorem Thief.pushed_iff_settled {t : Thief GetTail}
    (ht : ∀ x y g, t = .claimed x y g → g = .loadTail) (toRetire : Option Nat) (d lo : Nat) :
    t.Pushed toRetire d lo ↔ Settled toRetire d lo := by
  cases t with
  | claimed x y g => obtain rfl := ht x y g rfl; exact Iff.rfl
  | _ => exact Iff.rfl

/-- With two thieves: every thief inside `get_tail` is on its way to the block
of its index (`WalkOk`), and while it searches, what the other thief leaves on
`to_retire` keeps the links it needs (`Thief.Pushed`). -/
structure Walks (s : BlockState V 2) : Prop where
  walk : Readers WalkOk s
  pushed : ∀ i j, i ≠ j → ∀ oldTop localBot g, s.thieves i = .claimed oldTop localBot g →
    Searching g → ∀ lo, s.arr.tail = some lo →
      (s.thieves j).Pushed s.arr.toRetire (desiredBlockId oldTop) lo

/-- Of two thieves, the one other than `k` is `i` when `k` is not. -/
theorem eq_of_ne_of_ne {i j k : Fin 2} (hki : k ≠ i) (hjk : j ≠ k) : j = i := by
  revert i j k
  decide

theorem Walks.init : Walks (init (blocks V) : BlockState V 2) :=
  ⟨fun _ _ _ _ h => by simp [Deque.init] at h, fun _ _ _ _ _ _ h => by simp [Deque.init] at h⟩

theorem Walks.of_eq {s s' : BlockState V 2} (h : Walks s) (ha : s'.arr = s.arr)
    (ht : s'.thieves = s.thieves) : Walks s' := by
  refine ⟨fun i x y g hi lo hl => ?_, fun i j hij x y g hi hg lo hl => ?_⟩
  · rw [ha] at hl ⊢
    rw [ht] at hi
    exact h.walk i x y g hi lo hl
  · rw [ha] at hl ⊢
    rw [ht] at hi ⊢
    exact h.pushed i j hij x y g hi hg lo hl

/-- Thief `i` moves outside `get_tail`, or starts it for an index whose block is
not below the tail, and the array stays. -/
theorem Walks.setThief {s s' : BlockState V 2} {i : Fin 2} {t : Thief GetTail} (h : Walks s)
    (hold : ∀ x y g, s.thieves i ≠ .claimed x y g)
    (hnew : ∀ x y g, t = .claimed x y g →
      g = .loadTail ∧ ∀ lo, s.arr.tail = some lo → lo ≤ desiredBlockId x)
    (ha : s'.arr = s.arr) (ht : s'.thieves = Function.update s.thieves i t) : Walks s' := by
  refine ⟨fun k x y g hk lo hl => ?_, fun k j hkj x y g hk hg lo hl => ?_⟩ <;>
    rw [ha] at hl ⊢ <;> rw [ht] at hk <;> by_cases hki : k = i
  · subst hki
    rw [Function.update_same] at hk
    obtain ⟨rfl, hle⟩ := hnew x y g hk
    exact walkOk_start _ _ _ (hle lo hl)
  · rw [Function.update_noteq hki] at hk
    exact h.walk k x y g hk lo hl
  · subst hki
    rw [Function.update_same] at hk
    rw [ht]
    exact Thief.pushed_of_le _ ((hnew x y g hk).2 lo hl) _
  · -- the other thief is `i`, which leaves the last retired block on top before and after
    rw [Function.update_noteq hki] at hk
    obtain rfl := eq_of_ne_of_ne hki (Ne.symm hkj)
    rw [ht, Function.update_same]
    have hp := h.pushed k j hkj x y g hk hg lo hl
    rw [Thief.pushed_iff_settled (fun x y g he => absurd he (hold x y g))] at hp
    exact (Thief.pushed_iff_settled (fun x y g he => (hnew x y g he).1) _ _ _).2 hp

/-- An owner step keeps `Walks`: it keeps the tail, `to_retire`, every thief
and every `prev` up to the head. -/
theorem Walks.ownerStep {s s' : BlockState V 2} {lo hi : Nat} (h : Layout s lo hi) (hsh : Shape s)
    (hw : Walks s) (hs : ownerStep (blocks V) s = some s') : Walks s' := by
  obtain ⟨ht, hr, -, hp⟩ := ownerStep_frame h hsh hs
  have hth := ownerStep_thieves _ hs
  refine ⟨fun i x y g hi lo' hl => ?_, fun i j hij x y g hi hg lo' hl => ?_⟩ <;>
    rw [hth] at hi <;> rw [ht] at hl
  · obtain ⟨hwalk, hlink⟩ := hw.walk i x y g hi lo' hl
    obtain rfl : lo' = lo := by simpa [h.chain.tail] using hl.symm
    exact ⟨hwalk, fun hg => (hlink hg).of_prev fun k hk => hp k (hk.trans h.chain.le)⟩
  · rw [hth, hr]
    exact hw.pushed i j hij x y g hi hg lo' hl

/-- A step of thief `i` inside `get_tail` keeps `Walks`: its own search goes on
(`GetTail.step_walk`); the other thief's search keeps its links, since what
thief `i` left on `to_retire` is what it needs (`GetTail.step_linked`); and a
step that keeps thief `i` searching changes nothing. -/
theorem Walks.tailStep {s : BlockState V 2} {lo hi x y : Nat} {i : Fin 2} {g : GetTail}
    {ca' : CA V} {r : GetTail ⊕ Option V} (h : Layout s lo hi) (hsh : Shape s) (hw : Walks s)
    (hthief : s.thieves i = .claimed x y g) (hs : g.step s.arr x = some (ca', r)) :
    Walks ((s.setArr ca').setThief i (r.elim (.claimed x y) fun _ => .idle)) := by
  have hd := h.claimed_le hsh hthief
  have hg := h.readers i _ _ _ hthief
  obtain ⟨ca₁, r₁, hs₁, lo', hts, -, hw', -⟩ :=
    GetTail.step_walk h.chain hd hg (hw.walk i x y g hthief lo h.chain.tail)
  obtain ⟨rfl, rfl⟩ : ca' = ca₁ ∧ r = r₁ := by simpa [hs] using hs₁
  have hlo' : ca'.tail = some lo' := hts.chain.tail
  have hle : lo ≤ lo' := by rcases hts.moved with rfl | ⟨-, -, rfl⟩ <;> omega
  /- what the step leaves for the other thief `k`, searching for its block -/
  have other : ∀ k, k ≠ i → ∀ xk yk gk, s.thieves k = .claimed xk yk gk → Searching gk →
      Linked ca'.mem (desiredBlockId xk) lo' ∧
        (∀ g', r = .inl g' → g'.Pushed ca'.toRetire (desiredBlockId xk) lo') ∧
        ∀ v, r = .inr v → Settled ca'.toRetire (desiredBlockId xk) lo' := fun k hki xk yk gk hk hgk =>
    GetTail.step_linked h.chain hd hg hs hlo'
      (by simpa [hthief, Thief.Pushed] using hw.pushed k i hki xk yk gk hk hgk lo h.chain.tail)
      ((hw.walk k xk yk gk hk lo h.chain.tail).2 hgk)
  refine ⟨fun k xk yk gk hk lo₁ hl => ?_, fun k j hkj xk yk gk hk hgk lo₁ hl => ?_⟩ <;>
    obtain rfl : lo' = lo₁ := by simpa [hlo'] using hl
  all_goals simp only [State.setThief_thieves, State.setArr_thieves, State.setThief_arr,
    State.setArr_arr] at hk ⊢
  · by_cases hki : k = i
    · subst hki
      rw [Function.update_same] at hk
      cases r with
      | inl g' => cases hk; exact hw' _ rfl
      | inr v => cases hk
    · rw [Function.update_noteq hki] at hk
      obtain ⟨hwalk, -⟩ := hw.walk k xk yk gk hk lo h.chain.tail
      exact ⟨hwalk.mono hle, fun hgk => (other k hki xk yk gk hk hgk).1⟩
  · by_cases hki : k = i
    · -- thief `i` still searches: its step changed nothing
      subst hki
      rw [Function.update_same] at hk
      cases r with
      | inr v => cases hk
      | inl g' =>
        cases hk
        obtain ⟨hg0, rfl⟩ := GetTail.step_searching hs hgk
        obtain rfl : lo = lo' := by simpa [h.chain.tail] using hlo'
        rw [Function.update_noteq (Ne.symm hkj)]
        exact hw.pushed k j hkj x y g hthief hg0 lo h.chain.tail
    · rw [Function.update_noteq hki] at hk
      obtain rfl := eq_of_ne_of_ne hki (Ne.symm hkj)
      rw [Function.update_same]
      obtain ⟨-, hin, hout⟩ := other k hki xk yk gk hk hgk
      cases r with
      | inl g' => exact hin g' rfl
      | inr v => exact hout v rfl

/-- A step of a thief keeps `Walks`. -/
theorem Walks.thiefStep {s s' : BlockState V 2} {lo hi : Nat} {i : Fin 2} (h : Layout s lo hi)
    (hsh : Shape s) (hw : Walks s) (hs : thiefStep (blocks V) s i = some s') : Walks s' := by
  unfold Deque.thiefStep at hs
  cases hthief : s.thieves i with
  | idle => simp [hthief] at hs
  | assertFailed => simp [hthief] at hs
  | loadedTop x =>
    have hold : ∀ x y g, s.thieves i ≠ .claimed x y g := by simp [hthief]
    simp only [hthief] at hs
    split_ifs at hs <;> cases hs <;> exact hw.setThief hold (by simp) rfl rfl
  | loadedBot x y =>
    have hold : ∀ x y g, s.thieves i ≠ .claimed x y g := by simp [hthief]
    simp only [hthief] at hs
    split_ifs at hs with htop <;> cases hs
    · -- the CAS wins `x`, whose block is not below the tail
      refine hw.setThief hold (fun _ _ _ he => ?_) rfl rfl
      cases he
      refine ⟨rfl, fun lo' hl => ?_⟩
      obtain rfl : lo' = lo := by simpa [h.chain.tail] using hl.symm
      rw [desiredBlockId_eq]
      rcases h.retired with h0 | hlt <;> omega
    · exact hw.setThief hold (by simp) rfl rfl
  | claimed x y g =>
    simp only [hthief, blocks_tailStep, Option.map_eq_some'] at hs
    obtain ⟨⟨ca', r⟩, hstep, rfl⟩ := hs
    have hW := hw.tailStep h hsh hthief hstep
    cases r with
    | inl g' => exact hW
    | inr v => exact hW.of_eq rfl rfl

/-- Every step keeps `Walks`. -/
theorem Walks.step {s s' : BlockState V 2} {a : Act V 2} {lo hi : Nat} (h : Layout s lo hi)
    (hsh : Shape s) (hw : Walks s) (hs : step (blocks V) s a = some s') : Walks s' := by
  cases a with
  | owner => exact hw.ownerStep h hsh hs
  | thief i => exact hw.thiefStep h hsh hs
  | pushBottom v =>
    cases hown : s.owner <;> simp only [Deque.step, hown, reduceCtorEq, Option.some.injEq] at hs
    subst hs
    exact hw.of_eq rfl rfl
  | popBottom =>
    cases hown : s.owner <;> simp only [Deque.step, hown, reduceCtorEq] at hs
    split at hs <;> simp only [Option.some.injEq] at hs <;> subst hs <;> exact hw.of_eq rfl rfl
  | popTop i =>
    cases hthief : s.thieves i <;>
      simp only [Deque.step, hthief, reduceCtorEq, Option.some.injEq] at hs
    subst hs
    exact hw.setThief (by simp [hthief]) (by simp) rfl rfl

/-! ## Two thieves -/

/-- With two thieves, every reachable state of the deque on `continuous_array`
stands for a reachable state of the deque on the ideal array; no assertion has
failed, and every thief inside `get_tail` is on its way to its block. -/
theorem reachable_walks {s : BlockState V 2} (h : Reachable (blocks V) s) :
    Reachable (ideal V) (abstract s) ∧ s.arr.faults = [] ∧ Walks s := by
  induction h with
  | init => exact ⟨by rw [abstract_init]; exact .init, rfl, Walks.init⟩
  | step hr hs ih =>
    obtain ⟨habs, hf, hw⟩ := ih
    obtain ⟨lo, hi, hl⟩ := reachable_layout hr
    have hsh := reachable_shape _ hr
    obtain ⟨hsim, hf'⟩ := step_simulates _ walkOk_start walkOk_readerStep hl hsh hw.walk hs
    refine ⟨?_, hf'.trans hf, hw.step hl hsh hs⟩
    rcases hsim with he | hstep
    · exact he ▸ habs
    · exact habs.step hstep

/-- With two thieves, the deque on `continuous_array` behaves as the deque on
the ideal array. Every state an interleaving reaches stands for a state the
ideal deque reaches, with the elements the blocks store as its array; every
pushed value is in exactly one place (`Conserved`); no assertion of
`continuous_array` has failed; and the next step of a thief inside
`get_tail` always exists: neither thief dereferences null. -/
theorem two_thieves_refine_ideal {s : BlockState V 2} (h : Reachable (blocks V) s) :
    Reachable (ideal V) (abstract s) ∧ Conserved (abstract s) ∧ s.arr.faults = [] ∧
      ∀ i oldTop localBot g, s.thieves i = .claimed oldTop localBot g →
        thiefStep (blocks V) s i ≠ none := by
  obtain ⟨habs, hf, hw⟩ := reachable_walks h
  refine ⟨habs, reachable_conserved habs, hf, fun i oldTop localBot g hc => ?_⟩
  obtain ⟨lo, hi, hl⟩ := reachable_layout h
  obtain ⟨ca', r, hstep, -⟩ := GetTail.step_walk hl.chain (hl.claimed_le (reachable_shape _ h) hc)
    (hl.readers i _ _ _ hc) (hw.walk i _ _ _ hc lo hl.chain.tail)
  simp [Deque.thiefStep, hc, hstep]

/-- The two thieves' race on `continuous_array`: the winner has claimed index
`0` and is inside `get_tail`; the loser returned null, and since its failed CAS
reloaded `old_top = 1`, it did not report the deque empty. -/
theorem two_thieves_refine_ideal_race :
    ∃ s, run (blocks Nat) (init (blocks Nat)) twoThievesRace = some s ∧
      (∃ g, s.thieves 0 = .claimed 0 1 g) ∧ s.history = [.pushBottom 7, .popTop none false] ∧
      Reachable (ideal Nat) (abstract s) ∧ Conserved (abstract s) ∧ s.arr.faults = [] ∧
      ∀ i oldTop localBot g, s.thieves i = .claimed oldTop localBot g →
        thiefStep (blocks Nat) s i ≠ none :=
  ⟨_, rfl, ⟨_, rfl⟩, rfl, two_thieves_refine_ideal (Reachable.init.run (l := twoThievesRace) rfl)⟩

/-- With two thieves, the deque on `continuous_array` is linearizable: each
reachable state stands, through the deque on the ideal array, for a reachable
state of the atomic deque with the same history, and each next step is matched
by steps of the atomic deque. -/
theorem two_thieves_linearizable {s : BlockState V 2} (h : Reachable (blocks V) s) :
    Atomic.Reachable (linearize (abstract s)) ∧ (linearize (abstract s)).history = s.history ∧
      ∀ a s', step (blocks V) s a = some s' →
        Atomic.Steps (linearize (abstract s)) (linearize (abstract s')) := by
  obtain ⟨habs, -, hw⟩ := reachable_walks h
  refine ⟨reachable_linearize habs, rfl, fun a s' hs => ?_⟩
  obtain ⟨lo, hi, hl⟩ := reachable_layout h
  rcases (step_simulates _ walkOk_start walkOk_readerStep hl (reachable_shape _ h) hw.walk hs).1
    with he | hstep
  · exact .of_eq (congrArg linearize he)
  · exact step_linearize (reachable_shape _ habs) (reachable_conserved habs)
      (reachable_casRead habs) hstep

/-- After the two thieves' race on `continuous_array` the atomic deque is
empty: the winner's claim took the one element. -/
theorem two_thieves_linearizable_race :
    ∃ s, run (blocks Nat) (init (blocks Nat)) twoThievesRace = some s ∧
      (linearize (abstract s)).items = [] ∧
      Atomic.Reachable (linearize (abstract s)) ∧ (linearize (abstract s)).history = s.history ∧
      ∀ a s', step (blocks Nat) s a = some s' →
        Atomic.Steps (linearize (abstract s)) (linearize (abstract s')) :=
  ⟨_, rfl, rfl, two_thieves_linearizable (Reachable.init.run (l := twoThievesRace) rfl)⟩

end Parlay.Deque
