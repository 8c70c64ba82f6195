import Parlay.Deque.Sequential
import Parlay.Deque.Teardown

/-!
# The tail stops moving

`get_tail(index)` retires the tail only for an index at offset `0` of the block
right after the tail it loaded (`t->block_id == desired_block_id - 1`). Only
the thief that won that index with its CAS on `top` reads it. But `top` also
moves past an index with no thief: the owner's CAS in `pop_bottom` takes the
last element. When that index is the first of the block after the tail, every
index a thief claims from then on lies above it. The retirement condition can
then never hold again, with any number of thieves: the tail stays on its
block, `to_retire` never changes, and every later `get_tail` searches forward
from that block.

The owner alone reaches such a state. Pushing one element and popping it back
moves `top` and `bot` up by one, and after 16385 such rounds from `Deque()`
`top` has passed index 16384 while the tail is still block `0`.

Results:
1. `GetTail.step_past`: a step of `get_tail(index)` that searches from the tail
   `lo`, for an index past the first of block `lo + 1`, starts no retirement.
2. `Frozen.step`: every step of the system keeps the tail frozen.
3. `tail_frozen`: once `top` has passed the first index of the block after the
   tail with no thief inside `get_tail`, no interleaving moves the tail or
   pushes onto `to_retire` again.
4. `SeqInv.ownerRounds`: the owner's rounds of `push_bottom` and `pop_bottom`
   move `top` and leave the tail alone.
-/

namespace Parlay.ContinuousArray

variable {T : Type}

/-- What a call of `get_tail` has done while the tail is block `lo`: it loaded
`lo` as its tail, if it has loaded one, and it started no retirement. -/
def FromTail (lo : Nat) : GetTail → Prop
  | .loadTail | .read _ => True
  | .forward t _ | .backward t _ | .found t _ => t = some lo
  | .retire _ _ => False

/-- A step of `get_tail(index)` that searches from the tail `lo`, for an index
past the first of block `lo + 1`, starts no retirement: the tail's successor is
not the block of `index`, or `index` does not start its block. It changes
neither `tail` nor `to_retire`. -/
theorem GetTail.step_past {ca ca' : CA T} {lo hi index : Nat} {g : GetTail}
    {r : GetTail ⊕ Option T} (hc : Chain ca lo hi) (hidx : (lo + 1) * 16384 < index)
    (hg : FromTail lo g) (hs : g.step ca index = some (ca', r)) :
    ca'.tail = ca.tail ∧ ca'.toRetire = ca.toRetire ∧ ∀ g', r = .inl g' → FromTail lo g' := by
  cases g with
  | loadTail =>
    cases hs
    exact ⟨rfl, rfl, by rintro _ ⟨⟩; exact hc.tail⟩
  | forward t b | backward t b =>
    cases b with
    | none =>
      cases hs
      exact ⟨rfl, rfl, by rintro _ ⟨⟩; exact hg⟩
    | some p =>
      simp only [GetTail.step, Option.map_eq_some'] at hs
      obtain ⟨blk, -, he⟩ := hs
      split_ifs at he <;> cases he <;> exact ⟨rfl, rfl, by rintro _ ⟨⟩; exact hg⟩
  | found t b =>
    cases b with
    | none => cases hs
    | some p =>
      subst hg
      obtain ⟨tb, htb, hid⟩ := hc.mem hc.le
      simp only [GetTail.step, Option.bind_eq_bind, Option.bind_eq_some] at hs
      obtain ⟨blk, -, he⟩ := hs
      split_ifs at he with h0
      · have hnot : ¬ tb.blockId + 1 = desiredBlockId index := by
          have := h0.1
          rw [offset_eq] at this
          rw [hid, desiredBlockId_eq]
          omega
        simp only [CA.get, Option.some_bind, CA.check_mem, htb, if_neg hnot, Option.some.injEq] at he
        cases he
        exact ⟨CA.check_tail .., CA.check_toRetire .., by rintro _ ⟨⟩; trivial⟩
      · cases he
        exact ⟨CA.check_tail .., CA.check_toRetire .., by rintro _ ⟨⟩; trivial⟩
  | retire p r0 => exact hg.elim
  | read p =>
    simp only [GetTail.step, Option.map_eq_some'] at hs
    obtain ⟨blk, -, he⟩ := hs
    cases he
    exact ⟨rfl, rfl, by rintro _ ⟨⟩⟩

end Parlay.ContinuousArray

namespace Parlay.Deque

open ContinuousArray

variable {V : Type} {n : Nat}

/-! ## A frozen tail over whole runs -/

/-- The tail is frozen on block `lo`, with `to_retire` at `r`: `top` has passed
the first index of block `lo + 1`, and every thief inside `get_tail` holds an
index above it and searches from `lo`. -/
structure Frozen (s : BlockState V n) (lo : Nat) (r : Option Nat) : Prop where
  tail : s.arr.tail = some lo
  toRetire : s.arr.toRetire = r
  top : (lo + 1) * 16384 < s.top
  readers : ∀ i oldTop localBot g, s.thieves i = .claimed oldTop localBot g →
    (lo + 1) * 16384 < oldTop ∧ FromTail lo g

/-- A step that keeps `tail` and `to_retire`, and whose thieves inside
`get_tail` were there before or start a search from `lo` above `top`, keeps the
tail frozen. -/
theorem Frozen.of_eq {s s' : BlockState V n} {lo : Nat} {r : Option Nat} (h : Frozen s lo r)
    (ht : s'.arr.tail = s.arr.tail) (hr : s'.arr.toRetire = s.arr.toRetire) (htop : s.top ≤ s'.top)
    (hth : ∀ i oldTop localBot g, s'.thieves i = .claimed oldTop localBot g →
      s.thieves i = .claimed oldTop localBot g ∨ ((lo + 1) * 16384 < oldTop ∧ FromTail lo g)) :
    Frozen s' lo r :=
  ⟨ht.trans h.tail, hr.trans h.toRetire, by have := h.top; omega,
    fun i _ _ _ hi => (hth i _ _ _ hi).elim (h.readers i _ _ _) id⟩

/-- Thief `i` moves to a position outside `get_tail`. -/
theorem Frozen.setThief {s : BlockState V n} {lo : Nat} {r : Option Nat} (h : Frozen s lo r)
    (i : Fin n) {x : Thief GetTail} (hx : x.claim = none) : Frozen (s.setThief i x) lo r := by
  refine h.of_eq rfl rfl le_rfl fun j oldTop localBot g hj => .inl ?_
  by_cases hji : j = i
  · subst hji
    simp only [State.setThief_thieves, Function.update_same] at hj
    simp [hj, Thief.claim] at hx
  · simpa [Function.update_noteq hji] using hj

/-- Thief `i` claims an index above the first of block `lo + 1` and searches
from `lo`. -/
theorem Frozen.setClaimed {s : BlockState V n} {lo : Nat} {r : Option Nat} (h : Frozen s lo r)
    (i : Fin n) {oldTop localBot : Nat} {g : GetTail} (hidx : (lo + 1) * 16384 < oldTop)
    (hg : FromTail lo g) : Frozen (s.setThief i (.claimed oldTop localBot g)) lo r := by
  refine h.of_eq rfl rfl le_rfl fun j _ _ _ hj => ?_
  by_cases hji : j = i
  · subst hji
    simp only [State.setThief_thieves, Function.update_same, Thief.claimed.injEq] at hj
    obtain ⟨rfl, rfl, rfl⟩ := hj
    exact .inr ⟨hidx, hg⟩
  · exact .inl (by simpa [Function.update_noteq hji] using hj)

theorem Frozen.record {s : BlockState V n} {lo : Nat} {r : Option Nat} (h : Frozen s lo r)
    (e : Event V) : Frozen (s.record e) lo r :=
  h.of_eq rfl rfl le_rfl fun _ _ _ _ hi => .inl hi

/-- Every step of the system keeps the tail frozen: the owner never writes
`tail` or `to_retire`, a thief that wins its CAS claims an index at or above
`top`, and a thief inside `get_tail` starts no retirement (`GetTail.step_past`). -/
theorem Frozen.step {s s' : BlockState V n} {a : Act V n} {lo : Nat} {r : Option Nat}
    (hr : Reachable (blocks V) s) (h : Frozen s lo r) (hs : step (blocks V) s a = some s') :
    Frozen s' lo r := by
  have htop : s.top ≤ s'.top := (top_bounds hr).1 a s' hs
  obtain ⟨lo', hi, hl⟩ := reachable_layout hr
  obtain rfl : lo = lo' := Option.some.inj (h.tail.symm.trans hl.chain.tail)
  cases a with
  | owner =>
    obtain ⟨ht, hret, -⟩ := ownerStep_frame hl (reachable_shape _ hr) hs
    exact h.of_eq ht hret htop fun i _ _ _ hi => .inl (by rwa [← ownerStep_thieves _ hs])
  | pushBottom v | popBottom =>
    cases hown : s.owner <;> simp only [Deque.step, hown, reduceCtorEq] at hs
    try split at hs
    all_goals
      simp only [Option.some.injEq] at hs
      subst hs
      exact h.of_eq rfl rfl le_rfl fun _ _ _ _ hi => .inl hi
  | popTop i =>
    cases hthief : s.thieves i <;>
      simp only [Deque.step, hthief, reduceCtorEq, Option.some.injEq] at hs
    subst hs
    exact h.setThief i (by rfl)
  | thief i =>
    simp only [Deque.step, Deque.thiefStep] at hs
    cases hthief : s.thieves i <;> simp only [hthief, reduceCtorEq, Option.map_eq_some'] at hs
    case loadedTop oldTop =>
      split at hs <;> [skip; split at hs] <;> simp only [Option.some.injEq] at hs <;> subst hs
      · exact h.setThief i (by rfl)
      · exact h.setThief i (by rfl)
      · exact (h.setThief i (by rfl)).record _
    case loadedBot oldTop localBot =>
      split at hs <;> simp only [Option.some.injEq] at hs <;> subst hs
      next hcas =>
        -- the CAS claims `top`, which lies above the first index of block `lo + 1`
        have hup : Frozen { s with top := oldTop + 1 } lo r :=
          h.of_eq rfl rfl (by simp; omega) fun _ _ _ _ hi => .inl hi
        exact hup.setClaimed i (hcas ▸ h.top) trivial
      · exact (h.setThief i (by rfl)).record _
    case claimed oldTop localBot g =>
      obtain ⟨⟨ca', r'⟩, hstep, rfl⟩ := hs
      obtain ⟨hidx, hg⟩ := h.readers i _ _ _ hthief
      obtain ⟨ht, hret, hg'⟩ := GetTail.step_past hl.chain hidx hg hstep
      have harr : Frozen (s.setArr ca') lo r := h.of_eq ht hret le_rfl fun _ _ _ _ hi => .inl hi
      cases r' with
      | inl g' => exact harr.setClaimed i hidx (hg' g' rfl)
      | inr v => exact (harr.setThief i (by rfl)).record _

/-- A frozen tail stays frozen over any interleaving. -/
theorem Frozen.run {s s' : BlockState V n} {acts : List (Act V n)} {lo : Nat} {r : Option Nat}
    (hr : Reachable (blocks V) s) (h : Frozen s lo r) (hrun : run (blocks V) s acts = some s') :
    Frozen s' lo r := by
  induction acts generalizing s with
  | nil => cases hrun; exact h
  | cons a acts ih =>
    obtain ⟨s₁, h₁, hrun⟩ := Option.bind_eq_some.1 hrun
    exact ih (hr.step h₁) (h.step hr h₁) hrun

/-- For a `Deque` on `continuous_array` with any number of thieves: once `top`
has passed the first index of the block right after the tail, in a state in
which no thief is inside `get_tail`, no interleaving ever moves the tail or
pushes a block onto `to_retire` again. Every index a thief claims from then on
lies above that first index, so `t->block_id == desired_block_id - 1` never
holds at offset `0`. -/
theorem tail_frozen {s : BlockState V n} {lo : Nat} (h : Reachable (blocks V) s)
    (ht : s.arr.tail = some lo) (htop : (lo + 1) * 16384 < s.top)
    (hfree : ∀ i, (s.thieves i).claim = none) :
    ∀ acts s', run (blocks V) s acts = some s' →
      s'.arr.tail = some lo ∧ s'.arr.toRetire = s.arr.toRetire := by
  have hf : Frozen s lo s.arr.toRetire :=
    ⟨ht, rfl, htop, fun i _ _ _ hi => by simpa [hi, Thief.claim] using hfree i⟩
  intro acts s' hrun
  have hf' := hf.run h hrun
  exact ⟨hf'.tail, hf'.toRetire⟩

/-! ## The owner alone gets there -/

section Rounds

variable {A R : Type} {S : Storage A V R}

theorem seqRun_append {s : State A V R n} {fuel : Nat} (cs ds : List (Op V n)) :
    seqRun S fuel s (cs ++ ds) = (seqRun S fuel s cs).bind fun s' => seqRun S fuel s' ds := by
  induction cs generalizing s with
  | nil => simp [seqRun]
  | cons c cs ih => simp [seqRun, ih, Option.bind_assoc]

end Rounds

/-- `push_bottom(v)`, then `pop_bottom()` on an empty deque: the owner takes its
element back with its CAS on `top`, so `top` moves up by one, and the tail
stays where it is. -/
theorem SeqInv.ownerRound {s : BlockState V n} {k fuel : Nat} (h : SeqInv s [] k) (v : V)
    (hf : k + 15 ≤ fuel) :
    ∃ s', seqRun (blocks V) fuel s [.pushBottom v, .popBottom] = some s' ∧ SeqInv s' [] (k + 2) ∧
      s'.top = s.top + 1 ∧ s'.arr.tail = s.arr.tail := by
  obtain ⟨lo, hi, hl⟩ := reachable_layout h.reachable
  have hsize : s.top = s.bot := by simpa using h.size
  obtain ⟨u, hu, huhi, hin⟩ := hl.inUse
  have hx := hl.extent
  simp only [h.owner, InUse, Owner.extent] at hin hx
  obtain ⟨ca', hi', hput, hc', -, -, hb, hinuse, -, -, -, -⟩ := putHead_chain v hl.chain hu huhi hin hx
  -- `push_bottom(v)` stores `v` at `bot`
  have hpush := seqCall_pushBottom (S := blocks V) h.owner hput (show 3 ≤ fuel by omega)
  obtain ⟨s₁, h₁, hinv₁, -⟩ := h.call (.pushBottom v) fuel (by omega)
  rw [hpush, Option.some.injEq] at h₁
  -- `pop_bottom()` finds `top = b` and wins its CAS
  have hget : getHead ca' s.bot = some ({ ca' with blockInUse := some (desiredBlockId s.bot) },
      ca'.value s.bot) := by
    refine getHead_chain (u := desiredBlockId s.bot) hc' hinuse (by rw [desiredBlockId_eq]; omega)
      (.inl rfl) ?_
    rcases hl.retired with h0 | hlt
    · omega
    · rw [desiredBlockId_eq]; omega
  have hpop := seqCall_popBottom_last (S := blocks V) (s := s₁) (by rw [← h₁]; exact h.owner)
    (by rw [← h₁]; simp [hsize]) (by rw [← h₁]; simpa using hget) (show 6 ≤ fuel by omega)
  obtain ⟨s₂, h₂, hinv₂, -⟩ := hinv₁.call .popBottom fuel (by omega)
  rw [hpop, Option.some.injEq] at h₂
  subst h₁ h₂
  refine ⟨_, ?_, by simpa [listOp] using hinv₂, by simp [hsize], by simp [hc'.tail, hl.chain.tail]⟩
  simp only [seqRun, hpush, hpop, Option.some_bind, List.append_assoc, List.singleton_append]

/-- `m` rounds of `push_bottom(v)` then `pop_bottom()` from an empty deque move
`top` up by `m` and leave the tail where it is. -/
theorem SeqInv.ownerRounds {s : BlockState V n} {k fuel : Nat} (h : SeqInv s [] k) (v : V)
    (m : Nat) (hf : k + 2 * m + 13 ≤ fuel) :
    ∃ s', seqRun (blocks V) fuel s (List.replicate m [.pushBottom v, .popBottom]).flatten = some s' ∧
      SeqInv s' [] (k + 2 * m) ∧ s'.top = s.top + m ∧ s'.arr.tail = s.arr.tail := by
  induction m generalizing s k with
  | zero => exact ⟨s, rfl, h, rfl, rfl⟩
  | succ m ih =>
    obtain ⟨s₁, h₁, hinv₁, htop₁, htail₁⟩ := h.ownerRound v (show k + 15 ≤ fuel by omega)
    obtain ⟨s', h', hinv', htop', htail'⟩ := ih (k := k + 2) hinv₁ (by omega)
    refine ⟨s', ?_, by rwa [show k + 2 * (m + 1) = k + 2 + 2 * m by omega], by omega,
      htail'.trans htail₁⟩
    rw [List.replicate_succ, List.flatten_cons, seqRun_append, h₁]
    exact h'

theorem tail_frozen_by_owner_rounds :
    ∃ s : BlockState Nat 1,
      seqRun (blocks Nat) 32783 (init (blocks Nat))
          (List.replicate 16385 [.pushBottom 7, .popBottom]).flatten = some s ∧
        Reachable (blocks Nat) s ∧ s.arr.tail = some 0 ∧ (0 + 1) * 16384 < s.top ∧
        (∀ i, (s.thieves i).claim = none) ∧
        ∀ acts s', run (blocks Nat) s acts = some s' →
          s'.arr.tail = some 0 ∧ s'.arr.toRetire = s.arr.toRetire := by
  obtain ⟨s, hrun, h, htop, htail⟩ :=
    (SeqInv.init : SeqInv (init (blocks Nat) : BlockState Nat 1) [] 0).ownerRounds 7 16385
      (show 0 + 2 * 16385 + 13 ≤ 32783 by norm_num)
  have hfree : ∀ i, (s.thieves i).claim = none := fun i => by simp [h.thieves i, Thief.claim]
  have htop' : (0 + 1) * 16384 < s.top := by rw [htop]; decide
  exact ⟨s, hrun, h.reachable, htail, htop', hfree, tail_frozen h.reachable htail htop' hfree⟩

end Parlay.Deque
