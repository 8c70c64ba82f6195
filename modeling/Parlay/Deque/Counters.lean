import Parlay.Deque.Blocks

/-!
# `bot` and `top` never wrap

`bot` and `top` are `std::atomic<uint64_t>`, and the three operations compute
`local_bot + 1`, `b + 1`, `t + 1` and `old_top + 1` from them; the model counts
with `Nat`. The two agree as long as no value reaches `2^64`. `bot` rises only
when a `push_bottom` stores `local_bot + 1`, and `top` only up to `bot + 1`, so
every value the code holds or computes is at most one more than the number of
`push_bottom` calls made so far. For any run with fewer than `2^64 - 1` pushes
the model computes what the code computes.

`continuous_array` numbers its blocks with `uint64_t` ids as well, and the
model counts them, and the addresses `malloc` returns, with `Nat`. A block is
allocated only by a `put_head` at the first index of the block after the head,
an index below the pushes made, so every id and address is at most the number
of pushes divided by the block size.

The largest value an operation in progress holds is its `mark`: `b + 1` for the
index `b` the owner works on, and `local_bot`, or `old_top` before it is
loaded, for a thief. The other values it holds or computes (`values`) lie
below the mark or `top`: `t ≤ b` in `pop_bottom`, and `old_top < local_bot` and
`old_top < top` in `pop_top`, so `old_top + 1` is within the pushes too.

Results:
1. `Counted.step`: every step keeps `bot` and every mark within the pushes made.
2. `counters_le_pushes`: in every reachable state, on any storage and for any
   number of thieves, `bot`, `top` and every value of an operation in progress
   are at most the number of pushes.
3. `putHead_currBlockId`: `put_head` is the only operation that moves
   `curr_block_id`, by one, at the first index of block `curr_block_id`.
4. `blockIds_le_pushes`: on `continuous_array`, for any number of thieves, the
   head block, and with it every block id and address, lies within the pushes
   made.
5. `Reachable.push`, `reachable_pushes`: the owner can push any number of
   elements; after `16385` pushes the head is block `1`.
-/

namespace Parlay.Deque

variable {A V R : Type} {n : Nat}

/-! ## Pushes and marks -/

/-- The number of `push_bottom` calls in a history. -/
def pushCount (h : List (Event V)) : Nat :=
  h.countP fun
    | .pushBottom _ => true
    | _ => false

/-- `b + 1` for the index `b` the owner's operation works on: the value
`push_bottom` stores to `bot`, the value `pop_bottom` restores, and the largest
value either computes. -/
def Owner.mark : Owner V → Nat
  | .idle => 0
  | .pushPut b _ | .pushStore b | .popStore b | .popLoadTop b | .popRead b _ | .popCas b _
  | .popRestore b _ => b + 1

/-- The largest value a thief's locals hold: `local_bot` once loaded, `old_top`
before. -/
def Thief.mark : Thief R → Nat
  | .loadedTop oldTop => oldTop
  | .loadedBot _ localBot | .claimed _ localBot _ => localBot
  | .idle | .assertFailed => 0

/-- The values the owner's operation holds in its locals or computes from them:
the index `b` it works on, `b + 1` (`local_bot + 1` in `push_bottom`; in
`pop_bottom` the `bot` it loaded, the value it restores, and `t + 1` when it
CASes `top` from `t = b`), and the `t` that `pop_bottom` loaded from `top`. -/
def Owner.values : Owner V → List Nat
  | .idle => []
  | .popRead b t => [b, t, b + 1]
  | .pushPut b _ | .pushStore b | .popStore b | .popLoadTop b | .popCas b _
  | .popRestore b _ => [b, b + 1]

/-- The values a thief's `pop_top` holds in its locals or computes from them:
`old_top` once loaded, then `local_bot` and `old_top + 1`, which it CASes `top`
to and compares `local_bot` with. -/
def Thief.values : Thief R → List Nat
  | .loadedTop oldTop => [oldTop]
  | .loadedBot oldTop localBot | .claimed oldTop localBot _ => [oldTop, localBot, oldTop + 1]
  | .idle | .assertFailed => []

@[simp] theorem pushCount_append (h l : List (Event V)) :
    pushCount (h ++ l) = pushCount h + pushCount l := by
  simp only [pushCount, List.countP_append]

/-- `bot` and the mark of every operation in progress lie within the pushes
made. -/
structure Counted (s : State A V R n) : Prop where
  bot : s.bot ≤ pushCount s.history
  owner : s.owner.mark ≤ pushCount s.history
  thieves : ∀ i, (s.thieves i).mark ≤ pushCount s.history

/-! ## What each kind of update keeps -/

section Frame

variable {s : State A V R n}

theorem Counted.setArr (h : Counted s) (a : A) : Counted (s.setArr a) :=
  ⟨h.bot, h.owner, h.thieves⟩

theorem Counted.withTop (h : Counted s) (t : Nat) : Counted { s with top := t } :=
  ⟨h.bot, h.owner, h.thieves⟩

theorem Counted.withBot (h : Counted s) {b : Nat} (hb : b ≤ pushCount s.history) :
    Counted { s with bot := b } :=
  ⟨hb, h.owner, h.thieves⟩

theorem Counted.setOwner (h : Counted s) {o : Owner V} (ho : o.mark ≤ pushCount s.history) :
    Counted (s.setOwner o) :=
  ⟨h.bot, ho, h.thieves⟩

theorem Counted.setThief (h : Counted s) (i : Fin n) {t : Thief R}
    (ht : t.mark ≤ pushCount s.history) : Counted (s.setThief i t) := by
  refine ⟨h.bot, h.owner, fun j => ?_⟩
  by_cases hj : j = i
  · subst hj
    simpa using ht
  · simpa [Function.update_noteq hj] using h.thieves j

theorem Counted.record (h : Counted s) (e : Event V) : Counted (s.record e) := by
  have hc : pushCount s.history ≤ pushCount (s.record e).history := by simp
  exact ⟨h.bot.trans hc, h.owner.trans hc, fun i => (h.thieves i).trans hc⟩

/-- `push_bottom(v)` is called: its mark `bot + 1` is paid for by the call. -/
theorem Counted.push (h : Counted s) (v : V) :
    Counted ((s.setOwner (.pushPut s.bot v)).record (.pushBottom v)) := by
  have hc : pushCount (((s.setOwner (.pushPut s.bot v)).record (.pushBottom v)).history) =
      pushCount s.history + 1 := by simp [pushCount]
  refine ⟨?_, ?_, fun i => ?_⟩ <;> simp only [hc]
  · exact Nat.le_succ_of_le h.bot
  · simpa [Owner.mark] using h.bot
  · simpa using Nat.le_succ_of_le (h.thieves i)

/-- `top` is below the mark of a `pop_bottom` in progress, and below `bot`
otherwise. -/
theorem Counted.top_le (hs : Shape s) (h : Counted s) : s.top ≤ pushCount s.history := by
  have hb := h.bot
  have ho := h.owner
  have hso := hs.owner
  cases hown : s.owner <;> simp only [hown, OwnerOk, Owner.mark] at ho hso <;> omega

/-- The owner's values are at most its mark: `t ≤ b` once `pop_bottom` has
read `top`. -/
theorem OwnerOk.values_le {bot top : Nat} {o : Owner V} (h : OwnerOk bot top o) :
    ∀ x ∈ o.values, x ≤ o.mark := by
  cases o <;> simp [OwnerOk, Owner.values, Owner.mark] at h ⊢
  -- what is left is `t ≤ b + 1` in `popRead b t`
  omega

/-- A thief's values are at most its mark or `top`: `old_top < local_bot`
before the CAS, and `old_top < top` after a winning one. -/
theorem ThiefOk.values_le {top bot : Nat} {o : Owner V} {t : Thief R} (h : ThiefOk top bot o t) :
    ∀ x ∈ t.values, x ≤ max t.mark top := by
  cases t <;> simp [ThiefOk, Thief.values, Thief.mark] at h ⊢ <;> omega

end Frame

/-! ## Every step keeps the bounds -/

section Steps

variable (S : Storage A V R)

theorem Counted.ownerStep {s s' : State A V R n} (h : Counted s)
    (hs : ownerStep S s = some s') : Counted s' := by
  have ho := h.owner
  unfold Deque.ownerStep at hs
  cases hown : s.owner with
  | idle => simp [hown] at hs
  | pushPut b v =>
    simp only [hown, Owner.mark, Option.map_eq_some'] at hs ho
    obtain ⟨a, -, rfl⟩ := hs
    exact (h.setArr a).setOwner ho
  | pushStore b =>
    simp only [hown, Owner.mark, Option.some.injEq] at hs ho
    subst hs
    exact (h.withBot ho).setOwner (Nat.zero_le _)
  | popStore b =>
    simp only [hown, Owner.mark, Option.some.injEq] at hs ho
    subst hs
    exact (h.withBot (by omega)).setOwner ho
  | popLoadTop b =>
    simp only [hown, Owner.mark] at hs ho
    split at hs <;> simp only [Option.some.injEq] at hs <;> subst hs <;> exact h.setOwner ho
  | popRead b t =>
    simp only [hown, Owner.mark, Option.map_eq_some'] at hs ho
    obtain ⟨⟨a, val⟩, -, rfl⟩ := hs
    split_ifs
    · exact (h.setArr a).setOwner ho
    · exact ((h.setArr a).setOwner (Nat.zero_le _)).record _
  | popCas b val =>
    simp only [hown, Owner.mark] at hs ho
    split at hs <;> simp only [Option.some.injEq] at hs <;> subst hs
    · exact (h.withTop _).setOwner ho
    · exact h.setOwner ho
  | popRestore b val =>
    simp only [hown, Owner.mark, Option.some.injEq] at hs ho
    subst hs
    exact ((h.withBot ho).setOwner (Nat.zero_le _)).record _

theorem Counted.thiefStep {s s' : State A V R n} {i : Fin n} (h : Counted s)
    (hs : thiefStep S s i = some s') : Counted s' := by
  have hti := h.thieves i
  unfold Deque.thiefStep at hs
  cases hthief : s.thieves i with
  | idle | assertFailed => simp [hthief] at hs
  | loadedTop oldTop =>
    simp only [hthief] at hs
    split at hs <;> [skip; split at hs] <;> simp only [Option.some.injEq] at hs <;> subst hs
    · exact h.setThief i (Nat.zero_le _)
    · exact h.setThief i h.bot
    · exact (h.setThief i (Nat.zero_le _)).record _
  | loadedBot oldTop localBot =>
    simp only [hthief, Thief.mark] at hs hti
    split at hs <;> simp only [Option.some.injEq] at hs <;> subst hs
    · exact (h.withTop _).setThief i hti
    · exact (h.setThief i (Nat.zero_le _)).record _
  | claimed oldTop localBot r =>
    simp only [hthief, Thief.mark, Option.map_eq_some'] at hs hti
    obtain ⟨⟨a, next | val⟩, -, rfl⟩ := hs
    · exact (h.setArr a).setThief i hti
    · exact ((h.setArr a).setThief i (Nat.zero_le _)).record _

/-- Every step keeps `bot` and the mark of every operation within the pushes
made: a new operation starts from `bot` or `top`, which are within them. -/
theorem Counted.step {s s' : State A V R n} {a : Act V n} (hsh : Shape s) (h : Counted s)
    (hs : step S s a = some s') : Counted s' := by
  cases a with
  | owner => exact h.ownerStep S hs
  | thief i => exact h.thiefStep S hs
  | pushBottom v =>
    cases hown : s.owner <;> simp only [Deque.step, hown, reduceCtorEq, Option.some.injEq] at hs
    subst hs
    exact h.push v
  | popBottom =>
    cases hown : s.owner <;> simp only [Deque.step, hown, reduceCtorEq] at hs
    split at hs <;> simp only [Option.some.injEq] at hs <;> subst hs
    · exact h.record _
    · exact h.setOwner (by simp only [Owner.mark]; have := h.bot; omega)
  | popTop i =>
    cases hthief : s.thieves i <;>
      simp only [Deque.step, hthief, reduceCtorEq, Option.some.injEq] at hs
    subst hs
    exact h.setThief i (h.top_le hsh)

end Steps

theorem reachable_counted {S : Storage A V R} {s : State A V R n} (h : Reachable S s) :
    Counted s := by
  induction h with
  | init => exact ⟨le_refl 0, le_refl 0, fun _ => le_refl 0⟩
  | step hr hs ih => exact ih.step S (reachable_shape S hr) hs

/-- In every reachable state, on any storage and for any number of thieves,
`bot`, `top`, and every value an operation in progress holds or computes (the
owner's `b`, `t` and `b + 1`, and each thief's `old_top`, `local_bot` and
`old_top + 1`) are at most the number of `push_bottom` calls made. The other
values the code computes, `bot + 1` and `top + 1`, are at most one more, so the
`uint64_t` counters never wrap in a run with fewer than `2^64 - 1` pushes. -/
theorem counters_le_pushes {S : Storage A V R} {s : State A V R n} (h : Reachable S s) :
    s.bot ≤ pushCount s.history ∧ s.top ≤ pushCount s.history ∧
      (∀ x ∈ s.owner.values, x ≤ pushCount s.history) ∧
      ∀ i, ∀ x ∈ (s.thieves i).values, x ≤ pushCount s.history := by
  have hc := reachable_counted h
  have hsh := reachable_shape S h
  have htop := hc.top_le hsh
  refine ⟨hc.bot, htop, fun x hx => (hsh.owner.values_le x hx).trans hc.owner, fun i x hx => ?_⟩
  have hx := (hsh.thief i).values_le x hx
  have hi := hc.thieves i
  omega

/-- After one push a thief has loaded `top = 0` and `bot = 1`: it will CAS
`top` to `old_top + 1 = 1`, the one push made. -/
theorem counters_le_pushes_steal :
    let acts : List (Act Nat 1) := [.pushBottom 7, .owner, .owner, .popTop 0, .thief 0]
    ∃ s, run (ideal Nat) (init (ideal Nat)) acts = some s ∧ s.thieves 0 = .loadedBot 0 1 ∧
      s.bot ≤ pushCount s.history ∧ s.top ≤ pushCount s.history ∧
      (∀ x ∈ s.owner.values, x ≤ pushCount s.history) ∧
      ∀ i, ∀ x ∈ (s.thieves i).values, x ≤ pushCount s.history := by
  intro acts
  exact ⟨_, rfl, rfl, counters_le_pushes (@Reachable.run _ _ _ _ (ideal Nat) _ _ acts Reachable.init rfl)⟩

end Parlay.Deque

/-! ## Block ids -/

namespace Parlay.ContinuousArray

variable {T : Type}

/-- A write through a pointer keeps `curr_block_id`. -/
theorem CA.set_currBlockId {ca ca' : CA T} {p : Option Nat} {f : Block T → Block T}
    (h : ca.set p f = some ca') : ca'.currBlockId = ca.currBlockId := by
  cases p with
  | none => cases h
  | some p =>
    obtain ⟨_, -, rfl⟩ := Option.map_eq_some'.1 h
    rfl

@[simp] theorem CA.check_currBlockId (ca : CA T) (c : Prop) [Decidable c] (f : Check) :
    (ca.check c f).currBlockId = ca.currBlockId := by unfold CA.check; split_ifs <;> rfl

/-- `get_block()` takes a block from the reuse list or `malloc`; neither
numbers it. -/
theorem getBlock_currBlockId {ca ca' : CA T} {b : Nat} (h : getBlock ca = some (ca', b)) :
    ca'.currBlockId = ca.currBlockId := by
  unfold getBlock popReuseBlock at h
  split at h
  · cases h; rfl
  · simp only [Option.bind_eq_bind, Option.bind_eq_some, Option.map_eq_some'] at h
    obtain ⟨_, ⟨_, -, rfl⟩, h⟩ := h
    cases h; rfl

/-- `ca_alloc()` gives its block the next id: `curr_block_id++`. -/
theorem caAlloc_currBlockId {ca ca' : CA T} (h : caAlloc ca = some ca') :
    ca'.currBlockId = ca.currBlockId + 1 := by
  simp only [caAlloc, Option.bind_eq_bind, Option.bind_eq_some, Option.pure_def,
    Option.some.injEq] at h
  obtain ⟨⟨ca₁, nb⟩, h₁, ca₂, h₂, ca₃, h₃, rfl⟩ := h
  rw [← getBlock_currBlockId h₁, ← CA.set_currBlockId h₂, CA.set_currBlockId h₃]

/-- `put_head(b, v)` moves `curr_block_id` only through `ca_alloc()`, at the
first index of block `curr_block_id`. -/
theorem putHead_currBlockId {ca ca' : CA T} {b : Nat} {v : T} (h : putHead ca b v = some ca') :
    ca'.currBlockId = ca.currBlockId ∨
      (offset b = 0 ∧ desiredBlockId b = ca.currBlockId ∧ ca'.currBlockId = ca.currBlockId + 1) := by
  unfold putHead at h
  by_cases ho : offset b = 0
  · by_cases hc : ca.currBlockId = desiredBlockId b
    · -- `ca_alloc()` appends a block with the next id
      simp only [ho, hc, if_true, Option.bind_eq_bind, Option.bind_eq_some, Option.pure_def,
        Option.some.injEq] at h
      obtain ⟨ca₁, h₁, _, -, _, rfl, _, -, h⟩ := h
      refine .inr ⟨ho, hc.symm, ?_⟩
      simp only [CA.set_currBlockId h, CA.check_currBlockId, apply_ite CA.currBlockId, ite_self,
        caAlloc_currBlockId h₁]
    · simp only [ho, hc, if_true, if_false, Option.bind_eq_bind, Option.bind_eq_some,
        Option.pure_def, Option.some.injEq, Option.some_bind] at h
      obtain ⟨_, -, _, -, h⟩ := h
      simp only [CA.set_currBlockId h, CA.check_currBlockId, apply_ite CA.currBlockId, ite_self,
        true_or]
  · simp only [ho, if_false, Option.bind_eq_bind, Option.bind_eq_some, Option.pure_def,
      Option.some.injEq, Option.some_bind] at h
    obtain ⟨_, -, h⟩ := h
    simp only [CA.set_currBlockId h, CA.check_currBlockId, true_or]

/-- `get_head` and each step of `get_tail` and `ca_retire_last_block` allocate
nothing. -/
theorem getHead_currBlockId {ca ca' : CA T} {b : Nat} {v : Option T}
    (h : getHead ca b = some (ca', v)) : ca'.currBlockId = ca.currBlockId := by
  simp only [getHead, Option.bind_eq_bind, Option.bind_eq_some, Option.pure_def, Option.some.injEq,
    Prod.mk.injEq] at h
  obtain ⟨_, -, _, -, rfl, -⟩ := h
  simp only [CA.check_currBlockId, apply_ite CA.currBlockId, ite_self]

theorem Retire.step_currBlockId {ca ca' : CA T} {r : Retire} {r' : Option Retire}
    (h : r.step ca = some (ca', r')) : ca'.currBlockId = ca.currBlockId := by
  cases r with
  | loadTail => cases h; rfl
  | loadNext old =>
    obtain ⟨_, -, he⟩ := Option.map_eq_some'.1 h
    cases he; simp
  | cas old next => simp only [Retire.step] at h; split_ifs at h <;> cases h <;> rfl
  | recheck old next =>
    simp only [Retire.step, Option.bind_eq_bind, Option.bind_eq_some] at h
    obtain ⟨_, -, _, -, he⟩ := h
    split_ifs at he <;> cases he <;> rfl
  | checkYounger old =>
    simp only [Retire.step, Option.bind_eq_bind, Option.bind_eq_some] at h
    obtain ⟨_, -, _, -, he⟩ := h
    cases he; simp
  | link old =>
    obtain ⟨_, hset, he⟩ := Option.map_eq_some'.1 h
    cases he; exact CA.set_currBlockId hset
  | push old expected => simp only [Retire.step] at h; split_ifs at h <;> cases h <;> rfl

theorem GetTail.step_currBlockId {ca ca' : CA T} {index : Nat} {g : GetTail}
    {r : GetTail ⊕ Option T} (h : g.step ca index = some (ca', r)) :
    ca'.currBlockId = ca.currBlockId := by
  cases g with
  | loadTail => cases h; rfl
  | forward t b | backward t b =>
    cases b with
    | none => cases h; rfl
    | some p =>
      obtain ⟨_, -, he⟩ := Option.map_eq_some'.1 h
      split_ifs at he <;> cases he <;> rfl
  | found t b =>
    cases b with
    | none => cases h
    | some p =>
      simp only [GetTail.step, Option.bind_eq_bind, Option.bind_eq_some] at h
      obtain ⟨_, -, he⟩ := h
      split_ifs at he
      · obtain ⟨_, -, he⟩ := Option.bind_eq_some.1 he
        split_ifs at he <;> cases he <;> simp
      · cases he; simp
  | retire p r0 =>
    obtain ⟨⟨ca₁, _⟩, hstep, he⟩ := Option.map_eq_some'.1 h
    cases he
    exact Retire.step_currBlockId hstep
  | read p =>
    obtain ⟨_, -, he⟩ := Option.map_eq_some'.1 h
    cases he; rfl

end Parlay.ContinuousArray

namespace Parlay.Deque

open ContinuousArray

variable {A V R : Type} {n : Nat}

/-- A step of the owner only appends to the history. -/
theorem ownerStep_history {S : Storage A V R} {s s' : State A V R n} (hs : ownerStep S s = some s') :
    s.history <+: s'.history := by
  unfold Deque.ownerStep at hs
  cases hown : s.owner <;> simp only [hown, reduceCtorEq, Option.map_eq_some'] at hs
  case pushPut | popRead =>
    obtain ⟨_, -, rfl⟩ := hs
    try split_ifs
    all_goals simp
  all_goals
    try split at hs
    all_goals simp only [Option.some.injEq] at hs; subst hs; simp

/-- A step of a thief only appends to the history. -/
theorem thiefStep_history {S : Storage A V R} {s s' : State A V R n} {i : Fin n}
    (hs : thiefStep S s i = some s') : s.history <+: s'.history := by
  unfold Deque.thiefStep at hs
  cases hthief : s.thieves i <;> simp only [hthief, reduceCtorEq, Option.map_eq_some'] at hs
  case claimed =>
    obtain ⟨⟨_, _ | _⟩, -, rfl⟩ := hs <;> simp
  all_goals
    repeat' split at hs
    all_goals simp only [Option.some.injEq] at hs; subst hs; simp

/-- The history is a log: every step appends to it. -/
theorem step_history {S : Storage A V R} {s s' : State A V R n} {a : Act V n}
    (hs : step S s a = some s') : s.history <+: s'.history := by
  cases a with
  | owner => exact ownerStep_history hs
  | thief i => exact thiefStep_history hs
  | pushBottom v | popBottom =>
    cases hown : s.owner <;> simp only [Deque.step, hown, reduceCtorEq] at hs
    try split at hs
    all_goals simp only [Option.some.injEq] at hs; subst hs; simp
  | popTop i =>
    cases hthief : s.thieves i <;>
      simp only [Deque.step, hthief, reduceCtorEq, Option.some.injEq] at hs
    subst hs
    simp

/-- On `continuous_array`, `curr_block_id` moves only when the owner's
`put_head(b, v)` allocates the block of `b`, at its first index. -/
theorem step_currBlockId {s s' : BlockState V n} {a : Act V n} (hs : step (blocks V) s a = some s') :
    s'.arr.currBlockId = s.arr.currBlockId ∨
      ∃ b v, s.owner = .pushPut b v ∧ offset b = 0 ∧ desiredBlockId b = s.arr.currBlockId ∧
        s'.arr.currBlockId = s.arr.currBlockId + 1 := by
  cases a with
  | owner =>
    unfold Deque.step Deque.ownerStep at hs
    cases hown : s.owner <;> simp only [hown, reduceCtorEq, Option.map_eq_some'] at hs
    case pushPut b v =>
      obtain ⟨ca', hput, rfl⟩ := hs
      rcases putHead_currBlockId hput with h | ⟨ho, hd, hc⟩
      · exact .inl h
      · exact .inr ⟨b, v, rfl, ho, hd, hc⟩
    case popRead b t =>
      obtain ⟨⟨ca', v⟩, hget, rfl⟩ := hs
      left
      split_ifs <;> exact getHead_currBlockId hget
    all_goals
      left
      try split at hs
      all_goals simp only [Option.some.injEq] at hs; subst hs; rfl
  | thief i =>
    left
    unfold Deque.step Deque.thiefStep at hs
    cases hthief : s.thieves i <;> simp only [hthief, reduceCtorEq, Option.map_eq_some'] at hs
    case claimed =>
      obtain ⟨⟨ca', _ | _⟩, hstep, rfl⟩ := hs <;> exact GetTail.step_currBlockId hstep
    all_goals
      repeat' split at hs
      all_goals simp only [Option.some.injEq] at hs; subst hs; rfl
  | pushBottom v | popBottom =>
    left
    cases hown : s.owner <;> simp only [Deque.step, hown, reduceCtorEq] at hs
    try split at hs
    all_goals simp only [Option.some.injEq] at hs; subst hs; rfl
  | popTop i =>
    left
    cases hthief : s.thieves i <;>
      simp only [Deque.step, hthief, reduceCtorEq, Option.some.injEq] at hs
    subst hs
    rfl

/-- The block before `curr_block_id` starts at an index a `push_bottom` has
written. -/
def IdsCounted (s : BlockState V n) : Prop :=
  (s.arr.currBlockId - 1) * 16384 ≤ pushCount s.history

/-- A step keeps the ids within the pushes: the history only grows, and a new
block starts at the index the push in progress writes, which is below the
pushes made. -/
theorem IdsCounted.step {s s' : BlockState V n} {a : Act V n} (hc : Counted s) (h : IdsCounted s)
    (hs : step (blocks V) s a = some s') : IdsCounted s' := by
  obtain ⟨l, hl⟩ := step_history hs
  have hle : pushCount s.history ≤ pushCount s'.history := by
    rw [← hl, pushCount_append]
    exact Nat.le_add_right _ _
  unfold IdsCounted at h ⊢
  rcases step_currBlockId hs with heq | ⟨b, v, hown, ho, hd, hcurr⟩
  · rw [heq]
    exact h.trans hle
  · have hm := hc.owner
    simp only [hown, Owner.mark] at hm
    rw [offset_eq] at ho
    rw [desiredBlockId_eq] at hd
    rw [hcurr, Nat.add_sub_cancel, ← hd]
    omega

/-- In every reachable state of the deque on `continuous_array`, for any number
of thieves, the blocks form a chain up to a head block `hi` whose first index
lies within the pushes made. Every block id is at most `hi`,
`curr_block_id` is `hi + 1`, and `malloc` has returned the addresses up to
`hi`, so none of these `uint64_t` values wraps in a run with fewer than
`2^64 - 1` pushes. -/
theorem blockIds_le_pushes {s : BlockState V n} (h : Reachable (blocks V) s) :
    ∃ lo hi, Chain s.arr lo hi ∧ hi * 16384 ≤ pushCount s.history := by
  have hids : IdsCounted s := by
    induction h with
    | init => simp only [IdsCounted, Deque.init, blocks_empty, Chain.create.curr, Nat.sub_self,
        Nat.zero_mul, Nat.zero_le]
    | step hr hs ih => exact ih.step (reachable_counted hr) hs
  obtain ⟨lo, hi, hl⟩ := reachable_layout h
  refine ⟨lo, hi, hl.chain, ?_⟩
  have hcurr := hl.chain.curr
  unfold IdsCounted at hids
  rwa [hcurr, Nat.add_sub_cancel] at hids

/-- The owner can always run a `push_bottom` to its end: from a reachable
state with the owner idle, `push_bottom(v)` is called, `put_head` succeeds and
`bot` is stored. -/
theorem Reachable.push {s : BlockState V n} (h : Reachable (blocks V) s) (ho : s.owner = .idle)
    (v : V) : ∃ s' : BlockState V n, Reachable (blocks V) s' ∧ s'.owner = .idle ∧
      s'.bot = s.bot + 1 ∧ pushCount s'.history = pushCount s.history + 1 := by
  have h₁ : Reachable (blocks V) ((s.setOwner (.pushPut s.bot v)).record (.pushBottom v)) :=
    h.step (a := .pushBottom v) (by simp [Deque.step, ho])
  obtain ⟨lo, hi, hl⟩ := reachable_layout h₁
  obtain ⟨s₂, -, hs₂, -⟩ := hl.ownerStep_some (reachable_shape _ h₁) (by simp)
  have h₂ := h₁.step (a := .owner) hs₂
  obtain ⟨a, -, rfl⟩ := Option.map_eq_some'.1 hs₂
  exact ⟨_, h₂.step (a := .owner) rfl, rfl, rfl, by simp [pushCount]⟩

/-- Any number of pushes: for every `k` a reachable state with the owner idle,
`bot = k` and `k` pushes made. -/
theorem reachable_pushes (v : V) : ∀ k, ∃ s : BlockState V n, Reachable (blocks V) s ∧
    s.owner = .idle ∧ s.bot = k ∧ pushCount s.history = k
  | 0 => ⟨_, .init, rfl, rfl, rfl⟩
  | k + 1 => by
    obtain ⟨s, h, ho, hb, hp⟩ := reachable_pushes v k
    obtain ⟨s', h', ho', hb', hp'⟩ := h.push ho v
    exact ⟨s', h', ho', by omega, by omega⟩

/-- After `16385` pushes the chain has two blocks: the head is block `1`, the
block of index `16384`, and `1 * 16384` is within the pushes. -/
theorem blockIds_le_pushes_two_blocks :
    ∃ s : BlockState Nat 1, Reachable (blocks Nat) s ∧ pushCount s.history = 16385 ∧
      s.arr.head = some 1 ∧ ∃ lo hi, Chain s.arr lo hi ∧ hi * 16384 ≤ pushCount s.history := by
  obtain ⟨s, h, ho, hb, hp⟩ := reachable_pushes (n := 1) 7 16385
  obtain ⟨lo, hi, hc, hle⟩ := blockIds_le_pushes h
  obtain ⟨lo', hi', hl⟩ := reachable_layout h
  have hhi : hi' = hi := Option.some.inj (hl.chain.head.symm.trans hc.head)
  have hx := hl.extent
  simp only [ho, hb, Owner.extent] at hx
  refine ⟨s, h, hp, ?_, lo, hi, hc, hle⟩
  rw [hc.head, show hi = 1 by omega]

end Parlay.Deque
