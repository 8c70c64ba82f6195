import Parlay.Deque.Blocks
import Parlay.ContinuousArray.Teardown

/-!
# Calls one at a time

Each call of `push_bottom`, `pop_bottom` or `pop_top` runs from its invocation
to its return before the next call starts (`seqCall`, `seqRun`): the
interleaving model restricted to runs without overlap. On `continuous_array`
the calls then behave as the list deque of the spec (`listOp`), across any
number of block boundaries in either direction and any number of retirements.

Results:
1. The calls one at a time, for any storage: `seqCall_pushBottom`,
   `seqCall_popBottom_last`, `seqCall_popBottom_more`, `seqCall_popTop_claim`
   and the calls on an empty deque.
2. `seqCall_popTop`: on `continuous_array`, a `pop_top` whose index lies in a
   block at or above the tail reads that index, retiring the tail when the
   index starts the next block.
3. `sequential_refines_list`: from `Deque()`, every sequence of calls returns
   what the list deque returns, given fuel for the longest search.
4. `sequential_destroy_frees_each_block_once`: after such calls the destructor
   frees every block once, the retired ones included.
-/

namespace Parlay.Deque

open ContinuousArray

/-! ## Running calls to their end -/

section Drivers

variable {A V R : Type} {n : Nat} (S : Storage A V R)

/-- Runs the owner's operation to its return, at most `fuel` steps. -/
def ownerRun : Nat → State A V R n → Option (State A V R n)
  | 0, _ => none
  | fuel + 1, s =>
    match s.owner with
    | .idle => some s
    | _ => (ownerStep S s).bind (ownerRun fuel)

/-- Runs thief `i`'s `pop_top` to its return, at most `fuel` steps. -/
def thiefRun (i : Fin n) : Nat → State A V R n → Option (State A V R n)
  | 0, _ => none
  | fuel + 1, s =>
    match s.thieves i with
    | .idle => some s
    | _ => (thiefStep S s i).bind (thiefRun i fuel)

/-- A call of the deque's interface; thief `i` makes a `pop_top`. -/
inductive Op (V : Type) (n : Nat) where
  | pushBottom (v : V)
  | popBottom
  | popTop (i : Fin n)

/-- A call made while no other call is in progress, run to its return. -/
def seqCall (fuel : Nat) (s : State A V R n) : Op V n → Option (State A V R n)
  | .pushBottom v => (step S s (.pushBottom v)).bind (ownerRun S fuel)
  | .popBottom => (step S s .popBottom).bind (ownerRun S fuel)
  | .popTop i => (step S s (.popTop i)).bind (thiefRun S i fuel)

/-- Calls one after the other. -/
def seqRun (fuel : Nat) : State A V R n → List (Op V n) → Option (State A V R n)
  | s, [] => some s
  | s, c :: cs => (seqCall S fuel s c).bind fun s' => seqRun fuel s' cs

variable {S}

theorem Reachable.ownerRun {s s' : State A V R n} {fuel : Nat} (h : Reachable S s)
    (hr : ownerRun S fuel s = some s') : Reachable S s' := by
  induction fuel generalizing s with
  | zero => cases hr
  | succ fuel ih =>
    unfold Deque.ownerRun at hr
    split at hr
    · cases hr; exact h
    · obtain ⟨s₁, h₁, hr⟩ := Option.bind_eq_some.1 hr
      exact ih (h.step (a := .owner) h₁) hr

theorem Reachable.thiefRun {s s' : State A V R n} {i : Fin n} {fuel : Nat} (h : Reachable S s)
    (hr : thiefRun S i fuel s = some s') : Reachable S s' := by
  induction fuel generalizing s with
  | zero => cases hr
  | succ fuel ih =>
    unfold Deque.thiefRun at hr
    split at hr
    · cases hr; exact h
    · obtain ⟨s₁, h₁, hr⟩ := Option.bind_eq_some.1 hr
      exact ih (h.step (a := .thief i) h₁) hr

theorem Reachable.seqCall {s s' : State A V R n} {fuel : Nat} {c : Op V n} (h : Reachable S s)
    (hr : seqCall S fuel s c = some s') : Reachable S s' := by
  cases c <;> obtain ⟨s₁, h₁, hr⟩ := Option.bind_eq_some.1 hr
  · exact (h.step h₁).ownerRun hr
  · exact (h.step h₁).ownerRun hr
  · exact (h.step h₁).thiefRun hr

theorem Reachable.seqRun {s s' : State A V R n} {fuel : Nat} {cs : List (Op V n)}
    (h : Reachable S s) (hr : seqRun S fuel s cs = some s') : Reachable S s' := by
  induction cs generalizing s with
  | nil => cases hr; exact h
  | cons c cs ih =>
    obtain ⟨s₁, h₁, hr⟩ := Option.bind_eq_some.1 hr
    exact ih (h.seqCall h₁) hr

/-! ## Each call on its own -/

variable {s : State A V R n} {fuel : Nat}

theorem seqCall_pushBottom {v : V} {a : A} (ho : s.owner = .idle)
    (hput : S.putHead s.arr s.bot v = some a) (hf : 3 ≤ fuel) :
    seqCall S fuel s (.pushBottom v) =
      some { s with bot := s.bot + 1, arr := a, history := s.history ++ [.pushBottom v] } := by
  obtain ⟨F, rfl⟩ : ∃ F, fuel = F + 3 := ⟨fuel - 3, by omega⟩
  obtain ⟨bot, top, arr, owner, thieves, history⟩ := s
  simp only at ho hput
  subst ho
  simp only [seqCall, Deque.step, ownerRun, Deque.ownerStep, State.setOwner, State.record,
    State.setArr, hput, Option.map_some', Option.some_bind]

theorem seqCall_popBottom_zero (ho : s.owner = .idle) (hb : s.bot = 0) (hf : 1 ≤ fuel) :
    seqCall S fuel s .popBottom = some (s.record (.popBottom none)) := by
  obtain ⟨F, rfl⟩ : ∃ F, fuel = F + 1 := ⟨fuel - 1, by omega⟩
  simp [seqCall, Deque.step, ownerRun, ho, hb]

/-- `pop_bottom` on an empty deque with `bot > 0`: it stores `bot - 1`, finds
`top` above, and restores `bot`. -/
theorem seqCall_popBottom_empty (ho : s.owner = .idle) (hb : 0 < s.bot) (ht : s.bot ≤ s.top)
    (hf : 4 ≤ fuel) : seqCall S fuel s .popBottom = some (s.record (.popBottom none)) := by
  obtain ⟨F, rfl⟩ : ∃ F, fuel = F + 4 := ⟨fuel - 4, by omega⟩
  obtain ⟨bot, top, arr, owner, thieves, history⟩ := s
  simp only at ho hb ht
  subst ho
  simp only [seqCall, Deque.step, ownerRun, Deque.ownerStep, State.setOwner, State.record,
    show ¬ top ≤ bot - 1 by omega, Nat.sub_add_cancel hb, Nat.pos_iff_ne_zero.1 hb, if_false,
    Option.some_bind]

/-- `pop_bottom` on the last element: it wins its CAS on `top` against no one. -/
theorem seqCall_popBottom_last {a : A} {val : Option V} (ho : s.owner = .idle)
    (ht : s.top + 1 = s.bot) (hget : S.getHead s.arr (s.bot - 1) = some (a, val)) (hf : 6 ≤ fuel) :
    seqCall S fuel s .popBottom =
      some { s with top := s.bot, arr := a, history := s.history ++ [.popBottom val] } := by
  obtain ⟨F, rfl⟩ : ∃ F, fuel = F + 6 := ⟨fuel - 6, by omega⟩
  obtain ⟨bot, top, arr, owner, thieves, history⟩ := s
  simp only at ho ht hget ⊢
  subst ho ht
  rw [Nat.add_sub_cancel] at hget
  simp only [seqCall, Deque.step, ownerRun, Deque.ownerStep, State.setOwner, State.record,
    State.setArr, hget, Option.map_some', Option.some_bind, Nat.add_one_ne_zero, if_false,
    Nat.add_sub_cancel, le_refl, if_true, List.append_assoc, List.singleton_append]

/-- `pop_bottom` with two elements or more: it reads the bottom one. -/
theorem seqCall_popBottom_more {a : A} {val : Option V} (ho : s.owner = .idle)
    (ht : s.top + 1 < s.bot) (hget : S.getHead s.arr (s.bot - 1) = some (a, val)) (hf : 4 ≤ fuel) :
    seqCall S fuel s .popBottom =
      some { s with bot := s.bot - 1, arr := a, history := s.history ++ [.popBottom val] } := by
  obtain ⟨F, rfl⟩ : ∃ F, fuel = F + 4 := ⟨fuel - 4, by omega⟩
  obtain ⟨bot, top, arr, owner, thieves, history⟩ := s
  simp only at ho ht hget ⊢
  subst ho
  simp only [seqCall, Deque.step, ownerRun, Deque.ownerStep, State.setOwner, State.record,
    State.setArr, hget, show bot ≠ 0 by omega, show top ≤ bot - 1 by omega,
    show top ≠ bot - 1 by omega, if_false, if_true, Option.map_some', Option.some_bind]

/-- `pop_top` on an empty deque. -/
theorem seqCall_popTop_empty {i : Fin n} (hi : s.thieves i = .idle) (ht : s.bot ≤ s.top)
    (hb : s.top ≤ s.bot + 1) (hf : 2 ≤ fuel) :
    seqCall S fuel s (.popTop i) = some (s.record (.popTop none true)) := by
  obtain ⟨F, rfl⟩ : ∃ F, fuel = F + 2 := ⟨fuel - 2, by omega⟩
  obtain ⟨bot, top, arr, owner, thieves, history⟩ := s
  simp only at hi ht hb ⊢
  simp only [seqCall, Deque.step, thiefRun, Deque.thiefStep, State.setThief, State.record, hi,
    show ¬ bot + 1 < top by omega, show ¬ top < bot by omega, if_false, Option.some_bind,
    Function.update_same, Function.update_idem]
  rw [← hi, Function.update_eq_self]

/-- Thief `i` calls `pop_top` on a non-empty deque, wins its CAS and stops
before its first step inside `get_tail(top)`. -/
theorem run_claim {i : Fin n} (hi : s.thieves i = .idle) (ht : s.top < s.bot) :
    run S s [.popTop i, .thief i, .thief i] =
      some ({ s with top := s.top + 1 }.setThief i (.claimed s.top s.bot (S.getTail s.top))) := by
  obtain ⟨bot, top, arr, owner, thieves, history⟩ := s
  simp only at hi ht ⊢
  simp only [Deque.run, Deque.step, Deque.thiefStep, State.setThief, hi,
    show ¬ bot + 1 < top by omega, ht, gt_iff_lt, if_false, if_true, Option.some_bind,
    Function.update_same, Function.update_idem]

/-- `pop_top` with an element: thief `i` wins its CAS and calls `get_tail(top)`. -/
theorem seqCall_popTop_claim {i : Fin n} (hi : s.thieves i = .idle) (ht : s.top < s.bot) (F : Nat) :
    seqCall S (F + 2) s (.popTop i) =
      thiefRun S i F ({ s with top := s.top + 1 }.setThief i (.claimed s.top s.bot (S.getTail s.top))) := by
  obtain ⟨bot, top, arr, owner, thieves, history⟩ := s
  simp only at hi ht ⊢
  simp only [seqCall, Deque.step, thiefRun, Deque.thiefStep, State.setThief, hi,
    show ¬ bot + 1 < top by omega, ht, gt_iff_lt, if_false, if_true, Option.some_bind,
    Function.update_same, Function.update_idem]

end Drivers

/-! ## `pop_top` on `continuous_array` -/

section Blocks

variable {V : Type} {n : Nat}

/-- Thief `i` inside `get_tail(oldTop)` runs the call to its return, and then
returns from `pop_top`. -/
theorem thiefRun_claimed {s : BlockState V n} {i : Fin n} {oldTop localBot : Nat} {g : GetTail}
    (hi : s.thieves i = .claimed oldTop localBot g) (F : Nat) :
    thiefRun (blocks V) i (F + 1) s = (GetTail.run s.arr oldTop F g).map fun x =>
      ((s.setArr x.1).setThief i .idle).record (.popTop x.2 (localBot == oldTop + 1)) := by
  induction F generalizing s g with
  | zero => simp [thiefRun, hi, GetTail.run]
  | succ F ih =>
    rw [thiefRun]
    simp only [hi, Deque.thiefStep, blocks_tailStep]
    rcases hg : g.step s.arr oldTop with _ | ⟨ca', g' | v⟩
    · simp [GetTail.run, hg]
    · rw [GetTail.run_inl hg]
      simp only [Option.map_some', Sum.elim_inl, Option.some_bind]
      rw [ih (g := g') (by simp)]
      simp [State.setArr, State.setThief, State.record, Function.update_idem]
    · rw [GetTail.run_inr hg]
      simp [thiefRun]

/-- `pop_top` by thief `i` on a non-empty deque, on `continuous_array` with the
tail on block `lo` at or below the block of `top`: it returns the element
stored for `top`, and retires the tail when `top` starts block `lo + 1`. -/
theorem seqCall_popTop {s : BlockState V n} {lo hi : Nat} {blk : Block V} {i : Fin n}
    (hc : Chain s.arr lo hi) (hblk : s.arr.mem lo = some blk) (hidle : s.thieves i = .idle)
    (ht : s.top < s.bot) (hd : desiredBlockId s.top ≤ hi) (hlo : lo ≤ desiredBlockId s.top)
    {fuel : Nat} (hf : desiredBlockId s.top - lo + 14 ≤ fuel) :
    seqCall (blocks V) fuel s (.popTop i) = some { s with
      top := s.top + 1
      arr := if offset s.top = 0 ∧ lo + 1 = desiredBlockId s.top then s.arr.retireAlone lo blk
        else s.arr
      history := s.history ++ [.popTop (s.arr.value s.top) (s.bot == s.top + 1)] } := by
  obtain ⟨F, rfl⟩ : ∃ F, fuel = F + 1 + 2 := ⟨fuel - 3, by omega⟩
  have hcl : ({ s with top := s.top + 1 }.setThief i
      (.claimed s.top s.bot ((blocks V).getTail s.top))).thieves i = .claimed s.top s.bot .loadTail := by
    simp
  rw [seqCall_popTop_claim hidle ht, thiefRun_claimed hcl]
  simp only [State.setThief_arr]
  rw [GetTail.run_alone hc hblk hd hlo F (by omega)]
  simp [State.setArr, State.setThief, State.record, Function.update_eq_self_iff, hidle]

/-! ## The list deque -/

/-- The deque of the spec: a list whose head is the top and whose last element
is the bottom. `push_bottom` appends; `pop_bottom` removes the last element, or
returns null on an empty list; `pop_top` removes the head and says whether the
list is now empty, or returns null and `true` on an empty list. -/
def listOp (l : List V) : Op V n → List V × Event V
  | .pushBottom v => (l ++ [v], .pushBottom v)
  | .popBottom => (l.dropLast, .popBottom l.getLast?)
  | .popTop _ =>
    match l with
    | [] => ([], .popTop none true)
    | v :: rest => (rest, .popTop (some v) rest.isEmpty)

/-- What a sequence of calls on the list deque records. -/
def listRun : List V → List (Op V n) → List (Event V)
  | _, [] => []
  | l, c :: cs => (listOp l c).2 :: listRun (listOp l c).1 cs

/-- Between two calls: no call is in progress, the elements from `top` to `bot`
are the list `l`, the head is at most block `k`, and the blocks below the tail
are stacked on `to_retire`. -/
structure SeqInv (s : BlockState V n) (l : List V) (k : Nat) : Prop where
  reachable : Reachable (blocks V) s
  owner : s.owner = .idle
  thieves : ∀ i, s.thieves i = .idle
  size : s.top + l.length = s.bot
  values : ∀ j, j < l.length → s.arr.value (s.top + j) = l[j]?
  head : ∃ hi, s.arr.head = some hi ∧ hi ≤ k
  stacked : ∃ lo, s.arr.tail = some lo ∧ Stacked s.arr lo

theorem SeqInv.init : SeqInv (init (blocks V) : BlockState V n) [] 0 where
  reachable := .init
  owner := rfl
  thieves _ := rfl
  size := rfl
  values _ h := absurd h (Nat.not_lt_zero _)
  head := ⟨0, rfl, le_rfl⟩
  stacked := ⟨0, rfl, Stacked.create⟩

section Calls

variable {s : BlockState V n} {l : List V} {k lo hi fuel : Nat}

/-- Between two calls the head is block `k` at most, and so is the layout's last block. -/
theorem SeqInv.hi_le (h : SeqInv s l k) (hl : Layout s lo hi) : hi ≤ k := by
  obtain ⟨hi', hh, hle⟩ := h.head
  rw [hl.chain.head, Option.some.injEq] at hh
  omega

theorem SeqInv.head_succ (h : SeqInv s l k) {ca : CA V} (he : ca.head = s.arr.head) :
    ∃ hi, ca.head = some hi ∧ hi ≤ k + 1 :=
  he ▸ h.head.imp fun _ h' => ⟨h'.1, by omega⟩

/-- The stacked blocks are those below the layout's tail. -/
theorem SeqInv.stacked_lo (h : SeqInv s l k) (hl : Layout s lo hi) : Stacked s.arr lo := by
  obtain ⟨lo', ht, hs⟩ := h.stacked
  rw [hl.chain.tail, Option.some.injEq] at ht
  exact ht ▸ hs

/-- The owner's calls move `block_in_use` only, and keep the stack. -/
theorem SeqInv.stacked_setInUse (h : SeqInv s l k) (u : Option Nat) :
    ∃ lo, ({ s.arr with blockInUse := u } : CA V).tail = some lo ∧
      Stacked { s.arr with blockInUse := u } lo :=
  h.stacked.imp fun _ h' => ⟨h'.1, h'.2.of_eq rfl fun _ _ => rfl⟩

/-- `push_bottom(v)` appends `v`; the head moves to the next block at most. -/
theorem SeqInv.call_pushBottom (h : SeqInv s l k) (hl : Layout s lo hi) (v : V)
    (hf : k + 14 ≤ fuel) :
    ∃ s', seqCall (blocks V) fuel s (.pushBottom v) = some s' ∧ SeqInv s' (l ++ [v]) (k + 1) ∧
      s'.history = s.history ++ [.pushBottom v] := by
  have hhi := h.hi_le hl
  have hsize := h.size
  obtain ⟨u, hu, huhi, hin⟩ := hl.inUse
  have hlo := hl.lo_le_inUse (reachable_shape _ h.reachable) hin
  have hx := hl.extent
  simp only [h.owner, InUse, Owner.extent] at hin hx
  obtain ⟨ca', hi', hput, hc', -, hhi', -, -, -, hret, hmem, hval⟩ :=
    putHead_chain v hl.chain hu huhi hin hx
  have hcall : seqCall (blocks V) fuel s (.pushBottom v) = _ :=
    seqCall_pushBottom h.owner hput (by omega)
  refine ⟨_, hcall, ⟨h.reachable.seqCall hcall, h.owner, h.thieves, ?_, fun j hj => ?_,
    ⟨hi', hc'.head, by omega⟩,
    ⟨lo, hc'.tail, (h.stacked_lo hl).of_eq hret fun k hk => hmem k (by omega)⟩⟩, rfl⟩
  · simp only [List.length_append, List.length_singleton]
    omega
  · simp only [List.length_append, List.length_singleton] at hj ⊢
    rw [hval]
    by_cases hjl : j = l.length
    · subst hjl
      rw [if_pos (by omega), List.getElem?_concat_length]
    · rw [if_neg (by omega), List.getElem?_append_left (by omega)]
      exact h.values j (by omega)

/-- `pop_bottom` removes and returns the last element, or returns null on an
empty deque. -/
theorem SeqInv.call_popBottom (h : SeqInv s l k) (hl : Layout s lo hi) (hf : k + 14 ≤ fuel) :
    ∃ s', seqCall (blocks V) fuel s .popBottom = some s' ∧
      SeqInv s' (listOp l (.popBottom : Op V n)).1 (k + 1) ∧
      s'.history = s.history ++ [(listOp l (.popBottom : Op V n)).2] := by
  have hhi := h.hi_le hl
  have hsize := h.size
  rcases l.eq_nil_or_concat' with rfl | ⟨l', x, rfl⟩
  · simp only [List.length_nil, Nat.add_zero] at hsize
    have hcall : seqCall (blocks V) fuel s .popBottom = some (s.record (.popBottom none)) := by
      by_cases hb : s.bot = 0
      · exact seqCall_popBottom_zero h.owner hb (by omega)
      · exact seqCall_popBottom_empty h.owner (by omega) (by omega) (by omega)
    exact ⟨_, hcall, ⟨h.reachable.seqCall hcall, h.owner, h.thieves, by simpa [listOp] using hsize,
      fun j hj => by simp [listOp] at hj, h.head_succ rfl, h.stacked⟩, rfl⟩
  simp only [List.length_append, List.length_singleton] at hsize
  obtain ⟨u, hu, huhi, hin⟩ := hl.inUse
  simp only [h.owner, InUse] at hin
  have hx : s.arr.value (s.bot - 1) = some x := by
    rw [← List.getElem?_concat_length l' x, ← h.values _ (by simp)]
    congr 1
    omega
  have hget := getHead_chain hl.chain hu huhi
    (by rwa [Nat.sub_add_cancel (show 1 ≤ s.bot by omega), or_comm, or_comm]) (by
      rcases hl.retired with h0 | hlt
      · omega
      · rw [desiredBlockId_eq]; omega)
  have hlist : listOp (l' ++ [x]) (.popBottom : Op V n) = (l', .popBottom (some x)) := by
    simp [listOp]
  rw [hlist]
  by_cases hl' : l' = []
  · subst hl'
    have hcall : seqCall (blocks V) fuel s .popBottom = _ :=
      seqCall_popBottom_last h.owner (by simpa using hsize) hget (by omega)
    refine ⟨_, hcall, ⟨h.reachable.seqCall hcall, h.owner, h.thieves, by simp, by simp,
      h.head_succ rfl, h.stacked_setInUse _⟩, by simp [hx]⟩
  · have hcall : seqCall (blocks V) fuel s .popBottom = _ :=
      seqCall_popBottom_more h.owner (by have := List.length_pos.2 hl'; omega) hget (by omega)
    refine ⟨_, hcall, ⟨h.reachable.seqCall hcall, h.owner, h.thieves, by simp; omega,
      fun j hj => ?_, h.head_succ rfl, h.stacked_setInUse _⟩, by simp [hx]⟩
    simp only at hj
    simpa [List.getElem?_append_left hj] using h.values j (by simp; omega)

/-- `pop_top` by any thief removes and returns the first element, or returns
null on an empty deque. -/
theorem SeqInv.call_popTop (h : SeqInv s l k) (hl : Layout s lo hi) (i : Fin n)
    (hf : k + 14 ≤ fuel) :
    ∃ s', seqCall (blocks V) fuel s (.popTop i) = some s' ∧
      SeqInv s' (listOp l (.popTop i)).1 (k + 1) ∧
      s'.history = s.history ++ [(listOp l (.popTop i)).2] := by
  have hhi := h.hi_le hl
  have hsize := h.size
  rcases l with _ | ⟨x, rest⟩
  · simp only [List.length_nil, Nat.add_zero] at hsize
    have hcall : seqCall (blocks V) fuel s (.popTop i) = some (s.record (.popTop none true)) :=
      seqCall_popTop_empty (h.thieves i) (by omega) (by omega) (by omega)
    exact ⟨_, hcall, ⟨h.reachable.seqCall hcall, h.owner, h.thieves, by simpa [listOp] using hsize,
      fun j hj => by simp [listOp] at hj, h.head_succ rfl, h.stacked⟩, rfl⟩
  simp only [List.length_cons] at hsize
  have hx := hl.extent
  simp only [h.owner, Owner.extent] at hx
  obtain ⟨blk, hblk, -⟩ := hl.chain.mem hl.chain.le
  have hd : desiredBlockId s.top ≤ hi := by
    rw [desiredBlockId_eq]
    omega
  have hlo : lo ≤ desiredBlockId s.top := by
    rcases hl.retired with h0 | hlt
    · omega
    · rw [desiredBlockId_eq]; omega
  have hcall : seqCall (blocks V) fuel s (.popTop i) = _ :=
    seqCall_popTop hl.chain hblk (h.thieves i) (by omega) hd hlo (by omega)
  have hca : ∀ ca' : CA V, ca' = (if offset s.top = 0 ∧ lo + 1 = desiredBlockId s.top then
      s.arr.retireAlone lo blk else s.arr) →
      (∀ j, ca'.value j = s.arr.value j) ∧ ca'.head = s.arr.head ∧
        ∃ lo', ca'.tail = some lo' ∧ Stacked ca' lo' := by
    rintro _ rfl
    split_ifs with hr
    · exact ⟨(hl.chain.retireAlone hblk (by omega)).2, rfl, lo + 1, rfl,
        (h.stacked_lo hl).retireAlone blk⟩
    · exact ⟨fun _ => rfl, rfl, h.stacked⟩
  obtain ⟨hval, hh, hst⟩ := hca _ rfl
  have hv0 : s.arr.value s.top = some x := by simpa using h.values 0 (by simp)
  have hempty : (s.bot == s.top + 1) = rest.isEmpty := by
    cases rest <;> simp at hsize ⊢ <;> omega
  refine ⟨_, hcall, ⟨h.reachable.seqCall hcall, h.owner, h.thieves, by simp [listOp]; omega,
    fun j hj => ?_, h.head_succ hh, hst⟩, by simp [listOp, hv0, hempty]⟩
  simp only [listOp] at hj
  simpa [hval, Nat.add_right_comm] using h.values (j + 1) (by simp; omega)

/-- One call keeps the invariant and records what the list deque records; the
head moves by one block at most. -/
theorem SeqInv.call (h : SeqInv s l k) (c : Op V n) (fuel : Nat) (hf : k + 14 ≤ fuel) :
    ∃ s', seqCall (blocks V) fuel s c = some s' ∧ SeqInv s' (listOp l c).1 (k + 1) ∧
      s'.history = s.history ++ [(listOp l c).2] := by
  obtain ⟨lo, hi, hl⟩ := reachable_layout h.reachable
  cases c with
  | pushBottom v => exact h.call_pushBottom hl v hf
  | popBottom => exact h.call_popBottom hl hf
  | popTop i => exact h.call_popTop hl i hf

end Calls

/-- A sequence of calls keeps the invariant and records what the list deque records. -/
theorem SeqInv.run {s : BlockState V n} {l : List V} {k fuel : Nat} (h : SeqInv s l k)
    (cs : List (Op V n)) (hf : k + cs.length + 14 ≤ fuel) :
    ∃ s' l', seqRun (blocks V) fuel s cs = some s' ∧ SeqInv s' l' (k + cs.length) ∧
      s'.history = s.history ++ listRun l cs := by
  induction cs generalizing s l k with
  | nil => exact ⟨s, l, rfl, h, by simp [listRun]⟩
  | cons c cs ih =>
    obtain ⟨s₁, h₁, hinv, hhist⟩ := h.call c fuel (by simp at hf; omega)
    obtain ⟨s', l', hrun, hinv', hhist'⟩ := ih hinv (by simp at hf; omega)
    have hk : k + 1 + cs.length = k + (c :: cs).length := by simp only [List.length_cons]; omega
    exact ⟨s', l', by simp [seqRun, h₁, hrun], hk ▸ hinv', by simp [hhist', hhist, listRun]⟩

/-- From `Deque()` on `continuous_array`, calls made one at a time, in any
number and order, with any elements, return what the list deque returns: every
call returns, and the history of invocations and results is the list deque's.
Fuel covers the longest search of `get_tail`, one block per call at most. -/
theorem sequential_refines_list (cs : List (Op V n)) (fuel : Nat) (hf : cs.length + 14 ≤ fuel) :
    ∃ s, seqRun (blocks V) fuel (init (blocks V)) cs = some s ∧ s.history = listRun [] cs := by
  obtain ⟨s, -, hrun, -, hh⟩ := SeqInv.init.run cs (show 0 + cs.length + 14 ≤ fuel by omega)
  exact ⟨s, hrun, by simpa using hh⟩

theorem sequential_refines_list_push_steal :
    let cs : List (Op Nat 1) := [.pushBottom 7, .pushBottom 8, .popTop 0, .popBottom]
    ∃ s, seqRun (blocks Nat) 18 (init (blocks Nat)) cs = some s ∧ s.history = listRun [] cs :=
  sequential_refines_list _ 18 (by decide)

/-! ## The destructor after calls one at a time -/

/-- From `Deque()` on `continuous_array`, after any calls made one at a time,
`~continuous_array()` frees every block `malloc` returned, each once: the
blocks `brk - 1` down to `0`. Its loops end at `nullptr`: any bound on their
iterations from `brk` on gives the same list. -/
theorem sequential_destroy_frees_each_block_once (cs : List (Op V n)) (fuel : Nat)
    (hf : cs.length + 14 ≤ fuel) :
    ∃ s, seqRun (blocks V) fuel (init (blocks V)) cs = some s ∧
      ∀ bound, s.arr.brk ≤ bound → destroy s.arr bound = some (List.range s.arr.brk).reverse := by
  obtain ⟨s, l, hrun, h, -⟩ := SeqInv.init.run cs (show 0 + cs.length + 14 ≤ fuel by omega)
  obtain ⟨lo, hi, hl⟩ := reachable_layout h.reachable
  refine ⟨s, hrun, fun bound hb => ?_⟩
  rw [hl.chain.brk] at hb ⊢
  exact destroy_of_stacked hl.chain (h.stacked_lo hl) (by omega)

theorem sequential_destroy_push_steal :
    let cs : List (Op Nat 1) := [.pushBottom 7, .pushBottom 8, .popTop 0, .popBottom]
    ∃ s, seqRun (blocks Nat) 18 (init (blocks Nat)) cs = some s ∧
      ∀ bound, s.arr.brk ≤ bound → destroy s.arr bound = some (List.range s.arr.brk).reverse :=
  sequential_destroy_frees_each_block_once _ 18 (by decide)

end Blocks

end Parlay.Deque
