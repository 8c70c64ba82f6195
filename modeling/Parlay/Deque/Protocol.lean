import Mathlib

/-!
# The ABP deque protocol as an interleaving

`Deque<V>` (`parlay/internal/work_stealing_deque.h`) split into the atomic steps
its three operations perform on shared memory: each load or store of `bot` and
`top`, each `compare_exchange` on `top`, and each call into the array `deq`.
Under sequential consistency the `seq_cst` fences order nothing further, so they
are no steps.

The array is a parameter (`Storage`): the owner's `put_head` and `get_head`
are one step each, and a thief's `get_tail` runs as a sequence of steps of its
own. `ideal` is the unbounded array indexed by the logical index, where
`get_tail` is a single read; the real `continuous_array` is the storage of
`Parlay.ContinuousArray`.

One owner runs `push_bottom` and `pop_bottom`; `n` thieves run `pop_top`. A
thread's position inside its operation, with the locals it has read, is its
program counter (`Owner`, `Thief`). Invoking an operation and its first load
are one step. A `V` is a non-null pointer; `none` is `nullptr`.

The state records the values passed to `push_bottom` at invocation and the
results of the operations that returned (`history`). `Reachable` collects the
states some interleaving reaches from `Deque()`, and `run` a given
interleaving; `popRace` and `twoThievesRace` are two races for one element,
the concrete interleavings the later modules' examples run.
-/

namespace Parlay.Deque

/-- What `Deque<V>` asks of its array `deq`. `none` is a null dereference inside
the array, which ends the program. -/
structure Storage (A V R : Type) where
  /-- The array `Deque()` constructs. -/
  empty : A
  /-- `put_head(index, val)`. -/
  putHead : A → Nat → V → Option A
  /-- `get_head(index)`: the array after the call and the value read. -/
  getHead : A → Nat → Option (A × Option V)
  /-- Where a call `get_tail(index)` starts. -/
  getTail : Nat → R
  /-- The next step of a `get_tail(index)`: it goes on from a new position, or returns. -/
  tailStep : A → Nat → R → Option (A × (R ⊕ Option V))

/-- The ideal unbounded array: `get_tail` is one read of the slot. -/
def ideal (V : Type) : Storage (Nat → Option V) V Unit where
  empty := fun _ => none
  putHead slots i v := some (Function.update slots i (some v))
  getHead slots i := some (slots, slots i)
  getTail _ := ()
  tailStep slots i _ := some (slots, .inr (slots i))

/-- Where the owner is inside `push_bottom` or `pop_bottom`, with its locals. -/
inductive Owner (V : Type) where
  | idle
  /-- `push_bottom(val)` loaded `bot = b`; next `put_head(b, val)`. -/
  | pushPut (b : Nat) (v : V)
  /-- Stored the slot `b`; next `bot.store(b + 1)`. -/
  | pushStore (b : Nat)
  /-- `pop_bottom` loaded `bot = b + 1`; next `bot.store(b)`. -/
  | popStore (b : Nat)
  /-- Stored `bot = b`; next `top.load`. -/
  | popLoadTop (b : Nat)
  /-- Loaded `top = t ≤ b`; next `get_head(b)`. -/
  | popRead (b t : Nat)
  /-- `t = b` and `get_head(b)` gave `val`; next the CAS of `top` from `b` to `b + 1`. -/
  | popCas (b : Nat) (val : Option V)
  /-- Next `bot.store(b + 1)`, then return `val`. -/
  | popRestore (b : Nat) (val : Option V)
deriving DecidableEq, Repr

/-- Where a thief is inside `pop_top`, with its locals. -/
inductive Thief (R : Type) where
  | idle
  /-- Loaded `top = oldTop`; next `bot.load`. -/
  | loadedTop (oldTop : Nat)
  /-- Loaded `bot = localBot > oldTop`; next the CAS of `top`. -/
  | loadedBot (oldTop localBot : Nat)
  /-- Won the CAS; inside `get_tail(oldTop)` at `read`, then return. -/
  | claimed (oldTop localBot : Nat) (read : R)
  /-- `assert(local_bot + 1 >= old_top)` failed. -/
  | assertFailed
deriving DecidableEq, Repr

/-- What a caller sees of an operation: the value `push_bottom` was called with,
or the result an operation returned. -/
inductive Event (V : Type) where
  | pushBottom (v : V)
  | popBottom (result : Option V)
  | popTop (result : Option V) (empty : Bool)
deriving DecidableEq, Repr

/-- The shared memory and every thread's program counter. -/
structure State (A V R : Type) (n : Nat) where
  bot : Nat
  top : Nat
  arr : A
  owner : Owner V
  thieves : Fin n → Thief R
  history : List (Event V)

/-- A deque on the ideal array. -/
abbrev IdealState (V : Type) (n : Nat) := State (Nat → Option V) V Unit n

/-- Who moves: a thread calling an operation, or a thread taking its next step. -/
inductive Act (V : Type) (n : Nat) where
  | pushBottom (v : V)
  | popBottom
  | owner
  | popTop (i : Fin n)
  | thief (i : Fin n)

section Steps

variable {A V R : Type} {n : Nat} (S : Storage A V R)

/-- `Deque()`: `bot = top = 0`, a fresh array, every thread idle. -/
def init : State A V R n :=
  { bot := 0, top := 0, arr := S.empty, owner := .idle, thieves := fun _ => .idle, history := [] }

/-- The array changes. -/
def State.setArr (s : State A V R n) (a : A) : State A V R n := { s with arr := a }

/-- The owner's position changes. -/
def State.setOwner (s : State A V R n) (o : Owner V) : State A V R n := { s with owner := o }

/-- Thief `i`'s position changes. -/
def State.setThief (s : State A V R n) (i : Fin n) (t : Thief R) : State A V R n :=
  { s with thieves := Function.update s.thieves i t }

/-- An event is appended to the history. -/
def State.record (s : State A V R n) (e : Event V) : State A V R n :=
  { s with history := s.history ++ [e] }

/-- The owner's next step. -/
def ownerStep (s : State A V R n) : Option (State A V R n) :=
  match s.owner with
  | .idle => none
  | .pushPut b v => (S.putHead s.arr b v).map fun a => (s.setArr a).setOwner (.pushStore b)
  | .pushStore b => some ({ s with bot := b + 1 }.setOwner .idle)
  | .popStore b => some ({ s with bot := b }.setOwner (.popLoadTop b))
  | .popLoadTop b =>
    if s.top ≤ b then some (s.setOwner (.popRead b s.top))
    else some (s.setOwner (.popRestore b none))
  | .popRead b t =>
    (S.getHead s.arr b).map fun r =>
      if t = b then (s.setArr r.1).setOwner (.popCas b r.2)
      else ((s.setArr r.1).setOwner .idle).record (.popBottom r.2)
  | .popCas b val =>
    if s.top = b then some ({ s with top := b + 1 }.setOwner (.popRestore b val))
    else some (s.setOwner (.popRestore b none))
  | .popRestore b val => some (({ s with bot := b + 1 }.setOwner .idle).record (.popBottom val))

/-- Thief `i`'s next step. -/
def thiefStep (s : State A V R n) (i : Fin n) : Option (State A V R n) :=
  match s.thieves i with
  | .idle => none
  | .loadedTop oldTop =>
    if s.bot + 1 < oldTop then some (s.setThief i .assertFailed)
    else if s.bot > oldTop then some (s.setThief i (.loadedBot oldTop s.bot))
    else some ((s.setThief i .idle).record (.popTop none true))
  | .loadedBot oldTop localBot =>
    if s.top = oldTop then
      some ({ s with top := oldTop + 1 }.setThief i (.claimed oldTop localBot (S.getTail oldTop)))
    else some ((s.setThief i .idle).record (.popTop none (localBot == s.top + 1)))
  | .claimed oldTop localBot r =>
    (S.tailStep s.arr oldTop r).map fun x =>
      x.2.elim (fun r' => (s.setArr x.1).setThief i (.claimed oldTop localBot r'))
        (fun val => ((s.setArr x.1).setThief i .idle).record (.popTop val (localBot == oldTop + 1)))
  | .assertFailed => none

/-- One atomic step of the system. -/
def step (s : State A V R n) : Act V n → Option (State A V R n)
  | .pushBottom v =>
    match s.owner with
    | .idle => some ((s.setOwner (.pushPut s.bot v)).record (.pushBottom v))
    | _ => none
  | .popBottom =>
    match s.owner with
    | .idle =>
      if s.bot = 0 then some (s.record (.popBottom none))
      else some (s.setOwner (.popStore (s.bot - 1)))
    | _ => none
  | .owner => ownerStep S s
  | .popTop i =>
    match s.thieves i with
    | .idle => some (s.setThief i (.loadedTop s.top))
    | _ => none
  | .thief i => thiefStep S s i

/-- The states some interleaving reaches from `Deque()`. -/
inductive Reachable : State A V R n → Prop where
  | init : Reachable (init S)
  | step {s s' : State A V R n} {a : Act V n} : Reachable s → step S s a = some s' → Reachable s'

end Steps

section Runs

variable {A V R : Type} {n : Nat} (S : Storage A V R)

/-- A sequence of steps. -/
def run (s : State A V R n) : List (Act V n) → Option (State A V R n)
  | [] => some s
  | a :: as => (step S s a).bind fun s' => run s' as

variable {S}

theorem Reachable.run {s s' : State A V R n} {l : List (Act V n)} (h : Reachable S s)
    (hr : run S s l = some s') : Reachable S s' := by
  induction l generalizing s with
  | nil => cases hr; exact h
  | cons a l ih =>
    obtain ⟨s₁, h₁, hr⟩ := Option.bind_eq_some.1 hr
    exact ih (h.step h₁) hr

end Runs

/-! ## Two races -/

/-- One push, then a thief's `pop_top` and the owner's `pop_bottom` race for
the one element: the thief loads `top = 0` and `bot = 1`, the owner stores
`bot = 0` and reads `top = 0`, and the thief wins its CAS. The owner has yet to
read the slot and lose its own CAS. -/
def popRace : List (Act Nat 1) :=
  [.pushBottom 7, .owner, .owner, .popTop 0, .thief 0, .popBottom, .owner, .owner, .thief 0]

/-- Two thieves read `top = 0` of a deque holding one element, and both try to
take it. -/
def twoThievesRace : List (Act Nat 2) :=
  [.pushBottom 7, .owner, .owner, .popTop 0, .popTop 1, .thief 0, .thief 1, .thief 0, .thief 1]

section Fields

variable {A V R : Type} {n : Nat} (s : State A V R n)

@[simp] theorem State.setArr_owner (a : A) : (s.setArr a).owner = s.owner := rfl
@[simp] theorem State.setArr_bot (a : A) : (s.setArr a).bot = s.bot := rfl
@[simp] theorem State.setArr_top (a : A) : (s.setArr a).top = s.top := rfl
@[simp] theorem State.setArr_arr (a : A) : (s.setArr a).arr = a := rfl
@[simp] theorem State.setArr_thieves (a : A) : (s.setArr a).thieves = s.thieves := rfl
@[simp] theorem State.setArr_history (a : A) : (s.setArr a).history = s.history := rfl

@[simp] theorem State.setOwner_owner (o : Owner V) : (s.setOwner o).owner = o := rfl
@[simp] theorem State.setOwner_bot (o : Owner V) : (s.setOwner o).bot = s.bot := rfl
@[simp] theorem State.setOwner_top (o : Owner V) : (s.setOwner o).top = s.top := rfl
@[simp] theorem State.setOwner_arr (o : Owner V) : (s.setOwner o).arr = s.arr := rfl
@[simp] theorem State.setOwner_thieves (o : Owner V) : (s.setOwner o).thieves = s.thieves := rfl
@[simp] theorem State.setOwner_history (o : Owner V) : (s.setOwner o).history = s.history := rfl

@[simp] theorem State.setThief_owner (i : Fin n) (t : Thief R) : (s.setThief i t).owner = s.owner := rfl
@[simp] theorem State.setThief_bot (i : Fin n) (t : Thief R) : (s.setThief i t).bot = s.bot := rfl
@[simp] theorem State.setThief_top (i : Fin n) (t : Thief R) : (s.setThief i t).top = s.top := rfl
@[simp] theorem State.setThief_arr (i : Fin n) (t : Thief R) : (s.setThief i t).arr = s.arr := rfl
@[simp] theorem State.setThief_thieves (i : Fin n) (t : Thief R) :
    (s.setThief i t).thieves = Function.update s.thieves i t := rfl
@[simp] theorem State.setThief_history (i : Fin n) (t : Thief R) :
    (s.setThief i t).history = s.history := rfl

@[simp] theorem State.record_owner (e : Event V) : (s.record e).owner = s.owner := rfl
@[simp] theorem State.record_bot (e : Event V) : (s.record e).bot = s.bot := rfl
@[simp] theorem State.record_top (e : Event V) : (s.record e).top = s.top := rfl
@[simp] theorem State.record_arr (e : Event V) : (s.record e).arr = s.arr := rfl
@[simp] theorem State.record_thieves (e : Event V) : (s.record e).thieves = s.thieves := rfl
@[simp] theorem State.record_history (e : Event V) : (s.record e).history = s.history ++ [e] := rfl

end Fields

end Parlay.Deque
