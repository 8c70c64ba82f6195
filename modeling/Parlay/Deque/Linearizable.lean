import Parlay.Deque.OneThief

/-!
# The deque on the ideal array is linearizable

`Atomic` is the deque as its callers picture it: a list, `top` first, on which
each operation takes effect at one instant between its call and its return.
`push_bottom(v)` appends `v`. `pop_bottom` removes and returns the last element,
or null on an empty list. `pop_top` removes and returns the first element. It
may instead give up and return null, as ABP's `pop_top` does when it meets
another thread, but only at an instant when the list is empty, or a
`pop_bottom` that has not yet taken effect is in progress, or the first element
has been taken since the call (`Atomic.mayAbort`). The `empty` flag `pop_top`
returns is a hint, and any value is allowed.

Each operation of `Deque<V>` takes effect at one of its own steps.
`push_bottom` takes effect at its store of `bot`. `pop_bottom` takes effect at
its load of `top` when that decides it (`t < b`, or `t > b` on an empty
deque), and otherwise at its CAS. `pop_top` takes effect at its winning CAS,
and gives up at its load of `bot` or at its failed CAS. `linearize` maps a
state to the atomic deque in which these steps have taken effect and no
others. Its list is the slots from `top` to the owner's effective bottom
(`Owner.effectiveBot`), which counts slot `b` while a `pop_bottom` that stored
`bot = b` has not taken effect. A thief inside `pop_top` has seen the first
element taken exactly when `top` has moved since it loaded it.

Results:
1. `ownerStep_linearize`, `thiefStep_linearize`, `step_linearize`: every step
   of the deque is matched by steps of the atomic deque: none, the effect of
   the operation that takes effect at it, or a call or a return.
2. `ideal_linearizable`: for any number of thieves, every reachable state
   stands for a reachable state of the atomic deque with the same history, in
   which a thread is idle exactly when it is idle in the deque.
3. `one_thief_linearizable`: with one thief, the same holds of the deque on
   `continuous_array`, through the deque on the ideal array it stands for.
-/

namespace Parlay.Deque

variable {V : Type} {n : Nat}

/-! ## The atomic deque -/

/-- Where the owner is in an operation of the atomic deque. -/
inductive AtomicOwner (V : Type) where
  | idle
  /-- `push_bottom(v)` was called and has not taken effect. -/
  | pushing (v : V)
  /-- The push took effect; it returns nothing. -/
  | pushed
  /-- `pop_bottom` was called and has not taken effect. -/
  | popping
  /-- `pop_bottom` took effect with this result and has not returned. -/
  | returning (result : Option V)
deriving DecidableEq, Repr

/-- Where a thief is in `pop_top` of the atomic deque. -/
inductive AtomicThief (V : Type) where
  | idle
  /-- `pop_top` was called and has not taken effect; `disturbed` says the first
  element has been taken since the call. -/
  | stealing (disturbed : Bool)
  /-- `pop_top` took effect with this result and flag and has not returned. -/
  | returning (result : Option V) (empty : Bool)
deriving DecidableEq, Repr

/-- A `pop_bottom` is in progress and has not taken effect. -/
def AtomicOwner.isPopping : AtomicOwner V → Bool
  | .popping => true
  | _ => false

/-- The first element was taken: a `pop_top` that has not taken effect sees it. -/
def AtomicThief.disturb : AtomicThief V → AtomicThief V
  | .stealing _ => .stealing true
  | t => t

/-- The atomic deque: the list, `top` first, the threads' positions and the
history. -/
@[ext] structure Atomic (V : Type) (n : Nat) where
  items : List V
  owner : AtomicOwner V
  thieves : Fin n → AtomicThief V
  history : List (Event V)

/-- Who moves in the atomic deque, and how a steal ends. -/
inductive AtomicAct (V : Type) (n : Nat) where
  | pushBottom (v : V)
  | popBottom
  /-- The owner's operation takes effect. -/
  | ownerEffect
  | ownerReturn
  | popTop (i : Fin n)
  /-- Thief `i` takes the first element; `empty` is the flag it will return. -/
  | steal (i : Fin n) (empty : Bool)
  /-- Thief `i` gives up. -/
  | abort (i : Fin n) (empty : Bool)
  | thiefReturn (i : Fin n)

namespace Atomic

/-- The empty deque, every thread idle. -/
def init : Atomic V n := ⟨[], .idle, fun _ => .idle, []⟩

/-- Thief `i`'s position changes. -/
def setThief (σ : Atomic V n) (i : Fin n) (t : AtomicThief V) : Atomic V n :=
  { σ with thieves := Function.update σ.thieves i t }

/-- The first element was taken: every thief inside `pop_top` is disturbed. -/
def disturbAll (σ : Atomic V n) : Atomic V n :=
  { σ with thieves := fun j => (σ.thieves j).disturb }

/-- A `pop_top` may give up now: the list is empty, a `pop_bottom` that has
not taken effect is in progress, or the first element was taken since the
call. -/
def mayAbort (σ : Atomic V n) (disturbed : Bool) : Bool :=
  σ.items.isEmpty || σ.owner.isPopping || disturbed

/-- One step of the atomic deque. A `pop_bottom` that takes the only element
takes the first element. -/
def step (σ : Atomic V n) : AtomicAct V n → Option (Atomic V n)
  | .pushBottom v =>
    match σ.owner with
    | .idle => some { σ with owner := .pushing v, history := σ.history ++ [.pushBottom v] }
    | _ => none
  | .popBottom =>
    match σ.owner with
    | .idle => some { σ with owner := .popping }
    | _ => none
  | .ownerEffect =>
    match σ.owner with
    | .pushing v => some { σ with items := σ.items ++ [v], owner := .pushed }
    | .popping =>
      let σ' := { σ with items := σ.items.dropLast, owner := .returning σ.items.getLast? }
      some (if σ.items.length = 1 then σ'.disturbAll else σ')
    | _ => none
  | .ownerReturn =>
    match σ.owner with
    | .pushed => some { σ with owner := .idle }
    | .returning r => some { σ with owner := .idle, history := σ.history ++ [.popBottom r] }
    | _ => none
  | .popTop i =>
    match σ.thieves i with
    | .idle => some (σ.setThief i (.stealing false))
    | _ => none
  | .steal i empty =>
    match σ.thieves i with
    | .stealing _ =>
      some ({ σ with items := σ.items.tail }.disturbAll.setThief i (.returning σ.items.head? empty))
    | _ => none
  | .abort i empty =>
    match σ.thieves i with
    | .stealing d => if σ.mayAbort d then some (σ.setThief i (.returning none empty)) else none
    | _ => none
  | .thiefReturn i =>
    match σ.thieves i with
    | .returning r e => some { σ.setThief i .idle with history := σ.history ++ [.popTop r e] }
    | _ => none

/-- The states some run of the atomic deque reaches. -/
inductive Reachable : Atomic V n → Prop where
  | init : Reachable init
  | step {σ σ' : Atomic V n} {a : AtomicAct V n} : Reachable σ → σ.step a = some σ' → Reachable σ'

@[simp] theorem setThief_items (σ : Atomic V n) (i : Fin n) (t : AtomicThief V) :
    (σ.setThief i t).items = σ.items := rfl
@[simp] theorem setThief_owner (σ : Atomic V n) (i : Fin n) (t : AtomicThief V) :
    (σ.setThief i t).owner = σ.owner := rfl
@[simp] theorem setThief_thieves (σ : Atomic V n) (i : Fin n) (t : AtomicThief V) :
    (σ.setThief i t).thieves = Function.update σ.thieves i t := rfl
@[simp] theorem setThief_history (σ : Atomic V n) (i : Fin n) (t : AtomicThief V) :
    (σ.setThief i t).history = σ.history := rfl

@[simp] theorem disturbAll_items (σ : Atomic V n) : σ.disturbAll.items = σ.items := rfl
@[simp] theorem disturbAll_owner (σ : Atomic V n) : σ.disturbAll.owner = σ.owner := rfl
@[simp] theorem disturbAll_thieves (σ : Atomic V n) :
    σ.disturbAll.thieves = fun j => (σ.thieves j).disturb := rfl
@[simp] theorem disturbAll_history (σ : Atomic V n) : σ.disturbAll.history = σ.history := rfl

/-! ### One lemma per transition -/

section Transitions

variable {σ : Atomic V n} {i : Fin n}

theorem step_pushBottom (h : σ.owner = .idle) (v : V) :
    σ.step (.pushBottom v) =
      some { σ with owner := .pushing v, history := σ.history ++ [.pushBottom v] } := by
  simp [step, h]

theorem step_popBottom (h : σ.owner = .idle) : σ.step .popBottom = some { σ with owner := .popping } := by
  simp [step, h]

theorem step_push {v : V} (h : σ.owner = .pushing v) :
    σ.step .ownerEffect = some { σ with items := σ.items ++ [v], owner := .pushed } := by
  simp [step, h]

/-- A `pop_bottom` takes effect on a list of other than one element. -/
theorem step_pop (h : σ.owner = .popping) (hl : σ.items.length ≠ 1) :
    σ.step .ownerEffect =
      some { σ with items := σ.items.dropLast, owner := .returning σ.items.getLast? } := by
  simp [step, h, hl]

/-- A `pop_bottom` takes the only element, which is also the first. -/
theorem step_pop_only (h : σ.owner = .popping) (hl : σ.items.length = 1) :
    σ.step .ownerEffect =
      some { σ with items := σ.items.dropLast, owner := .returning σ.items.getLast? }.disturbAll := by
  simp [step, h, hl]

theorem step_pushed (h : σ.owner = .pushed) : σ.step .ownerReturn = some { σ with owner := .idle } := by
  simp [step, h]

theorem step_returning {r : Option V} (h : σ.owner = .returning r) :
    σ.step .ownerReturn = some { σ with owner := .idle, history := σ.history ++ [.popBottom r] } := by
  simp [step, h]

theorem step_popTop (h : σ.thieves i = .idle) :
    σ.step (.popTop i) = some (σ.setThief i (.stealing false)) := by
  simp [step, h]

theorem step_steal {d : Bool} (h : σ.thieves i = .stealing d) (e : Bool) :
    σ.step (.steal i e) =
      some ({ σ with items := σ.items.tail }.disturbAll.setThief i (.returning σ.items.head? e)) := by
  simp [step, h]

theorem step_abort {d : Bool} (h : σ.thieves i = .stealing d) (ha : σ.mayAbort d = true)
    (e : Bool) : σ.step (.abort i e) = some (σ.setThief i (.returning none e)) := by
  simp [step, h, ha]

theorem step_thiefReturn {r : Option V} {e : Bool} (h : σ.thieves i = .returning r e) :
    σ.step (.thiefReturn i) =
      some { σ.setThief i .idle with history := σ.history ++ [.popTop r e] } := by
  simp [step, h]

end Transitions

/-- Some steps of the atomic deque, possibly none. -/
def Steps : Atomic V n → Atomic V n → Prop :=
  Relation.ReflTransGen fun σ σ' => ∃ a, σ.step a = some σ'

theorem Steps.head {σ σ' σ'' : Atomic V n} {a : AtomicAct V n} (h : σ.step a = some σ')
    (hs : Steps σ' σ'') : Steps σ σ'' :=
  Relation.ReflTransGen.head ⟨a, h⟩ hs

theorem Steps.of_eq {σ σ' : Atomic V n} (h : σ' = σ) : Steps σ σ' :=
  h ▸ Relation.ReflTransGen.refl

theorem Steps.of_step {σ σ₁ σ' : Atomic V n} {a : AtomicAct V n} (h : σ.step a = some σ₁)
    (he : σ₁ = σ') : Steps σ σ' :=
  he ▸ Relation.ReflTransGen.single ⟨a, h⟩

theorem Reachable.steps {σ σ' : Atomic V n} (h : Reachable σ) (hs : Steps σ σ') : Reachable σ' := by
  induction hs with
  | refl => exact h
  | tail _ hst ih =>
    obtain ⟨a, ha⟩ := hst
    exact ih.step ha

end Atomic

/-! ## The atomic deque a state stands for -/

/-- The elements in the slots `top ≤ i < bot`, `top` first. -/
def liveItems (slots : Nat → Option V) (top bot : Nat) : List V :=
  (List.range' top (bot - top)).filterMap slots

/-- The end of the deque as the atomic deque sees it: `bot`, but past slot `b`
from the store `bot = b` of a `pop_bottom` until that `pop_bottom` takes
effect. -/
def Owner.effectiveBot (bot : Nat) : Owner V → Nat
  | .popLoadTop b | .popCas b _ | .popRestore b _ => b + 1
  | .popRead b t => if t = b then b + 1 else b
  | _ => bot

/-- The owner's position in the atomic deque. Between `put_head` and the
store of `bot`, the push is of the value in its slot. -/
def Owner.atomic (slots : Nat → Option V) : Owner V → AtomicOwner V
  | .idle => .idle
  | .pushPut _ v => .pushing v
  | .pushStore b => (slots b).elim .pushed .pushing
  | .popStore _ | .popLoadTop _ | .popCas _ _ => .popping
  | .popRead b t => if t = b then .popping else .returning (slots b)
  | .popRestore _ val => .returning val

/-- A thief's position in the atomic deque: it is disturbed once `top` has
moved past the value it loaded, and a winning CAS took the slot it claimed. -/
def Thief.atomic (top : Nat) (slots : Nat → Option V) : Thief Unit → AtomicThief V
  | .idle => .idle
  | .loadedTop oldTop | .loadedBot oldTop _ => .stealing (oldTop != top)
  | .assertFailed => .stealing true
  | .claimed oldTop localBot _ => .returning (slots oldTop) (localBot == oldTop + 1)

/-- The atomic deque a state of the deque on the ideal array stands for. -/
def linearize (s : IdealState V n) : Atomic V n where
  items := liveItems s.arr s.top (s.owner.effectiveBot s.bot)
  owner := s.owner.atomic s.arr
  thieves i := (s.thieves i).atomic s.top s.arr
  history := s.history

/-! ## Lists of live elements -/

section Items

variable (slots : Nat → Option V)

theorem liveItems_empty {top bot : Nat} (h : bot ≤ top) : liveItems slots top bot = [] := by
  simp [liveItems, Nat.sub_eq_zero_of_le h]

/-- Raising `bot` over slot `b ≥ top` appends its element. -/
theorem liveItems_succ_bot {top b : Nat} (h : top ≤ b) :
    liveItems slots top (b + 1) = liveItems slots top b ++ (slots b).toList := by
  have : b + 1 - top = b - top + 1 := by omega
  simp only [liveItems, this, List.range'_concat, List.filterMap_append, one_mul,
    Nat.add_sub_cancel' h]
  cases hb : slots b <;> simp [List.filterMap_cons, hb]

/-- The first element of a non-empty range is in slot `top`. -/
theorem liveItems_succ_top {top bot : Nat} (h : top < bot) :
    liveItems slots top bot = (slots top).toList ++ liveItems slots (top + 1) bot := by
  have : bot - top = bot - (top + 1) + 1 := by omega
  simp only [liveItems, this, List.range'_succ]
  cases ht : slots top <;> simp [List.filterMap_cons, ht]

/-- Writing a slot at or above `bot` changes no live element. -/
theorem liveItems_update {top bot b : Nat} (h : bot ≤ b) (x : Option V) :
    liveItems (Function.update slots b x) top bot = liveItems slots top bot :=
  List.filterMap_congr fun i hi => Function.update_noteq (by simp at hi; omega) _ _

/-- Non-null slots `top < b` make a list of at least two elements. -/
theorem liveItems_length_ne_one {top b : Nat} (h : top < b) (htop : slots top ≠ none)
    (hb : slots b ≠ none) : (liveItems slots top (b + 1)).length ≠ 1 := by
  obtain ⟨x, hx⟩ := Option.ne_none_iff_exists'.1 htop
  obtain ⟨y, hy⟩ := Option.ne_none_iff_exists'.1 hb
  rw [liveItems_succ_top slots (by omega), liveItems_succ_bot slots h, hx, hy]
  simp

end Items

theorem getLast?_toList (o : Option V) : o.toList.getLast? = o := by
  cases o <;> rfl

/-! ## Facts about `linearize` -/

section Linearize

variable (s : IdealState V n)

@[simp] theorem linearize_items :
    (linearize s).items = liveItems s.arr s.top (s.owner.effectiveBot s.bot) := rfl
@[simp] theorem linearize_owner : (linearize s).owner = s.owner.atomic s.arr := rfl
@[simp] theorem linearize_thieves :
    (linearize s).thieves = fun i => (s.thieves i).atomic s.top s.arr := rfl
@[simp] theorem linearize_history : (linearize s).history = s.history := rfl

theorem linearize_setThief (i : Fin n) (t : Thief Unit) :
    linearize (s.setThief i t) = (linearize s).setThief i (t.atomic s.top s.arr) := by
  simp only [linearize, State.setThief, Atomic.setThief, Atomic.mk.injEq, true_and, and_true]
  funext j
  exact Function.apply_update (fun _ (x : Thief Unit) => x.atomic s.top s.arr) s.thieves i t j

theorem linearize_record (e : Event V) :
    linearize (s.record e) = { linearize s with history := s.history ++ [e] } := rfl

/-- A thief step that leaves the thief's position in the atomic deque alone
stands for no step. -/
theorem linearize_setThief_same {i : Fin n} {t : Thief Unit}
    (h : t.atomic s.top s.arr = (s.thieves i).atomic s.top s.arr) :
    linearize (s.setThief i t) = linearize s := by
  rw [linearize_setThief, h]
  exact congrArg (fun f => { linearize s with thieves := f })
    (Function.update_eq_self i (linearize s).thieves)

theorem linearize_init : linearize (init (ideal V) : IdealState V n) = Atomic.init := by
  simp only [linearize, Deque.init, liveItems_empty _ (le_refl 0)]
  rfl

end Linearize

/-! ## Positions in the atomic deque -/

/-- A thief's position in the atomic deque reads only the slot it claimed. -/
theorem Thief.atomic_update {t : Thief Unit} {top : Nat} {slots : Nat → Option V} {b : Nat}
    {x : Option V} (h : ∀ oldTop localBot r, t = .claimed oldTop localBot r → oldTop ≠ b) :
    t.atomic top (Function.update slots b x) = t.atomic top slots := by
  cases t with
  | claimed oldTop localBot r => simp [Thief.atomic, Function.update_noteq (h _ _ _ rfl)]
  | _ => rfl

/-- When `top` moves, every thief inside `pop_top` that has not taken effect
is disturbed: it loaded a `top` no larger than the old one. -/
theorem ThiefOk.atomic_succ_top {top bot : Nat} {o : Owner V} {t : Thief Unit}
    (h : ThiefOk top bot o t) (slots : Nat → Option V) :
    t.atomic (top + 1) slots = (t.atomic top slots).disturb := by
  cases t with
  | loadedTop oldTop | loadedBot oldTop _ =>
    simp only [ThiefOk] at h
    simp [Thief.atomic, AtomicThief.disturb, show oldTop ≠ top + 1 by omega]
  | assertFailed => exact h.elim
  | _ => rfl

/-- A thief that would win its CAS now finds its index in the atomic deque's list. -/
theorem OwnerOk.lt_effectiveBot {bot top : Nat} {o : Owner V} (h : OwnerOk bot top o)
    (hk : top < bot ∨ o.Contests top) : top < o.effectiveBot bot := by
  cases o <;> simp only [OwnerOk, Owner.Contests, Owner.effectiveBot, or_false] at h hk ⊢ <;>
    (try split_ifs) <;> omega

/-- With `bot ≤ top`, the atomic deque's list is empty, or a `pop_bottom` that
has not taken effect is in progress. -/
theorem OwnerOk.empty_or_popping {bot top : Nat} {o : Owner V} (h : OwnerOk bot top o)
    (hb : bot ≤ top) (slots : Nat → Option V) :
    o.effectiveBot bot ≤ top ∨ (o.atomic slots).isPopping = true := by
  cases o <;> simp only [OwnerOk, Owner.effectiveBot, Owner.atomic, AtomicOwner.isPopping] at h ⊢
  all_goals first | omega | (try split_ifs) <;> simp_all

theorem Owner.atomic_eq_idle {o : Owner V} (slots : Nat → Option V) :
    o.atomic slots = .idle ↔ o = .idle := by
  cases o <;> simp only [Owner.atomic, reduceCtorEq, iff_true, iff_false]
  case pushStore b => cases slots b <;> simp
  case popRead b t => split_ifs <;> simp

theorem Thief.atomic_eq_idle {t : Thief Unit} (top : Nat) (slots : Nat → Option V) :
    t.atomic top slots = .idle ↔ t = .idle := by
  cases t <;> simp [Thief.atomic]

/-! ## The simulation -/

section Simulation

variable {s s' : IdealState V n}

/-- An owner step is a step of no operation, the effect of the owner's
operation, or its return. -/
theorem ownerStep_linearize (hsh : Shape s) (hc : Conserved s) (hcas : CasRead s)
    (h : ownerStep (ideal V) s = some s') : Atomic.Steps (linearize s) (linearize s') := by
  have ho := hsh.owner
  unfold Deque.ownerStep at h
  cases hown : s.owner with
  | idle => simp [hown] at h
  | pushPut b v =>
    simp only [hown, OwnerOk, ideal, Option.map_some', Option.some.injEq] at h ho
    subst h
    have hthieves : ∀ i, (s.thieves i).atomic s.top (Function.update s.arr b (some v)) =
        (s.thieves i).atomic s.top s.arr := fun i => Thief.atomic_update fun oldTop localBot r hi => by
      have := hsh.thief i
      simp only [hi, ThiefOk] at this
      omega
    exact .of_eq (by ext <;> simp [hown, Owner.atomic, Owner.effectiveBot, ho.1, liveItems_update,
      hthieves])
  | pushStore b =>
    simp only [hown, OwnerOk, Option.some.injEq] at h ho
    subst h
    have hitems := liveItems_succ_bot s.arr ho.2
    cases hv : s.arr b with
    | none =>
      refine .of_step (Atomic.step_pushed (by simp [hown, Owner.atomic, hv])) ?_
      ext <;> simp [hown, Owner.atomic, Owner.effectiveBot, ho.1, hitems, hv]
    | some v =>
      refine .head (Atomic.step_push (v := v) (by simp [hown, Owner.atomic, hv]))
        (.of_step (Atomic.step_pushed rfl) ?_)
      ext <;> simp [hown, Owner.atomic, Owner.effectiveBot, ho.1, hitems, hv]
  | popStore b =>
    simp only [hown, OwnerOk, Option.some.injEq] at h ho
    subst h
    exact .of_eq (by ext <;> simp [hown, Owner.atomic, Owner.effectiveBot, ho.1])
  | popLoadTop b =>
    simp only [hown, OwnerOk] at h ho
    split at h <;> simp only [Option.some.injEq] at h <;> subst h
    next htop =>
      rcases Nat.lt_or_eq_of_le htop with hlt | heq
      · have hb : s.arr b ≠ none := hc.ne_none (by simp [hown, Owner.held, htop, add_assoc])
        have hfirst : s.arr s.top ≠ none := hc.ne_none (by
          rw [liveRange_succ_top s.arr (show s.top < s.bot by omega)]
          exact le_add_right (le_add_right (le_add_right le_rfl)))
        obtain ⟨v, hv⟩ := Option.ne_none_iff_exists'.1 hb
        refine .of_step (Atomic.step_pop (by simp [hown, Owner.atomic])
          (by simpa [hown, Owner.effectiveBot] using liveItems_length_ne_one s.arr hlt hfirst hb)) ?_
        ext <;> simp [hown, Owner.atomic, Owner.effectiveBot, Nat.ne_of_lt hlt,
          liveItems_succ_bot _ htop, hv]
      · exact .of_eq (by ext <;> simp [hown, Owner.atomic, Owner.effectiveBot, heq])
    next htop =>
      have hnil := liveItems_empty s.arr (show b + 1 ≤ s.top by omega)
      refine .of_step (Atomic.step_pop (by simp [hown, Owner.atomic])
        (by simp [hown, Owner.effectiveBot, hnil])) ?_
      ext <;> simp [hown, Owner.atomic, Owner.effectiveBot, hnil]
  | popRead b t =>
    simp only [hown, OwnerOk, ideal, Option.map_some'] at h ho
    split at h <;> simp only [Option.some.injEq] at h <;> subst h
    next htb => exact .of_eq (by ext <;> simp [hown, Owner.atomic, Owner.effectiveBot, htb])
    next htb =>
      refine .of_step (Atomic.step_returning (r := s.arr b) (by simp [hown, Owner.atomic, htb])) ?_
      ext <;> simp [hown, Owner.atomic, Owner.effectiveBot, htb, ho.1]
  | popCas b val =>
    have hval := hcas b val hown
    subst hval
    simp only [hown, OwnerOk] at h ho
    split at h <;> simp only [Option.some.injEq] at h <;> subst h
    next htop =>
      subst htop
      obtain ⟨v, hv⟩ := Option.ne_none_iff_exists'.1 (hc.ne_none (x := s.arr s.top)
        (by simp [hown, Owner.held, add_assoc]))
      have hone : liveItems s.arr s.top (s.top + 1) = [v] := by
        rw [liveItems_succ_bot _ le_rfl, liveItems_empty _ le_rfl, hv]
        rfl
      refine .of_step (Atomic.step_pop_only (by simp [hown, Owner.atomic])
        (by simp [hown, Owner.effectiveBot, hone])) ?_
      ext1
      · simp [hown, Owner.effectiveBot, hone, liveItems_empty s.arr (le_refl (s.top + 1))]
      · simp [hown, Owner.atomic, Owner.effectiveBot, hone, hv]
      · funext j
        simp [(hsh.thief j).atomic_succ_top s.arr]
      · rfl
    next htop =>
      have hnil := liveItems_empty s.arr (show b + 1 ≤ s.top by omega)
      refine .of_step (Atomic.step_pop (by simp [hown, Owner.atomic])
        (by simp [hown, Owner.effectiveBot, hnil])) ?_
      ext <;> simp [hown, Owner.atomic, Owner.effectiveBot, hnil]
  | popRestore b val =>
    simp only [hown, Option.some.injEq] at h
    subst h
    exact .of_step (Atomic.step_returning (r := val) (by simp [hown, Owner.atomic]))
      (by ext <;> simp [hown, Owner.atomic, Owner.effectiveBot])

/-- A thief step is a step of no operation, the effect of its `pop_top`, the
instant it gives up, or its return. -/
theorem thiefStep_linearize {i : Fin n} (hsh : Shape s) (hc : Conserved s)
    (h : thiefStep (ideal V) s i = some s') : Atomic.Steps (linearize s) (linearize s') := by
  have hti := hsh.thief i
  unfold Deque.thiefStep at h
  cases hthief : s.thieves i with
  | idle => simp [hthief] at h
  | assertFailed => simp [hthief] at h
  | loadedTop oldTop =>
    simp only [hthief, ThiefOk] at h hti
    split at h
    · exact absurd hsh.owner.top_le (by omega)
    split at h <;> simp only [Option.some.injEq] at h <;> subst h
    · exact .of_eq (linearize_setThief_same _ (by simp [hthief, Thief.atomic]))
    next hbot =>
      have habort : (linearize s).mayAbort (oldTop != s.top) = true := by
        rcases Nat.lt_or_eq_of_le hti with hlt | rfl
        · simp [Atomic.mayAbort, Nat.ne_of_lt hlt]
        · rcases hsh.owner.empty_or_popping (by omega) s.arr with he | hp
          · simp [Atomic.mayAbort, liveItems_empty s.arr he]
          · simp [Atomic.mayAbort, hp]
      refine .head (Atomic.step_abort (i := i) (by simp [hthief, Thief.atomic]) habort true)
        (.of_step (Atomic.step_thiefReturn (i := i) (r := none) (e := true) (by simp)) ?_)
      rw [linearize_record, linearize_setThief]
      ext <;> simp [Thief.atomic]
  | loadedBot oldTop localBot =>
    simp only [hthief, ThiefOk] at h hti
    split at h <;> simp only [Option.some.injEq] at h <;> subst h
    next htop =>
      subst htop
      have hk := hti.2.2 rfl
      have hlt := hsh.owner.lt_effectiveBot hk
      obtain ⟨w, hw⟩ := Option.ne_none_iff_exists'.1 (hc.ne_none (x := s.arr s.top) (by
        rw [hsh.owner.cas_handover s.arr hk]
        exact le_add_right (le_add_left le_rfl)))
      refine .of_step (Atomic.step_steal (i := i) (d := false) (by simp [hthief, Thief.atomic])
        (localBot == s.top + 1)) ?_
      rw [linearize_setThief]
      congr 1
      · ext1
        · simp [liveItems_succ_top s.arr hlt, hw]
        · rfl
        · funext j
          simp [(hsh.thief j).atomic_succ_top s.arr]
        · rfl
      · simp [Thief.atomic, liveItems_succ_top s.arr hlt, hw]
    next htop =>
      refine .head (Atomic.step_abort (i := i) (d := true)
        (by simp [hthief, Thief.atomic, Ne.symm htop]) (by simp [Atomic.mayAbort])
        (localBot == s.top + 1))
        (.of_step (Atomic.step_thiefReturn (i := i) (r := none) (e := localBot == s.top + 1)
          (by simp)) ?_)
      rw [linearize_record, linearize_setThief]
      ext <;> simp [Thief.atomic]
  | claimed oldTop localBot r =>
    simp only [hthief, ideal, Option.map_some', Option.some.injEq, Sum.elim_inr] at h
    subst h
    refine .of_step (Atomic.step_thiefReturn (i := i) (r := s.arr oldTop)
      (e := localBot == oldTop + 1) (by simp [hthief, Thief.atomic])) ?_
    rw [linearize_record, linearize_setThief]
    rfl

/-- Every step of the deque on the ideal array is matched by steps of the
atomic deque. -/
theorem step_linearize {a : Act V n} (hsh : Shape s) (hc : Conserved s) (hcas : CasRead s)
    (h : step (ideal V) s a = some s') : Atomic.Steps (linearize s) (linearize s') := by
  cases a with
  | owner => exact ownerStep_linearize hsh hc hcas h
  | thief i => exact thiefStep_linearize hsh hc h
  | pushBottom v =>
    cases hown : s.owner <;> simp only [Deque.step, hown, reduceCtorEq, Option.some.injEq] at h
    subst h
    exact .of_step (Atomic.step_pushBottom (by simp [hown, Owner.atomic]) v)
      (by ext <;> simp [hown, Owner.atomic, Owner.effectiveBot])
  | popBottom =>
    cases hown : s.owner <;> simp only [Deque.step, hown, reduceCtorEq] at h
    split at h <;> simp only [Option.some.injEq] at h <;> subst h
    next hbot =>
      have hnil := liveItems_empty s.arr (show s.bot ≤ s.top by omega)
      refine .head (Atomic.step_popBottom (by simp [hown, Owner.atomic]))
        (.head (Atomic.step_pop rfl (by simp [hown, Owner.effectiveBot, hnil]))
          (.of_step (Atomic.step_returning rfl) ?_))
      ext <;> simp [hown, Owner.atomic, Owner.effectiveBot, hnil]
    next hbot =>
      exact .of_step (Atomic.step_popBottom (by simp [hown, Owner.atomic]))
        (by ext <;> simp [hown, Owner.atomic, Owner.effectiveBot])
  | popTop i =>
    cases hthief : s.thieves i <;>
      simp only [Deque.step, hthief, reduceCtorEq, Option.some.injEq] at h
    subst h
    exact .of_step (Atomic.step_popTop (i := i) (by simp [hthief, Thief.atomic]))
      (by rw [linearize_setThief]; simp [Thief.atomic])

end Simulation

/-- Every reachable state of the deque on the ideal array stands for a
reachable state of the atomic deque. -/
theorem reachable_linearize {s : IdealState V n} (h : Reachable (ideal V) s) :
    Atomic.Reachable (linearize s) := by
  induction h with
  | init => exact linearize_init (n := n) ▸ Atomic.Reachable.init
  | step hr hs ih =>
    exact ih.steps (step_linearize (reachable_shape _ hr) (reachable_conserved hr)
      (reachable_casRead hr) hs)

/-- The deque on the ideal array is linearizable, for any number of thieves.
Every reachable state stands for a reachable state of the atomic deque with the
same history, and each next step of the deque is matched by steps of the
atomic deque. A thread is idle in the atomic deque exactly when it is idle in
the deque, so each operation takes effect between its call and its return. -/
theorem ideal_linearizable {s : IdealState V n} (h : Reachable (ideal V) s) :
    Atomic.Reachable (linearize s) ∧ (linearize s).history = s.history ∧
      ((linearize s).owner = .idle ↔ s.owner = .idle) ∧
      (∀ i, (linearize s).thieves i = .idle ↔ s.thieves i = .idle) ∧
      ∀ a s', step (ideal V) s a = some s' → Atomic.Steps (linearize s) (linearize s') :=
  ⟨reachable_linearize h, rfl, Owner.atomic_eq_idle s.arr,
    fun _ => Thief.atomic_eq_idle s.top s.arr,
    fun _ _ hs => step_linearize (reachable_shape _ h) (reachable_conserved h) (reachable_casRead h) hs⟩

/-- After the two thieves' race the winner still holds the element it claimed,
and the atomic deque is empty. -/
theorem ideal_linearizable_race :
    ∃ s, run (ideal Nat) (init (ideal Nat)) twoThievesRace = some s ∧ (linearize s).items = [] ∧
      Atomic.Reachable (linearize s) ∧ (linearize s).history = s.history ∧
      ((linearize s).owner = .idle ↔ s.owner = .idle) ∧
      (∀ i, (linearize s).thieves i = .idle ↔ s.thieves i = .idle) ∧
      ∀ a s', step (ideal Nat) s a = some s' → Atomic.Steps (linearize s) (linearize s') :=
  ⟨_, rfl, rfl, ideal_linearizable (Reachable.init.run (l := twoThievesRace) rfl)⟩

/-- With one thief, the deque on `continuous_array` is linearizable: each
reachable state stands, through the deque on the ideal array, for a reachable
state of the atomic deque with the same history, and each next step is matched
by steps of the atomic deque. -/
theorem one_thief_linearizable {s : BlockState V 1} (h : Reachable (blocks V) s) :
    Atomic.Reachable (linearize (abstract s)) ∧ (linearize (abstract s)).history = s.history ∧
      ∀ a s', step (blocks V) s a = some s' →
        Atomic.Steps (linearize (abstract s)) (linearize (abstract s')) := by
  obtain ⟨habs, -, hsole⟩ := reachable_abstract h
  refine ⟨reachable_linearize habs, rfl, fun a s' hs => ?_⟩
  obtain ⟨lo, hi, hl⟩ := reachable_layout h
  rcases (step_abstract hl (reachable_shape _ h) hsole hs).1 with he | hstep
  · exact .of_eq (congrArg linearize he)
  · exact step_linearize (reachable_shape _ habs) (reachable_conserved habs)
      (reachable_casRead habs) hstep

/-- Mid-race between `pop_top` and `pop_bottom` on `continuous_array`: the
thief's claim has taken the element out of the atomic deque. -/
theorem one_thief_linearizable_race :
    ∃ s, run (blocks Nat) (init (blocks Nat)) popRace = some s ∧
      (linearize (abstract s)).items = [] ∧
      Atomic.Reachable (linearize (abstract s)) ∧ (linearize (abstract s)).history = s.history ∧
      ∀ a s', step (blocks Nat) s a = some s' →
        Atomic.Steps (linearize (abstract s)) (linearize (abstract s')) :=
  ⟨_, rfl, rfl, one_thief_linearizable (Reachable.init.run (l := popRace) rfl)⟩

end Parlay.Deque
