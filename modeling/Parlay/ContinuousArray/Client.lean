import Parlay.ContinuousArray.Basic

/-!
# `continuous_array` under any interleaving of its callers

The owner calls `put_head`, `get_head` and `free_retired`, each one step; `n`
other threads call `get_tail`, whose steps interleave with everything else.
Nothing restricts the indices: this is the array's own contract, without the
deque on top.

Results:
1. `retire_twice_pushes_live_tail`: two threads that enter
   `ca_retire_last_block` while `tail` is `X` with `X->next = Y` both get
   through their CAS on `tail`. The one whose CAS fails reloads `old_block`
   from `tail = Y`, finds `Y->block_id < Y->block_id` false, retries, and its
   CAS from `Y` to `Y` succeeds: its assertion `tail->block_id >
   old_block->block_id` fails, and in a build without assertions it pushes
   `Y`, the live tail, onto `to_retire`.
2. `live_tail_retired_and_freed_twice`: after that race `Y` is at once the
   live chain (`head = tail = Y`) and the top of `to_retire`, and the
   destructor's first loop frees `Y` again and again.
-/

namespace Parlay.ContinuousArray

/-- A `continuous_array` with the calls of `get_tail` in progress. -/
structure Client (T : Type) (n : Nat) where
  ca : CA T
  /-- Thread `i`'s call `get_tail(index)`, with its position. -/
  threads : Fin n → Option (Nat × GetTail)

/-- Who moves: the owner with one whole operation, a thread calling
`get_tail(index)`, or a thread taking its next step. -/
inductive Call (T : Type) (n : Nat) where
  | putHead (index : Nat) (val : T)
  | getHead (index : Nat)
  | freeRetired
  | getTail (i : Fin n) (index : Nat)
  | thread (i : Fin n)

section Runs

variable {T : Type} {n : Nat}

/-- A fresh array, no call in progress. -/
def Client.init : Client T n := ⟨create, fun _ => none⟩

/-- One step. -/
def Client.step (c : Client T n) : Call T n → Option (Client T n)
  | .putHead index val => (putHead c.ca index val).map fun ca => { c with ca := ca }
  | .getHead index => (getHead c.ca index).map fun r => { c with ca := r.1 }
  | .freeRetired => (freeRetired c.ca).map fun ca => { c with ca := ca }
  | .getTail i index =>
    match c.threads i with
    | none => some { c with threads := Function.update c.threads i (some (index, .loadTail)) }
    | some _ => none
  | .thread i =>
    match c.threads i with
    | none => none
    | some (index, g) => (g.step c.ca index).map fun r =>
      { ca := r.1,
        threads := Function.update c.threads i (r.2.elim (fun g' => some (index, g')) fun _ => none) }

/-- The states some interleaving reaches from a fresh array. -/
inductive Client.Reachable : Client T n → Prop where
  | init : Client.Reachable Client.init
  | step {c c' : Client T n} {a : Call T n} : Client.Reachable c → c.step a = some c' →
      Client.Reachable c'

/-- A sequence of steps. -/
def Client.run (c : Client T n) : List (Call T n) → Option (Client T n)
  | [] => some c
  | a :: as => (c.step a).bind fun c' => c'.run as

theorem Client.Reachable.run {c c' : Client T n} {as : List (Call T n)} (h : Client.Reachable c)
    (hr : c.run as = some c') : Client.Reachable c' := by
  induction as generalizing c with
  | nil => cases hr; exact h
  | cons a as ih =>
    simp only [Client.run, Option.bind_eq_some] at hr
    obtain ⟨c₁, h₁, hr⟩ := hr
    exact ih (h.step h₁) hr

end Runs

/-! ## Two retirements of one block -/

/-- `put_head(block_size, 7)` on a fresh array allocates block 1 (address 1)
after block 0 (address 0); then threads 0 and 1 call `get_tail(block_size)`,
both find block 1 past `tail = block 0` at offset 0, and both enter
`ca_retire_last_block` while `tail` is block 0. -/
def raceStart : List (Call Nat 2) :=
  [.putHead 16384 7, .getTail 0 16384, .getTail 1 16384] ++
    List.replicate 5 (.thread 0) ++ List.replicate 5 (.thread 1)

/-- Both threads load `tail` and its `next`; then thread 0 runs its retirement
and its read to the end, and then thread 1. -/
def raceFinish : List (Call Nat 2) :=
  List.replicate 2 (.thread 0) ++ List.replicate 2 (.thread 1) ++ List.replicate 5 (.thread 0) ++
    List.replicate 7 (.thread 1)

/-- Both calls start while `tail` is block 0 with `next` block 1. Once both
returned, `tail` is block 1 and `to_retire` holds block 1 on top of block 0:
the live tail was retired, and the assertion that the new tail is younger than
the retired block failed. -/
theorem retire_twice_pushes_live_tail :
    ∃ c c' : Client Nat 2, Client.Reachable c ∧
      c.ca.tail = some 0 ∧ (c.ca.get (some 0)).map Block.next = some (some 1) ∧
      c.threads 0 = some (16384, .retire 1 .loadTail) ∧
      c.threads 1 = some (16384, .retire 1 .loadTail) ∧
      c.run raceFinish = some c' ∧ c'.threads 0 = none ∧ c'.threads 1 = none ∧
      c'.ca.tail = some 1 ∧ c'.ca.toRetire = some 1 ∧
      (c'.ca.get (some 1)).map Block.prev = some (some 0) ∧
      (c'.ca.get (some 0)).map Block.prev = some none ∧
      c'.ca.faults = [.retireYounger] :=
  ⟨_, _, Client.Reachable.init.run (show Client.init.run raceStart = some _ from rfl), rfl, rfl, rfl, rfl, rfl, rfl, rfl, rfl, rfl,
    rfl, rfl, rfl⟩

/-- A block that is the live chain and the top of `to_retire` at once: the
destructor sets its `prev` to itself (`tail->prev = r`), and its first loop
frees it at every iteration, without end. -/
theorem destroy_of_retired_tail {T : Type} {ca : CA T} {p : Nat} {blk : Block T}
    (hmem : ca.mem p = some blk) (ht : ca.tail = some p) (hh : ca.head = some p)
    (hr : ca.toRetire = some p) (hreuse : ca.blocksToReuse = none) (fuel : Nat) :
    destroy ca fuel = some (List.replicate fuel p) := by
  simp only [destroy, getRetired, CA.set, ht, hh, hr, hreuse, hmem, Option.map_some',
    Option.pure_def, Option.bind_eq_bind, Option.some_bind, CA.freeChain_none, List.append_nil]
  exact congrArg some (CA.freeChain_self_loop (Function.update_same _ _ _) rfl fuel)

/-- After the race, with no call in progress, block 1 is the whole live chain
(`head = tail`) and the top of `to_retire`, and the destructor frees it at each
of its iterations. -/
theorem live_tail_retired_and_freed_twice :
    ∃ c : Client Nat 2, Client.Reachable c ∧ (∀ i, c.threads i = none) ∧
      c.ca.head = some 1 ∧ c.ca.tail = some 1 ∧ c.ca.toRetire = some 1 ∧
      ∀ fuel, destroy c.ca fuel = some (List.replicate fuel 1) :=
  ⟨_, Client.Reachable.init.run (show Client.init.run (raceStart ++ raceFinish) = some _ from rfl),
    by decide, rfl, rfl, rfl, destroy_of_retired_tail rfl rfl rfl rfl rfl⟩

end Parlay.ContinuousArray
