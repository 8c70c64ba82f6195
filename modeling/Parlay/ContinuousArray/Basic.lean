import Mathlib

/-!
# `continuous_array`: blocks, the owner's operations and `get_tail`

`continuous_array<T>` (`continuous_array.h`) keeps the deque's elements in
blocks of `block_size` elements, doubly linked by `prev` and `next`. The owner
writes and reads at the head end (`put_head`, `get_head`); thieves read at the
tail end (`get_tail`), and the thief that first reads the first element of a
block retires the block before it (`ca_retire_last_block`), pushing it onto
the shared stack `to_retire` through its `prev` field.

How the C++ is read:
* The heap maps an address to the block `malloc` put there; a pointer is
  `Option Nat`, `none` being `nullptr`. `free` leaves the heap alone: the
  destructor's result is the list of blocks it passes to `free`.
* `uint64_t` block ids and indices are `Nat`: ids count allocations and stay
  far below `2^64`.
* A failed `assert` is recorded in `faults` and execution goes on, as in a
  build with `NDEBUG`; a debug build stops at the first recorded fault. An
  `assert(p != nullptr)` followed by `p->…` is the dereference itself. A null
  dereference stops the program: the operation's result is `none`.
* The owner's operations are one step each: they write the owner's fields and
  publish a new block by the single store `head->next = new_block`, after its
  fields are set. `get_tail` and `ca_retire_last_block` take one step per
  access to shared memory; one iteration of a block search reads one block and
  is one step.
-/

namespace Parlay.ContinuousArray

/-- `BLOCK_SIZE_LOG`. -/
def blockSizeLog : Nat := 14

/-- `block_size`: the elements in a block. -/
def blockSize : Nat := 1 <<< blockSizeLog

/-- `block_size_mask`. -/
def blockSizeMask : Nat := blockSize - 1

/-- `index >> BLOCK_SIZE_LOG`: the id of the block that holds `index`. -/
def desiredBlockId (index : Nat) : Nat := index >>> blockSizeLog

/-- `index & block_size_mask`: where `index` sits in its block. -/
def offset (index : Nat) : Nat := index &&& blockSizeMask

/-- A `block`. -/
structure Block (T : Type) where
  prev : Option Nat
  next : Option Nat
  blockId : Nat
  array : Nat → Option T

/-- A block as `malloc` returns it. Its links and id are written before they
are read; an element never stored reads as `none`. -/
def Block.fresh {T : Type} : Block T := ⟨none, none, 0, fun _ => none⟩

/-- The assertions of `continuous_array` that do not dereference the pointer
they test, by the condition they check. -/
inductive Check where
  /-- `assert(block_in_use->block_id == desired_block_id)` in `put_head`. -/
  | putHead
  /-- The same assertion in `get_head`. -/
  | getHead
  /-- `assert(b->block_id == desired_block_id)` in `get_tail`. -/
  | getTail
  /-- `assert(next_old_block != nullptr)` in `ca_retire_last_block`. -/
  | retireNext
  /-- `assert(tail.load()->block_id > old_block->block_id)` in `ca_retire_last_block`. -/
  | retireYounger
deriving DecidableEq, Repr

/-- The fields of a `continuous_array`, with the heap they point into. -/
structure CA (T : Type) where
  /-- The block at each address `malloc` returned. -/
  mem : Nat → Option (Block T)
  /-- The address the next `malloc` returns. -/
  brk : Nat
  head : Option Nat
  blockInUse : Option Nat
  blocksToReuse : Option Nat
  currBlockId : Nat
  tail : Option Nat
  toRetire : Option Nat
  /-- The assertions that failed so far. -/
  faults : List Check

section Operations

variable {T : Type}

/-- `p->…`: the block `p` points to; `none` on `nullptr`. -/
def CA.get (ca : CA T) (p : Option Nat) : Option (Block T) := p.bind ca.mem

/-- A write through `p` to the fields of the block it points to. -/
def CA.set (ca : CA T) : Option Nat → (Block T → Block T) → Option (CA T)
  | none, _ => none
  | some p, f => (ca.mem p).map fun b => { ca with mem := Function.update ca.mem p (some (f b)) }

/-- `assert(c)`: a failure is recorded. -/
def CA.check (ca : CA T) (c : Prop) [Decidable c] (f : Check) : CA T :=
  if c then ca else { ca with faults := ca.faults ++ [f] }

@[simp] theorem CA.check_mem (ca : CA T) (c : Prop) [Decidable c] (f : Check) :
    (ca.check c f).mem = ca.mem := by unfold CA.check; split_ifs <;> rfl
@[simp] theorem CA.check_tail (ca : CA T) (c : Prop) [Decidable c] (f : Check) :
    (ca.check c f).tail = ca.tail := by unfold CA.check; split_ifs <;> rfl
@[simp] theorem CA.check_head (ca : CA T) (c : Prop) [Decidable c] (f : Check) :
    (ca.check c f).head = ca.head := by unfold CA.check; split_ifs <;> rfl
@[simp] theorem CA.check_blockInUse (ca : CA T) (c : Prop) [Decidable c] (f : Check) :
    (ca.check c f).blockInUse = ca.blockInUse := by unfold CA.check; split_ifs <;> rfl
@[simp] theorem CA.check_toRetire (ca : CA T) (c : Prop) [Decidable c] (f : Check) :
    (ca.check c f).toRetire = ca.toRetire := by unfold CA.check; split_ifs <;> rfl
@[simp] theorem CA.check_get (ca : CA T) (c : Prop) [Decidable c] (f : Check) (p : Option Nat) :
    (ca.check c f).get p = ca.get p := by simp [CA.get]
@[simp] theorem CA.check_pos (ca : CA T) {c : Prop} [Decidable c] (f : Check) (h : c) :
    ca.check c f = ca := if_pos h

/-- `malloc(sizeof(block))`. -/
def malloc (ca : CA T) : CA T × Nat :=
  ({ ca with mem := Function.update ca.mem ca.brk (some Block.fresh), brk := ca.brk + 1 }, ca.brk)

/-- `pop_reuse_block()`. -/
def popReuseBlock (ca : CA T) : Option (CA T × Option Nat) :=
  match ca.blocksToReuse with
  | none => some (ca, none)
  | some b => (ca.mem b).map fun blk => ({ ca with blocksToReuse := blk.prev }, some b)

/-- `push_reuse_block(b)`. -/
def pushReuseBlock (ca : CA T) (b : Nat) : Option (CA T) :=
  (ca.set (some b) fun blk => { blk with prev := ca.blocksToReuse }).map
    fun ca' => { ca' with blocksToReuse := some b }

/-- `get_block()`: a block from the reuse list, or a new one. -/
def getBlock (ca : CA T) : Option (CA T × Nat) := do
  let (ca, b) ← popReuseBlock ca
  match b with
  | some b => pure (ca, b)
  | none => pure (malloc ca)

/-- `ca_alloc()`: a new block with the next id, linked after `head`. -/
def caAlloc (ca : CA T) : Option (CA T) := do
  let (ca, nb) ← getBlock ca
  let ca ← ca.set (some nb) fun blk =>
    { blk with prev := ca.head, next := none, blockId := ca.currBlockId }
  let ca := { ca with currBlockId := ca.currBlockId + 1 }
  let ca ← ca.set ca.head fun blk => { blk with next := some nb }
  pure { ca with head := some nb }

/-- The fields before the constructor's body runs. -/
def unconstructed : CA T :=
  { mem := fun _ => none, brk := 0, head := none, blockInUse := none, blocksToReuse := none,
    currBlockId := 0, tail := none, toRetire := none, faults := [] }

/-- `continuous_array()`: one block, id 0, which is `head`, `tail` and
`block_in_use`. `get_block` finds the reuse list empty and calls `malloc`. -/
def create : CA T :=
  let (ca, h) := malloc (unconstructed : CA T)
  { ca with
    mem := Function.update ca.mem h (some { Block.fresh with prev := none, next := none, blockId := 0 })
    head := some h, currBlockId := 1, tail := some h, blockInUse := some h }

/-- `put_head(index, val)`. -/
def putHead (ca : CA T) (index : Nat) (val : T) : Option (CA T) := do
  let desired := desiredBlockId index
  let ca ← if offset index = 0 then do
      let ca ← if ca.currBlockId = desired then caAlloc ca else pure ca
      let inUse ← ca.get ca.blockInUse
      pure (if desired ≠ inUse.blockId then { ca with blockInUse := inUse.next } else ca)
    else pure ca
  let inUse ← ca.get ca.blockInUse
  let ca := ca.check (inUse.blockId = desired) .putHead
  ca.set ca.blockInUse fun blk =>
    { blk with array := Function.update blk.array (offset index) (some val) }

/-- `get_head(index)`: the array after the call and the element read. -/
def getHead (ca : CA T) (index : Nat) : Option (CA T × Option T) := do
  let desired := desiredBlockId index
  let inUse ← ca.get ca.blockInUse
  let ca := if inUse.blockId ≠ desired then { ca with blockInUse := inUse.prev } else ca
  let inUse ← ca.get ca.blockInUse
  pure (ca.check (inUse.blockId = desired) .getHead, inUse.array (offset index))

/-- `get_retired()`, run by the owner as one step: it swaps `to_retire` with
`nullptr`, so its assertion holds. -/
def getRetired (ca : CA T) : CA T × Option Nat := ({ ca with toRetire := none }, ca.toRetire)

/-- The loop of `free_retired()`: every block of the list from `r` on goes to
the reuse list. `none` when the list does not end within `fuel` blocks. -/
def freeRetiredLoop : Nat → CA T → Option Nat → Option (CA T)
  | _, ca, none => some ca
  | 0, _, some _ => none
  | fuel + 1, ca, some r => do
    let blk ← ca.get (some r)
    let ca ← pushReuseBlock ca r
    freeRetiredLoop fuel ca blk.prev

/-- `free_retired()`. A list of distinct blocks has at most `brk` of them. -/
def freeRetired (ca : CA T) : Option (CA T) :=
  let (ca, r) := getRetired ca
  freeRetiredLoop (ca.brk + 1) ca r

/-- The blocks a loop `while (b != nullptr) { aux = b; b = b->prev; free(aux); }`
frees, in order, for at most `fuel` iterations. -/
def CA.freeChain (ca : CA T) : Nat → Option Nat → List Nat
  | 0, _ => []
  | _, none => []
  | fuel + 1, some p => p :: ca.freeChain fuel ((ca.mem p).bind Block.prev)

@[simp] theorem CA.freeChain_none (ca : CA T) (fuel : Nat) : ca.freeChain fuel none = [] := by
  cases fuel <;> rfl

/-- A block whose `prev` is itself keeps the loop on it for good. -/
theorem CA.freeChain_self_loop {ca : CA T} {p : Nat} {blk : Block T} (hp : ca.mem p = some blk)
    (hloop : blk.prev = some p) (fuel : Nat) : ca.freeChain fuel (some p) = List.replicate fuel p := by
  induction fuel with
  | zero => rfl
  | succ k ih => simp [CA.freeChain, hp, hloop, ih, List.replicate_succ]

/-- `~continuous_array()`: the blocks it passes to `free`, in order, each of
its two loops running at most `fuel` iterations. -/
def destroy (ca : CA T) (fuel : Nat) : Option (List Nat) := do
  let (ca, r) := getRetired ca
  let ca ← ca.set ca.tail fun blk => { blk with prev := r }
  pure (ca.freeChain fuel ca.head ++ ca.freeChain fuel ca.blocksToReuse)

end Operations

/-! ## `get_tail` and `ca_retire_last_block`, step by step -/

/-- Where a thread is inside `ca_retire_last_block()`, with its locals. -/
inductive Retire where
  /-- Next `old_block = tail.load()`. -/
  | loadTail
  /-- Next `next_old_block = old_block->next`. -/
  | loadNext (old : Option Nat)
  /-- Next the CAS of `tail` from `old_block` to `next_old_block`. -/
  | cas (old next : Option Nat)
  /-- The CAS failed and set `old_block` to `tail`; next the test
  `next_old_block->block_id < tail.load()->block_id`. -/
  | recheck (old next : Option Nat)
  /-- Next `assert(tail.load()->block_id > old_block->block_id)`. -/
  | checkYounger (old : Option Nat)
  /-- Next `old_to_retire = to_retire.load(); old_block->prev = old_to_retire;`. -/
  | link (old : Option Nat)
  /-- Next the CAS of `to_retire` from `old_to_retire` to `old_block`. -/
  | push (old oldToRetire : Option Nat)
deriving DecidableEq, Repr

/-- Where a thread is inside `get_tail(index)`, with its locals. -/
inductive GetTail where
  /-- Next `t = tail.load()`. -/
  | loadTail
  /-- In the search forward from `t`, at `b`. -/
  | forward (t b : Option Nat)
  /-- In the search backward, at `b`. -/
  | backward (t b : Option Nat)
  /-- Next the assertion on `b` and the test whether to retire. -/
  | found (t b : Option Nat)
  /-- Inside `ca_retire_last_block()`, called after finding block `b`. -/
  | retire (b : Nat) (r : Retire)
  /-- Next `b->array[offset].load()`. -/
  | read (b : Nat)
deriving DecidableEq, Repr

section Steps

variable {T : Type}

/-- One step of `ca_retire_last_block()`: the array after it, and where the
call goes on, `none` once it returns. -/
def Retire.step (ca : CA T) : Retire → Option (CA T × Option Retire)
  | .loadTail => some (ca, some (.loadNext ca.tail))
  | .loadNext old => (ca.get old).map fun blk =>
    (ca.check (blk.next ≠ none) .retireNext, some (.cas old blk.next))
  | .cas old next =>
    if ca.tail = old then some ({ ca with tail := next }, some (.checkYounger old))
    else some (ca, some (.recheck ca.tail next))
  | .recheck old next => do
    let nb ← ca.get next
    let tb ← ca.get ca.tail
    if nb.blockId < tb.blockId then some (ca, some (.checkYounger old))
    else some (ca, some (.cas old next))
  | .checkYounger old => do
    let tb ← ca.get ca.tail
    let ob ← ca.get old
    some (ca.check (tb.blockId > ob.blockId) .retireYounger, some (.link old))
  | .link old => (ca.set old fun blk => { blk with prev := ca.toRetire }).map
    fun ca' => (ca', some (.push old ca.toRetire))
  | .push old expected =>
    if ca.toRetire = expected then some ({ ca with toRetire := old }, none)
    else some (ca, some (.link old))

/-- One step of `get_tail(index)`: the array after it, and where the call goes
on or the element it returns. `t->block_id == desired_block_id - 1` in
`uint64_t` is `t->block_id + 1 == desired_block_id`, ids being below `2^64 - 1`. -/
def GetTail.step (ca : CA T) (index : Nat) : GetTail → Option (CA T × (GetTail ⊕ Option T))
  | .loadTail => some (ca, .inl (.forward ca.tail ca.tail))
  | .forward t none => some (ca, .inl (.backward t none))
  | .forward t (some p) => (ca.mem p).map fun blk =>
    if blk.blockId < desiredBlockId index then (ca, .inl (.forward t blk.next))
    else (ca, .inl (.backward t (some p)))
  | .backward t none => some (ca, .inl (.found t none))
  | .backward t (some p) => (ca.mem p).map fun blk =>
    if blk.blockId > desiredBlockId index then (ca, .inl (.backward t blk.prev))
    else (ca, .inl (.found t (some p)))
  | .found _ none => none
  | .found t (some p) => do
    let blk ← ca.mem p
    let ca := ca.check (blk.blockId = desiredBlockId index) .getTail
    if offset index = 0 ∧ some p ≠ t then do
      let tb ← ca.get t
      if tb.blockId + 1 = desiredBlockId index then some (ca, .inl (.retire p .loadTail))
      else some (ca, .inl (.read p))
    else some (ca, .inl (.read p))
  | .retire p r => (r.step ca).map fun x =>
    (x.1, .inl (match x.2 with
      | some r' => .retire p r'
      | none => .read p))
  | .read p => (ca.mem p).map fun blk => (ca, .inr (blk.array (offset index)))

end Steps

end Parlay.ContinuousArray
