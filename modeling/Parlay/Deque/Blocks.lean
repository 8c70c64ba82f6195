import Parlay.Deque.Invariant
import Parlay.ContinuousArray.Tail

/-!
# The deque on `continuous_array`

`Deque<V>` keeps its slots in a `continuous_array<V*>`: `push_bottom` calls
`put_head(bot, v)`, `pop_bottom` calls `get_head(b)`, and a thief that won its
CAS calls `get_tail(old_top)`, whose steps (the block search and
`ca_retire_last_block`) interleave with everything else.

The owner moves `block_in_use` by one block at most because it moves `bot` by
one index at a time. The tail moves only when the reader of the first element
of the block after it retires it, and that reader holds an index no other
thread holds. So in every reachable state the blocks from the tail to the head
form a chain linked both ways, at the addresses equal to their ids;
`block_in_use` lies on it next to `bot`; and the assertions of `put_head` and
`get_head` hold.

Results:
1. `Layout`: the chain, where `block_in_use` is, how far the owner has
   written, how far the tail has moved, and what every reader knows. Every
   step keeps it (`Layout.step`), and the owner's next step always exists
   (`Layout.ownerStep_some`).
2. `blocks_layout`: in every reachable state the chain runs from the tail to
   the head, `block_in_use` lies on it next to `bot`, the owner never
   dereferences null, and no assertion of `put_head` or `get_head` fails.
-/

namespace Parlay.Deque

open ContinuousArray

/-- `Deque<V>` over `continuous_array<V*>`: a thief's `get_tail` starts by
loading `tail`. -/
def blocks (V : Type) : Storage (CA V) V GetTail where
  empty := create
  putHead := putHead
  getHead := getHead
  getTail _ := .loadTail
  tailStep ca index g := g.step ca index

/-- A deque on `continuous_array`. -/
abbrev BlockState (V : Type) (n : Nat) := State (CA V) V GetTail n

variable {V : Type} {n : Nat}

@[simp] theorem blocks_empty : (blocks V).empty = create := rfl
@[simp] theorem blocks_putHead : (blocks V).putHead = putHead := rfl
@[simp] theorem blocks_getHead : (blocks V).getHead = getHead := rfl
@[simp] theorem blocks_getTail (index : Nat) : (blocks V).getTail index = .loadTail := rfl
@[simp] theorem blocks_tailStep (ca : CA V) (index : Nat) (g : GetTail) :
    (blocks V).tailStep ca index g = g.step ca index := rfl

/-! ## The invariant -/

/-- Where `block_in_use` is, for each position of the owner: on the block of
the last slot written or on the block of the next one. -/
def InUse (bot u : Nat) : Owner V → Prop
  | .idle | .pushPut _ _ => u = desiredBlockId (bot - 1) ∨ u = desiredBlockId bot
  | .pushStore b | .popCas b _ => u = desiredBlockId b
  | .popStore b | .popLoadTop b | .popRead b _ | .popRestore b _ =>
    u = desiredBlockId b ∨ u = desiredBlockId (b + 1)

/-- Every slot below this index lies in an allocated block. -/
def Owner.extent (bot : Nat) : Owner V → Nat
  | .idle | .pushPut _ _ => bot
  | .pushStore b | .popStore b | .popLoadTop b | .popRead b _ | .popCas b _ | .popRestore b _ =>
    b + 1

/-- The array's chain runs from block `lo`, the tail, to block `hi`, the head. -/
structure Layout (s : BlockState V n) (lo hi : Nat) : Prop where
  chain : Chain s.arr lo hi
  inUse : ∃ u, s.arr.blockInUse = some u ∧ u ≤ hi ∧ InUse s.bot u s.owner
  extent : s.owner.extent s.bot ≤ (hi + 1) * 16384
  /-- The tail moved past block `k` only when a thief claimed the first
  element of block `k + 1`. -/
  retired : lo = 0 ∨ lo * 16384 < s.top
  readers : ∀ i oldTop localBot g, s.thieves i = .claimed oldTop localBot g → ReaderOk lo oldTop g
  faults : ∀ f ∈ s.arr.faults, f = .getTail

theorem Layout.init : Layout (init (blocks V) : BlockState V n) 0 0 where
  chain := Chain.create
  inUse := ⟨0, rfl, le_rfl, .inl (by simp [Deque.init, desiredBlockId_eq])⟩
  extent := by simp [Deque.init, Owner.extent]
  retired := .inl rfl
  readers _ _ _ _ h := by simp [Deque.init] at h
  faults _ h := by simp [Deque.init, ContinuousArray.create, malloc, unconstructed] at h

/-- `top` never passes the slots the owner has written. -/
theorem OwnerOk.top_le_extent {bot top : Nat} {o : Owner V} (h : OwnerOk bot top o) :
    top ≤ o.extent bot := by
  cases o <;> simp only [OwnerOk, Owner.extent] at h ⊢ <;> omega

/-- `block_in_use` is never below the tail: the tail moved past block `k` only
for an index `top` has passed, and `top` is at most one past `bot`. -/
theorem Layout.lo_le_inUse {s : BlockState V n} {lo hi u : Nat} (h : Layout s lo hi)
    (hsh : Shape s) (hu : InUse s.bot u s.owner) : lo ≤ u := by
  have ho := hsh.owner
  rcases h.retired with h0 | hlt
  · omega
  · cases hown : s.owner <;> simp only [hown, InUse, OwnerOk, desiredBlockId_eq] at hu ho <;>
      omega

/-! ## Owner steps -/

/-- An owner step that leaves the array and the thieves alone. -/
theorem Layout.of_owner {s s' : BlockState V n} {lo hi : Nat} (h : Layout s lo hi)
    (harr : s'.arr = s.arr) (hth : s'.thieves = s.thieves) (htop : s.top ≤ s'.top)
    (hu : ∀ u, InUse s.bot u s.owner → InUse s'.bot u s'.owner)
    (hx : s'.owner.extent s'.bot ≤ s.owner.extent s.bot) : Layout s' lo hi := by
  obtain ⟨u, hu1, hu2, hu3⟩ := h.inUse
  refine ⟨harr ▸ h.chain, ⟨u, harr ▸ hu1, hu2, hu u hu3⟩, hx.trans h.extent, ?_,
    hth ▸ h.readers, harr ▸ h.faults⟩
  rcases h.retired with h0 | hlt
  · exact .inl h0
  · exact .inr (by omega)

/-- The owner's next step exists, `put_head` and `get_head` included, and keeps
the layout: `put_head(b, v)` finds `block_in_use` on the block of `b - 1` or of
`b`, and `get_head(b)` on the block of `b` or of `b + 1`, above the tail. -/
theorem Layout.ownerStep_some {s : BlockState V n} {lo hi : Nat} (h : Layout s lo hi)
    (hsh : Shape s) (ho : s.owner ≠ .idle) :
    ∃ s' hi', ownerStep (blocks V) s = some s' ∧ Layout s' lo hi' := by
  obtain ⟨u, hu, huhi, hin⟩ := h.inUse
  have hlo := h.lo_le_inUse hsh hin
  have hown := hsh.owner
  have hx := h.extent
  cases hcase : s.owner with
  | idle => exact absurd hcase ho
  | pushPut b v =>
    simp only [hcase, OwnerOk, InUse, Owner.extent] at hown hin hx
    obtain ⟨ca', hi', hput, hc', -, -, hlt, hu', hf, -, -, -⟩ :=
      putHead_chain v h.chain hu huhi (hown.1 ▸ hin) (hown.1 ▸ hx)
    simp only [Deque.ownerStep, hcase, blocks_putHead, hput, Option.map_some']
    refine ⟨_, hi', rfl, hc', ⟨desiredBlockId b, hu', ?_, rfl⟩, hlt, h.retired, h.readers,
      hf ▸ h.faults⟩
    rw [desiredBlockId_eq]
    omega
  | popRead b t =>
    simp only [hcase, OwnerOk, InUse, Owner.extent] at hown hin hx
    have hd : desiredBlockId b ≤ u := by
      rcases hin with rfl | rfl
      · exact le_rfl
      · simp only [desiredBlockId_eq]; omega
    have hget := getHead_chain h.chain hu huhi hin (by
      rcases h.retired with h0 | hlt
      · omega
      · rw [desiredBlockId_eq]; omega)
    have hl : Layout ((s.setArr { s.arr with blockInUse := some (desiredBlockId b) }).setOwner
        (.popCas b (s.arr.value b))) lo hi :=
      ⟨h.chain.setInUse _, ⟨_, rfl, hd.trans huhi, rfl⟩, by simpa [Owner.extent] using hx,
        h.retired, h.readers, h.faults⟩
    simp only [Deque.ownerStep, hcase, blocks_getHead, hget, Option.map_some']
    split_ifs with htb
    · exact ⟨_, hi, rfl, hl⟩
    · exact ⟨_, hi, rfl, hl.chain, ⟨_, rfl, hd.trans huhi, .inr (by simp [hown.1])⟩,
        by simp only [State.record_owner, State.setOwner_owner, State.record_bot,
          State.setOwner_bot, State.setArr_bot, Owner.extent]; omega,
        h.retired, h.readers, h.faults⟩
  | pushStore b =>
    simp only [hcase, OwnerOk] at hown
    simp only [Deque.ownerStep, hcase]
    refine ⟨_, hi, rfl, h.of_owner rfl rfl le_rfl (fun u hu => ?_) (by simp [hcase, Owner.extent])⟩
    simp only [hcase, InUse] at hu
    simp [InUse, hu]
  | popStore b =>
    simp only [hcase, OwnerOk] at hown
    simp only [Deque.ownerStep, hcase]
    refine ⟨_, hi, rfl, h.of_owner rfl rfl le_rfl (fun u hu => ?_) (by simp [hcase, Owner.extent])⟩
    simpa [hcase, InUse, hown.1] using hu
  | popLoadTop b =>
    simp only [Deque.ownerStep, hcase]
    split_ifs <;> refine ⟨_, hi, rfl, h.of_owner rfl rfl le_rfl (fun u hu => ?_) ?_⟩ <;>
      simp_all [InUse, Owner.extent]
  | popCas b val =>
    simp only [hcase, OwnerOk] at hown
    simp only [Deque.ownerStep, hcase]
    split_ifs <;>
      refine ⟨_, hi, rfl, h.of_owner rfl rfl (by simp only [State.setOwner_top]; omega)
        (fun u hu => ?_) ?_⟩ <;>
      simp_all [InUse, Owner.extent]
  | popRestore b val =>
    simp only [hcase, OwnerOk] at hown
    simp only [Deque.ownerStep, hcase]
    refine ⟨_, hi, rfl, h.of_owner rfl rfl le_rfl (fun u hu => ?_) (by simp [hcase, Owner.extent])⟩
    simpa [hcase, InUse] using hu

/-! ## Thief steps -/

theorem Layout.record {s : BlockState V n} {lo hi : Nat} (h : Layout s lo hi) (e : Event V) :
    Layout (s.record e) lo hi :=
  ⟨h.chain, h.inUse, h.extent, h.retired, h.readers, h.faults⟩

theorem Layout.succTop {s : BlockState V n} {lo hi : Nat} (h : Layout s lo hi) :
    Layout { s with top := s.top + 1 } lo hi :=
  ⟨h.chain, h.inUse, h.extent, h.retired.imp_right Nat.lt_succ_of_lt, h.readers, h.faults⟩

/-- Thief `i` moves to a position whose reader, if any, knows what it should. -/
theorem Layout.setThief {s : BlockState V n} {lo hi : Nat} (h : Layout s lo hi) (i : Fin n)
    {x : Thief GetTail}
    (hx : ∀ oldTop localBot g, x = .claimed oldTop localBot g → ReaderOk lo oldTop g) :
    Layout (s.setThief i x) lo hi := by
  refine ⟨h.chain, h.inUse, h.extent, h.retired, fun j oldTop localBot g hj => ?_, h.faults⟩
  by_cases hji : j = i
  · subst hji
    exact hx _ _ _ (by simpa using hj)
  · exact h.readers j _ _ _ (by simpa [Function.update_noteq hji] using hj)

/-- A thief that wins its CAS at `top` starts `get_tail(top)` knowing what
`ReaderOk` asks: if `top` starts a block, the tail is below that block. -/
theorem Layout.readerOk_claim {s : BlockState V n} {lo hi : Nat} (h : Layout s lo hi) :
    ReaderOk lo s.top .loadTail := fun hB => by
  have h1 := hB.1
  have h2 := hB.2
  rw [offset_eq] at h1
  rw [desiredBlockId_eq] at h2 ⊢
  rcases h.retired with h0 | hlt <;> omega

/-- Another reader's knowledge survives a step of thief `i` inside
`get_tail(oldTop)`: if the tail moved, thief `i` holds the first element of the
tail's new block, which no other thief holds. -/
theorem Layout.reader_frame {s : BlockState V n} {lo lo' hi oldTop localBot : Nat} {i j : Fin n}
    {g : GetTail} {ca' : CA V} (h : Layout s lo hi) (hcl : ClaimsDistinct s.thieves)
    (hthief : s.thieves i = .claimed oldTop localBot g)
    (hts : TailStep s.arr ca' lo lo' hi oldTop) (hji : j ≠ i) {t l : Nat} {g' : GetTail}
    (hj : s.thieves j = .claimed t l g') : ReaderOk lo' t g' := by
  rcases hts.moved with rfl | ⟨hB, hlo, rfl⟩
  · exact h.readers j _ _ _ hj
  · refine (h.readers j _ _ _ hj).advance hB hlo fun he => hji (hcl j i t ?_ ?_)
    · simp [hj, Thief.claim]
    · simp [hthief, Thief.claim, he]

/-- The index a thief inside `get_tail` claimed lies below `top`, so in a block
of the chain. -/
theorem Layout.claimed_le {s : BlockState V n} {lo hi oldTop localBot : Nat} {i : Fin n}
    {g : GetTail} (h : Layout s lo hi) (hsh : Shape s)
    (hthief : s.thieves i = .claimed oldTop localBot g) : desiredBlockId oldTop ≤ hi := by
  have hlt : oldTop < s.top := by simpa [hthief, ThiefOk] using hsh.thief i
  have := hsh.owner.top_le_extent
  have := h.extent
  rw [desiredBlockId_eq]
  omega

theorem Layout.thiefStep {s s' : BlockState V n} {lo hi : Nat} {i : Fin n} (h : Layout s lo hi)
    (hsh : Shape s) (hcl : ClaimsDistinct s.thieves) (hs : thiefStep (blocks V) s i = some s') :
    ∃ lo', Layout s' lo' hi := by
  unfold Deque.thiefStep at hs
  cases hthief : s.thieves i with
  | idle => simp [hthief] at hs
  | assertFailed => simp [hthief] at hs
  | loadedTop oldTop =>
    simp only [hthief] at hs
    split at hs <;> [skip; split at hs] <;> simp only [Option.some.injEq] at hs <;> subst hs
    · exact ⟨lo, h.setThief i (by simp)⟩
    · exact ⟨lo, h.setThief i (by simp)⟩
    · exact ⟨lo, (h.setThief i (by simp)).record _⟩
  | loadedBot oldTop localBot =>
    simp only [hthief] at hs
    split at hs <;> simp only [Option.some.injEq] at hs <;> subst hs
    next htop =>
      subst htop
      refine ⟨lo, h.succTop.setThief i ?_⟩
      rintro _ _ _ ⟨⟩
      exact h.readerOk_claim
    · exact ⟨lo, (h.setThief i (by simp)).record _⟩
  | claimed oldTop localBot g =>
    simp only [hthief, blocks_tailStep, Option.map_eq_some'] at hs
    obtain ⟨⟨ca', r⟩, hstep, rfl⟩ := hs
    have hlt : oldTop < s.top := by simpa [hthief, ThiefOk] using hsh.thief i
    obtain ⟨lo', hts, hg'⟩ :=
      GetTail.step_chain h.chain (h.claimed_le hsh hthief) (h.readers i _ _ _ hthief) hstep
    have hbase : ∀ x : Thief GetTail,
        (∀ t l g', x = .claimed t l g' → ReaderOk lo' t g') →
        Layout ((s.setArr ca').setThief i x) lo' hi := fun x hx => by
      obtain ⟨u, hu, huhi, hin⟩ := h.inUse
      refine ⟨hts.chain, ⟨u, hts.inUse.trans hu, huhi, hin⟩, h.extent, ?_, fun j t l g' hj => ?_,
        fun f hf => (hts.faults f hf).elim (h.faults f) id⟩
      · rcases hts.moved with rfl | ⟨hB, hlo, rfl⟩
        · exact h.retired
        · have := hB.1
          rw [offset_eq] at this
          rw [desiredBlockId_eq] at hlo
          exact .inr (by simp only [State.setThief_top, State.setArr_top]; omega)
      · by_cases hji : j = i
        · subst hji
          exact hx _ _ _ (by simpa using hj)
        · exact h.reader_frame hcl hthief hts hji (by simpa [Function.update_noteq hji] using hj)
    cases r with
    | inl g' =>
      exact ⟨lo', hbase _ (by rintro _ _ _ ⟨⟩; exact hg' g' rfl)⟩
    | inr val =>
      exact ⟨lo', (hbase .idle (by simp)).record _⟩

/-! ## Every step -/

/-- Every step keeps the layout. -/
theorem Layout.step {s s' : BlockState V n} {a : Act V n} {lo hi : Nat} (h : Layout s lo hi)
    (hsh : Shape s) (hcl : ClaimsDistinct s.thieves) (hs : step (blocks V) s a = some s') :
    ∃ lo' hi', Layout s' lo' hi' := by
  cases a with
  | owner =>
    have ho : s.owner ≠ .idle := fun ho => by simp [Deque.step, Deque.ownerStep, ho] at hs
    obtain ⟨s'', hi', hs'', hl⟩ := h.ownerStep_some hsh ho
    rw [Deque.step, hs''] at hs
    cases hs
    exact ⟨lo, hi', hl⟩
  | thief i =>
    obtain ⟨lo', hl⟩ := h.thiefStep hsh hcl hs
    exact ⟨lo', hi, hl⟩
  | pushBottom v =>
    cases hown : s.owner <;> simp only [Deque.step, hown, reduceCtorEq, Option.some.injEq] at hs
    subst hs
    refine ⟨lo, hi, Layout.record ?_ _⟩
    exact h.of_owner rfl rfl le_rfl (fun u hu => by simpa [hown, InUse] using hu)
      (by simp [hown, Owner.extent])
  | popBottom =>
    cases hown : s.owner <;> simp only [Deque.step, hown, reduceCtorEq] at hs
    split at hs <;> simp only [Option.some.injEq] at hs <;> subst hs
    · exact ⟨lo, hi, h.record _⟩
    · refine ⟨lo, hi, h.of_owner rfl rfl le_rfl (fun u hu => ?_) ?_⟩
      · simp only [hown, InUse, State.setOwner_owner, State.setOwner_bot, desiredBlockId_eq] at hu ⊢
        omega
      · simp only [hown, Owner.extent, State.setOwner_owner, State.setOwner_bot]
        omega
  | popTop i =>
    cases hthief : s.thieves i <;>
      simp only [Deque.step, hthief, reduceCtorEq, Option.some.injEq] at hs
    subst hs
    exact ⟨lo, hi, h.setThief i (by simp)⟩

theorem reachable_layout {s : BlockState V n} (h : Reachable (blocks V) s) :
    ∃ lo hi, Layout s lo hi := by
  induction h with
  | init => exact ⟨0, 0, Layout.init⟩
  | step hr hs ih =>
    obtain ⟨lo, hi, hl⟩ := ih
    exact hl.step (reachable_shape _ hr) (reachable_claimsDistinct _ hr) hs

/-- In every reachable state of the deque on `continuous_array`: the blocks from
the tail `lo` to the head `hi` form the chain (`Chain`: ids, `next` and `prev`
links, `curr_block_id = hi + 1`); `block_in_use` is a block `u` of that chain;
between operations it is the block of `bot - 1` or of `bot`; the owner's next
step never dereferences null; and no assertion of `put_head` or `get_head` has
failed. -/
theorem blocks_layout {s : BlockState V n} (h : Reachable (blocks V) s) :
    ∃ lo hi u, Chain s.arr lo hi ∧ s.arr.blockInUse = some u ∧ lo ≤ u ∧ u ≤ hi ∧
      (s.owner = .idle → u = desiredBlockId (s.bot - 1) ∨ u = desiredBlockId s.bot) ∧
      (s.owner ≠ .idle → ownerStep (blocks V) s ≠ none) ∧
      Check.putHead ∉ s.arr.faults ∧ Check.getHead ∉ s.arr.faults := by
  obtain ⟨lo, hi, hl⟩ := reachable_layout h
  have hsh := reachable_shape _ h
  obtain ⟨u, hu, huhi, hin⟩ := hl.inUse
  refine ⟨lo, hi, u, hl.chain, hu, hl.lo_le_inUse hsh hin, huhi,
    fun ho => by simpa [ho, InUse] using hin, fun ho => ?_, fun hf => ?_, fun hf => ?_⟩
  · obtain ⟨s', -, hs', -⟩ := hl.ownerStep_some hsh ho
    simp [hs']
  · cases hl.faults _ hf
  · cases hl.faults _ hf

/-- The two thieves' race on `continuous_array`: one element was pushed and
the winner has claimed it. -/
theorem blocks_layout_race :
    ∃ s, run (blocks Nat) (init (blocks Nat)) twoThievesRace = some s ∧ s.bot = 1 ∧ s.top = 1 ∧
      ∃ lo hi u, Chain s.arr lo hi ∧ s.arr.blockInUse = some u ∧ lo ≤ u ∧ u ≤ hi ∧
        (s.owner = .idle → u = desiredBlockId (s.bot - 1) ∨ u = desiredBlockId s.bot) ∧
        (s.owner ≠ .idle → ownerStep (blocks Nat) s ≠ none) ∧
        Check.putHead ∉ s.arr.faults ∧ Check.getHead ∉ s.arr.faults :=
  ⟨_, rfl, rfl, rfl, blocks_layout (Reachable.init.run (l := twoThievesRace) rfl)⟩

end Parlay.Deque
