import Parlay.ContinuousArray.SoleReader

/-!
# `get_tail` with two readers

With two thieves, two calls of `get_tail` can be in progress at once. A call
may then load a tail that is already past its own block, because the other
thief retired that block after this one won its index. The call searches
backward through blocks already on `to_retire`, whose `prev` the retirement
has overwritten with the block below on the stack. `delayed_thief_derefs_null`
shows that with three thieves two retirements can overlap and leave a gap
there. With two, the only thread that retires while a call searches is the
other thief. It retires the blocks one after the other and pushes each on top
of the one before (`Pushed`), so the links from the tail down to the searched
block stay whole (`Linked`).

Results:
1. `GetTail.step_walk`: every step of a call whose search is on its way
   (`WalkOk`) exists, fails no assertion, keeps `WalkOk`, and returns the
   element stored for its index.
2. `GetTail.step_linked`: a step of the other call keeps the links a searching
   call needs, and what its retirements leave on `to_retire` for it.
-/

namespace Parlay.ContinuousArray

variable {T : Type}

/-! ## Definitions -/

/-- The blocks after block `d` up to block `a` link back by `prev` to the block
before them: a backward search from block `a` reaches block `d`. -/
def Linked (mem : Nat → Option (Block T)) (d a : Nat) : Prop :=
  ∀ k, d < k → k ≤ a → (mem k).bind Block.prev = some (k - 1)

/-- A call of `get_tail` that has not found its block yet. -/
def Searching : GetTail → Prop
  | .loadTail | .forward _ _ | .backward _ _ => True
  | _ => False

/-- Where the search of `get_tail(index)` is while the tail is block `lo`: at a
block from which it reaches the block of `index`, forward through `next`, or
backward from a block not past the tail; from `found` on, at that block. -/
def Walking (lo index : Nat) : GetTail → Prop
  | .loadTail => True
  | .forward _ b => ∃ a, b = some a ∧ (a ≤ desiredBlockId index ∨ a ≤ lo)
  | .backward _ b =>
    ∃ a, b = some a ∧ desiredBlockId index ≤ a ∧ (a = desiredBlockId index ∨ a ≤ lo)
  | .found _ b => b = some (desiredBlockId index)
  | .retire p _ | .read p => p = desiredBlockId index

/-- The reader invariant with two readers: the search is on its way, and while
it searches, the blocks from the block of `index` up to the tail are linked. -/
def WalkOk (ca : CA T) (lo index : Nat) (g : GetTail) : Prop :=
  Walking lo index g ∧ (Searching g → Linked ca.mem (desiredBlockId index) lo)

/-- For a reader searching for block `d` below the tail `lo`: the last block
retired, the one before the tail, is on top of `to_retire`. -/
def Settled (toRetire : Option Nat) (d lo : Nat) : Prop := d < lo → toRetire = some (lo - 1)

/-- What `ca_retire_last_block()`, called for the first element of block `p`,
leaves on `to_retire` for a reader searching for block `d`. After its CAS the
tail is `p`, and until its push the block below it on the stack is `p - 2`,
which the link and the push of block `p - 1` then carry. -/
def Retire.Pushed (toRetire : Option Nat) (d lo p : Nat) : Retire → Prop
  | .checkYounger _ | .link _ => d < lo → p = lo ∧ (d + 1 < lo → toRetire = some (lo - 2))
  | .push _ expected => d < lo → p = lo ∧
      (d + 1 < lo → expected = some (lo - 2) ∧ toRetire = some (lo - 2))
  | _ => Settled toRetire d lo

/-- What a call of `get_tail` in state `g` leaves on `to_retire` for a reader
searching for block `d`. -/
def GetTail.Pushed (toRetire : Option Nat) (d lo : Nat) : GetTail → Prop
  | .retire p r => r.Pushed toRetire d lo p
  | _ => Settled toRetire d lo

theorem Linked.of_prev {mem mem' : Nat → Option (Block T)} {d a : Nat} (h : Linked mem d a)
    (hp : ∀ k, k ≤ a → (mem' k).bind Block.prev = (mem k).bind Block.prev) : Linked mem' d a :=
  fun k h1 h2 => (hp k h2).trans (h k h1 h2)

/-- A reader whose block is not below the tail needs no link. -/
theorem linked_of_le (mem : Nat → Option (Block T)) {d a : Nat} (h : a ≤ d) : Linked mem d a :=
  fun _ h1 h2 => absurd h2 (by omega)

/-- A reader whose block is not below the tail needs nothing of `to_retire`. -/
theorem GetTail.pushed_of_le (toRetire : Option Nat) {d lo : Nat} (h : lo ≤ d) (g : GetTail) :
    g.Pushed toRetire d lo := by
  have hlt : ¬d < lo := by omega
  cases g with
  | retire p r => cases r <;> simp only [GetTail.Pushed, Retire.Pushed, Settled] <;> tauto
  | _ => exact fun h => absurd h hlt

theorem Walking.mono {lo lo' index : Nat} {g : GetTail} (h : Walking lo index g) (hle : lo ≤ lo') :
    Walking lo' index g := by
  cases g with
  | forward t b =>
    obtain ⟨a, rfl, ha⟩ := h
    exact ⟨a, rfl, by omega⟩
  | backward t b =>
    obtain ⟨a, rfl, h1, h2⟩ := h
    exact ⟨a, rfl, h1, by omega⟩
  | _ => exact h

/-! ## The searching call's own steps -/

/-- A step of a call `get_tail(index)` that knows its tail (`ReaderOk`) and
whose search is on its way (`WalkOk`), for an index whose block is in the
chain: it exists, keeps the chain and `WalkOk`, fails no assertion, and
returns the element stored for `index`. -/
theorem GetTail.step_walk {ca : CA T} {lo hi index : Nat} {g : GetTail} (hc : Chain ca lo hi)
    (hd : desiredBlockId index ≤ hi) (hg : ReaderOk lo index g) (hw : WalkOk ca lo index g) :
    ∃ ca' r, g.step ca index = some (ca', r) ∧ ∃ lo', TailStep ca ca' lo lo' hi index ∧
      ca'.faults = ca.faults ∧ (∀ g', r = .inl g' → WalkOk ca' lo' index g') ∧
      ∀ v, r = .inr v → v = ca.value index := by
  obtain ⟨hwalk, hlinked⟩ := hw
  cases g with
  | loadTail =>
    refine ⟨ca, _, rfl, lo, .refl hc index, rfl, ?_, by rintro _ ⟨⟩⟩
    rintro _ ⟨⟩
    exact ⟨⟨lo, hc.tail, .inr le_rfl⟩, fun _ => hlinked trivial⟩
  | forward t b =>
    obtain ⟨a, rfl, ha⟩ := hwalk
    obtain ⟨blk, hblk, hid⟩ := hc.mem (show a ≤ hi by have := hc.le; omega)
    refine ⟨ca, _, GetTail.step_forward ca hblk, lo, .refl hc index, rfl, ?_, by rintro _ ⟨⟩⟩
    rintro _ ⟨⟩
    rw [hid]
    split_ifs with hlt
    · exact ⟨⟨a + 1, hc.next_eq (by omega) hblk, .inl hlt⟩, fun _ => hlinked trivial⟩
    · exact ⟨⟨a, rfl, by omega, by omega⟩, fun _ => hlinked trivial⟩
  | backward t b =>
    obtain ⟨a, rfl, hda, ha⟩ := hwalk
    obtain ⟨blk, hblk, hid⟩ := hc.mem (show a ≤ hi by have := hc.le; omega)
    refine ⟨ca, _, GetTail.step_backward ca hblk, lo, .refl hc index, rfl, ?_, by rintro _ ⟨⟩⟩
    rintro _ ⟨⟩
    rw [hid]
    split_ifs with hlt
    · -- the block is past the one searched for and not past the tail: its link is whole
      have hprev : blk.prev = some (a - 1) := by
        simpa [hblk] using hlinked trivial a hlt (by omega)
      exact ⟨⟨a - 1, hprev, by omega, by omega⟩, fun _ => hlinked trivial⟩
    · exact ⟨show some a = some _ by rw [show a = desiredBlockId index by omega], fun h => h.elim⟩
  | found t b =>
    obtain ⟨a, rfl, ha, -⟩ := hg
    cases hwalk
    obtain ⟨blk, hblk, hid⟩ := hc.mem hd
    obtain ⟨tb, htb, -⟩ := hc.mem (show a ≤ hi by have := hc.le; omega)
    refine ⟨ca, _, GetTail.step_found ca hblk hid htb, lo, .refl hc index, rfl, ?_,
      by rintro _ ⟨⟩⟩
    rintro _ ⟨⟩
    split_ifs <;> exact ⟨rfl, fun h => h.elim⟩
  | retire p r =>
    obtain ⟨hB, rfl, hr⟩ := hg
    obtain ⟨⟨ca', r'⟩, hs⟩ := Option.ne_none_iff_exists'.1 (Retire.step_ne_none hc hd hr)
    obtain ⟨lo', hts, hf, -⟩ := Retire.step_chain hc hd hB hr hs
    cases r' with
    | none =>
      exact ⟨ca', .inl (.read (desiredBlockId index)), by simp [GetTail.step, hs], lo', hts, hf,
        by rintro _ ⟨⟩; exact ⟨rfl, fun h => h.elim⟩, by rintro _ ⟨⟩⟩
    | some r'' =>
      exact ⟨ca', _, GetTail.step_retire hs, lo', hts, hf,
        by rintro _ ⟨⟩; exact ⟨rfl, fun h => h.elim⟩, by rintro _ ⟨⟩⟩
  | read p =>
    cases hwalk
    obtain ⟨blk, hblk, -⟩ := hc.mem hd
    refine ⟨ca, _, GetTail.step_read ca hblk, lo, .refl hc index, rfl, by rintro _ ⟨⟩, ?_⟩
    rintro _ ⟨⟩
    simp [CA.value, hblk]

/-- Only a searching call steps to a searching position, and such a step
changes nothing. -/
theorem GetTail.step_searching {ca ca' : CA T} {index : Nat} {g g' : GetTail}
    (hs : g.step ca index = some (ca', .inl g')) (hg' : Searching g') : Searching g ∧ ca' = ca := by
  cases g with
  | loadTail => cases hs; exact ⟨trivial, rfl⟩
  | forward t b | backward t b =>
    cases b with
    | none => cases hs; exact ⟨trivial, rfl⟩
    | some p =>
      simp only [GetTail.step, Option.map_eq_some'] at hs
      obtain ⟨blk, -, hs⟩ := hs
      split_ifs at hs <;> cases hs <;> exact ⟨trivial, rfl⟩
  | found t b =>
    obtain - | p := b
    · cases hs
    simp only [GetTail.step, Option.bind_eq_bind, Option.bind_eq_some] at hs
    obtain ⟨blk, -, hs⟩ := hs
    split_ifs at hs
    · simp only [Option.bind_eq_some] at hs
      obtain ⟨tb, -, hs⟩ := hs
      split_ifs at hs <;> cases hs <;> exact hg'.elim
    · cases hs
      exact hg'.elim
  | retire p r =>
    simp only [GetTail.step, Option.map_eq_some'] at hs
    obtain ⟨⟨_, _ | _⟩, -, he⟩ := hs <;> cases he <;> exact hg'.elim
  | read p =>
    simp only [GetTail.step, Option.map_eq_some'] at hs
    obtain ⟨blk, -, he⟩ := hs
    cases he

/-! ## The other call's steps -/

/-- A step of a retirement, by the reader of the first element of block `p`,
keeps the links a reader searching for block `d` needs, and what it leaves on
`to_retire` for that reader: its CAS adds the link of the new tail, which the
chain holds, and its link writes block `p - 2` into block `p - 1`. -/
theorem Retire.step_linked {ca ca' : CA T} {lo lo' hi d p : Nat} {r : Retire}
    {r' : Option Retire} (hc : Chain ca lo hi) (hp : p ≤ hi) (hr : RetireOk lo p r)
    (hs : r.step ca = some (ca', r')) (ht : ca'.tail = some lo')
    (hpush : r.Pushed ca.toRetire d lo p) (hl : Linked ca.mem d lo) :
    Linked ca'.mem d lo' ∧ (∀ r'', r' = some r'' → r''.Pushed ca'.toRetire d lo' p) ∧
      (r' = none → Settled ca'.toRetire d lo') := by
  have same : ca'.tail = ca.tail → lo' = lo := fun h => by
    simpa [hc.tail, h] using ht.symm
  cases r with
  | loadTail =>
    cases hs
    obtain rfl := same rfl
    exact ⟨hl, by rintro _ ⟨⟩; exact hpush, by rintro ⟨⟩⟩
  | loadNext old =>
    obtain ⟨rfl, hlo⟩ := hr
    obtain ⟨blk, hblk, -⟩ := hc.mem hc.le
    rw [Retire.step_loadNext ca hblk (hc.next_eq (by omega) hblk), Option.some.injEq] at hs
    cases hs
    obtain rfl := same rfl
    exact ⟨hl, by rintro _ ⟨⟩; exact hpush, by rintro ⟨⟩⟩
  | cas old next =>
    obtain ⟨rfl, rfl, rfl⟩ := hr
    rw [Retire.step_cas ca hc.tail, Option.some.injEq] at hs
    cases hs
    cases ht
    refine ⟨fun k h1 h2 => ?_, ?_, by rintro ⟨⟩⟩
    · rcases Nat.lt_or_eq_of_le h2 with h2 | rfl
      · exact hl k h1 (by omega)
      · exact hc.prev _ (by omega) hp
    · rintro _ ⟨⟩
      exact fun hd => ⟨rfl, fun hd' => hpush (by omega)⟩
  | recheck old next => exact hr.elim
  | checkYounger old =>
    simp only [Retire.step, Option.bind_eq_bind, Option.bind_eq_some, Option.some.injEq,
      Prod.mk.injEq] at hs
    obtain ⟨_, -, _, -, rfl, rfl⟩ := hs
    obtain rfl := same (CA.check_tail _ _ _)
    exact ⟨by rwa [CA.check_mem], by rintro _ ⟨⟩; simpa using hpush, by rintro ⟨⟩⟩
  | link old =>
    obtain ⟨rfl, hplo⟩ := hr
    obtain ⟨ob, hob, -⟩ := hc.mem (show p - 1 ≤ hi by omega)
    rw [Retire.step_link ca hob, Option.some.injEq] at hs
    cases hs
    obtain rfl := same rfl
    refine ⟨fun k h1 h2 => ?_, by rintro _ ⟨⟩; exact fun hd => ⟨(hpush hd).1, fun h => ⟨(hpush hd).2 h,
      (hpush hd).2 h⟩⟩, by rintro ⟨⟩⟩
    by_cases hk : k = p - 1
    · -- the retired block now links to the top of the stack, the block below it
      subst hk
      obtain ⟨rfl, htop⟩ := hpush (by omega)
      have htop' : ca.toRetire = some (p - 1 - 1) := by rw [htop (by omega)]; congr 1
      simpa using htop'
    · simpa [Function.update_noteq hk] using hl k h1 h2
  | push old expected =>
    obtain ⟨rfl, hplo⟩ := hr
    simp only [Retire.step] at hs
    split_ifs at hs with he <;> cases hs <;> obtain rfl := same rfl
    · exact ⟨hl, by rintro _ ⟨⟩, fun _ hd => by rw [(hpush hd).1]⟩
    · exact ⟨hl, by rintro _ ⟨⟩; exact fun hd => ⟨(hpush hd).1, fun h => ((hpush hd).2 h).2⟩,
        by rintro ⟨⟩⟩

/-- A step of another call `get_tail(index)` that knows its tail keeps the
links a reader searching for block `d` needs, and what it leaves on
`to_retire` for that reader. -/
theorem GetTail.step_linked {ca ca' : CA T} {lo lo' hi index d : Nat} {g : GetTail}
    {r : GetTail ⊕ Option T} (hc : Chain ca lo hi) (hd : desiredBlockId index ≤ hi)
    (hg : ReaderOk lo index g) (hs : g.step ca index = some (ca', r)) (ht : ca'.tail = some lo')
    (hpush : g.Pushed ca.toRetire d lo) (hl : Linked ca.mem d lo) :
    Linked ca'.mem d lo' ∧ (∀ g', r = .inl g' → g'.Pushed ca'.toRetire d lo') ∧
      ∀ v, r = .inr v → Settled ca'.toRetire d lo' := by
  have same : ca'.tail = ca.tail → lo' = lo := fun h => by
    simpa [hc.tail, h] using ht.symm
  cases g with
  | retire p r₀ =>
    obtain ⟨-, rfl, hr⟩ := hg
    simp only [GetTail.step, Option.map_eq_some'] at hs
    obtain ⟨⟨ca₁, r₁⟩, hs₁, he⟩ := hs
    cases he
    obtain ⟨hl', hr', hnone⟩ := Retire.step_linked hc hd hr hs₁ ht hpush hl
    refine ⟨hl', ?_, by rintro _ ⟨⟩⟩
    rintro _ ⟨⟩
    cases r₁ with
    | none => exact hnone rfl
    | some r'' => exact hr' r'' rfl
  | found t b =>
    obtain ⟨a, rfl, ha, -⟩ := hg
    obtain - | p := b
    · cases hs
    simp only [GetTail.step, Option.bind_eq_bind, Option.bind_eq_some] at hs
    obtain ⟨blk, -, hs⟩ := hs
    obtain ⟨tb, htb, -⟩ := hc.mem (show a ≤ hi by have := hc.le; omega)
    simp only [CA.get, CA.check_mem, Option.some_bind, htb] at hs
    split_ifs at hs <;> cases hs <;> obtain rfl := same (CA.check_tail _ _ _) <;>
      exact ⟨by rwa [CA.check_mem], by rintro _ ⟨⟩; rw [CA.check_toRetire]; exact hpush,
        by rintro _ ⟨⟩⟩
  | loadTail =>
    cases hs
    obtain rfl := same rfl
    exact ⟨hl, by rintro _ ⟨⟩; exact hpush, by rintro _ ⟨⟩⟩
  | forward t b | backward t b =>
    cases b with
    | none =>
      cases hs
      obtain rfl := same rfl
      exact ⟨hl, by rintro _ ⟨⟩; exact hpush, by rintro _ ⟨⟩⟩
    | some p =>
      simp only [GetTail.step, Option.map_eq_some'] at hs
      obtain ⟨blk, -, hs⟩ := hs
      split_ifs at hs <;> cases hs <;> obtain rfl := same rfl <;>
        exact ⟨hl, by rintro _ ⟨⟩; exact hpush, by rintro _ ⟨⟩⟩
  | read p =>
    simp only [GetTail.step, Option.map_eq_some'] at hs
    obtain ⟨blk, -, he⟩ := hs
    cases he
    obtain rfl := same rfl
    exact ⟨hl, by rintro _ ⟨⟩, fun _ _ => hpush⟩

end Parlay.ContinuousArray
