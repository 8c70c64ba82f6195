import Parlay.Deque.Sequential

/-!
# A delayed thief walks off the chain

A thief that claimed an index of block `k` may be delayed until the tail has
reached block `k + 2`. Its search then starts at the tail and walks `prev` back.
Block `k + 2`'s `prev` is block `k + 1`, but block `k + 1` was retired: its
`prev` field now holds the old top of `to_retire`. If the retirement of block
`k` is still between its CAS on `tail` and its push when block `k + 1` is
retired, that old top is null, and the search ends at `nullptr`. The assertion
`b->block_id == desired_block_id` then dereferences it.

The schedule, with `Deque<int>` on `continuous_array`, three thieves and
`2 * 16384 + 1` elements pushed:
1. thief 0 wins index 0 and stops before its search;
2. thief 2 steals indices 1 to 16383;
3. thief 1 wins index 16384 (the first of block 1), finds block 1, and stops in
   `ca_retire_last_block` right after its CAS moved `tail` to block 1;
4. thief 2 steals indices 16385 to 32768; the last one retires block 1 whole:
   `tail` moves to block 2, and block 1's `prev` is set to `to_retire`, null;
5. thief 0 searches for block 0: from block 2 back to block 1, then to null.

Results:
1. `delayed_thief_derefs_null`: the state after that schedule is reachable;
   element 0 is still stored in block 0, and thief 0's next step dereferences
   null.
2. `retire_tail_cas_succeeds`: for any number of thieves, no retirement's CAS
   on `tail` fails, so the race of two retirements of one block, which
   `continuous_array` alone admits, never happens in the deque.
-/

namespace Parlay.Deque

open ContinuousArray

variable {V : Type} {n : Nat}

/-! ## Runs of whole calls -/

/-- Thief `i` takes `m` steps inside `get_tail` that do not return. -/
theorem run_thief_steps {s : BlockState V n} {i : Fin n} {oldTop localBot : Nat} {ca' : CA V}
    {g g' : GetTail} (m : Nat) (hi : s.thieves i = .claimed oldTop localBot g)
    (h : GetTail.steps s.arr oldTop m g = some (ca', g')) :
    run (blocks V) s (List.replicate m (.thief i)) =
      some ((s.setArr ca').setThief i (.claimed oldTop localBot g')) := by
  induction m generalizing s g with
  | zero =>
    cases h
    obtain ⟨bot, top, arr, owner, thieves, history⟩ := s
    simp only at hi
    simp [Deque.run, State.setArr, State.setThief, Function.update_eq_self_iff, hi]
  | succ m ih =>
    obtain ⟨⟨ca₁, r⟩, h₁, h⟩ := Option.bind_eq_some.1 h
    obtain g₁ | v := r
    · simp only [Sum.elim_inl] at h
      rw [List.replicate_succ, Deque.run]
      simp only [Deque.step, Deque.thiefStep, hi, blocks_tailStep, h₁, Option.map_some',
        Sum.elim_inl, Option.some_bind]
      rw [ih (g := g₁) (by simp) h]
      simp [State.setArr, State.setThief, Function.update_idem]
    · cases h

/-- Thief `i` steals `m` elements, one call after the other, all from the tail's
block, which stays where it is. -/
theorem seqRun_steals {s : BlockState V n} {lo hi : Nat} {blk : Block V} {i : Fin n}
    (hc : Chain s.arr lo hi) (hblk : s.arr.mem lo = some blk) (hidle : s.thieves i = .idle)
    {fuel : Nat} (hf : 14 ≤ fuel) (m : Nat) (hm : s.top + m ≤ s.bot)
    (hd : ∀ j, j < m → desiredBlockId (s.top + j) = lo) :
    ∃ evs, seqRun (blocks V) fuel s (List.replicate m (.popTop i)) =
      some { s with top := s.top + m, history := s.history ++ evs } := by
  induction m generalizing s with
  | zero => exact ⟨[], by simp [seqRun]⟩
  | succ m ih =>
    have hd0 := hd 0 (by omega)
    rw [Nat.add_zero] at hd0
    have hcall := seqCall_popTop hc hblk hidle (by omega) (by rw [hd0]; exact hc.le) (by rw [hd0])
      (show desiredBlockId s.top - lo + 14 ≤ fuel by omega)
    rw [if_neg (by omega)] at hcall
    let s₁ : BlockState V n :=
      { s with top := s.top + 1, history := s.history ++ [.popTop (s.arr.value s.top) (s.bot == s.top + 1)] }
    obtain ⟨evs, hrun⟩ := ih (s := s₁) hc hblk hidle (by simp [s₁]; omega)
      fun j hj => by simpa [s₁, Nat.add_assoc, Nat.add_comm 1] using hd (j + 1) (by omega)
    refine ⟨.popTop (s.arr.value s.top) (s.bot == s.top + 1) :: evs, ?_⟩
    rw [List.replicate_succ, seqRun, hcall, Option.some_bind, hrun]
    simp [Nat.add_assoc, Nat.add_comm 1]

/-- `m` calls `push_bottom(v)`, one after the other, from a state between calls
with `top = 0` and nothing retired. -/
theorem seqRun_pushes {s : BlockState V n} {l : List V} {k : Nat} (v : V) (h : SeqInv s l k)
    (htop : s.top = 0) (hret : s.arr.toRetire = none) (fuel m : Nat) (hf : k + m + 14 ≤ fuel) :
    ∃ s', seqRun (blocks V) fuel s (List.replicate m (.pushBottom v)) = some s' ∧
      SeqInv s' (l ++ List.replicate m v) (k + m) ∧ s'.top = 0 ∧ s'.arr.toRetire = none := by
  induction m generalizing s l k with
  | zero => exact ⟨s, rfl, by simpa using h, htop, hret⟩
  | succ m ih =>
    obtain ⟨lo, hi, hl⟩ := reachable_layout h.reachable
    obtain ⟨u, hu, huhi, hin⟩ := hl.inUse
    have hx := hl.extent
    simp only [h.owner, InUse, Owner.extent] at hin hx
    obtain ⟨ca', -, hput, -, -, -, -, -, -, hret', -, -⟩ := putHead_chain v hl.chain hu huhi hin hx
    have hcall := seqCall_pushBottom (S := blocks V) h.owner hput (show 3 ≤ fuel by omega)
    obtain ⟨s₁, h₁, hinv, -⟩ := h.call (.pushBottom v) fuel (by omega)
    rw [hcall, Option.some.injEq] at h₁
    subst h₁
    obtain ⟨s', hrun, hinv', htop', hret''⟩ := ih hinv htop (hret'.trans hret) (by omega)
    refine ⟨s', by rw [List.replicate_succ, seqRun, hcall, Option.some_bind, hrun], ?_, htop', hret''⟩
    simpa [listOp, Nat.add_right_comm, Nat.add_assoc] using hinv'

/-- The reader of the first element of block `lo + 1`, with the tail on block
`lo`, walks to block `lo + 1` and reaches its CAS on `tail` in seven steps. -/
theorem steps_to_tail_cas {ca : CA V} {lo hi : Nat} (hc : Chain ca lo hi) (hlt : lo < hi) :
    GetTail.steps ca ((lo + 1) * 16384) 7 .loadTail =
      some (ca, .retire (lo + 1) (.cas (some lo) (some (lo + 1)))) := by
  obtain ⟨b0, hb0, hid0⟩ := hc.mem (show lo ≤ hi by omega)
  obtain ⟨b1, hb1, hid1⟩ := hc.mem (show lo + 1 ≤ hi by omega)
  have hd : desiredBlockId ((lo + 1) * 16384) = lo + 1 := by rw [desiredBlockId_eq]; omega
  have ho : offset ((lo + 1) * 16384) = 0 := by rw [offset_eq]; omega
  rw [GetTail.steps_succ (show GetTail.loadTail.step ca _ = _ from rfl), hc.tail,
    GetTail.steps_succ (GetTail.step_forward ca hb0), if_pos (by omega), hc.next_eq hlt hb0,
    GetTail.steps_succ (GetTail.step_forward ca hb1), if_neg (by omega),
    GetTail.steps_succ (GetTail.step_backward ca hb1), if_neg (by omega),
    GetTail.steps_succ (GetTail.step_found ca hb1 (by omega) hb0), if_pos ⟨ho, by omega, by omega⟩,
    GetTail.steps_succ (GetTail.step_retire (show Retire.loadTail.step ca = _ from rfl)), hc.tail,
    GetTail.steps_succ (GetTail.step_retire (Retire.step_loadNext ca hb0 (hc.next_eq hlt hb0)))]
  rfl

/-! ## The schedule -/

/-- The start: `2 * 16384 + 1` calls `push_bottom(1)` on `Deque()`. -/
theorem race_pushed :
    ∃ s : BlockState Nat 3, SeqInv s (List.replicate 32769 1) 32769 ∧ s.top = 0 ∧
      s.arr.toRetire = none := by
  obtain ⟨s, -, h, htop, hret⟩ := seqRun_pushes 1 SeqInv.init rfl rfl 32783 32769 (by norm_num)
  rw [List.nil_append, Nat.zero_add] at h
  exact ⟨s, h, htop, hret⟩

/-- Thief 0 wins index 0 and stops; thief 2 steals indices 1 to 16383. -/
theorem race_block0_drained :
    ∃ s : BlockState Nat 3, Reachable (blocks Nat) s ∧ s.owner = .idle ∧ s.bot = 32769 ∧
      s.top = 16384 ∧ s.thieves 0 = .claimed 0 32769 .loadTail ∧ s.thieves 1 = .idle ∧
      s.thieves 2 = .idle ∧ s.arr.tail = some 0 ∧ s.arr.toRetire = none ∧
      s.arr.value 0 = some 1 := by
  obtain ⟨s, h, htop, hret⟩ := race_pushed
  have hbot : s.bot = 32769 := by
    have := h.size
    rw [List.length_replicate, htop] at this
    omega
  obtain ⟨lo, hi, hl⟩ := reachable_layout h.reachable
  obtain rfl : lo = 0 := by rcases hl.retired with h0 | h0 <;> omega
  obtain ⟨b0, hb0, -⟩ := hl.chain.mem (Nat.zero_le hi)
  have hclaim := run_claim (S := blocks Nat) (h.thieves 0) (show s.top < s.bot by omega)
  obtain ⟨evs, hsteal⟩ := seqRun_steals
    (s := { s with top := s.top + 1 }.setThief 0 (.claimed s.top s.bot ((blocks Nat).getTail s.top)))
    hl.chain hb0 (i := 2) (by simp [h.thieves])
    (show 14 ≤ 14 from le_rfl) 16383 (by simp [htop, hbot])
    (fun j hj => by simp only [State.setThief_top, htop, desiredBlockId_eq]; omega)
  refine ⟨_, (h.reachable.run hclaim).seqRun hsteal, ?_⟩
  have hv := h.values 0 (by rw [List.length_replicate]; norm_num)
  rw [List.getElem?_replicate, if_pos (by norm_num), htop] at hv
  simp [htop, hbot, h.owner, h.thieves, hl.chain.tail, hret]
  exact hv

/-- Thief 1 wins index 16384, the first of block 1, finds block 1 past the
tail and stops at its CAS on `tail`, still block 0. -/
theorem race_block0_tail_cas :
    ∃ s : BlockState Nat 3, Reachable (blocks Nat) s ∧ s.owner = .idle ∧ s.bot = 32769 ∧
      s.top = 16385 ∧ s.thieves 0 = .claimed 0 32769 .loadTail ∧
      s.thieves 1 = .claimed 16384 32769 (.retire 1 (.cas (some 0) (some 1))) ∧
      s.thieves 2 = .idle ∧ s.arr.tail = some 0 ∧ s.arr.toRetire = none ∧
      s.arr.value 0 = some 1 := by
  obtain ⟨s, hr, ho, hbot, htop, h0, h1, h2, ht, hret, hv⟩ := race_block0_drained
  obtain ⟨lo, hi, hl⟩ := reachable_layout hr
  obtain rfl : lo = 0 := Option.some.inj (hl.chain.tail.symm.trans ht)
  have hhi : 0 < hi := by
    have := hl.extent
    simp only [ho, Owner.extent, hbot] at this
    omega
  have hclaim := run_claim (S := blocks Nat) h1 (show s.top < s.bot by omega)
  have hsteps := run_thief_steps 7
    (show ({ s with top := s.top + 1 }.setThief 1
      (.claimed s.top s.bot ((blocks Nat).getTail s.top))).thieves 1 = .claimed 16384 32769 .loadTail
      by simp [htop, hbot])
    (by simpa using steps_to_tail_cas hl.chain hhi)
  refine ⟨_, (hr.run hclaim).run hsteps, ?_⟩
  simp [ho, hbot, htop, h0, h2, ht, hret, State.setArr, State.setThief, Function.update_noteq]
  exact hv

/-- Thief 1's CAS moves `tail` to block 1; it stops before setting block 0's
`prev` and pushing it onto `to_retire`. -/
theorem race_block0_retiring :
    ∃ s : BlockState Nat 3, Reachable (blocks Nat) s ∧ s.owner = .idle ∧ s.bot = 32769 ∧
      s.top = 16385 ∧ s.thieves 0 = .claimed 0 32769 .loadTail ∧
      s.thieves 1 = .claimed 16384 32769 (.retire 1 (.checkYounger (some 0))) ∧
      s.thieves 2 = .idle ∧ s.arr.tail = some 1 ∧ s.arr.toRetire = none ∧
      s.arr.value 0 = some 1 := by
  obtain ⟨s, hr, ho, hbot, htop, h0, h1, h2, ht, hret, hv⟩ := race_block0_tail_cas
  have hsteps := run_thief_steps 1 h1
    (by rw [GetTail.steps_succ (GetTail.step_retire (Retire.step_cas s.arr ht))]; rfl)
  refine ⟨_, hr.run hsteps, ?_⟩
  simp [ho, hbot, htop, h0, h2, hret, State.setArr, State.setThief, Function.update_noteq]
  exact hv

/-- Thief 2 steals indices 16385 to 32767 from block 1, and then index 32768,
the first of block 2: its own retirement of block 1 runs whole. `tail` moves to
block 2, and block 1's `prev` gets the old top of `to_retire`, still null. -/
theorem race_block1_retired :
    ∃ s : BlockState Nat 3, Reachable (blocks Nat) s ∧
      s.thieves 0 = .claimed 0 32769 .loadTail ∧
      s.thieves 1 = .claimed 16384 32769 (.retire 1 (.checkYounger (some 0))) ∧
      s.arr.tail = some 2 ∧ s.arr.value 0 = some 1 ∧
      (s.arr.mem 2).map (fun b => (b.blockId, b.prev)) = some (2, some 1) ∧
      (s.arr.mem 1).map (fun b => (b.blockId, b.prev)) = some (1, none) := by
  obtain ⟨s, hr, ho, hbot, htop, h0, h1, h2, ht, hret, hv⟩ := race_block0_retiring
  obtain ⟨lo, hi, hl⟩ := reachable_layout hr
  obtain rfl : lo = 1 := Option.some.inj (hl.chain.tail.symm.trans ht)
  have hhi : 2 ≤ hi := by
    have := hl.extent
    simp only [ho, Owner.extent, hbot] at this
    omega
  obtain ⟨b1, hb1, hid1⟩ := hl.chain.mem (show 1 ≤ hi by omega)
  obtain ⟨b2, hb2, hid2⟩ := hl.chain.mem hhi
  have hp2 : b2.prev = some 1 := by simpa [hb2] using hl.chain.prev 2 (by omega) hhi
  obtain ⟨evs, hsteal⟩ := seqRun_steals hl.chain hb1 h2 (show 14 ≤ 15 by omega) 16383
    (by omega) (fun j hj => by rw [htop, desiredBlockId_eq]; omega)
  have hcall := seqCall_popTop (s := { s with top := s.top + 16383, history := s.history ++ evs })
    hl.chain hb1 h2 (by simp [htop, hbot]) (by simp [htop, desiredBlockId_eq]; omega)
    (by simp [htop, desiredBlockId_eq]) (show _ ≤ 15 by simp [htop, desiredBlockId_eq])
  rw [if_pos (by simp [htop, offset_eq, desiredBlockId_eq])] at hcall
  refine ⟨_, (hr.seqRun hsteal).seqCall hcall, by simpa using h0, by simpa using h1, rfl,
    by simpa [(hl.chain.retireAlone hb1 (by omega)).2] using hv, ?_, ?_⟩
  · simp [CA.retireAlone_mem, hb2, hid2, hp2]
  · simp [CA.retireAlone_mem, hid1, hret]

/-- After the schedule, thief 0's `get_tail(0)` searches from `tail`, block 2:
`prev` leads it to block 1, and block 1's `prev` is null. Its search ends at
`nullptr`, while element 0 is still stored in block 0; its next step, the
assertion `b->block_id == desired_block_id`, dereferences null. Thief 1 is
still inside the retirement of block 0. -/
theorem delayed_thief_derefs_null :
    ∃ s : BlockState Nat 3, Reachable (blocks Nat) s ∧ s.arr.value 0 = some 1 ∧
      s.thieves 0 = .claimed 0 32769 (.found (some 2) none) ∧
      s.thieves 1 = .claimed 16384 32769 (.retire 1 (.checkYounger (some 0))) ∧
      thiefStep (blocks Nat) s 0 = none := by
  obtain ⟨s, hr, h0, h1, ht, hv, hm2, hm1⟩ := race_block1_retired
  obtain ⟨b2, hb2, hb2'⟩ := Option.map_eq_some'.1 hm2
  obtain ⟨b1, hb1, hb1'⟩ := Option.map_eq_some'.1 hm1
  simp only [Prod.mk.injEq] at hb2' hb1'
  have hsteps : GetTail.steps s.arr 0 5 .loadTail = some (s.arr, .found (some 2) none) := by
    rw [GetTail.steps_succ (show GetTail.loadTail.step s.arr 0 = _ from rfl), ht,
      GetTail.steps_succ (GetTail.step_forward s.arr hb2),
      if_neg (by simp [hb2'.1, desiredBlockId_eq]),
      GetTail.steps_succ (GetTail.step_backward s.arr hb2),
      if_pos (by simp [hb2'.1, desiredBlockId_eq]), hb2'.2,
      GetTail.steps_succ (GetTail.step_backward s.arr hb1),
      if_pos (by simp [hb1'.1, desiredBlockId_eq]), hb1'.2,
      GetTail.steps_succ (show (GetTail.backward (some 2) none).step s.arr 0 = _ from rfl)]
    rfl
  have hrun := run_thief_steps 5 h0 hsteps
  refine ⟨_, hr.run hrun, by simpa using hv, by simp, by simp [h1], ?_⟩
  simp [Deque.thiefStep, GetTail.step]

/-! ## No retirement's CAS on `tail` fails -/

/-- In every reachable state of the deque on `continuous_array`, for any
number of thieves, a thief's `ca_retire_last_block()` about to CAS `tail` has
loaded the current tail, and the block of its index as the next one: its CAS
succeeds. No retirement ever reaches the branch after a failed CAS. On
`continuous_array` alone two calls of `get_tail` at the first index of one
block take that branch and push the live tail onto `to_retire`; in the deque
the CAS on `top` hands each index to one thief only. -/
theorem retire_tail_cas_succeeds {s : BlockState V n} (h : Reachable (blocks V) s) :
    ∀ i oldTop localBot p r, s.thieves i = .claimed oldTop localBot (.retire p r) →
      (∀ old next, r = .cas old next → s.arr.tail = old ∧ next = some p) ∧
      ∀ old next, r ≠ .recheck old next := by
  obtain ⟨lo, hi, hl⟩ := reachable_layout h
  intro i oldTop localBot p r hc
  obtain ⟨-, rfl, hr⟩ := hl.readers i _ _ _ hc
  refine ⟨fun old next he => ?_, fun old next he => ?_⟩
  · subst he
    exact ⟨hl.chain.tail.trans hr.1.symm, hr.2.1⟩
  · subst he
    exact hr

/-- In the schedule thief 1 is at its CAS on `tail`, which is block 0. -/
theorem retire_tail_cas_succeeds_race :
    ∃ s : BlockState Nat 3, Reachable (blocks Nat) s ∧ s.arr.tail = some 0 ∧
      s.thieves 1 = .claimed 16384 32769 (.retire 1 (.cas (some 0) (some 1))) ∧
      ∀ i oldTop localBot p r, s.thieves i = .claimed oldTop localBot (.retire p r) →
        (∀ old next, r = .cas old next → s.arr.tail = old ∧ next = some p) ∧
        ∀ old next, r ≠ .recheck old next := by
  obtain ⟨s, hr, -, -, -, -, h1, -, ht, -⟩ := race_block0_tail_cas
  exact ⟨s, hr, ht, h1, retire_tail_cas_succeeds hr⟩

end Parlay.Deque
