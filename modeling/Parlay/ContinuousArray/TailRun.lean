import Parlay.ContinuousArray.Tail

/-!
# `get_tail` run to its end

A call `get_tail(index)` whose tail does not move under it, started from a
tail at or below the block of `index`: it walks forward along `next` to that
block, and retires the tail when `index` is the first element of the block
right after it. Each step of the search and of `ca_retire_last_block` has its
equation here, stated on the blocks it reads; `GetTail.run` runs the steps with
fuel.

Results:
1. `GetTail.run_alone`: the call returns the element stored for `index` within
   `desiredBlockId index - lo + 11` steps. It leaves the array alone when it
   retires nothing; otherwise it moves the tail one block on and pushes the
   old tail onto `to_retire` (`CA.retireAlone`).
-/

namespace Parlay.ContinuousArray

variable {T : Type} {ca : CA T} {index : Nat}

/-! ## One step on known blocks -/

theorem GetTail.step_forward (ca : CA T) {t : Option Nat} {k : Nat} {blk : Block T}
    (hm : ca.mem k = some blk) :
    (GetTail.forward t (some k)).step ca index = some (ca, .inl
      (if blk.blockId < desiredBlockId index then .forward t blk.next else .backward t (some k))) := by
  simp only [GetTail.step, hm, Option.map_some']
  split_ifs <;> rfl

theorem GetTail.step_backward (ca : CA T) {t : Option Nat} {k : Nat} {blk : Block T}
    (hm : ca.mem k = some blk) :
    (GetTail.backward t (some k)).step ca index = some (ca, .inl
      (if desiredBlockId index < blk.blockId then .backward t blk.prev else .found t (some k))) := by
  simp only [GetTail.step, hm, Option.map_some', gt_iff_lt]
  split_ifs <;> rfl

/-- The search found the block of `index`; it retires the tail `a` it loaded
when `index` starts the block right after it. -/
theorem GetTail.step_found (ca : CA T) {a k : Nat} {blk tb : Block T} (hm : ca.mem k = some blk)
    (hid : blk.blockId = desiredBlockId index) (ht : ca.mem a = some tb) :
    (GetTail.found (some a) (some k)).step ca index = some (ca, .inl
      (if offset index = 0 ∧ k ≠ a ∧ tb.blockId + 1 = desiredBlockId index then .retire k .loadTail
      else .read k)) := by
  simp only [GetTail.step, Option.bind_eq_bind, hm, Option.some_bind, hid, CA.check_pos,
    CA.get, ht, ne_eq, Option.some.injEq]
  by_cases h1 : offset index = 0 <;> by_cases h2 : k = a <;>
    by_cases h3 : tb.blockId + 1 = desiredBlockId index <;> simp [h1, h2, h3]

theorem GetTail.step_read (ca : CA T) {k : Nat} {blk : Block T} (hm : ca.mem k = some blk) :
    (GetTail.read k).step ca index = some (ca, .inr (blk.array (offset index))) := by
  simp [GetTail.step, hm]

theorem GetTail.step_retire {ca' : CA T} {p : Nat} {r r' : Retire}
    (h : r.step ca = some (ca', some r')) :
    (GetTail.retire p r).step ca index = some (ca', .inl (.retire p r')) := by
  simp [GetTail.step, h]

theorem Retire.step_loadNext (ca : CA T) {a b : Nat} {blk : Block T} (hm : ca.mem a = some blk)
    (hn : blk.next = some b) :
    (Retire.loadNext (some a)).step ca = some (ca, some (.cas (some a) (some b))) := by
  simp [Retire.step, CA.get, hm, hn]

theorem Retire.step_cas (ca : CA T) {old next : Option Nat} (ht : ca.tail = old) :
    (Retire.cas old next).step ca = some ({ ca with tail := next }, some (.checkYounger old)) := by
  simp [Retire.step, ht]

theorem Retire.step_checkYounger (ca : CA T) {a d : Nat} {tb ob : Block T} (ht : ca.tail = some d)
    (htb : ca.mem d = some tb) (hob : ca.mem a = some ob) (hlt : ob.blockId < tb.blockId) :
    (Retire.checkYounger (some a)).step ca = some (ca, some (.link (some a))) := by
  simp [Retire.step, CA.get, ht, htb, hob, hlt]

theorem Retire.step_link (ca : CA T) {a : Nat} {blk : Block T} (hm : ca.mem a = some blk) :
    (Retire.link (some a)).step ca =
      some ({ ca with mem := Function.update ca.mem a (some { blk with prev := ca.toRetire }) },
        some (.push (some a) ca.toRetire)) := by
  simp [Retire.step, CA.set, hm]

theorem Retire.step_push (ca : CA T) {old expected : Option Nat} (h : ca.toRetire = expected) :
    (Retire.push old expected).step ca = some ({ ca with toRetire := old }, none) := by
  simp [Retire.step, h]

/-! ## Runs -/

/-- Runs `get_tail(index)` from position `g` for at most `fuel` steps: the array
after the call and the element it returns, or `none` if a step dereferences
null or the fuel runs out. -/
def GetTail.run (ca : CA T) (index : Nat) : Nat → GetTail → Option (CA T × Option T)
  | 0, _ => none
  | fuel + 1, g => (g.step ca index).bind fun x =>
    x.2.elim (fun g' => GetTail.run x.1 index fuel g') fun v => some (x.1, v)

theorem GetTail.run_inl {ca' : CA T} {g g' : GetTail} (h : g.step ca index = some (ca', .inl g'))
    (fuel : Nat) : GetTail.run ca index (fuel + 1) g = GetTail.run ca' index fuel g' := by
  simp [GetTail.run, h]

theorem GetTail.run_inr {ca' : CA T} {g : GetTail} {v : Option T}
    (h : g.step ca index = some (ca', .inr v)) (fuel : Nat) :
    GetTail.run ca index (fuel + 1) g = some (ca', v) := by
  simp [GetTail.run, h]

theorem GetTail.run_retire {ca' : CA T} {p : Nat} {r r' : Retire}
    (h : r.step ca = some (ca', some r')) (fuel : Nat) :
    GetTail.run ca index (fuel + 1) (.retire p r) = GetTail.run ca' index fuel (.retire p r') :=
  GetTail.run_inl (GetTail.step_retire h) fuel

theorem GetTail.run_retire_done {ca' : CA T} {p : Nat} {r : Retire}
    (h : r.step ca = some (ca', none)) (fuel : Nat) :
    GetTail.run ca index (fuel + 1) (.retire p r) = GetTail.run ca' index fuel (.read p) :=
  GetTail.run_inl (by simp [GetTail.step, h]) fuel

/-- The forward search from block `k` up to the block of `index`, and the one
backward test there. -/
theorem GetTail.run_forward {lo hi : Nat} (hc : Chain ca lo hi) (hd : desiredBlockId index ≤ hi)
    (t : Option Nat) (m : Nat) :
    ∀ k fuel, k + m = desiredBlockId index →
      GetTail.run ca index (fuel + m + 2) (.forward t (some k)) =
        GetTail.run ca index fuel (.found t (some (desiredBlockId index))) := by
  obtain ⟨blk, hblk, hid⟩ := hc.mem hd
  induction m with
  | zero =>
    intro k fuel hk
    subst hk
    rw [GetTail.run_inl (GetTail.step_forward ca hblk), if_neg (by omega),
      GetTail.run_inl (GetTail.step_backward ca hblk), if_neg (by omega)]
  | succ m ih =>
    intro k fuel hk
    obtain ⟨bk, hbk, hkid⟩ := hc.mem (show k ≤ hi by omega)
    rw [show fuel + (m + 1) + 2 = fuel + m + 2 + 1 by omega,
      GetTail.run_inl (GetTail.step_forward ca hbk), if_pos (by omega),
      hc.next_eq (by omega) hbk]
    exact ih (k + 1) fuel (by omega)

/-- Runs exactly `m` steps of `get_tail(index)` from position `g`, none of
which returns: the array and the position after them. -/
def GetTail.steps (ca : CA T) (index : Nat) : Nat → GetTail → Option (CA T × GetTail)
  | 0, g => some (ca, g)
  | m + 1, g => (g.step ca index).bind fun x =>
    x.2.elim (fun g' => GetTail.steps x.1 index m g') fun _ => none

theorem GetTail.steps_succ {ca' : CA T} {g g' : GetTail} (h : g.step ca index = some (ca', .inl g'))
    (m : Nat) : GetTail.steps ca index (m + 1) g = GetTail.steps ca' index m g' := by
  simp [GetTail.steps, h]

/-! ## A retirement alone -/

/-- What `ca_retire_last_block()` leaves when it runs alone on the tail block
`lo`, which is `blk`: the tail on block `lo + 1`, the old tail's `prev` set to
the old `to_retire`, and the old tail on top of `to_retire`. -/
def CA.retireAlone (ca : CA T) (lo : Nat) (blk : Block T) : CA T :=
  { ca with
    tail := some (lo + 1)
    mem := Function.update ca.mem lo (some { blk with prev := ca.toRetire })
    toRetire := some lo }

@[simp] theorem CA.retireAlone_tail (ca : CA T) (lo : Nat) (blk : Block T) :
    (ca.retireAlone lo blk).tail = some (lo + 1) := rfl
@[simp] theorem CA.retireAlone_toRetire (ca : CA T) (lo : Nat) (blk : Block T) :
    (ca.retireAlone lo blk).toRetire = some lo := rfl
@[simp] theorem CA.retireAlone_blockInUse (ca : CA T) (lo : Nat) (blk : Block T) :
    (ca.retireAlone lo blk).blockInUse = ca.blockInUse := rfl
@[simp] theorem CA.retireAlone_faults (ca : CA T) (lo : Nat) (blk : Block T) :
    (ca.retireAlone lo blk).faults = ca.faults := rfl

theorem CA.retireAlone_mem (ca : CA T) (lo : Nat) (blk : Block T) (k : Nat) :
    (ca.retireAlone lo blk).mem k = if k = lo then some { blk with prev := ca.toRetire } else ca.mem k := by
  simp only [CA.retireAlone, Function.update_apply]

/-- The retirement keeps the chain above the old tail and every element. -/
theorem Chain.retireAlone {lo hi : Nat} {blk : Block T} (hc : Chain ca lo hi) (hblk : ca.mem lo = some blk)
    (hlt : lo < hi) : Chain (ca.retireAlone lo blk) (lo + 1) hi ∧
      ∀ j, (ca.retireAlone lo blk).value j = ca.value j := by
  have hcas : (({ ca with tail := some (lo + 1) } : CA T).set (some lo)
      fun b => { b with prev := ca.toRetire }) = some { ca with
        tail := some (lo + 1)
        mem := Function.update ca.mem lo (some { blk with prev := ca.toRetire }) } := by
    simp [CA.set, hblk]
  obtain ⟨hc', -, -, -, hv⟩ := (hc.advance hlt).setPrev (show lo < lo + 1 by omega) hcas
  exact ⟨hc'.setToRetire (some lo), hv⟩

/-- `get_tail(index)` with the tail on block `lo` at or below the block of
`index`, and nothing else moving: it returns the element stored for `index`,
and it retires the tail exactly when `index` is the first element of block
`lo + 1`. -/
theorem GetTail.run_alone {lo hi : Nat} {blk : Block T} (hc : Chain ca lo hi)
    (hblk : ca.mem lo = some blk) (hd : desiredBlockId index ≤ hi) (hlo : lo ≤ desiredBlockId index)
    (fuel : Nat) (hfuel : desiredBlockId index - lo + 11 ≤ fuel) :
    GetTail.run ca index fuel .loadTail =
      some (if offset index = 0 ∧ lo + 1 = desiredBlockId index then ca.retireAlone lo blk else ca,
        ca.value index) := by
  obtain ⟨F, rfl⟩ : ∃ F, fuel = F + 8 + (desiredBlockId index - lo) + 2 + 1 :=
    ⟨fuel - (desiredBlockId index - lo) - 11, by omega⟩
  obtain ⟨bd, hbd, hdid⟩ := hc.mem hd
  have hid : blk.blockId = lo := hc.blockId_eq hc.le hblk
  have hval : ca.value index = bd.array (offset index) := by simp [CA.value, hbd]
  rw [GetTail.run_inl (show GetTail.loadTail.step ca index = _ from rfl), hc.tail,
    GetTail.run_forward hc hd _ _ lo _ (by omega),
    GetTail.run_inl (GetTail.step_found ca hbd hdid hblk), hid, hval]
  by_cases hr : offset index = 0 ∧ lo + 1 = desiredBlockId index
  · rw [if_pos ⟨hr.1, by omega, hr.2⟩, if_pos hr]
    obtain ⟨-, hd1⟩ := hr
    have hnext := hc.next_eq (show lo < hi by omega) hblk
    rw [hd1] at hnext
    have hbd' : (ca.retireAlone lo blk).mem (desiredBlockId index) = some bd := by
      rw [CA.retireAlone_mem, if_neg (by omega), hbd]
    rw [GetTail.run_retire (show Retire.loadTail.step ca = _ from rfl), hc.tail,
      GetTail.run_retire (Retire.step_loadNext ca hblk hnext),
      GetTail.run_retire (Retire.step_cas ca hc.tail),
      GetTail.run_retire (Retire.step_checkYounger { ca with tail := _ } rfl hbd hblk (by omega)),
      GetTail.run_retire (Retire.step_link { ca with tail := some (desiredBlockId index) } hblk),
      GetTail.run_retire_done (Retire.step_push _ rfl)]
    rw [← hd1] at hbd' ⊢
    exact GetTail.run_inr (GetTail.step_read (ca.retireAlone lo blk) hbd') _
  · rw [if_neg (by omega), if_neg hr, GetTail.run_inr (GetTail.step_read ca hbd)]

end Parlay.ContinuousArray
