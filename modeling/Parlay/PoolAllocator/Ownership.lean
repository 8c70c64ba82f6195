import Parlay.PoolAllocator.Properties

/-!
# No block is handed out twice

Every block is in at most one place: held by the client, or once on the free
list of one large bucket. `allocate_large` pops the block it hands out, and
`deallocate_large` pushes only the block the client gives back, so a block
moves between the client and the buckets and is never in both; a fresh block
lies above every block handed out before it (`Exclusive`).

Results:
1. `Exclusive.call`: every call keeps `Exclusive`.
2. `allocate_never_returns_held`: in every state any sequence of calls
   reaches, the blocks held and pooled are pairwise distinct, and `allocate`
   returns no block the client still holds.
-/

namespace Parlay.PoolAllocator

/-- The blocks the client holds, then the blocks pooled on the large buckets,
each as often as it is there. -/
def Client.blocks (c : Client) : List Nat :=
  c.held.map Prod.fst ++ c.pool.largeBuckets.flatten

/-- Each block is held or pooled at most once, and lies below the next fresh
address. -/
structure Exclusive (c : Client) : Prop where
  nodup : c.blocks.Nodup
  lt_next : ∀ a ∈ c.blocks, a < c.pool.nextAddr

/-! ## Counting blocks -/

/-- The `k`-th element and the others are the whole list. -/
theorem perm_cons_eraseIdx {α : Type} : ∀ {l : List α} {k : Nat} {e : α},
    l[k]? = some e → l.Perm (e :: l.eraseIdx k)
  | [], _, _, h => by simp at h
  | x :: l, 0, e, h => by
    obtain rfl : x = e := by simpa using h
    rfl
  | x :: l, k + 1, e, h => by
    rw [List.getElem?_cons_succ] at h
    exact ((perm_cons_eraseIdx h).cons x).trans (.swap e x _)

/-- Setting bucket `j` to `x` trades the blocks of bucket `j` for those of `x`,
or changes nothing when there is no bucket `j`. -/
theorem count_flatten_set (a : Nat) (x : List Nat) : ∀ (l : List (List Nat)) (j : Nat),
    (l.set j x).flatten.count a + (l.getD j []).count a ≤ l.flatten.count a + x.count a
  | [], _ => by simp
  | y :: l, 0 => by
    simp only [List.set_cons_zero, List.flatten_cons, List.getD_cons_zero, List.count_append]
    omega
  | y :: l, j + 1 => by
    have ih := count_flatten_set a x l j
    simp only [List.set_cons_succ, List.flatten_cons, List.getD_cons_succ, List.count_append]
    omega

/-- A client that holds the `k`-th block `e` holds it once more than after
handing it back. -/
theorem count_held_eraseIdx {held : List (Nat × Nat)} {k : Nat} {e : Nat × Nat}
    (h : held[k]? = some e) (a : Nat) :
    (held.map Prod.fst).count a = ((held.eraseIdx k).map Prod.fst).count a + [e.1].count a := by
  rw [((perm_cons_eraseIdx h).map Prod.fst).count_eq, List.map_cons, ← List.singleton_append,
    List.count_append, Nat.add_comm]

/-! ## One lemma per call -/

section Calls

variable {L : Layout}

theorem Exclusive.start : Exclusive L.start :=
  ⟨by simp [Client.blocks, Layout.start, Layout.initial],
    by simp [Client.blocks, Layout.start, Layout.initial]⟩

/-- A call that holds and pools each block at most as often as before, and
moves no block above the next fresh address, keeps `Exclusive`. -/
theorem Exclusive.of_count_le {c c' : Client} (h : Exclusive c)
    (hcount : ∀ a, c'.blocks.count a ≤ c.blocks.count a)
    (hnext : c.pool.nextAddr ≤ c'.pool.nextAddr) : Exclusive c' where
  nodup := List.nodup_iff_count_le_one.2 fun a =>
    (hcount a).trans (List.nodup_iff_count_le_one.1 h.nodup a)
  lt_next a ha :=
    lt_of_lt_of_le (h.lt_next a (List.count_pos_iff.1 (lt_of_lt_of_le
      (List.count_pos_iff.2 ha) (hcount a)))) hnext

/-- A fresh block, at the next fresh address, is in no place yet. -/
theorem Exclusive.fresh {c : Client} {p : Pool} {n : Nat} (h : Exclusive c)
    (hbuckets : p.largeBuckets = c.pool.largeBuckets) (hnext : p.nextAddr = c.pool.nextAddr + 1) :
    Exclusive ⟨p, c.held ++ [(c.pool.nextAddr, n)]⟩ := by
  have hperm : (Client.blocks ⟨p, c.held ++ [(c.pool.nextAddr, n)]⟩).Perm
      (c.pool.nextAddr :: c.blocks) := by
    simpa only [Client.blocks, hbuckets, List.map_append, List.map_cons, List.map_nil,
      List.append_assoc, List.singleton_append] using List.perm_middle
  refine ⟨hperm.nodup_iff.2 (List.nodup_cons.2 ⟨fun hm => lt_irrefl _ (h.lt_next _ hm), h.nodup⟩),
    fun a ha => ?_⟩
  show a < p.nextAddr
  rw [hnext]
  rcases List.mem_cons.1 (hperm.subset ha) with rfl | ha
  · exact Nat.lt_succ_self _
  · exact Nat.lt_succ_of_lt (h.lt_next a ha)

theorem Exclusive.allocate {c : Client} {p : Pool} {n a : Nat} (h : Exclusive c)
    (ha : allocate L c.pool n = .ok (p, a)) : Exclusive ⟨p, c.held ++ [(a, n)]⟩ := by
  rcases allocate_cases ha with ⟨-, b, -, -, he⟩ |
      ⟨-, -, b, -, ⟨rest, -, hcons, rfl⟩ | ⟨-, he⟩⟩ | ⟨-, -, he⟩
  · obtain ⟨rfl, rfl⟩ := eq_of_pair_eq he
    exact h.fresh rfl rfl
  · replace hcons : c.pool.largeBuckets.getD (b - L.numSmall) [] = [a] ++ rest := hcons
    refine h.of_count_le (fun x => ?_) le_rfl
    have hset := count_flatten_set x rest c.pool.largeBuckets (b - L.numSmall)
    simp only [hcons, List.count_append] at hset
    simp only [Client.blocks, List.map_append, List.map_cons, List.map_nil, List.count_append]
    omega
  · obtain ⟨rfl, rfl⟩ := eq_of_pair_eq he
    exact h.fresh rfl rfl
  · obtain ⟨rfl, rfl⟩ := eq_of_pair_eq he
    exact h.fresh rfl rfl

theorem Exclusive.deallocate {c : Client} {p : Pool} {k a n : Nat} (h : Exclusive c)
    (hk : c.held[k]? = some (a, n)) (hd : deallocate L c.pool a n = .ok p) :
    Exclusive ⟨p, c.held.eraseIdx k⟩ := by
  have hheld := count_held_eraseIdx hk
  have dropped : ∀ q : Pool, q.largeBuckets = c.pool.largeBuckets →
      q.nextAddr = c.pool.nextAddr → Exclusive ⟨q, c.held.eraseIdx k⟩ := fun q hb hn =>
    h.of_count_le (fun x => by simp only [Client.blocks, List.count_append, hheld x, hb]; omega)
      hn.ge
  rcases deallocate_cases hd with ⟨-, b, -, -, rfl⟩ | ⟨-, -, b, -, -, rfl⟩ | ⟨-, -, rfl⟩
  · exact dropped _ rfl rfl
  · refine h.of_count_le (fun x => ?_) le_rfl
    have hset := count_flatten_set x (a :: c.pool.largeBuckets.getD (b - L.numSmall) [])
      c.pool.largeBuckets (b - L.numSmall)
    simp only [List.count_cons, beq_iff_eq] at hset
    simp only [Client.blocks, List.count_append, hheld x, List.count_singleton']
    omega
  · exact dropped _ rfl rfl

theorem Exclusive.clear {c : Client} (h : Exclusive c) :
    Exclusive { c with pool := clear L c.pool } :=
  h.of_count_le (fun x => by simp [Client.blocks, PoolAllocator.clear]) le_rfl

theorem Exclusive.call {c c' : Client} {call : Call} (h : Exclusive c)
    (hc : c.call L call = .ok c') : Exclusive c' := by
  rcases Client.call_cases hc with ⟨n, p, a, -, ha, rfl⟩ | ⟨k, a, n, p, -, hk, hd, rfl⟩ |
      ⟨k, -, -, rfl⟩ | ⟨-, rfl⟩
  · exact h.allocate ha
  · exact h.deallocate hk hd
  · exact h
  · exact h.clear

end Calls

/-- In every state any sequence of calls reaches, every block is held or
pooled at most once, and `allocate` hands out no block the client still
holds: a pooled block leaves its bucket when it is handed out, and a fresh
block is new. -/
theorem allocate_never_returns_held {L : Layout} {calls : List Call} {c : Client}
    (hrun : L.start.run L calls = .ok c) :
    c.blocks.Nodup ∧ ∀ p n a, allocate L c.pool n = .ok (p, a) → a ∉ c.held.map Prod.fst := by
  have hex : Exclusive c := Client.run_induction (fun h hc => h.call hc) Exclusive.start hrun
  refine ⟨hex.nodup, fun p n a ha hheld => ?_⟩
  have hnodup := (hex.allocate ha).nodup
  simp only [Client.blocks, List.map_append, List.map_cons, List.map_nil, List.append_assoc,
    List.singleton_append, List.nodup_append, List.nodup_cons] at hnodup
  exact hnodup.2.2 hheld (List.mem_cons_self a _)

theorem allocate_never_returns_held_reuse :
    let calls : List Call := [.allocate ⟨300000, by decide⟩, .allocate ⟨300000, by decide⟩,
      .deallocate 0, .allocate ⟨300000, by decide⟩]
    ∃ c, (poolAllocator twoLargeSizes).start.run (poolAllocator twoLargeSizes) calls = .ok c ∧
      c.blocks.Nodup ∧ ∀ p n a, allocate (poolAllocator twoLargeSizes) c.pool n = .ok (p, a) →
        a ∉ c.held.map Prod.fst := by
  intro calls
  exact ⟨_, rfl, @allocate_never_returns_held _ calls _ rfl⟩

end Parlay.PoolAllocator
