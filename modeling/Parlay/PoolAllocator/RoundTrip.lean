import Parlay.PoolAllocator.Properties

/-!
# Handing a block back and asking for it again

`deallocate_large` pushes a block on the free list of the bucket its size
selects, and `allocate_large` pops the top of that list, so a large block handed
back and asked for again with the same size comes straight back, and the
allocator is as it was before the two calls: `large_used` goes down by `n` and
up by `n` again. An oversize block goes to `operator delete` instead: both
counters come back, and the request gets a fresh block from `operator new`.

The round trip rests on what every reachable state keeps (`Wf`): one free list
per large bucket, `size_t` counters and `size_t` requests.

Results:
1. `Wf.call`: every call keeps `Wf`.
2. `deallocate_allocate_round_trip`: in every state any sequence of calls
   reaches, a held large block handed back and asked for again with its size
   comes back with the allocator unchanged; an oversize one restores the
   counters and gets the next fresh block.
3. `allocate_deallocate_round_trip`: the other way round, a large block taken
   from its bucket and handed back at once leaves the allocator unchanged.
-/

namespace Parlay.PoolAllocator

theorem sizeMod_pos : 0 < sizeMod := Nat.two_pow_pos 64

theorem sizeAdd_lt (a b : Nat) : sizeAdd a b < sizeMod := Nat.mod_lt _ sizeMod_pos

theorem sizeSub_lt (a b : Nat) : sizeSub a b < sizeMod := Nat.mod_lt _ sizeMod_pos

theorem sizeAdd_sizeSub {a b : Nat} (ha : a < sizeMod) (hb : b < sizeMod) :
    sizeAdd (sizeSub a b) b = a := by
  unfold sizeAdd sizeSub
  rw [Nat.mod_add_mod, show a + (sizeMod - b) + b = a + sizeMod by omega, Nat.add_mod_right,
    Nat.mod_eq_of_lt ha]

/-- Setting a list to its own element changes nothing, also past its end. -/
theorem set_getD_self : ∀ (l : List (List Nat)) (j : Nat), l.set j (l.getD j []) = l
  | [], _ => rfl
  | _ :: _, 0 => rfl
  | x :: l, j + 1 => congrArg (x :: ·) (set_getD_self l j)

theorem drain_lt (size : Nat) : ∀ {allocated : Nat} (l : List Nat),
    allocated < sizeMod → drain size allocated l < sizeMod
  | _, [], h => h
  | _, _ :: rest, _ => drain_lt size rest (sizeSub_lt _ _)

theorem clear_largeAllocated_lt (L : Layout) {p : Pool} (h : p.largeAllocated < sizeMod) :
    (clear L p).largeAllocated < sizeMod := by
  suffices ∀ (l : List (Nat × List Nat)) {a : Nat}, a < sizeMod →
      l.foldl (fun allocated bucket => drain bucket.1 allocated bucket.2) a < sizeMod from this _ h
  intro l
  induction l with
  | nil => exact id
  | cons bucket l ih => exact fun ha => ih (drain_lt _ _ ha)

/-- What every reachable state keeps: one free list per large bucket, and the
counters and the requests held are `size_t` values. -/
structure Wf (L : Layout) (c : Client) : Prop where
  buckets : c.pool.largeBuckets.length = L.numBuckets - L.numSmall
  used_lt : c.pool.largeUsed < sizeMod
  allocated_lt : c.pool.largeAllocated < sizeMod
  held_lt : ∀ e ∈ c.held, e.2 < sizeMod

section Calls

variable {L : Layout}

theorem Wf.start : Wf L L.start :=
  ⟨by simp [Layout.start, Layout.initial], sizeMod_pos, sizeMod_pos, by simp [Layout.start]⟩

theorem Wf.allocate {c : Client} {p : Pool} {n a : Nat} (h : Wf L c) (hn : n < sizeMod)
    (ha : allocate L c.pool n = .ok (p, a)) : Wf L ⟨p, c.held ++ [(a, n)]⟩ := by
  have held_lt : ∀ e ∈ c.held ++ [(a, n)], e.2 < sizeMod := by
    simpa [or_imp, forall_and] using And.intro h.held_lt hn
  rcases allocate_cases ha with ⟨-, b, -, -, he⟩ |
      ⟨-, -, b, -, ⟨rest, -, -, rfl⟩ | ⟨-, he⟩⟩ | ⟨-, -, he⟩
  · obtain ⟨rfl, -⟩ := eq_of_pair_eq he
    exact ⟨h.buckets, h.used_lt, h.allocated_lt, held_lt⟩
  · exact ⟨by simp [h.buckets], sizeAdd_lt _ _, h.allocated_lt, held_lt⟩
  all_goals
    obtain ⟨rfl, -⟩ := eq_of_pair_eq he
    exact ⟨h.buckets, sizeAdd_lt _ _, sizeAdd_lt _ _, held_lt⟩

theorem Wf.deallocate {c : Client} {p : Pool} {k a n : Nat} (h : Wf L c)
    (hd : deallocate L c.pool a n = .ok p) : Wf L ⟨p, c.held.eraseIdx k⟩ := by
  have held_lt : ∀ e ∈ c.held.eraseIdx k, e.2 < sizeMod :=
    fun e he => h.held_lt e (List.mem_of_mem_eraseIdx he)
  rcases deallocate_cases hd with ⟨-, -, -, -, rfl⟩ | ⟨-, -, -, -, -, rfl⟩ | ⟨-, -, rfl⟩
  · exact ⟨h.buckets, h.used_lt, h.allocated_lt, held_lt⟩
  · exact ⟨by simp [h.buckets], sizeSub_lt _ _, h.allocated_lt, held_lt⟩
  · exact ⟨h.buckets, sizeSub_lt _ _, sizeSub_lt _ _, held_lt⟩

theorem Wf.clear {c : Client} (h : Wf L c) : Wf L { c with pool := clear L c.pool } :=
  ⟨by simp [PoolAllocator.clear, h.buckets], h.used_lt, clear_largeAllocated_lt L h.allocated_lt,
    h.held_lt⟩

theorem Wf.call {c c' : Client} {call : Call} (h : Wf L c) (hc : c.call L call = .ok c') :
    Wf L c' := by
  rcases Client.call_cases hc with ⟨n, p, a, -, ha, rfl⟩ | ⟨k, a, n, p, -, -, hd, rfl⟩ |
      ⟨k, -, -, rfl⟩ | ⟨-, rfl⟩
  · exact h.allocate n.isLt ha
  · exact h.deallocate hd
  · exact h
  · exact h.clear

/-! ## The round trip -/

/-- A large block pushed on its bucket is popped by the next request of its
size, and the pool is as before; an oversize block is deleted, and the next
request of its size restores the counters with a fresh block. -/
theorem deallocate_allocate_of_wf {c : Client} {p : Pool} {a n : Nat} (h : Wf L c)
    (hn : L.maxSmall < n) (hlt : n < sizeMod) (hd : deallocate L c.pool a n = .ok p) :
    ∃ p' a', allocate L p n = .ok (p', a') ∧ p'.largeUsed = c.pool.largeUsed ∧
      p'.largeAllocated = c.pool.largeAllocated ∧
      (n ≤ L.maxSize → p' = c.pool ∧ a' = a) ∧ (L.maxSize < n → a' = c.pool.nextAddr) := by
  have hused := sizeAdd_sizeSub h.used_lt hlt
  rcases deallocate_cases hd with ⟨hs, -⟩ | ⟨-, hmax, b, hb, hj, rfl⟩ | ⟨-, hmax, rfl⟩
  · omega
  · -- a pooled size: the block is on top of its bucket
    have hget : (c.pool.largeBuckets.set (b - L.numSmall)
        (a :: c.pool.largeBuckets.getD (b - L.numSmall) [])).getD (b - L.numSmall) [] =
        a :: c.pool.largeBuckets.getD (b - L.numSmall) [] := by
      simp [List.getD_eq_getElem?_getD, h.buckets, hj]
    refine ⟨c.pool, a, ?_, rfl, rfl, fun _ => ⟨rfl, rfl⟩, fun h' => absurd h' (by omega)⟩
    simp only [allocate, allocateLarge, if_pos hn, if_pos hmax, hb, bind, Except.bind,
      Layout.popLarge, if_pos hj, hget, List.set_set, set_getD_self, hused, pure, Except.pure]
  · -- an oversize block: `operator delete`, then `operator new`
    simp only [allocate, allocateLarge, if_pos hn, if_neg (show ¬ n ≤ L.maxSize by omega)]
    exact ⟨_, _, rfl, hused, sizeAdd_sizeSub h.allocated_lt hlt, fun h' => absurd h' (by omega),
      fun _ => rfl⟩

/-- A large block taken from its bucket and handed back at once goes back on
top of that bucket: the pool is as before. A fresh block has the next address,
so `a < next_addr` says the block was pooled. -/
theorem allocate_deallocate_of_wf {c : Client} {p : Pool} {a n : Nat} (h : Wf L c)
    (hn : L.maxSmall < n) (hlt : n < sizeMod) (ha : allocate L c.pool n = .ok (p, a))
    (hpooled : a < c.pool.nextAddr) : deallocate L p a n = .ok c.pool := by
  rcases allocate_cases ha with ⟨hs, -⟩ | ⟨-, hmax, b, hb, ⟨rest, hj, hget, rfl⟩ | ⟨-, he⟩⟩ |
      ⟨-, -, he⟩
  · omega
  · -- the block was on top of its bucket, and goes back there
    have hlen : b - L.numSmall < c.pool.largeBuckets.length := by rw [h.buckets]; exact hj
    have hrest : (c.pool.largeBuckets.set (b - L.numSmall) rest).getD (b - L.numSmall) [] = rest := by
      simp [List.getD_eq_getElem?_getD, hlen]
    simp only [deallocate, deallocateLarge, if_pos hn, if_neg (show ¬ n > L.maxSize by omega), hb,
      bind, Except.bind, Layout.pushLarge, if_pos hj, hrest, List.set_set, ← hget, set_getD_self,
      sizeSub_sizeAdd h.used_lt hlt]
  all_goals
    -- a fresh block has the next address
    obtain ⟨-, rfl⟩ := eq_of_pair_eq he
    simp at hpooled
end Calls

/-- In every state any sequence of calls reaches, a block the client holds for
a request `n` above `max_small`, handed back with `deallocate(ptr, n)` and asked
for again with `allocate(n)`: a pooled size gets the same block back and leaves
the allocator exactly as it was before `deallocate`; an oversize one restores
`large_used` and `large_allocated` and gets the next fresh block. -/
theorem deallocate_allocate_round_trip {L : Layout} {calls : List Call} {c : Client} {a n : Nat}
    {p : Pool} (hrun : L.start.run L calls = .ok c) (hheld : (a, n) ∈ c.held)
    (hn : L.maxSmall < n) (hd : deallocate L c.pool a n = .ok p) :
    ∃ p' a', allocate L p n = .ok (p', a') ∧ p'.largeUsed = c.pool.largeUsed ∧
      p'.largeAllocated = c.pool.largeAllocated ∧
      (n ≤ L.maxSize → p' = c.pool ∧ a' = a) ∧ (L.maxSize < n → a' = c.pool.nextAddr) := by
  have hw : Wf L c := Client.run_induction (fun h hc => h.call hc) Wf.start hrun
  exact deallocate_allocate_of_wf hw hn (hw.held_lt _ hheld) hd

theorem deallocate_allocate_round_trip_pooled :
    ∃ c p, (poolAllocator twoLargeSizes).start.run (poolAllocator twoLargeSizes)
        [.allocate ⟨300000, by decide⟩, .allocate ⟨500000, by decide⟩] = .ok c ∧
      (0, 300000) ∈ c.held ∧ (poolAllocator twoLargeSizes).maxSmall < 300000 ∧
      deallocate (poolAllocator twoLargeSizes) c.pool 0 300000 = .ok p ∧
      ∃ p' a', allocate (poolAllocator twoLargeSizes) p 300000 = .ok (p', a') ∧
        p'.largeUsed = c.pool.largeUsed ∧ p'.largeAllocated = c.pool.largeAllocated ∧
        (300000 ≤ (poolAllocator twoLargeSizes).maxSize → p' = c.pool ∧ a' = 0) ∧
        ((poolAllocator twoLargeSizes).maxSize < 300000 → a' = c.pool.nextAddr) := by
  refine ⟨_, _, rfl, List.mem_cons_self _ _, by decide, rfl, ?_⟩
  exact @deallocate_allocate_round_trip _
    [.allocate ⟨300000, by decide⟩, .allocate ⟨500000, by decide⟩] _ _ _ _ rfl
    (List.mem_cons_self _ _) (by decide) rfl

/-- In every state any sequence of calls reaches, a request `n` above
`max_small` served from its bucket, and handed back at once with
`deallocate(ptr, n)`, leaves the allocator as it was: the block is back on top
of its bucket and `large_used` goes up and down by `n`. -/
theorem allocate_deallocate_round_trip {L : Layout} {calls : List Call} {c : Client} {n a : Nat}
    {p : Pool} (hrun : L.start.run L calls = .ok c) (hn : L.maxSmall < n) (hlt : n < sizeMod)
    (ha : allocate L c.pool n = .ok (p, a)) (hpooled : a < c.pool.nextAddr) :
    deallocate L p a n = .ok c.pool :=
  allocate_deallocate_of_wf (Client.run_induction (fun h hc => h.call hc) Wf.start hrun) hn hlt ha
    hpooled

/-- A `300000`-byte block handed back is pooled on the `2^19`-byte bucket; the
next request of that size takes it, and handing it back restores the pool. -/
theorem allocate_deallocate_round_trip_pooled :
    ∃ c p, (poolAllocator twoLargeSizes).start.run (poolAllocator twoLargeSizes)
        [.allocate ⟨300000, by decide⟩, .deallocate 0] = .ok c ∧
      (poolAllocator twoLargeSizes).maxSmall < 300000 ∧ 300000 < sizeMod ∧
      allocate (poolAllocator twoLargeSizes) c.pool 300000 = .ok (p, 0) ∧ 0 < c.pool.nextAddr ∧
      deallocate (poolAllocator twoLargeSizes) p 0 300000 = .ok c.pool :=
  ⟨_, _, rfl, by decide, by decide, rfl, Nat.one_pos,
    @allocate_deallocate_round_trip _ [.allocate ⟨300000, by decide⟩, .deallocate 0] _ _ _ _ rfl
      (by decide) (by decide) rfl Nat.one_pos⟩

end Parlay.PoolAllocator
