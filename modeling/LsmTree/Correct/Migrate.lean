import LsmTree.Cluster.Migration
import LsmTree.Correct.Routes

/-!
# What the steps of a migration do

A pass of `copySlotKeys` sets keys of the slot on the target to what the scan of the source showed;
a key of the slot that it leaves alone was on neither of the two shards when they were scanned
(`copy_updates`, `copy_complete`).  Writing another owner of the slot into the plan changes the
routes of the slot's keys and of no others.
-/

namespace LsmTree

open KeyValue

variable {g : Migration} {n n' n₀ : ShardedNode} {p : RoutingPlan} {k : Bytes} {id : ℕ}

variable {s t : Shard} {v : Bytes} {order : List BatchEntry} {b : BatchEntry} {owner slot : ℕ}
  {a : RoutingSlot}

/-! ### Scans -/

theorem mem_scan {start stop : Bytes} :
    (k, v) ∈ s.scan start stop ↔ s.lookup k = some v ∧ start ≤ k ∧ (stop = [] ∨ k < stop) := by
  unfold Shard.scan
  rw [(List.perm_insertionSort _ _).mem_iff, List.mem_filter, Store.mem_items]
  simp

theorem mem_scan_all : (k, v) ∈ s.scan [] [] ↔ s.lookup k = some v := by
  rw [mem_scan]
  exact ⟨fun h => h.1, fun h => ⟨h, not_lt.1 (List.not_lt_nil k), Or.inl rfl⟩⟩

theorem mem_scan_keys : k ∈ (s.scan [] []).map Prod.fst ↔ s.lookup k ≠ none := by
  rw [List.mem_map, Option.ne_none_iff_exists']
  constructor
  · rintro ⟨⟨j, v⟩, hmem, rfl⟩
    exact ⟨v, mem_scan_all.1 hmem⟩
  · rintro ⟨v, hv⟩
    exact ⟨(k, v), mem_scan_all.2 hv, rfl⟩

/-! ### Batches -/

theorem flatten_flushBatches (es batch : List BatchEntry) :
    (flushBatches es batch).flatten = batch ++ es := by
  induction es generalizing batch with
  | nil =>
    rw [flushBatches]
    split_ifs with h
    · rw [h]
      rfl
    · simp
  | cons e es ih =>
    rw [flushBatches]
    split_ifs
    · rw [List.flatten_cons, ih]
      simp
    · rw [ih]
      simp

theorem mem_mapOrder {puts deletes : List BatchEntry} :
    b ∈ mapOrder order puts deletes ↔ b ∈ puts ∨ b ∈ deletes := by
  unfold mapOrder
  split_ifs with h
  · rw [← h.1.mem_iff, ← h.2.mem_iff, ← List.mem_append, List.take_append_drop]
  · rw [List.mem_append]

theorem copy_updates
    (hb : b ∈ mapOrder order (g.puts (s.scan [] [])) (g.deletes (s.scan [] []) (t.scan [] []))) :
    g.moves b.key = true ∧ b.update = (b.key, s.lookup b.key) := by
  rw [mem_mapOrder, Migration.puts, Migration.deletes, List.mem_map, List.mem_map] at hb
  rcases hb with ⟨⟨j, v⟩, hmem, rfl⟩ | ⟨⟨j, v⟩, hmem, rfl⟩
  · obtain ⟨hmem, hmoves⟩ := List.mem_filter.1 hmem
    refine ⟨hmoves, ?_⟩
    rw [mem_scan_all.1 hmem]
    rfl
  · obtain ⟨-, hmoves⟩ := List.mem_filter.1 hmem
    rw [Bool.and_eq_true, Bool.not_eq_true', decide_eq_false_iff_not, mem_scan_keys,
      not_not] at hmoves
    refine ⟨hmoves.1, ?_⟩
    rw [hmoves.2]
    rfl

theorem copy_complete (hk : g.moves k = true)
    (h : k ∉ (mapOrder order (g.puts (s.scan [] []))
      (g.deletes (s.scan [] []) (t.scan [] []))).map BatchEntry.key) :
    s.lookup k = none ∧ t.lookup k = none := by
  have hs : s.lookup k = none := by
    by_contra hne
    obtain ⟨v, hv⟩ := Option.ne_none_iff_exists'.1 hne
    refine h (List.mem_map.2 ⟨⟨k, v, false⟩, mem_mapOrder.2 (Or.inl ?_), rfl⟩)
    exact List.mem_map.2 ⟨(k, v), List.mem_filter.2 ⟨mem_scan_all.2 hv, hk⟩, rfl⟩
  refine ⟨hs, ?_⟩
  by_contra hne
  obtain ⟨v, hv⟩ := Option.ne_none_iff_exists'.1 hne
  refine h (List.mem_map.2 ⟨⟨k, [], true⟩, mem_mapOrder.2 (Or.inr ?_), rfl⟩)
  refine List.mem_map.2 ⟨(k, v), List.mem_filter.2 ⟨mem_scan_all.2 hv, ?_⟩, rfl⟩
  rw [Bool.and_eq_true, Bool.not_eq_true', decide_eq_false_iff_not, mem_scan_keys, not_not]
  exact ⟨hk, hs⟩

/-! ### Plans -/

theorem load_persisted (hpos : 0 < n.shardCount) (hp : p.Fits n.shardCount) :
    (n.persistRoutingPlan p true).loadRoutingPlan true = some p := by
  unfold ShardedNode.loadRoutingPlan ShardedNode.persistRoutingPlan
  rw [if_pos rfl]
  dsimp only
  rw [if_neg hpos.ne', if_pos rfl, hp.normalize_eq hpos, hp.load_eq, Option.map_some,
    hp.normalize_eq hpos]

theorem route_setSlot (hpos : 0 < n.shardCount)
    (hload : n.loadRoutingPlan true = some (p.setSlot slot a)) (hlt : slot < p.slots.length)
    (hk : p.slotForKey k = slot) : n.routeForKey true k = some a.route := by
  refine route_of_loaded hpos hload ?_
  change (p.slots.set slot a)[p.slotForKey k]? = some a
  rw [hk, List.getElem?_set_self hlt]

theorem route_setSlot_of_ne (hpos : 0 < n.shardCount) (hc : n'.shardCount = n.shardCount)
    (hload : n.loadRoutingPlan true = some p)
    (hload' : n'.loadRoutingPlan true = some (p.setSlot slot a)) (hk : p.slotForKey k ≠ slot) :
    n'.routeForKey true k = n.routeForKey true k := by
  obtain ⟨b, hb⟩ := (loadRoutingPlan_fits hpos hload).exists_slot k
  rw [route_of_loaded hpos hload hb]
  refine route_of_loaded (hc ▸ hpos) hload' ?_
  change (p.slots.set slot a)[p.slotForKey k]? = some b
  rw [List.getElem?_set_ne (Ne.symm hk), hb]

/-- The migration is called as `rebalanceOnce` calls it: with the plan that is loaded, for a slot
that the source owns. -/
structure Migration.Ready (g : Migration) (n : ShardedNode) : Prop where
  loaded : n.loadRoutingPlan true = some g.plan
  owner : (g.plan.slots[g.slot]?).map RoutingSlot.owner = some (g.source : ℤ)
  target_lt : g.target < n.shardCount
  ne : g.source ≠ g.target

theorem Migration.Ready.pos (h : g.Ready n) : 0 < n.shardCount := by
  have := h.target_lt
  omega

theorem Migration.Ready.fits (h : g.Ready n) : g.plan.Fits n.shardCount :=
  loadRoutingPlan_fits h.pos h.loaded

theorem Migration.Ready.slot_lt (h : g.Ready n) : g.slot < g.plan.slots.length := by
  obtain ⟨a, ha, -⟩ := Option.map_eq_some_iff.1 h.owner
  exact (List.getElem?_eq_some_iff.1 ha).1

theorem Migration.Ready.source_lt (h : g.Ready n) : g.source < n.shardCount := by
  obtain ⟨a, ha, ho⟩ := Option.map_eq_some_iff.1 h.owner
  have := (h.fits.owner a (List.mem_of_getElem? ha)).2
  omega

theorem Migration.Ready.current_fits (h : g.Ready n) : g.current.Fits n.shardCount := by
  have hs := h.source_lt
  have ht := h.target_lt
  exact h.fits.setSlot ⟨Int.natCast_nonneg _, Int.ofNat_lt.2 hs⟩
    ⟨Int.natCast_nonneg _, Int.ofNat_lt.2 ht⟩ g.slot

theorem Migration.Ready.owned_fits (h : g.Ready n) (ho : owner < n.shardCount) :
    (g.owned owner).Fits n.shardCount :=
  h.current_fits.setSlot ⟨Int.natCast_nonneg _, Int.ofNat_lt.2 ho⟩
    ⟨le_rfl, Int.ofNat_lt.2 h.pos⟩ g.slot

theorem slot_of_moves (hk : g.moves k = true) : g.plan.slotForKey k = g.slot := by
  rw [Migration.moves, Bool.and_eq_true, decide_eq_true_eq] at hk
  exact hk.2

theorem route_source (h : g.Ready n₀) (hc : n.shardCount = n₀.shardCount)
    (hload : n.loadRoutingPlan true = some g.plan) (hk : g.moves k = true) :
    ∃ r, n.routeForKey true k = some r ∧ r.primary = g.source := by
  obtain ⟨a, ha, ho⟩ := Option.map_eq_some_iff.1 h.owner
  rw [← slot_of_moves hk] at ha
  refine ⟨a.route, route_of_loaded (hc ▸ h.pos) hload ha, ?_⟩
  change a.owner.toNat = g.source
  rw [ho, Int.toNat_natCast]

theorem route_current (h : g.Ready n₀) (hc : n.shardCount = n₀.shardCount)
    (hload : n.loadRoutingPlan true = some g.current) (hk : g.moves k = true) :
    n.routeForKey true k = some ⟨g.source, g.target, true⟩ := by
  rw [route_setSlot (hc ▸ h.pos) hload h.slot_lt (slot_of_moves hk)]
  rfl

theorem route_owned (h : g.Ready n₀) (hc : n.shardCount = n₀.shardCount)
    (hload : n.loadRoutingPlan true = some (g.owned owner)) (hk : g.moves k = true) :
    n.routeForKey true k = some ⟨owner, owner, false⟩ := by
  have hlt : g.slot < g.current.slots.length := by
    change g.slot < (g.plan.slots.set _ _).length
    rw [List.length_set]
    exact h.slot_lt
  have hslot : g.current.slotForKey k = g.slot := slot_of_moves hk
  rw [route_setSlot (hc ▸ h.pos) hload hlt hslot]
  rfl

theorem primary_mem_writes (r : Route) : r.primary ∈ r.writes := by
  unfold Route.writes
  split_ifs <;> simp

/-! ### Writes of clients -/

/-- **What an acknowledged batch does to a key**, while the plan can be read. -/
theorem contents_write_key {txID : Bytes} {batch : List BatchEntry} {out : TxOutcome} {r : Route}
    (h : n.write txID (batch.map (fun b => (b, true))) out = (n', .ok ()))
    (hr : n.routeForKey true k = some r) (id : ℕ) :
    contents n'.shards id k = if id ∈ r.writes then
      applyAll (batch.map BatchEntry.update)
        (contents n.shards id) k else contents n.shards id k := by
  obtain ⟨-, -, hcontents⟩ := write_ok_contents h
  -- whether an operation goes to the shard depends on its key only
  let goes : Bytes × Option Bytes → Bool :=
    fun u => (n.routeForKey true u.1).any (fun r => decide (id ∈ r.writes))
  have hops : (((batch.map (fun b => (b, true))).filter (n.sends id)).map Prod.fst).map
      BatchEntry.update = (batch.map BatchEntry.update).filter goes := by
    rw [List.filter_map, List.map_map, List.filter_map, List.map_map]
    rfl
  have hgoes : ∀ u : Bytes × Option Bytes, u.1 = k → goes u = decide (id ∈ r.writes) := by
    intro u hu
    simp only [goes, hu, hr, Option.any_some]
  rw [hcontents id, hops]
  split_ifs with hid
  · exact applyAll_filter (fun u _ hu => by rw [hgoes u hu, decide_eq_true hid]) _
  · refine applyAll_of_not_mem (fun hmem => ?_) _
    obtain ⟨u, hu, hk⟩ := List.mem_map.1 hmem
    have := (List.mem_filter.1 hu).2
    rw [hgoes u hk, decide_eq_false hid] at this
    cases this

end LsmTree
