import LsmTree.Correct.CrossShard

/-!
# Routes

A plan that can be loaded fits the shards, and a key is routed to the owner that the plan records
for its slot (`route_of_loaded`).  Without the plan it is routed by its hash alone
(`route_of_down`).
-/

namespace LsmTree

open KeyValue

variable {n : ShardedNode} {p : RoutingPlan} {key : Bytes} {a : RoutingSlot}

variable {up : Bool} {n' : ShardedNode}

theorem routingSlotCount_pos (n : ShardedNode) : 0 < n.routingSlotCount := by
  unfold ShardedNode.routingSlotCount
  split_ifs with h
  · exact h
  · decide

/-- **Whatever is loaded fits the shards.** -/
theorem loadRoutingPlan_fits (hpos : 0 < n.shardCount) (h : n.loadRoutingPlan up = some p) :
    p.Fits n.shardCount := by
  unfold ShardedNode.loadRoutingPlan at h
  rw [if_neg hpos.ne'] at h
  split_ifs at h
  cases hplan : n.plan with
  | none =>
    rw [hplan] at h
    cases h
    exact newRoutingPlan_fits hpos (routingSlotCount_pos n)
  | some q =>
    rw [hplan] at h
    obtain ⟨q', -, rfl⟩ := Option.map_eq_some_iff.1 h
    exact RoutingPlan.fits_normalize hpos

theorem shardOr_of_range {shard : ℤ} (h : 0 ≤ shard ∧ shard < n.shardCount) (other : ℕ) :
    shardOr n shard other = shard.toNat := by
  unfold shardOr
  rw [if_neg (by omega)]

def RoutingSlot.route (a : RoutingSlot) : Route :=
  ⟨a.owner.toNat, (if a.migrating then a.target else a.owner).toNat, a.migrating⟩

/-- **A key is routed as the plan says.** -/
theorem route_of_loaded (hpos : 0 < n.shardCount) (h : n.loadRoutingPlan up = some p)
    (ha : p.slots[p.slotForKey key]? = some a) : n.routeForKey up key = some a.route := by
  have hfits := loadRoutingPlan_fits hpos h
  have hmem := List.mem_of_getElem? ha
  have ho := hfits.owner a hmem
  have ht := hfits.target a hmem
  unfold ShardedNode.routeForKey
  rw [if_neg hpos.ne', h]
  dsimp only
  rw [hfits.routeForKey_eq ha]
  dsimp only
  rw [shardOr_of_range ho, shardOr_of_range (by split_ifs <;> assumption)]
  rfl

/-- **Without the plan a key is routed by its hash.** -/
theorem route_of_down (hpos : 0 < n.shardCount) (h : n.loadRoutingPlan up = none) :
    n.routeForKey up key =
      some ⟨n.legacyShardForKey key, n.legacyShardForKey key, false⟩ := by
  unfold ShardedNode.routeForKey
  rw [if_neg hpos.ne', h]

theorem load_congr (hc : n'.shardCount = n.shardCount) (hs : n'.routingSlots = n.routingSlots)
    (hp : n'.plan = n.plan) (up : Bool) : n'.loadRoutingPlan up = n.loadRoutingPlan up := by
  unfold ShardedNode.loadRoutingPlan ShardedNode.routingSlotCount
  rw [hc, hs, hp]

theorem route_congr (hc : n'.shardCount = n.shardCount) (hs : n'.routingSlots = n.routingSlots)
    (hp : n'.plan = n.plan) (up : Bool) (key : Bytes) :
    n'.routeForKey up key = n.routeForKey up key := by
  unfold ShardedNode.routeForKey ShardedNode.legacyShardForKey shardOr
  rw [load_congr hc hs hp, hc]

end LsmTree
