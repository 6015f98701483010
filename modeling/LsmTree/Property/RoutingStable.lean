import LsmTree.Correct.Routes

/-!
# Routing when the plan cannot be read

When the plan cannot be read a key goes to the shard that its hash names modulo the number of
shards. That is the shard the plan records only for some keys (`RecordedByHash`), and exactly for
these the route does not depend on whether the plan can be read (`routing_stable_iff`).
-/

namespace LsmTree

open KeyValue

variable {shardCount : ℕ} {p : RoutingPlan}

/-- The shard that the persisted plan records for the key's slot is the one that the key's hash
names.  An owner that is no shard counts as the slot's number modulo the number of shards. -/
def ShardedNode.RecordedByHash (n : ShardedNode) (key : Bytes) : Prop :=
  match n.plan with
  | none =>
    (fnv32a key).toNat % (n.routingSlotCount.toNat % 2 ^ 32) % n.shardCount =
      (fnv32a key).toNat % n.shardCount
  | some p =>
    p.load = none ∨ ∀ a, p.slots[p.slotForKey key]? = some a →
      (a.normalize n.shardCount (p.slotForKey key)).owner =
        ((fnv32a key).toNat % n.shardCount : ℕ)

variable {n : ShardedNode} {key : Bytes}

theorem newRoutingPlan_slot {slotCount : ℤ} (h : 0 < shardCount) (hs : 0 < slotCount)
    {a : RoutingSlot}
    (ha : (newRoutingPlan shardCount slotCount).slots[
      (newRoutingPlan shardCount slotCount).slotForKey key]? = some a) :
    a.route.primary = (fnv32a key).toNat % (slotCount.toNat % 2 ^ 32) % shardCount := by
  have hpos : (0 : ℤ) < shardCount := by omega
  have hslot : (newRoutingPlan shardCount slotCount).slotForKey key =
      (fnv32a key).toNat % (slotCount.toNat % 2 ^ 32) := by
    unfold RoutingPlan.slotForKey newRoutingPlan
    rw [if_neg (not_le.2 hpos), if_neg (not_le.2 hs)]
    dsimp only
    rw [if_neg (not_le.2 hs)]
  rw [hslot] at ha
  unfold newRoutingPlan at ha
  rw [if_neg (not_le.2 hpos), if_neg (not_le.2 hs)] at ha
  dsimp only at ha
  rw [List.getElem?_map, Option.map_eq_some_iff] at ha
  obtain ⟨i, hi, rfl⟩ := ha
  obtain ⟨-, rfl⟩ := List.getElem?_eq_some_iff.1 hi
  rw [List.getElem_range]
  unfold RoutingSlot.route
  dsimp only
  omega

theorem normalize_slot (h : 0 < shardCount) (hp : p.load = some p) (key : Bytes) :
    (p.normalize shardCount).slotForKey key = p.slotForKey key ∧
      (p.normalize shardCount).slots = p.slots.mapIdx (RoutingSlot.normalize shardCount) := by
  have hpos : ¬ p.slotCount ≤ 0 := by
    intro hc
    unfold RoutingPlan.load at hp
    rw [if_pos hc] at hp
    cases hp
  have hlen : ¬ ((p.slots.length : ℤ) ≠ p.slotCount) := by
    intro hc
    unfold RoutingPlan.load at hp
    rw [if_neg hpos, if_pos hc] at hp
    cases hp
  have hn : p.normalize shardCount =
      ⟨p.slotCount, shardCount, p.slots.mapIdx (RoutingSlot.normalize shardCount)⟩ := by
    unfold RoutingPlan.normalize
    rw [if_neg (by omega), if_neg hpos]
    dsimp only
    rw [if_neg hlen]
  rw [hn]
  exact ⟨rfl, rfl⟩

theorem RoutingPlan.load_eq_self {q : RoutingPlan} (h : p.load = some q) : q = p := by
  unfold RoutingPlan.load at h
  split_ifs at h
  cases h
  rfl

/-- **The primary shards with and without the plan agree exactly on keys recorded by hash.** -/
theorem primary_eq_iff (hpos : 0 < n.shardCount) :
    (n.routeForKey true key).map Route.primary = some (n.legacyShardForKey key) ↔
      n.RecordedByHash key := by
  unfold ShardedNode.RecordedByHash
  cases hplan : n.plan with
  | none =>
    have hload : n.loadRoutingPlan true =
        some (newRoutingPlan n.shardCount n.routingSlotCount) := by
      unfold ShardedNode.loadRoutingPlan
      rw [if_neg hpos.ne', if_pos rfl, hplan]
    have hslots := routingSlotCount_pos n
    obtain ⟨a, ha⟩ := (newRoutingPlan_fits hpos hslots).exists_slot key
    rw [route_of_loaded hpos hload ha, Option.map_some, newRoutingPlan_slot hpos hslots ha,
      Option.some.injEq]
    rfl
  | some p =>
    cases hp : p.load with
    | none =>
      have hload : n.loadRoutingPlan true = none := by
        unfold ShardedNode.loadRoutingPlan
        rw [if_neg hpos.ne', if_pos rfl, hplan]
        dsimp only
        rw [hp]
        rfl
      rw [route_of_down hpos hload]
      exact iff_of_true rfl (Or.inl hp)
    | some q =>
      have hq := RoutingPlan.load_eq_self hp
      subst hq
      have hload : n.loadRoutingPlan true = some (q.normalize n.shardCount) := by
        unfold ShardedNode.loadRoutingPlan
        rw [if_neg hpos.ne', if_pos rfl, hplan]
        dsimp only
        rw [hp]
        rfl
      obtain ⟨hslot, hslots⟩ := normalize_slot hpos hp key
      obtain ⟨a, ha⟩ := (RoutingPlan.fits_normalize (p := q) hpos).exists_slot key
      rw [route_of_loaded hpos hload ha, Option.map_some, Option.some.injEq]
      rw [hslot, hslots, List.getElem?_mapIdx, Option.map_eq_some_iff] at ha
      obtain ⟨b, hb, rfl⟩ := ha
      have hrange := (RoutingSlot.normalize_range (by omega : (0 : ℤ) < n.shardCount)
        (q.slotForKey key) b).1
      constructor
      · intro h
        refine Or.inr (fun c hc => ?_)
        rw [hb] at hc
        cases hc
        have h : ((b.normalize n.shardCount (q.slotForKey key)).owner).toNat =
          (fnv32a key).toNat % n.shardCount := h
        omega
      · rintro (h | h)
        · rw [hp] at h
          cases h
        · have hown := h b hb
          change ((b.normalize n.shardCount (q.slotForKey key)).owner).toNat =
            (fnv32a key).toNat % n.shardCount
          omega

/-- **When routing is stable.** Whether or not the plan can be read, a key has the same primary
shard, and a value that was put through one call is found through another, exactly if the shard that
the plan records for the key's slot is the one its hash names. -/
theorem routing_stable_iff (n : ShardedNode) (key : Bytes) (hcount : 2 ≤ n.shardCount) :
    ((∀ up up', (n.routeForKey up key).map Route.primary =
        (n.routeForKey up' key).map Route.primary) ∧
      ∀ up up' txID v out n', n.write txID [(⟨key, v, false⟩, up)] out = (n', .ok ()) →
        n'.get up' key = .ok v) ↔ n.RecordedByHash key := by
  have hpos : 0 < n.shardCount := by omega
  have hdown : n.routeForKey false key =
      some ⟨n.legacyShardForKey key, n.legacyShardForKey key, false⟩ :=
    route_of_down hpos (by unfold ShardedNode.loadRoutingPlan; rw [if_neg hpos.ne']; rfl)
  rw [← primary_eq_iff hpos]
  constructor
  · rintro ⟨hroute, -⟩
    rw [hroute true false, hdown]
    rfl
  · intro htrue
    have hall : ∀ up, (n.routeForKey up key).map Route.primary = some
        (n.legacyShardForKey key) := by
      intro up
      cases up with
      | true => exact htrue
      | false => rw [hdown]; rfl
    refine ⟨fun up up' => (hall up).trans (hall up').symm, fun up up' txID v out n' hw => ?_⟩
    obtain ⟨⟨shards, journal, rfl⟩, hres, hcontents⟩ := write_ok_contents hw
    obtain ⟨r, hr, hprim⟩ := Option.map_eq_some_iff.1 (hall up)
    obtain ⟨r', hr', hprim'⟩ := Option.map_eq_some_iff.1 (hall up')
    -- the write goes to the primary shard of the first route, which is that of the second
    have hsends : n.sends r'.primary (⟨key, v, false⟩, up) = true := by
      unfold ShardedNode.sends
      rw [hr, Option.any_some, hprim', ← hprim]
      refine decide_eq_true ?_
      unfold Route.writes
      split_ifs <;> simp
    have hvalue : contents shards r'.primary key = some v := by
      have := congrFun (hcontents r'.primary) key
      rw [List.filter_cons_of_pos hsends] at this
      rw [this]
      simp [BatchEntry.update]
    have hroute : ({ n with shards := shards, journal := journal } : ShardedNode).routeForKey up'
      key =
        some r' := (route_congr rfl rfl rfl up' key).trans hr'
    unfold ShardedNode.get
    rw [if_neg (by rw [hres _ (List.mem_singleton_self _)]; exact Bool.false_ne_true), hroute]
    unfold contents at hvalue
    simp only [hvalue]

/-- Two shards, three slots and a key whose hash is even but whose slot is odd. -/
def unevenNode : ShardedNode := { shardCount := 2, routingSlots := 3, shards := fun _ => ∅ }

theorem unevenNode_stable_iff : 2 ≤ unevenNode.shardCount ∧
    (((∀ up up', (unevenNode.routeForKey up [1]).map Route.primary =
        (unevenNode.routeForKey up' [1]).map Route.primary) ∧
      ∀ up up' txID v out n', unevenNode.write txID [(⟨[1], v, false⟩, up)] out = (n', .ok ()) →
        n'.get up' [1] = .ok v) ↔ unevenNode.RecordedByHash [1]) :=
  ⟨by decide, routing_stable_iff unevenNode [1] (by decide)⟩

/-- A key that is put while the plan can be read is not found while it cannot. -/
theorem unevenNode_unstable :
    (unevenNode.routeForKey true [1]).map Route.primary ≠
      (unevenNode.routeForKey false [1]).map Route.primary ∧
    (unevenNode.write [7] [(⟨[1], [10], false⟩, true)] {}).2 = .ok () ∧
    (unevenNode.write [7] [(⟨[1], [10], false⟩, true)] {}).1.get true [1] = .ok [10] ∧
    (unevenNode.write [7] [(⟨[1], [10], false⟩, true)] {}).1.get false [1] = .error .notFound := by
  decide +kernel

end LsmTree
