import LsmTree.Correct.Migrate

/-!
# What a scan over all shards returns

The scan goes through the shards one after another.  Of each key it keeps the owner's copy if there
is one and else the first copy it met (`mergedUpTo_owner`).  So it agrees with the reads by key as
soon as no shard holds a key that the key's owner does not hold (`scan_eq_get`).
-/

namespace LsmTree

open KeyValue

variable {n : ShardedNode} {plan : RoutingPlan} {start stop k : Bytes}

variable {items : List (Bytes × Bytes)} {v : Bytes} {p : RoutingPlan}

/-- Keep the old copy unless the new one is the owner's. -/
def mergeValue (primary : ℤ) (shardID : ℕ) (v : Bytes) : Option (Bytes × ℕ) → Bytes × ℕ
  | some existing => if (shardID : ℤ) = primary then (v, shardID) else existing
  | none => (v, shardID)

theorem lookup_mergeItem (plan : RoutingPlan) (shardID : ℕ) (all : Merged) (item : Bytes × Bytes)
    (hk : isReservedClusterKey k = false) :
    (mergeItem plan shardID all item).lookup k = if item.1 = k then
      some (mergeValue (plan.routeForKey k).1 shardID item.2 (all.lookup k)) else all.lookup k := by
  obtain ⟨j, v⟩ := item
  unfold mergeItem
  by_cases hj : j = k
  · subst hj
    rw [if_neg (by simp [hk]), if_pos rfl]
    dsimp only
    cases hold : all.lookup j with
    | none => exact AList.lookup_insert _
    | some existing =>
      dsimp only [mergeValue]
      by_cases hp : (shardID : ℤ) = (plan.routeForKey j).1
      · rw [if_neg (fun h => h.1 hp), if_neg (fun h => h.1 hp), if_pos hp]
        exact AList.lookup_insert _
      · rw [if_neg hp]
        by_cases he : (existing.2 : ℤ) = (plan.routeForKey j).1
        · rw [if_pos ⟨hp, he⟩, hold]
        · rw [if_neg (fun h => he h.2), if_pos ⟨hp, he⟩, hold]
  · rw [if_neg hj]
    split_ifs
    · rfl
    · dsimp only
      split
      · split_ifs
        · rfl
        · rfl
        · exact AList.lookup_insert_ne (Ne.symm hj)
      · exact AList.lookup_insert_ne (Ne.symm hj)

theorem mergeItem_reserved (plan : RoutingPlan) (shardID : ℕ) (all : Merged) (item : Bytes × Bytes)
    (hk : isReservedClusterKey k = true) :
    (mergeItem plan shardID all item).lookup k = all.lookup k := by
  unfold mergeItem
  split_ifs with hres
  · rfl
  · have hne : k ≠ item.1 := by
      rintro rfl
      exact hres hk
    dsimp only
    split
    · split_ifs
      · rfl
      · rfl
      · exact AList.lookup_insert_ne hne
    · exact AList.lookup_insert_ne hne

theorem lookup_foldl_of_not_mem (shardID : ℕ) (all : Merged)
    (h : k ∉ items.map Prod.fst ∨ isReservedClusterKey k = true) :
    (items.foldl (mergeItem plan shardID) all).lookup k = all.lookup k := by
  induction items generalizing all with
  | nil => rfl
  | cons x items ih =>
    rw [List.foldl_cons]
    cases hk : isReservedClusterKey k with
    | true => rw [ih _ (Or.inr hk), mergeItem_reserved _ _ _ _ hk]
    | false =>
      have hno : k ∉ (x :: items).map Prod.fst := h.resolve_right (by simp [hk])
      rw [List.map_cons, List.mem_cons, not_or] at hno
      rw [ih _ (Or.inl hno.2), lookup_mergeItem _ _ _ _ hk, if_neg (Ne.symm hno.1)]

theorem lookup_foldl_of_mem (shardID : ℕ) (all : Merged) (hnd : (items.map Prod.fst).Nodup)
    (hk : isReservedClusterKey k = false) (h : (k, v) ∈ items) :
    (items.foldl (mergeItem plan shardID) all).lookup k =
      some (mergeValue (plan.routeForKey k).1 shardID v (all.lookup k)) := by
  induction items generalizing all with
  | nil => cases h
  | cons x items ih =>
    obtain ⟨hx, hnd⟩ := List.nodup_cons.1 hnd
    rw [List.foldl_cons]
    rcases List.mem_cons.1 h with rfl | h
    · rw [lookup_foldl_of_not_mem _ _ (Or.inl hx), lookup_mergeItem _ _ _ _ hk, if_pos rfl]
    · have hne : x.1 ≠ k := by
        rintro rfl
        exact hx (List.mem_map.2 ⟨_, h, rfl⟩)
      rw [ih _ hnd h, lookup_mergeItem _ _ _ _ hk, if_neg hne]

theorem nodup_scan (s : Shard) (start stop : Bytes) : ((s.scan start stop).map Prod.fst).Nodup := by
  unfold Shard.scan
  rw [((List.perm_insertionSort _ _).map Prod.fst).nodup_iff]
  refine List.Nodup.sublist (List.filter_sublist.map Prod.fst) ?_
  rw [s.map_fst_items]
  exact s.nodupKeys

def ShardedNode.mergedUpTo (n : ShardedNode) (plan : RoutingPlan) (start stop : Bytes) (j : ℕ) :
    Merged :=
  (List.range j).foldl
    (fun all shardID => ((n.shards shardID).scan start stop).foldl (mergeItem plan shardID) all) ∅

def ShardedNode.seen (n : ShardedNode) (start stop : Bytes) (id : ℕ) (k : Bytes) : Option Bytes :=
  if start ≤ k ∧ (stop = [] ∨ k < stop) then contents n.shards id k else none

theorem lookup_mergedUpTo_succ (hk : isReservedClusterKey k = false) (j : ℕ) :
    (n.mergedUpTo plan start stop (j + 1)).lookup k =
      match n.seen start stop j k with
      | none => (n.mergedUpTo plan start stop j).lookup k
      | some v => some (mergeValue (plan.routeForKey k).1 j v
          ((n.mergedUpTo plan start stop j).lookup k)) := by
  have hstep : n.mergedUpTo plan start stop (j + 1) =
      ((n.shards j).scan start stop).foldl (mergeItem plan j) (n.mergedUpTo plan start stop j) := by
    unfold ShardedNode.mergedUpTo
    rw [List.range_succ, List.foldl_append]
    rfl
  rw [hstep]
  unfold ShardedNode.seen
  by_cases hmem : k ∈ ((n.shards j).scan start stop).map Prod.fst
  · obtain ⟨⟨i, v⟩, hv, hi⟩ := List.mem_map.1 hmem
    change i = k at hi
    subst hi
    obtain ⟨hlookup, hrange⟩ := mem_scan.1 hv
    rw [lookup_foldl_of_mem j _ (nodup_scan _ _ _) hk hv, if_pos hrange]
    unfold contents
    rw [hlookup]
  · rw [lookup_foldl_of_not_mem j _ (Or.inl hmem)]
    split_ifs with hrange
    · cases hc : contents n.shards j k with
      | none => rfl
      | some v => exact absurd (List.mem_map.2 ⟨(k, v), mem_scan.2 ⟨hc, hrange⟩, rfl⟩) hmem
    · rfl

theorem lookup_mergedUpTo_reserved (hk : isReservedClusterKey k = true) (j : ℕ) :
    (n.mergedUpTo plan start stop j).lookup k = none := by
  unfold ShardedNode.mergedUpTo
  induction j with
  | zero => rfl
  | succ j ih =>
    rw [List.range_succ, List.foldl_append, List.foldl_cons, List.foldl_nil,
      lookup_foldl_of_not_mem j _ (Or.inr hk), ih]

/-- **What a scan shows is a copy on some shard.** -/
theorem mergedUpTo_mem (hk : isReservedClusterKey k = false) {j : ℕ} {x : Bytes × ℕ}
    (h : (n.mergedUpTo plan start stop j).lookup k = some x) :
    x.2 < j ∧ n.seen start stop x.2 k = some x.1 := by
  induction j with
  | zero => cases h
  | succ j ih =>
    rw [lookup_mergedUpTo_succ hk] at h
    cases hs : n.seen start stop j k with
    | none =>
      rw [hs] at h
      obtain ⟨hlt, hseen⟩ := ih h
      exact ⟨by omega, hseen⟩
    | some v =>
      rw [hs] at h
      have hx := Option.some.inj h
      cases hold : (n.mergedUpTo plan start stop j).lookup k with
      | none =>
        rw [hold] at hx
        subst hx
        exact ⟨Nat.lt_succ_self j, hs⟩
      | some y =>
        rw [hold, mergeValue] at hx
        split_ifs at hx
        · subst hx
          exact ⟨Nat.lt_succ_self j, hs⟩
        · subst hx
          obtain ⟨hlt, hseen⟩ := ih hold
          exact ⟨by omega, hseen⟩

/-- **The owner's copy comes first.** -/
theorem mergedUpTo_owner (hk : isReservedClusterKey k = false) {j p : ℕ}
    (hp : (plan.routeForKey k).1 = (p : ℤ)) (hlt : p < j) (hv : n.seen start stop p k = some v) :
    (n.mergedUpTo plan start stop j).lookup k = some (v, p) := by
  induction j with
  | zero => omega
  | succ j ih =>
    rw [lookup_mergedUpTo_succ hk, hp]
    by_cases hj : p = j
    · subst hj
      rw [hv]
      cases (n.mergedUpTo plan start stop p).lookup k with
      | none => rfl
      | some y => simp only [mergeValue, if_true]
    · rw [ih (by omega)]
      cases n.seen start stop j k with
      | none => rfl
      | some w =>
        have hne : (j : ℤ) ≠ p := by omega
        simp only [mergeValue, if_neg hne]

/-! ### Scans and reads -/

/-- No shard holds a key that the key's owner does not hold. -/
def ShardedNode.OwnerHolds (n : ShardedNode) : Prop :=
  ∀ k r, isReservedClusterKey k = false → n.routeForKey true k = some r →
    ∀ id < n.shardCount, contents n.shards id k ≠ none → contents n.shards r.primary k ≠ none

theorem mem_scan_iff (hload : n.loadRoutingPlan true = some p) :
    (k, v) ∈ n.scan true start stop 0 ↔
      ∃ id, (n.mergedUpTo p start stop n.shardCount).lookup k = some (v, id) := by
  unfold ShardedNode.scan
  rw [hload, Option.getD_some]
  dsimp only
  rw [if_neg (fun h => by have := h.1; omega), (List.perm_insertionSort _ _).mem_iff, List.mem_map]
  constructor
  · rintro ⟨⟨j, w, id⟩, hmem, heq⟩
    cases heq
    exact ⟨id, Store.mem_items.1 hmem⟩
  · rintro ⟨id, h⟩
    exact ⟨(k, v, id), Store.mem_items.2 h, rfl⟩

theorem exists_route (hpos : 0 < n.shardCount) (hload : n.loadRoutingPlan true = some p)
    (k : Bytes) : ∃ a ∈ p.slots, n.routeForKey true k = some a.route ∧
      (p.routeForKey k).1 = (a.route.primary : ℤ) ∧ a.route.primary < n.shardCount := by
  have hfits := loadRoutingPlan_fits hpos hload
  obtain ⟨a, ha⟩ := hfits.exists_slot k
  have howner := hfits.owner a (List.mem_of_getElem? ha)
  refine ⟨a, List.mem_of_getElem? ha, route_of_loaded hpos hload ha, ?_, ?_⟩
  · rw [hfits.routeForKey_eq ha]
    change a.owner = ((a.owner.toNat : ℕ) : ℤ)
    omega
  · change a.owner.toNat < n.shardCount
    omega

theorem get_of_route {r : Route} (hk : isReservedClusterKey k = false)
    (hr : n.routeForKey true k = some r) :
    n.get true k = (contents n.shards r.primary k).elim (.error .notFound) .ok := by
  unfold ShardedNode.get contents
  rw [if_neg (by simp [hk]), hr]
  dsimp only
  cases (n.shards r.primary).lookup k <;> rfl

/-- **A scan agrees with the reads by key** if owners hold what anyone holds. -/
theorem scan_eq_get (hload : n.loadRoutingPlan true = some p) (h : n.OwnerHolds) :
    (k, v) ∈ n.scan true start stop 0 ↔
      (start ≤ k ∧ (stop = [] ∨ k < stop)) ∧ isReservedClusterKey k = false ∧
        n.get true k = .ok v := by
  rw [mem_scan_iff hload]
  cases hk : isReservedClusterKey k with
  | true =>
    rw [lookup_mergedUpTo_reserved hk]
    simp
  | false =>
    rcases Nat.eq_zero_or_pos n.shardCount with hzero | hpos
    · have hroute : n.routeForKey true k = none := by
        unfold ShardedNode.routeForKey
        rw [if_pos hzero]
      refine iff_of_false ?_ ?_
      · rintro ⟨id, hid⟩
        have := (mergedUpTo_mem hk hid).1
        omega
      · rintro ⟨-, -, hget⟩
        unfold ShardedNode.get at hget
        rw [if_neg (by simp [hk]), hroute] at hget
        cases hget
    · obtain ⟨a, -, hroute, hprim, hlt⟩ := exists_route hpos hload k
      have hget : n.get true k = .ok v ↔ contents n.shards a.route.primary k = some v := by
        rw [get_of_route hk hroute]
        cases contents n.shards a.route.primary k with
        | none => simp
        | some w => simp
      rw [hget]
      constructor
      · rintro ⟨id, hid⟩
        obtain ⟨hidlt, hseen⟩ := mergedUpTo_mem hk hid
        unfold ShardedNode.seen at hseen
        split_ifs at hseen with hrange
        refine ⟨hrange, rfl, ?_⟩
        obtain ⟨w, hw⟩ :=
          Option.ne_none_iff_exists'.1 (h k _ hk hroute id hidlt (by rw [hseen]; simp))
        have hseen' : n.seen start stop a.route.primary k = some w := by
          unfold ShardedNode.seen
          rw [if_pos hrange, hw]
        rw [mergedUpTo_owner hk hprim hlt hseen'] at hid
        cases hid
        exact hw
      · rintro ⟨hrange, -, hv⟩
        refine ⟨_, mergedUpTo_owner hk hprim hlt ?_⟩
        unfold ShardedNode.seen
        rw [if_pos hrange, hv]

end LsmTree
