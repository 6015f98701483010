import LsmTree.Property.ShardedMap

/-!
# The rebalancer (`rebalanceOnce` in `internal/cluster/sharded.go`)

A pass compares the loads of the shards and moves slots from the fullest shard to the emptiest.
Whatever the loads are and wherever its migrations fail, clients see the same map
(`rebalancing_invisible`).
-/

namespace LsmTree

open KeyValue Run

/-- The first of the shards with the greatest load, and the first with the least. -/
def mostImbalancedShards (loads : ℕ → ℤ) (count : ℕ) : ℕ × ℕ :=
  (List.range count).foldl
    (fun s i => (if loads s.1 < loads i then i else s.1, if loads i < loads s.2 then i else s.2))
    (0, 0)

/-- What a round meets: whether the plan can be read, the loads, whether the scan succeeds, the
order in which the counts are gone through, and the steps of the migration. -/
structure RebalanceRound where
  loaded : Bool
  loads : ℕ → ℤ
  scanned : Bool
  order : List ℕ
  results : List StepResult

/-- A pass: the settings, the role of shard 0, and the rounds. -/
structure RebalancePass where
  rebalanceThresholdBytes : ℤ
  rebalanceMaxSlots : ℤ
  leads : Bool
  rounds : ℕ → RebalanceRound

namespace ShardedNode

/-- The slots of a shard's keys, without those that are migrating or owned by others. -/
def slotsOnShard (n : ShardedNode) (plan : RoutingPlan) (shardID : ℕ) : List ℕ :=
  ((((n.shards shardID).scan [] []).filter (fun x => !isReservedClusterKey x.1)).map
    (fun x => plan.slotForKey x.1)).filter (fun slot => decide (slot < plan.slots.length ∧
      (plan.ownerForSlot slot).1 = shardID ∧ (plan.ownerForSlot slot).2.2 = false))

def heaviestSlotOnShard (n : ShardedNode) (plan : RoutingPlan) (shardID : ℕ) (x : RebalanceRound) :
    ℤ × ℕ :=
  if n.shardCount ≤ shardID ∨ x.scanned = false then (-1, 0)
  else
    let slots := n.slotsOnShard plan shardID
    (if x.order.Perm slots.dedup then x.order else slots.dedup).foldl
      (fun best slot =>
        if best.2 < slots.count slot then ((slot : ℤ), slots.count slot) else best) (-1, 0)

/-- The migration of a round, if there is one to be made. -/
def chooseMove (n : ShardedNode) (threshold : ℤ) (x : RebalanceRound) : Option Migration :=
  (n.loadRoutingPlan x.loaded).bind fun plan =>
    let s := mostImbalancedShards x.loads n.shardCount
    let best := n.heaviestSlotOnShard plan s.1 x
    if x.loads s.1 - x.loads s.2 < threshold then none
    else if best.1 < 0 ∨ best.2 = 0 then none
    else some ⟨plan, best.1.toNat, s.1, s.2⟩

/-- The loop of `rebalanceOnce`.  It ends with the first migration that is not completed. -/
def rebalanceLoop (threshold : ℤ) (rounds : ℕ → RebalanceRound) : ℕ → ShardedNode → ShardedNode
  | 0, n => n
  | left + 1, n =>
    match n.chooseMove threshold (rounds left) with
    | none => n
    | some g =>
      let s := g.runSteps n (rounds left).results
      if s.2 = .done then rebalanceLoop threshold rounds left s.1 else s.1

/-- `rebalanceOnce`, with the defaults of 64 MiB and one slot. -/
def rebalanceOnce (n : ShardedNode) (r : RebalancePass) : ShardedNode :=
  if n.shardCount ≤ 1 ∨ r.leads = false then n
  else
    let threshold :=
      if r.rebalanceThresholdBytes ≤ 0 then 64 * 2 ^ 20 else r.rebalanceThresholdBytes
    let maxMoves := if r.rebalanceMaxSlots ≤ 0 then 1 else r.rebalanceMaxSlots
    rebalanceLoop threshold r.rounds maxMoves.toNat n

/-! ### What is chosen -/

variable {n : ShardedNode} {p : RoutingPlan} {m : Bytes → Option Bytes} {g : Migration}
  {threshold : ℤ} {x : RebalanceRound}

theorem heaviestSlotOnShard_mem {id : ℕ} : (n.heaviestSlotOnShard p id x).2 ≠ 0 →
    (n.heaviestSlotOnShard p id x).1.toNat ∈ n.slotsOnShard p id := by
  unfold heaviestSlotOnShard
  split_ifs
  · exact fun h => absurd rfl h
  all_goals
    refine List.foldlRecOn (motive := fun best : ℤ × ℕ => best.2 ≠ 0 → best.1.toNat ∈ _) _ _
      (fun h => absurd rfl h) (fun best hbest slot _ => ?_)
    split_ifs with hlt
    · exact fun _ => List.count_pos_iff.1 (Nat.zero_lt_of_lt hlt)
    · exact hbest

/-- **A migration that is chosen may be started.** -/
theorem chooseMove_ready (hpos : 0 < n.shardCount) (hthr : 0 < threshold)
    (h : n.chooseMove threshold x = some g) : g.Ready n := by
  have htarget : (mostImbalancedShards x.loads n.shardCount).2 < n.shardCount := by
    refine List.foldlRecOn (motive := fun s : ℕ × ℕ => s.2 < n.shardCount) _ _ hpos
      (fun s hs i hi => ?_)
    dsimp only
    split_ifs
    · exact List.mem_range.1 hi
    · exact hs
  obtain ⟨p, hload, h⟩ := Option.bind_eq_some_iff.1 h
  dsimp only at h
  split_ifs at h with hgap hbest
  cases h
  obtain ⟨-, hslot⟩ := List.mem_filter.1 (heaviestSlotOnShard_mem (not_or.1 hbest).2)
  obtain ⟨hlt, howner, -⟩ := of_decide_eq_true hslot
  refine ⟨?_, ?_, htarget, fun heq => hgap ?_⟩
  · cases hup : x.loaded with
    | true => rwa [hup] at hload
    | false =>
      unfold loadRoutingPlan at hload
      rw [if_neg hpos.ne', hup] at hload
      cases hload
  · unfold RoutingPlan.ownerForSlot at howner
    rw [List.getElem?_eq_getElem hlt] at howner ⊢
    dsimp only at howner
    split_ifs at howner <;> exact congrArg some howner
  · -- the loads differ, and so do the shards
    dsimp only at heq
    rw [heq, sub_self]
    exact hthr

/-! ### What clients see -/

/-- The reads by key answer from the map, and the owners have what any shard has. -/
structure Serves (n : ShardedNode) (m : Bytes → Option Bytes) : Prop where
  pos : 0 < n.shardCount
  loaded : ∃ p, n.loadRoutingPlan true = some p
  holds : n.OwnerHolds
  reads : n.Reads m

theorem Serves.migrate (h : n.Serves m) (hready : g.Ready n) (results : List StepResult) :
    (g.runSteps n results).1.Serves m := by
  obtain ⟨hframe, halone⟩ := h.holds.alone hready results
  obtain ⟨owner, -, howner⟩ := halone.exists_owner
  have hsame := (runSteps_intact hready h.holds results).1.owner owner howner
  obtain ⟨hholds, hload⟩ := h.holds.migrate hready results
  exact ⟨hframe.1 ▸ h.pos, hload, hholds,
    fun k => (get_of_same hready hframe howner hsame k).trans (h.reads k)⟩

theorem Serves.loop (hthr : 0 < threshold) (rounds : ℕ → RebalanceRound) (left : ℕ)
    (h : n.Serves m) : (rebalanceLoop threshold rounds left n).Serves m := by
  induction left generalizing n with
  | zero => exact h
  | succ left ih =>
    rw [rebalanceLoop]
    split
    · exact h
    · rename_i g hg
      have hmoved := h.migrate (chooseMove_ready h.pos hthr hg) (rounds left).results
      dsimp only
      split_ifs
      · exact ih hmoved
      · exact hmoved

theorem Serves.rebalance (h : n.Serves m) (r : RebalancePass) : (n.rebalanceOnce r).Serves m := by
  unfold rebalanceOnce
  by_cases hidle : n.shardCount ≤ 1 ∨ r.leads = false
  · rwa [if_pos hidle]
  · rw [if_neg hidle]
    refine h.loop ?_ _ _
    split_ifs <;> omega

theorem Serves.serve {c : ClientCall} (h : n.Serves m) (hok : n.Acks c)
    (hallowed : n.Allowed (.client c.txID c.op.batch c.out)) :
    (n.serve c).Serves (applyAll c.updates m) := by
  have hw : n.clientWrite c.txID c.op.batch c.out = (n.serve c, .ok ()) := Prod.ext rfl hok
  obtain ⟨hload, hcount⟩ := load_clientWrite hw
  obtain ⟨p, hp⟩ := h.loaded
  refine ⟨hcount ▸ h.pos, ⟨p, hload.trans hp⟩, h.holds.client hallowed, fun k => ?_⟩
  cases hk : isReservedClusterKey k with
  | true =>
    rw [applyAll_of_not_mem, ← h.reads k]
    · unfold get
      rw [if_pos hk, if_pos hk]
    · -- no entry of an accepted batch is reserved
      intro hmem
      rw [ClientCall.updates, keys_updates] at hmem
      obtain ⟨b, hb, rfl⟩ := List.mem_map.1 hmem
      cases hk.symm.trans ((write_ok_contents hw).2.1 (b, true) (List.mem_map_of_mem hb))
  | false =>
    obtain ⟨a, -, hr, -⟩ := exists_route h.pos hp k
    have hvalue : contents n.shards a.route.primary k = m k := by
      ext v
      rw [← get_ok_iff h.reads, get_of_route hk hr]
      cases contents n.shards a.route.primary k <;> simp
    rw [get_of_route hk ((route_clientWrite hw k).trans hr), contents_write_key hw hr,
      if_pos (primary_mem_writes _), applyAll_eq, hvalue, ← applyAll_eq]
    rfl

def balance (n : ShardedNode) : ClientCall ⊕ RebalancePass → ShardedNode
  | .inl c => n.serve c
  | .inr r => n.rebalanceOnce r

/-- Calls return no error and their deletions reach all copies; passes go as they may. -/
def Accepts (n : ShardedNode) : ClientCall ⊕ RebalancePass → Prop
  | .inl c => n.Acks c ∧ n.Allowed (.client c.txID c.op.batch c.out)
  | .inr _ => True

theorem Serves.run {events : List (ClientCall ⊕ RebalancePass)} (h : n.Serves m)
    (hok : Along balance Accepts n events) :
    (events.foldl balance n).Serves
      (applyAll (events.flatMap (Sum.elim ClientCall.updates fun _ => [])) m) := by
  induction events generalizing n m with
  | nil => exact h
  | cons e events ih =>
    rw [List.foldl_cons, List.flatMap_cons, applyAll_append]
    refine ih ?_ hok.2
    cases e with
    | inl c => exact h.serve hok.1.1 hok.1.2
    | inr r => exact h.rebalance r

end ShardedNode

/-- **Rebalancing is invisible.** From shards that hold only what they own, and after any calls and
passes, reads and scans answer from the map that the shards held together at first, with the updates
of the calls, and the plan still gives every slot to a shard. -/
theorem rebalancing_invisible (n : ShardedNode) (p : RoutingPlan) (hpos : 0 < n.shardCount)
    (hload : n.loadRoutingPlan true = some p) (howned : n.OnlyOwned)
    (events : List (ClientCall ⊕ RebalancePass))
    (hok : Along ShardedNode.balance ShardedNode.Accepts n events) :
    let n' := events.foldl ShardedNode.balance n
    let m := applyAll (events.flatMap (Sum.elim ClientCall.updates fun _ => [])) n.map
    (∀ k, n'.get true k = (m k).elim (.error .notFound) .ok) ∧
    (∀ start stop limit, IsScan m start stop limit (n'.scan true start stop limit)) ∧
    ∃ q, n'.loadRoutingPlan true = some q ∧ q.Fits n'.shardCount := by
  intro n' m
  have hserves : n'.Serves m := ShardedNode.Serves.run
    ⟨hpos, ⟨p, hload⟩, howned.ownerHolds, howned.reads hpos hload⟩ hok
  obtain ⟨q, hq⟩ := hserves.loaded
  exact ⟨hserves.reads, fun _ _ _ => hserves.reads.scan hq hserves.holds,
    q, hq, loadRoutingPlan_fits hserves.pos hq⟩

/-- The slot of a key is moved, and a pass that would move it back is cut off. -/
def balancedRun : List (ClientCall ⊕ RebalancePass) :=
  [.inl ⟨.put [1] [10], [7], {}⟩,
    .inr ⟨0, 0, true, fun _ => ⟨true, fun i => 2 ^ 27 * (1 - i), true, [], List.replicate 22 {}⟩⟩,
    .inr ⟨1, 2, true, fun _ => ⟨true, fun i => i, true, [], List.replicate 7 {}⟩⟩]

theorem balancedRun_reads :
    (balancedRun.foldl ShardedNode.balance (newCluster 2 2)).get true [1] = .ok [10] :=
  (rebalancing_invisible _ _ newCluster_settled.pos newCluster_settled.loaded
    newCluster_settled.owned balancedRun ⟨⟨by decide +kernel,
      allowed_of_acked (by decide +kernel) (by decide +kernel)⟩, trivial, trivial, trivial⟩).1 [1]

end LsmTree
