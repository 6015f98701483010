import LsmTree.Correct.Scan
import LsmTree.Property.ScanAgrees

/-!
# The sharded node as one map

While no slot is migrating and every shard holds only keys that it owns, the shards together are one
map.  Clients see this map: their calls update it, reads and scans answer from it, and a call that
touches a reserved key is refused as a whole (`sharded_refines_map`).  A migration that runs alone
leaves what clients see as it is, wherever it ends (`quiet_migration`).
-/

namespace LsmTree

open KeyValue Run

variable {n n' n₀ : ShardedNode} {p : RoutingPlan} {k : Bytes} {r : Route}
  {m : Bytes → Option Bytes} {start stop : Bytes} {limit : ℤ}

/-- Every shard holds only keys of slots that it owns, reserved ones apart. -/
def ShardedNode.OnlyOwned (n : ShardedNode) : Prop :=
  ∀ id < n.shardCount, ∀ k r, isReservedClusterKey k = false → n.routeForKey true k = some r →
    contents n.shards id k ≠ none → id = r.primary

/-- What the shards hold together, without the reserved keys. -/
def ShardedNode.map (n : ShardedNode) (k : Bytes) : Option Bytes :=
  if isReservedClusterKey k then none
  else (List.range n.shardCount).findSome? (fun id => contents n.shards id k)

theorem ShardedNode.OnlyOwned.ownerHolds (h : n.OnlyOwned) : n.OwnerHolds := by
  intro k r hk hr id hid hne
  rwa [← h id hid k r hk hr hne]

theorem ShardedNode.OnlyOwned.map_eq (h : n.OnlyOwned) (hk : isReservedClusterKey k = false)
    (hr : n.routeForKey true k = some r) (hlt : r.primary < n.shardCount) :
    n.map k = contents n.shards r.primary k := by
  unfold ShardedNode.map
  rw [if_neg (by simp [hk])]
  cases hfind : (List.range n.shardCount).findSome? (fun id => contents n.shards id k) with
  | none => exact (List.findSome?_eq_none_iff.1 hfind _ (List.mem_range.2 hlt)).symm
  | some v =>
    obtain ⟨id, hid, hv⟩ := List.exists_of_findSome?_eq_some hfind
    rw [← h id (List.mem_range.1 hid) k r hk hr (by rw [hv]; simp), hv]

/-! ### Reads and scans -/

def ShardedNode.Reads (n : ShardedNode) (m : Bytes → Option Bytes) : Prop :=
  ∀ k, n.get true k = (m k).elim (.error .notFound) .ok

theorem ShardedNode.OnlyOwned.reads (h : n.OnlyOwned) (hpos : 0 < n.shardCount)
    (hload : n.loadRoutingPlan true = some p) : n.Reads n.map := by
  intro k
  cases hk : isReservedClusterKey k with
  | true =>
    unfold ShardedNode.get ShardedNode.map
    rw [if_pos hk, if_pos hk]
    rfl
  | false =>
    obtain ⟨a, -, hr, -, hlt⟩ := exists_route hpos hload k
    rw [get_of_route hk hr, h.map_eq hk hr hlt]

theorem get_ok_iff (hm : n.Reads m) {v : Bytes} : n.get true k = .ok v ↔ m k = some v := by
  rw [hm k]
  cases m k <;> simp

/-- **Scans answer from the same map as reads.** -/
theorem ShardedNode.Reads.scan (hm : n.Reads m) (hload : n.loadRoutingPlan true = some p)
    (h : n.OwnerHolds) : IsScan m start stop limit (n.scan true start stop limit) := by
  refine ⟨n.scan true start stop 0, ?_, fun k v => ?_, ?_⟩
  · unfold ShardedNode.scan
    dsimp only
    rw [if_neg (fun hc => by have := hc.1; omega)]
    generalize n.mergedItems _ start stop = all
    -- sorted, and no key occurs twice
    have hkeys : (((all.items.map (fun x => (x.1, x.2.1))).insertionSort
        (fun a b => a.1 ≤ b.1)).map Prod.fst).Nodup := by
      rw [((List.perm_insertionSort _ _).map Prod.fst).nodup_iff, List.map_map]
      change (all.items.map Prod.fst).Nodup
      rw [all.map_fst_items]
      exact all.nodupKeys
    exact ((List.pairwise_insertionSort _ _).and (List.pairwise_map.1 hkeys)).imp
      (fun hab => lt_of_le_of_ne hab.1 hab.2)
  · rw [scan_eq_get hload h, get_ok_iff hm]
    have hstart : start ≤ k ↔ start = [] ∨ start ≤ k := by
      refine ⟨Or.inr, fun hor => hor.elim (fun hnil => ?_) id⟩
      rw [hnil]
      exact not_lt.1 (List.not_lt_nil k)
    unfold InRange
    rw [← hstart]
    refine ⟨fun hc => ⟨hc.1, hc.2.2⟩, fun hc => ⟨hc.1, ?_, hc.2⟩⟩
    -- a reserved key is never read
    by_contra hres
    have hget := (get_ok_iff hm).2 hc.2
    unfold ShardedNode.get at hget
    rw [if_pos (by simpa using hres)] at hget
    cases hget
  · unfold ShardedNode.scan
    dsimp only
    rw [if_neg (fun hc : (0 : ℤ) < 0 ∧ _ => by have := hc.1; omega)]
    generalize List.insertionSort (fun a b : Bytes × Bytes => a.1 ≤ b.1) _ = all
    by_cases hlim : 0 < limit
    · rw [if_pos hlim]
      split_ifs with hcut
      · rfl
      · rw [List.take_of_length_le (by omega)]
    · rw [if_neg hlim, if_neg (fun hc => hlim hc.1)]

/-! ### Calls of clients -/

inductive ClientOp
  | put (key value : Bytes)
  | delete (key : Bytes)
  | write (batch : List BatchEntry)

def ClientOp.batch : ClientOp → List BatchEntry
  | .put key value => [⟨key, value, false⟩]
  | .delete key => [⟨key, [], true⟩]
  | .write batch => batch

/-- A call, with the name and the outcome of its transaction if it needs one. -/
structure ClientCall where
  op : ClientOp
  txID : Bytes
  out : TxOutcome

/-- `Put`, `Delete` and `Write`. -/
def ShardedNode.call (n : ShardedNode) (c : ClientCall) : ShardedNode × Except ClusterError Unit :=
  n.clientWrite c.txID c.op.batch c.out

def ShardedNode.serve (n : ShardedNode) (c : ClientCall) : ShardedNode := (n.call c).1

abbrev ShardedNode.Acks (n : ShardedNode) (c : ClientCall) : Prop := (n.call c).2 = .ok ()

def ClientCall.updates (c : ClientCall) : List (Bytes × Option Bytes) :=
  c.op.batch.map BatchEntry.update

/-- A readable plan without migrating slots, and shards that hold what they own. -/
structure ShardedNode.Settled (n : ShardedNode) (p : RoutingPlan) : Prop where
  pos : 0 < n.shardCount
  loaded : n.loadRoutingPlan true = some p
  still : ∀ a ∈ p.slots, a.migrating = false
  owned : n.OnlyOwned

theorem ShardedNode.Settled.route (h : n.Settled p) (k : Bytes) :
    ∃ r, n.routeForKey true k = some r ∧ r.writes = [r.primary] ∧ r.primary < n.shardCount := by
  obtain ⟨a, ha, hr, -, hlt⟩ := exists_route h.pos h.loaded k
  refine ⟨a.route, hr, ?_, hlt⟩
  unfold Route.writes
  rw [if_neg]
  rintro ⟨hmig, -⟩
  change a.migrating = true at hmig
  rw [h.still a ha] at hmig
  cases hmig

/-- **A call without an error** updates the map. -/
theorem ShardedNode.Settled.serve (h : n.Settled p) {c : ClientCall} (hok : n.Acks c) :
    (n.serve c).Settled p ∧ (n.serve c).map = applyAll c.updates n.map := by
  have hw : n.clientWrite c.txID c.op.batch c.out = (n.serve c, .ok ()) := Prod.ext rfl hok
  obtain ⟨hload, hcount⟩ := load_clientWrite hw
  have hkey : ∀ k r id, n.routeForKey true k = some r → r.writes = [r.primary] →
      contents (n.serve c).shards id k = if id = r.primary then
        applyAll c.updates (contents n.shards id) k else contents n.shards id k := by
    intro k r id hr hwrites
    rw [contents_write_key hw hr, hwrites]
    simp only [List.mem_singleton, ClientCall.updates]
  have howned : (n.serve c).OnlyOwned := by
    intro id hid k r hk hr hne
    rw [route_clientWrite hw] at hr
    rw [hcount] at hid
    obtain ⟨r', hr', hwrites, -⟩ := h.route k
    cases hr.symm.trans hr'
    by_contra hother
    rw [hkey k r id hr hwrites, if_neg hother] at hne
    exact hother (h.owned id hid k r hk hr hne)
  refine ⟨⟨hcount ▸ h.pos, hload.trans h.loaded, h.still, howned⟩, funext (fun k => ?_)⟩
  cases hk : isReservedClusterKey k with
  | true =>
    have hnone : ∀ n : ShardedNode, n.map k = none := fun n => if_pos hk
    rw [hnone, applyAll_of_not_mem, hnone]
    intro hmem
    obtain ⟨u, hu, rfl⟩ := List.mem_map.1 hmem
    obtain ⟨b, hb, rfl⟩ := List.mem_map.1 hu
    have hfree := (write_ok_contents hw).2.1 (b, true) (List.mem_map_of_mem hb)
    exact absurd hk (by rw [show b.update.1 = b.key from rfl, hfree]; simp)
  | false =>
    obtain ⟨r, hr, hwrites, hlt⟩ := h.route k
    rw [howned.map_eq hk ((route_clientWrite hw k).trans hr) (hcount ▸ hlt),
      hkey k r _ hr hwrites, if_pos rfl, applyAll_eq, applyAll_eq, h.owned.map_eq hk hr hlt]

/-- **A run of calls without errors.** -/
theorem ShardedNode.Settled.run (h : n.Settled p) {calls : List ClientCall}
    (hok : Along ShardedNode.serve ShardedNode.Acks n calls) :
    (calls.foldl ShardedNode.serve n).Settled p ∧
      (calls.foldl ShardedNode.serve n).map =
        applyAll (calls.flatMap ClientCall.updates) n.map := by
  induction calls generalizing n with
  | nil => exact ⟨h, rfl⟩
  | cons c calls ih =>
    obtain ⟨hc, hcalls⟩ := hok
    obtain ⟨hserved, hmap⟩ := h.serve hc
    obtain ⟨hend, hmap'⟩ := ih hserved hcalls
    rw [List.foldl_cons, List.flatMap_cons, applyAll_append, ← hmap]
    exact ⟨hend, hmap'⟩

theorem shardBatches_refused {batch : List (BatchEntry × Bool)} {acc : ShardBatches}
    (hpos : 0 < n.shardCount) (h : ∃ x ∈ batch, isReservedClusterKey x.1.key = true) :
    n.shardBatches batch acc = .error .reserved := by
  induction batch generalizing acc with
  | nil =>
    obtain ⟨x, hx, -⟩ := h
    cases hx
  | cons x batch ih =>
    obtain ⟨b, up⟩ := x
    rw [ShardedNode.shardBatches]
    split_ifs with hres
    · rfl
    · have hroute : ∃ r, n.routeForKey up b.key = some r := by
        cases hload : n.loadRoutingPlan up with
        | none => exact ⟨_, route_of_down hpos hload⟩
        | some q =>
          obtain ⟨a, ha⟩ := (loadRoutingPlan_fits hpos hload).exists_slot b.key
          exact ⟨_, route_of_loaded hpos hload ha⟩
      obtain ⟨r, hr⟩ := hroute
      rw [hr]
      refine ih ?_
      obtain ⟨x, hx, hxres⟩ := h
      rcases List.mem_cons.1 hx with rfl | hx
      · exact absurd hxres hres
      · exact ⟨x, hx, hxres⟩

theorem call_refused (hpos : 0 < n.shardCount) {c : ClientCall}
    (h : ∃ b ∈ c.op.batch, isReservedClusterKey b.key = true) :
    n.call c = (n, .error .reserved) := by
  obtain ⟨b, hb, hres⟩ := h
  have hmem : (b, true) ∈ c.op.batch.map (fun b => (b, true)) := List.mem_map.2 ⟨b, hb, rfl⟩
  unfold ShardedNode.call ShardedNode.clientWrite ShardedNode.write
  rw [if_neg (List.ne_nil_of_mem hmem), shardBatches_refused hpos ⟨(b, true), hmem, hres⟩]

theorem call_plan (n : ShardedNode) (c : ClientCall) : (n.call c).1.plan = n.plan := by
  obtain ⟨shards, journal, h⟩ :=
    write_frame n c.txID (c.op.batch.map (fun b => (b, true))) c.out
  unfold ShardedNode.call ShardedNode.clientWrite
  rw [h]

/-- **The node is one map to its clients.** From shards that hold only what they own, while no slot
is migrating, any calls without errors update the map that the shards hold together.  Reads and
scans answer from it, a call that touches a reserved key changes nothing, and no call, whatever
fails, changes the plan or what any shard holds under a reserved key. -/
theorem sharded_refines_map (n : ShardedNode) (p : RoutingPlan) (calls : List ClientCall)
    (hsettled : n.Settled p) (hok : Along ShardedNode.serve ShardedNode.Acks n calls) :
    let n' := calls.foldl ShardedNode.serve n
    let m := applyAll (calls.flatMap ClientCall.updates) n.map
    (∀ k, n'.get true k = (m k).elim (.error .notFound) .ok) ∧
    (∀ start stop limit, IsScan m start stop limit (n'.scan true start stop limit)) ∧
    (∀ c : ClientCall, (∃ b ∈ c.op.batch, isReservedClusterKey b.key = true) →
      n'.call c = (n', .error .reserved)) ∧
    ∀ c, (n'.call c).1.plan = n.plan ∧ ∀ id k, isReservedClusterKey k = true →
      contents (n'.call c).1.shards id k = contents n.shards id k := by
  intro n' m
  obtain ⟨hend, hmap⟩ := hsettled.run hok
  have hreads : n'.Reads m := by
    have := hend.owned.reads hend.pos hend.loaded
    rwa [hmap] at this
  have hplan : n'.plan = n.plan := hok.invariant (fun s => s.plan = n.plan) rfl
    (fun s c hs _ => (call_plan s c).trans hs)
  have hkept (id : ℕ) (k : Bytes) (hk : isReservedClusterKey k = true) :
      contents n'.shards id k = contents n.shards id k :=
    hok.invariant (fun s => contents s.shards id k = contents n.shards id k) rfl
      (fun s c hs _ => (write_reserved s _ _ _ id hk).trans hs)
  exact ⟨hreads, fun _ _ _ => hreads.scan hend.loaded hend.owned.ownerHolds,
    fun c hc => call_refused hend.pos hc, fun c => ⟨(call_plan n' c).trans hplan,
      fun id k hk => (write_reserved n' _ _ _ id hk).trans (hkept id k hk)⟩⟩

/-- A batch over both shards that names a key twice, and a deletion. -/
def sampleCalls : List ClientCall :=
  [⟨.write [⟨[1], [10], false⟩, ⟨[2], [20], false⟩, ⟨[1], [11], false⟩], [7], {}⟩,
    ⟨.delete [2], [8], {}⟩]

theorem newCluster_settled :
    (newCluster 2 2).Settled (newRoutingPlan 2 2) := by
  refine ⟨by decide, by decide +kernel, by decide +kernel, ?_⟩
  exact fun id _ k r _ _ hne => absurd rfl hne

theorem sampleCalls_reads :
    (sampleCalls.foldl ShardedNode.serve (newCluster 2 2)).get true [1] = .ok [11] :=
  (sharded_refines_map _ _ sampleCalls newCluster_settled
    ⟨by decide +kernel, by decide +kernel, trivial⟩).1 [1]

/-! ### Migrations -/

variable {g : Migration} {pc : MigrationPc} {id owner o : ℕ} {batch : List BatchEntry} {ok : Bool}
  {batches : List (List BatchEntry)} {res : StepResult}

/-- Of the keys that are moved the shard has the values that the source had at first. -/
def Migration.Same (g : Migration) (n₀ n : ShardedNode) (id : ℕ) : Prop :=
  ∀ k, g.moves k = true → contents n.shards id k = contents n₀.shards g.source k

def MigrationPc.keepsSource : MigrationPc → Bool
  | .scanDelete | .delete _ | .stopped | .done => false
  | _ => true

structure Migration.Intact (g : Migration) (n₀ n : ShardedNode) (pc : MigrationPc) : Prop where
  owner : ∀ owner, g.OwnedBy n owner → g.Same n₀ n owner
  source : pc.keepsSource = true → g.Same n₀ n g.source

theorem ownedBy_unique (hready : g.Ready n₀) (h : g.OwnedBy n owner) (h' : g.OwnedBy n o) :
    owner = o := by
  obtain ⟨a, ha, hload⟩ := h
  obtain ⟨b, hb, hload'⟩ := h'
  have hslots := congrArg (fun p : RoutingPlan => p.slots[g.slot]?)
    (Option.some.inj (hload.symm.trans hload'))
  change (g.plan.slots.set g.slot a)[g.slot]? = (g.plan.slots.set g.slot b)[g.slot]? at hslots
  rw [List.getElem?_set_self hready.slot_lt, List.getElem?_set_self hready.slot_lt] at hslots
  cases hslots
  exact Int.ofNat_inj.1 (ha.symm.trans hb)

theorem Migration.Same.persist (h : g.Same n₀ n id) : g.Same n₀ (n.persistRoutingPlan p ok) id := by
  unfold Migration.Same
  rw [(persist_contents p ok).1]
  exact h

theorem Migration.Intact.persist (hready : g.Ready n₀) (h : g.Intact n₀ n pc)
    (howned : g.OwnedBy (n.persistRoutingPlan p true) o) (hsame : g.Same n₀ n o)
    (hpc : pc.keepsSource = true) {pc' : MigrationPc} :
    g.Intact n₀ (n.persistRoutingPlan p ok) pc' := by
  refine ⟨fun owner howner => ?_, fun _ => (h.source hpc).persist⟩
  cases ok with
  | false => exact h.owner owner howner
  | true =>
    rw [ownedBy_unique hready howner howned]
    exact hsame.persist

theorem ownedBy_writeDirect :
    g.OwnedBy (n.writeDirectToShard id batch res) owner ↔ g.OwnedBy n owner := by
  unfold Migration.OwnedBy
  rw [writeDirectToShard_load]

theorem Migration.Intact.copy (hne : g.source ≠ g.target)
    (hb : ∀ b ∈ batch, b.update = (b.key, contents n.shards g.source b.key))
    (h : g.Intact n₀ n pc) (hpc : pc.keepsSource = true) {pc' : MigrationPc} :
    g.Intact n₀ (n.writeDirectToShard g.target batch res) pc' := by
  have hsource := h.source hpc
  refine ⟨fun owner howner k hk => ?_, fun _ k hk => ?_⟩
  · have hsame := h.owner owner (ownedBy_writeDirect.1 howner) k hk
    by_cases ho : owner = g.target
    · subst ho
      rw [target_after hb]
      split_ifs
      · exact hsource k hk
      · exact hsame
    · rw [writeDirectToShard_of_ne ho, hsame]
  · rw [writeDirectToShard_of_ne hne, hsource k hk]

/-- **A step of the migration.** -/
theorem Migration.Intact.step (hready : g.Ready n₀) (hframe : g.Frame n₀ n) (halone : g.Alone n pc)
    (h : g.Intact n₀ n pc) (res : StepResult) :
    g.Intact n₀ (g.step n res pc).1 (g.step n res pc).2 := by
  have hc := hframe.1
  cases pc with
  | start =>
    rw [Migration.step, if_neg (not_le.2 hready.slot_lt), if_neg hready.ne]
    exact h.persist hready (ownedBy_current hready hc) (h.source rfl) rfl
  | scanSource pass =>
    rw [Migration.step]
    split_ifs
    · exact ⟨h.owner, fun _ => h.source rfl⟩
    · exact ⟨h.owner, fun _ => h.source rfl⟩
  | scanTarget pass items =>
    rw [Migration.step]
    split_ifs
    · exact ⟨h.owner, fun _ => h.source rfl⟩
    · exact ⟨h.owner, fun _ => h.source rfl⟩
  | copy pass batches =>
    cases batches with
    | nil => exact ⟨h.owner, fun _ => h.source rfl⟩
    | cons batch batches =>
      refine h.copy hready.ne (fun b hb => (halone.2.1 b ?_).2) rfl
      rw [List.flatten_cons]
      exact List.mem_append_left _ hb
  | switch =>
    have hsame : g.Same n₀ n g.target := fun k hk =>
      (halone.2.2 k hk).trans (h.source rfl k hk)
    exact h.persist hready (ownedBy_owned hready hc hready.target_lt) hsame rfl
  | pause => exact ⟨h.owner, fun _ => h.source rfl⟩
  | scanDelete =>
    rw [Migration.step]
    split_ifs
    · exact ⟨h.owner, fun hpc => by cases hpc⟩
    · exact ⟨h.owner, fun hpc => by cases hpc⟩
  | delete batches =>
    cases batches with
    | nil => exact ⟨h.owner, fun hpc => by cases hpc⟩
    | cons batch batches =>
      rw [Migration.step]
      refine ⟨fun owner howner k hk => ?_, fun hpc => by split_ifs at hpc <;> cases hpc⟩
      -- the target owns the slot, and the batch goes to the source
      have howned := ownedBy_writeDirect.1 howner
      have ho : owner = g.target := ownedBy_unique hready howned halone.1.2
      rw [writeDirectToShard_of_ne (ho ▸ hready.ne.symm)]
      exact h.owner owner howned k hk
  | revert =>
    exact h.persist hready (ownedBy_owned hready hc hready.source_lt) (h.source rfl) rfl
  | stopped => exact h
  | done => exact h

def Migration.Cleared (g : Migration) (n : ShardedNode) : MigrationPc → Prop
  | .delete batches => ∀ k, g.moves k = true → contents n.shards g.source k ≠ none →
    k ∈ batches.flatten.map BatchEntry.key
  | .done => ∀ k, g.moves k = true → contents n.shards g.source k = none
  | _ => True

theorem Migration.Cleared.delete (h : g.Cleared n (.delete (batch :: batches)))
    (hb : ∀ b ∈ batch, b.update = (b.key, none)) (hok : res.ok = true) :
    g.Cleared (n.writeDirectToShard g.source batch res) (.delete batches) := by
  intro k hk hne
  rw [writeDirect_self, if_pos (by simp [hok])] at hne
  by_cases hin : k ∈ batch.map BatchEntry.key
  · refine absurd (applyAll_values (m := fun _ => none) (fun u hu => ?_)
      (keys_updates batch ▸ hin) _) hne
    obtain ⟨b, hbm, rfl⟩ := List.mem_map.1 hu
    rw [hb b hbm]
  · rw [applyAll_of_not_mem (keys_updates batch ▸ hin)] at hne
    have hmem := h k hk hne
    rw [List.flatten_cons, List.map_append, List.mem_append] at hmem
    exact hmem.resolve_left hin

theorem Migration.Cleared.step (hready : g.Ready n₀) (halone : g.Alone n pc) (h : g.Cleared n pc)
    (res : StepResult) : g.Cleared (g.step n res pc).1 (g.step n res pc).2 := by
  cases pc with
  | start =>
    rw [Migration.step, if_neg (not_le.2 hready.slot_lt), if_neg hready.ne]
    dsimp only
    split_ifs <;> trivial
  | scanSource pass =>
    rw [Migration.step]
    unfold MigrationPc.copyFailed
    split_ifs <;> trivial
  | scanTarget pass items =>
    rw [Migration.step]
    unfold MigrationPc.copyFailed
    split_ifs <;> trivial
  | copy pass batches =>
    cases batches with
    | nil =>
      rw [Migration.step]
      unfold MigrationPc.copied
      split_ifs <;> trivial
    | cons batch batches =>
      rw [Migration.step]
      unfold MigrationPc.copyFailed
      split_ifs <;> trivial
  | switch =>
    rw [Migration.step]
    split_ifs <;> trivial
  | pause =>
    rw [Migration.step]
    split_ifs <;> trivial
  | scanDelete =>
    rw [Migration.step]
    split_ifs
    · trivial
    · intro k hk hne
      rw [flatten_flushBatches, List.nil_append, List.map_map]
      obtain ⟨⟨j, v⟩, hmem, rfl⟩ := List.mem_map.1 (mem_scan_keys.2 hne)
      exact List.mem_map.2 ⟨(j, v), List.mem_filter.2 ⟨hmem, hk⟩, rfl⟩
  | delete batches =>
    cases batches with
    | nil =>
      intro k hk
      by_contra hne
      exact absurd (h k hk hne) (by simp)
    | cons batch batches =>
      rw [Migration.step]
      split_ifs with hok
      · refine h.delete (fun b hb => (halone.2 b ?_).2) hok
        rw [List.flatten_cons]
        exact List.mem_append_left _ hb
      · trivial
  | revert => trivial
  | stopped => trivial
  | done => exact h

/-- **A whole migration.** -/
theorem runSteps_intact (hready : g.Ready n) (h : n.OwnerHolds) (results : List StepResult) :
    g.Intact n (g.runSteps n results).1 (g.runSteps n results).2 ∧
      g.Cleared (g.runSteps n results).1 (g.runSteps n results).2 ∧
      g.Holds ⟨(g.runSteps n results).1, (g.runSteps n results).2,
        contents n.shards g.source⟩ := by
  induction results using List.reverseRecOn with
  | nil =>
    refine ⟨⟨fun owner howner k hk => ?_, fun _ k _ => rfl⟩, trivial, hready.loaded, fun k _ => rfl⟩
    rw [ownedBy_unique hready howner hready.ownedBy]
    rfl
  | append_singleton results res ih =>
    obtain ⟨hframe, halone⟩ := h.alone hready results
    rw [runSteps_append]
    exact ⟨ih.1.step hready hframe halone res, ih.2.1.step hready halone res,
      ih.2.2.step hready hframe.1 res⟩

theorem get_of_same (hready : g.Ready n₀) (hframe : g.Frame n₀ n) (howned : g.OwnedBy n owner)
    (hsame : g.Same n₀ n owner) (k : Bytes) : n.get true k = n₀.get true k := by
  obtain ⟨hc, hrest⟩ := hframe
  obtain ⟨a, ha, hload⟩ := howned
  cases hk : isReservedClusterKey k with
  | true =>
    unfold ShardedNode.get
    rw [if_pos hk, if_pos hk]
  | false =>
    by_cases hmoves : g.moves k = true
    · obtain ⟨r, hr, hprim⟩ := route_source hready rfl hready.loaded hmoves
      have hroute := route_setSlot (hc ▸ hready.pos) hload hready.slot_lt (slot_of_moves hmoves)
      have howner : a.route.primary = owner := by
        change a.owner.toNat = owner
        rw [ha, Int.toNat_natCast]
      rw [get_of_route hk hroute, get_of_route hk hr, hprim, howner, hsame k hmoves]
    · have hother : g.plan.slotForKey k ≠ g.slot := by
        intro hslot
        exact hmoves (by simp [Migration.moves, hk, hslot])
      obtain ⟨b, -, hr, -⟩ := exists_route hready.pos hready.loaded k
      have hr' := (route_setSlot_of_ne hready.pos hc hready.loaded hload hother).trans hr
      rw [get_of_route hk hr', get_of_route hk hr, hrest k _ (by simpa using hmoves)]

/-- **A migration that runs alone changes nothing for clients**, wherever it fails or is cut off.
If it gets to its end, the source holds no key of the slot, and the plan gives the slot to the
target. -/
theorem quiet_migration (n : ShardedNode) (g : Migration) (hready : g.Ready n)
    (howned : n.OnlyOwned) (results : List StepResult) :
    let s := g.runSteps n results
    (∀ k, s.1.get true k = n.get true k) ∧
    (∀ start stop limit, s.1.scan true start stop limit = n.scan true start stop limit) ∧
    (s.2 = .done →
      (∀ k, isReservedClusterKey k = false → g.plan.slotForKey k = g.slot →
        contents s.1.shards g.source k = none) ∧
      ∃ p a, s.1.loadRoutingPlan true = some p ∧ p.slots[g.slot]? = some a ∧
        a.owner = g.target ∧ a.migrating = false) := by
  intro s
  have hholds := howned.ownerHolds
  obtain ⟨hframe, halone⟩ := hholds.alone hready results
  obtain ⟨hintact, hcleared, hplan⟩ := runSteps_intact hready hholds results
  obtain ⟨owner, -, howner⟩ := halone.exists_owner
  obtain ⟨hholds', p, hload⟩ := hholds.migrate hready results
  have hget := get_of_same hready hframe howner (hintact.owner owner howner)
  have hreads := howned.reads hready.pos hready.loaded
  have hreads' : s.1.Reads n.map := fun k => (hget k).trans (hreads k)
  refine ⟨hget, fun start stop limit => ?_, fun hdone => ?_⟩
  · exact (hreads'.scan hload hholds').unique (hreads.scan hready.loaded hholds)
  · change (g.runSteps n results).2 = .done at hdone
    rw [hdone] at hcleared hplan
    refine ⟨fun k hk hslot => hcleared k (by simp [Migration.moves, hk, hslot]), _, _, hplan.1,
      List.getElem?_set_self ?_, rfl, rfl⟩
    change g.slot < (g.plan.slots.set _ _).length
    rw [List.length_set]
    exact hready.slot_lt

def oneKeyCluster : ShardedNode := (newCluster 2 2).serve ⟨.put [1] [10], [7], {}⟩

theorem sampleMove_quiet :
    (sampleMove.runSteps oneKeyCluster (List.replicate 22 {})).2 = .done ∧
    (sampleMove.runSteps oneKeyCluster (List.replicate 22 {})).1.get true [1] = .ok [10] := by
  have howned : oneKeyCluster.OnlyOwned := (newCluster_settled.serve (by decide +kernel)).1.owned
  have hready : sampleMove.Ready oneKeyCluster :=
    ⟨by decide +kernel, by decide +kernel, by decide +kernel, by decide⟩
  exact ⟨by decide +kernel,
    ((quiet_migration _ _ hready howned _).1 [1]).trans (by decide +kernel)⟩

end LsmTree
