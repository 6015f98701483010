import LsmTree.Correct.ClusterScan
import LsmTree.Property.SlotMigration

/-!
# Scans and reads after interrupted migrations

The scan takes a key from any shard that has it, the read by key only from the owner.  They agree as
long as the owner has what anyone has.  Every step of a migration keeps this, wherever the migration
fails or is cut off, and so does every write of a value.  A deletion does only if no shard that it
is not sent to has a copy (`scan_agrees_with_get`).
-/

namespace LsmTree

open KeyValue Run

variable {txID : Bytes} {batch : List BatchEntry} {out : TxOutcome} {id owner pass : ℕ}
  {r : StepResult} {batches : List (List BatchEntry)} {p : RoutingPlan} {ok : Bool}

/-- A complete call of a client, or a migration with the results of its steps, which may end
anywhere. -/
inductive ClusterEvent
  | client (txID : Bytes) (batch : List BatchEntry) (out : TxOutcome)
  | migrate (g : Migration) (results : List StepResult)

/-- The steps of a migration up to where it is cut off. -/
def Migration.runSteps (g : Migration) (n : ShardedNode) (results : List StepResult) :
    ShardedNode × MigrationPc :=
  results.foldl (fun s r => g.step s.1 r s.2) (n, .start)

def ShardedNode.next (n : ShardedNode) : ClusterEvent → ShardedNode
  | .client txID batch out => (n.clientWrite txID batch out).1
  | .migrate g results => (g.runSteps n results).1

/-- A client's call that fails changes nothing, and a key is deleted only if no shard that the
deletion does not reach has it; a migration is called with the plan that is loaded, for a slot that
the source owns. -/
def ShardedNode.Allowed (n : ShardedNode) : ClusterEvent → Prop
  | .client txID batch out =>
    (∀ n' err, n.clientWrite txID batch out = (n', .error err) →
      contents n'.shards = contents n.shards) ∧
    ∀ k r, lastOf (batch.map BatchEntry.update) k = some none → n.routeForKey true k = some r →
      ∀ id < n.shardCount, id ∉ r.writes → contents n.shards id k = none
  | .migrate g _ => g.Ready n

variable {g : Migration} {n n₀ : ShardedNode} {k : Bytes}

/-! ### Clients -/

theorem route_clientWrite {res : Except ClusterError Unit} {n' : ShardedNode}
    (hw : n.clientWrite txID batch out = (n', res)) (k : Bytes) :
    n'.routeForKey true k = n.routeForKey true k := by
  obtain ⟨shards, journal, hframe⟩ := write_frame n txID (batch.map (fun b => (b, true))) out
  have hn' : n' = { n with shards := shards, journal := journal } := by
    rw [← hframe]
    exact (congrArg Prod.fst hw).symm
  rw [hn']
  exact route_congr rfl rfl rfl true k

/-- **An allowed call of a client.** -/
theorem ShardedNode.OwnerHolds.client (h : n.OwnerHolds)
    (hok : n.Allowed (.client txID batch out)) : (n.clientWrite txID batch out).1.OwnerHolds := by
  cases hw : n.clientWrite txID batch out with
  | mk n' res =>
    intro k r hk hr id hid hheld
    rw [route_clientWrite hw] at hr
    rw [(load_clientWrite hw).2] at hid
    cases res with
    | error err =>
      have hsame : contents n'.shards = contents n.shards := hok.1 n' err hw
      change contents n'.shards id k ≠ none at hheld
      change contents n'.shards r.primary k ≠ none
      rw [hsame] at hheld ⊢
      exact h k r hk hr id hid hheld
    | ok =>
      have hkey := contents_write_key hw hr
      have hprim := hkey r.primary
      rw [if_pos (primary_mem_writes r), applyAll_eq] at hprim
      change contents n'.shards id k ≠ none at hheld
      change contents n'.shards r.primary k ≠ none
      rw [hprim]
      cases hl : lastOf (batch.map BatchEntry.update) k with
      | none =>
        refine h k r hk hr id hid ?_
        rw [hkey id, applyAll_eq, hl] at hheld
        simpa using hheld
      | some u =>
        cases u with
        | some v => simp
        | none =>
          -- nobody holds a key after it was deleted
          rw [hkey id, applyAll_eq, hl] at hheld
          split_ifs at hheld with hin
          · exact absurd rfl hheld
          · exact absurd (hok.2 k r hl hr id hid hin) hheld

/-! ### Migrations -/

/-- Of the keys that are moved, the shard has every one that any shard has. -/
def Migration.HeldBy (g : Migration) (n : ShardedNode) (owner : ℕ) : Prop :=
  ∀ k, g.moves k = true → ∀ id < n.shardCount, contents n.shards id k ≠ none →
    contents n.shards owner k ≠ none

/-- Source and target have the same values of the keys that are moved. -/
def Migration.Copied (g : Migration) (n : ShardedNode) : Prop :=
  ∀ k, g.moves k = true → contents n.shards g.target k = contents n.shards g.source k

/-- The plan gives the slot to the given shard and is otherwise the one the migration began with. -/
def Migration.OwnedBy (g : Migration) (n : ShardedNode) (owner : ℕ) : Prop :=
  ∃ a : RoutingSlot, a.owner = owner ∧ n.loadRoutingPlan true = some (g.plan.setSlot g.slot a)

/-- Pending operations that bring the target to the values of the source. -/
def Migration.Pending (g : Migration) (n : ShardedNode) (batches : List (List BatchEntry)) : Prop :=
  (∀ b ∈ batches.flatten, g.moves b.key = true ∧
    b.update = (b.key, contents n.shards g.source b.key)) ∧
  ∀ k, g.moves k = true → k ∉ batches.flatten.map BatchEntry.key →
    contents n.shards g.target k = contents n.shards g.source k

def Migration.Phase (g : Migration) (n : ShardedNode) (pass : ℕ) : Prop :=
  g.HeldBy n g.source ∧
    if pass < 3 then g.OwnedBy n g.source else g.OwnedBy n g.target ∧ g.Copied n

/-- What holds of the keys that are moved while a migration runs alone. -/
def Migration.Alone (g : Migration) (n : ShardedNode) : MigrationPc → Prop
  | .start => g.HeldBy n g.source ∧ g.OwnedBy n g.source
  | .scanSource pass => g.Phase n pass
  | .scanTarget pass items => g.Phase n pass ∧ items = (n.shards g.source).scan [] []
  | .copy pass batches => g.Phase n pass ∧ g.Pending n batches
  | .switch => g.HeldBy n g.source ∧ g.OwnedBy n g.source ∧ g.Copied n
  | .pause => g.HeldBy n g.source ∧ g.OwnedBy n g.target ∧ g.Copied n
  | .scanDelete => g.HeldBy n g.target ∧ g.OwnedBy n g.target
  | .delete batches => (g.HeldBy n g.target ∧ g.OwnedBy n g.target) ∧
    ∀ b ∈ batches.flatten, g.moves b.key = true ∧ b.update = (b.key, none)
  | .revert => g.HeldBy n g.source ∧
    (g.OwnedBy n g.source ∨ g.OwnedBy n g.target ∧ g.Copied n)
  | .stopped | .done => ∃ owner, g.HeldBy n owner ∧ g.OwnedBy n owner

def Migration.Frame (g : Migration) (n₀ n : ShardedNode) : Prop :=
  n.shardCount = n₀.shardCount ∧
    ∀ k id, g.moves k = false → contents n.shards id k = contents n₀.shards id k

theorem setSlot_setSlot (p : RoutingPlan) (slot : ℕ) (a b : RoutingSlot) :
    (p.setSlot slot a).setSlot slot b = p.setSlot slot b := by
  unfold RoutingPlan.setSlot
  dsimp only
  rw [List.set_set]

theorem Migration.Ready.ownedBy (h : g.Ready n) : g.OwnedBy n g.source := by
  obtain ⟨a, ha, ho⟩ := Option.map_eq_some_iff.1 h.owner
  refine ⟨a, ho, h.loaded.trans (congrArg some ?_)⟩
  obtain ⟨hlt, heq⟩ := List.getElem?_eq_some_iff.1 ha
  unfold RoutingPlan.setSlot
  rw [← heq, List.set_getElem_self]

/-- **What holds of the moved keys, and the frame, give the invariant.** -/
theorem ownerHolds_of_alone (hready : g.Ready n₀) (h₀ : n₀.OwnerHolds) (hframe : g.Frame n₀ n)
    (hheld : g.HeldBy n owner) (howned : g.OwnedBy n owner) : n.OwnerHolds := by
  obtain ⟨hc, hsame⟩ := hframe
  obtain ⟨a, ha, hload⟩ := howned
  intro k r hk hr id hid hne
  by_cases hmoves : g.moves k = true
  · have hroute := route_setSlot (hc ▸ hready.pos) hload hready.slot_lt (slot_of_moves hmoves)
    rw [hroute] at hr
    cases hr
    have hprim : a.route.primary = owner := by
      change a.owner.toNat = owner
      rw [ha, Int.toNat_natCast]
    rw [hprim]
    exact hheld k hmoves id hid hne
  · have hother : g.plan.slotForKey k ≠ g.slot := by
      intro hslot
      exact hmoves (by simp [Migration.moves, hk, hslot])
    have hmoves : g.moves k = false := by simpa using hmoves
    rw [route_setSlot_of_ne hready.pos hc hready.loaded hload hother] at hr
    rw [hsame k _ hmoves] at hne ⊢
    exact h₀ k r hk hr id (hc ▸ hid) hne

theorem Migration.Alone.exists_owner {pc : MigrationPc} (h : g.Alone n pc) :
    ∃ owner, g.HeldBy n owner ∧ g.OwnedBy n owner := by
  have hcopied : g.HeldBy n g.source → g.Copied n → g.HeldBy n g.target := by
    intro hheld hcopy k hk id hid hne
    rw [hcopy k hk]
    exact hheld k hk id hid hne
  have hphase : ∀ pass, g.Phase n pass → ∃ owner, g.HeldBy n owner ∧ g.OwnedBy n owner := by
    rintro pass ⟨hheld, hrest⟩
    split_ifs at hrest
    · exact ⟨_, hheld, hrest⟩
    · exact ⟨_, hcopied hheld hrest.2, hrest.1⟩
  cases pc with
  | start => exact ⟨_, h⟩
  | scanSource pass => exact hphase pass h
  | scanTarget pass items => exact hphase pass h.1
  | copy pass batches => exact hphase pass h.1
  | switch => exact ⟨_, h.1, h.2.1⟩
  | pause => exact ⟨_, hcopied h.1 h.2.2, h.2.1⟩
  | scanDelete => exact ⟨_, h⟩
  | delete batches => exact ⟨_, h.1⟩
  | revert =>
    obtain ⟨hheld, howned | ⟨howned, hcopy⟩⟩ := h
    · exact ⟨_, hheld, howned⟩
    · exact ⟨_, hcopied hheld hcopy, howned⟩
  | stopped => exact h
  | done => exact h

/-! ### The steps -/

theorem persist_contents (p : RoutingPlan) (ok : Bool) :
    (n.persistRoutingPlan p ok).shards = n.shards ∧
      (n.persistRoutingPlan p ok).shardCount = n.shardCount := by
  unfold ShardedNode.persistRoutingPlan
  split_ifs <;> exact ⟨rfl, rfl⟩

theorem ownedBy_current (hready : g.Ready n₀) (hc : n.shardCount = n₀.shardCount) :
    g.OwnedBy (n.persistRoutingPlan g.current true) g.source :=
  ⟨_, rfl, load_persisted (hc ▸ hready.pos) (hc ▸ hready.current_fits)⟩

theorem ownedBy_owned (hready : g.Ready n₀) (hc : n.shardCount = n₀.shardCount)
    (ho : owner < n₀.shardCount) : g.OwnedBy (n.persistRoutingPlan (g.owned owner) true) owner := by
  refine ⟨{ owner := owner }, rfl, ?_⟩
  rw [load_persisted (hc ▸ hready.pos) (hc ▸ hready.owned_fits ho)]
  exact congrArg some (setSlot_setSlot _ _ _ _)

theorem OwnedBy.writeDirect (h : g.OwnedBy n owner) :
    g.OwnedBy (n.writeDirectToShard id batch r) owner := by
  obtain ⟨a, ha, hload⟩ := h
  exact ⟨a, ha, (writeDirectToShard_load id batch r).trans hload⟩

theorem writeDirect_self (id : ℕ) (batch : List BatchEntry) (r : StepResult) :
    contents (n.writeDirectToShard id batch r).shards id = if r.ok || r.written then
      applyAll (batch.map BatchEntry.update) (contents n.shards id) else contents n.shards id := by
  unfold ShardedNode.writeDirectToShard
  split_ifs
  · dsimp only
    rw [contents_writeShard, Function.update_self]
  · rfl

theorem keys_updates (batch : List BatchEntry) :
    (batch.map BatchEntry.update).map Prod.fst = batch.map BatchEntry.key := by
  rw [List.map_map]
  rfl

theorem writeDirect_frame (hb : ∀ b ∈ batch, g.moves b.key = true) (hk : g.moves k = false)
    (j : ℕ) : contents (n.writeDirectToShard id batch r).shards j k = contents n.shards j k := by
  by_cases hj : j = id
  · subst hj
    rw [writeDirect_self]
    split_ifs
    · refine applyAll_of_not_mem (fun hmem => ?_) _
      rw [keys_updates] at hmem
      obtain ⟨b, hbm, rfl⟩ := List.mem_map.1 hmem
      rw [hb b hbm] at hk
      cases hk
    · rfl
  · exact congrFun (writeDirectToShard_of_ne hj batch r) k

theorem target_after (hb : ∀ b ∈ batch, b.update = (b.key, contents n.shards g.source b.key))
    (r : StepResult) (k : Bytes) :
    contents (n.writeDirectToShard g.target batch r).shards g.target k =
      if (r.ok || r.written) = true ∧ k ∈ batch.map BatchEntry.key then
        contents n.shards g.source k else contents n.shards g.target k := by
  rw [writeDirect_self]
  by_cases hw : (r.ok || r.written) = true
  · rw [if_pos hw]
    by_cases hk : k ∈ batch.map BatchEntry.key
    · rw [if_pos ⟨hw, hk⟩]
      refine applyAll_values (fun u hu => ?_) (keys_updates batch ▸ hk) _
      obtain ⟨b, hbm, rfl⟩ := List.mem_map.1 hu
      rw [hb b hbm]
    · rw [if_neg (fun h => hk h.2), applyAll_of_not_mem (keys_updates batch ▸ hk)]
  · rw [if_neg hw, if_neg (fun h => hw h.1)]

theorem Migration.Phase.copy (hne : g.source ≠ g.target)
    (hb : ∀ b ∈ batch, b.update = (b.key, contents n.shards g.source b.key)) (h : g.Phase n pass) :
    g.Phase (n.writeDirectToShard g.target batch r) pass := by
  have hsource : contents (n.writeDirectToShard g.target batch r).shards g.source =
      contents n.shards g.source := writeDirectToShard_of_ne hne batch r
  have hcount : (n.writeDirectToShard g.target batch r).shardCount = n.shardCount := by
    unfold ShardedNode.writeDirectToShard
    split_ifs <;> rfl
  obtain ⟨hheld, hrest⟩ := h
  refine ⟨fun k hk id hid hheld' => ?_, ?_⟩
  · rw [hsource]
    rw [hcount] at hid
    by_cases hj : id = g.target
    · subst hj
      rw [target_after hb] at hheld'
      split_ifs at hheld'
      · exact hheld'
      · exact hheld k hk _ hid hheld'
    · rw [writeDirectToShard_of_ne hj] at hheld'
      exact hheld k hk id hid hheld'
  · split_ifs at hrest ⊢
    · exact OwnedBy.writeDirect hrest
    · refine ⟨OwnedBy.writeDirect hrest.1, fun k hk => ?_⟩
      rw [hsource, target_after hb]
      split_ifs
      · rfl
      · exact hrest.2 k hk

theorem Migration.Pending.copy (hne : g.source ≠ g.target) (hr : r.ok = true)
    (h : g.Pending n (batch :: batches)) :
    g.Pending (n.writeDirectToShard g.target batch r) batches := by
  have hsource : contents (n.writeDirectToShard g.target batch r).shards g.source =
      contents n.shards g.source := writeDirectToShard_of_ne hne batch r
  obtain ⟨hops, hrest⟩ := h
  rw [List.flatten_cons] at hops hrest
  refine ⟨fun b hb => ?_, fun k hk hno => ?_⟩
  · rw [hsource]
    exact hops b (List.mem_append_right _ hb)
  · rw [hsource, target_after (fun b hb => (hops b (List.mem_append_left _ hb)).2)]
    split_ifs with hnow
    · rfl
    · refine hrest k hk (fun hc => ?_)
      rw [List.map_append, List.mem_append] at hc
      exact hc.elim (fun hc => hnow ⟨by simp [hr], hc⟩) hno

theorem Migration.HeldBy.persist (h : g.HeldBy n owner) :
    g.HeldBy (n.persistRoutingPlan p ok) owner := by
  unfold Migration.HeldBy
  rw [(persist_contents p ok).1, (persist_contents p ok).2]
  exact h

theorem Migration.Copied.persist (h : g.Copied n) : g.Copied (n.persistRoutingPlan p ok) := by
  unfold Migration.Copied
  rw [(persist_contents p ok).1]
  exact h

theorem Migration.Frame.persist (h : g.Frame n₀ n) : g.Frame n₀ (n.persistRoutingPlan p ok) := by
  unfold Migration.Frame
  rw [(persist_contents p ok).1, (persist_contents p ok).2]
  exact h

theorem Migration.Frame.writeDirect (h : g.Frame n₀ n) (hb : ∀ b ∈ batch, g.moves b.key = true) :
    g.Frame n₀ (n.writeDirectToShard id batch r) := by
  refine ⟨?_, fun k j hk => (writeDirect_frame hb hk j).trans (h.2 k j hk)⟩
  rw [← h.1]
  unfold ShardedNode.writeDirectToShard
  split_ifs <;> rfl

theorem Migration.Phase.copyFailed (h : g.Phase n pass) : g.Alone n (.copyFailed pass) := by
  unfold MigrationPc.copyFailed
  split_ifs with hpass
  · obtain ⟨hheld, hrest⟩ := h
    rw [if_pos hpass] at hrest
    exact ⟨hheld, Or.inl hrest⟩
  · have halone : g.Alone n (.scanSource pass) := h
    exact halone.exists_owner

theorem Migration.Phase.pending (h : g.Phase n pass) (order : List BatchEntry) :
    g.Alone n (.copy pass (flushBatches (mapOrder order (g.puts ((n.shards g.source).scan [] []))
      (g.deletes ((n.shards g.source).scan [] []) ((n.shards g.target).scan [] []))) [])) := by
  refine ⟨h, fun b hb => ?_, fun k hk hno => ?_⟩
  · rw [flatten_flushBatches, List.nil_append] at hb
    exact copy_updates hb
  · rw [flatten_flushBatches, List.nil_append] at hno
    obtain ⟨h1, h2⟩ := copy_complete hk hno
    exact h2.trans h1.symm

theorem Migration.Alone.copied (h : g.Alone n (.copy pass [])) (r : StepResult) :
    g.Alone n (.copied pass r) := by
  have hcopied : g.Copied n := fun k hk => h.2.2 k hk (by simp)
  obtain ⟨hheld, hrest⟩ := h.1
  unfold MigrationPc.copied
  split_ifs with hpass hr hnext
  · rw [if_pos hpass] at hrest
    exact ⟨hheld, by rw [if_pos (by omega)]; exact hrest⟩
  · rw [if_pos hpass] at hrest
    exact ⟨hheld, hrest, hcopied⟩
  · exact h.exists_owner
  · rw [if_neg hpass] at hrest
    refine ⟨fun k hk id hid hne => ?_, hrest.1⟩
    rw [hcopied k hk]
    exact hheld k hk id hid hne

theorem Migration.Alone.delete (hne : g.source ≠ g.target) (r : StepResult)
    (h : g.Alone n (.delete (batch :: batches))) :
    g.Alone (n.writeDirectToShard g.source batch r) (.delete batches) := by
  obtain ⟨⟨hheld, howned⟩, hops⟩ := h
  rw [List.flatten_cons] at hops
  have hcount : (n.writeDirectToShard g.source batch r).shardCount = n.shardCount := by
    unfold ShardedNode.writeDirectToShard
    split_ifs <;> rfl
  refine ⟨⟨fun k hk id hid hheld' => ?_, OwnedBy.writeDirect howned⟩,
    fun b hb => hops b (List.mem_append_right _ hb)⟩
  rw [hcount] at hid
  rw [writeDirectToShard_of_ne hne.symm]
  refine hheld k hk id hid (fun hnone => hheld' ?_)
  by_cases hj : id = g.source
  · subst hj
    rw [writeDirect_self]
    split_ifs
    · by_cases hin : k ∈ batch.map BatchEntry.key
      · refine applyAll_values (m := fun _ => none) (fun u hu => ?_) (keys_updates batch ▸ hin) _
        obtain ⟨b, hb, rfl⟩ := List.mem_map.1 hu
        rw [(hops b (List.mem_append_left _ hb)).2]
      · rw [applyAll_of_not_mem (keys_updates batch ▸ hin), hnone]
    · exact hnone
  · rw [writeDirectToShard_of_ne hj, hnone]

/-- **A step of a migration.** -/
theorem Migration.Alone.step {pc : MigrationPc} (hready : g.Ready n₀) (hframe : g.Frame n₀ n)
    (h : g.Alone n pc) (r : StepResult) :
    g.Frame n₀ (g.step n r pc).1 ∧ g.Alone (g.step n r pc).1 (g.step n r pc).2 := by
  have hc := hframe.1
  cases pc with
  | start =>
    rw [Migration.step, if_neg (not_le.2 hready.slot_lt), if_neg hready.ne]
    refine ⟨hframe.persist, ?_⟩
    cases hw : (r.ok || r.written) with
    | true =>
      have howned := ownedBy_current hready hc
      split_ifs
      · exact ⟨h.1.persist, howned⟩
      · exact ⟨_, h.1.persist, howned⟩
    | false =>
      rw [if_neg (by rw [Bool.or_eq_false_iff] at hw; simp [hw.1])]
      exact ⟨_, h⟩
  | scanSource pass =>
    rw [Migration.step]
    split_ifs
    · exact ⟨hframe, h.copyFailed⟩
    · exact ⟨hframe, h, rfl⟩
  | scanTarget pass items =>
    obtain ⟨hphase, rfl⟩ := h
    rw [Migration.step]
    split_ifs
    · exact ⟨hframe, hphase.pending r.order⟩
    · exact ⟨hframe, hphase.copyFailed⟩
  | copy pass batches =>
    cases batches with
    | nil => exact ⟨hframe, h.copied r⟩
    | cons batch batches =>
      obtain ⟨hphase, hpending⟩ := h
      have hops : ∀ b ∈ batch, g.moves b.key = true ∧
          b.update = (b.key, contents n.shards g.source b.key) := fun b hb =>
        hpending.1 b (by rw [List.flatten_cons]; exact List.mem_append_left _ hb)
      have hphase' := hphase.copy (r := r) hready.ne (fun b hb => (hops b hb).2)
      rw [Migration.step]
      refine ⟨hframe.writeDirect (fun b hb => (hops b hb).1), ?_⟩
      split_ifs with hr
      · exact ⟨hphase', hpending.copy hready.ne hr⟩
      · exact hphase'.copyFailed
  | switch =>
    obtain ⟨hheld, howned, hcopied⟩ := h
    rw [Migration.step]
    refine ⟨hframe.persist, ?_⟩
    cases hw : (r.ok || r.written) with
    | true =>
      have howned' := ownedBy_owned hready hc hready.target_lt
      split_ifs
      · exact ⟨hheld.persist, howned', hcopied.persist⟩
      · exact ⟨hheld.persist, Or.inr ⟨howned', hcopied.persist⟩⟩
    | false =>
      rw [if_neg (by rw [Bool.or_eq_false_iff] at hw; simp [hw.1])]
      exact ⟨hheld, Or.inl howned⟩
  | pause =>
    rw [Migration.step]
    refine ⟨hframe, ?_⟩
    split_ifs
    · exact ⟨h.1, h.2⟩
    · exact h.exists_owner
  | scanDelete =>
    rw [Migration.step]
    split_ifs
    · exact ⟨hframe, _, h⟩
    · refine ⟨hframe, h, fun b hb => ?_⟩
      rw [flatten_flushBatches, List.nil_append] at hb
      obtain ⟨x, hx, rfl⟩ := List.mem_map.1 hb
      exact ⟨(List.mem_filter.1 hx).2, rfl⟩
  | delete batches =>
    cases batches with
    | nil => exact ⟨hframe, _, h.1⟩
    | cons batch batches =>
      have h' := h.delete hready.ne r
      rw [Migration.step]
      refine ⟨hframe.writeDirect (fun b hb => ?_), ?_⟩
      · exact (h.2 b (by rw [List.flatten_cons]; exact List.mem_append_left _ hb)).1
      · split_ifs
        · exact h'
        · exact h'.exists_owner
  | revert =>
    rw [Migration.step]
    refine ⟨hframe.persist, ?_⟩
    cases hw : (r.ok || r.written) with
    | true => exact ⟨_, h.1.persist, ownedBy_owned hready hc hready.source_lt⟩
    | false => exact h.exists_owner
  | stopped => exact ⟨hframe, h⟩
  | done => exact ⟨hframe, h⟩

theorem runSteps_append (results : List StepResult) (r : StepResult) :
    g.runSteps n (results ++ [r]) =
      g.step (g.runSteps n results).1 r (g.runSteps n results).2 := by
  unfold Migration.runSteps
  rw [List.foldl_append, List.foldl_cons, List.foldl_nil]

/-- **A migration that runs alone.** -/
theorem ShardedNode.OwnerHolds.alone (h : n.OwnerHolds) (hready : g.Ready n)
    (results : List StepResult) : g.Frame n (g.runSteps n results).1 ∧
      g.Alone (g.runSteps n results).1 (g.runSteps n results).2 := by
  have hstart : g.Alone n .start := by
    refine ⟨fun k hk id hid hne => ?_, hready.ownedBy⟩
    obtain ⟨r, hr, hprim⟩ := route_source hready rfl hready.loaded hk
    rw [← hprim]
    refine h k r ?_ hr id hid hne
    rw [Migration.moves, Bool.and_eq_true, Bool.not_eq_true'] at hk
    exact hk.1
  induction results using List.reverseRecOn with
  | nil => exact ⟨⟨rfl, fun _ _ _ => rfl⟩, hstart⟩
  | append_singleton results r ih =>
    rw [runSteps_append]
    exact ih.2.step hready ih.1 r

theorem ShardedNode.OwnerHolds.migrate (h : n.OwnerHolds) (hready : g.Ready n)
    (results : List StepResult) : (g.runSteps n results).1.OwnerHolds ∧
      ∃ p, (g.runSteps n results).1.loadRoutingPlan true = some p := by
  have hinv := h.alone hready results
  obtain ⟨owner, hheld, howned⟩ := hinv.2.exists_owner
  exact ⟨ownerHolds_of_alone hready h hinv.1 hheld howned, _, howned.choose_spec.2⟩

def newCluster (shardCount : ℕ) (routingSlots : ℤ) : ShardedNode :=
  { shardCount := shardCount, routingSlots := routingSlots, shards := fun _ => ∅ }

theorem newCluster_load (shardCount : ℕ) (routingSlots : ℤ) :
    ∃ p, (newCluster shardCount routingSlots).loadRoutingPlan true = some p := by
  unfold ShardedNode.loadRoutingPlan
  split_ifs with _ hup
  · exact ⟨_, rfl⟩
  · exact ⟨_, rfl⟩
  · exact absurd rfl hup

/-- **When scans agree with reads.** In every state that calls of clients and migrations reach one
after another from an empty cluster, under the given conditions, a scan shows exactly the pairs of
its range that reads by key return. -/
theorem scan_agrees_with_get {shardCount : ℕ} {routingSlots : ℤ} {events : List ClusterEvent}
    (hrun : Along ShardedNode.next ShardedNode.Allowed (newCluster shardCount routingSlots) events)
    (start stop k v : Bytes) :
    (k, v) ∈ (events.foldl ShardedNode.next (newCluster shardCount routingSlots)).scan true
        start stop 0 ↔
      (start ≤ k ∧ (stop = [] ∨ k < stop)) ∧ isReservedClusterKey k = false ∧
        (events.foldl ShardedNode.next (newCluster shardCount routingSlots)).get true k =
        .ok v := by
  obtain ⟨hown, p, hload⟩ := hrun.invariant
    (fun n => n.OwnerHolds ∧ ∃ p, n.loadRoutingPlan true = some p)
    ⟨fun k r _ _ id _ hne => absurd rfl hne, newCluster_load _ _⟩ (by
      rintro n e ⟨hown, p, hload⟩ hok
      cases e with
      | client txID batch out =>
        refine ⟨hown.client hok, p, ?_⟩
        rw [← hload]
        exact (load_clientWrite rfl).1
      | migrate g results => exact hown.migrate hok results)
  exact scan_eq_get hload hown

theorem allowed_of_acked (hok : (n.clientWrite txID batch out).2 = .ok ())
    (hdel : ∀ k ∈ batch.map BatchEntry.key, ∀ r ∈ n.routeForKey true k, ∀ id < n.shardCount,
      id ∉ r.writes → contents n.shards id k = none) : n.Allowed (.client txID batch out) := by
  refine ⟨fun n' err hw => ?_, fun k r hl hr id hid hno => ?_⟩
  · rw [hw] at hok
    cases hok
  · obtain ⟨b, hb, heq⟩ := List.mem_map.1 (lastOf_mem hl)
    exact hdel k (List.mem_map.2 ⟨b, hb, congrArg Prod.fst heq⟩) r hr id hid hno

/-- A key is put, its slot is moved, and the key is deleted. -/
def movedRun : List ClusterEvent :=
  [.client [7] [⟨[1], [10], false⟩] {}, .migrate sampleMove (List.replicate 22 {}),
    .client [8] [⟨[1], [], true⟩] {}]

theorem movedRun_allowed :
    Along ShardedNode.next ShardedNode.Allowed (newCluster 2 2) movedRun := by
  refine And.intro ?_ (And.intro ?_ (And.intro ?_ trivial))
  · exact allowed_of_acked (by decide +kernel) (by decide +kernel)
  · exact ⟨by decide +kernel, by decide +kernel, by decide +kernel, by decide⟩
  · exact allowed_of_acked (by decide +kernel) (by decide +kernel)

theorem movedRun_agrees :
    ([1], [10]) ∈ (movedRun.foldl ShardedNode.next (newCluster 2 2)).scan true [] [] 0 ↔
      (([] : Bytes) ≤ [1] ∧ (([] : Bytes) = [] ∨ ([1] : Bytes) < [])) ∧
        isReservedClusterKey [1] = false ∧
        (movedRun.foldl ShardedNode.next (newCluster 2 2)).get true [1] = .ok [10] :=
  scan_agrees_with_get movedRun_allowed [] [] [1] [10]

/-- The migration fails in its second pass and is taken back. -/
def abortedRun : List ClusterEvent :=
  [.client [7] [⟨[1], [10], false⟩] {},
    .migrate sampleMove (List.replicate 5 { ok := true } ++ [{ ok := false }, { ok := true }]),
    .client [8] [⟨[1], [], true⟩] {}]

/-- The deleted key is still shown by the scan. -/
theorem abortedRun_disagrees :
    (abortedRun.foldl ShardedNode.next (newCluster 2 2)).scan true [] [] 0 = [([1], [10])] ∧
    (abortedRun.foldl ShardedNode.next (newCluster 2 2)).get true [1] = .error .notFound := by
  decide +kernel

end LsmTree
