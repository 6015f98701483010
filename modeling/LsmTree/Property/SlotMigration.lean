import LsmTree.Lib.Run
import LsmTree.Correct.Migrate

/-!
# Client writes during a migration

Before the switch every write of a client reaches the source, so that the source has the current
value of every key that is moved.  After the switch writes reach the target only, but the last pass
still copies what the source has.  So no write is lost if, between the switch and the last pass's
own write of a key, no client gives the key another value than the source has
(`migration_keeps_writes`).
-/

namespace LsmTree

open KeyValue Run

variable {txID : Bytes} {batch : List BatchEntry} {out : TxOutcome} {err : ClusterError}
  {pc : MigrationPc} {pass : ℕ} {r : StepResult}

/-- A migration in progress, with the values last acknowledged to clients. -/
structure MoveState where
  node : ShardedNode
  pc : MigrationPc
  values : Bytes → Option Bytes

/-- A step of the migration or a complete `Write` of a client. -/
inductive MoveEvent
  | migrate (r : StepResult)
  | client (txID : Bytes) (batch : List BatchEntry) (out : TxOutcome)

def ShardedNode.clientWrite (n : ShardedNode) (txID : Bytes) (batch : List BatchEntry)
    (out : TxOutcome) : ShardedNode × Except ClusterError Unit :=
  n.write txID (batch.map (fun b => (b, true))) out

def Migration.next (g : Migration) (s : MoveState) : MoveEvent → MoveState
  | .migrate r =>
    { s with node := (g.step s.node r s.pc).1, pc := (g.step s.node r s.pc).2 }
  | .client txID batch out =>
    match s.node.clientWrite txID batch out with
    | (n, .ok ()) => { s with node := n, values := applyAll (batch.map BatchEntry.update) s.values }
    | (n, .error _) => { s with node := n }

def MigrationPc.mayOverwrite (key : Bytes) : MigrationPc → Bool
  | .pause => true
  | .scanSource pass => decide (3 ≤ pass)
  | .scanTarget pass _ => decide (3 ≤ pass)
  | .copy pass batches => decide (3 ≤ pass) && decide (key ∈ batches.flatten.map BatchEntry.key)
  | _ => false

/-- A client's call that fails changes nothing, and none gives a key that the last pass may still
write another value than the source has. -/
def Migration.Allowed (g : Migration) (s : MoveState) : MoveEvent → Prop
  | .migrate _ => True
  | .client txID batch out =>
    (∀ n err, s.node.clientWrite txID batch out = (n, .error err) →
      contents n.shards = contents s.node.shards) ∧
    ∀ k v, g.moves k = true → s.pc.mayOverwrite k = true →
      lastOf (batch.map BatchEntry.update) k = some v → v = contents s.node.shards g.source k

variable {g : Migration} {n n₀ : ShardedNode} {m : Bytes → Option Bytes} {k : Bytes}

/-! ### The invariant -/

/-- The stages of a migration, by the plan that is in force. -/
inductive Stage
  | before
  | copying
  | switched
  | givenUp

def MigrationPc.stage : MigrationPc → Stage
  | .start => .before
  | .scanSource pass => if pass < 3 then .copying else .switched
  | .scanTarget pass _ => if pass < 3 then .copying else .switched
  | .copy pass _ => if pass < 3 then .copying else .switched
  | .switch => .copying
  | .pause | .scanDelete | .delete _ | .done => .switched
  | .revert | .stopped => .givenUp

/-- What a pass has in hand are the current values. -/
def Migration.Carries (g : Migration) (m : Bytes → Option Bytes) : MigrationPc → Prop
  | .scanTarget _ sourceItems =>
    ∃ s : Shard, sourceItems = s.scan [] [] ∧ ∀ k, g.moves k = true → s.lookup k = m k
  | .copy _ batches =>
    ∀ b ∈ batches.flatten, g.moves b.key = true ∧ b.update = (b.key, m b.key)
  | _ => True

/-- Where the current values of the keys that are moved are found. -/
def Migration.Holds (g : Migration) (s : MoveState) : Prop :=
  match s.pc.stage with
  | .before => s.node.loadRoutingPlan true = some g.plan ∧
    ∀ k, g.moves k = true → contents s.node.shards g.source k = s.values k
  | .copying => s.node.loadRoutingPlan true = some g.current ∧
    ∀ k, g.moves k = true → contents s.node.shards g.source k = s.values k
  | .switched => s.node.loadRoutingPlan true = some (g.owned g.target) ∧
    (∀ k, g.moves k = true →
      contents s.node.shards (if s.pc.mayOverwrite k then g.source else g.target) k = s.values k) ∧
    g.Carries s.values s.pc
  | .givenUp => True

variable {s : MoveState}

theorem next_acked (hw : s.node.clientWrite txID batch out = (n, .ok ())) :
    g.next s (.client txID batch out) =
      { s with node := n, values := applyAll (batch.map BatchEntry.update) s.values } := by
  rw [Migration.next, hw]

theorem next_refused (hw : s.node.clientWrite txID batch out = (n, .error err)) :
    g.next s (.client txID batch out) = { s with node := n } := by
  rw [Migration.next, hw]

theorem load_clientWrite {res : Except ClusterError Unit} {n' : ShardedNode}
    (hw : n.clientWrite txID batch out = (n', res)) :
    n'.loadRoutingPlan true = n.loadRoutingPlan true ∧ n'.shardCount = n.shardCount := by
  obtain ⟨shards, journal, hframe⟩ := write_frame n txID (batch.map (fun b => (b, true))) out
  have hn' : n' = { n with shards := shards, journal := journal } := by
    rw [← hframe]
    exact (congrArg Prod.fst hw).symm
  rw [hn']
  exact ⟨load_congr rfl rfl rfl true, rfl⟩

theorem values_of_mayOverwrite (hok : g.Allowed s (.client txID batch out)) (hk : g.moves k = true)
    (hmay : s.pc.mayOverwrite k = true) (hval : contents s.node.shards g.source k = s.values k) :
    applyAll (batch.map BatchEntry.update) s.values k = s.values k := by
  rw [applyAll_eq]
  cases hl : lastOf (batch.map BatchEntry.update) k with
  | none => rfl
  | some v => exact (hok.2 k v hk hmay hl).trans hval

theorem Migration.Carries.congr {m' : Bytes → Option Bytes} (hswitched : pc.stage = .switched)
    (h : g.Carries m pc) (hm : ∀ k, g.moves k = true → pc.mayOverwrite k = true → m' k = m k) :
    g.Carries m' pc := by
  cases pc with
  | scanTarget pass items =>
    obtain ⟨s, hs, hvals⟩ := h
    refine ⟨s, hs, fun k hk => ?_⟩
    rw [hm k hk ?_, hvals k hk]
    simp only [MigrationPc.stage] at hswitched
    split_ifs at hswitched with hpass
    exact decide_eq_true (not_lt.1 hpass)
  | copy pass batches =>
    intro b hb
    obtain ⟨hk, hupd⟩ := h b hb
    refine ⟨hk, ?_⟩
    rw [hm b.key hk ?_, hupd]
    simp only [MigrationPc.stage] at hswitched
    split_ifs at hswitched with hpass
    simp only [MigrationPc.mayOverwrite, Bool.and_eq_true, decide_eq_true_eq]
    exact ⟨not_lt.1 hpass, List.mem_map_of_mem hb⟩
  | _ => trivial

/-- **A client's write keeps the invariant.** -/
theorem Migration.Holds.acked (hready : g.Ready n₀) (hc : s.node.shardCount = n₀.shardCount)
    (h : g.Holds s) (hok : g.Allowed s (.client txID batch out))
    (hw : s.node.clientWrite txID batch out = (n, .ok ())) :
    g.Holds { s with node := n, values := applyAll (batch.map BatchEntry.update) s.values } := by
  have hkey : ∀ k r id, s.node.routeForKey true k = some r → contents n.shards id k =
      if id ∈ r.writes then applyAll (batch.map BatchEntry.update) (contents s.node.shards id) k
      else contents s.node.shards id k := fun k r id hr => contents_write_key hw hr id
  have hsource : ∀ k r, s.node.routeForKey true k = some r → r.primary = g.source →
      contents s.node.shards g.source k = s.values k → contents n.shards g.source k =
        applyAll (batch.map BatchEntry.update) s.values k := by
    intro k r hr hp heq
    rw [hkey k r _ hr, if_pos (hp ▸ primary_mem_writes r), applyAll_eq, applyAll_eq, heq]
  unfold Migration.Holds at h ⊢
  dsimp only at h ⊢
  rw [(load_clientWrite hw).1]
  cases hstage : s.pc.stage with
  | before =>
    rw [hstage] at h
    refine ⟨h.1, fun k hk => ?_⟩
    obtain ⟨r, hr, hp⟩ := route_source hready hc h.1 hk
    exact hsource k r hr hp (h.2 k hk)
  | copying =>
    rw [hstage] at h
    exact ⟨h.1, fun k hk => hsource k _ (route_current hready hc h.1 hk) rfl (h.2 k hk)⟩
  | switched =>
    rw [hstage] at h
    obtain ⟨hplan, hvals, hcarry⟩ := h
    have hrisk : ∀ k, g.moves k = true → s.pc.mayOverwrite k = true →
        applyAll (batch.map BatchEntry.update) s.values k = s.values k := by
      intro k hk hmay
      have hval := hvals k hk
      rw [if_pos hmay] at hval
      exact values_of_mayOverwrite hok hk hmay hval
    refine ⟨hplan, fun k hk => ?_, hcarry.congr hstage hrisk⟩
    have hval := hvals k hk
    have hroute := route_owned hready hc hplan hk
    by_cases hmay : s.pc.mayOverwrite k = true
    · rw [if_pos hmay] at hval ⊢
      rw [hrisk k hk hmay, hkey k _ _ hroute, if_neg ?_, hval]
      simpa [Route.writes] using hready.ne
    · rw [if_neg hmay] at hval ⊢
      rw [hkey k _ _ hroute, if_pos (by simp [Route.writes]), applyAll_eq, applyAll_eq, hval]
  | givenUp => trivial

theorem Migration.Holds.refused (h : g.Holds s) (hok : g.Allowed s (.client txID batch out))
    (hw : s.node.clientWrite txID batch out = (n, .error err)) : g.Holds { s with node := n } := by
  unfold Migration.Holds at h ⊢
  dsimp only
  rw [(load_clientWrite hw).1, hok.1 n err hw]
  exact h

/-! ### The steps of the migration -/

theorem writeDirectToShard_of_ne {id j : ℕ} (hne : j ≠ id) (batch : List BatchEntry)
    (r : StepResult) : contents (n.writeDirectToShard id batch r).shards j =
    contents n.shards j := by
  unfold ShardedNode.writeDirectToShard
  split_ifs
  · dsimp only
    rw [contents_writeShard, Function.update_of_ne hne]
  · rfl

theorem writeDirectToShard_load (id : ℕ) (batch : List BatchEntry) (r : StepResult) :
    (n.writeDirectToShard id batch r).loadRoutingPlan true = n.loadRoutingPlan true := by
  unfold ShardedNode.writeDirectToShard
  split_ifs
  · exact load_congr rfl rfl rfl true
  · rfl

theorem stage_copyFailed (pass : ℕ) : (MigrationPc.copyFailed pass).stage = .givenUp := by
  unfold MigrationPc.copyFailed
  split_ifs <;> rfl

theorem Migration.Holds.of_givenUp (h : s.pc.stage = .givenUp) : g.Holds s := by
  unfold Migration.Holds
  rw [h]
  trivial

theorem Migration.Holds.scanTarget {items : List (Bytes × Bytes)}
    (h : g.Holds ⟨n, .scanTarget pass items, m⟩) :
    g.Holds ⟨n, .copy pass (flushBatches (mapOrder r.order (g.puts items)
      (g.deletes items ((n.shards g.target).scan [] []))) []), m⟩ := by
  unfold Migration.Holds at h ⊢
  simp only [MigrationPc.stage] at h ⊢
  by_cases hpass : pass < 3
  · rw [if_pos hpass] at h ⊢
    exact h
  · rw [if_neg hpass] at h ⊢
    obtain ⟨hplan, hvals, s, rfl, hs⟩ := h
    have hall : ∀ k, g.moves k = true → contents n.shards g.source k = m k := by
      intro k hk
      have hmay : (MigrationPc.scanTarget pass (s.scan [] [])).mayOverwrite k = true :=
        decide_eq_true (not_lt.1 hpass)
      have hval := hvals k hk
      rwa [if_pos hmay] at hval
    refine ⟨hplan, fun k hk => ?_, fun b hb => ?_⟩
    · simp only [MigrationPc.mayOverwrite, flatten_flushBatches, List.nil_append]
      split_ifs with hmay
      · exact hall k hk
      · -- a key without an operation is on neither shard
        rw [Bool.and_eq_true, decide_eq_true_eq, decide_eq_true_eq] at hmay
        obtain ⟨h1, h2⟩ := copy_complete hk (fun hc => hmay ⟨not_lt.1 hpass, hc⟩)
        rw [← hs k hk, h1]
        exact h2
    · rw [flatten_flushBatches, List.nil_append] at hb
      obtain ⟨hk, hupd⟩ := copy_updates hb
      rw [hs b.key hk] at hupd
      exact ⟨hk, hupd⟩

theorem Migration.Holds.copy {batches : List (List BatchEntry)} (hne : g.source ≠ g.target)
    (hr : r.ok = true) (h : g.Holds ⟨n, .copy pass (batch :: batches), m⟩) :
    g.Holds ⟨n.writeDirectToShard g.target batch r, .copy pass batches, m⟩ := by
  unfold Migration.Holds at h ⊢
  simp only [MigrationPc.stage, writeDirectToShard_load] at h ⊢
  by_cases hpass : pass < 3
  · rw [if_pos hpass] at h ⊢
    simp only [writeDirectToShard_of_ne hne]
    exact h
  · rw [if_neg hpass] at h ⊢
    obtain ⟨hplan, hvals, hcarry⟩ := h
    refine ⟨hplan, fun k hk => ?_, fun b hb => hcarry b ?_⟩
    · have hval := hvals k hk
      simp only [MigrationPc.mayOverwrite, decide_eq_true (not_lt.1 hpass), Bool.true_and,
        decide_eq_true_eq] at hval ⊢
      have hmem : k ∈ (batch :: batches).flatten.map BatchEntry.key ↔
          k ∈ batch.map BatchEntry.key ∨ k ∈ batches.flatten.map BatchEntry.key := by
        rw [List.flatten_cons, List.map_append, List.mem_append]
      by_cases hlater : k ∈ batches.flatten.map BatchEntry.key
      · rw [if_pos (hmem.2 (Or.inr hlater))] at hval
        rw [if_pos hlater, writeDirectToShard_of_ne hne, hval]
      · rw [if_neg hlater]
        have hwrite : contents (n.writeDirectToShard g.target batch r).shards g.target =
            applyAll (batch.map BatchEntry.update) (contents n.shards g.target) := by
          unfold ShardedNode.writeDirectToShard
          rw [if_pos (by simp [hr])]
          dsimp only
          rw [contents_writeShard, Function.update_self]
        have hkeys : (batch.map BatchEntry.update).map Prod.fst = batch.map BatchEntry.key := by
          rw [List.map_map]
          rfl
        rw [hwrite]
        by_cases hnow : k ∈ batch.map BatchEntry.key
        · refine applyAll_values (fun u hu => ?_) (hkeys ▸ hnow) _
          obtain ⟨b, hb, rfl⟩ := List.mem_map.1 hu
          rw [(hcarry b (List.mem_append_left _ hb)).2]
        · rw [applyAll_of_not_mem (hkeys ▸ hnow)]
          rwa [if_neg (fun hc => (hmem.1 hc).elim hnow hlater)] at hval
    · rw [List.flatten_cons]
      exact List.mem_append_right _ hb

theorem step_shardCount (g : Migration) (n : ShardedNode) (r : StepResult) (pc : MigrationPc) :
    (g.step n r pc).1.shardCount = n.shardCount := by
  have hpersist : ∀ p ok, (n.persistRoutingPlan p ok).shardCount = n.shardCount := by
    intro p ok
    unfold ShardedNode.persistRoutingPlan
    split_ifs <;> rfl
  have hwrite : ∀ id b, (n.writeDirectToShard id b r).shardCount = n.shardCount := by
    intro id b
    unfold ShardedNode.writeDirectToShard
    split_ifs <;> rfl
  cases pc with
  | start =>
    rw [Migration.step]
    split_ifs
    · rfl
    · rfl
    · exact hpersist _ _
    · exact hpersist _ _
  | scanSource => rw [Migration.step]; split_ifs <;> rfl
  | scanTarget => rw [Migration.step]; split_ifs <;> rfl
  | copy pass batches =>
    cases batches with
    | nil => rfl
    | cons => exact hwrite _ _
  | switch => exact hpersist _ _
  | scanDelete => rw [Migration.step]; split_ifs <;> rfl
  | delete batches =>
    cases batches with
    | nil => rfl
    | cons => exact hwrite _ _
  | revert => exact hpersist _ _
  | _ => rfl

theorem Migration.Holds.copied (r : StepResult) (h : g.Holds ⟨n, .copy pass [], m⟩) :
    g.Holds ⟨n, .copied pass r, m⟩ := by
  unfold MigrationPc.copied
  by_cases hpass : pass < 3
  · have hcopying : (MigrationPc.copy pass []).stage = .copying := if_pos hpass
    rw [if_pos hpass]
    split_ifs with hr hnext
    · have hstage : (MigrationPc.scanSource (pass + 1)).stage = .copying := if_pos (by omega)
      unfold Migration.Holds at h ⊢
      rw [hstage]
      rwa [hcopying] at h
    · unfold Migration.Holds at h
      rwa [hcopying] at h
    · exact Migration.Holds.of_givenUp rfl
  · have hswitched : (MigrationPc.copy pass []).stage = .switched := if_neg hpass
    rw [if_neg hpass]
    unfold Migration.Holds at h
    rw [hswitched] at h
    refine ⟨h.1, fun k hk => ?_, trivial⟩
    have hval := h.2.1 k hk
    have hmay : (MigrationPc.copy pass []).mayOverwrite k = false := by
      simp [MigrationPc.mayOverwrite]
    rwa [hmay] at hval

theorem Migration.Holds.failed (hready : g.Ready n₀) (hr : r.ok = false) (h : g.Holds ⟨n, pc, m⟩) :
    g.Holds ⟨(g.step n r pc).1, (g.step n r pc).2, m⟩ := by
  have hstop : ∀ n', g.Holds ⟨n', .stopped, m⟩ := fun n' => Migration.Holds.of_givenUp rfl
  have hfail : ∀ n' pass, g.Holds ⟨n', .copyFailed pass, m⟩ :=
    fun n' pass => Migration.Holds.of_givenUp (stage_copyFailed pass)
  have hr' : ¬ r.ok = true := by simp [hr]
  cases pc with
  | start =>
    rw [Migration.step, if_neg (not_le.2 hready.slot_lt), if_neg hready.ne, if_neg hr']
    exact hstop _
  | scanSource pass =>
    rw [Migration.step, if_pos (Or.inr (Or.inr hr))]
    exact hfail _ pass
  | scanTarget pass items =>
    rw [Migration.step, if_neg hr']
    exact hfail _ pass
  | copy pass batches =>
    cases batches with
    | nil => exact h.copied r
    | cons batch batches =>
      rw [Migration.step, if_neg hr']
      exact hfail _ pass
  | switch =>
    rw [Migration.step, if_neg hr']
    exact Migration.Holds.of_givenUp rfl
  | pause =>
    rw [Migration.step, if_neg hr']
    exact hstop _
  | scanDelete =>
    rw [Migration.step, if_pos (Or.inr hr)]
    exact hstop _
  | delete batches =>
    cases batches with
    | nil => exact h
    | cons batch batches =>
      rw [Migration.step, if_neg hr']
      exact hstop _
  | revert => exact hstop _
  | stopped => exact hstop _
  | done => exact h

/-- **Every step of the migration keeps the invariant.** -/
theorem Migration.Holds.step {pc : MigrationPc} (hready : g.Ready n₀)
    (hc : n.shardCount = n₀.shardCount) (r : StepResult) (h : g.Holds ⟨n, pc, m⟩) :
    g.Holds ⟨(g.step n r pc).1, (g.step n r pc).2, m⟩ := by
  have hpos : 0 < n.shardCount := hc ▸ hready.pos
  cases hr : r.ok with
  | false => exact h.failed hready hr
  | true =>
    cases pc with
    | start =>
      rw [Migration.step, if_neg (not_le.2 hready.slot_lt), if_neg hready.ne, hr]
      exact ⟨load_persisted hpos (hc ▸ hready.current_fits), h.2⟩
    | scanSource pass =>
      have hs := hready.source_lt
      have ht := hready.target_lt
      rw [Migration.step, if_neg (by rw [hr]; simp; omega)]
      unfold Migration.Holds at h ⊢
      simp only [MigrationPc.stage] at h ⊢
      by_cases hpass : pass < 3
      · rw [if_pos hpass] at h ⊢
        exact h
      · rw [if_neg hpass] at h ⊢
        refine ⟨h.1, h.2.1, n.shards g.source, rfl, fun k hk => ?_⟩
        have hval := h.2.1 k hk
        have hmay : (MigrationPc.scanSource pass).mayOverwrite k = true :=
          decide_eq_true (not_lt.1 hpass)
        rwa [if_pos hmay] at hval
    | scanTarget pass items =>
      rw [Migration.step, if_pos hr]
      exact h.scanTarget
    | copy pass batches =>
      cases batches with
      | nil => exact h.copied r
      | cons batch batches =>
        rw [Migration.step, if_pos hr]
        exact h.copy hready.ne hr
    | switch =>
      rw [Migration.step, if_pos hr, hr]
      exact ⟨load_persisted hpos (hc ▸ hready.owned_fits hready.target_lt), h.2, trivial⟩
    | pause =>
      rw [Migration.step, if_pos hr]
      exact h
    | scanDelete =>
      have hs := hready.source_lt
      rw [Migration.step, if_neg (by rw [hr]; simp; omega)]
      exact h
    | delete batches =>
      cases batches with
      | nil => exact h
      | cons batch batches =>
        rw [Migration.step, if_pos hr]
        unfold Migration.Holds at h ⊢
        simp only [MigrationPc.stage, writeDirectToShard_load] at h ⊢
        refine ⟨h.1, fun k hk => ?_, trivial⟩
        rw [← h.2.1 k hk]
        exact congrFun (writeDirectToShard_of_ne hready.ne.symm batch r) k
    | revert => exact Migration.Holds.of_givenUp rfl
    | stopped => exact h
    | done => exact h

def Migration.begin (g : Migration) (n : ShardedNode) : MoveState :=
  ⟨n, .start, contents n.shards g.source⟩

/-- **When a migration loses no write.** In every run in which the clients' calls are allowed, once
the migration is done each key that it moves has the value last acknowledged to a client, or is not
found if it was never written or last deleted. -/
theorem migration_keeps_writes {g : Migration} {n : ShardedNode} {events : List MoveEvent}
    (hready : g.Ready n) (hrun : Along g.next g.Allowed (g.begin n) events)
    (hdone : (events.foldl g.next (g.begin n)).pc = .done) {k : Bytes} (hk : g.moves k = true) :
    (events.foldl g.next (g.begin n)).node.get true k =
      match (events.foldl g.next (g.begin n)).values k with
      | none => .error .notFound
      | some v => .ok v := by
  have hinv : (events.foldl g.next (g.begin n)).node.shardCount = n.shardCount ∧
      g.Holds (events.foldl g.next (g.begin n)) := by
    refine hrun.invariant (fun s => s.node.shardCount = n.shardCount ∧ g.Holds s)
      ⟨rfl, hready.loaded, fun k _ => rfl⟩ ?_
    rintro s e ⟨hc, hs⟩ he
    cases e with
    | migrate r => exact ⟨(step_shardCount g s.node r s.pc).trans hc, hs.step hready hc r⟩
    | client txID batch out =>
      cases hw : s.node.clientWrite txID batch out with
      | mk n' res =>
        have hc' := (load_clientWrite hw).2.trans hc
        cases res with
        | ok =>
          rw [next_acked hw]
          exact ⟨hc', hs.acked hready hc he hw⟩
        | error err =>
          rw [next_refused hw]
          exact ⟨hc', hs.refused he hw⟩
  obtain ⟨hc, hholds⟩ := hinv
  generalize events.foldl g.next (g.begin n) = s at *
  unfold Migration.Holds at hholds
  rw [hdone] at hholds
  obtain ⟨hplan, hvals, -⟩ := hholds
  have hres : isReservedClusterKey k = false := by
    rw [Migration.moves, Bool.and_eq_true, Bool.not_eq_true'] at hk
    exact hk.1
  unfold ShardedNode.get
  rw [if_neg (by simp [hres]), route_owned hready hc hplan hk]
  rw [← hvals k hk]
  rfl

/-- A client's call that is acknowledged and stays away from the keys that may be overwritten. -/
def MoveState.Quiet (s : MoveState) : MoveEvent → Prop
  | .migrate _ => True
  | .client txID batch out => (s.node.clientWrite txID batch out).2 = .ok () ∧
    ∀ k ∈ batch.map BatchEntry.key, s.pc.mayOverwrite k = false

instance decidableQuiet (s : MoveState) : (e : MoveEvent) → Decidable (s.Quiet e)
  | .migrate _ => isTrue trivial
  | .client txID batch out =>
    inferInstanceAs (Decidable ((s.node.clientWrite txID batch out).2 = .ok () ∧
      ∀ k ∈ batch.map BatchEntry.key, s.pc.mayOverwrite k = false))

theorem MoveState.Quiet.allowed {e : MoveEvent} (h : s.Quiet e) : g.Allowed s e := by
  cases e with
  | migrate r => trivial
  | client txID batch out =>
    refine ⟨fun n' err hw => ?_, fun k v _ hmay hl => ?_⟩
    · have hok := h.1
      rw [hw] at hok
      cases hok
    · have hmem : k ∈ batch.map BatchEntry.key := by
        obtain ⟨b, hb, heq⟩ := List.mem_map.1 (lastOf_mem hl)
        exact List.mem_map.2 ⟨b, hb, congrArg Prod.fst heq⟩
      rw [h.2 k hmem] at hmay
      cases hmay

def twoShards : ShardedNode := { shardCount := 2, routingSlots := 2, shards := fun _ => ∅ }

def sampleMove : Migration := ⟨newRoutingPlan 2 2, 0, 0, 1⟩

theorem sampleMove_ready : sampleMove.Ready twoShards :=
  ⟨by decide +kernel, by decide +kernel, by decide, by decide⟩

/-- A key is written before and during the migration and again when it is done. -/
def quietRun : List MoveEvent :=
  [.client [7] [⟨[1], [10], false⟩] {}] ++ List.replicate 6 (.migrate {}) ++
    [.client [8] [⟨[1], [20], false⟩] {}] ++ List.replicate 16 (.migrate {}) ++
    [.client [9] [⟨[1], [30], false⟩] {}]

theorem quietRun_keeps :
    (quietRun.foldl sampleMove.next (sampleMove.begin twoShards)).node.get true [1] =
      match (quietRun.foldl sampleMove.next (sampleMove.begin twoShards)).values [1] with
      | none => .error .notFound
      | some v => .ok v :=
  migration_keeps_writes sampleMove_ready
    (Along.mono (fun _ _ h => MoveState.Quiet.allowed h)
      (by decide +kernel : Along sampleMove.next MoveState.Quiet
        (sampleMove.begin twoShards) quietRun))
    (by decide +kernel) (by decide +kernel)

def lateRun : List MoveEvent :=
  [.client [7] [⟨[1], [10], false⟩] {}] ++ List.replicate 14 (.migrate {}) ++
    [.client [8] [⟨[1], [20], false⟩] {}] ++ List.replicate 8 (.migrate {})

/-- The acknowledged write is overwritten by the last pass. -/
theorem lateRun_loses :
    (lateRun.foldl sampleMove.next (sampleMove.begin twoShards)).pc = .done ∧
    sampleMove.moves [1] = true ∧
    (lateRun.foldl sampleMove.next (sampleMove.begin twoShards)).values [1] = some [20] ∧
    (lateRun.foldl sampleMove.next (sampleMove.begin twoShards)).node.get true [1] = .ok [10] := by
  decide +kernel

end LsmTree
