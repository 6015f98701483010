import LsmTree.Cluster.Sharded

/-!
# Moving a slot to another shard (`migrateSlot` in `internal/cluster/sharded.go`)

The slot is marked as migrating, its keys are copied in three passes, the plan is switched to the
target, and after a last pass the keys are deleted on the source.  Each scan, each batch and each
change of the plan is a step of its own, so that writes of clients can come in between.
-/

namespace LsmTree

open KeyValue

def batchSize : ℕ := 128

/-- Cut operations into batches: a batch goes out as soon as it is full, and the last one at the
end. -/
def flushBatches : List BatchEntry → List BatchEntry → List (List BatchEntry)
  | [], batch => if batch = [] then [] else [batch]
  | e :: es, batch =>
    if batchSize ≤ (batch ++ [e]).length then (batch ++ [e]) :: flushBatches es []
    else flushBatches es (batch ++ [e])

/-- One call of `migrateSlot`, with the plan it was given. -/
structure Migration where
  plan : RoutingPlan
  slot : ℕ
  source : ℕ
  target : ℕ
  deriving DecidableEq, Repr

def Migration.moves (g : Migration) (key : Bytes) : Bool :=
  !isReservedClusterKey key && decide (g.plan.slotForKey key = g.slot)

def Migration.current (g : Migration) : RoutingPlan :=
  g.plan.setSlot g.slot { owner := g.source, migrating := true, target := g.target }

def Migration.owned (g : Migration) (owner : ℕ) : RoutingPlan :=
  g.current.setSlot g.slot { owner := owner }

def Migration.puts (g : Migration) (sourceItems : List (Bytes × Bytes)) : List BatchEntry :=
  (sourceItems.filter (fun x => g.moves x.1)).map (fun x => ⟨x.1, x.2, false⟩)

def Migration.deletes (g : Migration) (sourceItems targetItems : List (Bytes × Bytes)) :
    List BatchEntry :=
  (targetItems.filter (fun x => g.moves x.1 && !decide (x.1 ∈ sourceItems.map Prod.fst))).map
    (fun x => ⟨x.1, [], true⟩)

/-- The operations in the order in which the maps are gone through, which can be any. -/
def mapOrder (order puts deletes : List BatchEntry) : List BatchEntry :=
  if (order.take puts.length).Perm puts ∧ (order.drop puts.length).Perm deletes then order
  else puts ++ deletes

/-- Where a migration stands.  Pass 3 is the one after the switch. -/
inductive MigrationPc
  | start
  | scanSource (pass : ℕ)
  | scanTarget (pass : ℕ) (sourceItems : List (Bytes × Bytes))
  | copy (pass : ℕ) (batches : List (List BatchEntry))
  | switch
  | pause
  | scanDelete
  | delete (batches : List (List BatchEntry))
  | revert
  | stopped
  | done
  deriving DecidableEq, Repr

/-- How a step goes: whether it succeeds, whether a write that fails is carried out all the same,
and the order in which maps are gone through. -/
structure StepResult where
  ok : Bool := true
  written : Bool := false
  order : List BatchEntry := []

/-- Where `migrateSlot` goes on after an error of `copySlotKeys`. -/
def MigrationPc.copyFailed (pass : ℕ) : MigrationPc := if pass < 3 then .revert else .stopped

/-- Where `migrateSlot` goes on after `copySlotKeys`; between the first passes it sleeps, and the
sleep may be cut short. -/
def MigrationPc.copied (pass : ℕ) (r : StepResult) : MigrationPc :=
  if pass < 3 then
    if r.ok then (if pass < 2 then .scanSource (pass + 1) else .switch) else .stopped
  else .scanDelete

/-- Write a batch to a shard (`writeDirectToShard`). -/
def ShardedNode.writeDirectToShard (n : ShardedNode) (id : ℕ) (batch : List BatchEntry)
    (r : StepResult) : ShardedNode :=
  if r.ok || r.written then { n with shards := writeShard n.shards id batch } else n

/-- One step of `migrateSlot`. -/
def Migration.step (g : Migration) (n : ShardedNode) (r : StepResult) :
    MigrationPc → ShardedNode × MigrationPc
  | .start =>
    if g.plan.slots.length ≤ g.slot then (n, .stopped)
    else if g.source = g.target then (n, .done)
    else (n.persistRoutingPlan g.current (r.ok || r.written),
      if r.ok then .scanSource 0 else .stopped)
  | .scanSource pass =>
    if n.shardCount ≤ g.source ∨ n.shardCount ≤ g.target ∨ r.ok = false then (n, .copyFailed pass)
    else (n, .scanTarget pass ((n.shards g.source).scan [] []))
  | .scanTarget pass sourceItems =>
    if r.ok then
      let targetItems := (n.shards g.target).scan [] []
      (n, .copy pass (flushBatches
        (mapOrder r.order (g.puts sourceItems) (g.deletes sourceItems targetItems)) []))
    else (n, .copyFailed pass)
  | .copy pass [] => (n, .copied pass r)
  | .copy pass (batch :: batches) =>
    (n.writeDirectToShard g.target batch r, if r.ok then .copy pass batches else .copyFailed pass)
  | .switch =>
    (n.persistRoutingPlan (g.owned g.target) (r.ok || r.written),
      if r.ok then .pause else .revert)
  | .pause => (n, if r.ok then .scanSource 3 else .stopped)
  | .scanDelete =>
    if n.shardCount ≤ g.source ∨ r.ok = false then (n, .stopped)
    else (n, .delete (flushBatches
      ((((n.shards g.source).scan [] []).filter (fun x => g.moves x.1)).map
        (fun x => ⟨x.1, [], true⟩)) []))
  | .delete [] => (n, .done)
  | .delete (batch :: batches) =>
    (n.writeDirectToShard g.source batch r, if r.ok then .delete batches else .stopped)
  | .revert => (n.persistRoutingPlan (g.owned g.source) (r.ok || r.written), .stopped)
  | .stopped => (n, .stopped)
  | .done => (n, .done)

end LsmTree
