import LsmTree.Cluster.Sharded

/-!
# Several nodes over the same shards

Every node coordinates its own cross-shard batches, with a lock and a journal of its own, while the
shards are shared.  Here `writeCrossShardBatch` and `recoverTransactions` are cut into steps, one
for each read of an old value, each write of a shard and each change of the journal, so that the
nodes can interleave and a node can crash between any two of them.
-/

namespace LsmTree

open KeyValue

/-- The shards and keys of a transaction in the order in which their old values are read. -/
def ShardBatches.keys (batches : ShardBatches) : List (ℕ × Bytes) :=
  batches.list.flatMap (fun x => (firstKeys [] x.2).map (fun k => (x.1, k)))

def TxJournalEntry.keys (r : TxJournalEntry) : List (ℕ × Bytes) :=
  r.preImages.map (fun i => (i.shard, i.key))

inductive CoordinatorPc
  /-- It waits for a call. -/
  | idle
  /-- It reads the old values. -/
  | read (txID : Bytes) (batches : ShardBatches) (todo : List (ℕ × Bytes))
    (images : List TxPreImage)
  /-- It writes the shards; the ones it has written come last first. -/
  | write (r : TxJournalEntry) (todo : List (ℕ × List BatchEntry)) (applied : List ℕ)
  /-- It takes its writes back. -/
  | undo (r : TxJournalEntry) (ids : List ℕ)
  /-- It removes the journal files, and then acknowledges the batch or returns an error. -/
  | removePending (r : TxJournalEntry) (acknowledge : Bool)
  | removeCommitted (r : TxJournalEntry) (acknowledge : Bool)
  /-- It is not running. -/
  | down
  /-- It undoes the records it found, the first of them on the given shards. -/
  | recover (rs : List TxJournalEntry) (ids : List ℕ)

structure Coordinator where
  pc : CoordinatorPc := .idle
  journal : TxJournalStore := ∅

/-- What may happen to a node: a call with a batch for several shards or for one, the next step with
its result, a crash, and a new start. -/
inductive CoordinatorEvent
  | begin (digits : Bytes) (batches : ShardBatches)
  | single (id : ℕ) (batch : List BatchEntry)
  | step (ok : Bool)
  | crash
  | restart

/-- What others can see of it: a transaction begins, a batch is acknowledged, or a record is undone
on a shard. -/
inductive CoordinatorEffect
  | none
  | began (txID : Bytes)
  | acknowledged (keys : List (ℕ × Bytes))
  | undone (r : TxJournalEntry) (id : ℕ)

/-- Begin with the first of the records that are left. -/
def CoordinatorPc.recoverNext (rs : List TxJournalEntry) : CoordinatorPc :=
  match rs with
  | [] => .recover [] []
  | r :: rs => .recover (r :: rs) r.shardIDs.reverse

def Coordinator.next (c : Coordinator) (shards : ℕ → Shard) (ok : Bool) :
    (ℕ → Shard) × Coordinator × CoordinatorEffect :=
  match c.pc with
  | .idle | .down => (shards, c, .none)
  | .read txID batches ((id, key) :: todo) images =>
    if ok then (shards,
      { c with pc := .read txID batches todo (images ++ [preImage shards id key]) }, .none)
    else (shards, { c with pc := .idle }, .none)
  | .read txID batches [] images =>
    let r : TxJournalEntry := { id := txID, preImages := images }
    if ok then (shards, { pc := .write r batches.list [], journal := c.journal.save r }, .none)
    else (shards, { c with pc := .idle }, .none)
  | .write r ((id, batch) :: todo) applied =>
    if ok then (writeShard shards id batch, { c with pc := .write r todo (id :: applied) }, .none)
    else (shards, { c with pc := .undo r applied }, .none)
  | .write r [] _ =>
    if ok then
      (shards, { pc := .removePending r true, journal :=
        c.journal.save { r with committed := true } },
        .none)
    else (shards, { c with pc := .removePending r false }, .none)
  | .undo r (id :: ids) =>
    if r.undoBatch id = [] then (shards, { c with pc := .undo r ids }, .none)
    else if ok then (writeShard shards id (r.undoBatch id), { c with pc := .undo r ids },
      .undone r id)
    else (shards, { c with pc := .removePending r false }, .none)
  | .undo r [] => (shards, { c with pc := .removePending r false }, .none)
  | .removePending r ack =>
    if ok then
      (shards, { pc := .removeCommitted r ack, journal := c.journal.erase (.pending r.id) }, .none)
    else (shards, { c with pc := .idle }, .none)
  | .removeCommitted r ack =>
    if ok then
      (shards, { pc := .idle, journal := c.journal.erase (.committed r.id) },
        if ack then .acknowledged r.keys else .none)
    else (shards, { c with pc := .idle }, .none)
  | .recover [] _ => (shards, { c with pc := .idle }, .none)
  | .recover (r :: rs) ids =>
    if r.committed then
      (shards, if ok then { pc := .recoverNext rs, journal := c.journal.delete r.id }
        else { c with pc := .down }, .none)
    else
      match ids with
      | [] =>
        (shards, if ok then { pc := .recoverNext rs, journal := c.journal.delete r.id }
          else { c with pc := .down }, .none)
      | id :: ids =>
        if r.undoBatch id = [] then (shards, { c with pc := .recover (r :: rs) ids }, .none)
        else if ok then
          (writeShard shards id (r.undoBatch id), { c with pc := .recover (r :: rs) ids },
            .undone r id)
        else (shards, { c with pc := .down }, .none)

def Coordinator.handle (c : Coordinator) (shards : ℕ → Shard) :
    CoordinatorEvent → (ℕ → Shard) × Coordinator × CoordinatorEffect
  | .begin digits batches =>
    match c.pc with
    | .idle =>
      (shards, { c with pc := .read (newTxID digits) batches batches.keys [] },
        .began (newTxID digits))
    | _ => (shards, c, .none)
  | .single id batch =>
    match c.pc with
    | .idle =>
      (writeShard shards id batch, c, .acknowledged (batch.map (fun b => (id, b.key))))
    | _ => (shards, c, .none)
  | .step ok => c.next shards ok
  | .crash => (shards, { c with pc := .down }, .none)
  | .restart =>
    match c.pc with
    | .down =>
      match c.journal.loadAll with
      | (s, none) => (shards, { c with journal := s }, .none)
      | (s, some rs) => (shards, { pc := .recoverNext rs, journal := s }, .none)
    | _ => (shards, c, .none)

end LsmTree
