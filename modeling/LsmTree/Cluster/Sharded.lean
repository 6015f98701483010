import LsmTree.Lib.KeyValue
import LsmTree.Engine.Write
import LsmTree.Cluster.Routing
import LsmTree.Cluster.Journal

/-!
# The sharded node (`internal/cluster/sharded.go`)

A node over several shards.  A shard is a key-value map with atomic batches, which is what one
engine or one replica group provides.  Reads ask the shard that owns the key's slot, and scans merge
all shards.  A batch that touches several shards reads the old values, notes them in a journal,
writes shard by shard, and undoes its writes if one of them fails.

The routing plan lives on shard 0 under a reserved key, which clients can neither write nor see;
here it is a field of its own, and `write_reserved` says that no write touches such a key.  Reading
the plan may fail (`up`).
-/

namespace LsmTree

open KeyValue

variable {id : ℕ} {b : BatchEntry} {l : List (ℕ × List BatchEntry)}

abbrev Shard := Store Bytes Bytes

def BatchEntry.update (b : BatchEntry) : Bytes × Option Bytes :=
  (b.key, if b.delete then none else some b.value)

def Shard.writeBatch (s : Shard) (batch : List BatchEntry) : Shard :=
  s.write (batch.map BatchEntry.update)

/-- The live pairs with keys in `[start, stop)`, in order; empty bounds are unbounded. -/
def Shard.scan (s : Shard) (start stop : Bytes) : List (Bytes × Bytes) :=
  (s.items.filter
    (fun x => decide (start ≤ x.1) && (decide (stop = []) || decide (x.1 < stop)))).insertionSort
    (fun a b => a.1 ≤ b.1)

inductive ClusterError
  | noShards
  | reserved
  | notFound
  | read
  | journal
  | write
  | rollback
  deriving DecidableEq, Repr

structure ShardedNode where
  shardCount : ℕ
  routingSlots : ℤ := 0
  shards : ℕ → Shard
  plan : Option RoutingPlan := none
  journal : TxJournalStore := ∅

/-! ### Routing -/

def ShardedNode.routingSlotCount (n : ShardedNode) : ℤ :=
  if 0 < n.routingSlots then n.routingSlots else defaultRoutingSlots

def ShardedNode.loadRoutingPlan (n : ShardedNode) (up : Bool) : Option RoutingPlan :=
  if n.shardCount = 0 then some (newRoutingPlan 1 n.routingSlotCount)
  else if up then
    match n.plan with
    | none => some (newRoutingPlan n.shardCount n.routingSlotCount)
    | some p => p.load.map (RoutingPlan.normalize n.shardCount)
  else none

def ShardedNode.legacyShardForKey (n : ShardedNode) (key : Bytes) : ℕ :=
  (fnv32a key).toNat % n.shardCount

/-- Where a key is read and written, and where it is written as well. -/
structure Route where
  primary : ℕ
  secondary : ℕ
  migrating : Bool
  deriving DecidableEq, Repr

def shardOr (n : ShardedNode) (shard : ℤ) (other : ℕ) : ℕ :=
  if shard < 0 ∨ (n.shardCount : ℤ) ≤ shard then other else shard.toNat

/-- The route of a key; there is none if there are no shards. -/
def ShardedNode.routeForKey (n : ShardedNode) (up : Bool) (key : Bytes) : Option Route :=
  if n.shardCount = 0 then none
  else
    match n.loadRoutingPlan up with
    | none => some ⟨n.legacyShardForKey key, n.legacyShardForKey key, false⟩
    | some plan =>
      let (owner, target, migrating) := plan.routeForKey key
      let primary := shardOr n owner (n.legacyShardForKey key)
      some ⟨primary, shardOr n target primary, migrating⟩

/-- Write the plan to shard 0; the result says whether that succeeds. -/
def ShardedNode.persistRoutingPlan (n : ShardedNode) (plan : RoutingPlan) (ok : Bool) :
    ShardedNode :=
  if ok then { n with plan := some (plan.normalize n.shardCount) } else n

/-! ### Reads -/

/-- `GetWithConsistency`. -/
def ShardedNode.get (n : ShardedNode) (up : Bool) (key : Bytes) : Except ClusterError Bytes :=
  if isReservedClusterKey key then .error .notFound
  else
    match n.routeForKey up key with
    | none => .error .noShards
    | some r =>
      match (n.shards r.primary).lookup key with
      | none => .error .notFound
      | some v => .ok v

/-- The values collected by a scan, each with the shard it is from. -/
abbrev Merged := Store Bytes (Bytes × ℕ)

/-- Take up an item: of several copies the owner's is kept, else the first. -/
def mergeItem (plan : RoutingPlan) (shardID : ℕ) (all : Merged) (item : Bytes × Bytes) : Merged :=
  if isReservedClusterKey item.1 then all
  else
    let primary := (plan.routeForKey item.1).1
    match all.lookup item.1 with
    | some existing =>
      if (shardID : ℤ) ≠ primary ∧ (existing.2 : ℤ) = primary then all
      else if (shardID : ℤ) ≠ primary ∧ (existing.2 : ℤ) ≠ primary then all
      else all.insert item.1 (item.2, shardID)
    | none => all.insert item.1 (item.2, shardID)

/-- The pairs of all shards with keys in `[start, stop)`, one for each key. -/
def ShardedNode.mergedItems (n : ShardedNode) (plan : RoutingPlan) (start stop : Bytes) : Merged :=
  (List.range n.shardCount).foldl
    (fun all shardID => ((n.shards shardID).scan start stop).foldl (mergeItem plan shardID) all) ∅

/-- `ScanWithConsistency`. -/
def ShardedNode.scan (n : ShardedNode) (up : Bool) (start stop : Bytes) (limit : ℤ) :
    List (Bytes × Bytes) :=
  let plan := (n.loadRoutingPlan up).getD (newRoutingPlan n.shardCount n.routingSlotCount)
  let results := ((n.mergedItems plan start stop).items.map (fun x => (x.1, x.2.1))).insertionSort
    (fun a b => a.1 ≤ b.1)
  if 0 < limit ∧ limit < results.length then results.take limit.toNat else results

/-! ### Batches by shard -/

/-- Add an operation to the batch of a shard; the shards are kept in order. -/
def addEntry (id : ℕ) (b : BatchEntry) :
    List (ℕ × List BatchEntry) → List (ℕ × List BatchEntry)
  | [] => [(id, [b])]
  | (j, bs) :: rest =>
    if id < j then (id, [b]) :: (j, bs) :: rest
    else if id = j then (j, bs ++ [b]) :: rest
    else (j, bs) :: addEntry id b rest

/-- A batch for each of some shards, in the order of the shards. -/
structure ShardBatches where
  list : List (ℕ × List BatchEntry)
  sorted : list.Pairwise (fun a b => a.1 < b.1)

theorem addEntry_ids {j : ℕ} (h : j ∈ (addEntry id b l).map Prod.fst) :
    j = id ∨ j ∈ l.map Prod.fst := by
  induction l with
  | nil => simpa [addEntry] using h
  | cons x l ih =>
    obtain ⟨i, bs⟩ := x
    rw [addEntry] at h
    split_ifs at h with h1 h2
    · simpa using h
    · exact Or.inr (by simpa using h)
    · rw [List.map_cons, List.mem_cons] at h
      rcases h with rfl | h
      · exact Or.inr (by simp)
      · rcases ih h with h | h
        · exact Or.inl h
        · exact Or.inr (by simp [h])

theorem pairwise_addEntry (h : l.Pairwise (fun a b => a.1 < b.1)) :
    (addEntry id b l).Pairwise (fun a b => a.1 < b.1) := by
  induction l with
  | nil => exact List.pairwise_singleton _ _
  | cons x l ih =>
    obtain ⟨j, bs⟩ := x
    obtain ⟨hx, hl⟩ := List.pairwise_cons.1 h
    rw [addEntry]
    split_ifs with h1 h2
    · refine List.pairwise_cons.2 ⟨fun y hy => ?_, h⟩
      rcases List.mem_cons.1 hy with rfl | hy
      · exact h1
      · exact h1.trans (hx y hy)
    · exact List.pairwise_cons.2 ⟨hx, hl⟩
    · refine List.pairwise_cons.2 ⟨fun y hy => ?_, ih hl⟩
      rcases addEntry_ids (List.mem_map_of_mem (f := Prod.fst) hy) with hid | hid
      · change j < y.1
        omega
      · obtain ⟨z, hz, hid⟩ := List.mem_map.1 hid
        exact hid ▸ hx z hz

def ShardBatches.add (s : ShardBatches) (id : ℕ) (b : BatchEntry) : ShardBatches :=
  ⟨addEntry id b s.list, pairwise_addEntry s.sorted⟩

/-- Sort the operations of a batch by shard.  The plan is read for each operation anew. -/
def ShardedNode.shardBatches (n : ShardedNode) : List (BatchEntry × Bool) → ShardBatches →
    Except ClusterError ShardBatches
  | [], acc => .ok acc
  | (b, up) :: bs, acc =>
    if isReservedClusterKey b.key then .error .reserved
    else
      match n.routeForKey up b.key with
      | none => .error .noShards
      | some r =>
        let acc := acc.add r.primary b
        n.shardBatches bs
          (if r.migrating ∧ r.secondary ≠ r.primary then acc.add r.secondary b else acc)

/-! ### Cross-shard transactions -/

/-- `newTxID`: the text "tx-", random digits and a counter. -/
def newTxID (digits : Bytes) : Bytes := [116, 120, 45] ++ digits

def writeShard (shards : ℕ → Shard) (id : ℕ) (batch : List BatchEntry) : ℕ → Shard :=
  Function.update shards id ((shards id).writeBatch batch)

def firstKeys : List Bytes → List BatchEntry → List Bytes
  | _, [] => []
  | seen, b :: bs =>
    if b.key ∈ seen then firstKeys seen bs else b.key :: firstKeys (b.key :: seen) bs

def preImage (shards : ℕ → Shard) (id : ℕ) (key : Bytes) : TxPreImage :=
  match (shards id).lookup key with
  | none => { shard := id, key := key, present := false }
  | some v => { shard := id, key := key, present := true, value := v }

/-- `prepareCrossShardTransaction`: the old values of all keys. -/
def prepareCrossShardTransaction (shards : ℕ → Shard) (txID : Bytes) (batches : ShardBatches) :
    TxJournalEntry :=
  { id := txID
    preImages := batches.list.flatMap
      (fun x => (firstKeys [] x.2).map (preImage shards x.1)) }

def TxPreImage.restore (i : TxPreImage) : BatchEntry :=
  if i.present then ⟨i.key, i.value, false⟩ else ⟨i.key, [], true⟩

def TxJournalEntry.undoBatch (r : TxJournalEntry) (shard : ℕ) : List BatchEntry :=
  (r.preImages.reverse.filter (fun i => i.shard = shard)).map TxPreImage.restore

/-- `rollbackCrossShardTransaction` on the given shards in turn, up to the first write that
fails. -/
def rollbackCrossShardTransaction (undo : ℕ → Bool) (r : TxJournalEntry) :
    List ℕ → (ℕ → Shard) → (ℕ → Shard) × Bool
  | [], shards => (shards, true)
  | id :: ids, shards =>
    if r.undoBatch id = [] then rollbackCrossShardTransaction undo r ids shards
    else if undo id then
      rollbackCrossShardTransaction undo r ids (writeShard shards id (r.undoBatch id))
    else (shards, false)

/-- `applyCrossShardTransaction`: write shard by shard; if one of the writes fails, undo the ones
before it, last one first. -/
def applyCrossShardTransaction (write undo : ℕ → Bool) (r : TxJournalEntry) :
    List (ℕ × List BatchEntry) → List ℕ → (ℕ → Shard) → (ℕ → Shard) × Except ClusterError Unit
  | [], _, shards => (shards, .ok ())
  | (id, batch) :: rest, applied, shards =>
    if write id then
      applyCrossShardTransaction write undo r rest (id :: applied) (writeShard shards id batch)
    else
      let (shards, ok) := rollbackCrossShardTransaction undo r applied shards
      (shards, .error (if ok then .write else .rollback))

/-- Which steps of a transaction work: reading the old values, writing and undoing the writes of
each shard, and writing and removing the journal files. -/
structure TxOutcome where
  read : Bool := true
  savePending : Bool := true
  write : ℕ → Bool := fun _ => true
  undo : ℕ → Bool := fun _ => true
  saveCommitted : Bool := true
  removePending : Bool := true
  removeCommitted : Bool := true

/-- `txJournal.Delete`, which stops at the first file it cannot remove. -/
def TxJournalStore.tryDelete (s : TxJournalStore) (id : Bytes) (pending committed : Bool) :
    TxJournalStore × Bool :=
  if pending then
    if committed then (s.delete id, true) else (s.erase (.pending id), false)
  else (s, false)

def ShardedNode.writeCrossShardBatch (n : ShardedNode) (txID : Bytes) (batches : ShardBatches)
    (out : TxOutcome) : ShardedNode × Except ClusterError Unit :=
  if out.read = false then (n, .error .read)
  else
    let record := prepareCrossShardTransaction n.shards txID batches
    if out.savePending = false then (n, .error .journal)
    else
      let journal := n.journal.save record
      match applyCrossShardTransaction out.write out.undo record batches.list [] n.shards with
      | (shards, .error err) =>
        -- the result of this `Delete` is ignored
        ({ n with
            shards := shards
            journal := (journal.tryDelete txID out.removePending out.removeCommitted).1 },
          .error err)
      | (shards, .ok ()) =>
        if out.saveCommitted = false then
          ({ n with
              shards := shards
              journal := (journal.tryDelete txID out.removePending out.removeCommitted).1 },
            .error .journal)
        else
          let (journal, ok) := (journal.save { record with committed := true }).tryDelete txID
            out.removePending out.removeCommitted
          ({ n with shards := shards, journal := journal },
            if ok then .ok () else .error .journal)

/-- `Write`: a batch for one shard is handed to it, any other is a transaction. -/
def ShardedNode.write (n : ShardedNode) (txID : Bytes) (batch : List (BatchEntry × Bool))
    (out : TxOutcome) : ShardedNode × Except ClusterError Unit :=
  if batch = [] then (n, .ok ())
  else
    match n.shardBatches batch ⟨[], List.Pairwise.nil⟩ with
    | .error err => (n, .error err)
    | .ok batches =>
      match batches.list with
      | [(id, b)] =>
        if out.write id then ({ n with shards := writeShard n.shards id b }, .ok ())
        else (n, .error .write)
      | _ => n.writeCrossShardBatch txID batches out

/-! ### Recovery -/

def TxJournalEntry.shardIDs (r : TxJournalEntry) : List ℕ :=
  (r.preImages.map TxPreImage.shard).reverse.dedup.reverse

/-- Undo the pending transactions one after another. -/
def recoverRecords (undo : ℕ → Bool) : List TxJournalEntry → (ℕ → Shard) → TxJournalStore →
    (ℕ → Shard) × TxJournalStore × Bool
  | [], shards, s => (shards, s, true)
  | r :: rs, shards, s =>
    if r.committed then recoverRecords undo rs shards (s.delete r.id)
    else
      match rollbackCrossShardTransaction undo r r.shardIDs.reverse shards with
      | (shards, false) => (shards, s, false)
      | (shards, true) => recoverRecords undo rs shards (s.delete r.id)

/-- `recoverTransactions`; the result says whether it succeeds. -/
def ShardedNode.recoverTransactions (n : ShardedNode) (undo : ℕ → Bool) : ShardedNode × Bool :=
  match n.journal.loadAll with
  | (s, none) => ({ n with journal := s }, false)
  | (s, some records) =>
    let (shards, s, ok) := recoverRecords undo records n.shards s
    ({ n with shards := shards, journal := s }, ok)

end LsmTree
