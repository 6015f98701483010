import LsmTree.Engine.Compaction

/-!
# Opening, recovery and closing (`Open`, `recover`, `Close` in `internal/engine/engine.go`)

`Open` replays the manifest, registers a reader for every listed table, replays all logs into one
memtable, removes orphaned table files, folds the logs into a new one, flushes an oversized memtable
and records the new log.  Its durable steps are listed by `recoverOps`: a crash during recovery
leaves the directory after some of them.
-/

namespace LsmTree

/-- Why `Open` fails. -/
inductive OpenError
  | manifest
  | missingSSTable (id : ℕ)
  deriving DecidableEq, Repr

def registerAll (ssts : Files SSTable) : List SSTableMeta → TableCache →
    Except OpenError TableCache
  | [], tc => .ok tc
  | m :: ms, tc =>
    match ssts.lookup m.fileID with
    | none => .error (.missingSSTable m.fileID)
    | some t => registerAll ssts ms (tc.register m.fileID t)

def listWALFiles (d : DataDir) : List ℕ := d.logs.keys.insertionSort (· ≤ ·)

def maxID (ids : List ℕ) : ℕ := ids.foldr max 0

def recoverEntries (d : DataDir) : List WALEntry :=
  (listWALFiles d).flatMap (fun id => recoverWAL (d.log id))

/-- The first number above the manifest's and above all files. -/
def activeLogNumber (d : DataDir) : ℕ :=
  let n := (recoverVersion d.edits).nextFileID
  let n := if n ≤ maxID d.ssts.keys then maxID d.ssts.keys + 1 else n
  let n := if n ≤ maxID d.logs.keys then maxID d.logs.keys + 1 else n
  if n = 0 then 1 else n

def orphans (d : DataDir) : List ℕ :=
  d.ssts.keys.filter (fun id => !(recoverVersion d.edits).hasFile id)

/-- The steps of `rewriteMemtableToWAL` and of the removal of the old logs. -/
def foldLogOps (d : DataDir) (mem : MemTable) : List DiskOp :=
  if listWALFiles d = [] then []
  else
    .appendLog (activeLogNumber d) [] ::
      (mem.entries.map (fun e => DiskOp.appendLog (activeLogNumber d) [[e.toWAL]]) ++
        (listWALFiles d).map DiskOp.removeLog)

def recoveredMem (cfg : Config) (d : DataDir) : MemTable :=
  (newMemTable cfg.memTableSize).replay (recoverEntries d)

/-- The durable steps up to the folding of the logs. -/
def cleanOps (cfg : Config) (d : DataDir) : List DiskOp :=
  (orphans d).map DiskOp.removeTable ++ foldLogOps d (recoveredMem cfg d)

/-- Write a memtable that replay has inflated to level 0 and start with an empty one; its entries
stay in the log. -/
def LSMEngine.recoverFlushOversizedMemtable (e : LSMEngine) : LSMEngine :=
  if e.memTable.entries = [] then e.newFileID.1
  else
    let (e', m) := e.flushBuild ⟨e.memTable, e.logNumber⟩
    { (e'.flushAdd m .ok).1 with memTable := newMemTable e.cfg.memTableSize }

def recoveredEngine (cfg : Config) (d : DataDir) (tc : TableCache) : LSMEngine where
  cfg := cfg
  dir := d.execAll (cleanOps cfg d)
  memTable := recoveredMem cfg d
  logNumber := activeLogNumber d
  seqNo := max (recoverVersion d.edits).maxSeqNo (maxID ((recoverEntries d).map WALEntry.seqNo))
  tc := tc
  current := recoverVersion d.edits
  nextFileID := if listWALFiles d = [] then activeLogNumber d else activeLogNumber d + 1

def LSMEngine.shrink (e : LSMEngine) : LSMEngine :=
  if e.cfg.memTableSize < e.memTable.approximateSize then e.recoverFlushOversizedMemtable else e

/-- Record the active log in the manifest if it is not the recorded one. -/
def LSMEngine.recordLog (e : LSMEngine) (recorded : ℕ) : LSMEngine :=
  if recorded ≠ e.logNumber then (e.apply (logNumberEdit e.logNumber) .ok).1 else e

/-- Open the engine on a directory.  A manifest that ends with a part of a record is refused. -/
def openEngine (cfg : Config) (d : DataDir) : Except OpenError LSMEngine :=
  let cfg := cfg.withDefaults
  if d.torn then .error .manifest
  else
    match registerAll d.ssts (recoverVersion d.edits).tables (newTableCache cfg.maxOpenFiles) with
    | .error err => .error err
    | .ok tc =>
      let e := (recoveredEngine cfg d tc).shrink.recordLog (recoverVersion d.edits).logNumber
      .ok (e.exec (.appendLog e.logNumber []))

/-- The durable steps of the oversized flush and of the log-number edit. -/
def finishOps (cfg : Config) (d : DataDir) : List DiskOp :=
  let mem := recoveredMem cfg d
  let id := (if listWALFiles d = [] then activeLogNumber d else activeLogNumber d + 1) + 1
  let (m, t) := buildTable cfg id 0 mem.entries
  (if cfg.memTableSize < mem.approximateSize ∧ mem.entries ≠ [] then
      [.writeTable id t, .appendEdit (addEdit m false).persisted]
    else []) ++
  (if (recoverVersion d.edits).logNumber ≠ activeLogNumber d then
      [.appendEdit (logNumberEdit (activeLogNumber d)).persisted]
    else []) ++
  [.appendLog (activeLogNumber d) []]

/-- All durable steps of an `Open`, in order. -/
def recoverOps (cfg : Config) (d : DataDir) : List DiskOp :=
  cleanOps cfg.withDefaults d ++ finishOps cfg.withDefaults d

/-- Close the engine: rotate a memtable that has anything in it, let the worker drain some of the
queue, and close the log, which syncs it. -/
def LSMEngine.close (e : LSMEngine) (drained : ℕ) : DataDir :=
  let e := if 0 < e.memTable.approximateSize then e.rotateMemTable.1 else e
  let e := (fun e : LSMEngine => e.flushNext {})^[drained] e
  (e.exec (.appendLog e.logNumber e.walBuf)).dir

end LsmTree
