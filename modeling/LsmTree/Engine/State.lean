import Mathlib.Data.List.AList
import LsmTree.Wal
import LsmTree.Manifest
import LsmTree.Engine.TableCache

/-!
# The engine's state (`internal/engine/engine.go`, `config.go`)

The data directory is what survives a crash: the records of the manifest, the table files and the
log files.  It changes only by the durable steps `DiskOp`, one at a time; an operation that stops
half-way leaves the directory after some of its steps.  The running engine keeps the directory and,
in memory, the memtables, the version, the table cache and its counters.
-/

namespace LsmTree

/-- Files of one kind in the data directory, by number. -/
abbrev Files (α : Type) := AList (fun _ : ℕ => α)

structure DataDir where
  edits : List VersionEdit := []
  /-- The manifest ends with a part of a record. -/
  torn : Bool := false
  ssts : Files SSTable := ∅
  logs : Files WalFile := ∅

inductive DiskOp
  | writeTable (id : ℕ) (t : SSTable)
  | removeTable (id : ℕ)
  | appendLog (id : ℕ) (records : WalFile)
  | removeLog (id : ℕ)
  | appendEdit (edit : VersionEdit)

def DataDir.log (d : DataDir) (id : ℕ) : WalFile := (d.logs.lookup id).getD []

/-- Carry out a durable step.  Appending to a log creates the file if it does not exist. -/
def DataDir.exec (d : DataDir) : DiskOp → DataDir
  | .writeTable id t => { d with ssts := d.ssts.insert id t }
  | .removeTable id => { d with ssts := d.ssts.erase id }
  | .appendLog id records => { d with logs := d.logs.insert id (d.log id ++ records) }
  | .removeLog id => { d with logs := d.logs.erase id }
  | .appendEdit edit => { d with edits := d.edits ++ [edit] }

def DataDir.execAll (d : DataDir) (ops : List DiskOp) : DataDir := ops.foldl DataDir.exec d

/-- The compaction strategies; any other configured string means leveled. -/
inductive CompactionStyle
  | leveled
  | sizeTiered
  | timeWindow
  deriving DecidableEq, Repr

/-- The part of the configuration that the modelled code reads. -/
structure Config where
  memTableSize : ℤ := 0
  blockSize : ℤ := 0
  bloomBitsPerKey : ℤ := 0
  sstMaxSize : ℕ := 0
  syncWAL : Bool := true
  maxOpenFiles : ℤ := 0
  maxLevels : ℤ := 0
  levelSizeMultiplier : ℤ := 0
  level0FileNumCompactionTrigger : ℤ := 0
  maxImmutableMemTables : ℤ := 0
  maxValueSize : ℤ := 0
  compactionStyle : CompactionStyle := .leveled
  timeWindowSize : ℤ := 0
  deriving DecidableEq, Repr

/-- The defaults `Open` fills in. -/
def Config.withDefaults (c : Config) : Config :=
  { c with
    memTableSize := if c.memTableSize = 0 then 64 * 1024 * 1024 else c.memTableSize
    blockSize := if c.blockSize = 0 then 4096 else c.blockSize
    bloomBitsPerKey := if c.bloomBitsPerKey = 0 then 10 else c.bloomBitsPerKey
    sstMaxSize := if c.sstMaxSize = 0 then 64 * 1024 * 1024 else c.sstMaxSize
    maxImmutableMemTables := if c.maxImmutableMemTables = 0 then 2 else c.maxImmutableMemTables
    timeWindowSize := if c.timeWindowSize = 0 then 3600 * 1000000000 else c.timeWindowSize
    level0FileNumCompactionTrigger :=
      if c.level0FileNumCompactionTrigger = 0 then 4 else c.level0FileNumCompactionTrigger
    maxValueSize := if c.maxValueSize ≤ 0 then 1024 * 1024 else c.maxValueSize
    maxOpenFiles := if c.maxOpenFiles ≤ 0 then 1000 else c.maxOpenFiles }

/-- The number of levels in effect: the configured one if positive. -/
def Config.maxLevel (c : Config) :
    ℕ := if 0 < c.maxLevels then c.maxLevels.toNat else LsmTree.maxLevels

/-- A memtable on its way to disk, with the number of its log. -/
structure ImmutableMemtable where
  table : MemTable
  logNumber : ℕ

/-- The running engine.  `immutables` and `flushQueue` are oldest first; `walBuf` are the records
appended to the active log that were not yet synced. -/
structure LSMEngine where
  cfg : Config
  dir : DataDir
  memTable : MemTable
  immutables : List ImmutableMemtable := []
  walBuf : WalFile := []
  logNumber : ℕ
  seqNo : ℕ
  tc : TableCache
  current : Version
  flushQueue : List ImmutableMemtable := []
  nextFileID : ℕ
  bgError : Bool := false

inductive EngineError
  | notFound
  | valueTooLarge
  | background
  | writeStall
  | read (err : ReadError)
  deriving DecidableEq, Repr

def LSMEngine.exec (e : LSMEngine) (op : DiskOp) : LSMEngine := { e with dir := e.dir.exec op }

/-- `manifest.Apply`; the result says whether it succeeded. -/
def LSMEngine.apply (e : LSMEngine) (edit : VersionEdit) (res : WriteResult) : LSMEngine × Bool :=
  let (m, ok) := Manifest.apply ⟨e.current, e.dir.edits, e.dir.torn⟩ edit res
  ({ e with current := m.current, dir := { e.dir with edits := m.file, torn := m.torn } }, ok)

/-- `nextFileID.Add(1)`: a new file number. -/
def LSMEngine.newFileID (e : LSMEngine) : LSMEngine × ℕ :=
  ({ e with nextFileID := e.nextFileID + 1 }, e.nextFileID + 1)

/-! ### Lookups after durable steps -/

@[simp] theorem exec_writeTable_ssts (d : DataDir) (id : ℕ) (t : SSTable) (j : ℕ) :
    (d.exec (.writeTable id t)).ssts.lookup j = if j = id then some t else d.ssts.lookup j := by
  by_cases h : j = id
  · subst h; simp [DataDir.exec]
  · simp [DataDir.exec, h]

@[simp] theorem exec_removeTable_ssts (d : DataDir) (id j : ℕ) :
    (d.exec (.removeTable id)).ssts.lookup j = if j = id then none else d.ssts.lookup j := by
  by_cases h : j = id
  · subst h; simp [DataDir.exec]
  · simp [DataDir.exec, h]

@[simp] theorem exec_appendLog_log (d : DataDir) (id : ℕ) (r : WalFile) (j : ℕ) :
    (d.exec (.appendLog id r)).log j = if j = id then d.log id ++ r else d.log j := by
  by_cases h : j = id
  · subst h; simp [DataDir.exec, DataDir.log]
  · simp [DataDir.exec, DataDir.log, h]

@[simp] theorem exec_removeLog_log (d : DataDir) (id j : ℕ) :
    (d.exec (.removeLog id)).log j = if j = id then [] else d.log j := by
  by_cases h : j = id
  · subst h; simp [DataDir.exec, DataDir.log]
  · simp [DataDir.exec, DataDir.log, h]

theorem recoverEdit_addEdit (v : Version) (m : SSTableMeta) (b : Bool) :
    v.recoverEdit (addEdit m b).persisted = v.applyEdit (addEdit m b) := by
  simp [Version.recoverEdit, Version.applyEdit, addEdit, VersionEdit.persisted, VersionEdit.meta]

theorem recoverEdit_deleteEdit (v : Version) (level id : ℕ) :
    v.recoverEdit (deleteEdit level id).persisted = v.applyEdit (deleteEdit level id) := by
  simp [Version.recoverEdit, Version.applyEdit, deleteEdit, VersionEdit.persisted]

theorem recoverEdit_logNumberEdit (v : Version) (n : ℕ) :
    v.recoverEdit (logNumberEdit n).persisted = v.applyEdit (logNumberEdit n) := by
  simp [Version.recoverEdit, Version.applyEdit, logNumberEdit, VersionEdit.persisted]

theorem recoverEdit_maxSeqNoEdit (v : Version) (n : ℕ) :
    v.recoverEdit (maxSeqNoEdit n).persisted = v.applyEdit (maxSeqNoEdit n) := by
  simp [Version.recoverEdit, Version.applyEdit, maxSeqNoEdit, VersionEdit.persisted]

end LsmTree
