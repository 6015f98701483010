import LsmTree.Cluster.Membership
import LsmTree.Cluster.Replica

/-!
# Snapshots and their installation, with failing steps (`internal/cluster/snapshot.go`)

`raftFSM.Snapshot` closes the engine, copies its directory and opens it again; `raftFSM.Restore`
unpacks a snapshot, closes the engine, removes the files of its directory one by one, copies those
of the snapshot, opens the engine and saves how far the snapshot was applied.  Any of these steps
may fail, and the node may crash between any two files.

* `DirFile`, `DataDir.entries`: the files of an engine's directory in the order of their names;
* `replaceOps`, `DataDir.replaceUpTo`: `replaceEngineDirContents`, file by file;
* `raftSnapshot`, `raftRestore`: the two calls with the step that fails.

Whole files are removed and copied; the directory of the cluster, which stays, and the staging
directories are not part of the model.
-/

namespace LsmTree

/-! ### Files and their names -/

inductive DirFile
  | table (id : ℕ)
  | log (id : ℕ)
  | manifest
  deriving DecidableEq, Repr

def sixDigits (n : ℕ) : Bytes := List.replicate (6 - (decimal n).length) 48 ++ decimal n

/-- The names `%06d.sst`, `%06d.log` and `MANIFEST`. -/
def DirFile.name : DirFile → Bytes
  | .table id => sixDigits id ++ [46, 115, 115, 116]
  | .log id => sixDigits id ++ [46, 108, 111, 103]
  | .manifest => [77, 65, 78, 73, 70, 69, 83, 84]

/-- The files of a directory, as `os.ReadDir` and `filepath.Walk` list them. -/
def DataDir.entries (d : DataDir) : List DirFile :=
  (d.ssts.keys.map DirFile.table ++ d.logs.keys.map DirFile.log ++
    [DirFile.manifest]).insertionSort (fun a b => a.name ≤ b.name)

/-! ### Replacing the contents of a directory -/

/-- What `replaceEngineDirContents` does to one file. -/
inductive FileOp
  | remove (f : DirFile)
  | copy (f : DirFile)
  deriving DecidableEq, Repr

def DataDir.fileOp (src d : DataDir) : FileOp → DataDir
  | .remove (.table id) => { d with ssts := d.ssts.erase id }
  | .remove (.log id) => { d with logs := d.logs.erase id }
  | .remove .manifest => { d with edits := [], torn := false }
  | .copy (.table id) =>
    match src.ssts.lookup id with
    | some t => { d with ssts := d.ssts.insert id t }
    | none => d
  | .copy (.log id) => { d with logs := d.logs.insert id (src.log id) }
  | .copy .manifest => { d with edits := src.edits, torn := src.torn }

/-- The steps of `replaceEngineDirContents`. -/
def replaceOps (dst src : DataDir) : List FileOp :=
  dst.entries.map FileOp.remove ++ src.entries.map FileOp.copy

/-- The directory after the first `done` steps. -/
def DataDir.replaceUpTo (dst src : DataDir) (done : ℕ) : DataDir :=
  ((replaceOps dst src).take done).foldl src.fileOp dst

def DataDir.replaceAll (dst src : DataDir) : DataDir :=
  dst.replaceUpTo src (replaceOps dst src).length

/-! ### The calls -/

/-- A node whose engine is open, or one whose engine is closed, with what is in its directory. -/
inductive FsmState
  | serving (r : Replica)
  | closed (r : Replica) (disk : DataDir)

/-- The step of `Snapshot` that fails.  An `Open` that fails may have done some of its steps. -/
inductive SnapshotStep
  | stage
  | close
  | copy
  | reopen (done : ℕ)
  deriving DecidableEq, Repr

/-- The step of `Restore` that fails. -/
inductive RestoreStep
  | stage
  | extract
  | close
  | replace (done : ℕ)
  | reopen (done : ℕ)
  | save
  deriving DecidableEq, Repr

/-- What a `Close` leaves that cannot write the end of the log.  The engine is closed all the
same. -/
def LSMEngine.closeUnsynced (e : LSMEngine) (drained : ℕ) : DataDir :=
  let e := if 0 < e.memTable.approximateSize then e.rotateMemTable.1 else e
  ((fun e : LSMEngine => e.flushNext {})^[drained] e).dir

/-- The directory in which an `Open` has done some of its steps. -/
def DataDir.halfOpened (cfg : Config) (d : DataDir) (done : ℕ) : DataDir :=
  d.execAll ((recoverOps cfg d).take done)

/-- `raftFSM.Snapshot`. -/
def raftSnapshot (cfg : Config) (r : Replica) (drained : ℕ) (fails : Option SnapshotStep) :
    FsmState × Option EngineSnapshot :=
  let disk := r.eng.close drained
  match fails with
  | some .stage => (.serving r, none)
  | some .close => (.closed r (r.eng.closeUnsynced drained), none)
  | some .copy => (.closed r disk, none)
  | some (.reopen done) => (.closed r (disk.halfOpened cfg done), none)
  | none =>
    match openEngine cfg disk with
    | .error _ => (.closed r disk, none)
    | .ok eng => (.serving { r with eng := eng }, some ⟨disk, r.applied⟩)

/-- `raftFSM.Restore`; the result says whether it succeeds. -/
def raftRestore (cfg : Config) (r : Replica) (s : EngineSnapshot) (drained : ℕ)
    (fails : Option RestoreStep) : FsmState × Bool :=
  let disk := r.eng.close drained
  match fails with
  | some .stage => (.serving r, false)
  | some .extract => (.serving r, false)
  | some .close => (.closed r (r.eng.closeUnsynced drained), false)
  | some (.replace done) => (.closed r (disk.replaceUpTo s.dir done), false)
  | some (.reopen done) => (.closed r ((disk.replaceAll s.dir).halfOpened cfg done), false)
  | some .save =>
    match openEngine cfg (disk.replaceAll s.dir) with
    | .error _ => (.closed r (disk.replaceAll s.dir), false)
    | .ok eng => (.serving { r with eng := eng }, false)
  | none =>
    match openEngine cfg (disk.replaceAll s.dir) with
    | .error _ => (.closed r (disk.replaceAll s.dir), false)
    | .ok eng => (.serving { eng := eng, stored := s.applied, applied := s.applied }, true)

end LsmTree
