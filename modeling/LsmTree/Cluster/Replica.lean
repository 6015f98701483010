import LsmTree.Engine.Recover

/-!
# A replica of a shard (`command.go`, `applied_state.go`, `snapshot.go`, `raftFSM`)

Raft hands the committed entries of its log to `raftFSM.Apply`, which carries the command out in the
engine, stores the index in `applied-state.json` and then updates it in memory.  Entries at or below
the index in memory are skipped, so that entries can be handed over again after a restart.  A
snapshot closes the engine, copies its directory and opens it again.
-/

namespace LsmTree

/-- The replicated operations; any other name is unsupported. -/
inductive CommandType
  | put
  | delete
  | writeBatch
  | other (name : String)
  deriving DecidableEq, Repr

structure Command where
  type : CommandType
  key : Bytes := []
  value : Bytes := []
  entries : List BatchEntry := []
  deriving DecidableEq, Repr

/-- What `Validate` objects to. -/
inductive CommandError
  | putKeyRequired
  | deleteKeyRequired
  | batchEntriesRequired
  | entryKeyRequired (i : ℕ)
  | unsupportedType (name : String)
  deriving DecidableEq, Repr

def Command.validate (c : Command) : Except CommandError Unit :=
  match c.type with
  | .put => if c.key = [] then .error .putKeyRequired else .ok ()
  | .delete => if c.key = [] then .error .deleteKeyRequired else .ok ()
  | .writeBatch =>
    if c.entries = [] then .error .batchEntriesRequired
    else
      match c.entries.findIdx? (fun b => b.key = []) with
      | some i => .error (.entryKeyRequired i)
      | none => .ok ()
  | .other name => .error (.unsupportedType name)

/-- The engine call that a command stands for; a deletion in a batch loses its value. -/
def Command.op (c : Command) : Except String WriteOp :=
  match c.type with
  | .put => .ok (.put c.key c.value)
  | .delete => .ok (.delete c.key)
  | .writeBatch => .ok (.write (c.entries.map
      (fun b => if b.delete then ⟨b.key, [], true⟩ else ⟨b.key, b.value, false⟩)))
  | .other name => .error name

/-- An entry of the Raft log.  The data is the command: its encoding loses nothing. -/
structure LogEntry where
  index : ℕ
  term : ℕ := 0
  data : Command
  deriving DecidableEq, Repr

structure AppliedState where
  lastAppliedIndex : ℕ := 0
  lastAppliedTerm : ℕ := 0
  deriving DecidableEq, Repr

def LogEntry.state (x : LogEntry) : AppliedState := ⟨x.index, x.term⟩

/-- The node's engine, the file `applied-state.json` and its copy in memory. -/
structure Replica where
  eng : LSMEngine
  stored : AppliedState := {}
  applied : AppliedState := {}

/-- Why `Apply` fails. -/
inductive ApplyError
  | command (err : CommandError)
  | engine (err : EngineError)
  | unsupported (name : String)
  | save
  deriving DecidableEq, Repr

/-- `Apply` up to and with the engine's write.  The result is that of `Apply`, or none if the index
is still to be saved. -/
def Replica.applyEngine (r : Replica) (x : LogEntry) :
    Replica × Option (Except ApplyError Unit) :=
  match x.data.validate with
  | .error err => (r, some (.error (.command err)))
  | .ok () =>
    if x.index ≤ r.applied.lastAppliedIndex then (r, some (.ok ()))
    else
      match x.data.op with
      | .error name => (r, some (.error (.unsupported name)))
      | .ok op =>
        match r.eng.submit op with
        | (eng, .error err) => ({ r with eng := eng }, some (.error (.engine err)))
        | (eng, .ok ()) => ({ r with eng := eng }, none)

/-- `appliedStateStore.Save` replaces the file by renaming. -/
def Replica.saveApplied (r : Replica) (x : LogEntry) (ok : Bool) :
    Replica × Option (Except ApplyError Unit) :=
  if ok then ({ r with stored := x.state }, none) else (r, some (.error .save))

/-- The last step of `Apply`. -/
def Replica.setApplied (r : Replica) (x : LogEntry) : Replica := { r with applied := x.state }

/-- `raftFSM.Apply` as a whole. -/
def Replica.apply (r : Replica) (x : LogEntry) (saved : Bool) : Replica × Except ApplyError Unit :=
  match r.applyEngine x with
  | (r, some res) => (r, res)
  | (r, none) =>
    match r.saveApplied x saved with
    | (r, some res) => (r, res)
    | (r, none) => (r.setApplied x, .ok ())

/-- A snapshot: a copy of the engine's directory, and how far it was applied. -/
structure EngineSnapshot where
  dir : DataDir
  applied : AppliedState

/-- `raftFSM.Snapshot`; closing the engine flushes some of its queue. -/
def Replica.snapshot (cfg : Config) (r : Replica) (drained : ℕ) :
    Except OpenError (Replica × EngineSnapshot) :=
  match openEngine cfg (r.eng.close drained) with
  | .error err => .error err
  | .ok eng => .ok ({ r with eng := eng }, ⟨r.eng.close drained, r.applied⟩)

/-- `raftFSM.Restore`: the directory is replaced by that of the snapshot. -/
def EngineSnapshot.restore (cfg : Config) (s : EngineSnapshot) : Except OpenError Replica :=
  match openEngine cfg s.dir with
  | .error err => .error err
  | .ok eng => .ok { eng := eng, stored := s.applied, applied := s.applied }

/-- `OpenRaftNode` up to the start of Raft. -/
def openReplica (cfg : Config) (dir : DataDir) (stored : AppliedState) : Except OpenError Replica :=
  match openEngine cfg dir with
  | .error err => .error err
  | .ok eng => .ok { eng := eng, stored := stored, applied := stored }

theorem Command.key_ne_nil {c : Command} {op : WriteOp} (h : c.validate = .ok ())
    (hop : c.op = .ok op) : ∀ u ∈ op.updates, u.1 ≠ [] := by
  unfold Command.validate at h
  unfold Command.op at hop
  cases hc : c.type with
  | put =>
    rw [hc] at h hop
    cases hop
    simp only at h
    split at h
    · cases h
    · rename_i hk
      simpa [WriteOp.updates] using hk
  | delete =>
    rw [hc] at h hop
    cases hop
    simp only at h
    split at h
    · cases h
    · rename_i hk
      simpa [WriteOp.updates] using hk
  | writeBatch =>
    rw [hc] at h hop
    cases hop
    simp only at h
    split at h
    · cases h
    · split at h
      · cases h
      · rename_i hnone
        rw [List.findIdx?_eq_none_iff] at hnone
        intro u hu
        simp only [WriteOp.updates, List.map_map, List.mem_map] at hu
        obtain ⟨b, hb, rfl⟩ := hu
        have hkey := hnone b hb
        cases hd : b.delete <;> simpa [hd] using hkey
  | other name =>
    rw [hc] at h
    cases h

end LsmTree
