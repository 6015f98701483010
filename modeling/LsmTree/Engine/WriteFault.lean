import LsmTree.Engine.Write

/-!
# Writes that fail (`LSMEngine.Put`, `Delete`, `Write` with faults)

The write path once more, with the failures of the disk and of the flush worker that can hit an
admitted write.  Up to the insertion into the memtable the write is abandoned where it fails; after
it, `rotateMemTable` can fail, and the error is returned although the write is logged and inserted.
-/

namespace LsmTree

/-- What can go wrong with an admitted write.  `flushed` counts the records of the write buffer,
that of the write itself being the last one, which are complete in the log file when the call
fails. -/
inductive WriteFault
  /-- `AppendWithSeqNo` or `AppendBatch` fails: the buffer is being written to make room. -/
  | append (flushed : ℕ)
  /-- `Sync` fails, in the write of the buffer or in the `fsync` after it. -/
  | sync (flushed : ℕ)
  /-- The flush worker sets the background error after the write was admitted. -/
  | background
  /-- `OpenWAL` fails for the new log, which may exist by then. -/
  | openWAL (created : Bool)
  /-- The manifest cannot record the new log, and the new log may resist its removal. -/
  | applyEdit (left : Remains) (removed : Bool)
  deriving DecidableEq, Repr

inductive WriteError
  | engine (err : EngineError)
  | io
  deriving DecidableEq, Repr

/-- The log after a failed write: a buffered writer that has failed writes nothing any more. -/
def LSMEngine.breakLog (e : LSMEngine) (records : WalFile) : LSMEngine :=
  { e.exec (.appendLog e.logNumber records) with walBuf := [] }

/-- `rotateMemTable` with a fault. -/
def LSMEngine.rotateWith (e : LSMEngine) (fault : Option WriteFault) :
    LSMEngine × Except WriteError Unit :=
  let e := if fault = some .background then { e with bgError := true } else e
  match e.rotateReady with
  | .error err => (e, .error (.engine err))
  | .ok () =>
    match fault with
    | some (.openWAL created) =>
      let (e, n) := e.newFileID
      (if created then e.exec (.appendLog n []) else e, .error .io)
    | some (.applyEdit left removed) =>
      let (e, n) := e.rotateOpen
      let e := (e.apply (logNumberEdit n) (.failed left)).1
      (if removed then e.exec (.removeLog n) else e, .error .io)
    | _ =>
      let (e, n) := e.rotateOpen
      ((e.rotateEdit n).rotateSwap n, .ok ())

def LSMEngine.submitWith (e : LSMEngine) (op : WriteOp) (fault : Option WriteFault) :
    LSMEngine × Except WriteError Unit :=
  match e.accept op with
  | (e, .error err) => (e, .error (.engine err))
  | (e, .ok []) => (e, .ok ())
  | (e, .ok ws) =>
    match fault, e.cfg.syncWAL with
    | some (.append flushed), _ => (e.breakLog (e.walBuf.take flushed), .error .io)
    | some (.sync flushed), true => (e.breakLog ((e.walBuf ++ [ws]).take flushed), .error .io)
    | fault, _ =>
      let e := (e.logWrite ws).insertEntries ws
      if e.memTable.isFull then e.rotateWith fault else (e, .ok ())

theorem rotateWith_none (e : LSMEngine) :
    e.rotateWith none = (e.rotateMemTable.1, e.rotateMemTable.2.mapError .engine) := by
  unfold LSMEngine.rotateWith LSMEngine.rotateMemTable
  simp only [reduceCtorEq, if_false]
  cases e.rotateReady <;> rfl

theorem submitWith_none (e : LSMEngine) (op : WriteOp) :
    e.submitWith op none = ((e.submit op).1, (e.submit op).2.mapError .engine) := by
  unfold LSMEngine.submitWith LSMEngine.submit
  rcases e.accept op with ⟨e', err | _ | ⟨w, ws⟩⟩
  · rfl
  · rfl
  · simp only [LSMEngine.rotateIfFull]
    split_ifs
    · exact rotateWith_none _
    · rfl

end LsmTree
