import LsmTree.Engine.Write

/-!
# Flushing (`internal/engine/flush.go`)

`flush` turns an immutable memtable into a level-0 table: build the file, register its reader, add
it to the manifest, record the sequence number, drop the memtable, remove its log.  `flushNext` is
one round of the flush worker, which on an error poisons the engine and drops the memtable all the
same. The faults of each step are arguments.
-/

namespace LsmTree

def buildTable (cfg : Config) (fileID level : ℕ) (es : List Entry) : SSTableMeta × SSTable :=
  (es.foldl SSTableBuilder.add
    (newSSTableBuilder fileID level cfg.blockSize cfg.bloomBitsPerKey)).finish

def LSMEngine.register (e : LSMEngine) (fileID : ℕ) : LSMEngine :=
  match e.dir.ssts.lookup fileID with
  | some t => { e with tc := e.tc.register fileID t }
  | none => e

/-- Remove a memtable from the immutables; its log tells it from the others. -/
def LSMEngine.removeImmutable (e : LSMEngine) (imm : ImmutableMemtable) : LSMEngine :=
  { e with immutables := e.immutables.filter (fun m => m.logNumber != imm.logNumber) }

def LSMEngine.flushBuild (e : LSMEngine) (imm : ImmutableMemtable) : LSMEngine × SSTableMeta :=
  let (e, id) := e.newFileID
  let (m, t) := buildTable e.cfg id 0 imm.table.entries
  (e.exec (.writeTable id t), m)

def LSMEngine.flushAdd (e : LSMEngine) (m : SSTableMeta) (res : WriteResult) : LSMEngine × Bool :=
  (e.register m.fileID).apply (addEdit m false) res

/-- Record the current sequence number; a failure is only logged. -/
def LSMEngine.flushSeqNo (e : LSMEngine) (res : WriteResult) : LSMEngine :=
  (e.apply (maxSeqNoEdit e.seqNo) res).1

inductive FlushFault
  | build
  | register
  | apply (left : Remains)
  deriving DecidableEq, Repr

/-- How the steps of a flush turn out: the fault that ends it, if any, the result of the
sequence-number edit, and whether the log could be removed. -/
structure FlushOutcome where
  fault : Option FlushFault := none
  seqRes : WriteResult := .ok
  logRemoved : Bool := true
  deriving DecidableEq, Repr

def FlushOutcome.addRes (o : FlushOutcome) : WriteResult :=
  match o.fault with
  | some (.apply left) => .failed left
  | _ => .ok

/-- Flush an immutable memtable; the result says whether it succeeded. -/
def LSMEngine.flush (e : LSMEngine) (imm : ImmutableMemtable) (o : FlushOutcome) :
    LSMEngine × Bool :=
  if o.fault = some .build then (e.newFileID.1, false)
  else if imm.table.entries = [] then (e.newFileID.1.removeImmutable imm, true)
  else
    let (e, m) := e.flushBuild imm
    if o.fault = some .register then (e, false)
    else
      match e.flushAdd m o.addRes with
      | (e, false) =>
        (({ e with tc := e.tc.unregister m.fileID } : LSMEngine).exec (.removeTable m.fileID),
          false)
      | (e, true) =>
        let e := (e.flushSeqNo o.seqRes).removeImmutable imm
        (if o.logRemoved then e.exec (.removeLog imm.logNumber) else e, true)

def LSMEngine.flushNext (e : LSMEngine) (o : FlushOutcome) : LSMEngine :=
  match e.flushQueue with
  | [] => e
  | imm :: queue =>
    match ({ e with flushQueue := queue } : LSMEngine).flush imm o with
    | (e, true) => e
    | (e, false) => ({ e with bgError := true } : LSMEngine).removeImmutable imm

end LsmTree
