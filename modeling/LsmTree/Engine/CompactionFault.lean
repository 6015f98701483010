import LsmTree.Engine.Compaction

/-!
# Compactions that fail (`internal/engine/background.go`)

`executeCompaction` of `Engine.Compaction` can fail only in the manifest.  Here every call of
`executeCompaction` that returns an error may do so: creating an output file, adding an entry to it,
finishing it, opening its reader, and the writes to the manifest.  The outcome keeps the account of
the call: the readers it pinned and released, the files it created and the readers it registered.

A file that was created and not finished has no readable contents.
-/

namespace LsmTree

/-- Which calls succeed; a file is known by its number and an entry of it by its position.  `add` is
asked only for an entry that makes `Add` write a block. -/
structure CompactionFaults where
  create : ℕ → Bool := fun _ => true
  add : ℕ → ℕ → Bool := fun _ _ => true
  finish : ℕ → Bool := fun _ => true
  register : ℕ → Bool := fun _ => true
  apply : ℕ → WriteResult := fun _ => .ok
  rollback : ℕ → WriteResult := fun _ => .ok

/-- The call whose failure ends a compaction, if there is one. -/
inductive CompactionExit
  | success
  | createFirst
  | create
  | add
  | finish
  | register
  | manifest
  deriving DecidableEq, Repr

structure Merging where
  e : LSMEngine
  builder : SSTableBuilder
  outputs : List (SSTableMeta × SSTable) := []
  /-- All output files created so far. -/
  created : List ℕ := []

structure MergeFailed where
  exit : CompactionExit
  e : LSMEngine
  created : List ℕ

def createOutput (o : CompactionFaults) (outputLevel : ℕ) (exit : CompactionExit) (e : LSMEngine)
    (outputs : List (SSTableMeta × SSTable)) (created : List ℕ) : Except MergeFailed Merging :=
  let fileID := e.nextFileID + 1
  let e : LSMEngine := { e with nextFileID := fileID }
  if o.create fileID then
    .ok
      { e := e.exec (.writeTable fileID ⟨[], none⟩)
        builder := newSSTableBuilder fileID outputLevel e.cfg.blockSize e.cfg.bloomBitsPerKey
        outputs := outputs
        created := created ++ [fileID] }
  else .error ⟨exit, e, created⟩

/-- Finish the current output; the file of one without entries is only closed. -/
def Merging.finishOutput (m : Merging) (o : CompactionFaults) :
    Except MergeFailed (LSMEngine × List (SSTableMeta × SSTable)) :=
  if 0 < m.builder.numEntries then
    if o.finish m.builder.fileID then
      .ok (m.e.exec (.writeTable m.builder.fileID m.builder.finish.2),
        m.outputs ++ [m.builder.finish])
    else .error ⟨.finish, m.e, m.created⟩
  else .ok (m.e, m.outputs)

def Merging.newFile (m : Merging) (o : CompactionFaults) (outputLevel : ℕ) :
    Except MergeFailed Merging :=
  match m.finishOutput o with
  | .error f => .error f
  | .ok (e, outputs) => createOutput o outputLevel .create e outputs m.created

/-- The next output file if the current one is large enough. -/
def Merging.roll (m : Merging) (o : CompactionFaults) (outputLevel : ℕ) :
    Except MergeFailed Merging :=
  if m.e.cfg.sstMaxSize ≤ m.builder.approxSize then m.newFile o outputLevel else .ok m

/-- The entry fills the data block, so that `Add` writes to the file; otherwise it cannot fail. -/
def SSTableBuilder.fills (b : SSTableBuilder) (x : Entry) : Bool :=
  decide (b.blockSize ≤ (b.dataBlock.add x.key x.value.length).size)

def mergeLoop (o : CompactionFaults) (outputLevel : ℕ) (isBottomLevel : Bool) :
    List Entry → Option Bytes → Merging → Except MergeFailed Merging
  | [], _, m => .ok m
  | x :: xs, prev, m =>
    if prev = some x.key.userKey then mergeLoop o outputLevel isBottomLevel xs prev m
    else
      let prev := nextLastKey prev x.key.userKey
      if x.key.type = .deletion ∧ isBottomLevel then
        mergeLoop o outputLevel isBottomLevel xs prev m
      else
        match m.roll o outputLevel with
        | .error f => .error f
        | .ok m =>
          if o.add m.builder.fileID m.builder.numEntries || !m.builder.fills x then
            mergeLoop o outputLevel isBottomLevel xs prev { m with builder := m.builder.add x }
          else .error ⟨.add, m.e, m.created⟩

/-- Register the readers of the outputs; after a failure those registered so far are unregistered.
The result says which were registered and whether all were. -/
def registerOutputs (o : CompactionFaults) :
    List ℕ → List ℕ → LSMEngine → LSMEngine × List ℕ × Bool
  | done, [], e => (e, done, true)
  | done, id :: ids, e =>
    if o.register id then registerOutputs o (done ++ [id]) ids (e.register id)
    else (done.foldl (fun e id => { e with tc := e.tc.unregister id }) e, done, false)

structure CompactionOutcome where
  exit : CompactionExit
  e : LSMEngine
  /-- The files whose readers were pinned, and those whose release functions were called. -/
  pinned : List ℕ
  released : List ℕ
  /-- The output files that were created, and those whose readers were registered. -/
  created : List ℕ
  registered : List ℕ

/-- A merge that failed: nothing is released or removed. -/
def MergeFailed.outcome (f : MergeFailed) (pinned : List ℕ) : CompactionOutcome :=
  ⟨f.exit, f.e, pinned, [], f.created, []⟩

/-- The part of `executeCompaction` after the merge loop. -/
def Merging.commit (m : Merging) (o : CompactionFaults) (inputs : List SSTableMeta)
    (outputLevel : ℕ) (pins : List ℕ) : CompactionOutcome :=
  let m : Merging := { m with e := { m.e with tc := pins.foldl TableCache.release m.e.tc } }
  match m.finishOutput o with
  | .error f => ⟨f.exit, f.e, pins, pins, f.created, []⟩
  | .ok (e, outputs) =>
    let p : CompactionPlan := ⟨inputs, outputs, m.builder.fileID, e.nextFileID, e.tc⟩
    match registerOutputs o [] (outputs.map (fun x => x.1.fileID)) e with
    | (e, registered, false) => ⟨.register, e, pins, pins, m.created, registered⟩
    | (e, registered, true) =>
      match e.applyAll p.commitEdits o.apply with
      | (e, true) =>
        ⟨.success, e.dropTables (inputs.map SSTableMeta.fileID), pins, pins, m.created, registered⟩
      | (e, false) =>
        ⟨.manifest, e.rollback p outputLevel o.rollback, pins, pins, m.created, registered⟩

def LSMEngine.executeCompactionWith (e : LSMEngine) (inputs : List SSTableMeta) (outputLevel : ℕ)
    (o : CompactionFaults) : CompactionOutcome :=
  let isBottomLevel := decide (outputLevel + 1 = e.cfg.maxLevel)
  let inputs := inputs.insertionSort inputLe
  let (sources, tc, pins) := openInputs 0 inputs e.tc
  let merged := (KWayMerge.mergeAll mergeLess sources).map MergeEntry.entry
  match createOutput o outputLevel .createFirst { e with tc := tc } [] [] with
  | .error f => f.outcome pins
  | .ok m =>
    match mergeLoop o outputLevel isBottomLevel merged none m with
    | .error f => f.outcome pins
    | .ok m => m.commit o inputs outputLevel pins

end LsmTree
