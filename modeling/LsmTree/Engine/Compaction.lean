import LsmTree.Engine.Flush
import LsmTree.Engine.Read

/-!
# Compaction (`internal/engine/background.go`)

`compactLevel` picks the inputs of a leveled compaction and `executeCompaction` merges them: it
opens a reader for each input (going on without those that have none), merges them newest version
first, keeps one version of each user key, drops tombstones at the bottom level and cuts the output
into files.  It then commits by separate manifest edits, first adding every output and then deleting
every input; if one of them fails the outputs are taken back.

The commit sequence is explicit (`commitEdits`), since a reader or a crash can come between any two
of its edits.
-/

namespace LsmTree

def dedupeByFileID : List SSTableMeta → List SSTableMeta
  | [] => []
  | m :: ms => m :: (dedupeByFileID ms).filter (fun x => x.fileID != m.fileID)

/-- The least first key and the greatest last key of some tables; `nil` stands for none yet. -/
def keyRange (inputs : List SSTableMeta) : Bytes × Bytes :=
  inputs.foldl (fun r m =>
    (if r.1 = [] ∨ m.firstKey < r.1 then m.firstKey else r.1,
      if r.2 = [] ∨ r.2 < m.lastKey then m.lastKey else r.2)) ([], [])

/-- The inputs of a leveled compaction: all of level 0, or the first table of a deeper level, and
the tables of the next level that overlap them.  Empty if there is nothing to do. -/
def leveledInputs (v : Version) (maxLevel level : ℕ) : List SSTableMeta :=
  if maxLevel ≤ level + 1 then []
  else
    let base := if level = 0 then v.levels 0 else (v.levels level).take 1
    if base = [] then []
    else
      let (lo, hi) := keyRange base
      dedupeByFileID
        (base ++ (v.levels (level + 1)).filter (fun m => overlaps m.firstKey m.lastKey lo hi))

/-- The order of the inputs: by level, level 0 by falling and the others by rising file id. -/
def inputLe (a b : SSTableMeta) : Prop :=
  a.level < b.level ∨ (a.level = b.level ∧
    if a.level = 0 then b.fileID ≤ a.fileID else a.fileID ≤ b.fileID)

instance : DecidableRel inputLe := fun a b =>
  inferInstanceAs (Decidable (a.level < b.level ∨ _))

structure MergeEntry where
  entry : Entry
  idx : ℕ
  deriving DecidableEq, Repr

def mergeLess (a b : MergeEntry) : Bool :=
  if a.entry.key.less b.entry.key then true
  else if b.entry.key.less a.entry.key then false
  else decide (a.idx < b.idx)

/-- Pin the readers of the inputs; an input without a reader is skipped. -/
def openInputs : ℕ → List SSTableMeta → TableCache → List (List MergeEntry) × TableCache × List ℕ
  | _, [], tc => ([], tc, [])
  | i, m :: ms, tc =>
    match tc.get m.fileID with
    | none => openInputs (i + 1) ms tc
    | some (t, tc) =>
      let (ss, tc, pins) := openInputs (i + 1) ms tc
      (t.iterate.map (fun e => ⟨e, i⟩) :: ss, tc, m.fileID :: pins)

/-- The state of the merge loop: the file counter, the file being built and the finished ones. -/
structure CompactState where
  nextFileID : ℕ
  builder : SSTableBuilder
  outputs : List (SSTableMeta × SSTable) := []

def CompactState.finishOutput (st : CompactState) : List (SSTableMeta × SSTable) :=
  if 0 < st.builder.numEntries then st.outputs ++ [st.builder.finish] else st.outputs

def newOutput (cfg : Config) (outputLevel nextFileID : ℕ) (outputs : List (SSTableMeta × SSTable)) :
    CompactState where
  nextFileID := nextFileID + 1
  builder := newSSTableBuilder (nextFileID + 1) outputLevel cfg.blockSize cfg.bloomBitsPerKey
  outputs := outputs

def compactLoop (cfg : Config) (outputLevel : ℕ) (isBottomLevel : Bool) :
    List Entry → Option Bytes → CompactState → CompactState
  | [], _, st => st
  | e :: es, prev, st =>
    if prev = some e.key.userKey then compactLoop cfg outputLevel isBottomLevel es prev st
    else
      let prev := nextLastKey prev e.key.userKey
      if e.key.type = .deletion ∧ isBottomLevel then
        compactLoop cfg outputLevel isBottomLevel es prev st
      else
        let st := if cfg.sstMaxSize ≤ st.builder.approxSize then
            newOutput cfg outputLevel st.nextFileID st.finishOutput
          else st
        compactLoop cfg outputLevel isBottomLevel es prev { st with builder := st.builder.add e }

structure CompactionPlan where
  inputs : List SSTableMeta
  outputs : List (SSTableMeta × SSTable)
  /-- The number of the last output file, which is left empty if nothing was written to it. -/
  lastFile : ℕ
  nextFileID : ℕ
  tc : TableCache

/-- Everything before the outputs are registered: sort and open the inputs, merge, build. -/
def LSMEngine.planCompaction (e : LSMEngine) (inputs : List SSTableMeta) (outputLevel : ℕ) :
    CompactionPlan :=
  let isBottomLevel := decide (outputLevel + 1 = e.cfg.maxLevel)
  let inputs := inputs.insertionSort inputLe
  let (sources, tc, pins) := openInputs 0 inputs e.tc
  let merged := (KWayMerge.mergeAll mergeLess sources).map MergeEntry.entry
  let st := compactLoop e.cfg outputLevel isBottomLevel merged none
    (newOutput e.cfg outputLevel e.nextFileID [])
  { inputs := inputs
    outputs := st.finishOutput
    lastFile := st.builder.fileID
    nextFileID := st.nextFileID
    tc := pins.foldl TableCache.release tc }

def CompactionPlan.commitEdits (p : CompactionPlan) : List VersionEdit :=
  p.outputs.map (fun o => addEdit o.1 true) ++
    p.inputs.map (fun m => deleteEdit m.level m.fileID)

def LSMEngine.stageOutputs (e : LSMEngine) (p : CompactionPlan) : LSMEngine :=
  let e : LSMEngine := { e with nextFileID := p.nextFileID, tc := p.tc }
  let e := p.outputs.foldl (fun e o => e.exec (.writeTable o.1.fileID o.2)) e
  let e := if p.outputs.any (fun o => o.1.fileID = p.lastFile) then e
    else e.exec (.writeTable p.lastFile ⟨[], none⟩)
  p.outputs.foldl (fun e o => e.register o.1.fileID) e

def LSMEngine.applyAll (e : LSMEngine) : List VersionEdit → (ℕ → WriteResult) → LSMEngine × Bool
  | [], _ => (e, true)
  | edit :: edits, res =>
    match e.apply edit (res 0) with
    | (e, false) => (e, false)
    | (e, true) => e.applyAll edits (fun i => res (i + 1))

def LSMEngine.dropTables (e : LSMEngine) (ids : List ℕ) : LSMEngine :=
  ids.foldl (fun e id =>
    ({ e with tc := e.tc.unregister id } : LSMEngine).exec (.removeTable id)) e

/-- Apply edits in order, whatever becomes of them. -/
def LSMEngine.applyIgnore (e : LSMEngine) : List VersionEdit → (ℕ → WriteResult) → LSMEngine
  | [], _ => e
  | edit :: edits, res => (e.apply edit (res 0)).1.applyIgnore edits (fun i => res (i + 1))

/-- The deferred rollback: remove the outputs' readers and files, then their manifest entries. -/
def LSMEngine.rollback (e : LSMEngine) (p : CompactionPlan) (outputLevel : ℕ)
    (res : ℕ → WriteResult) : LSMEngine :=
  (e.dropTables (p.outputs.map (fun o => o.1.fileID))).applyIgnore
    (p.outputs.map (fun o => deleteEdit outputLevel o.1.fileID)) res

/-- Run a compaction.  `res` are the results of the writes of the commit, `rb` those of the
rollback; the result says whether it succeeded. -/
def LSMEngine.executeCompaction (e : LSMEngine) (inputs : List SSTableMeta) (outputLevel : ℕ)
    (res rb : ℕ → WriteResult) : LSMEngine × Bool :=
  let p := e.planCompaction inputs outputLevel
  match (e.stageOutputs p).applyAll p.commitEdits res with
  | (e, true) => (e.dropTables (p.inputs.map SSTableMeta.fileID), true)
  | (e, false) => (e.rollback p outputLevel rb, false)

def LSMEngine.compactLevel (e : LSMEngine) (level : ℕ) (res rb : ℕ → WriteResult) :
    LSMEngine × Bool :=
  let inputs := leveledInputs e.current e.cfg.maxLevel level
  if inputs = [] then (e, true) else e.executeCompaction inputs (level + 1) res rb

end LsmTree
