import Mathlib.Data.List.Sort
import LsmTree.Lib.BinarySearch
import LsmTree.Sstable.Format

/-!
# The manifest (`internal/manifest/manifest.go`, `version_edit.go`)

The manifest file is an append-only log of version edits; the version in memory says which tables
make up which level.  `Manifest.apply` writes the edit first and then updates the version;
`recoverVersion` rebuilds it from the file.  A failing write leaves the version alone, but the
record, or a part of it, may have reached the file all the same.

Levels from 1 on are kept sorted by first key and file id; level 0 is in the order of the edits.
-/

namespace LsmTree

variable {a b : SSTableMeta}

def maxLevels : ℕ := 7

inductive EditType
  | addSSTable
  | deleteSSTable
  | logNumber
  | nextFileID
  | maxSeqNo
  deriving DecidableEq, Repr

structure VersionEdit where
  type : EditType
  level : ℕ := 0
  fileID : ℕ := 0
  fileSize : ℕ := 0
  firstKey : Bytes := []
  lastKey : Bytes := []
  logNumber : ℕ := 0
  nextFileID : ℕ := 0
  maxSeqNo : ℕ := 0
  skipOverlapCheck : Bool := false
  deriving DecidableEq, Repr

/-- The level state in memory.  The source has an array of `maxLevels` levels; an index beyond it
would panic there. -/
structure Version where
  levels : ℕ → List SSTableMeta := fun _ => []
  logNumber : ℕ := 0
  nextFileID : ℕ := 0
  maxSeqNo : ℕ := 0

/-- The order `sortLevel` sorts by. -/
def metaLe (a b : SSTableMeta) : Prop :=
  a.firstKey < b.firstKey ∨ (a.firstKey = b.firstKey ∧ a.fileID ≤ b.fileID)

instance : DecidableRel metaLe := fun a b =>
  inferInstanceAs (Decidable (a.firstKey < b.firstKey ∨ _))

def sortLevel (level : List SSTableMeta) (levelNum : ℕ) : List SSTableMeta :=
  if levelNum = 0 ∨ level.length < 2 then level else level.insertionSort metaLe

def VersionEdit.meta (edit : VersionEdit) : SSTableMeta :=
  { fileID := edit.fileID, level := edit.level, firstKey := edit.firstKey,
    lastKey := edit.lastKey, fileSize := edit.fileSize }

/-- The update of the version in memory for an edit of each type. -/
def Version.applyEdit (v : Version) (edit : VersionEdit) : Version :=
  match edit.type with
  | .addSSTable =>
    { v with
      levels := Function.update v.levels edit.level
        (sortLevel (v.levels edit.level ++ [edit.meta]) edit.level)
      nextFileID := max v.nextFileID (edit.fileID + 1) }
  | .deleteSSTable =>
    { v with
      levels := Function.update v.levels edit.level
        (sortLevel ((v.levels edit.level).filter (fun m => m.fileID != edit.fileID)) edit.level) }
  | .logNumber => { v with logNumber := max v.logNumber edit.logNumber }
  | .nextFileID => { v with nextFileID := max v.nextFileID edit.nextFileID }
  | .maxSeqNo => { v with maxSeqNo := max v.maxSeqNo edit.maxSeqNo }

/-- `Recover` folds an edit in the same way and raises the high-water marks in any case. -/
def Version.recoverEdit (v : Version) (edit : VersionEdit) : Version :=
  let v := v.applyEdit edit
  { v with
    logNumber := max v.logNumber edit.logNumber
    nextFileID := max v.nextFileID edit.nextFileID
    maxSeqNo := max v.maxSeqNo edit.maxSeqNo }

/-- Rebuild the version from the records of the manifest file. -/
def recoverVersion (file : List VersionEdit) : Version := file.foldl Version.recoverEdit {}

def Version.hasFile (v : Version) (fileID : ℕ) : Bool :=
  (List.range maxLevels).any (fun i => (v.levels i).any (fun m => m.fileID = fileID))

def Version.tables (v : Version) : List SSTableMeta := (List.range maxLevels).flatMap v.levels

/-- The manifest: the version in memory, the records of the file, and whether a part of a record
follows them. -/
structure Manifest where
  current : Version := {}
  file : List VersionEdit := []
  torn : Bool := false

def overlaps (a₁ a₂ b₁ b₂ : Bytes) : Bool := decide (a₁ ≤ b₂) && decide (b₁ ≤ a₂)

/-- What a failed write leaves of its record in the file. -/
inductive Remains
  | nothing
  | part
  | whole
  deriving DecidableEq, Repr

def Remains.reached (left : Remains) : Bool := decide (left = .whole)

def Remains.torn (left : Remains) : Bool := decide (left = .part)

/-- How the write of an edit ends.  In the source a buffered writer that has failed fails again, but
not one whose `Sync` has; the results of later writes are free here. -/
inductive WriteResult
  | ok
  | failed (left : Remains)
  deriving DecidableEq, Repr

/-- Whether `Apply` rejects the edit because of the tables already in its level. -/
def Version.rejects (v : Version) (edit : VersionEdit) : Bool :=
  decide (edit.type = .addSSTable) && decide (1 ≤ edit.level) && !edit.skipOverlapCheck &&
    (v.levels edit.level).any (fun m => overlaps m.firstKey m.lastKey edit.firstKey edit.lastKey)

/-- What is written for an edit: the overlap flag is not persisted. -/
def VersionEdit.persisted (edit : VersionEdit) : VersionEdit :=
  { edit with skipOverlapCheck := false }

/-- Validate, persist and then apply an edit; the result says whether `Apply` returned an error. -/
def Manifest.apply (m : Manifest) (edit : VersionEdit) (res : WriteResult) :
    Manifest × Bool :=
  if m.current.rejects edit then (m, false)
  else
    match res with
    | .ok =>
      ({ m with current := m.current.applyEdit edit, file := m.file ++ [edit.persisted] }, true)
    | .failed left =>
      ({ m with
        file := m.file ++ if left.reached then [edit.persisted] else []
        torn := m.torn || left.torn }, false)

/-! ### Levels under edits -/

theorem mem_sortLevel {level : List SSTableMeta} {n : ℕ} {x : SSTableMeta} :
    x ∈ sortLevel level n ↔ x ∈ level := by
  unfold sortLevel
  split_ifs
  · exact Iff.rfl
  · exact List.mem_insertionSort _

theorem sortLevel_perm (level : List SSTableMeta) (n : ℕ) : (sortLevel level n).Perm level := by
  unfold sortLevel
  split_ifs
  · exact List.Perm.refl _
  · exact List.perm_insertionSort _ _

@[simp] theorem sortLevel_zero (level : List SSTableMeta) : sortLevel level 0 = level := by
  simp [sortLevel]

theorem metaLe_trans {c : SSTableMeta} (h : metaLe a b) (h' : metaLe b c) : metaLe a c := by
  rcases h with h | ⟨h1, h2⟩ <;> rcases h' with h' | ⟨h1', h2'⟩
  · exact Or.inl (h.trans h')
  · exact Or.inl (h1' ▸ h)
  · exact Or.inl (h1 ▸ h')
  · exact Or.inr ⟨h1.trans h1', h2.trans h2'⟩

theorem metaLe_total (a b : SSTableMeta) : metaLe a b ∨ metaLe b a := by
  rcases lt_trichotomy a.firstKey b.firstKey with h | h | h
  · exact Or.inl (Or.inl h)
  · rcases le_total a.fileID b.fileID with h' | h'
    · exact Or.inl (Or.inr ⟨h, h'⟩)
    · exact Or.inr (Or.inr ⟨h.symm, h'⟩)
  · exact Or.inr (Or.inl h)

theorem metaLe.firstKey_le (h : metaLe a b) : a.firstKey ≤ b.firstKey := by
  rcases h with h | h
  · exact h.le
  · exact h.1.le

theorem sortLevel_sorted (level : List SSTableMeta) {n : ℕ} (hn : n ≠ 0) :
    (sortLevel level n).Pairwise metaLe := by
  unfold sortLevel
  split_ifs with h
  · rcases h with h | h
    · exact absurd h hn
    · match level, h with
      | [], _ => exact List.Pairwise.nil
      | [a], _ => exact List.pairwise_singleton _ _
  · have : Std.Total metaLe := ⟨metaLe_total⟩
    have : IsTrans SSTableMeta metaLe := ⟨fun _ _ _ => metaLe_trans⟩
    exact List.pairwise_insertionSort _ _

/-- The edit that adds a table to a level, as the engine's callers write it. -/
def addEdit (m : SSTableMeta) (skipOverlapCheck : Bool) : VersionEdit :=
  { type := .addSSTable, level := m.level, fileID := m.fileID, fileSize := m.fileSize,
    firstKey := m.firstKey, lastKey := m.lastKey, skipOverlapCheck := skipOverlapCheck }

def deleteEdit (level fileID : ℕ) : VersionEdit :=
  { type := .deleteSSTable, level := level, fileID := fileID }

def logNumberEdit (n : ℕ) : VersionEdit := { type := .logNumber, logNumber := n }

def maxSeqNoEdit (n : ℕ) : VersionEdit := { type := .maxSeqNo, maxSeqNo := n }

theorem applyEdit_add_levels (v : Version) (m : SSTableMeta) (b : Bool) (i : ℕ) :
    (v.applyEdit (addEdit m b)).levels i =
      if i = m.level then sortLevel (v.levels i ++ [(addEdit m b).meta]) i else v.levels i := by
  by_cases h : i = m.level
  · subst h; simp [Version.applyEdit, addEdit]
  · simp [Version.applyEdit, addEdit, h]

theorem applyEdit_delete_levels (v : Version) (level fileID i : ℕ) :
    (v.applyEdit (deleteEdit level fileID)).levels i =
      if i = level then sortLevel ((v.levels i).filter (fun m => m.fileID != fileID)) i
      else v.levels i := by
  by_cases h : i = level
  · subst h; simp only [Version.applyEdit, deleteEdit, Function.update_self, if_true]
  · simp only [Version.applyEdit, deleteEdit, Function.update_of_ne h, if_neg h]

theorem recoverVersion_append (file : List VersionEdit) (edit : VersionEdit) :
    recoverVersion (file ++ [edit]) = (recoverVersion file).recoverEdit edit := by
  simp [recoverVersion, List.foldl_append]

end LsmTree
