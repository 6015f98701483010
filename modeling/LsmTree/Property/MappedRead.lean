import LsmTree.Correct.BlockCodec
import LsmTree.Sstable.File

/-!
# Reading with and without a mapping

`readBlockAt` compares the end of a block with the length of the mapping before it looks whether
there is one.  Without a mapping its length is zero, so that every block that is not empty is taken
to lie beyond the end: nothing is ever read from the file (`mapped_plain_iff`), and no table opens.
-/

namespace LsmTree.Table

open Word

variable {file : Bytes} {h : BlockHandle} {fileID level : ℕ} {r : SSTableReader}

/-- The bytes that `readBlockAt` returns. -/
def blockBytes (file mmapData : Bytes) (h : BlockHandle) :
    Except Halt (Except TableError Bytes) :=
  (readBlockAt file mmapData h).map fun r => r.map Slice.toList

theorem readBlockAt_mapped (hsize : 0 < h.size) (hin : h.offset + h.size ≤ file.length)
    (hlen : file.length < 2 ^ 63) :
    ∃ s, readBlockAt file file h = .ok (.ok s) ∧
      s.toList = (file.drop h.offset).take h.size ∧ s.array.length ≤ file.length := by
  have hend : int64 (int64 h.offset + int64 h.size) = (h.offset + h.size : ℕ) := by
    rw [int64_of_lt (by omega), int64_of_lt (by omega), ← Int.natCast_add, int64_of_lt (by omega)]
  have hne : file ≠ [] := List.ne_nil_of_length_pos (by omega)
  obtain ⟨s, hs, hlist, -⟩ := @slice_ok (.ofList file) h.offset (h.offset + h.size) (by omega)
    (by rw [Slice.len_ofList]; exact hin)
  refine ⟨s, ?_, ?_, slice_array_le hs⟩
  · unfold readBlockAt
    rw [if_neg (by omega), hend, if_neg (by omega), if_pos hne,
      show uint64 (h.offset + h.size) = h.offset + h.size from uint64_of_lt (by omega), hs]
    rfl
  · rw [hlist, Slice.toList_ofList, List.drop_take, Nat.add_sub_cancel_left]

theorem readBlockAt_plain (hsize : 0 < h.size) (hin : h.offset + h.size ≤ file.length)
    (hlen : file.length < 2 ^ 63) : readBlockAt file [] h = .ok (.error .unexpectedEOF) := by
  have hend : int64 (int64 h.offset + int64 h.size) = (h.offset + h.size : ℕ) := by
    rw [int64_of_lt (by omega), int64_of_lt (by omega), ← Int.natCast_add, int64_of_lt (by omega)]
  unfold readBlockAt
  rw [if_neg (by omega), hend, if_pos (by simp only [List.length_nil]; omega)]

theorem readBlockAt_mapped_ok {s : Slice UInt8} (hs : h.size < 2 ^ 64) (hlen : file.length < 2 ^ 63)
    (hread : readBlockAt file file h = .ok (.ok s)) :
    0 < h.size ∧ h.offset + h.size ≤ file.length := by
  unfold readBlockAt at hread
  split_ifs at hread with hzero hend hne hmake
  · cases hread
  · cases hread
  · -- a slice of the mapping
    rcases hslice : slice (.ofList file) h.offset (uint64 (h.offset + h.size)) with err | t
    · rw [hslice] at hread
      cases hread
    · obtain ⟨-, hlo, hhi⟩ := slice_eq_ok hslice
      have hcap : (Slice.ofList file).array.length = file.length := rfl
      rw [hcap] at hhi
      unfold uint64 at hlo hhi
      omega
  · -- an empty file has no bytes to read
    obtain rfl : file = [] := not_not.1 hne
    unfold readAt at hread
    split_ifs at hread with hneg hfit
    · cases hread
    · simp only [List.length_nil] at hfit
      omega
    · cases hread

theorem decodeBlockHandle_size_lt {data : Slice UInt8} {r : BlockHandle × ℤ}
    (h : decodeBlockHandle data = .ok r) : r.1.size < 2 ^ 64 := by
  unfold decodeBlockHandle at h
  simp only [bind, Except.bind, pure, Except.pure] at h
  split at h
  · cases h
  · cases h
    exact (Uvarint.get_bounds _).1

theorem footerHandles_size_lt {footer : Bytes} {r : BlockHandle × BlockHandle}
    (h : footerHandles footer = .ok r) : r.1.size < 2 ^ 64 ∧ r.2.size < 2 ^ 64 := by
  unfold footerHandles at h
  simp only [bind, Except.bind, pure, Except.pure] at h
  split at h
  · cases h
  · rename_i filter hfilter
    split at h
    · cases h
    · split at h
      · cases h
      · rename_i index hindex
        cases h
        exact ⟨decodeBlockHandle_size_lt hfilter, decodeBlockHandle_size_lt hindex⟩

theorem openBlocks_plain {handles : BlockHandle × BlockHandle} (hlen : file.length < 2 ^ 63)
    (hs : handles.1.size < 2 ^ 64 ∧ handles.2.size < 2 ^ 64)
    (hopen : openBlocks file file fileID level handles = .ok (.ok r)) :
    openBlocks file [] fileID level handles = .ok (.error .unexpectedEOF) := by
  unfold openBlocks at hopen ⊢
  by_cases hsize : 0 < handles.1.size
  · -- already the filter cannot be read
    have hin : handles.1.offset + handles.1.size ≤ file.length := by
      unfold loadFilter at hopen
      rw [if_pos hsize] at hopen
      rcases hread : readBlockAt file file handles.1 with err | _ | s
      · rw [hread] at hopen
        cases hopen
      · rw [hread] at hopen
        cases hopen
      · exact (readBlockAt_mapped_ok hs.1 hlen hread).2
    have hplain : loadFilter file [] handles.1 = .ok (.error .unexpectedEOF) := by
      rw [loadFilter, if_pos hsize, readBlockAt_plain hsize hin hlen]
      rfl
    rw [hplain]
    rfl
  · have hnone : ∀ mmapData, loadFilter file mmapData handles.1 = .ok (.ok none) := fun _ =>
      if_neg hsize
    rw [hnone] at hopen ⊢
    obtain ⟨hpos, hin⟩ : 0 < handles.2.size ∧
        handles.2.offset + handles.2.size ≤ file.length := by
      rcases hread : readBlockAt file file handles.2 with err | _ | s
      · simp only [loadIndex, hread, bind, Except.bind, andThen] at hopen
        cases hopen
      · simp only [loadIndex, hread, bind, Except.bind, andThen] at hopen
        cases hopen
      · exact readBlockAt_mapped_ok hs.2 hlen hread
    simp only [loadIndex, readBlockAt_plain hpos hin hlen, bind, Except.bind, andThen]

theorem newSSTableReader_plain {fileSize : ℕ} (hlen : file.length < 2 ^ 63)
    (hopen : newSSTableReader file fileSize true fileID level = .ok (.ok r)) :
    newSSTableReader file fileSize false fileID level = .ok (.error .unexpectedEOF) := by
  unfold newSSTableReader at hopen ⊢
  generalize readFooter file fileSize = g at hopen ⊢
  rcases g with e | footer
  · cases hopen
  · simp only [andThen, if_true, Bool.false_eq_true, if_false] at hopen ⊢
    rcases hh : footerHandles footer with err | handles
    · rw [hh] at hopen
      cases hopen
    · rw [hh] at hopen
      exact openBlocks_plain hlen (footerHandles_size_lt hh) hopen

/-- **The two ways of reading agree on empty blocks only**: a block that lies in the file is read
alike exactly when it has no bytes, and a table that opens with a mapping does not open without
one. -/
theorem mapped_plain_iff {file : Bytes} (hlen : file.length < 2 ^ 63) {h : BlockHandle}
    (hin : h.offset + h.size ≤ file.length) :
    (blockBytes file [] h = blockBytes file file h ↔ h.size = 0) ∧
      ∀ fileSize fileID level r,
        newSSTableReader file fileSize true fileID level = .ok (.ok r) →
        newSSTableReader file fileSize false fileID level = .ok (.error .unexpectedEOF) := by
  constructor
  · constructor
    · intro hagree
      by_contra hne
      obtain ⟨s, hs, -⟩ := readBlockAt_mapped (Nat.pos_of_ne_zero hne) hin hlen
      rw [blockBytes, blockBytes, readBlockAt_plain (Nat.pos_of_ne_zero hne) hin hlen, hs] at hagree
      cases hagree
    · intro hzero
      rw [blockBytes, blockBytes, readBlockAt, readBlockAt, if_pos hzero, if_pos hzero]
  · exact fun _ _ _ _ => newSSTableReader_plain hlen

/-- Add the entries to a new builder and finish the table. -/
def build (path : String) (fileID level : ℕ) (blockSize bitsPerKey now : ℤ)
    (es : List (InternalKey × Bytes)) : Except Halt (SSTableMeta × SSTableBuilder) := do
  let b ← es.foldlM (fun b e => b.add e.1 e.2)
    (newSSTableBuilder path fileID level blockSize bitsPerKey)
  b.finish now

/-- Two versions of one key, a tombstone and an empty value. -/
def sampleEntries : List (InternalKey × Bytes) :=
  [(⟨[1], 5, 1⟩, [7, 8]), (⟨[1], 4, 2⟩, []), (⟨[1, 2], 9, 1⟩, []), (⟨[3], 2, 1⟩, [1])]

def sampleFile : Bytes :=
  match build "t.sst" 1 0 30 10 0 sampleEntries with
  | .ok r => r.2.file
  | .error _ => []

theorem sampleFile_length : sampleFile.length = 151 := by decide +kernel

/-- An empty block is read alike. -/
theorem sampleFile_empty_block :
    blockBytes sampleFile [] ⟨20, 0⟩ = blockBytes sampleFile sampleFile ⟨20, 0⟩ :=
  (@mapped_plain_iff sampleFile (by rw [sampleFile_length]; omega) ⟨20, 0⟩
    (by rw [sampleFile_length]; decide)).1.2 rfl

/-- **A table that cannot be read without a mapping**: with one its first block is read and the
table opens, without one both fail with `ErrUnexpectedEOF`. -/
theorem sampleFile_not_read :
    blockBytes sampleFile sampleFile ⟨0, 37⟩ = .ok (.ok (sampleFile.take 37)) ∧
      blockBytes sampleFile [] ⟨0, 37⟩ = .ok (.error .unexpectedEOF) ∧
      (∃ r, newSSTableReader sampleFile sampleFile.length true 1 0 = .ok (.ok r)) ∧
      newSSTableReader sampleFile sampleFile.length false 1 0 = .ok (.error .unexpectedEOF) := by
  have hlen : sampleFile.length < 2 ^ 63 := by rw [sampleFile_length]; omega
  obtain ⟨r, hopen⟩ :
      ∃ r, newSSTableReader sampleFile sampleFile.length true 1 0 = .ok (.ok r) := by
    have hsome : ((newSSTableReader sampleFile sampleFile.length true 1 0).toOption.bind
        Except.toOption).isSome = true := by decide +kernel
    generalize newSSTableReader sampleFile sampleFile.length true 1 0 = g at hsome ⊢
    rcases g with _ | _ | r
    · cases hsome
    · cases hsome
    · exact ⟨r, rfl⟩
  exact ⟨by decide +kernel, by decide +kernel, ⟨r, hopen⟩, newSSTableReader_plain hlen hopen⟩

end LsmTree.Table
