import Mathlib.Data.List.Induction
import LsmTree.Wal.Log

/-!
# How a log file is laid out

A log file is a sequence of fragments, each with the padding in front of it (`Fragment`).  The
writer puts every fragment where it fits into its block (`Placed`), and the reader takes in fragment
after fragment (`resume_fragments`), up to one that is cut short (`resume_cut`).
-/

namespace LsmTree.Log

open LittleEndian

variable {fuel pos : ℕ} {data : Bytes}

/-- A fragment with the zeros written in front of it. -/
structure Fragment where
  pad : ℕ
  type : UInt8
  chunk : Bytes
  deriving DecidableEq, Repr

namespace Fragment

def size (f : Fragment) : ℕ := f.pad + headerSize + f.chunk.length

def bytes (crc : Bytes → UInt32) (f : Fragment) : Bytes :=
  List.replicate f.pad 0 ++ (header crc f.type f.chunk ++ f.chunk)

/-- A fragment can stand at a position of a block: in the rest of the block, or after padding in
the next one if there is no room for a payload byte. -/
structure FitsAt (f : Fragment) (pos : ℕ) : Prop where
  pos_lt : pos < blockSize
  chunk_ne : f.chunk ≠ []
  room : (f.pad = 0 ∧ pos + headerSize + f.chunk.length ≤ blockSize) ∨
    (f.pad = blockSize - pos ∧ blockSize ≤ pos + headerSize ∧
      headerSize + f.chunk.length ≤ blockSize)

end Fragment

def totalSize (fs : List Fragment) : ℕ := (fs.map Fragment.size).sum

/-- Every fragment fits at the position where it comes to stand. -/
def Placed : ℕ → List Fragment → Prop
  | _, [] => True
  | pos, f :: fs => f.FitsAt pos ∧ Placed ((pos + f.size) % blockSize) fs

/-- The zeros to write before a fragment at a position, and where the fragment then starts. -/
def padAt (pos : ℕ) : ℕ := if blockSize ≤ pos + headerSize then blockSize - pos else 0

@[inherit_doc padAt]
def startAt (pos : ℕ) : ℕ := if blockSize ≤ pos + headerSize then 0 else pos

def availAt (pos : ℕ) : ℕ := blockSize - startAt pos - headerSize

/-- The fragments a payload is cut into at a position of a block. -/
def fragments : ℕ → ℕ → Bool → Bytes → List Fragment
  | 0, _, _, _ => []
  | fuel + 1, pos, isFirst, data =>
    if data = [] then []
    else
      let rest := data.drop (availAt pos)
      let f : Fragment := ⟨padAt pos, recordType isFirst rest.isEmpty, data.take (availAt pos)⟩
      f :: fragments fuel ((pos + f.size) % blockSize) false rest

section

variable (crc : Bytes → UInt32)

variable {fuel fuel' pos : ℕ} {block chunk rest : Bytes} {t : UInt8} {f : Fragment}

@[simp] theorem length_header (t : UInt8) (chunk : Bytes) :
    (header crc t chunk).length = headerSize := by
  simp [header, headerSize]

@[simp] theorem Fragment.length_bytes (f : Fragment) : (f.bytes crc).length = f.size := by
  simp only [bytes, size, List.length_append, List.length_replicate, length_header]
  omega

@[simp] theorem totalSize_nil : totalSize [] = 0 := rfl

@[simp] theorem totalSize_cons (f : Fragment) (fs : List Fragment) :
    totalSize (f :: fs) = f.size + totalSize fs := rfl

@[simp] theorem totalSize_append (fs gs : List Fragment) :
    totalSize (fs ++ gs) = totalSize fs + totalSize gs := by
  simp [totalSize]

theorem length_flatMap_bytes (fs : List Fragment) :
    (fs.flatMap (Fragment.bytes crc)).length = totalSize fs := by
  induction fs with
  | nil => rfl
  | cons f fs ih => rw [List.flatMap_cons, List.length_append, ih, Fragment.length_bytes,
      totalSize_cons]

theorem blockSize_pos : 0 < blockSize := by decide

theorem headerSize_lt : headerSize < blockSize := by decide

theorem blockSize_lt : blockSize < 2 ^ 16 := by decide

theorem placed_append (hpos : pos < blockSize) {fs gs : List Fragment} :
    Placed pos (fs ++ gs) ↔ Placed pos fs ∧ Placed ((pos + totalSize fs) % blockSize) gs := by
  induction fs generalizing pos with
  | nil => simp [Placed, Nat.mod_eq_of_lt hpos]
  | cons f fs ih =>
    rw [List.cons_append, Placed, Placed, ih (Nat.mod_lt _ blockSize_pos), totalSize_cons,
      and_assoc,
      Nat.mod_add_mod, add_assoc]

/-! ## The writer -/

theorem Fragment.size_pos (f : Fragment) : 0 < f.size := by
  unfold Fragment.size headerSize
  omega

theorem startAt_add_headerSize (pos : ℕ) : startAt pos + headerSize < blockSize := by
  have hlt := headerSize_lt
  unfold startAt
  split_ifs <;> omega

theorem availAt_pos (pos : ℕ) : 0 < availAt pos := by
  have hlt := startAt_add_headerSize pos
  unfold availAt
  omega

theorem startAt_add_take (pos : ℕ) (data : Bytes) :
    startAt pos + headerSize + (data.take (availAt pos)).length ≤ blockSize := by
  have hlt := startAt_add_headerSize pos
  have hlen := List.length_take_le (availAt pos) data
  unfold availAt at hlen ⊢
  omega

theorem fitsAt_mk (hpos : pos < blockSize) (t : UInt8) (hne : chunk ≠ [])
    (hroom : startAt pos + headerSize + chunk.length ≤ blockSize) :
    (Fragment.mk (padAt pos) t chunk).FitsAt pos := by
  refine ⟨hpos, hne, ?_⟩
  unfold padAt
  unfold startAt at hroom
  split_ifs at hroom ⊢ with hfull
  · exact Or.inr ⟨rfl, hfull, by simpa using hroom⟩
  · exact Or.inl ⟨rfl, hroom⟩

theorem fragments_placed (fuel : ℕ) (hpos : pos < blockSize) (isFirst : Bool) (data : Bytes) :
    Placed pos (fragments fuel pos isFirst data) := by
  induction fuel generalizing pos isFirst data with
  | zero => trivial
  | succ fuel ih =>
    rw [fragments]
    split_ifs with hdata
    · trivial
    · refine ⟨fitsAt_mk hpos _ ?_ (startAt_add_take pos data), ih (Nat.mod_lt _ blockSize_pos) _ _⟩
      simp [(availAt_pos pos).ne', hdata]

theorem padBlock_eq (w : WAL) :
    w.padBlock =
      { w with
        file := w.file ++ List.replicate (padAt w.blockPos) 0
        blockPos := startAt w.blockPos } := by
  unfold WAL.padBlock padAt startAt
  rcases lt_trichotomy blockSize (w.blockPos + headerSize) with hlt | heq | hgt
  · rw [if_pos hlt, if_pos hlt.le, if_pos hlt.le]
  · rw [if_neg heq.not_lt, if_pos heq.symm, if_pos heq.le, if_pos heq.le,
      show blockSize - w.blockPos = headerSize by omega]
  · rw [if_neg hgt.not_gt, if_neg hgt.ne, if_neg hgt.not_ge, if_neg hgt.not_ge]
    simp

theorem add_size_mod (hpos : pos < blockSize) (t : UInt8)
    (hroom : startAt pos + headerSize + chunk.length ≤ blockSize) :
    (pos + (Fragment.mk (padAt pos) t chunk).size) % blockSize =
      if blockSize ≤ startAt pos + headerSize + chunk.length then 0
      else startAt pos + headerSize + chunk.length := by
  have hsum : (pos + (Fragment.mk (padAt pos) t chunk).size) % blockSize =
      (startAt pos + headerSize + chunk.length) % blockSize := by
    unfold Fragment.size padAt startAt
    split_ifs
    · rw [show pos + (blockSize - pos + headerSize + chunk.length) =
        0 + headerSize + chunk.length + blockSize by omega, Nat.add_mod_right]
    · rw [show pos + (0 + headerSize + chunk.length) = pos + headerSize + chunk.length by omega]
  rw [hsum]
  split_ifs with hle
  · rw [le_antisymm hroom hle, Nat.mod_self]
  · exact Nat.mod_eq_of_lt (not_le.1 hle)

theorem writeFragment_padBlock (w : WAL) (hpos : w.blockPos < blockSize) (t : UInt8)
    (hroom : startAt w.blockPos + headerSize + chunk.length ≤ blockSize) :
    w.padBlock.writeFragment crc t chunk =
      { w with
        file := w.file ++ (Fragment.mk (padAt w.blockPos) t chunk).bytes crc
        blockPos := (w.blockPos + (Fragment.mk (padAt w.blockPos) t chunk).size) % blockSize } := by
  rw [add_size_mod hpos t hroom, padBlock_eq, WAL.writeFragment, Fragment.bytes]
  simp only [List.append_assoc]

/-- **The writer lays out the fragments of the payload.** -/
theorem writeLoop_eq (fuel : ℕ) (isFirst : Bool) (data : Bytes) (w : WAL)
    (hpos : w.blockPos < blockSize) :
    WAL.writeLoop crc fuel isFirst data w =
      { w with
        file := w.file ++ (fragments fuel w.blockPos isFirst data).flatMap (Fragment.bytes crc)
        blockPos := (w.blockPos + totalSize (fragments fuel w.blockPos isFirst data)) %
          blockSize } := by
  induction fuel generalizing isFirst data w with
  | zero => simp [WAL.writeLoop, fragments, Nat.mod_eq_of_lt hpos]
  | succ fuel ih =>
    rw [WAL.writeLoop, fragments]
    split_ifs with hdata
    · simp [Nat.mod_eq_of_lt hpos]
    have havail : blockSize - w.padBlock.blockPos - headerSize = availAt w.blockPos := by
      rw [padBlock_eq]
      rfl
    simp only [havail]
    rw [writeFragment_padBlock crc w hpos _ (startAt_add_take _ _),
      ih _ _ _ (Nat.mod_lt _ blockSize_pos), List.flatMap_cons, totalSize_cons, Nat.mod_add_mod,
      List.append_assoc, add_assoc]

/-! ## The reader -/

theorem readBlock_header {s l : ℕ} (hs : s < 2 ^ 32) (hl : l < 2 ^ 16) (t : UInt8) (tail : Bytes)
    (fuel : ℕ) (r : Reader) :
    readBlock crc (fuel + 1) (encode 4 s ++ encode 2 l ++ [t] ++ tail) r =
      if l = 0 ∧ t = 0 then (r, false)
      else if tail.length < l then (r, true)
      else if (crc (tail.take l)).toNat ≠ s then (r, true)
      else readBlock crc fuel (tail.drop l) (r.add t (tail.take l)) := by
  have hlen : (encode 4 s ++ encode 2 l ++ [t] ++ tail).length = headerSize + tail.length := by
    simp only [List.length_append, length_encode, List.length_singleton, headerSize]
  have hcrc : decode ((encode 4 s ++ encode 2 l ++ [t] ++ tail).take 4) = s := by
    rw [List.append_assoc, List.append_assoc, decode_take_append]
    exact Nat.mod_eq_of_lt hs
  have h4 : (encode 4 s ++ encode 2 l ++ [t] ++ tail).drop 4 = encode 2 l ++ ([t] ++ tail) := by
    rw [List.append_assoc, List.append_assoc, List.drop_left' (length_encode 4 s)]
  have hlength : decode (((encode 4 s ++ encode 2 l ++ [t] ++ tail).drop 4).take 2) = l := by
    rw [h4, decode_take_append]
    exact Nat.mod_eq_of_lt hl
  have h6 : (encode 4 s ++ encode 2 l ++ [t] ++ tail).drop 6 = t :: tail := by
    rw [show 6 = 4 + 2 from rfl, ← List.drop_drop, h4, List.drop_left' (length_encode 2 l)]
    rfl
  have h7 : (encode 4 s ++ encode 2 l ++ [t] ++ tail).drop headerSize = tail := by
    rw [show headerSize = 6 + 1 from rfl, ← List.drop_drop, h6]
    rfl
  have hrest : (encode 4 s ++ encode 2 l ++ [t] ++ tail).drop (headerSize + l) = tail.drop l := by
    rw [← List.drop_drop, h7]
  rw [readBlock]
  simp only [hlen, hcrc, hlength, h6, h7, hrest, List.headD_cons, Nat.add_lt_add_iff_left]
  rw [if_neg (by omega)]

theorem readBlock_short (h : block.length < headerSize) (fuel : ℕ) (r : Reader) :
    readBlock crc fuel block r = (r, false) := by
  cases fuel with
  | zero => rfl
  | succ fuel => rw [readBlock, if_pos h]

theorem readBlock_fuel (h : block.length ≤ fuel) (h' : block.length ≤ fuel') (r : Reader) :
    readBlock crc fuel block r = readBlock crc fuel' block r := by
  induction fuel generalizing block fuel' r with
  | zero =>
    have hshort : block.length < headerSize := by unfold headerSize; omega
    rw [readBlock_short crc hshort, readBlock_short crc hshort]
  | succ fuel ih =>
    by_cases hshort : block.length < headerSize
    · rw [readBlock_short crc hshort, readBlock_short crc hshort]
    have hpos : 0 < headerSize := by decide
    obtain ⟨fuel', rfl⟩ : ∃ n, fuel' = n + 1 := ⟨fuel' - 1, by omega⟩
    rw [readBlock, readBlock, if_neg hshort, if_neg hshort]
    simp only
    split_ifs
    · rfl
    · rfl
    · rfl
    · apply ih
      · rw [List.length_drop]; omega
      · rw [List.length_drop]; omega

theorem recoverBlocks_fuel {file : Bytes} (h : file.length < fuel) (h' : file.length < fuel')
    (r : Reader) : recoverBlocks crc fuel file r = recoverBlocks crc fuel' file r := by
  induction fuel generalizing file fuel' r with
  | zero => omega
  | succ fuel ih =>
    obtain ⟨fuel', rfl⟩ : ∃ n, fuel' = n + 1 := ⟨fuel' - 1, by omega⟩
    have hpos := blockSize_pos
    rw [recoverBlocks, recoverBlocks]
    by_cases hnil : file.take blockSize = []
    · rw [if_pos hnil, if_pos hnil]
    rw [if_neg hnil, if_neg hnil]
    split
    · rfl
    · by_cases hlast : (file.take blockSize).length < blockSize
      · rw [if_pos hlast, if_pos hlast]
      rw [if_neg hlast, if_neg hlast]
      rw [List.length_take] at hlast
      apply ih
      · rw [List.length_drop]; omega
      · rw [List.length_drop]; omega

/-- Go on reading at position `pos` of a block, with `rest` still to read. -/
def resume (pos : ℕ) (rest : Bytes) (r : Reader) : Reader :=
  match readBlock crc rest.length (rest.take (blockSize - pos)) r with
  | (r, true) => r
  | (r, false) =>
    if rest.length < blockSize - pos then r
    else recoverBlocks crc (rest.length + 1) (rest.drop (blockSize - pos)) r

theorem recoverBlocks_eq_resume (file : Bytes) (r : Reader) :
    recoverBlocks crc (file.length + 1) file r = resume crc 0 file r := by
  rw [recoverBlocks, resume]
  by_cases hnil : file = []
  · subst hnil
    rfl
  have hne : file.take blockSize ≠ [] := by
    rw [Ne, List.take_eq_nil_iff, not_or]
    exact ⟨blockSize_pos.ne', hnil⟩
  have hpos := blockSize_pos
  have hlen := List.length_pos_iff.2 hnil
  simp only [hne, if_false, Nat.sub_zero]
  rw [readBlock_fuel crc le_rfl (List.length_take_le' _ _)]
  rcases readBlock crc file.length (file.take blockSize) r with ⟨r', stop⟩
  cases stop with
  | true => rfl
  | false =>
    simp only [List.length_take]
    by_cases hlast : file.length < blockSize
    · rw [if_pos (by omega), if_pos hlast]
    · rw [if_neg (by omega), if_neg hlast]
      exact recoverBlocks_fuel crc (by rw [List.length_drop]; omega)
        (by rw [List.length_drop]; omega) _

theorem resume_blockSize (rest : Bytes) (r : Reader) :
    resume crc blockSize rest r = resume crc 0 rest r := by
  rw [← recoverBlocks_eq_resume, resume, Nat.sub_self, List.take_zero,
    readBlock_short crc (by decide)]
  simp

@[simp] theorem resume_nil (pos : ℕ) (r : Reader) : resume crc pos [] r = r := by
  rw [resume, List.take_nil, readBlock_short crc (by decide)]
  simp only [List.drop_nil]
  split_ifs
  · rfl
  · rfl

theorem resume_skip {r : Reader}
    (h : readBlock crc rest.length (rest.take (blockSize - pos)) r = (r, false)) :
    resume crc pos rest r = resume crc 0 (rest.drop (blockSize - pos)) r := by
  rw [resume, h]
  simp only
  split_ifs with hlast
  · rw [List.drop_eq_nil_of_le hlast.le, resume_nil]
  · rw [← recoverBlocks_eq_resume]
    exact recoverBlocks_fuel crc (by rw [List.length_drop]; omega) (by omega) r

theorem resume_short (h : (rest.take (blockSize - pos)).length < headerSize) (r : Reader) :
    resume crc pos rest r = resume crc 0 (rest.drop (blockSize - pos)) r :=
  resume_skip crc (readBlock_short crc h _ r)

/-- **What the reader does at a header**: it takes it for padding, stops, or takes in the fragment
and goes on after it. -/
theorem resume_header {s l : ℕ} (hpos : pos + headerSize ≤ blockSize) (hs : s < 2 ^ 32)
    (hl : l < 2 ^ 16) (t : UInt8) (tail : Bytes) (r : Reader) :
    resume crc pos (encode 4 s ++ encode 2 l ++ [t] ++ tail) r =
      if l = 0 ∧ t = 0 then resume crc 0 (tail.drop (blockSize - (pos + headerSize))) r
      else if (tail.take (blockSize - (pos + headerSize))).length < l then r
      else if (crc (tail.take l)).toNat ≠ s then r
      else resume crc (pos + headerSize + l) (tail.drop l) (r.add t (tail.take l)) := by
  set avail := blockSize - (pos + headerSize) with havail
  have hhead : (encode 4 s ++ encode 2 l ++ [t]).length = headerSize := by simp [headerSize]
  have hlen : (encode 4 s ++ encode 2 l ++ [t] ++ tail).length = headerSize + tail.length := by
    rw [List.length_append, hhead]
  have hblock : (encode 4 s ++ encode 2 l ++ [t] ++ tail).take (blockSize - pos) =
      encode 4 s ++ encode 2 l ++ [t] ++ tail.take avail := by
    rw [List.take_append, hhead, List.take_of_length_le (by rw [hhead]; omega),
      show blockSize - pos - headerSize = avail by omega]
  have hdrop : (encode 4 s ++ encode 2 l ++ [t] ++ tail).drop (blockSize - pos) =
      tail.drop avail := by
    rw [show blockSize - pos = headerSize + avail by omega, ← List.drop_drop,
      List.drop_left' hhead]
  have hfuel : (encode 4 s ++ encode 2 l ++ [t] ++ tail).length =
      (headerSize - 1 + tail.length) + 1 := by
    rw [hlen]
    have : 0 < headerSize := by decide
    omega
  have hread := readBlock_header crc hs hl t (tail.take avail) (headerSize - 1 + tail.length) r
  rw [← hfuel, ← hblock] at hread
  split_ifs with hzero hcut hcrc
  · rw [resume_skip crc, hdrop]
    rw [hread, if_pos hzero]
  · rw [resume, hread, if_neg hzero, if_pos hcut]
  all_goals
    have hle : l ≤ avail ∧ l ≤ tail.length := by
      rw [List.length_take] at hcut
      omega
    have htake : (tail.take avail).take l = tail.take l := by
      rw [List.take_take, min_eq_left hle.1]
  · rw [resume, hread, if_neg hzero, if_neg hcut, htake, if_pos hcrc]
  · have hrest : ((tail.drop l).take (blockSize - (pos + headerSize + l))).length ≤
        (tail.drop l).length := List.length_take_le' _ _
    have hrounds : ((tail.drop l).take (blockSize - (pos + headerSize + l))).length ≤
        headerSize - 1 + tail.length := by
      rw [List.length_drop] at hrest
      omega
    rw [resume, hread, if_neg hzero, if_neg hcut, htake, if_neg hcrc, resume, List.drop_take,
      show avail - l = blockSize - (pos + headerSize + l) by omega,
      readBlock_fuel crc hrounds hrest]
    rcases readBlock crc (tail.drop l).length
      ((tail.drop l).take (blockSize - (pos + headerSize + l))) (r.add t (tail.take l)) with
      ⟨r', stop⟩
    cases stop with
    | true => rfl
    | false =>
      simp only [hdrop, List.length_drop, hlen, List.drop_drop]
      by_cases hlast : headerSize + tail.length < blockSize - pos
      · rw [if_pos hlast, if_pos (by omega)]
      · rw [if_neg hlast, if_neg (by omega),
          show l + (blockSize - (pos + headerSize + l)) = avail by omega]
        exact recoverBlocks_fuel crc (by rw [List.length_drop]; omega)
          (by rw [List.length_drop]; omega) _

/-! ## Reading fragments -/

def Reader.addAll (r : Reader) (fs : List Fragment) : Reader :=
  fs.foldl (fun r f => r.add f.type f.chunk) r

@[simp] theorem Reader.addAll_nil (r : Reader) : r.addAll [] = r := rfl

@[simp] theorem Reader.addAll_cons (r : Reader) (f : Fragment) (fs : List Fragment) :
    r.addAll (f :: fs) = (r.add f.type f.chunk).addAll fs := rfl

theorem Reader.addAll_append (r : Reader) (fs gs : List Fragment) :
    r.addAll (fs ++ gs) = (r.addAll fs).addAll gs := List.foldl_append

variable {crc}

theorem resume_padding (hpos : pos < blockSize) (hfull : blockSize ≤ pos + headerSize)
    (rest : Bytes) (r : Reader) :
    resume crc pos (List.replicate (blockSize - pos) 0 ++ rest) r = resume crc 0 rest r := by
  have hdrop : (List.replicate (blockSize - pos) (0 : UInt8) ++ rest).drop (blockSize - pos) =
    rest :=
    List.drop_left' List.length_replicate
  have htake : (List.replicate (blockSize - pos) (0 : UInt8) ++ rest).take (blockSize - pos) =
      List.replicate (blockSize - pos) 0 := List.take_left' List.length_replicate
  rcases hfull.lt_or_eq with hlt | heq
  · rw [resume_short, hdrop]
    rw [htake, List.length_replicate]
    omega
  · -- seven zeros read as a header of type and length zero
    have hzeros : List.replicate (blockSize - pos) (0 : UInt8) =
        encode 4 0 ++ encode 2 0 ++ [0] := by
      rw [show blockSize - pos = 7 by unfold headerSize at heq; omega]
      rfl
    rw [hzeros, resume_header crc heq.ge (by decide) (by decide), if_pos ⟨rfl, rfl⟩, heq,
      Nat.sub_self, List.drop_zero]

theorem resume_chunk (hne : chunk ≠ []) (hroom : pos + headerSize + chunk.length ≤ blockSize)
    (rest : Bytes) (r : Reader) :
    resume crc pos (header crc t chunk ++ chunk ++ rest) r =
      resume crc ((pos + headerSize + chunk.length) % blockSize) rest (r.add t chunk) := by
  have hlt := blockSize_lt
  have hlen : 0 < chunk.length := List.length_pos_iff.2 hne
  rw [header, List.append_assoc _ chunk rest,
    resume_header crc (by omega) (crc chunk).toNat_lt (by omega), if_neg (by omega),
    if_neg (by rw [List.length_take, List.length_append]; omega), List.take_left, if_neg (by simp),
    List.drop_left]
  rcases hroom.lt_or_eq with hlt | heq
  · rw [Nat.mod_eq_of_lt hlt]
  · rw [heq, Nat.mod_self, resume_blockSize]

theorem resume_fragment (hf : f.FitsAt pos) (rest : Bytes) (r : Reader) :
    resume crc pos (f.bytes crc ++ rest) r =
      resume crc ((pos + f.size) % blockSize) rest (r.add f.type f.chunk) := by
  obtain ⟨hpos, hne, ⟨hpad, hroom⟩ | ⟨hpad, hfull, hroom⟩⟩ := hf
  · rw [Fragment.bytes, hpad, List.replicate_zero, List.nil_append, resume_chunk hne hroom,
      Fragment.size, hpad, show pos + (0 + headerSize + f.chunk.length) =
        pos + headerSize + f.chunk.length by omega]
  · rw [Fragment.bytes, hpad, List.append_assoc, resume_padding hpos hfull,
      resume_chunk hne (by omega), Fragment.size, hpad,
      show pos + (blockSize - pos + headerSize + f.chunk.length) =
        0 + headerSize + f.chunk.length + blockSize by omega, Nat.add_mod_right]

/-- **The reader takes in fragment after fragment.** -/
theorem resume_fragments {pos : ℕ} (hpos : pos < blockSize) {fs : List Fragment} (h : Placed pos fs)
    (rest : Bytes) (r : Reader) :
    resume crc pos (fs.flatMap (Fragment.bytes crc) ++ rest) r =
      resume crc ((pos + totalSize fs) % blockSize) rest (r.addAll fs) := by
  induction fs generalizing pos r with
  | nil => simp [Nat.mod_eq_of_lt hpos]
  | cons f fs ih =>
    rw [List.flatMap_cons, List.append_assoc, resume_fragment h.1,
      ih (Nat.mod_lt _ blockSize_pos) h.2, totalSize_cons, Reader.addAll_cons, Nat.mod_add_mod,
      add_assoc]

theorem resume_chunk_cut {n : ℕ} (hne : chunk ≠ [])
    (hroom : pos + headerSize + chunk.length ≤ blockSize) (hn : n < headerSize + chunk.length)
    (r : Reader) : resume crc pos ((header crc t chunk ++ chunk).take n) r = r := by
  have hlt := blockSize_lt
  have hlen : 0 < chunk.length := List.length_pos_iff.2 hne
  have hcut : ((header crc t chunk ++ chunk).take n).length = n := by
    rw [List.length_take, List.length_append, length_header]
    omega
  by_cases hshort : n < headerSize
  · rw [resume_short, List.drop_eq_nil_of_le (by rw [hcut]; omega), resume_nil]
    rw [List.length_take, hcut]
    omega
  · rw [List.take_append, length_header, List.take_of_length_le (by rw [length_header]; omega),
      header,
      resume_header crc (by omega) (crc chunk).toNat_lt (by omega), if_neg (by omega),
      if_pos (by rw [List.length_take, List.length_take]; omega)]

/-- **The reader stops at a fragment that is cut short.** -/
theorem resume_cut {n : ℕ} (hf : f.FitsAt pos) (hn : n < f.size) (r : Reader) :
    resume crc pos ((f.bytes crc).take n) r = r := by
  obtain ⟨hpos, hne, ⟨hpad, hroom⟩ | ⟨hpad, hfull, hroom⟩⟩ := hf
  · rw [Fragment.bytes, hpad, List.replicate_zero, List.nil_append]
    rw [Fragment.size, hpad] at hn
    exact resume_chunk_cut hne hroom (by omega) r
  · rw [Fragment.size, hpad] at hn
    rw [Fragment.bytes, hpad, List.take_append, List.length_replicate]
    rcases lt_or_ge n (blockSize - pos) with hin | hout
    · have hcut : ((List.replicate (blockSize - pos) (0 : UInt8)).take n).length = n := by
        rw [List.length_take, List.length_replicate]
        omega
      rw [show n - (blockSize - pos) = 0 by omega, List.take_zero, List.append_nil, resume_short,
        List.drop_eq_nil_of_le (by rw [hcut]; omega), resume_nil]
      rw [List.length_take, hcut]
      omega
    · rw [List.take_of_length_le (by rw [List.length_replicate]; exact hout),
        resume_padding hpos hfull]
      exact resume_chunk_cut hne (by omega) (by omega) r

theorem resume_fragments_cut {pos n : ℕ} {fs : List Fragment} (h : Placed pos fs)
    (hn : n < totalSize fs) (r : Reader) :
    ∃ gs f hs, fs = gs ++ f :: hs ∧
      resume crc pos ((fs.flatMap (Fragment.bytes crc)).take n) r = r.addAll gs := by
  induction fs generalizing pos n r with
  | nil => simp at hn
  | cons f fs ih =>
    rw [totalSize_cons] at hn
    rw [List.flatMap_cons, List.take_append, Fragment.length_bytes]
    rcases lt_or_ge n f.size with hin | hout
    · refine ⟨[], f, fs, rfl, ?_⟩
      rw [show n - f.size = 0 by omega, List.take_zero, List.append_nil, resume_cut h.1 hin]
      rfl
    · obtain ⟨gs, g, hs, rfl, hread⟩ := ih h.2 (show n - f.size < _ by omega) (r.add f.type f.chunk)
      refine ⟨f :: gs, g, hs, rfl, ?_⟩
      rw [List.take_of_length_le (by rw [Fragment.length_bytes]; exact hout), resume_fragment h.1,
        hread, Reader.addAll_cons]

end

/-! ## The fragments of one payload -/

/-- Fragments that go on with a payload up to its end. -/
inductive Continuation : List Fragment → Bytes → Prop
  | last {f : Fragment} : f.type = recordLast → Continuation [f] f.chunk
  | middle {f : Fragment} {fs : List Fragment} {data : Bytes} : f.type = recordMiddle →
      Continuation fs data → Continuation (f :: fs) (f.chunk ++ data)

inductive Whole : List Fragment → Bytes → Prop
  | full {f : Fragment} : f.type = recordFull → Whole [f] f.chunk
  | first {f : Fragment} {fs : List Fragment} {data : Bytes} : f.type = recordFirst →
      Continuation fs data → Whole (f :: fs) (f.chunk ++ data)

theorem fragments_nil (fuel pos : ℕ) (isFirst : Bool) : fragments fuel pos isFirst [] = [] := by
  cases fuel with
  | zero => rfl
  | succ fuel => rfl

theorem fragments_cases (hne : data ≠ []) (h : data.length ≤ fuel + 1) (pos : ℕ) (isFirst : Bool) :
    fragments (fuel + 1) pos isFirst data = [⟨padAt pos, recordType isFirst true, data⟩] ∨
    ∃ chunk rest pos', data = chunk ++ rest ∧ rest ≠ [] ∧ rest.length ≤ fuel ∧
      fragments (fuel + 1) pos isFirst data =
        ⟨padAt pos, recordType isFirst false, chunk⟩ :: fragments fuel pos' false rest := by
  have havail := availAt_pos pos
  rw [fragments, if_neg hne]
  rcases le_or_gt data.length (availAt pos) with hle | hgt
  · left
    simp only [List.drop_eq_nil_of_le hle, List.take_of_length_le hle, fragments_nil,
      List.isEmpty_nil]
  · right
    have hrest : data.drop (availAt pos) ≠ [] := by
      rw [Ne, List.drop_eq_nil_iff]
      omega
    have hempty : (data.drop (availAt pos)).isEmpty = false := by simpa using hrest
    simp only [hempty]
    exact ⟨data.take (availAt pos), data.drop (availAt pos), _, (List.take_append_drop _ _).symm,
      hrest, by rw [List.length_drop]; omega, rfl⟩

theorem fragments_continuation (hne : data ≠ []) (h : data.length ≤ fuel) (pos : ℕ) :
    Continuation (fragments fuel pos false data) data := by
  induction fuel generalizing data pos with
  | zero => exact absurd (List.length_eq_zero_iff.1 (by omega)) hne
  | succ fuel ih =>
    rcases fragments_cases hne h pos false with heq | ⟨chunk, rest, pos', rfl, hrest, hlen, heq⟩
    · rw [heq]
      exact Continuation.last rfl
    · rw [heq]
      exact Continuation.middle rfl (ih hrest hlen pos')

theorem fragments_whole (hne : data ≠ []) (pos : ℕ) :
    Whole (fragments data.length pos true data) data := by
  obtain ⟨fuel, hfuel⟩ : ∃ n, data.length = n + 1 :=
    ⟨data.length - 1, by have := List.length_pos_iff.2 hne; omega⟩
  rw [hfuel]
  rcases fragments_cases hne hfuel.le pos true with heq | ⟨chunk, rest, pos', rfl, hrest, hlen, heq⟩
  · rw [heq]
    exact Whole.full rfl
  · rw [heq]
    exact Whole.first rfl (fragments_continuation hrest hlen pos')

variable {fs : List Fragment}

theorem Continuation.addAll (h : Continuation fs data) (r : Reader) :
    r.addAll fs = ⟨r.entries ++ (decodeEntries (r.pendingFragments ++ data)).getD [], []⟩ := by
  induction h generalizing r with
  | @last f hf => simp [Reader.add, hf, recordFull, recordFirst, recordMiddle, recordLast]
  | @middle f fs data hf _ ih =>
    have hadd : r.add f.type f.chunk = { r with
        pendingFragments := r.pendingFragments ++ f.chunk } := by
      simp [Reader.add, hf, recordFull, recordFirst, recordMiddle]
    rw [Reader.addAll_cons, ih, hadd, List.append_assoc]

variable {gs hs : List Fragment} {f : Fragment}

theorem Continuation.addAll_take (h : Continuation fs data) (heq : fs = gs ++ f :: hs)
    (r : Reader) : (r.addAll gs).entries = r.entries := by
  induction h generalizing gs r with
  | last _ =>
    cases gs with
    | nil => rfl
    | cons g gs => simp at heq
  | @middle g' fs data hg _ ih =>
    cases gs with
    | nil => rfl
    | cons g gs =>
      obtain ⟨rfl, hfs⟩ := List.cons.inj heq
      rw [Reader.addAll_cons, ih hfs]
      simp [Reader.add, hg, recordFull, recordFirst, recordMiddle]

/-- **The fragments of a payload yield what the payload decodes to**, whatever was pending. -/
theorem Whole.addAll (h : Whole fs data) (r : Reader) :
    r.addAll fs = ⟨r.entries ++ (decodeEntries data).getD [], []⟩ := by
  cases h with
  | full hf => simp [Reader.add, hf, recordFull]
  | @first f fs data hf hcont =>
    rw [Reader.addAll_cons, hcont.addAll]
    simp [Reader.add, hf, recordFull, recordFirst]

theorem Whole.addAll_take (h : Whole fs data) (heq : fs = gs ++ f :: hs) (r : Reader) :
    (r.addAll gs).entries = r.entries := by
  cases h with
  | full _ =>
    cases gs with
    | nil => rfl
    | cons g gs => simp at heq
  | @first g' fs data hg hcont =>
    cases gs with
    | nil => rfl
    | cons g gs =>
      obtain ⟨rfl, hfs⟩ := List.cons.inj heq
      rw [Reader.addAll_cons, hcont.addAll_take hfs]
      simp [Reader.add, hg, recordFull, recordFirst]

theorem Whole.totalSize_pos (h : Whole fs data) : 0 < totalSize fs := by
  cases h with
  | full _ => exact Nat.lt_add_right _ (Fragment.size_pos _)
  | first _ _ => exact Nat.lt_add_right _ (Fragment.size_pos _)

/-! ## Sequences of calls -/

/-- The fragments an append call writes at a position of a block. -/
def callFragments (pos : ℕ) (c : AppendCall) : List Fragment :=
  fragments c.payload.length pos true c.payload

/-- The fragments of a sequence of calls, call by call. -/
def layout : ℕ → List AppendCall → List (List Fragment)
  | _, [] => []
  | pos, c :: cs =>
    callFragments pos c :: layout ((pos + totalSize (callFragments pos c)) % blockSize) cs

@[simp] theorem layout_nil (pos : ℕ) : layout pos [] = [] := rfl

theorem layout_append (hpos : pos < blockSize) (cs ds : List AppendCall) :
    layout pos (cs ++ ds) =
      layout pos cs ++ layout ((pos + totalSize (layout pos cs).flatten) % blockSize) ds := by
  induction cs generalizing pos with
  | nil => simp [Nat.mod_eq_of_lt hpos]
  | cons c cs ih =>
    rw [List.cons_append, layout, layout, ih (Nat.mod_lt _ blockSize_pos), List.flatten_cons,
      totalSize_append, Nat.mod_add_mod, add_assoc, List.cons_append]

theorem layout_placed (hpos : pos < blockSize) (cs : List AppendCall) :
    Placed pos (layout pos cs).flatten := by
  induction cs generalizing pos with
  | nil => trivial
  | cons c cs ih =>
    rw [layout, List.flatten_cons, placed_append hpos]
    exact ⟨fragments_placed _ hpos _ _, ih (Nat.mod_lt _ blockSize_pos)⟩

theorem callFragments_addAll (pos : ℕ) (c : AppendCall) (r : Reader)
    (hr : r.pendingFragments = []) :
    r.addAll (callFragments pos c) = ⟨r.entries ++ c.found, []⟩ := by
  unfold callFragments AppendCall.found
  by_cases hne : c.payload = []
  · rw [hne, fragments_nil, Reader.addAll_nil]
    obtain ⟨es, pf⟩ := r
    obtain rfl : pf = [] := hr
    simp [decodeEntries]
  · exact (fragments_whole hne pos).addAll r

theorem callFragments_addAll_take {c : AppendCall} (heq : callFragments pos c = gs ++ f :: hs)
    (r : Reader) : (r.addAll gs).entries = r.entries := by
  by_cases hne : c.payload = []
  · unfold callFragments at heq
    rw [hne, fragments_nil] at heq
    simp at heq
  · exact (fragments_whole hne pos).addAll_take heq r

theorem Reader.addAll_eq (r : Reader) (fs : List Fragment) :
    r.addAll fs = ⟨r.entries ++ (Reader.addAll ⟨[], r.pendingFragments⟩ fs).entries,
      (Reader.addAll ⟨[], r.pendingFragments⟩ fs).pendingFragments⟩ := by
  induction fs generalizing r with
  | nil => simp
  | cons f fs ih =>
    have hadd : ∀ r : Reader, r.add f.type f.chunk =
        ⟨r.entries ++ (Reader.add ⟨[], r.pendingFragments⟩ f.type f.chunk).entries,
          (Reader.add ⟨[], r.pendingFragments⟩ f.type f.chunk).pendingFragments⟩ := by
      intro r
      unfold Reader.add
      split_ifs <;> simp
    rw [Reader.addAll_cons, Reader.addAll_cons, hadd r, ih,
      ih (Reader.add ⟨[], r.pendingFragments⟩ f.type f.chunk), List.append_assoc]

theorem layout_addAll_entries (pos : ℕ) (cs : List AppendCall) (r : Reader) :
    (r.addAll (layout pos cs).flatten).entries = r.entries ++ cs.flatMap AppendCall.found := by
  induction cs generalizing pos r with
  | nil => simp
  | cons c cs ih =>
    rw [layout, List.flatten_cons, Reader.addAll_append, ih, List.flatMap_cons, ← List.append_assoc]
    congr 1
    unfold callFragments AppendCall.found
    by_cases hne : c.payload = []
    · simp [hne, fragments_nil, decodeEntries]
    · rw [(fragments_whole hne pos).addAll]

theorem layout_addAll (pos : ℕ) (cs : List AppendCall) (r : Reader) (hr : r.pendingFragments = []) :
    r.addAll (layout pos cs).flatten = ⟨r.entries ++ cs.flatMap AppendCall.found, []⟩ := by
  induction cs generalizing pos r with
  | nil =>
    obtain ⟨es, pf⟩ := r
    obtain rfl : pf = [] := hr
    simp
  | cons c cs ih =>
    rw [layout, List.flatten_cons, Reader.addAll_append, callFragments_addAll pos c r hr,
      ih _ _ rfl, List.flatMap_cons, List.append_assoc]

section

variable (crc : Bytes → UInt32)

def WAL.call (w : WAL) : AppendCall → WAL
  | .entry e => w.appendWithSeqNo crc e
  | .batch es => w.appendBatch crc es

/-- What happens to a log: an append call, or `Close` followed by `OpenWAL`. -/
inductive LogOp
  | append (c : AppendCall)
  | reopen
  deriving DecidableEq, Repr

def LogOp.call? : LogOp → Option AppendCall
  | append c => some c
  | reopen => none

def WAL.step (w : WAL) : LogOp → WAL
  | .append c => w.call crc c
  | .reopen => openWAL w.file

/-- The log after a sequence of operations, starting from an empty file. -/
def logAfter (ops : List LogOp) : WAL := ops.foldl (WAL.step crc) (openWAL [])

def written (calls : List AppendCall) : Bytes := (logAfter crc (calls.map LogOp.append)).file

theorem WAL.call_eq (w : WAL) (hpos : w.blockPos < blockSize) (c : AppendCall) :
    (w.call crc c).file =
        w.file ++ (callFragments w.blockPos c).flatMap (Fragment.bytes crc) ∧
      (w.call crc c).blockPos =
        (w.blockPos + totalSize (callFragments w.blockPos c)) % blockSize := by
  cases c with
  | entry e =>
    simp only [call, appendWithSeqNo, writeRecord, writeLoop_eq crc _ _ _ w hpos]
    exact ⟨rfl, rfl⟩
  | batch es =>
    simp only [call, appendBatch]
    split_ifs with hes
    · subst hes
      simp [callFragments, AppendCall.payload, fragments, Nat.mod_eq_of_lt hpos]
    · have hpay : (AppendCall.batch es).payload = encodeBatch es := if_neg hes
      have hw := writeLoop_eq crc (encodeBatch es).length true (encodeBatch es) w hpos
      constructor
      · simp only [writeRecord, hw, callFragments, hpay]
      · simp only [writeRecord, hw, callFragments, hpay]

/-- **What a log file holds**: the fragments of its calls, wherever it was closed and reopened. -/
theorem logAfter_file (ops : List LogOp) :
    (logAfter crc ops).file =
        (layout 0 (ops.filterMap LogOp.call?)).flatten.flatMap (Fragment.bytes crc) ∧
      (logAfter crc ops).blockPos = (logAfter crc ops).file.length % blockSize := by
  induction ops using List.reverseRecOn with
  | nil => exact ⟨rfl, rfl⟩
  | append_singleton ops op ih =>
    obtain ⟨hfile, hpos⟩ := ih
    have hrun : logAfter crc (ops ++ [op]) = (logAfter crc ops).step crc op := by
      rw [logAfter, List.foldl_append]
      rfl
    rw [hrun, List.filterMap_append]
    cases op with
    | reopen =>
      refine ⟨?_, rfl⟩
      rw [show [LogOp.reopen].filterMap LogOp.call? = [] from rfl, List.append_nil]
      exact hfile
    | append c =>
      have hstart : (logAfter crc ops).blockPos = (0 + totalSize
          (layout 0 (ops.filterMap LogOp.call?)).flatten) % blockSize := by
        rw [hpos, hfile, length_flatMap_bytes, Nat.zero_add]
      obtain ⟨hcfile, hcpos⟩ := WAL.call_eq crc (logAfter crc ops)
        (by rw [hstart]; exact Nat.mod_lt _ blockSize_pos) c
      refine ⟨?_, ?_⟩
      · change ((logAfter crc ops).call crc c).file = _
        rw [hcfile, hfile, hstart, show [LogOp.append c].filterMap LogOp.call? = [c] from rfl,
          layout_append blockSize_pos, List.flatten_append, List.flatMap_append]
        simp [layout]
      · change ((logAfter crc ops).call crc c).blockPos =
          ((logAfter crc ops).call crc c).file.length % _
        rw [hcpos, hcfile, List.length_append, length_flatMap_bytes, hpos, Nat.mod_add_mod]

theorem written_eq (calls : List AppendCall) :
    written crc calls = (layout 0 calls).flatten.flatMap (Fragment.bytes crc) := by
  rw [written, (logAfter_file crc _).1, List.filterMap_map]
  congr
  exact List.filterMap_some

theorem logAfter_file_eq (ops : List LogOp) :
    (logAfter crc ops).file = written crc (ops.filterMap LogOp.call?) := by
  rw [(logAfter_file crc ops).1, written_eq]

end

end LsmTree.Log
