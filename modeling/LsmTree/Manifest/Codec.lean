import LsmTree.Lib.LittleEndian
import LsmTree.Manifest

/-!
# The bytes of version edits (`internal/manifest/version_edit.go`)

A version edit is encoded with all its fields, whatever its type.  Decoding reads the fields back; a
key that is cut short is filled up with zeros there, but then a later field is missing, so that an
encoding that lost more than its last field is rejected (`decodeVersionEdit_takeRaw`).
-/

namespace LsmTree

open LittleEndian

variable {e : VersionEdit} {key rest : Bytes} {n : ℕ}

def EditType.code : EditType → UInt8
  | addSSTable => 1
  | deleteSSTable => 2
  | logNumber => 3
  | nextFileID => 4
  | maxSeqNo => 5

def EditType.ofCode (b : UInt8) : Option EditType :=
  if b = 1 then some addSSTable
  else if b = 2 then some deleteSSTable
  else if b = 3 then some logNumber
  else if b = 4 then some nextFileID
  else if b = 5 then some maxSeqNo
  else none

@[simp] theorem EditType.ofCode_code (t : EditType) : ofCode t.code = some t := by
  cases t <;> rfl

/-- An edit as it is decoded: the type and the level may be anything. -/
structure RawEdit where
  type : UInt8
  level : ℤ
  fileID : ℕ
  fileSize : ℕ
  firstKey : Bytes := []
  lastKey : Bytes := []
  logNumber : ℕ := 0
  nextFileID : ℕ := 0
  maxSeqNo : ℕ := 0
  deriving DecidableEq, Repr

/-- The fields of an edit are in the range of their machine types, and the lengths of its keys fit
their fields. -/
structure RawEdit.InRange (e : RawEdit) : Prop where
  level : -2 ^ 31 ≤ e.level ∧ e.level < 2 ^ 31
  fileID : e.fileID < 2 ^ 64
  fileSize : e.fileSize < 2 ^ 64
  firstKey : e.firstKey.length < 2 ^ 32
  lastKey : e.lastKey.length < 2 ^ 32
  logNumber : e.logNumber < 2 ^ 64
  nextFileID : e.nextFileID < 2 ^ 64
  maxSeqNo : e.maxSeqNo < 2 ^ 64

/-- What is left of an edit when it is written and read again. -/
def VersionEdit.raw (e : VersionEdit) : RawEdit :=
  { type := e.type.code, level := e.level, fileID := e.fileID, fileSize := e.fileSize,
    firstKey := e.firstKey, lastKey := e.lastKey, logNumber := e.logNumber,
    nextFileID := e.nextFileID, maxSeqNo := e.maxSeqNo }

/--
`[type:1][level:4LE][fileID:8LE][fileSize:8LE][firstKeyLen:4LE][firstKey][lastKeyLen:4LE][lastKey]`
`[logNumber:8LE][nextFileID:8LE][maxSeqNo:8LE]`. -/
def encodeVersionEdit (e : VersionEdit) : Bytes :=
  e.type.code :: (encode 4 e.level ++ (encode 8 e.fileID ++ (encode 8 e.fileSize ++
    (encode 4 e.firstKey.length ++ (e.firstKey ++ (encode 4 e.lastKey.length ++ (e.lastKey ++
      (encode 8 e.logNumber ++ (encode 8 e.nextFileID ++ encode 8 e.maxSeqNo)))))))))

def encodeRawEdit (e : RawEdit) : Bytes :=
  e.type :: (encode 4 (e.level % 2 ^ 32).toNat ++ (encode 8 e.fileID ++ (encode 8 e.fileSize ++
    (encode 4 e.firstKey.length ++ (e.firstKey ++ (encode 4 e.lastKey.length ++ (e.lastKey ++
      (encode 8 e.logNumber ++ (encode 8 e.nextFileID ++ encode 8 e.maxSeqNo)))))))))

/-- Read a key of `n` bytes: an error if there is nothing left to read, zeros for bytes that are
missing. -/
def readKey (n : ℕ) (rest : Bytes) : Option (Bytes × Bytes) :=
  if 0 < n ∧ rest = [] then none
  else some (rest.take n ++ List.replicate (n - rest.length) 0, rest.drop n)

def readWord (rest : Bytes) : Option (ℕ × Bytes) :=
  if rest.length < 8 then none else some (decode (rest.take 8), rest.drop 8)

def toInt32 (n : ℕ) : ℤ := if n < 2 ^ 31 then n else n - 2 ^ 32

/-- The length of the last key: zero if the field is cut short. -/
def readLastKeyLen (rest : Bytes) : ℕ := if rest.length < 4 then 0 else decode (rest.take 4)

/-- The highest sequence number, which old records do not have. -/
def readMaxSeqNo (rest : Bytes) : Option ℕ :=
  if rest = [] then some 0 else (readWord rest).map Prod.fst

def RawEdit.readRest (e : RawEdit) (firstKeyLen : ℕ) (rest : Bytes) : Option RawEdit := do
  let (firstKey, rest) ← readKey firstKeyLen rest
  let (lastKey, rest) ← readKey (readLastKeyLen rest) (rest.drop 4)
  let (logNumber, rest) ← readWord rest
  let (nextFileID, rest) ← readWord rest
  let maxSeqNo ← readMaxSeqNo rest
  some { e with
    firstKey := firstKey, lastKey := lastKey, logNumber := logNumber, nextFileID := nextFileID
    maxSeqNo := maxSeqNo }

def decodeVersionEdit (data : Bytes) : Option RawEdit :=
  if data.length < 1 + 4 + 8 + 8 + 4 + 4 + 8 + 8 then none
  else
    RawEdit.readRest
      { type := data.headD 0
        level := toInt32 (decode ((data.drop 1).take 4))
        fileID := decode ((data.drop 5).take 8)
        fileSize := decode ((data.drop 13).take 8) }
      (decode ((data.drop 21).take 4)) (data.drop 25)

/-- The fields of an edit are in the range of their machine types. -/
structure VersionEdit.InRange (e : VersionEdit) : Prop where
  level : e.level < maxLevels
  fileID : e.fileID < 2 ^ 64 - 1
  fileSize : e.fileSize < 2 ^ 64
  firstKey : e.firstKey.length < 2 ^ 32
  lastKey : e.lastKey.length < 2 ^ 32
  logNumber : e.logNumber < 2 ^ 64
  nextFileID : e.nextFileID < 2 ^ 64
  maxSeqNo : e.maxSeqNo < 2 ^ 64

/-- The marks of an edit other than its own are not set. -/
structure VersionEdit.OwnMarks (e : VersionEdit) : Prop where
  logNumber : e.type ≠ .logNumber → e.logNumber = 0
  nextFileID : e.type ≠ .nextFileID → e.nextFileID = 0
  maxSeqNo : e.type ≠ .maxSeqNo → e.maxSeqNo = 0

theorem VersionEdit.OwnMarks.recoverEdit (h : e.OwnMarks) (v : Version) :
    v.recoverEdit e.persisted = v.applyEdit e := by
  obtain ⟨hlog, hnext, hmax⟩ := h
  obtain ⟨t, l, id, sz, fk, lk, ln, nf, ms, skip⟩ := e
  cases t <;> simp_all [Version.recoverEdit, Version.applyEdit, VersionEdit.persisted,
    VersionEdit.meta]

theorem encodeVersionEdit_raw (h : e.level < 2 ^ 32) :
    encodeVersionEdit e = encodeRawEdit e.raw := by
  have hlevel : ((e.level : ℤ) % 2 ^ 32).toNat = e.level := by omega
  simp only [encodeVersionEdit, encodeRawEdit, VersionEdit.raw, hlevel]

theorem VersionEdit.InRange.raw (h : e.InRange) : e.raw.InRange := by
  have hlevel : e.level < 7 := h.level
  refine ⟨?_, ?_, h.fileSize, h.firstKey, h.lastKey, h.logNumber, h.nextFileID, h.maxSeqNo⟩
  · change -2 ^ 31 ≤ (e.level : ℤ) ∧ (e.level : ℤ) < 2 ^ 31
    omega
  · exact h.fileID.trans_le (Nat.sub_le _ _)

@[simp] theorem length_encodeVersionEdit (e : VersionEdit) :
    (encodeVersionEdit e).length = 53 + e.firstKey.length + e.lastKey.length := by
  simp only [encodeVersionEdit, List.length_cons, List.length_append, length_encode]
  omega

@[simp] theorem length_encodeRawEdit (e : RawEdit) :
    (encodeRawEdit e).length = 53 + e.firstKey.length + e.lastKey.length := by
  simp only [encodeRawEdit, List.length_cons, List.length_append, length_encode]
  omega

theorem readKey_append (h : key.length = n) : readKey n (key ++ rest) = some (key, rest) := by
  subst h
  unfold readKey
  rw [if_neg, List.take_left, List.drop_left]
  · simp
  · rintro ⟨hpos, hnil⟩
    rw [List.append_eq_nil_iff] at hnil
    rw [hnil.1] at hpos
    simp at hpos

theorem readWord_append (h : n < 2 ^ 64) (rest : Bytes) :
    readWord (encode 8 n ++ rest) = some (n, rest) := by
  have hn : n % 256 ^ 8 = n := Nat.mod_eq_of_lt h
  rw [readWord, if_neg (by simp), decode_take_append, hn, List.drop_left' (length_encode 8 n)]

def RawEdit.front (e : RawEdit) : Bytes :=
  e.type :: (encode 4 (e.level % 2 ^ 32).toNat ++ (encode 8 e.fileID ++ (encode 8 e.fileSize ++
    encode 4 e.firstKey.length)))

def RawEdit.words (e : RawEdit) : Bytes :=
  encode 8 e.logNumber ++ (encode 8 e.nextFileID ++ encode 8 e.maxSeqNo)

def RawEdit.back (e : RawEdit) : Bytes :=
  e.firstKey ++ (encode 4 e.lastKey.length ++ (e.lastKey ++ e.words))

theorem encodeRawEdit_eq (e : RawEdit) : encodeRawEdit e = e.front ++ e.back := by
  simp [encodeRawEdit, RawEdit.front, RawEdit.back, RawEdit.words]

theorem RawEdit.length_front (e : RawEdit) : e.front.length = 25 := by
  simp [RawEdit.front]

theorem RawEdit.length_back (e : RawEdit) :
    e.back.length = 28 + e.firstKey.length + e.lastKey.length := by
  simp only [RawEdit.back, RawEdit.words, List.length_append, length_encode]
  omega

theorem toInt32_emod {l : ℤ} (h : -2 ^ 31 ≤ l ∧ l < 2 ^ 31) : toInt32 (l % 2 ^ 32).toNat = l := by
  unfold toInt32
  split_ifs <;> omega

theorem decodeVersionEdit_front {e : RawEdit} (h : e.InRange) (hrest : 20 ≤ rest.length) :
    decodeVersionEdit (e.front ++ rest) =
      RawEdit.readRest
        { type := e.type, level := e.level, fileID := e.fileID, fileSize := e.fileSize }
        e.firstKey.length rest := by
  have hlen : ¬ (e.front ++ rest).length < 1 + 4 + 8 + 8 + 4 + 4 + 8 + 8 := by
    rw [List.length_append, e.length_front]
    omega
  have hdata : e.front ++ rest = e.type :: (encode 4 (e.level % 2 ^ 32).toNat ++
      (encode 8 e.fileID ++ (encode 8 e.fileSize ++ (encode 4 e.firstKey.length ++ rest)))) := by
    simp [RawEdit.front]
  have h1 : (e.front ++ rest).drop 1 = encode 4 (e.level % 2 ^ 32).toNat ++ (encode 8 e.fileID ++
      (encode 8 e.fileSize ++ (encode 4 e.firstKey.length ++ rest))) := by rw [hdata]; rfl
  have h5 : (e.front ++ rest).drop 5 = encode 8 e.fileID ++
      (encode 8 e.fileSize ++ (encode 4 e.firstKey.length ++ rest)) := by
    rw [show 5 = 1 + 4 from rfl, ← List.drop_drop, h1, List.drop_left' (length_encode 4 _)]
  have h13 : (e.front ++ rest).drop 13 = encode 8 e.fileSize ++
      (encode 4 e.firstKey.length ++ rest) := by
    rw [show 13 = 5 + 8 from rfl, ← List.drop_drop, h5, List.drop_left' (length_encode 8 _)]
  have h21 : (e.front ++ rest).drop 21 = encode 4 e.firstKey.length ++ rest := by
    rw [show 21 = 13 + 8 from rfl, ← List.drop_drop, h13, List.drop_left' (length_encode 8 _)]
  have h25 : (e.front ++ rest).drop 25 = rest := List.drop_left' e.length_front
  have hlevel : toInt32 (decode (((e.front ++ rest).drop 1).take 4)) = e.level := by
    rw [h1, decode_take_append, Nat.mod_eq_of_lt (by norm_num; omega), toInt32_emod h.level]
  have hid : decode (((e.front ++ rest).drop 5).take 8) = e.fileID := by
    rw [h5, decode_take_append]
    exact Nat.mod_eq_of_lt h.fileID
  have hsize : decode (((e.front ++ rest).drop 13).take 8) = e.fileSize := by
    rw [h13, decode_take_append]
    exact Nat.mod_eq_of_lt h.fileSize
  have hkey : decode (((e.front ++ rest).drop 21).take 4) = e.firstKey.length := by
    rw [h21, decode_take_append]
    exact Nat.mod_eq_of_lt h.firstKey
  rw [decodeVersionEdit, if_neg hlen]
  simp only [hlevel, hid, hsize, hkey, h25]
  rfl

def RawEdit.start (e : RawEdit) : Bytes :=
  e.front ++ (e.firstKey ++ (encode 4 e.lastKey.length ++ (e.lastKey ++
    (encode 8 e.logNumber ++ encode 8 e.nextFileID))))

theorem encodeRawEdit_start (e : RawEdit) :
    encodeRawEdit e = e.start ++ encode 8 e.maxSeqNo := by
  simp [encodeRawEdit_eq, RawEdit.back, RawEdit.words, RawEdit.start]

theorem decodeVersionEdit_start {e : RawEdit} (h : e.InRange) (word : Bytes) :
    decodeVersionEdit (e.start ++ word) =
      (readMaxSeqNo word).map fun n => { e with maxSeqNo := n } := by
  have hlast : e.lastKey.length % 256 ^ 4 = e.lastKey.length := Nat.mod_eq_of_lt h.lastKey
  have hlen : ∀ rest, readLastKeyLen (encode 4 e.lastKey.length ++ rest) = e.lastKey.length := by
    intro rest
    rw [readLastKeyLen, if_neg (by simp), decode_take_append, hlast]
  rw [RawEdit.start, List.append_assoc, decodeVersionEdit_front h, RawEdit.readRest]
  · simp only [List.append_assoc, readKey_append rfl, Option.bind_eq_bind, Option.bind_some, hlen,
      List.drop_left' (length_encode 4 e.lastKey.length), readWord_append h.logNumber,
      readWord_append h.nextFileID]
    cases readMaxSeqNo word <;> rfl
  · simp only [List.length_append, length_encode]
    omega

/-- **An edit of any type and level is read back as it was written.** -/
theorem decodeVersionEdit_encodeRaw {e : RawEdit} (h : e.InRange) :
    decodeVersionEdit (encodeRawEdit e) = some e := by
  have hword := readWord_append h.maxSeqNo []
  rw [List.append_nil] at hword
  have hseq : readMaxSeqNo (encode 8 e.maxSeqNo) = some e.maxSeqNo := by
    rw [readMaxSeqNo, if_neg (List.ne_nil_of_length_pos (by simp)), hword]
    rfl
  rw [encodeRawEdit_start, decodeVersionEdit_start h, hseq]
  rfl

theorem readWord_bind_readWord {β : Type} (h : rest.length < 16)
    (f : ℕ × Bytes → ℕ × Bytes → Option β) :
    ((readWord rest).bind fun p => (readWord p.2).bind (f p)) = none := by
  unfold readWord
  by_cases h8 : rest.length < 8
  · rw [if_pos h8]
    rfl
  · rw [if_neg h8, Option.bind_some, if_pos (by rw [List.length_drop]; omega)]
    rfl

theorem readKey_some {rest' : Bytes} (h : readKey n rest = some (key, rest')) :
    rest' = rest.drop n := by
  unfold readKey at h
  split_ifs at h
  exact (Prod.mk.inj (Option.some.inj h)).2.symm

/-- **An edit cut off before the end of its next-to-last field is rejected.** -/
theorem decodeVersionEdit_takeRaw {e : RawEdit} (h : e.InRange)
    (hn : n < 45 + e.firstKey.length + e.lastKey.length) :
    decodeVersionEdit ((encodeRawEdit e).take n) = none := by
  by_cases hshort : n < 45
  · rw [decodeVersionEdit, if_pos]
    rw [List.length_take]
    omega
  have hlen := e.length_back
  have htake : (encodeRawEdit e).take n = e.front ++ e.back.take (n - 25) := by
    rw [encodeRawEdit_eq, List.take_append, e.length_front,
      List.take_of_length_le (by rw [e.length_front]; omega)]
  rw [htake, decodeVersionEdit_front h (by rw [List.length_take]; omega), RawEdit.readRest]
  rcases hfirst : readKey e.firstKey.length (e.back.take (n - 25)) with _ | ⟨firstKey, rest⟩
  · rfl
  have hrest : rest = (encode 4 e.lastKey.length ++ (e.lastKey ++ e.words)).take
      (n - 25 - e.firstKey.length) := by
    rw [readKey_some hfirst, List.drop_take, RawEdit.back, List.drop_left]
  have hrestLen : rest.length ≤ n - 25 - e.firstKey.length := by
    rw [hrest]
    exact List.length_take_le _ _
  simp only [Option.bind_eq_bind, Option.bind_some]
  rcases hlast : readKey (readLastKeyLen rest) (rest.drop 4) with _ | ⟨lastKey, rest'⟩
  · rfl
  -- what is left after the last key holds fewer than two words
  have hrest' : rest'.length < 16 := by
    rw [readKey_some hlast, List.length_drop, List.length_drop, readLastKeyLen]
    split_ifs with hcut
    · omega
    · have hfield : decode (rest.take 4) = e.lastKey.length := by
        rw [hrest, List.take_take, min_eq_left (by omega), decode_take_append]
        exact Nat.mod_eq_of_lt h.lastKey
      rw [hfield]
      omega
  rw [Option.bind_some]
  exact readWord_bind_readWord hrest' _

end LsmTree
