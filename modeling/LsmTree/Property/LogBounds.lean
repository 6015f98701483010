import Mathlib.Data.List.Infix
import LsmTree.Correct.LogLayout

/-!
# Reading a log within its bounds

Recovery and the decoders once more (`internal/wal/reader.go`, `record.go`), with every slice
expression and every index checked: `none` says that one of them is out of range, or that a loop has
not ended within its fuel.  A slice is taken to have no room behind it, so that nothing that passes
here fails in the source.

On any bytes the loops end and every check passes, with the result of the unchecked functions; and
every entry that is returned was decoded from fragments that match their checksums
(`recoverWAL_in_bounds`).
-/

namespace LsmTree.Log

open LittleEndian

/-! ## Checked readers -/

/-- `data[lo:hi]`. -/
def cut (data : Bytes) (lo hi : ℕ) : Option Bytes :=
  if lo ≤ hi ∧ hi ≤ data.length then some ((data.take hi).drop lo) else none

/-- The number of `w` bytes at `data[pos:]`, the last of which is indexed first. -/
def uintAt (w : ℕ) (data : Bytes) (pos : ℕ) : Option ℕ := do
  let rest ← cut data pos data.length
  if rest.length < w then none else some (decode (rest.take w))

/-- Copy into a new slice of `n` bytes. -/
def copied (n : ℕ) (src : Bytes) : Bytes := src.take n ++ List.replicate (n - src.length) 0

/-- `DecodeEntry`; the inner `none` is `ErrCorrupt`. -/
def decodeEntryAt (data : Bytes) : Option (Option RawEntry) := do
  if data.length < 9 then return none
  let type ← data[0]?
  let keyLen ← uintAt 4 data 1
  if data.length < 5 + keyLen + 4 then return none
  let key ← cut data 5 data.length
  let valLen ← uintAt 4 data (5 + keyLen)
  if data.length < 9 + keyLen + valLen + 8 then return none
  let value ← cut data (9 + keyLen) data.length
  let seqNo ← uintAt 8 data (9 + keyLen + valLen)
  return some
    { type := type, key := copied keyLen key, value := copied valLen value
      seqNo := UInt64.ofNat seqNo }

/-- The loop of `DecodeEntries` over the entries of a batch. -/
def decodeBatchAt (data : Bytes) : ℕ → ℕ → Option (Option (List RawEntry))
  | 0, pos => some (if pos = data.length then some [] else none)
  | count + 1, pos => do
    let rest ← cut data pos data.length
    if rest.length < 4 then return none
    let field ← cut data pos (pos + 4)
    let entryLen := decode field
    let rest ← cut data (pos + 4) data.length
    if rest.length < entryLen then return none
    let body ← cut data (pos + 4) (pos + 4 + entryLen)
    match ← decodeEntryAt body with
    | none => return none
    | some e => (decodeBatchAt data count (pos + 4 + entryLen)).map (Option.map (e :: ·))

/-- `DecodeEntries`. -/
def decodeEntriesAt (data : Bytes) : Option (Option (List RawEntry)) := do
  if data.length = 0 then return none
  if (← data[0]?) ≠ entryBatch then return (← decodeEntryAt data).map fun e => [e]
  if data.length < 5 then return none
  decodeBatchAt data (decode (← cut data 1 5)) 5

def Reader.addAt (r : Reader) (rType : UInt8) (payload : Bytes) : Option Reader :=
  if rType = recordFull then
    (decodeEntriesAt payload).map fun es => ⟨r.entries ++ es.getD [], []⟩
  else if rType = recordFirst then
    some { r with pendingFragments := payload }
  else if rType = recordMiddle then
    some { r with pendingFragments := r.pendingFragments ++ payload }
  else if rType = recordLast then
    (decodeEntriesAt (r.pendingFragments ++ payload)).map fun es => ⟨r.entries ++ es.getD [], []⟩
  else some r

section

variable (crc : Bytes → UInt32)

def readBlockAt (block : Bytes) : ℕ → ℕ → Reader → Option (Reader × Bool)
  | 0, _, _ => none
  | fuel + 1, pos, r => do
    if block.length < pos + headerSize then return (r, false)
    let crcStored ← uintAt 4 block pos
    let length ← uintAt 2 block (pos + 4)
    let rType ← block[pos + 6]?
    if length = 0 ∧ rType = 0 then return (r, false)
    if block.length < pos + headerSize + length then return (r, true)
    let payload ← cut block (pos + headerSize) (pos + headerSize + length)
    if (crc payload).toNat ≠ crcStored then return (r, true)
    readBlockAt block fuel (pos + headerSize + length) (← r.addAt rType payload)

def recoverBlocksAt : ℕ → Bytes → Reader → Option Reader
  | 0, _, _ => none
  | fuel + 1, file, r =>
    let block := file.take blockSize
    if block = [] then some r
    else (readBlockAt crc block block.length 0 r).bind fun res =>
      if res.2 then some res.1
      else if block.length < blockSize then some res.1
      else recoverBlocksAt fuel (file.drop blockSize) res.1

/-- `RecoverWAL`. -/
def recoverWALAt (file : Bytes) : Option (List RawEntry) :=
  (recoverBlocksAt crc (file.length + 1) file {}).map Reader.entries

end

/-! ## Nothing is out of range -/

theorem cut_eq {data : Bytes} {lo hi : ℕ} (h : lo ≤ hi) (hhi : hi ≤ data.length) :
    cut data lo hi = some ((data.drop lo).take (hi - lo)) := by
  rw [cut, if_pos ⟨h, hhi⟩, List.drop_take]

theorem cut_rest {data : Bytes} {lo : ℕ} (h : lo ≤ data.length) :
    cut data lo data.length = some (data.drop lo) := by
  rw [cut_eq h le_rfl, List.take_of_length_le (List.length_drop).le]

theorem uintAt_eq {w : ℕ} {data : Bytes} {pos : ℕ} (h : pos + w ≤ data.length) :
    uintAt w data pos = some (decode ((data.drop pos).take w)) := by
  have hw : ¬ (data.drop pos).length < w := by
    rw [List.length_drop]
    omega
  simp only [uintAt, cut_rest (show pos ≤ data.length by omega), Option.bind_eq_bind,
    Option.bind_some, if_neg hw]

theorem copied_eq {n : ℕ} {src : Bytes} (h : n ≤ src.length) : copied n src = src.take n := by
  rw [copied, Nat.sub_eq_zero_of_le h, List.replicate_zero, List.append_nil]

theorem getElem?_zero_eq {data : Bytes} (h : 0 < data.length) : data[0]? = some (data.headD 0) := by
  cases data with
  | nil => exact absurd h (lt_irrefl 0)
  | cons b rest => rfl

theorem decodeEntryAt_eq (data : Bytes) : decodeEntryAt data = some (decodeEntry data) := by
  simp only [decodeEntryAt, decodeEntry, Option.bind_eq_bind, Option.pure_def]
  by_cases h9 : data.length < 9
  · simp only [if_pos h9]
  have htype := getElem?_zero_eq (show 0 < data.length by omega)
  have hkeyLen := @uintAt_eq 4 data 1 (by omega)
  simp only [if_neg h9, htype, hkeyLen, Option.bind_some]
  generalize decode ((data.drop 1).take 4) = keyLen
  by_cases hk : data.length < 5 + keyLen + 4
  · simp only [if_pos hk]
  have hkey := @cut_rest data 5 (by omega)
  have hvalLen := @uintAt_eq 4 data (5 + keyLen) (by omega)
  simp only [if_neg hk, hkey, hvalLen, Option.bind_some]
  generalize decode ((data.drop (5 + keyLen)).take 4) = valLen
  by_cases hv : data.length < 9 + keyLen + valLen + 8
  · simp only [if_pos hv]
  have hvalue := @cut_rest data (9 + keyLen) (by omega)
  have hseqNo := @uintAt_eq 8 data (9 + keyLen + valLen) (by omega)
  have hcopy := @copied_eq keyLen (data.drop 5) (by rw [List.length_drop]; omega)
  have hcopy' := @copied_eq valLen (data.drop (9 + keyLen)) (by rw [List.length_drop]; omega)
  simp only [if_neg hv, hvalue, hseqNo, hcopy, hcopy', Option.bind_some]

theorem decodeBatchAt_eq {data : Bytes} (count : ℕ) {pos : ℕ} (h : pos ≤ data.length) :
    decodeBatchAt data count pos = some (decodeBatch count (data.drop pos)) := by
  induction count generalizing pos with
  | zero =>
    rw [decodeBatchAt, decodeBatch]
    simp only [List.drop_eq_nil_iff, show pos = data.length ↔ data.length ≤ pos by omega]
  | succ count ih =>
    simp only [decodeBatchAt, decodeBatch, cut_rest h, Option.bind_eq_bind, Option.pure_def,
      Option.bind_some, List.length_drop, List.drop_drop]
    by_cases h4 : data.length - pos < 4
    · simp only [if_pos h4]
    have hfield := @cut_eq data pos (pos + 4) (by omega) (by omega)
    have hrest := @cut_rest data (pos + 4) (by omega)
    simp only [if_neg h4, hfield, hrest, Nat.add_sub_cancel_left, Option.bind_some,
      List.length_drop]
    generalize decode ((data.drop pos).take 4) = entryLen
    by_cases hlen : data.length - (pos + 4) < entryLen
    · simp only [if_pos hlen]
    have hbody := @cut_eq data (pos + 4) (pos + 4 + entryLen) (by omega) (by omega)
    simp only [if_neg hlen, hbody, Nat.add_sub_cancel_left, decodeEntryAt_eq, Option.bind_some]
    cases decodeEntry ((data.drop (pos + 4)).take entryLen) with
    | none => rfl
    | some e =>
      simp only [ih (show pos + 4 + entryLen ≤ data.length by omega), Option.map_some]

theorem decodeEntriesAt_eq (data : Bytes) : decodeEntriesAt data = some (decodeEntries data) := by
  simp only [decodeEntriesAt, decodeEntries, Option.bind_eq_bind, Option.pure_def,
    List.length_eq_zero_iff, decodeEntryAt_eq, Option.bind_some]
  by_cases h0 : data = []
  · simp only [if_pos h0]
  simp only [if_neg h0, getElem?_zero_eq (List.length_pos_iff.2 h0), Option.bind_some]
  by_cases hbatch : data.headD 0 ≠ entryBatch
  · simp only [if_pos hbatch]
  by_cases h5 : data.length < 5
  · simp only [if_neg hbatch, if_pos h5]
  · simp only [if_neg hbatch, if_neg h5, @cut_eq data 1 5 (by omega) (by omega), Option.bind_some,
      @decodeBatchAt_eq data _ 5 (by omega), Nat.reduceSub]

theorem Reader.addAt_eq (r : Reader) (rType : UInt8) (payload : Bytes) :
    r.addAt rType payload = some (r.add rType payload) := by
  unfold Reader.addAt Reader.add
  simp only [decodeEntriesAt_eq, Option.map_some]
  split_ifs <;> rfl

section

variable {crc : Bytes → UInt32}

-- A round consumes a header at least, so a block of `n` bytes takes at most `n / 7 + 1` of them.
theorem readBlockAt_eq {block : Bytes} {fuel pos : ℕ} (h : pos ≤ block.length)
    (hfuel : block.length < pos + headerSize * fuel) (r : Reader) :
    readBlockAt crc block fuel pos r = some (readBlock crc fuel (block.drop pos) r) := by
  induction fuel generalizing pos r with
  | zero => omega
  | succ fuel ih =>
    have hsize : ∀ n, (block.drop pos).length < n ↔ block.length < pos + n := fun n => by
      rw [List.length_drop]
      omega
    simp only [readBlockAt, readBlock, hsize, ← Nat.add_assoc, Option.bind_eq_bind, Option.pure_def,
      List.drop_drop, Reader.addAt_eq]
    by_cases hshort : block.length < pos + headerSize
    · simp only [if_pos hshort]
    have hroom : pos + 7 ≤ block.length := Nat.le_of_not_lt hshort
    have hcrc := @uintAt_eq 4 block pos (by omega)
    have hlength := @uintAt_eq 2 block (pos + 4) (by omega)
    have htype : block[pos + 6]? = some ((block.drop (pos + 6)).headD 0) := by
      have := @getElem?_zero_eq (block.drop (pos + 6)) (by rw [List.length_drop]; omega)
      rwa [List.getElem?_drop, Nat.add_zero] at this
    simp only [if_neg hshort, hcrc, hlength, htype, Option.bind_some]
    generalize decode ((block.drop (pos + 4)).take 2) = length
    by_cases hzero : length = 0 ∧ (block.drop (pos + 6)).headD 0 = 0
    · simp only [if_pos hzero]
    by_cases hlong : block.length < pos + headerSize + length
    · simp only [if_neg hzero, if_pos hlong]
    have hpayload := @cut_eq block (pos + headerSize) (pos + headerSize + length) (by omega)
      (by omega)
    have hleft : block.length < pos + headerSize + length + headerSize * fuel := by
      rw [Nat.mul_succ] at hfuel
      omega
    simp only [if_neg hzero, if_neg hlong, hpayload, Nat.add_sub_cancel_left, Option.bind_some,
      ih (show pos + headerSize + length ≤ block.length by omega) hleft]
    split_ifs <;> rfl

theorem recoverBlocksAt_eq {fuel : ℕ} {file : Bytes} (h : file.length < fuel) (r : Reader) :
    recoverBlocksAt crc fuel file r = some (recoverBlocks crc fuel file r) := by
  induction fuel generalizing file r with
  | zero => omega
  | succ fuel ih =>
    by_cases hnil : file.take blockSize = []
    · simp only [recoverBlocksAt, recoverBlocks, if_pos hnil]
    have hpos := List.length_pos_iff.2 hnil
    have hread := @readBlockAt_eq crc _ _ 0 (Nat.zero_le _)
      (show (file.take blockSize).length < 0 + headerSize * (file.take blockSize).length by
        unfold headerSize
        omega) r
    have hdrop : (file.drop blockSize).length < fuel := by
      rw [List.length_take] at hpos
      rw [List.length_drop]
      omega
    simp only [recoverBlocksAt, recoverBlocks, if_neg hnil, hread, List.drop_zero,
      Option.bind_some, ih hdrop]
    cases readBlock crc (file.take blockSize).length (file.take blockSize) r with
    | mk r' stop =>
      cases stop
      · simp only [Bool.false_eq_true, if_false]
        split_ifs <;> rfl
      · rfl

theorem recoverWALAt_eq (file : Bytes) : recoverWALAt crc file = some (recoverWAL crc file) := by
  rw [recoverWALAt, recoverBlocksAt_eq (Nat.lt_succ_self _)]
  rfl

end

/-! ## Where entries come from -/

/-- A fragment stands in the file, behind a header with its length and its checksum. -/
def Stands (crc : Bytes → UInt32) (file : Bytes) (f : UInt8 × Bytes) : Prop :=
  header crc f.1 f.2 ++ f.2 <:+: file

/-- The reader after the fragments `fs`. -/
def Reader.takeIn (r : Reader) (fs : List (UInt8 × Bytes)) : Reader :=
  fs.foldl (fun r f => r.add f.1 f.2) r

/-- An entry is one of those decoded from some fragments of `fs`, joined in their order. -/
def DecodedFrom (fs : List (UInt8 × Bytes)) (e : RawEntry) : Prop :=
  ∃ gs, List.Sublist gs fs ∧ ∃ es, decodeEntries (gs.flatMap Prod.snd) = some es ∧ e ∈ es

/-- All that a reader holds is of fragments in `fs`. -/
def Reader.From (r : Reader) (fs : List (UInt8 × Bytes)) : Prop :=
  (∃ gs, List.Sublist gs fs ∧ r.pendingFragments = gs.flatMap Prod.snd) ∧
    ∀ e ∈ r.entries, DecodedFrom fs e

theorem Reader.From.add {r : Reader} {fs : List (UInt8 × Bytes)} (h : r.From fs) (rType : UInt8)
    (payload : Bytes) : (r.add rType payload).From (fs ++ [(rType, payload)]) := by
  obtain ⟨⟨gs, hgs, hpending⟩, hentries⟩ := h
  have hmore : fs.Sublist (fs ++ [(rType, payload)]) := List.sublist_append_left ..
  have hold : ∀ e ∈ r.entries, DecodedFrom (fs ++ [(rType, payload)]) e := fun e he =>
    let ⟨gs, hgs, hes⟩ := hentries e he
    ⟨gs, hgs.trans hmore, hes⟩
  have hnew : ∀ gs, List.Sublist gs (fs ++ [(rType, payload)]) →
      ∀ e ∈ r.entries ++ (decodeEntries (gs.flatMap Prod.snd)).getD [],
        DecodedFrom (fs ++ [(rType, payload)]) e := by
    intro gs hgs e he
    rcases List.mem_append.1 he with he | he
    · exact hold e he
    · cases hes : decodeEntries (gs.flatMap Prod.snd) with
      | none => simp [hes] at he
      | some es => exact ⟨gs, hgs, es, hes, by simpa [hes] using he⟩
  have hone : [(rType, payload)].Sublist (fs ++ [(rType, payload)]) := List.sublist_append_right ..
  have hall : (gs ++ [(rType, payload)]).Sublist (fs ++ [(rType, payload)]) := hgs.append_right _
  have hflat : (gs ++ [(rType, payload)]).flatMap Prod.snd = r.pendingFragments ++ payload := by
    simp [hpending]
  unfold Reader.add
  split_ifs with hfull hfirst hmiddle hlast
  · exact ⟨⟨[], List.nil_sublist _, rfl⟩, by simpa using hnew _ hone⟩
  · exact ⟨⟨_, hone, by simp⟩, hold⟩
  · exact ⟨⟨_, hall, hflat.symm⟩, hold⟩
  · exact ⟨⟨[], List.nil_sublist _, rfl⟩, hflat ▸ hnew _ hall⟩
  -- a fragment of another type is passed over
  · exact ⟨⟨gs, hgs.trans hmore, hpending⟩, hold⟩

theorem Reader.From.takeIn {r : Reader} {fs : List (UInt8 × Bytes)} (h : r.From fs)
    (gs : List (UInt8 × Bytes)) : (r.takeIn gs).From (fs ++ gs) := by
  induction gs generalizing r fs with
  | nil => simpa [Reader.takeIn] using h
  | cons g gs ih => simpa [Reader.takeIn] using ih (h.add g.1 g.2)

section

variable {crc : Bytes → UInt32}

theorem stands_drop {block : Bytes} {length : ℕ}
    (hlength : decode ((block.drop 4).take 2) = length) (hroom : headerSize + length ≤ block.length)
    (hcrc : (crc ((block.drop headerSize).take length)).toNat = decode (block.take 4)) :
    Stands crc block ((block.drop 6).headD 0, (block.drop headerSize).take length) := by
  unfold headerSize at *
  have htype : [(block.drop 6).headD 0] = (block.drop 6).take 1 := by
    have hne : 0 < (block.drop 6).length := by
      rw [List.length_drop]
      omega
    cases hb : block.drop 6 with
    | nil => simp [hb] at hne
    | cons b rest => rfl
  have hlen : ((block.drop 7).take length).length = length :=
    List.length_take_of_le (by rw [List.length_drop]; omega)
  have hbytes : header crc ((block.drop 6).headD 0) ((block.drop 7).take length) ++
      (block.drop 7).take length = block.take (7 + length) := by
    rw [header, hlen, hcrc, ← hlength, encode_decode_take (by omega),
      encode_decode_take (by rw [List.length_drop]; omega), htype]
    rw [show 7 + decode ((block.drop 4).take 2) = 4 + (2 + (1 + decode ((block.drop 4).take 2))) by
      omega, List.take_add, List.take_add, List.take_add, List.drop_drop, List.drop_drop]
    simp only [List.append_assoc]
  unfold Stands
  rw [hbytes]
  exact (List.take_prefix _ _).isInfix

theorem readBlock_takeIn (fuel : ℕ) (block : Bytes) (r : Reader) :
    ∃ fs, (∀ f ∈ fs, Stands crc block f) ∧ (readBlock crc fuel block r).1 = r.takeIn fs := by
  induction fuel generalizing block r with
  | zero => exact ⟨[], fun _ hf => absurd hf List.not_mem_nil, rfl⟩
  | succ fuel ih =>
    simp only [readBlock]
    split_ifs with hshort hzero hlong hcrc
    · exact ⟨[], fun _ hf => absurd hf List.not_mem_nil, rfl⟩
    · exact ⟨[], fun _ hf => absurd hf List.not_mem_nil, rfl⟩
    · exact ⟨[], fun _ hf => absurd hf List.not_mem_nil, rfl⟩
    · exact ⟨[], fun _ hf => absurd hf List.not_mem_nil, rfl⟩
    · obtain ⟨fs, hfs, heq⟩ := ih (block.drop (headerSize + decode ((block.drop 4).take 2)))
        (r.add ((block.drop 6).headD 0)
          ((block.drop headerSize).take (decode ((block.drop 4).take 2))))
      refine ⟨((block.drop 6).headD 0,
        (block.drop headerSize).take (decode ((block.drop 4).take 2))) :: fs, fun f hf => ?_, heq⟩
      rcases List.mem_cons.1 hf with rfl | hf
      · exact stands_drop rfl (Nat.le_of_not_lt hlong) (not_not.1 hcrc)
      · exact (hfs f hf).trans (List.drop_suffix _ _).isInfix

theorem recoverBlocks_takeIn (fuel : ℕ) (file : Bytes) (r : Reader) :
    ∃ fs, (∀ f ∈ fs, Stands crc file f) ∧ recoverBlocks crc fuel file r = r.takeIn fs := by
  induction fuel generalizing file r with
  | zero => exact ⟨[], fun _ hf => absurd hf List.not_mem_nil, rfl⟩
  | succ fuel ih =>
    rw [recoverBlocks]
    by_cases hnil : file.take blockSize = []
    · rw [if_pos hnil]
      exact ⟨[], fun _ hf => absurd hf List.not_mem_nil, rfl⟩
    rw [if_neg hnil]
    obtain ⟨fs, hfs, heq⟩ := readBlock_takeIn (file.take blockSize).length (file.take blockSize) r
    have hblock : ∀ f ∈ fs, Stands crc file f := fun f hf =>
      (hfs f hf).trans (List.take_prefix _ _).isInfix
    cases hread : readBlock crc (file.take blockSize).length (file.take blockSize) r with
    | mk r' stop =>
      obtain rfl : r' = r.takeIn fs := by rw [← heq, hread]
      cases stop
      · by_cases hshort : (file.take blockSize).length < blockSize
        · exact ⟨fs, hblock, if_pos hshort⟩
        · obtain ⟨gs, hgs, heq'⟩ := ih (file.drop blockSize) (r.takeIn fs)
          refine ⟨fs ++ gs, fun f hf => ?_, ?_⟩
          · exact (List.mem_append.1 hf).elim (hblock f) fun hf =>
              (hgs f hf).trans (List.drop_suffix _ _).isInfix
          · have happend : r.takeIn (fs ++ gs) = (r.takeIn fs).takeIn gs := List.foldl_append
            exact (if_neg hshort).trans (heq'.trans happend.symm)
      · exact ⟨fs, hblock, rfl⟩

/-- **Recovery is safe on any bytes**: it ends, no slice expression and no index is out of range,
and what it returns is decoded from fragments whose checksums match.  `fs` are the fragments that
were taken in, one after the other. -/
theorem recoverWAL_in_bounds (file : Bytes) :
    recoverWALAt crc file = some (recoverWAL crc file) ∧
      ∃ fs, (∀ f ∈ fs, Stands crc file f) ∧
        recoverWAL crc file = (Reader.takeIn {} fs).entries ∧
        ∀ e ∈ recoverWAL crc file, DecodedFrom fs e := by
  obtain ⟨fs, hfs, heq⟩ := @recoverBlocks_takeIn crc (file.length + 1) file {}
  have hentries : recoverWAL crc file = (Reader.takeIn {} fs).entries := by
    rw [recoverWAL, heq]
  have hstart : Reader.From {} [] :=
    ⟨⟨[], List.nil_sublist _, rfl⟩, fun _ he => absurd he List.not_mem_nil⟩
  refine ⟨recoverWALAt_eq file, fs, hfs, hentries, ?_⟩
  rw [hentries]
  exact (hstart.takeIn fs).2

end

end LsmTree.Log
