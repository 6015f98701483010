import LsmTree.Lib.LittleEndian
import LsmTree.Sstable.Format

/-!
# The bytes of log records (`internal/wal/record.go`)

A log entry is encoded with two four-byte length fields, a batch with a four-byte count and a
four-byte length in front of each of its entries.  Decoding accepts exactly the strings that start
with the encoding of an entry whose lengths fit their fields (`decodeEntry_eq_some_iff`).

The lengths are stored modulo `2 ^ 32`.  An append call `Fits` when none of its lengths wraps
around, and that is when its payload decodes to the entries appended (`AppendCall.found_eq_iff`).
-/

namespace LsmTree

open LittleEndian

variable {data : Bytes}

/-- A logical log entry as it is serialised: the type is a byte, the stamp a machine word. -/
structure RawEntry where
  type : UInt8
  key : Bytes
  value : Bytes
  seqNo : UInt64
  deriving DecidableEq, Repr

def entrySet : UInt8 := 1
def entryDelete : UInt8 := 2
def entryBatch : UInt8 := 4

/-- `[type:1][keyLen:4LE][key][valLen:4LE][val][seqNo:8LE]`. -/
def encodeEntry (e : RawEntry) : Bytes :=
  e.type :: (encode 4 e.key.length ++ e.key ++ (encode 4 e.value.length ++ e.value ++
    encode 8 e.seqNo.toNat))

/-- `[EntryBatch:1][numEntries:4LE][entry0Len:4LE][entry0]...`. -/
def encodeBatch (entries : List RawEntry) : Bytes :=
  entryBatch :: (encode 4 entries.length ++
    entries.flatMap fun e => encode 4 (encodeEntry e).length ++ encodeEntry e)

/-- Read one entry from the front of `data`; bytes after it are ignored. -/
def decodeEntry (data : Bytes) : Option RawEntry :=
  if data.length < 9 then none
  else
    let keyLen := decode ((data.drop 1).take 4)
    if data.length < 5 + keyLen + 4 then none
    else
      let valLen := decode ((data.drop (5 + keyLen)).take 4)
      if data.length < 9 + keyLen + valLen + 8 then none
      else some
        { type := data.headD 0
          key := (data.drop 5).take keyLen
          value := (data.drop (9 + keyLen)).take valLen
          seqNo := UInt64.ofNat (decode ((data.drop (9 + keyLen + valLen)).take 8)) }

/-- The loop of `DecodeEntries` over the entries of a batch: `count` of them, and nothing after. -/
def decodeBatch : ℕ → Bytes → Option (List RawEntry)
  | 0, data => if data = [] then some [] else none
  | count + 1, data =>
    if data.length < 4 then none
    else
      let entryLen := decode (data.take 4)
      let rest := data.drop 4
      if rest.length < entryLen then none
      else match decodeEntry (rest.take entryLen) with
        | none => none
        | some e => (decodeBatch count (rest.drop entryLen)).map (e :: ·)

/-- Read a payload: a single entry, or all entries of a batch. -/
def decodeEntries (data : Bytes) : Option (List RawEntry) :=
  if data = [] then none
  else if data.headD 0 ≠ entryBatch then (decodeEntry data).map fun e => [e]
  else if data.length < 5 then none
  else decodeBatch (decode ((data.drop 1).take 4)) (data.drop 5)

/-! ## Single entries -/

def RawEntry.Fits (e : RawEntry) : Prop := e.key.length < 2 ^ 32 ∧ e.value.length < 2 ^ 32

instance (e : RawEntry) : Decidable e.Fits := by unfold RawEntry.Fits; infer_instance

@[simp] theorem length_encodeEntry (e : RawEntry) :
    (encodeEntry e).length = 17 + e.key.length + e.value.length := by
  simp only [encodeEntry, List.length_cons, List.length_append, length_encode]
  omega

variable {e : RawEntry}

theorem decodeEntry_encodeEntry (h : e.Fits) (tail : Bytes) :
    decodeEntry (encodeEntry e ++ tail) = some e := by
  obtain ⟨t, k, v, s⟩ := e
  obtain ⟨hk, hv⟩ : k.length < 2 ^ 32 ∧ v.length < 2 ^ 32 := h
  have hlen : (encodeEntry ⟨t, k, v, s⟩ ++ tail).length =
      17 + k.length + v.length + tail.length := by simp
  have hdata : encodeEntry ⟨t, k, v, s⟩ ++ tail = t :: (encode 4 k.length ++ (k ++
      (encode 4 v.length ++ (v ++ (encode 8 s.toNat ++ tail))))) := by
    simp [encodeEntry, List.append_assoc]
  have hkey : decode (((encodeEntry ⟨t, k, v, s⟩ ++ tail).drop 1).take 4) = k.length := by
    rw [hdata, List.drop_one, List.tail_cons, decode_take_append]
    exact Nat.mod_eq_of_lt hk
  have h5 : (encodeEntry ⟨t, k, v, s⟩ ++ tail).drop 5 =
      k ++ (encode 4 v.length ++ (v ++ (encode 8 s.toNat ++ tail))) := by
    rw [hdata, List.drop_succ_cons, List.drop_left' (length_encode 4 _)]
  have hkl : (encodeEntry ⟨t, k, v, s⟩ ++ tail).drop (5 + k.length) =
      encode 4 v.length ++ (v ++ (encode 8 s.toNat ++ tail)) := by
    rw [← List.drop_drop, h5, List.drop_left]
  have hval : decode (((encodeEntry ⟨t, k, v, s⟩ ++ tail).drop (5 + k.length)).take 4) =
      v.length := by
    rw [hkl, decode_take_append]
    exact Nat.mod_eq_of_lt hv
  have h9 : (encodeEntry ⟨t, k, v, s⟩ ++ tail).drop (9 + k.length) =
      v ++ (encode 8 s.toNat ++ tail) := by
    rw [show 9 + k.length = 5 + k.length + 4 by omega, ← List.drop_drop, hkl,
      List.drop_left' (length_encode 4 _)]
  have hseq : (encodeEntry ⟨t, k, v, s⟩ ++ tail).drop (9 + k.length + v.length) =
      encode 8 s.toNat ++ tail := by
    rw [← List.drop_drop, h9, List.drop_left]
  unfold decodeEntry
  simp only [hkey, hval, hlen, h5, h9, hseq]
  rw [if_neg (by omega), if_neg (by omega), if_neg (by omega), List.take_left, List.take_left,
    decode_take_append, Nat.mod_eq_of_lt (by simpa using s.toNat_lt), UInt64.ofNat_toNat, hdata]
  rfl

theorem encodeEntry_of_decodeEntry (h : decodeEntry data = some e) :
    e.Fits ∧ encodeEntry e = data.take (17 + e.key.length + e.value.length) := by
  unfold decodeEntry at h
  simp only at h
  split_ifs at h with h9 hk hv
  generalize hK : decode ((data.drop 1).take 4) = K at h hk hv
  generalize hV : decode ((data.drop (5 + K)).take 4) = V at h hv
  simp only [Option.some.injEq] at h
  have hkey : e.key = (data.drop 5).take K := by rw [← h]
  have hval : e.value = (data.drop (9 + K)).take V := by rw [← h]
  have hkeyLen : e.key.length = K := by
    rw [hkey, List.length_take_of_le (by rw [List.length_drop]; omega)]
  have hvalLen : e.value.length = V := by
    rw [hval, List.length_take_of_le (by rw [List.length_drop]; omega)]
  have hfield : ∀ {n w}, n + w ≤ data.length →
      encode w (decode ((data.drop n).take w)) = (data.drop n).take w := fun hn =>
    encode_decode_take (by rw [List.length_drop]; omega)
  have hseq : encode 8 e.seqNo.toNat = (data.drop (9 + K + V)).take 8 := by
    have hlt : decode ((data.drop (9 + K + V)).take 8) < 2 ^ 64 :=
      (decode_lt _).trans_le (Nat.pow_le_pow_right (Nat.succ_pos 255) (List.length_take_le 8 _))
    rw [← h]
    change encode 8 (UInt64.ofNat _).toNat = _
    rw [UInt64.toNat_ofNat', Nat.mod_eq_of_lt hlt]
    exact hfield (by omega)
  have hhead : e.type :: data.drop 1 = data := by
    rw [← h]
    cases data with
    | nil => simp at h9
    | cons t rest => rfl
  have hbound : ∀ n, decode ((data.drop n).take 4) < 2 ^ 32 := fun n =>
    (decode_lt _).trans_le (Nat.pow_le_pow_right (Nat.succ_pos 255) (List.length_take_le 4 _))
  refine ⟨⟨by rw [hkeyLen, ← hK]; exact hbound 1, by rw [hvalLen, ← hV]; exact hbound _⟩, ?_⟩
  have hkField : encode 4 K = (data.drop 1).take 4 := by rw [← hK]; exact hfield (by omega)
  have hvField : encode 4 V = (data.drop (5 + K)).take 4 := by rw [← hV]; exact hfield (by omega)
  rw [encodeEntry, hkeyLen, hvalLen, hseq, hkey, hval, hkField, hvField]
  have hsplit : ∀ n a b, (data.drop n).take (a + b) =
      (data.drop n).take a ++ (data.drop (n + a)).take b := fun n a b => by
    rw [List.take_add, List.drop_drop]
  conv_rhs => rw [← hhead]
  rw [show 17 + K + V = (4 + K + (4 + V + 8)) + 1 by omega, List.take_succ_cons, hsplit 1 (4 + K),
    hsplit 1 4 K, hsplit _ (4 + V) 8, hsplit _ 4 V, show 1 + (4 + K) = 5 + K by omega,
    show 5 + K + 4 = 9 + K by omega, show 5 + K + (4 + V) = 9 + K + V by omega]

/-- **Decoding accepts exactly the strings that start with the encoding of an entry that fits.** -/
theorem decodeEntry_eq_some_iff : decodeEntry data = some e ↔ e.Fits ∧ encodeEntry e <+: data := by
  constructor
  · intro h
    obtain ⟨hfits, htake⟩ := encodeEntry_of_decodeEntry h
    exact ⟨hfits, htake ▸ List.take_prefix _ _⟩
  · rintro ⟨hfits, tail, rfl⟩
    exact decodeEntry_encodeEntry hfits tail

/-! ## Batches -/

variable {es : List RawEntry}

theorem length_of_decodeBatch {n : ℕ} (h : decodeBatch n data = some es) : es.length = n := by
  induction n generalizing data es with
  | zero =>
    rw [decodeBatch] at h
    split_ifs at h
    simp_all
  | succ n ih =>
    rw [decodeBatch] at h
    simp only at h
    split_ifs at h
    split at h
    · cases h
    · obtain ⟨es', hes, rfl⟩ := Option.map_eq_some_iff.1 h
      rw [List.length_cons, ih hes]

theorem decodeBatch_cons_iff {n : ℕ} {rest : Bytes} :
    decodeBatch (n + 1) (encode 4 (encodeEntry e).length ++ encodeEntry e ++ rest) =
        some (e :: es) ↔
      (encodeEntry e).length < 2 ^ 32 ∧ decodeBatch n rest = some es := by
  have hlen : (encode 4 (encodeEntry e).length ++ encodeEntry e ++ rest).length =
      4 + (encodeEntry e).length + rest.length := by
    rw [List.length_append, List.length_append, length_encode]
  have htake : decode ((encode 4 (encodeEntry e).length ++ encodeEntry e ++ rest).take 4) =
      (encodeEntry e).length % 2 ^ 32 := by
    rw [List.append_assoc, decode_take_append]
    rfl
  have hdrop : (encode 4 (encodeEntry e).length ++ encodeEntry e ++ rest).drop 4 =
      encodeEntry e ++ rest := by
    rw [List.append_assoc, List.drop_left' (length_encode 4 _)]
  have hmod : (encodeEntry e).length % 2 ^ 32 ≤ (encodeEntry e).length := Nat.mod_le _ _
  rw [decodeBatch]
  simp only [htake, hdrop]
  rw [if_neg (by omega), if_neg (by rw [List.length_append]; omega)]
  constructor
  · intro h
    split at h
    · cases h
    · rename_i e' hdec
      obtain ⟨es', hes, hcons⟩ := Option.map_eq_some_iff.1 h
      obtain ⟨rfl, rfl⟩ := List.cons.inj hcons
      -- the decoded entry is as long as the field says, so the field holds the true length
      have hfull := (decodeEntry_eq_some_iff.1 hdec).2.length_le
      rw [List.length_take] at hfull
      have heq : (encodeEntry e').length % 2 ^ 32 = (encodeEntry e').length := by omega
      refine ⟨by omega, ?_⟩
      rwa [heq, List.drop_left] at hes
  · rintro ⟨hlt, hes⟩
    have hfits : e.Fits := by
      rw [length_encodeEntry] at hlt
      constructor <;> omega
    rw [Nat.mod_eq_of_lt hlt, List.take_left,
      decodeEntry_eq_some_iff.2 ⟨hfits, List.prefix_rfl⟩, List.drop_left, hes]
    rfl

theorem decodeBatch_frames_iff (es : List RawEntry) :
    decodeBatch es.length (es.flatMap fun e => encode 4 (encodeEntry e).length ++ encodeEntry e) =
      some es ↔ ∀ e ∈ es, (encodeEntry e).length < 2 ^ 32 := by
  induction es with
  | nil => simp [decodeBatch]
  | cons e es ih => rw [List.flatMap_cons, List.length_cons, decodeBatch_cons_iff, ih,
      List.forall_mem_cons]

/-! ## Append calls -/

inductive AppendCall
  /-- `AppendWithSeqNo`. -/
  | entry (e : RawEntry)
  /-- `AppendBatch`. -/
  | batch (es : List RawEntry)
  deriving DecidableEq, Repr

namespace AppendCall

variable {c : AppendCall}

def entries : AppendCall → List RawEntry
  | entry e => [e]
  | batch es => es

/-- The record a call writes; an empty batch writes nothing. -/
def payload : AppendCall → Bytes
  | entry e => encodeEntry e
  | batch es => if es = [] then [] else encodeBatch es

/-- No length of the call wraps around in its four-byte field, and a single entry is not marked as
a batch. -/
def Fits : AppendCall → Prop
  | entry e => e.type ≠ entryBatch ∧ e.Fits
  | batch es => es.length < 2 ^ 32 ∧ ∀ e ∈ es, (encodeEntry e).length < 2 ^ 32

instance : DecidablePred Fits
  | entry e => inferInstanceAs (Decidable (e.type ≠ entryBatch ∧ e.Fits))
  | batch es => inferInstanceAs (Decidable (es.length < 2 ^ 32 ∧
      ∀ e ∈ es, (encodeEntry e).length < 2 ^ 32))

/-- What recovery makes of the record of a call: a payload that does not decode is passed over. -/
def found (c : AppendCall) : List RawEntry := (decodeEntries c.payload).getD []

theorem decodeEntries_encodeEntry (e : RawEntry) :
    decodeEntries (encodeEntry e) =
      if e.type ≠ entryBatch then (decodeEntry (encodeEntry e)).map fun e => [e]
      else decodeBatch (decode (((encodeEntry e).drop 1).take 4)) ((encodeEntry e).drop 5) := by
  have hne : encodeEntry e ≠ [] := List.cons_ne_nil _ _
  have hlen : ¬ (encodeEntry e).length < 5 := by
    rw [length_encodeEntry]
    omega
  rw [decodeEntries, if_neg hne, if_neg hlen]
  rfl

theorem decodeEntries_encodeBatch (es : List RawEntry) :
    decodeEntries (encodeBatch es) = decodeBatch (es.length % 2 ^ 32)
      (es.flatMap fun e => encode 4 (encodeEntry e).length ++ encodeEntry e) := by
  have hne : encodeBatch es ≠ [] := List.cons_ne_nil _ _
  have htype : ¬ (encodeBatch es).headD 0 ≠ entryBatch := not_not.2 rfl
  have hlen : ¬ (encodeBatch es).length < 5 := by simp [encodeBatch]
  have hcount : decode (((encodeBatch es).drop 1).take 4) = es.length % 2 ^ 32 :=
    decode_take_append 4 _ _
  have hbody : (encodeBatch es).drop 5 =
      es.flatMap fun e => encode 4 (encodeEntry e).length ++ encodeEntry e :=
    List.drop_left' (length_encode 4 _)
  rw [decodeEntries, if_neg hne, if_neg htype, if_neg hlen, hcount, hbody]

theorem decodeEntries_entry_iff (e : RawEntry) :
    decodeEntries (encodeEntry e) = some [e] ↔ e.type ≠ entryBatch ∧ e.Fits := by
  have hlen := length_encodeEntry e
  rw [decodeEntries_encodeEntry]
  by_cases htype : e.type = entryBatch
  · rw [if_neg (not_not.2 htype)]
    refine iff_of_false (fun h => ?_) fun h => h.1 htype
    -- an entry read from inside the encoding of `e` is shorter than `e`
    have hcount := length_of_decodeBatch h
    rw [List.length_singleton] at hcount
    rw [← hcount, decodeBatch] at h
    simp only at h
    split_ifs at h
    split at h
    · cases h
    · rename_i e' hdec
      obtain ⟨es', hes, hcons⟩ := Option.map_eq_some_iff.1 h
      obtain ⟨rfl, rfl⟩ := List.cons.inj hcons
      have hfull := (decodeEntry_eq_some_iff.1 hdec).2.length_le
      simp only [List.length_take, List.length_drop] at hfull
      omega
  · rw [if_pos htype, Option.map_eq_some_iff]
    constructor
    · rintro ⟨e', hdec, hcons⟩
      obtain rfl : e' = e := List.head_eq_of_cons_eq hcons
      exact ⟨htype, (decodeEntry_eq_some_iff.1 hdec).1⟩
    · rintro ⟨-, hfits⟩
      exact ⟨e, decodeEntry_eq_some_iff.2 ⟨hfits, List.prefix_rfl⟩, rfl⟩

theorem decodeEntries_batch_iff (es : List RawEntry) :
    decodeEntries (encodeBatch es) = some es ↔
      es.length < 2 ^ 32 ∧ ∀ e ∈ es, (encodeEntry e).length < 2 ^ 32 := by
  rw [decodeEntries_encodeBatch]
  constructor
  · intro h
    have heq := length_of_decodeBatch h
    rw [← heq] at h
    exact ⟨by omega, (decodeBatch_frames_iff es).1 h⟩
  · rintro ⟨hlt, hall⟩
    rw [Nat.mod_eq_of_lt hlt]
    exact (decodeBatch_frames_iff es).2 hall

/-- **A call is found again exactly when it fits.** -/
theorem found_eq_iff (c : AppendCall) : c.found = c.entries ↔ c.Fits := by
  cases c with
  | entry e =>
    change (decodeEntries (encodeEntry e)).getD [] = [e] ↔ e.type ≠ entryBatch ∧ e.Fits
    rw [← decodeEntries_entry_iff]
    cases decodeEntries (encodeEntry e) <;> simp
  | batch es =>
    change (decodeEntries (if es = [] then [] else encodeBatch es)).getD [] = es ↔
      es.length < 2 ^ 32 ∧ ∀ e ∈ es, (encodeEntry e).length < 2 ^ 32
    by_cases hes : es = []
    · subst hes
      simp [decodeEntries]
    · rw [if_neg hes, ← decodeEntries_batch_iff]
      cases decodeEntries (encodeBatch es) with
      | none => simpa using Ne.symm hes
      | some es' => simp

theorem found_length_le (h : ∀ e ∈ c.entries, e.type ≠ entryBatch) :
    c.found.length ≤ c.entries.length := by
  unfold found
  rcases hdec : decodeEntries c.payload with _ | es
  · simp
  rw [Option.getD_some]
  cases c with
  | entry e =>
    change decodeEntries (encodeEntry e) = some es at hdec
    rw [decodeEntries_encodeEntry, if_pos (h e (List.mem_singleton_self e))] at hdec
    obtain ⟨e', -, rfl⟩ := Option.map_eq_some_iff.1 hdec
    exact le_rfl
  | batch es' =>
    change decodeEntries (if es' = [] then [] else encodeBatch es') = some es at hdec
    split_ifs at hdec
    · cases hdec
    · rw [decodeEntries_encodeBatch] at hdec
      rw [length_of_decodeBatch hdec]
      exact Nat.mod_le _ _

theorem found_of_payload_eq_nil (h : c.payload = []) : c.found = c.entries := by
  have hnil : c.entries = [] := by
    cases c with
    | entry e => cases h
    | batch es =>
      change (if es = [] then [] else encodeBatch es) = [] at h
      split_ifs at h with hes
      · exact hes
      · cases h
  rw [found, h, hnil]
  rfl

end AppendCall

end LsmTree
