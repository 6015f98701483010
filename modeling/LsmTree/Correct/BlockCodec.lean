import LsmTree.Correct.BlockSteps

/-!
# Writing and reading blocks

`Encodes lastKey bs es` says that the bytes `bs` are the entries `es`, one after another, each with
its key compressed against the key before it; `lastKey` is the key before the first.  A block
builder keeps its buffer in this form (`BlockBuilder.Holds`), and an iterator over such bytes walks
through the entries (`At.next`).
-/

namespace LsmTree.Table

open LittleEndian Word

variable {a key : InternalKey} {bs lastKey value : Bytes} {shared : ℕ}
  {es : List (InternalKey × Bytes)} {block : Block} {b : BlockBuilder}

/-! ## Keys -/

theorem be64_eq (n : ℕ) : be64 n = (encode 8 n).reverse := by
  rw [be64, show List.range 8 = [0, 1, 2, 3, 4, 5, 6, 7] from rfl]
  simp [encode, Nat.div_div_eq_div_mul]

@[simp] theorem length_be64 (n : ℕ) : (be64 n).length = 8 := by
  rw [be64_eq, List.length_reverse, length_encode]

@[simp] theorem length_encodeKey (k : InternalKey) :
    (encodeKey k).length = k.userKey.length + 9 := by
  simp [encodeKey]

@[simp] theorem decodeKey_encodeKey (k : InternalKey) : decodeKey (encodeKey k) = k := by
  have hlen : (encodeKey k).length - 9 = k.userKey.length := by rw [length_encodeKey]; omega
  have hsplit : encodeKey k = k.userKey ++ (be64 k.seqNo.toNat ++ [k.type]) := by
    rw [encodeKey, List.append_assoc]
  unfold decodeKey
  rw [if_neg (by rw [length_encodeKey]; omega), hlen, hsplit, List.take_left' rfl,
    List.drop_left' rfl, List.take_left' (length_be64 _), be64_eq, List.reverse_reverse,
    decode_encode_of_lt k.seqNo.toNat_lt, UInt64.ofNat_toNat, ← List.append_assoc,
    List.getLastD_concat]

/-! ## Entries -/

theorem length_put_pos (n : ℕ) : 0 < (Uvarint.put n).length := by
  unfold Uvarint.put Uvarint.putGroups
  split_ifs <;> simp

theorem parseVarint_put {n : ℕ} (hn : n < 2 ^ 64) (rest : Bytes) :
    parseVarint (Uvarint.put n ++ rest) = some (n, (Uvarint.put n).length, rest) := by
  have hpos := length_put_pos n
  simp only [parseVarint]
  rw [Uvarint.get_put hn, if_neg (by simp only; omega)]
  simp only [Int.toNat_natCast, List.drop_left']

theorem parseEntry_entryBytes {enc rest : Bytes} (hlast : shared ≤ lastKey.length)
    (henc : shared ≤ enc.length) (hshare : lastKey.take shared = enc.take shared)
    (hlen : enc.length < 2 ^ 64) (hvalue : value.length < 2 ^ 64) :
    parseEntry lastKey (entryBytes shared enc value ++ rest) = some (enc, value, rest) := by
  have hhead : parseHeader (entryBytes shared enc value ++ rest) =
      some (⟨shared, enc.length - shared, value.length, (Uvarint.put shared).length +
        (Uvarint.put (enc.length - shared)).length + (Uvarint.put value.length).length⟩,
        enc.drop shared ++ (value ++ rest)) := by
    unfold parseHeader entryBytes
    simp only [List.append_assoc]
    rw [parseVarint_put (by omega)]
    simp only [Option.bind_some]
    rw [parseVarint_put (by omega)]
    simp only [Option.bind_some]
    rw [parseVarint_put hvalue]
    rfl
  have hdrop : (enc.drop shared).length = enc.length - shared := List.length_drop
  unfold parseEntry
  rw [hhead]
  simp only [Option.bind_some]
  rw [if_pos ⟨hlast, by simp only [List.length_append, hdrop]; omega⟩,
    List.take_left' hdrop, hshare, List.take_append_drop, List.drop_left' hdrop,
    List.take_left' rfl, ← List.append_assoc,
    List.drop_left' (by rw [List.length_append, hdrop])]

/-- The bytes hold the entries, each key compressed against the one before it. -/
inductive Encodes : Bytes → Bytes → List (InternalKey × Bytes) → Prop
  | nil (lastKey : Bytes) : Encodes lastKey [] []
  | cons {lastKey bs value : Bytes} {key : InternalKey} {es : List (InternalKey × Bytes)}
      {shared : ℕ} : shared ≤ lastKey.length → shared ≤ (encodeKey key).length →
      lastKey.take shared = (encodeKey key).take shared → Encodes (encodeKey key) bs es →
      Encodes lastKey (entryBytes shared (encodeKey key) value ++ bs) ((key, value) :: es)

def endKey (lastKey : Bytes) (es : List (InternalKey × Bytes)) : Bytes :=
  es.foldl (fun _ e => encodeKey e.1) lastKey

theorem endKey_concat (lastKey : Bytes) (es : List (InternalKey × Bytes))
    (e : InternalKey × Bytes) : endKey lastKey (es ++ [e]) = encodeKey e.1 := by
  rw [endKey, List.foldl_append]
  rfl

theorem Encodes.concat (h : Encodes lastKey bs es) (hlast : shared ≤ (endKey lastKey es).length)
    (henc : shared ≤ (encodeKey key).length)
    (hshare : (endKey lastKey es).take shared = (encodeKey key).take shared) :
    Encodes lastKey (bs ++ entryBytes shared (encodeKey key) value) (es ++ [(key, value)]) := by
  induction h with
  | nil lastKey =>
    have hone : Encodes lastKey (entryBytes shared (encodeKey key) value ++ []) [(key, value)] :=
      .cons hlast henc hshare (.nil _)
    rwa [List.append_nil] at hone
  | cons h1 h2 h3 _ ih =>
    rw [List.append_assoc]
    exact Encodes.cons h1 h2 h3 (ih hlast hshare)

/-! ## Iterating -/

theorem sane_of_parseEntry (hlen : lastKey.length + bs.length < 2 ^ 63) {r : Bytes × Bytes × Bytes}
    (hparse : parseEntry lastKey bs = some r) : Sane lastKey.length bs := by
  obtain ⟨⟨hd, tail⟩, hp, hif⟩ := Option.bind_eq_some_iff.1 hparse
  simp only at hif
  split_ifs at hif with htest
  intro r' hr' _
  obtain rfl : (hd, tail) = r' := Option.some.inj (hp.symm.trans hr')
  obtain ⟨-, -, -, -, htail, -⟩ := parseHeader_some hp
  exact ⟨by change hd.shared < _; omega, by change hd.unshared + hd.valueLen < _; omega⟩

/-- **What was encoded is read.** -/
theorem Encodes.readEntries (h : Encodes lastKey bs es)
    (hlen : lastKey.length + bs.length < 2 ^ 63) : readEntries bs.length lastKey bs = some es := by
  induction h with
  | nil => rfl
  | @cons lastKey bs value key es shared h1 h2 h3 _ ih =>
    have hparse : parseEntry lastKey (entryBytes shared (encodeKey key) value ++ bs) =
        some (encodeKey key, value, bs) := by
      simp only [entryBytes, List.length_append, List.length_drop] at hlen
      exact parseEntry_entryBytes h1 h2 h3 (by omega) (by omega)
    have hshorter := (parseEntry_some hparse).2.1
    rw [readEntries_eq, if_pos (sane_of_parseEntry hlen hparse), hparse]
    simp only
    rw [ih (by omega), decodeKey_encodeKey]
    rfl

/-- The iterator is at the first of the entries; it is invalid when there are none. -/
def At (it : BlockIterator) : List (InternalKey × Bytes) → Prop
  | [] => it.valid = false
  | e :: es => it.valid = true ∧ it.key = e.1 ∧ it.value = e.2 ∧ it.Wf ∧ it.ahead = some es

theorem next_at {it : BlockIterator} {es : List (InternalKey × Bytes)} (hwf : it.Wf)
    (h : it.ahead = some es) : ∃ it', it.next = .ok it' ∧ At it' es ∧ it'.block = it.block := by
  obtain ⟨it', hnext⟩ := exists_next hwf h
  obtain ⟨hb, ⟨hv, ha⟩ | ⟨hv, hw, ha⟩⟩ := next_ok hwf hnext
  · rw [h] at ha
    cases ha
    exact ⟨it', hnext, hv, hb⟩
  · rw [h] at ha
    obtain ⟨es', hes', rfl⟩ := Option.map_eq_some_iff.1 ha.symm
    exact ⟨it', hnext, ⟨hv, rfl, rfl, hw, hes'⟩, hb⟩

/-- **The iterator walks through the entries.** -/
theorem At.next {it : BlockIterator} {e : InternalKey × Bytes} (h : At it (e :: es)) :
    ∃ it', it.next = .ok it' ∧ At it' es ∧ it'.block = it.block :=
  next_at h.2.2.2.1 h.2.2.2.2

theorem newBlockIterator_wf (hcap : block.data.array.length < 2 ^ 63) :
    ({ block := block } : BlockIterator).Wf :=
  ⟨Nat.zero_le _, le_rfl, hcap⟩

theorem newBlockIterator_at (hcap : block.data.array.length < 2 ^ 63)
    (h : blockEntries block.data.toList = some es) :
    ∃ it, newBlockIterator block = .ok it ∧ At it es ∧ it.block = block :=
  next_at (newBlockIterator_wf hcap) h

theorem Encodes.newBlockIterator {block : Block} {es : List (InternalKey × Bytes)}
    (h : Encodes [] block.data.toList es) (hcap : block.data.array.length < 2 ^ 63) :
    ∃ it, newBlockIterator block = .ok it ∧ At it es ∧ it.block = block := by
  refine newBlockIterator_at hcap (h.readEntries ?_)
  rw [Slice.length_toList]
  exact (Nat.zero_add _).trans_lt (block.data.len_le.trans_lt hcap)

/-! ## Building -/

theorem sharedLen_le_left (a b : Bytes) : sharedLen a b ≤ a.length := by
  fun_induction sharedLen a b <;> simp_all

theorem sharedLen_le_right (a b : Bytes) : sharedLen a b ≤ b.length := by
  fun_induction sharedLen a b <;> simp_all

theorem take_sharedLen (a b : Bytes) : a.take (sharedLen a b) = b.take (sharedLen a b) := by
  fun_induction sharedLen a b <;> simp_all

structure BlockBuilder.Holds (b : BlockBuilder) (es : List (InternalKey × Bytes)) : Prop where
  encodes : Encodes [] b.buf es
  lastKey_eq : b.lastKey.getD [] = endKey [] es
  restarts_le : b.restarts.length ≤ es.length

theorem newBlockBuilder_holds (restartInterval : ℤ) :
    (newBlockBuilder restartInterval).Holds [] :=
  ⟨Encodes.nil [], rfl, le_rfl⟩

theorem BlockBuilder.Holds.add {b b' : BlockBuilder} {es : List (InternalKey × Bytes)}
    (h : b.Holds es) {key : InternalKey} {value : Bytes} (hadd : b.add key value = .ok b') :
    b'.Holds (es ++ [(key, value)]) := by
  have hlen := h.restarts_le
  unfold BlockBuilder.add at hadd
  simp only at hadd
  split_ifs at hadd with hbad hcounter
  · cases hadd
    refine ⟨?_, by rw [endKey_concat]; rfl, ?_⟩
    · change Encodes [] (b.buf ++ entryBytes _ _ _) _
      rw [h.lastKey_eq]
      exact h.encodes.concat (sharedLen_le_left _ _) (sharedLen_le_right _ _) (take_sharedLen _ _)
    · change b.restarts.length ≤ _
      rw [List.length_append]
      omega
  · cases hadd
    refine ⟨?_, by rw [endKey_concat]; rfl, ?_⟩
    · exact h.encodes.concat (Nat.zero_le _) (Nat.zero_le _) rfl
    · change (b.restarts ++ [_]).length ≤ _
      simpa using hlen

/-! ## Decoding -/

theorem uint32At_ok {data : Slice UInt8} {pos : ℕ} (h : pos + 4 ≤ data.len) :
    uint32At data pos = .ok (decode ((data.toList.drop pos).take 4)) := by
  obtain ⟨s, hs, hlist, hlen⟩ := @slice_len_ok data pos (by omega)
  unfold uint32At
  simp only [hs, bind, Except.bind]
  rw [if_neg (by omega), hlist]

theorem mapM_ok {f : ℕ → Except Halt ℕ} {g : ℕ → ℕ} {l : List ℕ} (h : ∀ i ∈ l, f i = .ok (g i)) :
    l.mapM f = .ok (l.map g) := by
  induction l with
  | nil => rfl
  | cons i l ih =>
    obtain ⟨hi, hl⟩ := List.forall_mem_cons.1 h
    rw [List.mapM_cons, hi, ih hl]
    rfl

theorem length_restarts (rs : List UInt32) :
    (rs.flatMap fun r => encode 4 r.toNat).length = 4 * rs.length := by
  induction rs with
  | nil => rfl
  | cons r rs ih =>
    rw [List.flatMap_cons, List.length_append, ih, length_encode, List.length_cons]
    omega

theorem map_restarts (pre : Bytes) (rs : List UInt32) (tail : Bytes) :
    (List.range rs.length).map (fun i => UInt32.ofNat
      (decode (((pre ++ ((rs.flatMap fun r => encode 4 r.toNat) ++ tail)).drop
        (pre.length + i * 4)).take 4))) = rs := by
  induction rs generalizing pre with
  | nil => rfl
  | cons r rs ih =>
    rw [List.length_cons, List.range_succ_eq_map, List.map_cons, List.map_map]
    congr 1
    · rw [Nat.zero_mul, Nat.add_zero, List.drop_left' rfl, List.flatMap_cons, List.append_assoc,
        decode_take_append, Nat.mod_eq_of_lt (by exact r.toNat_lt), UInt32.ofNat_toNat]
    · have hstep := ih (pre ++ encode 4 r.toNat)
      rw [List.length_append, length_encode, List.append_assoc] at hstep
      rw [List.flatMap_cons, List.append_assoc]
      refine Eq.trans (List.map_congr_left fun i _ => ?_) hstep
      simp only [Function.comp_apply, Nat.succ_eq_add_one]
      rw [show pre.length + (i + 1) * 4 = pre.length + 4 + i * 4 by omega]

/-- **A finished block is decoded**: the body is the buffer of the builder. -/
theorem decodeBlock_finish {data : Slice UInt8} {buf : Bytes} {rs : List UInt32}
    (hdata : data.toList = buf ++ restartBytes rs) (hrs : rs.length < 2 ^ 32) :
    ∃ body, decodeBlock data = .ok (.ok ⟨body, rs⟩) ∧ body.toList = buf ∧
      body.array.length ≤ data.array.length := by
  have hlen : data.len = buf.length + 4 * rs.length + 4 := by
    rw [← Slice.length_toList, hdata, restartBytes, List.length_append, List.length_append,
      length_restarts, length_encode]
    omega
  have hnum : uint32At data ((data.len : ℤ) - 4) = .ok rs.length := by
    have hpos : ((data.len : ℤ) - 4) = (buf.length + 4 * rs.length : ℕ) := by omega
    rw [hpos, uint32At_ok (by omega), hdata, restartBytes, ← List.append_assoc,
      List.drop_left' (by rw [List.length_append, length_restarts]),
      List.take_of_length_le (length_encode _ _).le, decode_encode_of_lt (by omega)]
  have hstart : (data.len : ℤ) - 4 - rs.length * 4 = buf.length := by omega
  have hpoints : ((List.range rs.length).mapM fun i : ℕ => uint32At data (buf.length + i * 4)) =
      .ok ((List.range rs.length).map fun i =>
        decode ((data.toList.drop (buf.length + i * 4)).take 4)) := by
    refine mapM_ok fun i hi => ?_
    have hlt := List.mem_range.1 hi
    exact_mod_cast @uint32At_ok data (buf.length + i * 4) (by omega)
  obtain ⟨body, hbody, hbodyl, -⟩ := @slice_ok data 0 buf.length (Nat.zero_le _) (by omega)
  refine ⟨body, ?_, ?_, slice_array_le hbody⟩
  · unfold decodeBlock
    rw [if_neg (by omega)]
    simp only [bind, Except.bind, pure, Except.pure, hnum, hstart]
    rw [if_neg (by omega), hpoints]
    simp only
    rw [Int.natCast_zero] at hbody
    rw [hbody, List.map_map]
    simp only [Except.ok.injEq, Block.mk.injEq, true_and]
    rw [hdata]
    exact map_restarts buf rs _
  · rw [hbodyl, List.drop_zero, hdata, List.take_left' rfl]

end LsmTree.Table
