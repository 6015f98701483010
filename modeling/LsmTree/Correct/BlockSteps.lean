import LsmTree.Sstable.Block

/-!
# One step of a block iterator

`parseEntry` reads an entry with numbers of any size.  `BlockIterator.Next` makes its tests on
64-bit words, so an entry with huge lengths can pass them.  Where it does not (`Sane`) the step is
the one of `parseEntry` (`next_of_sane`); where it does, the step panics (`next_of_not_sane`), on
whatever slice expression or allocation comes first.
-/

namespace LsmTree.Table

open Word

variable {data s t : Slice UInt8} {hi lo : ℤ} {bs lastKey : Bytes} {h : Header} {it : BlockIterator}
  {es : List (InternalKey × Bytes)}

/-! ## Reading lengths -/

theorem slice_ok {s : Slice UInt8} {lo hi : ℕ} (h : lo ≤ hi) (hhi : hi ≤ s.len) :
    ∃ t, slice s lo hi = .ok t ∧ t.toList = (s.toList.take hi).drop lo ∧ t.len = hi - lo := by
  obtain ⟨t, ht, hlist, hlen⟩ := Slice.exists_sub h hhi
  exact ⟨t, by rw [slice, ht], hlist, hlen⟩

theorem slice_len_ok {s : Slice UInt8} {lo : ℕ} (h : lo ≤ s.len) :
    ∃ t, slice s lo s.len = .ok t ∧ t.toList = s.toList.drop lo ∧ t.len = s.len - lo := by
  obtain ⟨t, ht, hlist, hlen⟩ := Slice.exists_sub_len h
  exact ⟨t, by rw [slice, ht], hlist, hlen⟩

theorem slice_error (h : ¬ (0 ≤ lo ∧ lo ≤ hi ∧ hi ≤ s.array.length)) :
    slice s lo hi = .error .sliceOutOfRange := by
  have hsub : s.sub lo hi = none := dif_neg h
  rw [slice, hsub]

theorem slice_array_le (h : slice s lo hi = .ok t) : t.array.length ≤ s.array.length := by
  unfold slice Slice.sub at h
  split_ifs at h
  cases h
  rw [List.length_drop]
  omega

theorem slice_eq_ok (h : slice s lo hi = .ok t) : 0 ≤ lo ∧ lo ≤ hi ∧ hi ≤ s.array.length := by
  unfold slice at h
  split at h
  · exact Slice.sub_eq_some ‹_›
  · cases h

theorem slice_eq_error {err : Halt} (h : slice s lo hi = .error err) : err = .sliceOutOfRange := by
  unfold slice at h
  split at h
  · cases h
  · exact (Except.error.inj h).symm

def parseVarint (bs : Bytes) : Option (ℕ × ℕ × Bytes) :=
  let v := Uvarint.get bs
  if v.2 ≤ 0 then none else some (v.1, v.2.toNat, bs.drop v.2.toNat)

/-- The lengths of an entry and what follows them. -/
def parseHeader (bs : Bytes) : Option (Header × Bytes) :=
  (parseVarint bs).bind fun a =>
    (parseVarint a.2.2).bind fun b =>
      (parseVarint b.2.2).map fun c => (⟨a.1, b.1, c.1, a.2.1 + b.2.1 + c.2.1⟩, c.2.2)

theorem parseVarint_some {rest : Bytes} {v n : ℕ} (h : parseVarint bs = some (v, n, rest)) :
    v < 2 ^ 64 ∧ 0 < n ∧ n + rest.length = bs.length ∧ rest = bs.drop n := by
  have hbounds := Uvarint.get_bounds bs
  simp only [parseVarint] at h
  split_ifs at h with hpos
  cases h
  refine ⟨hbounds.1, by omega, ?_, rfl⟩
  rw [List.length_drop]
  omega

theorem readVarint_eq (data : Slice UInt8) :
    (parseVarint data.toList = none ∧ readVarint data = .ok none) ∨
      ∃ v n rest, parseVarint data.toList = some (v, n, rest.toList) ∧
        readVarint data = .ok (some (v, n, rest)) ∧ rest.array.length ≤ data.array.length := by
  have hbounds := Uvarint.get_bounds data.toList
  simp only [parseVarint, readVarint]
  split_ifs with hpos
  · exact Or.inl ⟨rfl, rfl⟩
  · obtain ⟨n, hn⟩ : ∃ n : ℕ, (Uvarint.get data.toList).2 = n :=
      ⟨_, (Int.toNat_of_nonneg (by omega)).symm⟩
    rw [hn, Slice.length_toList] at hbounds
    obtain ⟨t, ht, hlist, -⟩ := @slice_len_ok data n (by omega)
    refine Or.inr ⟨(Uvarint.get data.toList).1, n, t, ?_, ?_, slice_array_le ht⟩
    · rw [hn, hlist]
      rfl
    · rw [hn, ht]
      rfl

theorem readHeader_eq (data : Slice UInt8) :
    (parseHeader data.toList = none ∧ readHeader data = .ok none) ∨
      ∃ h rest, parseHeader data.toList = some (h, rest.toList) ∧
        readHeader data = .ok (some (h, rest)) ∧ rest.array.length ≤ data.array.length := by
  unfold parseHeader readHeader
  rcases readVarint_eq data with ⟨hp, hr⟩ | ⟨a, n1, data1, hp, hr, hcap1⟩
  · left
    rw [hp, hr]
    exact ⟨rfl, rfl⟩
  rw [hp, hr]
  rcases readVarint_eq data1 with ⟨hp, hr⟩ | ⟨b, n2, data2, hp, hr, hcap2⟩
  · left
    simp only [Option.bind_some, hp]
    exact ⟨rfl, by simp only [bind, Except.bind, hr, pure, Except.pure]⟩
  rcases readVarint_eq data2 with ⟨hp', hr'⟩ | ⟨c, n3, data3, hp', hr', hcap3⟩
  · left
    simp only [Option.bind_some, hp, hp']
    exact ⟨rfl, by simp only [bind, Except.bind, hr, hr', pure, Except.pure]⟩
  · right
    refine ⟨⟨a, b, c, n1 + n2 + n3⟩, data3, ?_, ?_, hcap3.trans (hcap2.trans hcap1)⟩
    · simp only [Option.bind_some, hp, hp']
      rfl
    · simp only [bind, Except.bind, hr, hr', pure, Except.pure]

theorem parseHeader_some {rest : Bytes} (hp : parseHeader bs = some (h, rest)) :
    h.shared < 2 ^ 64 ∧ h.unshared < 2 ^ 64 ∧ h.valueLen < 2 ^ 64 ∧ 3 ≤ h.size ∧
      h.size + rest.length = bs.length ∧ rest = bs.drop h.size := by
  unfold parseHeader at hp
  obtain ⟨⟨a, n1, r1⟩, h1, hp⟩ := Option.bind_eq_some_iff.1 hp
  obtain ⟨⟨b, n2, r2⟩, h2, hp⟩ := Option.bind_eq_some_iff.1 hp
  obtain ⟨⟨c, n3, r3⟩, h3, hp⟩ := Option.map_eq_some_iff.1 hp
  cases hp
  change parseVarint r1 = _ at h2
  change parseVarint r2 = _ at h3
  obtain ⟨ha, hn1, hl1, rfl⟩ := parseVarint_some h1
  obtain ⟨hb, hn2, hl2, rfl⟩ := parseVarint_some h2
  obtain ⟨hc, hn3, hl3, rfl⟩ := parseVarint_some h3
  refine ⟨ha, hb, hc, ?_, ?_, ?_⟩
  · change 3 ≤ n1 + n2 + n3
    omega
  · change n1 + n2 + n3 + (((bs.drop n1).drop n2).drop n3).length = _
    omega
  · change ((bs.drop n1).drop n2).drop n3 = bs.drop (n1 + n2 + n3)
    rw [List.drop_drop, List.drop_drop, Nat.add_assoc]

/-! ## The tests -/

/-- The lengths pass the tests of `BlockIterator.Next`, which are made on signed words. -/
def Header.Passes (h : Header) (lastLen dataLen : ℕ) : Prop :=
  ¬ ((lastLen : ℤ) < int64 h.shared ∨
    (dataLen : ℤ) < int64 (int64 h.unshared + int64 h.valueLen))

instance (h : Header) (lastLen dataLen : ℕ) : Decidable (h.Passes lastLen dataLen) :=
  inferInstanceAs (Decidable (¬ _))

/-- The lengths are signed words, and so is their sum. -/
def Header.Fits (h : Header) : Prop := h.shared < 2 ^ 63 ∧ h.unshared + h.valueLen < 2 ^ 63

instance (h : Header) : Decidable h.Fits := inferInstanceAs (Decidable (_ ∧ _))

theorem Header.Fits.passes_iff (hfits : h.Fits) {lastLen dataLen : ℕ} :
    h.Passes lastLen dataLen ↔ h.shared ≤ lastLen ∧ h.unshared + h.valueLen ≤ dataLen := by
  obtain ⟨hshared, hsum⟩ := hfits
  have hint : int64 (int64 h.unshared + int64 h.valueLen) = (h.unshared + h.valueLen : ℕ) := by
    rw [int64_of_lt (by omega), int64_of_lt (by omega), ← Int.natCast_add, int64_of_lt hsum]
  unfold Header.Passes
  rw [int64_of_lt hshared, hint]
  omega

/-- An entry, read with numbers of any size: its full key, its value, and what follows. -/
def parseEntry (lastKey bs : Bytes) : Option (Bytes × Bytes × Bytes) :=
  (parseHeader bs).bind fun r =>
    if r.1.shared ≤ lastKey.length ∧ r.1.unshared + r.1.valueLen ≤ r.2.length then
      some (lastKey.take r.1.shared ++ r.2.take r.1.unshared,
        (r.2.drop r.1.unshared).take r.1.valueLen, r.2.drop (r.1.unshared + r.1.valueLen))
    else none

/-- No lengths ahead pass the tests without fitting into words. -/
def Sane (lastLen : ℕ) (bs : Bytes) : Prop :=
  ∀ r ∈ parseHeader bs, r.1.Passes lastLen r.2.length → r.1.Fits

instance (lastLen : ℕ) (bs : Bytes) : Decidable (Sane lastLen bs) :=
  inferInstanceAs (Decidable (∀ r ∈ parseHeader bs, _))

/-! ## The step -/

theorem copyInto_of_le {dst src : Bytes} (h : src.length ≤ dst.length) :
    copyInto dst src = src ++ dst.drop src.length := by
  rw [copyInto, List.take_of_length_le h]

theorem joinKey_ok {shared unshared : ℕ} (hshared : shared ≤ lastKey.length)
    (hunshared : unshared ≤ data.len) (hsum : shared + unshared < 2 ^ 63) :
    joinKey lastKey data shared unshared =
      .ok (lastKey.take shared ++ data.toList.take unshared) := by
  have hlen : uint64 (shared + unshared) = shared + unshared := uint64_of_lt (by omega)
  obtain ⟨kept, hkept, hkeptl, -⟩ := @slice_ok (.ofList lastKey) 0 shared (by omega) hshared
  rw [List.drop_zero, Slice.toList_ofList] at hkeptl
  have htake : (lastKey.take shared).length = shared := List.length_take_of_le hshared
  have hfull : copyInto (List.replicate (shared + unshared) 0) kept.toList =
      lastKey.take shared ++ List.replicate unshared 0 := by
    rw [hkeptl, copyInto_of_le (by simp [htake]), htake, List.drop_replicate]
    congr 2
    omega
  obtain ⟨dst, hdst, hdstl, -⟩ := @slice_ok
    (.ofList (lastKey.take shared ++ List.replicate unshared 0)) shared (shared + unshared)
    (by omega) (by simp [htake])
  obtain ⟨src, hsrc, hsrcl, -⟩ := @slice_ok data 0 unshared (by omega) hunshared
  have hdstl' : dst.toList = List.replicate unshared 0 := by
    rw [hdstl, Slice.toList_ofList, List.take_of_length_le (by simp [htake]),
      List.drop_left' htake]
  have hsrclen : (data.toList.take unshared).length = unshared :=
    List.length_take_of_le (by rw [Slice.length_toList]; exact hunshared)
  unfold joinKey
  simp only [hlen, not_le.2 hsum, if_false, bind, Except.bind, pure, Except.pure]
  rw [Int.natCast_zero] at hkept hsrc
  rw [hkept]
  simp only [hfull]
  rw [hdst, hsrc]
  simp only
  rw [hdstl', hsrcl, List.drop_zero, List.take_left' htake,
    copyInto_of_le (by simp [hsrclen]), hsrclen]
  simp

def BlockIterator.rest (it : BlockIterator) : Bytes := it.block.data.toList.drop it.pos

/-- The position lies in the block, and the last key is no longer than what has been read. -/
structure BlockIterator.Wf (it : BlockIterator) : Prop where
  pos_le : it.pos ≤ it.block.data.len
  lastKey_le : it.lastKey.length ≤ it.pos
  cap_lt : it.block.data.array.length < 2 ^ 63

def BlockIterator.step (it : BlockIterator) : BlockIterator :=
  match parseEntry it.lastKey it.rest with
  | none => { it with valid := false }
  | some (fullKey, value, rest) =>
    { it with
      lastKey := fullKey
      key := decodeKey fullKey
      value := value
      pos := it.block.data.len - rest.length
      valid := true }

theorem parseHeader_nil : parseHeader [] = none := rfl

theorem next_eq (hwf : it.Wf) :
    (parseHeader it.rest = none ∧ it.next = .ok { it with valid := false }) ∨
      ∃ h data, parseHeader it.rest = some (h, data.toList) ∧ data.array.length < 2 ^ 63 ∧
        it.next = if h.Passes it.lastKey.length data.len then
            (joinKey it.lastKey data h.shared h.unshared).bind fun fullKey =>
              (slice data h.unshared (uint64 (h.unshared + h.valueLen))).map fun value =>
                { it with
                  lastKey := fullKey
                  key := decodeKey fullKey
                  value := value.toList
                  pos := it.pos + h.size + h.unshared + h.valueLen
                  valid := true }
          else .ok { it with valid := false } := by
  rcases hwf.pos_le.lt_or_eq with hpos | hpos
  · obtain ⟨data, hdata, hlist, -⟩ := slice_len_ok hwf.pos_le
    have hrest : data.toList = it.rest := hlist
    rcases readHeader_eq data with ⟨hp, hr⟩ | ⟨h, data', hp, hr, hcap⟩
    · left
      rw [← hrest]
      refine ⟨hp, ?_⟩
      unfold BlockIterator.next
      rw [if_neg (not_le.2 hpos), hdata]
      simp only [bind, Except.bind, hr, pure, Except.pure]
    · right
      rw [← hrest]
      refine ⟨h, data', hp, (hcap.trans (slice_array_le hdata)).trans_lt hwf.cap_lt, ?_⟩
      unfold BlockIterator.next
      rw [if_neg (not_le.2 hpos), hdata]
      simp only [bind, Except.bind, hr, pure, Except.pure]
      by_cases htest : h.Passes it.lastKey.length data'.len
      · rw [if_neg htest, if_pos htest]
        rcases joinKey it.lastKey data' h.shared h.unshared with err | fullKey
        · rfl
        · rcases slice data' h.unshared (uint64 (h.unshared + h.valueLen)) with err | value <;> rfl
      · rw [if_pos (not_not.1 htest), if_neg htest]
  · left
    have hrest : it.rest = [] := by
      rw [BlockIterator.rest, hpos, List.drop_eq_nil_iff, Slice.length_toList]
    rw [hrest]
    refine ⟨parseHeader_nil, ?_⟩
    unfold BlockIterator.next
    rw [if_pos hpos.ge]
    rfl

/-- **A step over sane lengths.** -/
theorem next_of_sane (hwf : it.Wf) (hs : Sane it.lastKey.length it.rest) :
    it.next = .ok it.step := by
  unfold BlockIterator.step parseEntry
  rcases next_eq hwf with ⟨hp, hn⟩ | ⟨h, data, hp, -, hn⟩
  · rw [hn, hp]
    rfl
  rw [hn, hp]
  obtain ⟨-, -, -, -, hlen, -⟩ := parseHeader_some hp
  rw [BlockIterator.rest, List.length_drop, Slice.length_toList, Slice.length_toList] at hlen
  have hwf1 := hwf.pos_le
  have hwf2 := hwf.lastKey_le
  have hwf3 := it.block.data.len_le.trans_lt hwf.cap_lt
  split_ifs with htest
  · have hfits : h.Fits := hs (h, data.toList) hp (by rw [Slice.length_toList]; exact htest)
    obtain ⟨hshared, hsum⟩ := hfits.passes_iff.1 htest
    have hu : uint64 (h.unshared + h.valueLen) = h.unshared + h.valueLen :=
      uint64_of_lt (by have := hfits.2; omega)
    obtain ⟨value, hvalue, hvaluel, -⟩ := @slice_ok data h.unshared (h.unshared + h.valueLen)
      (by omega) hsum
    rw [joinKey_ok hshared (by omega) (by omega), hu]
    simp only [Except.bind, Option.bind_some]
    rw [hvalue, if_pos ⟨hshared, by rw [Slice.length_toList]; exact hsum⟩]
    simp only [Except.map, Except.ok.injEq, BlockIterator.mk.injEq, true_and, and_true]
    refine ⟨?_, ?_⟩
    · rw [List.length_drop, Slice.length_toList]
      omega
    · rw [hvaluel, List.drop_take, Nat.add_sub_cancel_left]
  · have hnot : ¬ (h.shared ≤ it.lastKey.length ∧
        h.unshared + h.valueLen ≤ data.toList.length) := by
      rintro ⟨hshared, hsum⟩
      rw [Slice.length_toList] at hsum
      exact htest ((Header.Fits.passes_iff ⟨by omega, by omega⟩).2 ⟨hshared, hsum⟩)
    simp only [Option.bind_some, if_neg hnot]

/-! ## Progress -/

theorem parseEntry_some {fullKey value rest : Bytes}
    (h : parseEntry lastKey bs = some (fullKey, value, rest)) :
    rest.length + 3 ≤ bs.length ∧ fullKey.length + rest.length ≤ lastKey.length + bs.length ∧
      rest = bs.drop (bs.length - rest.length) := by
  obtain ⟨⟨hd, tail⟩, hp, h⟩ := Option.bind_eq_some_iff.1 h
  obtain ⟨-, -, -, hsize, hlen, htail⟩ := parseHeader_some hp
  simp only at h
  split_ifs at h with htest
  cases h
  obtain ⟨hshared, hsum⟩ := htest
  have hfull : (lastKey.take hd.shared ++ tail.take hd.unshared).length =
      hd.shared + hd.unshared := by
    rw [List.length_append, List.length_take_of_le hshared, List.length_take_of_le (by omega)]
  have hrest : (tail.drop (hd.unshared + hd.valueLen)).length =
      tail.length - (hd.unshared + hd.valueLen) := List.length_drop
  refine ⟨by omega, by omega, ?_⟩
  rw [hrest, htail, List.drop_drop]
  congr 1
  rw [← htail]
  omega

theorem step_cases (hwf : it.Wf) :
    (parseEntry it.lastKey it.rest = none ∧ it.step = { it with valid := false }) ∨
      ∃ fullKey value rest, parseEntry it.lastKey it.rest = some (fullKey, value, rest) ∧
        it.step.valid = true ∧ it.step.block = it.block ∧ it.step.lastKey = fullKey ∧
        it.step.key = decodeKey fullKey ∧ it.step.value = value ∧ it.step.rest = rest ∧
        it.step.Wf ∧ it.step.rest.length < it.rest.length := by
  rcases hparse : parseEntry it.lastKey it.rest with _ | ⟨fullKey, value, rest⟩
  · left
    refine ⟨rfl, ?_⟩
    rw [BlockIterator.step, hparse]
  · right
    have hstep : it.step =
        { it with
          lastKey := fullKey
          key := decodeKey fullKey
          value := value
          pos := it.block.data.len - rest.length
          valid := true } := by
      rw [BlockIterator.step, hparse]
    obtain ⟨hlen, hkey, hdrop⟩ := parseEntry_some hparse
    have hpos := hwf.pos_le
    have hlast := hwf.lastKey_le
    have hrestlen : it.rest.length = it.block.data.len - it.pos := by
      rw [BlockIterator.rest, List.length_drop, Slice.length_toList]
    have hrest : it.step.rest = rest := by
      rw [hstep]
      change it.block.data.toList.drop (it.block.data.len - rest.length) = rest
      nth_rewrite 2 [hdrop]
      rw [BlockIterator.rest, List.drop_drop, List.length_drop, Slice.length_toList]
      congr 1
      omega
    refine ⟨fullKey, value, rest, rfl, ?_, ?_, ?_, ?_, ?_, hrest, ?_, ?_⟩
    · rw [hstep]
    · rw [hstep]
    · rw [hstep]
    · rw [hstep]
    · rw [hstep]
    · rw [hstep]
      refine ⟨?_, ?_, hwf.cap_lt⟩
      · change it.block.data.len - rest.length ≤ it.block.data.len
        omega
      · change fullKey.length ≤ it.block.data.len - rest.length
        omega
    · rw [hrest]
      omega

/-! ## Panics -/

theorem joinKey_bind_error {β : Type} (hlast : lastKey.length < 2 ^ 63)
    (hcap : data.array.length < 2 ^ 63) (hv : h.valueLen < 2 ^ 64) (hfits : ¬ h.Fits)
    (f : Bytes → Slice UInt8 → β) :
    ∃ err, err ≠ Halt.running ∧
      ((joinKey lastKey data h.shared h.unshared).bind fun fullKey =>
        (slice data h.unshared (uint64 (h.unshared + h.valueLen))).map (f fullKey)) =
          .error err := by
  unfold joinKey
  simp only [bind, Except.bind, pure, Except.pure]
  by_cases hmake : 2 ^ 63 ≤ uint64 (h.shared + h.unshared)
  · exact ⟨.lenOutOfRange, by decide, by rw [if_pos hmake]⟩
  rw [if_neg hmake]
  by_cases hshared : h.shared ≤ lastKey.length
  swap
  · refine ⟨.sliceOutOfRange, by decide, ?_⟩
    rw [slice_error (s := .ofList lastKey)]
    rintro ⟨-, -, hle⟩
    exact hshared (by exact_mod_cast hle)
  obtain ⟨kept, hkept, hkeptl, -⟩ := @slice_ok (.ofList lastKey) 0 h.shared (by omega) hshared
  rw [Int.natCast_zero] at hkept
  rw [hkept]
  simp only
  -- the shared part is there, so it is the other two lengths that are too large
  have hsum : 2 ^ 63 ≤ h.unshared + h.valueLen := by
    by_contra hlt
    exact hfits ⟨by omega, by omega⟩
  rcases hdst : slice (.ofList (copyInto (List.replicate (uint64 (h.shared + h.unshared)) 0)
      kept.toList)) h.shared (uint64 (h.shared + h.unshared)) with err | dst
  · obtain rfl := slice_eq_error hdst
    exact ⟨_, by decide, rfl⟩
  · obtain ⟨-, hle, -⟩ := slice_eq_ok hdst
    simp only
    rcases hsrc : slice data 0 h.unshared with err | src
    · obtain rfl := slice_eq_error hsrc
      exact ⟨_, by decide, rfl⟩
    · refine ⟨.sliceOutOfRange, by decide, ?_⟩
      simp only
      rw [slice_error]
      · rfl
      rintro ⟨-, hlohi, hhi⟩
      unfold uint64 at hmake hle hlohi hhi
      omega

/-- **A step over lengths that are not sane panics.** -/
theorem next_of_not_sane (hwf : it.Wf) (hs : ¬ Sane it.lastKey.length it.rest) :
    ∃ err, err ≠ Halt.running ∧ it.next = .error err := by
  unfold Sane at hs
  push Not at hs
  obtain ⟨r, hr, hpass, hfits⟩ := hs
  rcases next_eq hwf with ⟨hp, -⟩ | ⟨h, data, hp, hcap, hn⟩
  · rw [hp] at hr
    cases hr
  obtain rfl : (h, data.toList) = r := Option.some.inj (hp.symm.trans hr)
  obtain ⟨-, -, hv, -⟩ := parseHeader_some hp
  rw [Slice.length_toList] at hpass
  have hlast := hwf.lastKey_le
  have hpos := hwf.pos_le
  have hlen := it.block.data.len_le
  have hbound := hwf.cap_lt
  rw [hn, if_pos hpass]
  exact joinKey_bind_error (by omega) hcap hv hfits _

/-! ## Entries -/

/-- The entries of a block, with numbers of any size; nothing where the iterator would panic. -/
def readEntries : ℕ → Bytes → Bytes → Option (List (InternalKey × Bytes))
  | 0, _, _ => some []
  | fuel + 1, lastKey, bs =>
    if Sane lastKey.length bs then
      match parseEntry lastKey bs with
      | none => some []
      | some (fullKey, value, rest) =>
        (readEntries fuel fullKey rest).map fun es => (decodeKey fullKey, value) :: es
    else none

theorem readEntries_of_le {fuel : ℕ} {lastKey bs : Bytes} (h : bs.length ≤ fuel) :
    readEntries fuel lastKey bs = readEntries bs.length lastKey bs := by
  induction fuel using Nat.strong_induction_on generalizing lastKey bs with
  | _ fuel ih =>
    rcases h.lt_or_eq with hlt | rfl
    · obtain ⟨n, rfl⟩ := Nat.exists_eq_succ_of_ne_zero (Nat.ne_zero_of_lt hlt)
      rcases hb : bs.length with _ | m
      · obtain rfl := List.length_eq_zero_iff.1 hb
        rw [readEntries, readEntries]
        exact if_pos fun r hr => by cases hr
      · rw [readEntries, readEntries]
        rcases hp : parseEntry lastKey bs with _ | ⟨fullKey, value, rest⟩
        · rfl
        · have hlen := (parseEntry_some hp).1
          simp only
          rw [ih n (Nat.lt_succ_self n) (by omega),
            ih m (by omega) (by omega)]
    · rfl

theorem readEntries_eq (lastKey bs : Bytes) :
    readEntries bs.length lastKey bs = if Sane lastKey.length bs then
      match parseEntry lastKey bs with
      | none => some []
      | some (fullKey, value, rest) =>
        (readEntries rest.length fullKey rest).map fun es => (decodeKey fullKey, value) :: es
      else none := by
  rw [← @readEntries_of_le (bs.length + 1) _ _ (Nat.le_succ _), readEntries]
  rcases hp : parseEntry lastKey bs with _ | ⟨fullKey, value, rest⟩
  · rfl
  · have hlen := (parseEntry_some hp).1
    simp only
    rw [@readEntries_of_le bs.length fullKey rest (by omega)]

def blockEntries (body : Bytes) : Option (List (InternalKey × Bytes)) :=
  readEntries body.length [] body

def BlockIterator.ahead (it : BlockIterator) : Option (List (InternalKey × Bytes)) :=
  readEntries it.rest.length it.lastKey it.rest

theorem next_ok {it' : BlockIterator} (hwf : it.Wf) (h : it.next = .ok it') :
    it'.block = it.block ∧
      ((it'.valid = false ∧ it.ahead = some []) ∨
        (it'.valid = true ∧ it'.Wf ∧
          it.ahead = it'.ahead.map fun es => (it'.key, it'.value) :: es)) := by
  by_cases hs : Sane it.lastKey.length it.rest
  · rw [next_of_sane hwf hs] at h
    cases h
    rw [BlockIterator.ahead, readEntries_eq, if_pos hs]
    rcases step_cases hwf with ⟨hp, hstep⟩ | ⟨_, _, _, hp, hv, hb, hlk, hk, hval, hr, hw, -⟩
    · rw [hp, hstep]
      exact ⟨rfl, .inl ⟨rfl, rfl⟩⟩
    · rw [hp, BlockIterator.ahead, hlk, hr, hk, hval]
      exact ⟨hb, .inr ⟨hv, hw, rfl⟩⟩
  · obtain ⟨err, -, herr⟩ := next_of_not_sane hwf hs
    rw [herr] at h
    cases h

theorem exists_next (hwf : it.Wf) (h : it.ahead = some es) : ∃ it', it.next = .ok it' := by
  by_cases hs : Sane it.lastKey.length it.rest
  · exact ⟨_, next_of_sane hwf hs⟩
  · rw [BlockIterator.ahead, readEntries_eq, if_neg hs] at h
    cases h

end LsmTree.Table
