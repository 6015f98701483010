import LsmTree.Property.ManifestReopen

/-!
# Manifest files that are cut off or hold anything

An edit of any type and level is read back from its bytes.  If bytes are missing at the end it is
rejected, unless just the last field is missing, as in old records (`edit_codec`).

So recovery accepts of a file with checksums the prefixes that end between two records, and returns
what the edits before the cut make of an empty version, exactly when every record fits its length
field and no table is listed beyond the last level (`prefix_exact_iff`).

Recovery checks none of the levels it finds.  On any bytes it returns a version or an error, unless
they decode to an edit that adds or removes a table at a level that does not exist; then it indexes
the array of levels out of range (`recover_out_of_range_iff`).
-/

namespace LsmTree.Disk

open LittleEndian

variable {crc : Bytes → UInt32}

variable {e : RawEdit} {edits : List RawEdit}

/-! ## Edits -/

/-- **The codec of version edits**: an edit is read back from its encoding, and a strict prefix of
the encoding is rejected, unless it lacks just the last field. -/
theorem edit_codec {e : RawEdit} (h : e.InRange) :
    decodeVersionEdit (encodeRawEdit e) = some e ∧
      ∀ n < (encodeRawEdit e).length, decodeVersionEdit ((encodeRawEdit e).take n) =
        if n + 8 = (encodeRawEdit e).length then some { e with maxSeqNo := 0 } else none := by
  refine ⟨decodeVersionEdit_encodeRaw h, fun n hn => ?_⟩
  rw [length_encodeRawEdit] at hn ⊢
  rcases lt_or_ge n (45 + e.firstKey.length + e.lastKey.length) with hlt | hge
  · rw [decodeVersionEdit_takeRaw h hlt, if_neg (by omega)]
  -- the cut lies in the last word
  obtain ⟨m, rfl⟩ := Nat.exists_eq_add_of_le hge
  have hstart : e.start.length = 45 + e.firstKey.length + e.lastKey.length := by
    have hlen := length_encodeRawEdit e
    rw [encodeRawEdit_start, List.length_append, length_encode] at hlen
    omega
  have hm : ((encode 8 e.maxSeqNo).take m).length = m :=
    List.length_take_of_le (by rw [length_encode]; omega)
  rw [← hstart, encodeRawEdit_start, List.take_length_add_append, decodeVersionEdit_start h]
  rcases Nat.eq_zero_or_pos m with rfl | hpos
  · rw [List.length_eq_zero_iff.1 hm, if_pos (by omega)]
    rfl
  · rw [readMaxSeqNo, if_neg (List.ne_nil_of_length_pos (by omega)), readWord, if_pos (by omega),
      if_neg (by omega)]
    rfl

def sampleEdit : RawEdit :=
  { type := 2, level := -1, fileID := 7, fileSize := 0, firstKey := [1], maxSeqNo := 9 }

theorem sampleEdit_inRange : sampleEdit.InRange := by
  constructor <;> decide

theorem edit_codec_sample :
    decodeVersionEdit (encodeRawEdit sampleEdit) = some sampleEdit ∧
      ∀ n < (encodeRawEdit sampleEdit).length,
        decodeVersionEdit ((encodeRawEdit sampleEdit).take n) =
          if n + 8 = (encodeRawEdit sampleEdit).length then some { sampleEdit with maxSeqNo := 0 }
          else none :=
  edit_codec sampleEdit_inRange

/-! ## Levels -/

/-- A table is added or removed only at a level that exists. -/
def LevelOk (e : RawEdit) : Prop :=
  EditType.ofCode e.type = some .addSSTable ∨ EditType.ofCode e.type = some .deleteSSTable →
    0 ≤ e.level ∧ e.level < maxLevels

theorem foldEdit_of_levelOk (h : LevelOk e) (v : Version) : ∃ v', foldEdit v e = .ok v' := by
  unfold foldEdit
  rcases htype : EditType.ofCode e.type with _ | t
  · exact ⟨_, rfl⟩
  · refine ⟨_, if_neg fun hbad => hbad.2 (h ?_)⟩
    rw [htype, Option.some.injEq, Option.some.injEq]
    exact hbad.1

theorem foldEdit_of_not_levelOk (h : ¬ LevelOk e) (v : Version) :
    foldEdit v e = .error .indexOutOfRange := by
  unfold foldEdit
  obtain ⟨htype, hlevel⟩ := Classical.not_imp.1 h
  rcases hcode : EditType.ofCode e.type with _ | t
  · rw [hcode] at htype
    simp at htype
  · rw [hcode, Option.some.injEq, Option.some.injEq] at htype
    exact if_pos ⟨htype, hlevel⟩

/-! ## Prefixes -/

def recordsOf (crc : Bytes → UInt32) (edits : List RawEdit) : Bytes :=
  edits.flatMap (rawRecord crc true)

/-- A manifest file with checksums that holds the edits. -/
def manifestFile (crc : Bytes → UInt32) (edits : List RawEdit) : Bytes :=
  manifestMagic ++ recordsOf crc edits

/-- `Recover` accepts a prefix of the file exactly when it is shorter than the magic or ends between
two records; it then returns the empty version, or what the edits before the cut make of it. -/
def PrefixExact (crc : Bytes → UInt32) (edits : List RawEdit) : Prop :=
  ∀ n ≤ (manifestFile crc edits).length,
    ((∃ r, recover crc ((manifestFile crc edits).take n) = .ok r) ↔
      n < 4 ∨ ∃ k ≤ edits.length, n = (manifestFile crc (edits.take k)).length) ∧
    ∀ v usesCRC, recover crc ((manifestFile crc edits).take n) = .ok (v, usesCRC) →
      (n < 4 ∧ v = {}) ∨ ∃ k ≤ edits.length, n = (manifestFile crc (edits.take k)).length ∧
        (edits.take k).foldlM foldEdit {} = .ok v

def TakenIn (e : RawEdit) : Prop := (encodeRawEdit e).length < 2 ^ 32 ∧ LevelOk e

theorem recover_magic (bs : Bytes) :
    recover crc (manifestMagic ++ bs) = (replay crc true {} bs).map fun v => (v, true) := by
  have hlen : (manifestMagic ++ bs).length = bs.length + 4 := by
    rw [List.length_append, Nat.add_comm]
    rfl
  have htake : (manifestMagic ++ bs).take 4 = manifestMagic := rfl
  have hdrop : (manifestMagic ++ bs).drop 4 = bs := rfl
  rw [recover, if_neg (by omega), if_pos htake, hdrop, replay,
    recoverLoop_fuel (by omega) (Nat.lt_succ_self bs.length)]

theorem replay_take {edits : List RawEdit}
    (h : ∀ e ∈ edits, e.InRange ∧ TakenIn e) (v : Version) {n : ℕ}
    (hn : n ≤ (recordsOf crc edits).length) :
    (∃ k ≤ edits.length, n = (recordsOf crc (edits.take k)).length ∧ ∃ v',
        (edits.take k).foldlM foldEdit v = .ok v' ∧
          replay crc true v ((recordsOf crc edits).take n) = .ok v') ∨
      ((∀ k ≤ edits.length, n ≠ (recordsOf crc (edits.take k)).length) ∧
        ∃ err, replay crc true v ((recordsOf crc edits).take n) = .error err) := by
  induction edits generalizing v n with
  | nil =>
    obtain rfl : n = 0 := Nat.le_zero.1 hn
    exact Or.inl ⟨0, le_rfl, rfl, v, rfl, rfl⟩
  | cons e edits ih =>
    obtain ⟨⟨hrange, hfits, hlevel⟩, hrest⟩ := List.forall_mem_cons.1 h
    have hcons : ∀ es, recordsOf crc (e :: es) = rawRecord crc true e ++ recordsOf crc es :=
      fun es => List.flatMap_cons
    rcases Nat.eq_zero_or_pos n with rfl | hpos
    · exact Or.inl ⟨0, Nat.zero_le _, rfl, v, rfl, rfl⟩
    rw [hcons] at hn ⊢
    rcases lt_or_ge n (rawRecord crc true e).length with hlt | hge
    · -- the cut lies in the first record
      refine Or.inr ⟨fun k hk hcut => ?_, ?_⟩
      · cases k with
        | zero => exact hpos.ne' hcut
        | succ k =>
          rw [List.take_succ_cons, hcons, List.length_append] at hcut
          omega
      · rw [List.take_append_of_le_length hlt.le]
        exact replay_torn hrange true v hpos hlt
    · obtain ⟨m, rfl⟩ := Nat.exists_eq_add_of_le hge
      obtain ⟨v₁, hv₁⟩ := foldEdit_of_levelOk hlevel v
      have hstep : replay crc true v
          ((rawRecord crc true e ++ recordsOf crc edits).take ((rawRecord crc true e).length + m)) =
            replay crc true v₁ ((recordsOf crc edits).take m) := by
        rw [List.take_length_add_append, replay_rawRecord hrange hfits, hv₁]
      rw [hstep]
      rw [List.length_append] at hn
      refine (ih hrest v₁ (Nat.le_of_add_le_add_left hn)).imp ?_ ?_
      · rintro ⟨k, hk, rfl, v', hfold, hrep⟩
        refine ⟨k + 1, Nat.succ_le_succ hk, ?_, v', ?_, hrep⟩
        · rw [List.take_succ_cons, hcons, List.length_append]
        · rw [List.take_succ_cons, List.foldlM_cons, hv₁]
          exact hfold
      · rintro ⟨hcut, herr⟩
        refine ⟨fun k hk hk' => ?_, herr⟩
        cases k with
        | zero => exact hpos.ne' hk'
        | succ k =>
          rw [List.take_succ_cons, hcons, List.length_append, Nat.add_left_cancel_iff] at hk'
          exact hcut k (Nat.le_of_succ_le_succ hk) hk'

theorem manifestFile_take (m : ℕ) :
    (manifestFile crc edits).take (4 + m) = manifestMagic ++ (recordsOf crc edits).take m := by
  rw [manifestFile, show 4 = manifestMagic.length from rfl, List.take_length_add_append]

theorem length_manifestFile (edits : List RawEdit) :
    (manifestFile crc edits).length = 4 + (recordsOf crc edits).length := List.length_append

theorem prefixExact_of_takenIn (h : ∀ e ∈ edits, e.InRange ∧ TakenIn e) :
    PrefixExact crc edits := by
  intro n hn
  simp only [length_manifestFile] at hn ⊢
  rcases lt_or_ge n 4 with hlt | hge
  · -- part of the magic
    have hshort : recover crc ((manifestFile crc edits).take n) = .ok ({}, false) :=
      if_pos ((List.length_take_le n _).trans_lt hlt)
    refine ⟨iff_of_true ⟨_, hshort⟩ (Or.inl hlt), fun v usesCRC hok => ?_⟩
    rw [hshort] at hok
    cases hok
    exact Or.inl ⟨hlt, rfl⟩
  obtain ⟨m, rfl⟩ := Nat.exists_eq_add_of_le hge
  rw [manifestFile_take, recover_magic]
  simp only [Nat.add_left_cancel_iff]
  rcases @replay_take crc edits h {} m (Nat.le_of_add_le_add_left hn) with
    ⟨k, hk, hcut, v', hfold, hrep⟩ | ⟨hcut, err, hrep⟩
  · rw [hrep]
    refine ⟨iff_of_true ⟨_, rfl⟩ (Or.inr ⟨k, hk, hcut⟩), fun v usesCRC hok => ?_⟩
    cases hok
    exact Or.inr ⟨k, hk, hcut, hfold⟩
  · rw [hrep]
    refine ⟨iff_of_false ?_ ?_, fun v usesCRC hok => by cases hok⟩
    · rintro ⟨r, hok⟩
      cases hok
    · rintro (hlt | ⟨k, hk, hcut'⟩)
      · omega
      · exact hcut k hk hcut'

theorem exists_first_not_takenIn (h : ¬ ∀ e ∈ edits, TakenIn e) :
    ∃ good e rest, edits = good ++ e :: rest ∧ (∀ x ∈ good, TakenIn x) ∧
      ¬ TakenIn e := by
  induction edits with
  | nil => simp at h
  | cons x edits ih =>
    by_cases hx : TakenIn x
    · obtain ⟨good, e, rest, rfl, hgood, he⟩ := ih fun hall => h (List.forall_mem_cons.2 ⟨hx, hall⟩)
      exact ⟨x :: good, e, rest, rfl, List.forall_mem_cons.2 ⟨hx, hgood⟩, he⟩
    · exact ⟨[], x, edits, rfl, by simp, hx⟩

theorem replay_of_not_takenIn {e : RawEdit} (hrange : e.InRange) (h : ¬ TakenIn e)
    (v : Version) : ∃ err, replay crc true v (rawRecord crc true e) = .error err := by
  rcases lt_or_ge (encodeRawEdit e).length (2 ^ 32) with hfits | hwide
  · have hrep := @replay_rawRecord crc e hrange hfits true v []
    rw [List.append_nil, foldEdit_of_not_levelOk fun hlevel => h ⟨hfits, hlevel⟩] at hrep
    exact ⟨_, hrep⟩
  · have hrep := @replay_wide crc e hrange hwide true v []
    rwa [List.append_nil] at hrep

theorem not_prefixExact (h : ∀ e ∈ edits, e.InRange) (hbad : ¬ ∀ e ∈ edits, TakenIn e) :
    ¬ PrefixExact crc edits := by
  intro hexact
  obtain ⟨good, e, rest, rfl, hgood, he⟩ := exists_first_not_takenIn hbad
  -- cut the file after the first edit that cannot be taken in
  have htake : ((good ++ e :: rest).take (good.length + 1)) = good ++ [e] := by
    rw [List.take_length_add_append]
    rfl
  have hfile : manifestFile crc (good ++ e :: rest) =
      manifestFile crc (good ++ [e]) ++ recordsOf crc rest := by
    simp [manifestFile, recordsOf]
  have hcut : (manifestFile crc (good ++ e :: rest)).take
      (manifestFile crc (good ++ [e])).length = manifestFile crc (good ++ [e]) := by
    rw [hfile, List.take_left]
  obtain ⟨hiff, -⟩ := hexact (manifestFile crc (good ++ [e])).length (by
    rw [hfile, List.length_append]
    exact Nat.le_add_right _ _)
  obtain ⟨r, hr⟩ := hiff.2 (Or.inr ⟨good.length + 1, by simp, by rw [htake]⟩)
  have hrange : ∀ x ∈ good, x.InRange := fun x hx => h x (List.mem_append_left _ hx)
  obtain ⟨v, hv⟩ : ∃ v, replay crc true {} (recordsOf crc good) = .ok v := by
    rcases @replay_take crc good (fun x hx => ⟨hrange x hx, hgood x hx⟩) {}
      (recordsOf crc good).length le_rfl with ⟨_, -, -, v, -, hrep⟩ | ⟨hno, -⟩
    · exact ⟨v, by rwa [List.take_length] at hrep⟩
    · exact absurd (by rw [List.take_length]) (hno good.length le_rfl)
  obtain ⟨err, herr⟩ := @replay_of_not_takenIn crc e (h e (by simp)) he v
  have hlast : recordsOf crc (good ++ [e]) = recordsOf crc good ++ rawRecord crc true e := by
    simp [recordsOf]
  rw [hcut, manifestFile, recover_magic, hlast, replay_append hv, herr] at hr
  cases hr

/-- **Which manifest files have exact prefixes**: exactly those whose records fit their length field
and list tables at levels that exist. -/
theorem prefix_exact_iff {edits : List RawEdit} (h : ∀ e ∈ edits, e.InRange) :
    PrefixExact crc edits ↔ ∀ e ∈ edits, (encodeRawEdit e).length < 2 ^ 32 ∧ LevelOk e := by
  constructor
  · intro hexact
    by_contra hbad
    exact not_prefixExact h hbad hexact
  · exact fun hall => prefixExact_of_takenIn fun e he => ⟨h e he, hall e he⟩

theorem wideEdit_raw_inRange {n : ℕ} (h : n < 2 ^ 32) :
    ∀ e ∈ [(wideEdit n).raw], e.InRange := by
  intro e he
  obtain rfl := List.mem_singleton.1 he
  exact (wideEdit_inRange h).raw

theorem prefix_exact_small : PrefixExact Crc32.checksumIEEE [(wideEdit 1).raw] :=
  (prefix_exact_iff (wideEdit_raw_inRange (by omega))).2 (by
    intro e he
    obtain rfl := List.mem_singleton.1 he
    exact ⟨by decide, fun _ => by decide⟩)

/-- **A whole file that is not accepted**: the length of an edit with keys of `2 ^ 31` bytes does
not fit its field. -/
theorem wideEdit_prefix_rejected : ¬ PrefixExact Crc32.checksumIEEE [(wideEdit (2 ^ 31)).raw] := by
  refine not_prefixExact (wideEdit_raw_inRange (by omega)) fun hall => ?_
  have hfits := (hall _ (List.mem_singleton_self _)).1
  rw [length_encodeRawEdit] at hfits
  simp only [VersionEdit.raw, wideEdit, List.length_replicate] at hfits
  omega

theorem applyAll_manifestFile {es : List VersionEdit} {m : Manifest}
    (hes : ∀ e ∈ es, e.InRange ∧ e.OwnMarks) (hrun : newManifest.applyAll crc es = some m) :
    m.file = manifestFile crc (es.map VersionEdit.raw) ∧
      (es.map VersionEdit.raw).foldlM foldEdit {} = .ok m.current := by
  constructor
  · rw [applyAll_file (fun _ => rfl) hrun, manifestFile, recordsOf, List.flatMap_map]
    congr 1
    exact List.flatMap_congr fun e he => record_eq (hes e he).1 true
  · rw [applyAll_current (fun _ => rfl) (fun e he => (hes e he).2) hrun]
    change _ = Except.ok (followedBy {} es)
    generalize ({} : Version) = v
    clear hrun
    induction es generalizing v with
    | nil => rfl
    | cons e es ih =>
      obtain ⟨⟨hrange, -⟩, hes'⟩ := List.forall_mem_cons.1 hes
      rw [List.map_cons, List.foldlM_cons, foldEdit_raw hrange]
      exact ih hes' _

/-! ## Any bytes -/

/-- The edits that recovery decodes from the records, up to the first one that it rejects. -/
def editsIn (crc : Bytes → UInt32) (usesCRC : Bool) : ℕ → Bytes → List RawEdit
  | 0, _ => []
  | fuel + 1, rest =>
    match readRecord crc usesCRC rest with
    | .ok (some (body, rest')) =>
      match decodeVersionEdit body with
      | some e => e :: editsIn crc usesCRC fuel rest'
      | none => []
    | _ => []

def editsOf (crc : Bytes → UInt32) (file : Bytes) : List RawEdit :=
  if file.length < 4 then []
  else if file.take 4 = manifestMagic then editsIn crc true (file.length + 1) (file.drop 4)
  else editsIn crc false (file.length + 1) file

theorem readRecord_ne_outOfRange (usesCRC : Bool) (rest : Bytes) :
    readRecord crc usesCRC rest ≠ .error .indexOutOfRange := by
  intro h
  unfold readRecord readBody at h
  simp only at h
  split_ifs at h <;> simp at h
  split_ifs at h
  cases h

theorem recoverLoop_outOfRange_iff {usesCRC : Bool} {fuel : ℕ} {v : Version} {rest : Bytes} :
    recoverLoop crc usesCRC fuel v rest = .error .indexOutOfRange ↔
      ∃ e ∈ editsIn crc usesCRC fuel rest, ¬ LevelOk e := by
  induction fuel generalizing v rest with
  | zero => simp [recoverLoop, editsIn]
  | succ fuel ih =>
    rw [recoverLoop, editsIn]
    rcases hread : readRecord crc usesCRC rest with err | _ | ⟨body, rest'⟩
    · have hne := @readRecord_ne_outOfRange crc usesCRC rest
      rw [hread] at hne
      simpa using hne
    · simp
    · simp only
      rcases decodeVersionEdit body with _ | e
      · simp
      · simp only
        by_cases he : LevelOk e
        · obtain ⟨v', hv'⟩ := foldEdit_of_levelOk he v
          rw [hv']
          simp only
          rw [ih, List.exists_mem_cons_iff]
          simp [he]
        · rw [foldEdit_of_not_levelOk he]
          simp [he]

/-- **When recovery panics**: exactly when it decodes an edit that adds or removes a table at a
level that does not exist.  On all other bytes it returns a version or an error, after fewer rounds
than there are bytes. -/
theorem recover_out_of_range_iff (crc : Bytes → UInt32) (file : Bytes) :
    (recover crc file = .error .indexOutOfRange ↔ ∃ e ∈ editsOf crc file, ¬ LevelOk e) ∧
      ∀ usesCRC v rest fuel, rest.length < fuel →
        recoverLoop crc usesCRC fuel v rest = recoverLoop crc usesCRC (rest.length + 1) v rest := by
  refine ⟨?_, fun usesCRC v rest fuel h => recoverLoop_fuel h (Nat.lt_succ_self _)⟩
  have hmap : ∀ (r : Except RecoverError Version) (b : Bool),
      (r.map fun v => (v, b)) = .error .indexOutOfRange ↔ r = .error .indexOutOfRange := by
    intro r b
    cases r <;> simp [Except.map]
  unfold recover editsOf
  split_ifs
  · simp
  · rw [hmap, recoverLoop_outOfRange_iff]
  · rw [hmap, recoverLoop_outOfRange_iff]

/-- **A file that makes recovery panic**: one record of the old format that adds a table at level
7. -/
theorem recover_level_seven :
    recover Crc32.checksumIEEE (encode 4 45 ++ [1, 7, 0, 0, 0] ++ List.replicate 40 0) =
      .error .indexOutOfRange := rfl

end LsmTree.Disk
