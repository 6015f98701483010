import LsmTree.Manifest.File

/-!
# The manifest in memory and on disk

What `Recover` reads from a manifest file, record by record: an appended record is folded into the
version that the file held before (`recover_append`, `replay_rawRecord`), unless it is cut short or
its length does not fit the length field; then `Recover` fails (`replay_bad`).

So after any successful `Apply` calls the file stands for the version in memory exactly when all
records fit their length field (`disk_agrees_iff`).  After a failed `Apply` it does so exactly when
nothing of the record reached the file, or all of it did and the edit changes nothing
(`failed_apply_traceless_iff`).
-/

namespace LsmTree.Disk

open LittleEndian BufferedWriter

section

variable {crc : Bytes → UInt32}

variable {body file rest rest' : Bytes} {usesCRC : Bool} {v : Version} {e : VersionEdit}
  {m : Manifest}

/-! ## Reading records -/

theorem readBody_append {length : ℕ} (h : readBody length rest = .ok (body, rest')) (more : Bytes) :
    readBody length (rest ++ more) = .ok (body, rest' ++ more) := by
  unfold readBody at h ⊢
  split_ifs at h with hlen
  simp only [Except.ok.injEq, Prod.mk.injEq] at h
  rw [if_pos (by rw [List.length_append]; omega), List.take_append_of_le_length hlen,
    List.drop_append_of_le_length hlen, h.1, h.2]

theorem four_le_headerLen (usesCRC : Bool) : 4 ≤ headerLen usesCRC := by
  cases usesCRC <;> decide

theorem readRecord_append (h : readRecord crc usesCRC rest = .ok (some (body, rest')))
    (more : Bytes) :
    readRecord crc usesCRC (rest ++ more) = .ok (some (body, rest' ++ more)) ∧
      rest'.length < rest.length := by
  have h4 := four_le_headerLen usesCRC
  unfold readRecord at h ⊢
  by_cases hnil : rest = []
  · rw [if_pos hnil] at h
    cases h
  by_cases hlen : rest.length < headerLen usesCRC
  · rw [if_neg hnil, if_pos hlen] at h
    cases h
  rw [if_neg hnil, if_neg hlen] at h
  rw [if_neg (by simp [hnil]), if_neg (by rw [List.length_append]; omega)]
  simp only at h ⊢
  rw [List.drop_append_of_le_length (by omega), List.drop_append_of_le_length (by omega),
    List.take_append_of_le_length (by rw [List.length_drop]; omega),
    List.take_append_of_le_length (by omega)]
  rcases hbody : readBody (decode ((rest.drop (headerLen usesCRC - 4)).take 4))
      (rest.drop (headerLen usesCRC)) with err | ⟨b, r⟩
  · rw [hbody] at h
    cases h
  · rw [hbody] at h
    rw [readBody_append hbody]
    simp only at h ⊢
    split_ifs at h with hcrc
    simp only [Except.ok.injEq, Option.some.injEq, Prod.mk.injEq] at h
    obtain ⟨rfl, rfl⟩ := h
    refine ⟨by rw [if_neg hcrc], ?_⟩
    unfold readBody at hbody
    split_ifs at hbody
    simp only [Except.ok.injEq, Prod.mk.injEq] at hbody
    rw [← hbody.2, List.length_drop, List.length_drop]
    omega

theorem readRecord_eq_none (h : readRecord crc usesCRC rest = .ok none) : rest = [] := by
  unfold readRecord at h
  split_ifs at h with hnil hlen
  · exact hnil
  · simp only at h
    split at h
    · cases h
    · split_ifs at h
      cases h

/-- Reading all records from `rest` on. -/
def replay (crc : Bytes → UInt32) (usesCRC : Bool) (v : Version) (rest : Bytes) :
    Except RecoverError Version := recoverLoop crc usesCRC (rest.length + 1) v rest

theorem recoverLoop_fuel {fuel fuel' : ℕ} (h : rest.length < fuel) (h' : rest.length < fuel') :
    recoverLoop crc usesCRC fuel v rest = recoverLoop crc usesCRC fuel' v rest := by
  induction fuel generalizing fuel' v rest with
  | zero => omega
  | succ fuel ih =>
    obtain ⟨fuel', rfl⟩ : ∃ n, fuel' = n + 1 := ⟨fuel' - 1, by omega⟩
    rw [recoverLoop, recoverLoop]
    rcases hread : readRecord crc usesCRC rest with err | _ | ⟨body, rest'⟩
    · rfl
    · rfl
    · have hlt := (readRecord_append hread []).2
      simp only
      split
      · rfl
      · split
        · rfl
        · exact ih (by omega) (by omega)

@[simp] theorem replay_nil (usesCRC : Bool) (v : Version) : replay crc usesCRC v [] = .ok v := rfl

theorem replay_cons (h : readRecord crc usesCRC rest = .ok (some (body, rest'))) :
    replay crc usesCRC v rest =
      match decodeVersionEdit body with
      | none => .error .corruptManifest
      | some e =>
        match foldEdit v e with
        | .error e => .error e
        | .ok v => replay crc usesCRC v rest' := by
  have hlt := (readRecord_append h []).2
  rw [replay, recoverLoop, h]
  simp only
  rcases decodeVersionEdit body with _ | e
  · rfl
  · simp only
    rcases foldEdit v e with err | v'
    · rfl
    · exact recoverLoop_fuel (by omega) (by omega)

/-- **Records that are appended are folded into what was there.** -/
theorem replay_append {v' : Version} {a : Bytes} (h : replay crc usesCRC v a = .ok v') (b : Bytes) :
    replay crc usesCRC v (a ++ b) = replay crc usesCRC v' b := by
  induction hn : a.length using Nat.strong_induction_on generalizing a v with
  | _ n ih =>
    rcases hread : readRecord crc usesCRC a with err | _ | ⟨body, rest⟩
    · rw [replay, recoverLoop, hread] at h
      cases h
    · obtain rfl := readRecord_eq_none hread
      rw [replay_nil] at h
      cases h
      rfl
    · obtain ⟨happ, hlt⟩ := readRecord_append hread b
      rw [replay_cons hread] at h
      rw [replay_cons happ]
      rcases hdec : decodeVersionEdit body with _ | e
      · rw [hdec] at h
        cases h
      · rw [hdec] at h
        simp only at h ⊢
        rcases hfold : foldEdit v e with err | v₁
        · rw [hfold] at h
          cases h
        · rw [hfold] at h
          exact ih rest.length (by omega) h rfl

theorem recover_append (h : recover crc file = .ok (v, usesCRC)) (hlen : 4 ≤ file.length)
    (b : Bytes) : recover crc (file ++ b) = (replay crc usesCRC v b).map fun v => (v, usesCRC) := by
  unfold recover at h ⊢
  rw [if_neg (by omega)] at h
  rw [if_neg (by rw [List.length_append]; omega), List.take_append_of_le_length hlen,
    List.drop_append_of_le_length hlen]
  split_ifs at h ⊢ with hmagic
  · rcases hloop : recoverLoop crc true (file.length + 1) {} (file.drop 4) with err | v'
    · rw [hloop] at h
      cases h
    · rw [hloop] at h
      simp only [Except.map, Except.ok.injEq, Prod.mk.injEq] at h
      obtain ⟨rfl, rfl⟩ := h
      have hrep : replay crc true {} (file.drop 4) = .ok v' := by
        rw [replay, ← hloop]
        exact recoverLoop_fuel (by omega) (by rw [List.length_drop]; omega)
      rw [← replay_append hrep, replay]
      congr 1
      exact recoverLoop_fuel (by simp only [List.length_append, List.length_drop]; omega) (by omega)
  · rcases hloop : recoverLoop crc false (file.length + 1) {} file with err | v'
    · rw [hloop] at h
      cases h
    · rw [hloop] at h
      simp only [Except.map, Except.ok.injEq, Prod.mk.injEq] at h
      obtain ⟨rfl, rfl⟩ := h
      rw [← replay_append hloop, replay]

/-! ## The record of an edit -/

def record (crc : Bytes → UInt32) (usesCRC : Bool) (e : VersionEdit) : Bytes :=
  recordHeader crc usesCRC (encodeVersionEdit e) ++ encodeVersionEdit e

theorem length_recordHeader (usesCRC : Bool) (data : Bytes) :
    (recordHeader crc usesCRC data).length = headerLen usesCRC := by
  cases usesCRC <;> simp [recordHeader, headerLen]

theorem readRecord_header (usesCRC : Bool) (data rest : Bytes) :
    readRecord crc usesCRC (recordHeader crc usesCRC data ++ rest) =
      match readBody (data.length % 2 ^ 32) rest with
      | .error e => .error e
      | .ok (body, rest') =>
        if usesCRC ∧ crc body ≠ crc data then .error .crcMismatch
        else .ok (some (body, rest')) := by
  have h4 := four_le_headerLen usesCRC
  have hlen := @length_recordHeader crc usesCRC data
  have hne : recordHeader crc usesCRC data ++ rest ≠ [] := by
    apply List.ne_nil_of_length_pos
    rw [List.length_append, hlen]
    omega
  have hfield : decode
    (((recordHeader crc usesCRC data ++ rest).drop (headerLen usesCRC - 4)).take 4) =
      data.length % 2 ^ 32 := by
    cases usesCRC with
    | true =>
      change decode ((List.drop 4 (encode 4 _ ++ encode 4 _ ++ rest)).take 4) = _
      rw [List.append_assoc, List.drop_left' (length_encode 4 _)]
      exact decode_take_append 4 _ _
    | false => exact decode_take_append 4 _ _
  have hcrc : usesCRC = true →
      decode ((recordHeader crc usesCRC data ++ rest).take 4) = (crc data).toNat := by
    rintro rfl
    change decode (List.take 4 (encode 4 _ ++ encode 4 _ ++ rest)) = _
    rw [List.append_assoc, decode_take_append]
    exact Nat.mod_eq_of_lt (crc data).toNat_lt
  rw [readRecord, if_neg hne, if_neg (by rw [List.length_append, hlen]; omega)]
  simp only [hfield, List.drop_left' hlen]
  rcases readBody (data.length % 2 ^ 32) rest with err | ⟨body, rest'⟩
  · rfl
  · simp only
    congr 1
    rw [eq_iff_iff]
    refine and_congr_right fun h => ?_
    rw [hcrc h, Ne, UInt32.toNat_inj]

/-- The bytes written for an edit of any type and level. -/
def rawRecord (crc : Bytes → UInt32) (usesCRC : Bool) (e : RawEdit) : Bytes :=
  recordHeader crc usesCRC (encodeRawEdit e) ++ encodeRawEdit e

theorem record_eq (h : e.InRange) (usesCRC : Bool) :
    record crc usesCRC e = rawRecord crc usesCRC e.raw := by
  rw [record, rawRecord, encodeVersionEdit_raw (h.level.trans (by decide))]

theorem length_rawRecord (usesCRC : Bool) (e : RawEdit) :
    (rawRecord crc usesCRC e).length = headerLen usesCRC + (encodeRawEdit e).length := by
  rw [rawRecord, List.length_append, length_recordHeader]

theorem foldEdit_raw (h : e.InRange) (v : Version) :
    foldEdit v e.raw = .ok (v.recoverEdit e.persisted) := by
  have hlevel := h.level
  unfold foldEdit VersionEdit.raw
  rw [EditType.ofCode_code]
  simp only
  rw [if_neg]
  · rfl
  · rintro ⟨-, hno⟩
    apply hno
    constructor
    · exact Int.natCast_nonneg _
    · exact_mod_cast hlevel

/-- **A record that fits is folded into the version.** -/
theorem replay_rawRecord {e : RawEdit} (h : e.InRange) (hfits : (encodeRawEdit e).length < 2 ^ 32)
    (usesCRC : Bool) (v : Version) (rest : Bytes) :
    replay crc usesCRC v (rawRecord crc usesCRC e ++ rest) =
      match foldEdit v e with
      | .error e => .error e
      | .ok v => replay crc usesCRC v rest := by
  have hread : readRecord crc usesCRC (rawRecord crc usesCRC e ++ rest) =
      .ok (some (encodeRawEdit e, rest)) := by
    rw [rawRecord, List.append_assoc, readRecord_header, Nat.mod_eq_of_lt hfits, readBody,
      if_pos (by rw [List.length_append]; omega), List.take_left, List.drop_left]
    simp
  rw [replay_cons hread, decodeVersionEdit_encodeRaw h]

/-- **A record that is cut short or does not fit makes recovery fail.** -/
theorem replay_bad {e : RawEdit} (h : e.InRange) (usesCRC : Bool) (v : Version) {body : Bytes}
    (hbody : ∀ n ≤ body.length, n ≤ (encodeRawEdit e).length →
      body.take n = (encodeRawEdit e).take n)
    (hbad : body.length < (encodeRawEdit e).length ∨ 2 ^ 32 ≤ (encodeRawEdit e).length) :
    ∃ err, replay crc usesCRC v (recordHeader crc usesCRC (encodeRawEdit e) ++ body) =
      .error err := by
  have hlen := length_encodeRawEdit e
  have hread := @readRecord_header crc usesCRC (encodeRawEdit e) body
  by_cases hshort : (encodeRawEdit e).length % 2 ^ 32 ≤ body.length
  · -- the length field has wrapped around, and the body that is read lacks fields
    have hmod := Nat.mod_le (encodeRawEdit e).length (2 ^ 32)
    have htake := hbody _ hshort hmod
    rw [readBody, if_pos hshort, htake] at hread
    simp only at hread
    by_cases hcrc : usesCRC ∧
        crc ((encodeRawEdit e).take ((encodeRawEdit e).length % 2 ^ 32)) ≠ crc (encodeRawEdit e)
    · rw [if_pos hcrc] at hread
      exact ⟨.crcMismatch, by rw [replay, recoverLoop, hread]⟩
    · rw [if_neg hcrc] at hread
      refine ⟨.corruptManifest, ?_⟩
      rw [replay_cons hread, decodeVersionEdit_takeRaw h]
      omega
  · rw [readBody, if_neg hshort] at hread
    exact ⟨_, by rw [replay, recoverLoop, hread]⟩

theorem replay_wide {e : RawEdit} (h : e.InRange) (hwide : 2 ^ 32 ≤ (encodeRawEdit e).length)
    (usesCRC : Bool) (v : Version) (rest : Bytes) :
    ∃ err, replay crc usesCRC v (rawRecord crc usesCRC e ++ rest) = .error err := by
  obtain ⟨err, herr⟩ := @replay_bad crc e h usesCRC v (encodeRawEdit e ++ rest)
    (fun n _ hn => List.take_append_of_le_length hn) (Or.inr hwide)
  exact ⟨err, by rw [rawRecord, List.append_assoc, herr]⟩

theorem replay_torn {e : RawEdit} (h : e.InRange) (usesCRC : Bool) (v : Version) {k : ℕ}
    (hpos : 0 < k) (hk : k < (rawRecord crc usesCRC e).length) :
    ∃ err, replay crc usesCRC v ((rawRecord crc usesCRC e).take k) = .error err := by
  have hcut : ((rawRecord crc usesCRC e).take k).length = k := List.length_take_of_le hk.le
  rw [length_rawRecord] at hk
  have hhead := @length_recordHeader crc usesCRC (encodeRawEdit e)
  rcases lt_or_ge k (headerLen usesCRC) with hlt | hge
  · refine ⟨.truncatedHeader, ?_⟩
    rw [replay, recoverLoop, readRecord, if_neg (List.ne_nil_of_length_pos (by omega)),
      if_pos (by omega)]
  · obtain ⟨err, herr⟩ := @replay_bad crc e h usesCRC v
      ((encodeRawEdit e).take (k - headerLen usesCRC))
      (fun n hn _ => by
        rw [List.take_take, min_eq_left]
        rw [List.length_take] at hn
        omega)
      (Or.inl (by rw [List.length_take]; omega))
    refine ⟨err, ?_⟩
    rw [rawRecord, List.take_append, hhead, List.take_of_length_le (by omega), herr]

/-! ## Writing records -/

theorem length_record (usesCRC : Bool) (e : VersionEdit) :
    (record crc usesCRC e).length = headerLen usesCRC + (encodeVersionEdit e).length := by
  rw [record, List.length_append, length_recordHeader]

theorem writeEdit_cases {m : Manifest} (hfailed : m.writer.failed = false)
    (hbuf : m.writer.buf = [])
    (e : VersionEdit) (fault : Fault) :
    ((record crc m.usesCRC e).length ≤ fault.room (record crc m.usesCRC e).length ∧
      m.writeEdit crc e fault =
        ({ m with writer := ⟨m.file ++ record crc m.usesCRC e, [], false⟩ },
          decide (fault ≠ .sync))) ∨
    (fault.room (record crc m.usesCRC e).length < (record crc m.usesCRC e).length ∧
      ∃ w : Writer UInt8, m.writeEdit crc e fault = ({ m with writer := w }, false) ∧
        w.failed = true ∧ w.sink = m.file ++
          (record crc m.usesCRC e).take (fault.room (record crc m.usesCRC e).length)) := by
  have hlen : (recordHeader crc m.usesCRC (encodeVersionEdit e)).length +
      (encodeVersionEdit e).length = (record crc m.usesCRC e).length := by
    rw [length_record, length_recordHeader]
  have hw : m.writer = ⟨m.file, [], false⟩ := by
    rw [← hfailed, ← hbuf]
    rfl
  unfold Manifest.writeEdit
  simp only [hlen]
  generalize fault.room (record crc m.usesCRC e).length = k
  have hstart := Wrote.start m.file k
  rw [← hw] at hstart
  have h1 : Wrote m.file (recordHeader crc m.usesCRC (encodeVersionEdit e)) k
      (write bufferSize k m.writer (recordHeader crc m.usesCRC (encodeVersionEdit e))) :=
    hstart.write _
  generalize write bufferSize k m.writer (recordHeader crc m.usesCRC (encodeVersionEdit e)) =
    r₁ at h1 ⊢
  have hfail : ∀ {r : Writer UInt8 × ℕ}, Wrote m.file (record crc m.usesCRC e) k r →
      r.1.failed = true → k < (record crc m.usesCRC e).length ∧
        ∃ w : Writer UInt8, (({ m with writer := r.1 } : Manifest), false) =
            (({ m with writer := w } : Manifest), false) ∧ w.failed = true ∧
          w.sink = m.file ++ (record crc m.usesCRC e).take k := by
    intro r hr hrf
    rcases hr.done (by rw [hrf]; intro h; cases h) with ⟨-, hgood⟩ | ⟨hk, hsink, -⟩
    · rw [hgood] at hrf
      cases hrf
    · exact ⟨hk, r.1, rfl, hrf, hsink⟩
  by_cases hf1 : r₁.1.failed = true
  · rw [if_pos hf1]
    exact Or.inr (hfail (h1.more hf1 _) hf1)
  rw [if_neg hf1]
  have h2 : Wrote m.file (record crc m.usesCRC e) k
      (write bufferSize r₁.2 r₁.1 (encodeVersionEdit e)) := h1.write _
  generalize write bufferSize r₁.2 r₁.1 (encodeVersionEdit e) = r₂ at h2 ⊢
  by_cases hf2 : r₂.1.failed = true
  · rw [if_pos hf2]
    exact Or.inr (hfail h2 hf2)
  rw [if_neg hf2]
  obtain ⟨h3, hbuf3⟩ := h2.flush
  generalize flush r₂.2 r₂.1 = r₃ at h3 hbuf3 ⊢
  rcases h3.done hbuf3 with ⟨hk, hgood⟩ | ⟨hk, hsink, hf3⟩
  · left
    refine ⟨hk, ?_⟩
    rw [hgood]
    rfl
  · right
    refine ⟨hk, r₃.1, ?_, hf3, hsink⟩
    rw [hf3]
    rfl

theorem writeEdit_of_failed (hfailed : m.writer.failed = true) (e : VersionEdit) (fault : Fault) :
    m.writeEdit crc e fault = (m, false) := by
  unfold Manifest.writeEdit
  simp only [write_of_failed hfailed]
  rw [if_pos hfailed]

/-! ## Memory and disk -/

/-- The file stands for the version in memory, and the writer is idle or has failed. -/
structure InSync (crc : Bytes → UInt32) (m : Manifest) : Prop where
  recovers : recover crc m.file = .ok (m.current, m.usesCRC)
  length : 4 ≤ m.file.length
  idle : m.writer.failed = false → m.writer.buf = []

theorem InSync.of_openRecovered (hopen : openRecovered crc file = .ok m)
    (hfile : file = [] ∨ 4 ≤ file.length) : InSync crc m ∧ m.writer.failed = false := by
  unfold openRecovered at hopen
  rcases hrec : recover crc (openManifest file).file with err | ⟨v, usesCRC⟩
  · rw [hrec] at hopen
    cases hopen
  rw [hrec] at hopen
  simp only [Except.map, Except.ok.injEq] at hopen
  subst hopen
  have hidle : (openManifest file).writer.failed = false ∧ (openManifest file).writer.buf = [] := by
    unfold openManifest
    split_ifs <;> exact ⟨rfl, rfl⟩
  have hlen : 4 ≤ (openManifest file).file.length := by
    unfold openManifest
    split_ifs with hnil
    · decide
    · exact hfile.resolve_left hnil
  exact ⟨⟨hrec, hlen, fun _ => hidle.2⟩, hidle.1⟩

theorem recover_record (h : recover crc file = .ok (v, usesCRC)) (hlen : 4 ≤ file.length)
    (he : e.InRange) (hfits : (encodeVersionEdit e).length < 2 ^ 32) :
    recover crc (file ++ record crc usesCRC e) = .ok (v.recoverEdit e.persisted, usesCRC) := by
  rw [encodeVersionEdit_raw (he.level.trans (by decide))] at hfits
  have hrep := @replay_rawRecord crc e.raw he.raw hfits usesCRC v []
  rw [List.append_nil, foldEdit_raw he] at hrep
  rw [recover_append h hlen, record_eq he, hrep]
  rfl

theorem InSync.recover_wide (h : InSync crc m) (he : e.InRange)
    (hwide : 2 ^ 32 ≤ (encodeVersionEdit e).length) (rest : Bytes) :
    ∃ err, recover crc (m.file ++ (record crc m.usesCRC e ++ rest)) = .error err := by
  rw [encodeVersionEdit_raw (he.level.trans (by decide))] at hwide
  obtain ⟨err, herr⟩ := @replay_wide crc e.raw he.raw hwide m.usesCRC m.current rest
  exact ⟨err, by rw [recover_append h.recovers h.length, record_eq he, herr]; rfl⟩

theorem InSync.recover_torn (h : InSync crc m) (he : e.InRange) {k : ℕ} (hpos : 0 < k)
    (hk : k < (record crc m.usesCRC e).length) :
    ∃ err, recover crc (m.file ++ (record crc m.usesCRC e).take k) = .error err := by
  rw [record_eq he] at hk ⊢
  obtain ⟨err, herr⟩ := @replay_torn crc e.raw he.raw m.usesCRC m.current k hpos hk
  exact ⟨err, by rw [recover_append h.recovers h.length, herr]; rfl⟩

theorem apply_accepted (hrej : m.current.rejects e = false) (hfailed : m.writer.failed = false)
    (hbuf : m.writer.buf = []) :
    m.apply crc e .none =
      ({ m with
        writer := ⟨m.file ++ record crc m.usesCRC e, [], false⟩
        current := m.current.applyEdit e }, true) := by
  rcases @writeEdit_cases crc m hfailed hbuf e .none with ⟨-, hw⟩ | ⟨hlt, -⟩
  · rw [Manifest.apply, if_neg (by rw [hrej]; exact Bool.false_ne_true), hw]
    rfl
  · exact absurd hlt (lt_irrefl _)

theorem apply_none {m : Manifest} (hidle : m.writer.failed = false → m.writer.buf = [])
    (e : VersionEdit) :
    m.apply crc e .none = (m, false) ∨
      (m.writer.failed = false ∧ m.apply crc e .none =
        ({ m with
          writer := ⟨m.file ++ record crc m.usesCRC e, [], false⟩
          current := m.current.applyEdit e }, true)) := by
  by_cases hrej : m.current.rejects e = true
  · exact Or.inl (by rw [Manifest.apply, if_pos hrej])
  rcases hfailed : m.writer.failed with _ | _
  · exact Or.inr ⟨rfl, apply_accepted (by simpa using hrej) hfailed (hidle hfailed)⟩
  · left
    rw [Manifest.apply, if_neg hrej, writeEdit_of_failed hfailed]
    rfl

/-- An edit as the callers build it, whose record fits its length field. -/
structure Plain (e : VersionEdit) : Prop where
  inRange : e.InRange
  ownMarks : e.OwnMarks
  fits : (encodeVersionEdit e).length < 2 ^ 32

/-- **A plain edit keeps memory and disk in sync.** -/
theorem InSync.apply (h : InSync crc m) (he : Plain e) : InSync crc (m.apply crc e .none).1 := by
  rcases @apply_none crc m h.idle e with heq | ⟨-, heq⟩
  · rw [heq]
    exact h
  · rw [heq]
    refine ⟨?_, ?_, fun _ => rfl⟩
    · change recover crc (m.file ++ record crc m.usesCRC e) = _
      rw [recover_record h.recovers h.length he.inRange he.fits, he.ownMarks.recoverEdit]
    · change 4 ≤ (m.file ++ record crc m.usesCRC e).length
      rw [List.length_append]
      exact h.length.trans (Nat.le_add_right _ _)

end

/-! ## Successful calls -/

section

variable (crc : Bytes → UInt32)

variable {m m' : Manifest} {es : List VersionEdit} {e : VersionEdit}

def Manifest.applyAll (m : Manifest) : List VersionEdit → Option Manifest
  | [] => some m
  | e :: es =>
    let r := m.apply crc e .none
    if r.2 then applyAll r.1 es else none

variable {crc}

theorem applyAll_file (hidle : m.writer.failed = false → m.writer.buf = [])
    (hrun : m.applyAll crc es = some m') :
    m'.file = m.file ++ es.flatMap (record crc m.usesCRC) := by
  induction es generalizing m with
  | nil =>
    cases hrun
    exact (List.append_nil _).symm
  | cons e es ih =>
    rw [Manifest.applyAll] at hrun
    rcases @apply_none crc m hidle e with heq | ⟨-, heq⟩
    · rw [heq] at hrun
      cases hrun
    · rw [heq] at hrun
      rw [ih (fun _ => rfl) hrun, List.flatMap_cons, ← List.append_assoc]
      rfl

theorem InSync.agrees_iff (h : InSync crc m) (hes : ∀ e ∈ es, e.InRange ∧ e.OwnMarks)
    (hrun : m.applyAll crc es = some m') :
    recover crc m'.file = .ok (m'.current, m'.usesCRC) ↔
      ∀ e ∈ es, (encodeVersionEdit e).length < 2 ^ 32 := by
  induction es generalizing m with
  | nil =>
    cases hrun
    simpa using h.recovers
  | cons e es ih =>
    obtain ⟨⟨hrange, hown⟩, hes'⟩ := List.forall_mem_cons.1 hes
    rw [Manifest.applyAll] at hrun
    rcases @apply_none crc m h.idle e with heq | ⟨-, heq⟩
    · rw [heq] at hrun
      cases hrun
    have hnext := fun hfits => h.apply (e := e) ⟨hrange, hown, hfits⟩
    rw [heq] at hrun hnext
    rw [List.forall_mem_cons]
    by_cases hfits : (encodeVersionEdit e).length < 2 ^ 32
    · rw [ih (hnext hfits) hes' hrun]
      exact (and_iff_right hfits).symm
    · refine iff_of_false (fun hok => ?_) fun hall => hfits hall.1
      obtain ⟨err, herr⟩ := h.recover_wide hrange (not_lt.1 hfits)
        (es.flatMap (record crc m.usesCRC))
      rw [applyAll_file (fun _ => rfl) hrun] at hok
      change recover crc (m.file ++ record crc m.usesCRC e ++ es.flatMap (record crc m.usesCRC)) =
        _ at hok
      rw [List.append_assoc, herr] at hok
      cases hok

/-- **After successful calls the file stands for the version in memory exactly when every record
fits its length field**, on a new file and on an existing one of either format. -/
theorem disk_agrees_iff {file : Bytes} {m m' : Manifest} {es : List VersionEdit}
    (hopen : openRecovered crc file = .ok m) (hfile : file = [] ∨ 4 ≤ file.length)
    (hes : ∀ e ∈ es, e.InRange ∧ e.OwnMarks) (hrun : m.applyAll crc es = some m') :
    recover crc m'.file = .ok (m'.current, m'.usesCRC) ↔
      ∀ e ∈ es, (encodeVersionEdit e).length < 2 ^ 32 :=
  (InSync.of_openRecovered hopen hfile).1.agrees_iff hes hrun

/-- A table with keys of `n` bytes. -/
def wideEdit (n : ℕ) : VersionEdit :=
  { type := .addSSTable, level := 1, fileID := 1, fileSize := 0, firstKey := List.replicate n 0,
    lastKey := List.replicate n 0 }

def newManifest : Manifest := ⟨⟨manifestMagic, [], false⟩, {}, true⟩

theorem openRecovered_nil (crc : Bytes → UInt32) : openRecovered crc [] = .ok newManifest := rfl

theorem wideEdit_inRange {n : ℕ} (h : n < 2 ^ 32) : (wideEdit n).InRange := by
  constructor
  case firstKey => simpa [wideEdit] using h
  case lastKey => simpa [wideEdit] using h
  all_goals simp [wideEdit, maxLevels]

theorem wideEdit_ownMarks (n : ℕ) : (wideEdit n).OwnMarks :=
  ⟨fun _ => rfl, fun _ => rfl, fun _ => rfl⟩

def wideManifest (crc : Bytes → UInt32) (n : ℕ) : Manifest :=
  ⟨⟨manifestMagic ++ record crc true (wideEdit n), [], false⟩,
    Version.applyEdit {} (wideEdit n), true⟩

theorem applyAll_wideEdit (n : ℕ) :
    newManifest.applyAll crc [wideEdit n] = some (wideManifest crc n) := by
  have hrej : newManifest.current.rejects (wideEdit n) = false := rfl
  rw [Manifest.applyAll, apply_accepted hrej rfl rfl]
  rfl

/-- A small table is recovered. -/
theorem disk_agrees_small :
    recover Crc32.checksumIEEE (wideManifest Crc32.checksumIEEE 1).file =
      .ok ((wideManifest Crc32.checksumIEEE 1).current, true) :=
  (@disk_agrees_iff Crc32.checksumIEEE [] newManifest (wideManifest Crc32.checksumIEEE 1)
    [wideEdit 1] (openRecovered_nil _) (Or.inl rfl)
    (by
      intro e he
      obtain rfl := List.mem_singleton.1 he
      exact ⟨wideEdit_inRange (by omega), wideEdit_ownMarks 1⟩)
    (applyAll_wideEdit 1)).2 (by
      intro e he
      obtain rfl := List.mem_singleton.1 he
      decide)

/-- **A manifest that cannot be read again**: a table with keys of `2 ^ 31` bytes is added without
an error, and `Recover` fails on the file. -/
theorem wideEdit_not_recovered :
    openRecovered Crc32.checksumIEEE [] = .ok newManifest ∧
      newManifest.applyAll Crc32.checksumIEEE [wideEdit (2 ^ 31)] =
        some (wideManifest Crc32.checksumIEEE (2 ^ 31)) ∧
      recover Crc32.checksumIEEE (wideManifest Crc32.checksumIEEE (2 ^ 31)).file ≠
        .ok ((wideManifest Crc32.checksumIEEE (2 ^ 31)).current, true) := by
  refine ⟨openRecovered_nil _, applyAll_wideEdit _, fun hok => ?_⟩
  have hsync := (InSync.of_openRecovered (openRecovered_nil Crc32.checksumIEEE) (Or.inl rfl)).1
  obtain ⟨err, herr⟩ := hsync.recover_wide (wideEdit_inRange (n := 2 ^ 31) (by omega))
    (by rw [length_encodeVersionEdit]; simp only [wideEdit, List.length_replicate]; omega) []
  rw [List.append_nil] at herr
  change recover _ (manifestMagic ++ record _ true _) = _ at hok
  change recover _ (manifestMagic ++ record _ true _) = _ at herr
  rw [herr] at hok
  cases hok

/-! ## Failed calls -/

/-- Further calls, without a fault; what they return is not looked at. -/
def Manifest.applyEach (crc : Bytes → UInt32) (m : Manifest) (es : List VersionEdit) : Manifest :=
  es.foldl (fun m e => (m.apply crc e .none).1) m

theorem InSync.applyEach (h : InSync crc m) (hes : ∀ e ∈ es, Plain e) :
    InSync crc (m.applyEach crc es) := by
  induction es generalizing m with
  | nil => exact h
  | cons e es ih =>
    obtain ⟨he, hes'⟩ := List.forall_mem_cons.1 hes
    exact ih (h.apply he) hes'

/-- A failing `Apply` leaves nothing behind: the edit is rejected, the writer has failed before, no
byte of the record reaches the file, or `Sync` fails on an edit that changes nothing. -/
def Traceless (m : Manifest) (e : VersionEdit) (fault : Fault) : Prop :=
  m.current.rejects e = true ∨ m.writer.failed = true ∨ fault = .device 0 ∨
    (fault = .sync ∧ (encodeVersionEdit e).length < 2 ^ 32 ∧
      m.current.recoverEdit e.persisted = m.current)

/-- Memory is as before, and the file stands for it now and after any further calls. -/
def LeavesNoTrace (crc : Bytes → UInt32) (m m' : Manifest) : Prop :=
  m'.current = m.current ∧ ∀ es : List VersionEdit, (∀ e ∈ es, Plain e) →
    recover crc (m'.applyEach crc es).file =
      .ok ((m'.applyEach crc es).current, (m'.applyEach crc es).usesCRC)

theorem InSync.leavesNoTrace (h : InSync crc m') (hcur : m'.current = m.current) :
    LeavesNoTrace crc m m' :=
  ⟨hcur, fun _ hes => (h.applyEach hes).recovers⟩

theorem InSync.written_noTrace_iff (h : InSync crc m) (he : e.InRange) :
    LeavesNoTrace crc m { m with writer := ⟨m.file ++ record crc m.usesCRC e, [], false⟩ } ↔
      (encodeVersionEdit e).length < 2 ^ 32 ∧ m.current.recoverEdit e.persisted = m.current := by
  constructor
  · rintro ⟨-, htrace⟩
    have hnow := htrace [] (by simp)
    change recover crc (m.file ++ record crc m.usesCRC e) = .ok (m.current, m.usesCRC) at hnow
    rcases lt_or_ge (encodeVersionEdit e).length (2 ^ 32) with hfits | hwide
    · rw [recover_record h.recovers h.length he hfits] at hnow
      simp only [Except.ok.injEq, Prod.mk.injEq, and_true] at hnow
      exact ⟨hfits, hnow⟩
    · obtain ⟨err, herr⟩ := h.recover_wide he hwide []
      rw [List.append_nil, hnow] at herr
      cases herr
  · rintro ⟨hfits, hvoid⟩
    refine InSync.leavesNoTrace ⟨?_, ?_, fun _ => rfl⟩ rfl
    · change recover crc (m.file ++ record crc m.usesCRC e) = _
      rw [recover_record h.recovers h.length he hfits, hvoid]
    · change 4 ≤ (m.file ++ record crc m.usesCRC e).length
      rw [List.length_append]
      exact h.length.trans (Nat.le_add_right _ _)

theorem InSync.torn_noTrace_iff (h : InSync crc m) (he : e.InRange) {w : Writer UInt8} {k : ℕ}
    (hk : k < (record crc m.usesCRC e).length) (hw : w.failed = true)
    (hsink : w.sink = m.file ++ (record crc m.usesCRC e).take k) :
    LeavesNoTrace crc m { m with writer := w } ↔ k = 0 := by
  constructor
  · rintro ⟨-, htrace⟩
    have hnow := htrace [] (by simp)
    change recover crc w.sink = _ at hnow
    by_contra hpos
    obtain ⟨err, herr⟩ := h.recover_torn he (Nat.pos_of_ne_zero hpos) hk
    rw [hsink, herr] at hnow
    cases hnow
  · rintro rfl
    rw [List.take_zero, List.append_nil] at hsink
    refine InSync.leavesNoTrace ⟨?_, ?_, fun hgood => ?_⟩ rfl
    · change recover crc w.sink = _
      rw [hsink]
      exact h.recovers
    · change 4 ≤ w.sink.length
      rw [hsink]
      exact h.length
    · change w.failed = false at hgood
      rw [hw] at hgood
      cases hgood

/-- **When a failed `Apply` leaves no trace**: exactly when nothing of the record reached the file,
or all of it did and the edit changes nothing. -/
theorem failed_apply_traceless_iff {m : Manifest} (h : InSync crc m) {e : VersionEdit}
    (he : e.InRange)
    {fault : Fault} (hfail : (m.apply crc e fault).2 = false) :
    LeavesNoTrace crc m (m.apply crc e fault).1 ↔ Traceless m e fault := by
  unfold Traceless
  by_cases hrej : m.current.rejects e = true
  · have heq : m.apply crc e fault = (m, false) := by rw [Manifest.apply, if_pos hrej]
    rw [heq]
    exact iff_of_true (h.leavesNoTrace rfl) (Or.inl hrej)
  rcases hfailed : m.writer.failed with _ | _
  · have heq : m.apply crc e fault =
        if (m.writeEdit crc e fault).2 then
          ({ (m.writeEdit crc e fault).1 with current := m.current.applyEdit e }, true)
        else ((m.writeEdit crc e fault).1, false) := by rw [Manifest.apply, if_neg hrej]
    rcases @writeEdit_cases crc m hfailed (h.idle hfailed) e fault with
      ⟨-, hw⟩ | ⟨hroom, w, hw, hwf, hsink⟩
    · -- the whole record reached the file, so it was `Sync` that failed
      have hsync : fault = .sync := by
        by_contra hne
        rw [heq, hw, if_pos (decide_eq_true hne)] at hfail
        cases hfail
      subst hsync
      rw [heq, hw, if_neg (by simp), h.written_noTrace_iff he]
      simp [hrej]
    · -- the file took only part of the record
      obtain ⟨k, rfl⟩ : ∃ k, fault = .device k := by
        cases fault with
        | device k => exact ⟨k, rfl⟩
        | none => exact absurd hroom (lt_irrefl _)
        | sync => exact absurd hroom (lt_irrefl _)
      rw [heq, hw, if_neg Bool.false_ne_true, h.torn_noTrace_iff he hroom hwf hsink]
      simp [hrej, Fault.room]
  · have heq : m.apply crc e fault = (m, false) := by
      rw [Manifest.apply, if_neg hrej, writeEdit_of_failed hfailed]
      rfl
    rw [heq]
    exact iff_of_true (h.leavesNoTrace rfl) (Or.inr (Or.inl rfl))

/-- Nothing reaches the file. -/
theorem failed_apply_traceless_small :
    LeavesNoTrace Crc32.checksumIEEE newManifest
      (newManifest.apply Crc32.checksumIEEE (wideEdit 1) (.device 0)).1 :=
  (failed_apply_traceless_iff
    (InSync.of_openRecovered (openRecovered_nil Crc32.checksumIEEE) (Or.inl rfl)).1
    (wideEdit_inRange (by omega)) (by decide +kernel)).2 (Or.inr (Or.inr (Or.inl rfl)))

/-- **A failed call that shows up again**: `Sync` fails on a table added to a new manifest; `Apply`
returns the error and leaves memory alone, and `Recover` finds the table. -/
theorem failed_sync_recovered :
    openRecovered Crc32.checksumIEEE [] = .ok newManifest ∧
      (newManifest.apply Crc32.checksumIEEE (wideEdit 1) .sync).2 = false ∧
      recover Crc32.checksumIEEE
          (newManifest.apply Crc32.checksumIEEE (wideEdit 1) .sync).1.file ≠
        .ok (newManifest.current, true) := by
  refine ⟨openRecovered_nil _, by decide +kernel, fun hok => ?_⟩
  have hnext : ((recover Crc32.checksumIEEE
      (newManifest.apply Crc32.checksumIEEE (wideEdit 1) .sync).1.file).toOption.map
        fun r => r.1.nextFileID) = some 2 := by decide +kernel
  rw [hok] at hnext
  cases hnext

end

end LsmTree.Disk
