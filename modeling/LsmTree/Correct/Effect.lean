import LsmTree.Correct.Merge

/-!
# Effects of the compaction steps

What writing, registering, committing and dropping tables does to the parts of the engine that reads
and recovery look at: the table files, the readers, the version and the records of the manifest.
Everything else stays as it is, which the equations say by naming the fields that change.
-/

namespace LsmTree

variable {edit : VersionEdit} {edits : List VersionEdit} {tc : TableCache}

/-! ### Writing and dropping files -/

theorem foldl_writeTable (outs : List (SSTableMeta × SSTable)) (e : LSMEngine) :
    ∃ ssts, outs.foldl (fun e o => e.exec (.writeTable o.1.fileID o.2)) e =
        { e with dir := { e.dir with ssts := ssts } } ∧
      (∀ j, (∀ o ∈ outs, o.1.fileID ≠ j) → ssts.lookup j = e.dir.ssts.lookup j) ∧
      (outs.Pairwise (fun a b => a.1.fileID < b.1.fileID) →
        ∀ o ∈ outs, ssts.lookup o.1.fileID = some o.2) := by
  induction outs generalizing e with
  | nil => exact ⟨e.dir.ssts, rfl, fun _ _ => rfl, fun _ o ho => by cases ho⟩
  | cons a outs ih =>
    obtain ⟨ssts, h1, h2, h3⟩ := ih (e.exec (.writeTable a.1.fileID a.2))
    refine ⟨ssts, ?_, ?_, ?_⟩
    · rw [List.foldl_cons, h1]
      rfl
    · intro j hj
      rw [h2 j (fun o ho => hj o (List.mem_cons_of_mem a ho))]
      change (e.dir.exec (.writeTable a.1.fileID a.2)).ssts.lookup j = _
      rw [exec_writeTable_ssts, if_neg (Ne.symm (hj a List.mem_cons_self))]
    · intro hids o ho
      obtain ⟨ha, hids⟩ := List.pairwise_cons.1 hids
      rcases List.mem_cons.1 ho with rfl | ho
      · rw [h2 _ (fun x hx => (ha x hx).ne')]
        change (e.dir.exec (.writeTable o.1.fileID o.2)).ssts.lookup o.1.fileID = _
        rw [exec_writeTable_ssts, if_pos rfl]
      · exact h3 hids o ho

theorem foldl_register {outs : List (SSTableMeta × SSTable)} {e : LSMEngine}
    (hfile : ∀ o ∈ outs, e.dir.ssts.lookup o.1.fileID = some o.2)
    (hids : outs.Pairwise (fun a b => a.1.fileID < b.1.fileID))
    (hnew : ∀ o ∈ outs, e.tc.readerOf o.1.fileID = none)
    (hroom : e.tc.entries.length + outs.length ≤ e.tc.cap) :
    ∃ tc, outs.foldl (fun e o => e.register o.1.fileID) e = { e with tc := tc } ∧
      tc.cap = e.tc.cap ∧
      (∀ j, (∀ o ∈ outs, o.1.fileID ≠ j) → tc.readerOf j = e.tc.readerOf j) ∧
      ∀ o ∈ outs, tc.readerOf o.1.fileID = some o.2 := by
  induction outs generalizing e with
  | nil => exact ⟨e.tc, rfl, rfl, fun _ _ => rfl, fun o ho => by cases ho⟩
  | cons a outs ih =>
    obtain ⟨ha, hids⟩ := List.pairwise_cons.1 hids
    rw [List.length_cons] at hroom
    have hreg : e.register a.1.fileID = { e with tc := e.tc.register a.1.fileID a.2 } := by
      unfold LSMEngine.register
      rw [hfile a List.mem_cons_self]
    have hread := TableCache.readerOf_register (t := a.2) (hnew a List.mem_cons_self)
      (show e.tc.entries.length < e.tc.cap by omega)
    have hlen := TableCache.register_length a.2 (hnew a List.mem_cons_self)
      (show e.tc.entries.length < e.tc.cap by omega)
    have hcap := TableCache.register_cap e.tc a.1.fileID a.2
    rw [List.foldl_cons, hreg]
    obtain ⟨tc, h1, h2, h3, h4⟩ := @ih { e with tc := e.tc.register a.1.fileID a.2 }
      (fun o ho => hfile o (List.mem_cons_of_mem a ho)) hids
      (fun o ho => by
        simp only [hread]
        rw [if_neg (ha o ho).ne']
        exact hnew o (List.mem_cons_of_mem a ho))
      (by simp only [hlen, hcap]; omega)
    refine ⟨tc, h1, h2.trans hcap, fun j hj => ?_, fun o ho => ?_⟩
    · rw [h3 j (fun o ho => hj o (List.mem_cons_of_mem a ho)), hread,
        if_neg (Ne.symm (hj a List.mem_cons_self))]
    · rcases List.mem_cons.1 ho with rfl | ho
      · rw [h3 _ (fun x hx => (ha x hx).ne'), hread, if_pos rfl]
      · exact h4 o ho

theorem dropTables_spec (ids : List ℕ) (e : LSMEngine) :
    ∃ ssts tc, e.dropTables ids = { e with dir := { e.dir with ssts := ssts }, tc := tc } ∧
      tc.cap = e.tc.cap ∧
      (∀ j, ssts.lookup j = if j ∈ ids then none else e.dir.ssts.lookup j) ∧
      ∀ j, tc.readerOf j = if j ∈ ids then none else e.tc.readerOf j := by
  induction ids generalizing e with
  | nil => exact ⟨e.dir.ssts, e.tc, rfl, rfl, by simp, by simp⟩
  | cons id ids ih =>
    obtain ⟨ssts, tc, h1, h2, h3, h4⟩ :=
      ih (({ e with tc := e.tc.unregister id } : LSMEngine).exec (.removeTable id))
    refine ⟨ssts, tc, ?_, h2, fun j => ?_, fun j => ?_⟩
    · rw [LSMEngine.dropTables, List.foldl_cons]
      exact h1
    · rw [h3]
      change (if j ∈ ids then none else (e.dir.exec (.removeTable id)).ssts.lookup j) = _
      rw [exec_removeTable_ssts]
      by_cases hj : j = id <;> by_cases hj' : j ∈ ids <;> simp [hj, hj']
    · rw [h4]
      change (if j ∈ ids then none else (e.tc.unregister id).readerOf j) = _
      rw [TableCache.readerOf_unregister]
      by_cases hj : j = id <;> by_cases hj' : j ∈ ids <;> simp [hj, hj']

/-! ### Committing -/

/-- An edit that `Apply` does not reject: it adds nothing to a deeper level, or says so. -/
def VersionEdit.Unchecked (edit : VersionEdit) : Prop :=
  edit.type = .addSSTable → edit.level = 0 ∨ edit.skipOverlapCheck = true

theorem VersionEdit.Unchecked.not_rejected (h : edit.Unchecked) (v : Version) :
    v.rejects edit = false := by
  unfold Version.rejects
  by_cases ht : edit.type = .addSSTable
  · rcases h ht with h0 | h1
    · simp [h0]
    · simp [h1]
  · simp [ht]

theorem apply_ok (h : edit.Unchecked) (e : LSMEngine) :
    e.apply edit .ok = ({ e with
      current := e.current.applyEdit edit
      dir := { e.dir with edits := e.dir.edits ++ [edit.persisted] } }, true) := by
  simp [LSMEngine.apply, Manifest.apply, h.not_rejected]

theorem apply_failed (h : edit.Unchecked) (e : LSMEngine) (left : Remains) :
    e.apply edit (.failed left) = ({ e with
      dir := { e.dir with
        edits := e.dir.edits ++ if left.reached then [edit.persisted] else []
        torn := e.dir.torn || left.torn } }, false) := by
  simp [LSMEngine.apply, Manifest.apply, h.not_rejected]

theorem applyAll_ok (h : ∀ edit ∈ edits, edit.Unchecked) (e : LSMEngine) :
    e.applyAll edits (fun _ => .ok) = ({ e with
      current := edits.foldl Version.applyEdit e.current
      dir := { e.dir with edits := e.dir.edits ++ edits.map VersionEdit.persisted } }, true) := by
  induction edits generalizing e with
  | nil => simp [LSMEngine.applyAll]
  | cons edit edits ih =>
    rw [LSMEngine.applyAll, apply_ok (h edit List.mem_cons_self)]
    simp only
    rw [ih (fun x hx => h x (List.mem_cons_of_mem edit hx))]
    simp

theorem commitEdits_unchecked (p : CompactionPlan) : ∀ edit ∈ p.commitEdits, edit.Unchecked := by
  intro edit hedit
  rcases List.mem_append.1 hedit with h | h
  · obtain ⟨o, -, rfl⟩ := List.mem_map.1 h
    exact fun _ => Or.inr rfl
  · obtain ⟨o, -, rfl⟩ := List.mem_map.1 h
    intro hc
    cases hc

theorem recoverVersion_appendAll (file : List VersionEdit)
    (h : ∀ edit ∈ edits, ∀ v : Version, v.recoverEdit edit.persisted = v.applyEdit edit) :
    recoverVersion (file ++ edits.map VersionEdit.persisted) =
      edits.foldl Version.applyEdit (recoverVersion file) := by
  unfold recoverVersion
  rw [List.foldl_append, List.foldl_map]
  generalize List.foldl Version.recoverEdit {} file = v
  induction edits generalizing v with
  | nil => rfl
  | cons edit edits ih =>
    rw [List.foldl_cons, List.foldl_cons, h edit List.mem_cons_self]
    exact ih (fun x hx => h x (List.mem_cons_of_mem edit hx)) _

theorem commitEdits_replay (p : CompactionPlan) : ∀ edit ∈ p.commitEdits, ∀ v : Version,
    v.recoverEdit edit.persisted = v.applyEdit edit := by
  intro edit hedit v
  rcases List.mem_append.1 hedit with h | h
  · obtain ⟨o, -, rfl⟩ := List.mem_map.1 h
    exact recoverEdit_addEdit v o.1 true
  · obtain ⟨o, -, rfl⟩ := List.mem_map.1 h
    exact recoverEdit_deleteEdit v o.level o.fileID

/-! ### The cache keeps its size -/

def TableCache.Unique (tc : TableCache) : Prop := (tc.entries.map TcEntry.fileID).Nodup

theorem length_filter_fileID {l : List TcEntry} (h : (l.map TcEntry.fileID).Nodup) {x : TcEntry}
    (hx : x ∈ l) : (l.filter (fun y => y.fileID ≠ x.fileID)).length + 1 = l.length := by
  induction l with
  | nil => cases hx
  | cons a l ih =>
    rw [List.map_cons, List.nodup_cons] at h
    rcases List.mem_cons.1 hx with rfl | hx
    · have hall : l.filter (fun y => y.fileID ≠ x.fileID) = l := by
        refine List.filter_eq_self.2 (fun y hy => decide_eq_true (fun hc => h.1 ?_))
        exact List.mem_map.2 ⟨y, hy, hc⟩
      rw [List.filter_cons_of_neg (by simp), hall, List.length_cons]
    · have hne : a.fileID ≠ x.fileID := fun hc => h.1 (List.mem_map.2 ⟨x, hx, hc.symm⟩)
      rw [List.filter_cons_of_pos (by simpa using hne), List.length_cons, List.length_cons,
        ih h.2 hx]

theorem TableCache.Unique.get {tc' : TableCache} (h : tc.Unique) {id : ℕ} {t : SSTable}
    (hg : tc.get id = some (t, tc')) :
    tc'.Unique ∧ tc'.entries.length = tc.entries.length ∧ tc'.cap = tc.cap := by
  unfold TableCache.get at hg
  split at hg
  · cases hg
  · rename_i x hx
    cases hg
    have hid : x.fileID = id := by simpa using List.find?_some hx
    have hmem : x ∈ tc.entries := List.mem_of_find?_eq_some hx
    subst hid
    refine ⟨?_, ?_, rfl⟩
    · unfold TableCache.Unique
      rw [List.map_cons, List.nodup_cons]
      refine ⟨?_, List.Nodup.sublist (List.filter_sublist.map _) h⟩
      rintro hc
      obtain ⟨y, hy, hyx⟩ := List.mem_map.1 hc
      exact of_decide_eq_true (List.mem_filter.1 hy).2 hyx
    · rw [List.length_cons]
      exact length_filter_fileID h hmem

theorem TableCache.Unique.foldl_release (h : tc.Unique) (pins : List ℕ) :
    (pins.foldl TableCache.release tc).Unique ∧
      (pins.foldl TableCache.release tc).entries.length = tc.entries.length ∧
      (pins.foldl TableCache.release tc).cap = tc.cap := by
  induction pins generalizing tc with
  | nil => exact ⟨h, rfl, rfl⟩
  | cons p ps ih =>
    have hids : (tc.release p).entries.map TcEntry.fileID = tc.entries.map TcEntry.fileID := by
      simp only [TableCache.release, List.map_map]
      refine List.map_congr_left (fun x _ => ?_)
      simp only [Function.comp_apply]
      split_ifs <;> rfl
    have hu : (tc.release p).Unique := by unfold TableCache.Unique; rw [hids]; exact h
    obtain ⟨h1, h2, h3⟩ := ih hu
    refine ⟨h1, h2.trans ?_, h3⟩
    simp [TableCache.release]

theorem TableCache.Unique.openInputs (h : tc.Unique) (i : ℕ) (ms : List SSTableMeta) :
    (openInputs i ms tc).2.1.Unique ∧
      (openInputs i ms tc).2.1.entries.length = tc.entries.length ∧
      (openInputs i ms tc).2.1.cap = tc.cap := by
  induction ms generalizing i tc with
  | nil => exact ⟨h, rfl, rfl⟩
  | cons m ms ih =>
    rw [LsmTree.openInputs]
    cases hg : tc.get m.fileID with
    | none => exact ih h (i + 1)
    | some x =>
      obtain ⟨t, tc'⟩ := x
      obtain ⟨h1, h2, h3⟩ := h.get hg
      obtain ⟨h4, h5, h6⟩ := ih h1 (i + 1)
      exact ⟨h4, h5.trans h2, h6.trans h3⟩

theorem TableCache.Unique.probeTables (h : tc.Unique) (k : Bytes) (s : ℕ) (ms : List SSTableMeta) :
    (probeTables k s ms tc).2.1.Unique ∧
      (probeTables k s ms tc).2.1.entries.length = tc.entries.length ∧
      (probeTables k s ms tc).2.1.cap = tc.cap := by
  induction ms generalizing tc with
  | nil => exact ⟨h, rfl, rfl⟩
  | cons m ms ih =>
    rw [LsmTree.probeTables]
    cases hg : tc.get m.fileID with
    | none => exact ih h
    | some x =>
      obtain ⟨t, tc'⟩ := x
      obtain ⟨h1, h2, h3⟩ := h.get hg
      simp only
      cases t.get k s with
      | error err => exact ⟨h1, h2, h3⟩
      | ok r =>
        cases r with
        | some r => exact ⟨h1, h2, h3⟩
        | none =>
          obtain ⟨h4, h5, h6⟩ := ih h1
          exact ⟨h4, h5.trans h2, h6.trans h3⟩

theorem TableCache.Unique.scanTables (h : tc.Unique) (start stop : Bytes) (p : ℕ)
    (ms : List SSTableMeta) :
    (scanTables start stop p ms tc).2.1.Unique ∧
      (scanTables start stop p ms tc).2.1.entries.length = tc.entries.length ∧
      (scanTables start stop p ms tc).2.1.cap = tc.cap := by
  induction ms generalizing tc p with
  | nil => exact ⟨h, rfl, rfl⟩
  | cons m ms ih =>
    rw [LsmTree.scanTables]
    split_ifs
    · cases hg : tc.get m.fileID with
      | none => exact ih h (p + 1)
      | some x =>
        obtain ⟨t, tc'⟩ := x
        obtain ⟨h1, h2, h3⟩ := h.get hg
        obtain ⟨h4, h5, h6⟩ := ih h1 (p + 1)
        exact ⟨h4, h5.trans h2, h6.trans h3⟩
    · exact ih h (p + 1)

theorem TableCache.Unique.register (h : tc.Unique) (id : ℕ) (t : SSTable) :
    (tc.register id t).Unique := by
  unfold TableCache.register
  split_ifs with hany hfull
  · exact h
  all_goals
    have hnew : ∀ x ∈ tc.entries, x.fileID ≠ id := by simpa using hany
    unfold TableCache.Unique
    rw [List.map_cons, List.nodup_cons]
  · have hsub : (evictLRU tc.entries).Sublist tc.entries := by
      unfold evictLRU
      have := (List.eraseP_sublist (l := tc.entries.reverse) (p := fun x => decide (x.refs = 0)))
      simpa using this.reverse
    refine ⟨?_, List.Nodup.sublist (hsub.map _) h⟩
    rintro hc
    obtain ⟨x, hx, hxid⟩ := List.mem_map.1 hc
    exact hnew x (hsub.subset hx) hxid
  · refine ⟨?_, h⟩
    rintro hc
    obtain ⟨x, hx, hxid⟩ := List.mem_map.1 hc
    exact hnew x hx hxid

theorem TableCache.Unique.unregister (h : tc.Unique) (id : ℕ) : (tc.unregister id).Unique :=
  List.Nodup.sublist (List.filter_sublist.map _) h

theorem planCompaction_unique {e : LSMEngine} (h : e.tc.Unique) (inputs : List SSTableMeta)
    (level : ℕ) :
    (e.planCompaction inputs level).tc.Unique ∧
      (e.planCompaction inputs level).tc.entries.length = e.tc.entries.length ∧
      (e.planCompaction inputs level).tc.cap = e.tc.cap := by
  obtain ⟨h1, h2, h3⟩ := h.openInputs 0 (inputs.insertionSort inputLe)
  obtain ⟨h4, h5, h6⟩ := h1.foldl_release (openInputs 0 (inputs.insertionSort inputLe) e.tc).2.2
  exact ⟨h4, h5.trans h2, h6.trans h3⟩

theorem foldl_register_unique (ids : List (SSTableMeta × SSTable)) {e : LSMEngine}
    (h : e.tc.Unique) : (ids.foldl (fun e o => e.register o.1.fileID) e).tc.Unique := by
  induction ids generalizing e with
  | nil => exact h
  | cons a ids ih =>
    refine ih ?_
    change (e.register a.1.fileID).tc.Unique
    unfold LSMEngine.register
    split
    · exact h.register _ _
    · exact h

theorem dropTables_unique (ids : List ℕ) {e : LSMEngine} (h : e.tc.Unique) :
    (e.dropTables ids).tc.Unique := by
  unfold LSMEngine.dropTables
  induction ids generalizing e with
  | nil => exact h
  | cons id ids ih => exact ih (h.unregister id)

/-! ### A whole compaction -/

/-- The engine before a compaction: readers have their own, old enough, file ids, and there is room
in the cache for the outputs. -/
structure CompactReady (e : LSMEngine) (p : CompactionPlan) : Prop where
  unique : e.tc.Unique
  reader_ids : ∀ j, e.tc.readerOf j ≠ none → j ≤ e.nextFileID
  room : e.tc.entries.length + p.outputs.length ≤ e.tc.cap

/-- The files and readers once the outputs of a plan are there: old ones as before, the outputs
under new file ids. -/
structure Staged (e : LSMEngine) (p : CompactionPlan) (ssts : Files SSTable) (tc : TableCache) :
    Prop where
  unique : tc.Unique
  cap : tc.cap = e.tc.cap
  old_file : ∀ j ≤ e.nextFileID, ssts.lookup j = e.dir.ssts.lookup j
  old_reader : ∀ j ≤ e.nextFileID, tc.readerOf j = e.tc.readerOf j
  out_file : ∀ o ∈ p.outputs, ssts.lookup o.1.fileID = some o.2
  out_reader : ∀ o ∈ p.outputs, tc.readerOf o.1.fileID = some o.2
  file_ids : ∀ j, p.nextFileID < j → ssts.lookup j = e.dir.ssts.lookup j
  reader_ids : ∀ j, tc.readerOf j ≠ none → j ≤ p.nextFileID

theorem stageOutputs_spec {e : LSMEngine} {inputs : List SSTableMeta} {level : ℕ}
    (h : CompactReady e (e.planCompaction inputs level)) :
    ∃ ssts tc, e.stageOutputs (e.planCompaction inputs level) =
        { e with dir := { e.dir with ssts := ssts }, tc := tc
                 nextFileID := (e.planCompaction inputs level).nextFileID } ∧
      Staged e (e.planCompaction inputs level) ssts tc := by
  have hp := planCompaction_ok e inputs level
  obtain ⟨hu, hlen, hcap⟩ := planCompaction_unique h.unique inputs level
  have hroom := h.room
  set p := e.planCompaction inputs level with hpdef
  clear_value p
  obtain ⟨ssts, h1, h2, h3⟩ :=
    foldl_writeTable p.outputs { e with nextFileID := p.nextFileID, tc := p.tc }
  have h3 := h3 hp.ids
  -- the empty last file, if there is one, has a number of its own
  obtain ⟨ssts', h4, h5, h6, h7⟩ : ∃ ssts' : Files SSTable,
      (if p.outputs.any (fun o => o.1.fileID = p.lastFile) then
        p.outputs.foldl (fun (e : LSMEngine) o => e.exec (.writeTable o.1.fileID o.2))
          { e with nextFileID := p.nextFileID, tc := p.tc }
      else (p.outputs.foldl (fun (e : LSMEngine) o => e.exec (.writeTable o.1.fileID o.2))
        { e with nextFileID := p.nextFileID, tc := p.tc }).exec
          (.writeTable p.lastFile ⟨[], none⟩)) =
        { e with dir := { e.dir with ssts := ssts' }, tc := p.tc, nextFileID := p.nextFileID } ∧
      (∀ j ≤ e.nextFileID, ssts'.lookup j = e.dir.ssts.lookup j) ∧
      (∀ o ∈ p.outputs, ssts'.lookup o.1.fileID = some o.2) ∧
      ∀ j, p.nextFileID < j → ssts'.lookup j = e.dir.ssts.lookup j := by
    have hold : ∀ j ≤ e.nextFileID, ∀ o ∈ p.outputs, o.1.fileID ≠ j := fun j hj o ho => by
      have := (hp.outs o ho).id_gt; omega
    have hnew : ∀ j, p.nextFileID < j → ∀ o ∈ p.outputs, o.1.fileID ≠ j := fun j hj o ho => by
      have := (hp.outs o ho).id_le; omega
    have hgt := hp.last_gt
    have hle := hp.last_le
    rw [h1]
    split_ifs with hany
    · exact ⟨ssts, rfl, fun j hj => h2 j (hold j hj), h3, fun j hj => h2 j (hnew j hj)⟩
    · have hlook : ∀ j, (ssts.insert p.lastFile ⟨[], none⟩).lookup j =
          if j = p.lastFile then some ⟨[], none⟩ else ssts.lookup j := fun j => by
        by_cases hj : j = p.lastFile
        · subst hj; simp
        · simp [hj]
      refine ⟨ssts.insert p.lastFile ⟨[], none⟩, rfl, fun j hj => ?_, fun o ho => ?_,
        fun j hj => ?_⟩
      · rw [hlook, if_neg (by omega), h2 j (hold j hj)]
      · have hne : o.1.fileID ≠ p.lastFile := by
          intro hc
          exact hany (List.any_eq_true.2 ⟨o, ho, decide_eq_true hc⟩)
        rw [hlook, if_neg hne, h3 o ho]
      · rw [hlook, if_neg (by omega), h2 j (hnew j hj)]
  obtain ⟨tc, h8, h9, h10, h11⟩ := @foldl_register p.outputs
    { e with dir := { e.dir with ssts := ssts' }, tc := p.tc, nextFileID := p.nextFileID }
    h6 hp.ids
    (fun o ho => by
      by_contra hc
      have hgt := (hp.outs o ho).id_gt
      have := h.reader_ids o.1.fileID (by rw [← hp.readers]; exact hc)
      omega)
    (by simp only [hlen, hcap]; exact hroom)
  have hstage : e.stageOutputs p = { e with
      dir := { e.dir with ssts := ssts' }, tc := tc, nextFileID := p.nextFileID } := by
    unfold LSMEngine.stageOutputs
    simp only
    rw [h4, h8]
  have huniq : tc.Unique := by
    have := @foldl_register_unique p.outputs
      { e with dir := { e.dir with ssts := ssts' }, tc := p.tc, nextFileID := p.nextFileID } hu
    rw [h8] at this
    exact this
  refine ⟨ssts', tc, hstage, huniq, h9.trans hcap, h5, fun j hj => ?_, h6, h11, h7, fun j hj => ?_⟩
  · rw [h10 j (fun o ho => by have := (hp.outs o ho).id_gt; omega)]
    exact congrFun hp.readers j
  · by_contra hlt
    apply hj
    rw [h10 j (fun o ho => by have := (hp.outs o ho).id_le; omega)]
    change p.tc.readerOf j = none
    rw [hp.readers]
    by_contra hc
    have h12 := h.reader_ids j hc
    have h13 := hp.next_ge
    omega

/-- **The effect of a compaction in which no write fails.** -/
theorem executeCompaction_ok {e : LSMEngine} {inputs : List SSTableMeta} {level : ℕ}
    (h : CompactReady e (e.planCompaction inputs level)) (rb : ℕ → WriteResult) :
    ∃ ssts₀ tc₀ ssts tc, Staged e (e.planCompaction inputs level) ssts₀ tc₀ ∧
      e.executeCompaction inputs level (fun _ => .ok) rb =
        ({ e with
            dir := { e.dir with
              ssts := ssts
              edits := e.dir.edits ++
                (e.planCompaction inputs level).commitEdits.map VersionEdit.persisted }
            tc := tc
            current := (e.planCompaction inputs level).commitEdits.foldl Version.applyEdit e.current
            nextFileID := (e.planCompaction inputs level).nextFileID }, true) ∧
      tc.Unique ∧ tc.cap = e.tc.cap ∧
      (∀ j, ssts.lookup j =
        if j ∈ (e.planCompaction inputs level).inputs.map SSTableMeta.fileID then none
        else ssts₀.lookup j) ∧
      ∀ j, tc.readerOf j =
        if j ∈ (e.planCompaction inputs level).inputs.map SSTableMeta.fileID then none
        else tc₀.readerOf j := by
  obtain ⟨ssts₀, tc₀, h1, hst⟩ := stageOutputs_spec h
  set p := e.planCompaction inputs level with hp
  have hcommit := applyAll_ok (commitEdits_unchecked p) (e.stageOutputs p)
  rw [h1] at hcommit
  obtain ⟨ssts, tc, h2, h3, h4, h5⟩ := dropTables_spec (p.inputs.map SSTableMeta.fileID)
    { e with
      dir := { e.dir with
        ssts := ssts₀, edits := e.dir.edits ++ p.commitEdits.map VersionEdit.persisted }
      tc := tc₀
      current := p.commitEdits.foldl Version.applyEdit e.current
      nextFileID := p.nextFileID }
  refine ⟨ssts₀, tc₀, ssts, tc, hst, ?_, ?_, h3.trans hst.cap, h4, h5⟩
  · unfold LSMEngine.executeCompaction
    simp only [← hp, h1, hcommit, h2]
  · have := @dropTables_unique (p.inputs.map SSTableMeta.fileID)
      { e with
        dir := { e.dir with
          ssts := ssts₀, edits := e.dir.edits ++ p.commitEdits.map VersionEdit.persisted }
        tc := tc₀
        current := p.commitEdits.foldl Version.applyEdit e.current
        nextFileID := p.nextFileID } hst.unique
    rw [h2] at this
    exact this

end LsmTree
