import LsmTree.Correct.Lookup
import LsmTree.Property.Refinement

/-!
# The listed tables and their readers

As long as the cache has room for what is registered, every table that the version lists has a
reader (`Listing`), whatever the tables hold: no step but an eviction takes a reader away from a
listed table.
-/

namespace LsmTree

variable {v : Version} {m : SSTableMeta} {level : ℕ}

/-- File numbers tell the tables of a version apart, and each table is listed in its own level. -/
structure Version.Numbered (v : Version) : Prop where
  level : ∀ i, ∀ t ∈ v.levels i, t.level = i
  ids : ∀ i j, ∀ t ∈ v.levels i, ∀ t' ∈ v.levels j, t.fileID = t'.fileID → t = t'
  bound : ∀ i, maxLevels ≤ i → v.levels i = []

theorem Version.Numbered.congr {v' : Version} (h : v.Numbered) (hl : v'.levels = v.levels) :
    v'.Numbered := by
  refine ⟨?_, ?_, ?_⟩ <;> rw [hl]
  exacts [h.level, h.ids, h.bound]

structure Listing (e : LSMEngine) : Prop where
  version : e.current = recoverVersion e.dir.edits
  numbered : e.current.Numbered
  maxLevel_le : e.cfg.maxLevel ≤ maxLevels
  listed_le : ∀ i, ∀ t ∈ e.current.levels i, t.fileID ≤ e.nextFileID
  reader_le : ∀ id, e.tc.readerOf id ≠ none → id ≤ e.nextFileID
  unique : e.tc.Unique
  readers : ∀ i, ∀ t ∈ e.current.levels i, e.tc.readerOf t.fileID ≠ none

variable {e e' : LSMEngine}

theorem Listing.frame (h : Listing e) (hv : e'.current = recoverVersion e'.dir.edits)
    (hl : e'.current.levels = e.current.levels) (hcfg : e'.cfg = e.cfg)
    (hid : e.nextFileID ≤ e'.nextFileID) (htc : e'.tc.readerOf = e.tc.readerOf)
    (hu : e'.tc.Unique) : Listing e' := by
  refine ⟨hv, h.numbered.congr hl, by rw [hcfg]; exact h.maxLevel_le, ?_, ?_, hu, ?_⟩
  · rw [hl]
    exact fun i t ht => (h.listed_le i t ht).trans hid
  · rw [htc]
    exact fun id hr => (h.reader_le id hr).trans hid
  · rw [hl, htc]
    exact h.readers

theorem Listing.applyEdit (h : Listing e) {edit : VersionEdit} (hu : edit.Unchecked)
    (hreplay : ∀ v : Version, v.recoverEdit edit.persisted = v.applyEdit edit)
    (hl : (e.current.applyEdit edit).levels = e.current.levels) : Listing (e.apply edit .ok).1 := by
  rw [apply_ok hu]
  refine h.frame ?_ hl rfl le_rfl rfl h.unique
  change e.current.applyEdit edit = recoverVersion (e.dir.edits ++ [edit.persisted])
  rw [recoverVersion_append, hreplay, ← h.version]

theorem Listing.logNumberEdit (h : Listing e) (n : ℕ) :
    Listing (e.apply (LsmTree.logNumberEdit n) .ok).1 :=
  h.applyEdit (logNumberEdit_unchecked n) (fun v => recoverEdit_logNumberEdit v n) rfl

theorem Listing.maxSeqNoEdit (h : Listing e) (n : ℕ) :
    Listing (e.apply (LsmTree.maxSeqNoEdit n) .ok).1 :=
  h.applyEdit (maxSeqNoEdit_unchecked n) (fun v => recoverEdit_maxSeqNoEdit v n) rfl

/-! ### Writes and reads -/

theorem Listing.rotate (h : Listing e) : Listing e.rotateMemTable.1 := by
  unfold LSMEngine.rotateMemTable
  cases e.rotateReady with
  | error err => exact h
  | ok u =>
    have hopen : Listing e.rotateOpen.1 :=
      h.frame h.version rfl rfl (Nat.le_succ _) rfl h.unique
    have hedit := hopen.logNumberEdit e.rotateOpen.2
    exact hedit.frame hedit.version rfl rfl le_rfl rfl hedit.unique

theorem Listing.logWrite (h : Listing e) (ws : List WALEntry) : Listing (e.logWrite ws) := by
  unfold LSMEngine.logWrite
  split_ifs
  · exact h.frame h.version rfl rfl le_rfl rfl h.unique
  · exact h.frame h.version rfl rfl le_rfl rfl h.unique

theorem Listing.insertEntries (h : Listing e) (ws : List WALEntry) :
    Listing (e.insertEntries ws) :=
  h.frame h.version rfl rfl le_rfl rfl h.unique

theorem Listing.submit (h : Listing e) (op : WriteOp) : Listing (e.submit op).1 := by
  unfold LSMEngine.submit
  rcases hacc : e.accept op with ⟨e₁, err | ws⟩
  · obtain ⟨s, -, rfl⟩ := accept_error hacc
    exact h.frame h.version rfl rfl le_rfl rfl h.unique
  · obtain ⟨rfl, -, -⟩ := accept_ok hacc
    cases ws with
    | nil => exact h.frame h.version rfl rfl le_rfl rfl h.unique
    | cons w ws =>
      have hstamp : Listing { e with seqNo := e.seqNo + (w :: ws).length } :=
        h.frame h.version rfl rfl le_rfl rfl h.unique
      have hin := (hstamp.logWrite (w :: ws)).insertEntries (w :: ws)
      unfold LSMEngine.rotateIfFull
      simp only
      split_ifs
      · exact hin.rotate
      · exact hin

theorem Listing.readOnly (h : Listing e) (hr : ReadOnly e e') : Listing e' := by
  have hreaders := hr.readers
  have hunique := hr.unique h.unique
  rw [hr.eq] at hreaders hunique ⊢
  exact h.frame h.version rfl rfl le_rfl hreaders hunique

/-! ### Flushes -/

theorem TableCache.readerOf_register_ne_none {tc : TableCache}
    (hroom : tc.entries.length < tc.cap) (id j : ℕ) (t : SSTable) :
    (tc.register id t).readerOf j ≠ none ↔ j = id ∨ tc.readerOf j ≠ none := by
  by_cases hnew : tc.readerOf id = none
  · rw [readerOf_register hnew hroom]
    split_ifs with hj <;> simp [hj]
  · have hsame : tc.register id t = tc := by
      rw [readerOf_eq_none, not_not] at hnew
      exact if_pos hnew
    rw [hsame]
    constructor
    · exact Or.inr
    · rintro (rfl | hj)
      · exact hnew
      · exact hj

theorem Listing.flushAdd (h : Listing e) (hroom : e.tc.entries.length < e.tc.cap)
    (imm : ImmutableMemtable) :
    Listing ((e.flushBuild imm).1.flushAdd (e.flushBuild imm).2 .ok).1 := by
  obtain ⟨f, heq⟩ := flushAdd_build e imm
  obtain ⟨hid, hlevel, hcreated⟩ := flushBuild_fields e imm
  have hadd : AddsTable e.current (e.current.applyEdit (addEdit (e.flushBuild imm).2 false))
      (e.flushBuild imm).2 := addsTable_addEdit hlevel hcreated e.current
  have hlisted : ∀ i, ∀ t ∈ (e.current.applyEdit (addEdit (e.flushBuild imm).2 false)).levels i,
      t ∈ e.current.levels i ∨ (i = 0 ∧ t = (e.flushBuild imm).2) := fun i t ht => hadd.mem.1 ht
  rw [heq]
  refine ⟨?_, ⟨fun i t ht => ?_, fun i j t ht t' ht' hsame => ?_, fun i hi => ?_⟩, h.maxLevel_le,
    fun i t ht => ?_, fun id hr => ?_, h.unique.register _ _, fun i t ht => ?_⟩
  · change e.current.applyEdit (addEdit (e.flushBuild imm).2 false) =
      recoverVersion (e.dir.edits ++ [(addEdit (e.flushBuild imm).2 false).persisted])
    rw [recoverVersion_append, recoverEdit_addEdit, ← h.version]
  · rcases hlisted i t ht with ht | ⟨rfl, rfl⟩
    · exact h.numbered.level i t ht
    · exact hlevel
  · have hnew : ∀ i, ∀ x ∈ e.current.levels i, x.fileID ≠ e.nextFileID + 1 := fun i x hx => by
      have := h.listed_le i x hx
      omega
    rcases hlisted i t ht with ht | ⟨-, rfl⟩ <;> rcases hlisted j t' ht' with ht' | ⟨-, rfl⟩
    · exact h.numbered.ids i j t ht t' ht' hsame
    · exact absurd (hsame.trans hid) (hnew i t ht)
    · exact absurd (hsame.symm.trans hid) (hnew j t' ht')
    · rfl
  · change (e.current.applyEdit (addEdit (e.flushBuild imm).2 false)).levels i = []
    rw [hadd.rest i (by unfold maxLevels at hi; omega)]
    exact h.numbered.bound i hi
  · rcases hlisted i t ht with ht | ⟨-, rfl⟩
    · exact (h.listed_le i t ht).trans (Nat.le_succ _)
    · exact hid.le
  · rcases (TableCache.readerOf_register_ne_none hroom _ _ f).1 hr with rfl | hr
    · exact le_rfl
    · exact (h.reader_le id hr).trans (Nat.le_succ _)
  · refine (TableCache.readerOf_register_ne_none hroom _ _ f).2 ?_
    rcases hlisted i t ht with ht | ⟨-, rfl⟩
    · exact Or.inr (h.readers i t ht)
    · exact Or.inl hid

theorem Listing.newFileID (h : Listing e) : Listing e.newFileID.1 :=
  h.frame h.version rfl rfl (Nat.le_succ _) rfl h.unique

theorem Listing.removeImmutable (h : Listing e) (imm : ImmutableMemtable) :
    Listing (e.removeImmutable imm) :=
  h.frame h.version rfl rfl le_rfl rfl h.unique

theorem Listing.flushNext (h : Listing e)
    (hroom : e.flushQueue ≠ [] → e.tc.entries.length < e.tc.cap) : Listing (e.flushNext {}) := by
  unfold LSMEngine.flushNext
  cases hq : e.flushQueue with
  | nil => exact h
  | cons imm rest =>
    have hroom := hroom (by rw [hq]; exact List.cons_ne_nil _ _)
    have hpop : Listing { e with flushQueue := rest } :=
      h.frame h.version rfl rfl le_rfl rfl h.unique
    have hadd := hpop.flushAdd hroom imm
    obtain ⟨f, heq⟩ := flushAdd_build { e with flushQueue := rest } imm
    unfold LSMEngine.flush
    simp only [reduceCtorEq, if_false, if_true, FlushOutcome.addRes]
    by_cases hempty : imm.table.entries = []
    · simp only [if_pos hempty]
      exact hpop.newFileID.removeImmutable imm
    · simp only [if_neg hempty]
      rw [heq] at hadd ⊢
      have hseq := (hadd.maxSeqNoEdit e.seqNo).removeImmutable imm
      exact hseq.frame hseq.version rfl rfl le_rfl rfl hseq.unique

/-! ### Compactions -/

theorem mem_of_mem_dedupe {l : List SSTableMeta} (h : m ∈ dedupeByFileID l) : m ∈ l := by
  induction l with
  | nil => exact h
  | cons a l ih =>
    rw [dedupeByFileID, List.mem_cons, List.mem_filter] at h
    exact List.mem_cons.2 (h.imp_right (fun h => ih h.1))

theorem mem_leveledInputs {maxLevel : ℕ} (h : m ∈ leveledInputs v maxLevel level) :
    level + 1 < maxLevel ∧ (m ∈ v.levels level ∨ m ∈ v.levels (level + 1)) := by
  unfold leveledInputs at h
  by_cases hlast : maxLevel ≤ level + 1
  · rw [if_pos hlast] at h
    cases h
  · rw [if_neg hlast] at h
    have hbase : ∀ x ∈ (if level = 0 then v.levels 0 else (v.levels level).take 1),
        x ∈ v.levels level := by
      intro x hx
      split_ifs at hx with h0
      · exact h0 ▸ hx
      · exact List.mem_of_mem_take hx
    simp only at h
    generalize (if level = 0 then v.levels 0 else (v.levels level).take 1) = base at h hbase
    split_ifs at h
    · cases h
    · rcases List.mem_append.1 (mem_of_mem_dedupe h) with hm | hm
      · exact ⟨not_le.1 hlast, Or.inl (hbase m hm)⟩
      · exact ⟨not_le.1 hlast, Or.inr (List.mem_filter.1 hm).1⟩

section Commit

variable {p : CompactionPlan} {ins : List SSTableMeta} {l : ℕ} {ssts₀ ssts : Files SSTable}
  {tc₀ tc : TableCache}

theorem Listing.mem_commit (h : Listing e) (hp : PlanOk e ins l p)
    (hinput : ∀ m ∈ p.inputs, ∃ j, m ∈ e.current.levels j) {j : ℕ} {x : SSTableMeta}
    (hx : x ∈ (p.commitEdits.foldl Version.applyEdit e.current).levels j) :
    (x ∈ e.current.levels j ∨ (j = l ∧ ∃ o ∈ p.outputs, o.1 = x)) ∧
      x.fileID ∉ p.inputs.map SSTableMeta.fileID := by
  have hcreated : ∀ m ∈ p.outputs.map Prod.fst, m.createdAt = 0 := by
    intro m hm
    obtain ⟨o, ho, rfl⟩ := List.mem_map.1 hm
    exact (hp.outs o ho).created
  rw [commitEdits_eq, List.foldl_append, mem_foldl_deleteEdit, mem_foldl_addEdit hcreated] at hx
  obtain ⟨hor, hdel⟩ := hx
  constructor
  · rcases hor with hold | ⟨hnew, rfl⟩
    · exact Or.inl hold
    · obtain ⟨o, ho, rfl⟩ := List.mem_map.1 hnew
      exact Or.inr ⟨(hp.outs o ho).level_eq, o, ho, rfl⟩
  · intro hc
    obtain ⟨m, hm, hid⟩ := List.mem_map.1 hc
    obtain ⟨i, hi⟩ := hinput m hm
    rcases hor with hold | ⟨hnew, -⟩
    · have heq := h.numbered.ids i j m hi x hold hid
      exact hdel m hm (heq ▸ h.numbered.level j x hold) hid
    · obtain ⟨o, ho, rfl⟩ := List.mem_map.1 hnew
      have h1 := h.listed_le i m hi
      have h2 := (hp.outs o ho).id_gt
      omega

theorem Listing.commit_numbered (h : Listing e) (hp : PlanOk e ins l p) (hl : l < maxLevels)
    (hinput : ∀ m ∈ p.inputs, ∃ j, m ∈ e.current.levels j) :
    (p.commitEdits.foldl Version.applyEdit e.current).Numbered := by
  have hapart : ∀ i, ∀ x ∈ e.current.levels i, ∀ o ∈ p.outputs, x.fileID ≠ o.1.fileID := by
    intro i x hx o ho
    have h1 := h.listed_le i x hx
    have h2 := (hp.outs o ho).id_gt
    omega
  refine ⟨fun j x hx => ?_, fun i j x hx y hy hid => ?_, fun j hj => ?_⟩
  · rcases (h.mem_commit hp hinput hx).1 with hx | ⟨rfl, o, ho, rfl⟩
    · exact h.numbered.level j x hx
    · exact (hp.outs o ho).level_eq
  · rcases (h.mem_commit hp hinput hx).1 with hx | ⟨-, o, ho, rfl⟩ <;>
      rcases (h.mem_commit hp hinput hy).1 with hy | ⟨-, o', ho', rfl⟩
    · exact h.numbered.ids i j x hx y hy hid
    · exact absurd hid (hapart i x hx o' ho')
    · exact absurd hid.symm (hapart j y hy o ho)
    · rcases pairwise_cases hp.ids ho ho' with heq | hlt | hlt
      · rw [heq]
      · exact absurd hid hlt.ne
      · exact absurd hid.symm hlt.ne
  · refine List.eq_nil_iff_forall_not_mem.2 (fun x hx => ?_)
    rcases (h.mem_commit hp hinput hx).1 with hx | ⟨rfl, -⟩
    · rw [h.numbered.bound j hj] at hx
      cases hx
    · omega

theorem Listing.commit (h : Listing e) (hp : PlanOk e ins l p) (hl : l < maxLevels)
    (hinput : ∀ m ∈ p.inputs, ∃ j, m ∈ e.current.levels j) (hst : Staged e p ssts₀ tc₀)
    (hu : tc.Unique) (htc : ∀ j, tc.readerOf j =
      if j ∈ p.inputs.map SSTableMeta.fileID then none else tc₀.readerOf j) :
    Listing { e with
      dir := { e.dir with
        ssts := ssts, edits := e.dir.edits ++ p.commitEdits.map VersionEdit.persisted }
      tc := tc
      current := p.commitEdits.foldl Version.applyEdit e.current
      nextFileID := p.nextFileID } := by
  refine ⟨?_, h.commit_numbered hp hl hinput, h.maxLevel_le, fun j x hx => ?_, fun id hid => ?_, hu,
    fun j x hx => ?_⟩
  · change p.commitEdits.foldl Version.applyEdit e.current =
      recoverVersion (e.dir.edits ++ p.commitEdits.map VersionEdit.persisted)
    rw [recoverVersion_appendAll _ (commitEdits_replay _), ← h.version]
  · rcases (h.mem_commit hp hinput hx).1 with hx | ⟨-, o, ho, rfl⟩
    · exact (h.listed_le j x hx).trans hp.next_ge
    · exact (hp.outs o ho).id_le
  · change tc.readerOf id ≠ none at hid
    rw [htc] at hid
    split_ifs at hid
    · exact absurd rfl hid
    · exact hst.reader_ids id hid
  · obtain ⟨hor, hno⟩ := h.mem_commit hp hinput hx
    change tc.readerOf x.fileID ≠ none
    rw [htc, if_neg hno]
    rcases hor with hx | ⟨-, o, ho, rfl⟩
    · rw [hst.old_reader _ (h.listed_le j x hx)]
      exact h.readers j x hx
    · rw [hst.out_reader o ho]
      exact Option.some_ne_none _

end Commit

/-- **A completed compaction.** -/
theorem Listing.compactLevel (h : Listing e)
    (hroom : e.tc.entries.length + (e.levelPlan level).outputs.length ≤ e.tc.cap) :
    Listing (e.compactLevel level (fun _ => .ok) (fun _ => .ok)).1 := by
  by_cases hne : leveledInputs e.current e.cfg.maxLevel level = []
  · rw [compactLevel_of_nil hne]
    exact h
  · obtain ⟨ssts₀, tc₀, ssts, tc, hst, heq, hu, -, -, htc⟩ := @executeCompaction_ok e
      (leveledInputs e.current e.cfg.maxLevel level) (level + 1) ⟨h.unique, h.reader_le, hroom⟩
      (fun _ => .ok)
    have hp := planCompaction_ok e (leveledInputs e.current e.cfg.maxLevel level) (level + 1)
    have hlast : level + 1 < maxLevels := by
      obtain ⟨m, hm⟩ := List.exists_mem_of_ne_nil _ hne
      exact (mem_leveledInputs hm).1.trans_le h.maxLevel_le
    have hrun : (e.compactLevel level (fun _ => .ok) (fun _ => .ok)).1 =
        (e.executeCompaction (leveledInputs e.current e.cfg.maxLevel level) (level + 1)
          (fun _ => .ok) (fun _ => .ok)).1 := by
      unfold LSMEngine.compactLevel
      simp only [if_neg hne]
    rw [hrun, heq]
    refine h.commit hp hlast (fun m hm => ?_) hst hu htc
    rw [hp.inputs_eq, List.mem_insertionSort] at hm
    exact (mem_leveledInputs hm).2.elim (fun hl => ⟨_, hl⟩) (fun hl => ⟨_, hl⟩)

/-! ### Opening -/

theorem registerAll_readers {ssts : Files SSTable} {ms : List SSTableMeta} {tc tc' : TableCache}
    (h : registerAll ssts ms tc = .ok tc') (hu : tc.Unique)
    (hroom : tc.entries.length + ms.length ≤ tc.cap) :
    tc'.Unique ∧ tc'.cap = tc.cap ∧ tc'.entries.length ≤ tc.entries.length + ms.length ∧
      (∀ id, tc'.readerOf id ≠ none → tc.readerOf id ≠ none ∨ ssts.lookup id ≠ none) ∧
      (∀ id, tc.readerOf id ≠ none → tc'.readerOf id ≠ none) ∧
      ∀ m ∈ ms, ssts.lookup m.fileID ≠ none ∧ tc'.readerOf m.fileID ≠ none := by
  induction ms generalizing tc with
  | nil =>
    cases h
    exact ⟨hu, rfl, le_rfl, fun _ => Or.inl, fun _ hr => hr, fun m hm => by cases hm⟩
  | cons m ms ih =>
    rw [List.length_cons] at hroom
    rw [registerAll] at h
    cases hf : ssts.lookup m.fileID with
    | none =>
      rw [hf] at h
      cases h
    | some t =>
      rw [hf] at h
      have hlen := tc.register_length_le m.fileID t
      have hcap := tc.register_cap m.fileID t
      have hreg := @TableCache.readerOf_register_ne_none tc (by omega) m.fileID
      obtain ⟨h1, h2, h3, h4, h5, h6⟩ := ih h (hu.register m.fileID t) (by omega)
      refine ⟨h1, h2.trans hcap, by rw [List.length_cons]; omega, fun id hid => ?_,
        fun id hid => h5 id ((hreg id t).2 (Or.inr hid)), fun x hx => ?_⟩
      · rcases h4 id hid with hid | hid
        · rcases (hreg id t).1 hid with rfl | hid
          · exact Or.inr (by rw [hf]; exact Option.some_ne_none t)
          · exact Or.inl hid
        · exact Or.inr hid
      · rcases List.mem_cons.1 hx with rfl | hx
        · exact ⟨by rw [hf]; exact Option.some_ne_none t, h5 _ ((hreg _ t).2 (Or.inl rfl))⟩
        · exact h6 x hx

theorem cleanOps_edits (cfg : Config) (d : DataDir) :
    (d.execAll (cleanOps cfg d)).edits = d.edits := by
  have hkeep : ∀ (ops : List DiskOp) (d : DataDir),
      (∀ op ∈ ops, ∀ d : DataDir, (d.exec op).edits = d.edits) →
      (d.execAll ops).edits = d.edits := by
    intro ops
    induction ops with
    | nil => exact fun _ _ => rfl
    | cons op ops ih =>
      intro d h
      exact (ih (d.exec op) (fun op hop => h op (List.mem_cons_of_mem _ hop))).trans
        (h op List.mem_cons_self d)
  refine hkeep _ d (fun op hop d => ?_)
  unfold cleanOps foldLogOps at hop
  split_ifs at hop
  · rw [List.append_nil] at hop
    obtain ⟨id, -, rfl⟩ := List.mem_map.1 hop
    rfl
  · simp only [List.mem_append, List.mem_map, List.mem_cons] at hop
    rcases hop with ⟨id, -, rfl⟩ | rfl | ⟨x, -, rfl⟩ | ⟨id, -, rfl⟩ <;> rfl

/-- **Opening a directory** gives every listed table its reader. -/
theorem listing_open {cfg : Config} {d : DataDir} (hnum : (recoverVersion d.edits).Numbered)
    (hmax : cfg.maxLevel ≤ maxLevels) (hroom : OpenRoom cfg.withDefaults d)
    (hopen : openEngine cfg d = .ok e) : Listing e := by
  unfold OpenRoom at hroom
  obtain ⟨-, tc, hreg, rfl⟩ := openEngine_ok hopen
  have hzero : (newTableCache cfg.withDefaults.maxOpenFiles).entries.length = 0 := rfl
  have htables : d.version.tables = (recoverVersion d.edits).tables := rfl
  rw [htables] at hroom
  obtain ⟨h1, h2, h3, h4, -, h6⟩ := registerAll_readers hreg List.nodup_nil (by omega)
  have hlisted : ∀ i, ∀ t ∈ (recoverVersion d.edits).levels i,
      t ∈ (recoverVersion d.edits).tables := fun i t ht =>
    (mem_tables hnum.bound).2 ⟨i, ht⟩
  have hrec : Listing (recoveredEngine cfg.withDefaults d tc) := by
    refine ⟨?_, hnum, hmax, fun i t ht => ?_, fun id hid => ?_, h1, fun i t ht => ?_⟩
    · change recoverVersion d.edits = recoverVersion (d.execAll _).edits
      rw [cleanOps_edits]
    · exact lt_nextFileID_of_sst (h6 t (hlisted i t ht)).1
    · refine lt_nextFileID_of_sst ((h4 id hid).resolve_left (fun hc => hc rfl))
    · exact (h6 t (hlisted i t ht)).2
  have hshrink : Listing (recoveredEngine cfg.withDefaults d tc).shrink := by
    by_cases hover : oversized cfg.withDefaults d
    · rw [if_pos hover] at hroom
      rw [shrink_of_oversized hover]
      have hadd := hrec.flushAdd (by change tc.entries.length < tc.cap; omega)
        ⟨recoveredMem cfg.withDefaults d, activeLogNumber d⟩
      exact hadd.frame hadd.version rfl rfl le_rfl rfl hadd.unique
    · rcases @shrink_of_fits d cfg.withDefaults tc hover with heq | heq <;> rw [heq]
      · exact hrec
      · exact hrec.newFileID
  have hlog : Listing ((recoveredEngine cfg.withDefaults d tc).shrink.recordLog
      (recoverVersion d.edits).logNumber) := by
    unfold LSMEngine.recordLog
    split_ifs
    · exact hshrink.logNumberEdit _
    · exact hshrink
  exact hlog.frame hlog.version rfl rfl le_rfl rfl hlog.unique

/-! ### Runs -/

theorem Listing.closing (h : Listing e) {n : ℕ} (hroom : ∀ i < n, (e.closing i).flushQueue ≠ [] →
    (e.closing i).tc.entries.length < (e.closing i).tc.cap) : Listing (e.closing n) := by
  induction n with
  | zero =>
    unfold LSMEngine.closing
    split_ifs
    · exact h.rotate
    · exact h
  | succ n ih =>
    have hstep : e.closing (n + 1) = (e.closing n).flushNext {} :=
      Function.iterate_succ_apply' _ _ _
    rw [hstep]
    exact (ih (fun i hi => hroom i (hi.trans (Nat.lt_succ_self n)))).flushNext
      (hroom n (Nat.lt_succ_self n))

theorem Listing.leftBehind (h : Listing e) {closed : Option ℕ}
    (hroom : ∀ n, closed = some n → ∀ i < n, (e.closing i).flushQueue ≠ [] →
      (e.closing i).tc.entries.length < (e.closing i).tc.cap) :
    (recoverVersion (e.leftBehind closed).edits).Numbered := by
  cases closed with
  | none => exact h.version ▸ h.numbered
  | some n =>
    have hclosing := h.closing (hroom n rfl)
    have hedits : (e.close n).edits = (e.closing n).dir.edits := rfl
    change (recoverVersion (e.close n).edits).Numbered
    rw [hedits, ← hclosing.version]
    exact hclosing.numbered

/-- A restart has at most as many levels as a version. -/
def Event.FewLevels : Event → Prop
  | .restart cfg _ => cfg.maxLevel ≤ maxLevels
  | _ => True

/-- **One step of a run** with room. -/
theorem Listing.step (h : Listing e) {ev : Event} (hroom : e.Room ev) (hlevels : ev.FewLevels)
    (hstep : e.step ev = .ok e') : Listing e' := by
  cases ev with
  | restart cfg closed => exact listing_open (h.leftBehind hroom.2) hlevels hroom.1 hstep
  | write op => cases hstep; exact h.submit op
  | get key => cases hstep; exact h.readOnly (readOnly_get e key)
  | scan start stop limit => cases hstep; exact h.readOnly (readOnly_scan e start stop limit)
  | rotate =>
    cases hstep
    split_ifs
    · exact h.rotate
    · exact h
  | flush => cases hstep; exact h.flushNext hroom
  | compact level => cases hstep; exact h.compactLevel hroom

end LsmTree
