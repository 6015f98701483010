import LsmTree.Correct.Worker

/-!
# Reads in a poisoned engine

A failed flush stops further writes, and the flush worker drops the memtable: what was only there
can no longer be read (`failedFlush_hides`), although its log is still on disk.  As long as every
key of a memtable whose flush fails was written again in a newer one, reads are right in every state
of a run (`poisoned_reads`).

What reads need is `Live`: the layers in memory over the tables, whatever has become of the manifest
file and of the logs.
-/

namespace LsmTree

open Versioned

variable {o : FlushOutcome}

def LSMEngine.withEdits (e : LSMEngine) (edits : List VersionEdit) : LSMEngine :=
  { e with dir := { e.dir with edits := edits } }

/-- The memtables and the tables of a running engine mean the map, and the books are in order for
some manifest file. -/
structure Live (e : LSMEngine) (imms : List ImmutableMemtable) (m : Bytes → Option Bytes) :
    Prop where
  layered : Layered (memStack imms e.memTable) e.current e.files e.cfg.maxLevel m
  books : ∃ edits, Books (e.withEdits edits)
  seq_le : ∀ x ∈ union (memStack imms e.memTable) ∪ tableVersions e.current e.files,
    x.key.seqNo ≤ e.seqNo

variable {e e' : LSMEngine} {imms rest : List ImmutableMemtable} {imm : ImmutableMemtable}
  {m : Bytes → Option Bytes}

theorem Inv.live (h : Inv e e.memTable imms m) : Live e imms m :=
  ⟨h.layered, ⟨e.dir.edits, h.books⟩,
    fun x hx => h.seq_le x (hx.imp_left (fun hx => h.owned.memStack_subset hx))⟩

theorem Live.readable (h : Live e e.immutables m) : Readable e m := by
  obtain ⟨edits, hbooks⟩ := h.books
  refine ⟨by rw [memLayers_eq]; exact h.layered, hbooks.readers, fun x hx => h.seq_le x ?_⟩
  rw [LSMEngine.layers, union_append, memLayers_eq,
    h.layered.tables.shape.union_levelLayers h.layered.maxLevel_le] at hx
  exact hx

theorem Live.frame (h : Live e imms m) (hcfg : e'.cfg = e.cfg) (hmem : e'.memTable = e.memTable)
    (hcur : e'.current = e.current) (hssts : e'.dir.ssts = e.dir.ssts)
    (htc : e'.tc.readerOf = e.tc.readerOf) (hu : e'.tc.Unique)
    (hid : e.nextFileID ≤ e'.nextFileID) (hseq : e.seqNo ≤ e'.seqNo) : Live e' imms m := by
  have hfiles : e'.files = e.files := by unfold LSMEngine.files; rw [hssts]
  obtain ⟨edits, h1, h2, h3, -, h5⟩ := h.books
  refine ⟨by rw [hmem, hcur, hfiles, hcfg]; exact h.layered, ⟨edits, ?_, ?_, ?_, hu, ?_⟩, ?_⟩
  · exact hcur.trans h1
  · exact fun id hne => (h2 id (hfiles ▸ hne)).trans hid
  · exact fun id hne => (h3 id (htc ▸ hne)).trans hid
  · intro i t ht
    change e'.tc.readerOf t.fileID = e'.files t.fileID
    rw [htc, hfiles]
    exact h5 i t (hcur ▸ ht)
  · rw [hmem, hcur, hfiles]
    exact fun x hx => (h.seq_le x hx).trans hseq

theorem Live.unique (h : Live e imms m) : e.tc.Unique := by
  obtain ⟨edits, hbooks⟩ := h.books
  exact hbooks.unique

theorem Live.readOnly (h : Live e imms m) (hr : ReadOnly e e') : Live e' imms m := by
  have hreaders := hr.readers
  have hu := hr.unique h.unique
  rw [hr.eq] at hreaders hu ⊢
  exact h.frame rfl rfl rfl rfl hreaders hu le_rfl le_rfl

theorem Live.applyMark (h : Live e imms m) {edit : VersionEdit} (hu : edit.Unchecked)
    (hreplay : ∀ v : Version, v.recoverEdit edit.persisted = v.applyEdit edit)
    (hl : ∀ v : Version, (v.applyEdit edit).levels = v.levels) (res : WriteResult) :
    Live (e.apply edit res).1 imms m := by
  cases res with
  | failed reached =>
    rw [apply_failed hu]
    exact h.frame rfl rfl rfl rfl rfl h.unique le_rfl le_rfl
  | ok =>
    obtain ⟨edits, hbooks⟩ := h.books
    have hmark := hbooks.applyMark hu hreplay hl
    have hcur : (e.current.applyEdit edit).levels = e.current.levels := hl e.current
    rw [apply_ok hu] at hmark ⊢
    refine ⟨h.layered.congr hcur (fun _ _ _ => rfl), ⟨edits ++ [edit.persisted], hmark⟩, ?_⟩
    change ∀ x ∈ _ ∪ tableVersions (e.current.applyEdit edit) e.files, _
    rw [tableVersions_congr hcur (fun _ _ _ => rfl)]
    exact h.seq_le

/-! ### Writes -/

theorem Live.write (h : Live e imms m) {ws : List WALEntry} (hws : Consecutive e.seqNo ws)
    (hok : ∀ w ∈ ws, w.toEntry.Ok) (logs : Files WalFile) (buf : WalFile) :
    Live { e with
      seqNo := e.seqNo + ws.length, memTable := e.memTable.replay ws, walBuf := buf
      dir := { e.dir with logs := logs } } imms (overlay (ws.map WALEntry.toEntry) m) := by
  obtain ⟨hlay, hmem⟩ := h.layered.replay hws hok h.seq_le
  obtain ⟨edits, h1, h2, h3, h4, h5⟩ := h.books
  refine ⟨hlay, ⟨edits, h1, h2, h3, h4, h5⟩, ?_⟩
  intro x hx
  change x ∈ union (memStack imms (e.memTable.replay ws)) ∪ tableVersions e.current e.files at hx
  change x.key.seqNo ≤ e.seqNo + ws.length
  have hold : ∀ y ∈ union (memStack imms e.memTable) ∪ tableVersions e.current e.files,
      y.key.seqNo ≤ e.seqNo + ws.length := fun y hy => (h.seq_le y hy).trans
        (Nat.le_add_right _ _)
  rcases hx with hx | hx
  · rcases mem_union_memStack.1 hx with hx | hx
    · rw [hmem] at hx
      rcases hx with hx | ⟨w, hw, rfl⟩
      · exact hold x (Or.inl (mem_union_memStack.2 (Or.inl hx)))
      · rw [WALEntry.toEntry_seqNo]
        exact (hws.seqNo_gt hw).2
    · exact hold x (Or.inl (mem_union_memStack.2 (Or.inr hx)))
  · exact hold x (Or.inr hx)

theorem Live.rotateSwap (h : Live e imms m) (n : ℕ) :
    Live (e.rotateSwap n) (imms ++ [⟨e.memTable, e.logNumber⟩]) m := by
  have hstack := memStack_rotated imms e.memTable e.logNumber e.cfg.memTableSize
  obtain ⟨edits, h1, h2, h3, h4, h5⟩ := h.books
  refine ⟨?_, ⟨edits, h1, h2, h3, h4, h5⟩, ?_⟩
  · change Layered (memStack _ (newMemTable e.cfg.memTableSize)) _ _ _ _
    rw [hstack]
    exact @Layered.insert_empty [] _ _ _ _ _ h.layered
  · change ∀ x ∈ union (memStack _ (newMemTable e.cfg.memTableSize)) ∪ _, _
    rw [hstack, union_cons, Set.empty_union]
    exact h.seq_le

/-! ### Flushes -/

theorem Live.listed_le (h : Live e imms m) (i : ℕ) (x : SSTableMeta)
    (hx : x ∈ e.current.levels i) : x.fileID ≤ e.nextFileID := by
  obtain ⟨edits, hbooks⟩ := h.books
  exact hbooks.listed_le h.layered.tables hx

theorem Live.newFiles (h : Live e imms m) (hf : ∀ id ≤ e.nextFileID, e'.files id = e.files id)
    (hids : ∀ id, e'.files id ≠ none → id ≤ e'.nextFileID) (hid : e.nextFileID ≤ e'.nextFileID)
    (htc : e'.tc.readerOf = e.tc.readerOf) (hu : e'.tc.Unique) (hcfg : e'.cfg = e.cfg)
    (hmem : e'.memTable = e.memTable) (hcur : e'.current = e.current)
    (hseq : e'.seqNo = e.seqNo) : Live e' imms m := by
  have hold : ∀ i, ∀ x ∈ e.current.levels i, e'.files x.fileID = e.files x.fileID :=
    fun i x hx => hf _ (h.listed_le i x hx)
  obtain ⟨edits, h1, h2, h3, -, h5⟩ := h.books
  refine ⟨?_, ⟨edits, hcur.trans h1, hids, ?_, hu, ?_⟩, ?_⟩
  · rw [hmem, hcur, hcfg]
    exact h.layered.congr rfl hold
  · exact fun id hne => (h3 id (htc ▸ hne)).trans hid
  · intro i t ht
    have ht : t ∈ e.current.levels i := hcur ▸ ht
    change e'.tc.readerOf t.fileID = e'.files t.fileID
    rw [htc, hold i t ht]
    exact h5 i t ht
  · rw [hmem, hcur, hseq, tableVersions_congr rfl hold]
    exact h.seq_le

theorem Live.flushBuild (h : Live e imms m)
    (himm : imm.table.versions ⊆ union (memStack imms e.memTable)) (hne : imm.table.entries ≠ []) :
    Live (e.flushBuild imm).1 imms m ∧
      BuiltFor (e.flushBuild imm).1 (e.flushBuild imm).2 imm.table.versions := by
  obtain ⟨edits, hbooks⟩ := h.books
  refine ⟨?_, builtFor_flushBuild (fun x hx => h.layered.mem_ok x (himm hx)) hne h.listed_le
    hbooks.reader_ids⟩
  rw [flushBuild_eq]
  refine h.newFiles (fun id hid => ?_) (fun id hid => ?_)
    (Nat.le_succ _) rfl h.unique rfl rfl rfl rfl
  · exact (exec_writeTable_ssts _ _ _ _).trans (if_neg (by omega))
  · exact (hbooks.writeTable h.listed_le _).file_ids id hid

theorem Live.flushAdd (h : Live e imms m) {t : SSTableMeta} {S : Set Entry} (hb : BuiltFor e t S)
    (hroom : e.tc.entries.length < e.tc.cap) (hsub : S ⊆ union (memStack imms e.memTable))
    (habove : ∀ A ∈ memStack imms e.memTable, Dominates A S)
    (hbelow : Dominates S (union (levelLayers e.current e.files))) :
    Live (e.flushAdd t .ok).1 imms m ∧
      S ⊆ tableVersions (e.flushAdd t .ok).1.current (e.flushAdd t .ok).1.files := by
  obtain ⟨edits, hbooks⟩ := h.books
  have hb' : BuiltFor (e.withEdits edits) t S :=
    ⟨hb.file, hb.level, hb.created, hb.unlisted, hb.newest, hb.no_reader, hb.id_le⟩
  have hadded := hbooks.flushAdd hb' hroom
  obtain ⟨f, hf, heq⟩ := flushAdd_ok hb
  obtain ⟨f₁, hf₁, heq₁⟩ := flushAdd_ok hb'
  obtain rfl : f = f₁ := Option.some.inj (hf.symm.trans hf₁)
  obtain ⟨f', hf', htab, hset⟩ := hb.file
  obtain rfl : f = f' := Option.some.inj (hf.symm.trans hf')
  have hadd := addsTable_addEdit hb.level hb.created e.current
  rw [heq₁] at hadded
  rw [heq]
  refine ⟨⟨?_, ⟨edits ++ [(addEdit t false).persisted], hadded⟩, ?_⟩, ?_⟩
  · exact h.layered.addTable hadd e.cfg.maxLevel_pos hb.level hf htab hb.unlisted hb.newest
      (hset ▸ hsub) (hset ▸ habove) (hset ▸ hbelow)
  · change ∀ x ∈ union (memStack imms e.memTable) ∪
      tableVersions (e.current.applyEdit (addEdit t false)) e.files, _
    rw [hb.tableVersions_add]
    rintro x (hx | hx | hx)
    · exact h.seq_le x (Or.inl hx)
    · exact h.seq_le x (Or.inr hx)
    · exact h.seq_le x (Or.inl (hsub hx))
  · change S ⊆ tableVersions (e.current.applyEdit (addEdit t false)) e.files
    rw [hb.tableVersions_add]
    exact Set.subset_union_right

theorem Live.remove (h : Live e (imm :: rest) m)
    (hlay : Layered (memStack rest e.memTable) e.current e.files e.cfg.maxLevel m) :
    Live e rest m := by
  refine ⟨hlay, h.books, fun x hx => h.seq_le x (hx.imp_left (fun hx => ?_))⟩
  rw [memStack_cons, union_append]
  exact Or.inl hx

theorem Live.retire (h : Live e (imm :: rest) m)
    (hsub : imm.table.versions ⊆ tableVersions e.current e.files) : Live e rest m := by
  have hlay := h.layered
  rw [← hlay.tables.shape.union_levelLayers hlay.maxLevel_le] at hsub
  rw [memStack_cons] at hlay
  have hgone := hlay.retire hsub
  rw [List.append_nil] at hgone
  exact h.remove hgone

/-- **A successful flush of the oldest memtable.** -/
theorem Live.flush (h : Live e (imm :: rest) m) (hne : imm.table.entries ≠ [])
    (hroom : e.tc.entries.length < e.tc.cap) (ho : o.fault = none) :
    (e.flush imm o).2 = true ∧ Live (e.flush imm o).1 rest m := by
  obtain ⟨h1, hb⟩ := h.flushBuild
    (fun x hx => mem_union_memStack.2 (Or.inr ⟨imm, List.mem_cons_self, hx⟩)) hne
  obtain ⟨hsub, habove, hbelow⟩ := @Layered.addable _ _ [] rest imm _ _ _ h1.layered
    (fun p hp => by cases hp)
  obtain ⟨h2, hin⟩ := h1.flushAdd hb hroom hsub habove hbelow
  have h3 := (h2.retire hin).applyMark (maxSeqNoEdit_unchecked
    ((e.flushBuild imm).1.flushAdd (e.flushBuild imm).2 .ok).1.seqNo)
    (fun v => recoverEdit_maxSeqNoEdit v _) (fun _ => rfl) o.seqRes
  rw [flush_eq_of_built hne hb ho]
  refine ⟨rfl, ?_⟩
  change Live (if o.logRemoved then _ else _) rest m
  split_ifs
  · exact h3.frame rfl rfl rfl rfl rfl h3.unique le_rfl le_rfl
  · exact h3.frame rfl rfl rfl rfl rfl h3.unique le_rfl le_rfl

/-- **A failed flush** hides nothing if all keys of the memtable are held by newer ones. -/
theorem Live.flush_failed (h : Live e (imm :: rest) m) (hleft : FlushFailed e e')
    (hheld : ∀ x ∈ imm.table.versions, Holds (union (memStack rest e.memTable)) x.key.userKey) :
    Live e' rest m := by
  have hnext : e'.nextFileID = e.nextFileID + 1 := by rw [hleft.eq]
  have hlay := h.layered
  rw [memStack_cons] at hlay
  have hgone := hlay.drop hheld
  rw [List.append_nil] at hgone
  refine (h.remove hgone).newFiles hleft.files ?_ ?_ hleft.readers hleft.unique
    (by rw [hleft.eq]) (by rw [hleft.eq]) (by rw [hleft.eq]) (by rw [hleft.eq])
  · rw [hnext]
    exact hleft.file_ids
  · rw [hnext]
    exact Nat.le_succ _

/-! ### Compactions -/

theorem Live.compactLevel (h : Live e imms m) {level : ℕ}
    (hroom : e.tc.entries.length + (e.levelPlan level).outputs.length ≤ e.tc.cap)
    (rb : ℕ → WriteResult) : Live (e.compactLevel level (fun _ => .ok) rb).1 imms m ∧
      ∃ dir tc current n, e.nextFileID ≤ n ∧ (e.compactLevel level (fun _ => .ok) rb).1 =
        { e with dir := dir, tc := tc, current := current, nextFileID := n } := by
  by_cases hne : leveledInputs e.current e.cfg.maxLevel level = []
  · rw [compactLevel_of_nil hne]
    exact ⟨h, _, _, _, _, le_rfl, rfl⟩
  · obtain ⟨edits, hbooks⟩ := h.books
    have hpre : CompactPre (e.withEdits edits) level :=
      ⟨h.layered.tables, h.layered.agrees_tables, hbooks, hne⟩
    obtain ⟨ssts₀, tc₀, ssts, tc, hst, heq, hu, hcap, hssts, htc⟩ := @executeCompaction_ok e
      (leveledInputs e.current e.cfg.maxLevel level) (level + 1)
      ⟨h.unique, hbooks.reader_ids, hroom⟩ rb
    have hnext := (planCompaction_ok e (leveledInputs e.current e.cfg.maxLevel level)
      (level + 1)).next_ge
    have hplan : (e.withEdits edits).levelPlan level = e.levelPlan level := rfl
    unfold LSMEngine.levelPlan at hplan
    generalize e.planCompaction (leveledInputs e.current e.cfg.maxLevel level) (level + 1) = p at *
    have hst' : Staged (e.withEdits edits) p ssts₀ tc₀ :=
      ⟨hst.unique, hst.cap, hst.old_file, hst.old_reader, hst.out_file, hst.out_reader,
        hst.file_ids,
        hst.reader_ids⟩
    have hc := hpre.compacted_of hplan hst' hu hcap hssts htc
    have hrun : (e.compactLevel level (fun _ => .ok) rb).1 =
        (e.executeCompaction (leveledInputs e.current e.cfg.maxLevel level) (level + 1)
          (fun _ => .ok) rb).1 := by
      unfold LSMEngine.compactLevel
      simp only [if_neg hne]
    rw [hrun, heq]
    refine ⟨⟨h.layered.compact hc.step,
      ⟨edits ++ p.commitEdits.map VersionEdit.persisted, hc.books⟩, ?_⟩, _, _, _, _, hnext, rfl⟩
    rintro x (hx | hx)
    · exact h.seq_le x (Or.inl hx)
    · exact h.seq_le x (Or.inr (h.layered.compact_sub hc.step hx))

/-! ### Runs -/

/-- The numbers of the logs of the memtables, the active one last. -/
def LSMEngine.logNumbers (e : LSMEngine) : List ℕ :=
  e.immutables.map (fun i => i.logNumber) ++ [e.logNumber]

/-- An engine between steps: all immutable memtables are queued, and their logs tell them apart. -/
structure Serving (e : LSMEngine) (m : Bytes → Option Bytes) : Prop where
  live : Live e e.immutables m
  queue : e.flushQueue = e.immutables
  nonempty : ∀ i ∈ e.immutables, i.table.entries ≠ []
  logs : e.logNumbers.Nodup
  log_ids : ∀ n ∈ e.logNumbers, n ≤ e.nextFileID

theorem Serving.rotate (h : Serving e m) (hne : e.memTable.entries ≠ []) :
    Serving e.rotateMemTable.1 m := by
  unfold LSMEngine.rotateMemTable
  cases e.rotateReady with
  | error err => exact h
  | ok u =>
    have hopen : Live e.rotateOpen.1 e.immutables m :=
      h.live.frame rfl rfl rfl rfl rfl h.live.unique (Nat.le_succ _) le_rfl
    have hedit := hopen.applyMark (logNumberEdit_unchecked (e.nextFileID + 1))
      (fun v => recoverEdit_logNumberEdit v _) (fun _ => rfl) .ok
    have hswap := hedit.rotateSwap (e.nextFileID + 1)
    have hnumbers : ((e.rotateOpen.1.rotateEdit (e.nextFileID + 1)).rotateSwap
        (e.nextFileID + 1)).logNumbers = e.logNumbers ++ [e.nextFileID + 1] := by
      unfold LSMEngine.logNumbers LSMEngine.rotateSwap
      rw [List.map_append]
      rfl
    refine ⟨hswap, ?_, fun i hi => ?_, ?_, ?_⟩
    · change e.flushQueue ++ [_] = e.immutables ++ [_]
      rw [h.queue]
    · rcases List.mem_append.1 hi with hi | hi
      · exact h.nonempty i hi
      · rw [List.mem_singleton.1 hi]
        exact hne
    · change (((e.rotateOpen.1.rotateEdit (e.nextFileID + 1)).rotateSwap
        (e.nextFileID + 1)).logNumbers).Nodup
      rw [hnumbers, List.nodup_append]
      refine ⟨h.logs, List.nodup_singleton _, fun a ha b hb => ?_⟩
      have := h.log_ids a ha
      rw [List.mem_singleton.1 hb]
      omega
    · change ∀ n ∈ ((e.rotateOpen.1.rotateEdit (e.nextFileID + 1)).rotateSwap
        (e.nextFileID + 1)).logNumbers, n ≤ e.nextFileID + 1
      rw [hnumbers]
      intro n hn
      rcases List.mem_append.1 hn with hn | hn
      · exact (h.log_ids n hn).trans (Nat.le_succ _)
      · exact (List.mem_singleton.1 hn).le

theorem Serving.submit (h : Serving e m) {op : WriteOp} (hop : op.Nonempty)
    (hstall : e.stalls op = false) :
    Serving (e.submit op).1 (applyUpdates (e.acked (.plain (.write op))) m) := by
  refine submit_preserves hop hstall (fun s hs => ?_) (fun ws logs buf hcons hok _ => ?_)
    (fun e₁ m₁ h₁ hne => h₁.rotate hne)
  · exact ⟨h.live.frame rfl rfl rfl rfl rfl h.live.unique le_rfl hs, h.queue, h.nonempty, h.logs,
      h.log_ids⟩
  · exact ⟨h.live.write hcons hok logs buf, h.queue, h.nonempty, h.logs, h.log_ids⟩

/-- Newer memtables hold all keys of the memtable. -/
def LSMEngine.Superseded (e : LSMEngine) (imm : ImmutableMemtable)
    (newer : List ImmutableMemtable) : Prop :=
  ∀ x ∈ imm.table.entries, ∃ t ∈ e.memTable :: newer.map ImmutableMemtable.table,
    t.get x.key.userKey ≠ none

instance (e : LSMEngine) (imm : ImmutableMemtable) (newer : List ImmutableMemtable) :
    Decidable (e.Superseded imm newer) :=
  inferInstanceAs (Decidable (∀ x ∈ imm.table.entries,
    ∃ t ∈ e.memTable :: newer.map ImmutableMemtable.table, t.get x.key.userKey ≠ none))

theorem LSMEngine.Superseded.holds (h : e.Superseded imm rest) (x : Entry)
    (hx : x ∈ imm.table.versions) : Holds (union (memStack rest e.memTable)) x.key.userKey := by
  obtain ⟨t, ht, hget⟩ := h x hx
  have hans := t.get_answers x.key.userKey
  have hheld : Holds t.versions x.key.userKey := by
    cases hg : t.get x.key.userKey with
    | none => exact absurd hg hget
    | some r =>
      rw [hg] at hans
      obtain ⟨y, hy, -⟩ := hans
      exact hy.holds
  refine hheld.mono (fun y hy => mem_union_memStack.2 ?_)
  rcases List.mem_cons.1 ht with rfl | ht
  · exact Or.inl hy
  · obtain ⟨i, hi, rfl⟩ := List.mem_map.1 ht
    exact Or.inr ⟨i, hi, hy⟩

theorem Serving.pop (h : Serving e m) (himms : e.immutables = imm :: rest)
    (hlive : Live e' rest m) (hi : e'.immutables = rest) (hq : e'.flushQueue = rest)
    (hl : e'.logNumber = e.logNumber) (hn : e.nextFileID ≤ e'.nextFileID) : Serving e' m := by
  have hsub : e'.logNumbers.Sublist e.logNumbers := by
    unfold LSMEngine.logNumbers
    rw [hi, hl, himms, List.map_cons, List.cons_append]
    exact List.sublist_cons_self _ _
  refine ⟨by rw [hi]; exact hlive, by rw [hi, hq], fun i hi' => h.nonempty i ?_,
    h.logs.sublist hsub, fun n hn' => (h.log_ids n (hsub.subset hn')).trans hn⟩
  rw [hi] at hi'
  rw [himms]
  exact List.mem_cons_of_mem imm hi'

/-- **A round of the flush worker.** -/
theorem Serving.flushNext (h : Serving e m)
    (hroom : e.flushQueue ≠ [] → e.tc.entries.length < e.tc.cap)
    (hsup : ∀ imm rest, e.flushQueue = imm :: rest → o.fault ≠ none → e.Superseded imm rest) :
    Serving (e.flushNext o) m := by
  cases hq : e.flushQueue with
  | nil =>
    unfold LSMEngine.flushNext
    rw [hq]
    exact h
  | cons imm rest =>
    have himms : e.immutables = imm :: rest := h.queue.symm.trans hq
    have hroom := hroom (by rw [hq]; exact List.cons_ne_nil _ _)
    have hne : imm.table.entries ≠ [] := h.nonempty imm (by rw [himms]; exact List.mem_cons_self)
    have hlogs : ((imm :: rest).map (fun i => i.logNumber)).Nodup := by
      rw [← himms]
      exact (List.nodup_append.1 h.logs).1
    cases hfault : o.fault with
    | none =>
      have hlive : Live { e with flushQueue := rest } (imm :: rest) m := by
        rw [← himms]
        exact h.live.frame rfl rfl rfl rfl rfl h.live.unique le_rfl le_rfl
      have hb := (hlive.flushBuild
        (fun x hx => mem_union_memStack.2 (Or.inr ⟨imm, List.mem_cons_self, hx⟩)) hne).2
      obtain ⟨f0, -, f2, f3, -, -, -, f7, f8⟩ := flushNext_ok hq himms hlogs hne hb hfault
      refine h.pop himms ?_ f2 f3 f7 (by rw [f8]; exact Nat.le_succ _)
      rw [f0]
      exact (hlive.flush hne hroom hfault).2
    | some fault =>
      obtain ⟨edits, hbooks⟩ := h.live.books
      obtain ⟨e₁, hleft, -, heq⟩ := flushNext_failed hq himms hlogs hne hfault hbooks.file_ids
        hbooks.reader_ids h.live.unique hroom
      have hlive := h.live
      rw [himms] at hlive
      have hdrop := hlive.flush_failed hleft (hsup imm rest hq (by rw [hfault]; simp)).holds
      rw [heq]
      refine h.pop himms (hdrop.frame rfl rfl rfl rfl rfl hdrop.unique le_rfl le_rfl) rfl rfl ?_ ?_
      · change e₁.logNumber = e.logNumber
        rw [hleft.eq]
      · change e.nextFileID ≤ e₁.nextFileID
        rw [hleft.eq]
        exact Nat.le_succ _

/-- There is a slot for the table of the oldest queued memtable, and if its flush fails newer
memtables hold all its keys. -/
def LSMEngine.KeepsFlush (e : LSMEngine) (o : FlushOutcome) : List ImmutableMemtable → Prop
  | [] => True
  | imm :: rest => e.tc.entries.length < e.tc.cap ∧ (o.fault ≠ none → e.Superseded imm rest)

instance (e : LSMEngine) (o : FlushOutcome) : (queue : List ImmutableMemtable) →
    Decidable (e.KeepsFlush o queue)
  | [] => isTrue trivial
  | _ :: _ => inferInstanceAs (Decidable (_ ∧ _))

/-- The conditions on a step: keys and values are not empty and no write stalls; registering a table
does not exceed `MaxOpenFiles`; when a flush fails, newer memtables hold all keys of its memtable;
the engine is not closed. -/
def LSMEngine.KeepsReads (e : LSMEngine) : WorkerEvent → Prop
  | .plain (.write op) => op.Nonempty ∧ e.stalls op = false
  | .plain (.restart _ _) => False
  | .plain ev => e.Room ev
  | .flush o => e.KeepsFlush o e.flushQueue

instance (e : LSMEngine) : (ev : WorkerEvent) → Decidable (e.KeepsReads ev)
  | .plain (.write op) => inferInstanceAs (Decidable (op.Nonempty ∧ _))
  | .plain (.restart _ _) => isFalse id
  | .plain (.get key) => inferInstanceAs (Decidable (e.Room (.get key)))
  | .plain (.scan start stop limit) => inferInstanceAs (Decidable (e.Room (.scan start stop limit)))
  | .plain .rotate => inferInstanceAs (Decidable (e.Room .rotate))
  | .plain .flush => inferInstanceAs (Decidable (e.Room .flush))
  | .plain (.compact level) => inferInstanceAs (Decidable (e.Room (.compact level)))
  | .flush o => inferInstanceAs (Decidable (e.KeepsFlush o e.flushQueue))

/-- **One step of a run.** -/
theorem Serving.step (h : Serving e m) {ev : WorkerEvent} (hok : e.KeepsReads ev) :
    ∃ e', e.workerStep ev = .ok e' ∧ Serving e' (applyUpdates (e.acked ev) m) := by
  cases ev with
  | flush o =>
    refine ⟨_, rfl, h.flushNext (fun hq => ?_) (fun imm rest hq hfault => ?_)⟩
    · change e.KeepsFlush o e.flushQueue at hok
      cases hcase : e.flushQueue with
      | nil => exact absurd hcase hq
      | cons imm rest =>
        rw [hcase] at hok
        exact hok.1
    · change e.KeepsFlush o e.flushQueue at hok
      rw [hq] at hok
      exact hok.2 hfault
  | plain ev =>
    cases ev with
    | write op => exact ⟨_, rfl, h.submit hok.1 hok.2⟩
    | get key =>
      have hr := readOnly_get e key
      refine ⟨_, rfl, ?_⟩
      have hlive := h.live.readOnly hr
      rw [hr.eq] at hlive ⊢
      exact ⟨hlive, h.queue, h.nonempty, h.logs, h.log_ids⟩
    | scan start stop limit =>
      have hr := readOnly_scan e start stop limit
      refine ⟨_, rfl, ?_⟩
      have hlive := h.live.readOnly hr
      rw [hr.eq] at hlive ⊢
      exact ⟨hlive, h.queue, h.nonempty, h.logs, h.log_ids⟩
    | rotate =>
      refine ⟨_, rfl, ?_⟩
      split_ifs with hsize
      · exact h.rotate (e.memTable.nonempty hsize)
      · exact h
    | flush => exact ⟨_, rfl, h.flushNext hok (fun _ _ _ hc => absurd rfl hc)⟩
    | compact level =>
      refine ⟨_, rfl, ?_⟩
      obtain ⟨hlive, dir, tc, current, n, hn, heq⟩ := h.live.compactLevel hok (fun _ => .ok)
      rw [heq] at hlive ⊢
      exact ⟨hlive, h.queue, h.nonempty, h.logs, fun k hk => (h.log_ids k hk).trans hn⟩
    | restart cfg closed => exact hok.elim

theorem serving_open {cfg : Config} {d : DataDir} (hdisk : DiskInv d cfg.maxLevel m)
    (hroom : OpenRoom cfg.withDefaults d) : ∃ e, openEngine cfg d = .ok e ∧ Serving e m := by
  obtain ⟨e, hopen, -, hgood⟩ :=
    @DiskInv.open_good m { cfg with syncWAL := true } d hdisk rfl hroom
  have hsync := openEngine_syncWAL { cfg with syncWAL := true } d cfg.syncWAL
  rw [hopen] at hsync
  refine ⟨setSync cfg.syncWAL e, hsync, ?_⟩
  have hlive := hgood.inv.live
  obtain ⟨edits, h1, h2, h3, h4, h5⟩ := hlive.books
  have howned := hgood.inv.owned.nodup
  have hids := hgood.inv.owner_ids
  have hnumbers : (memOwners e.immutables e.memTable e.logNumber).map Prod.fst = e.logNumbers := by
    simp [memOwners, LSMEngine.logNumbers, List.map_map, Function.comp_def]
  refine ⟨⟨?_, ⟨edits, h1, h2, h3, h4, h5⟩, hlive.seq_le⟩, hgood.queue, hgood.nonempty, ?_, ?_⟩
  · exact hlive.layered
  · change e.logNumbers.Nodup
    rw [← hnumbers]
    exact howned
  · change ∀ n ∈ e.logNumbers, n ≤ e.nextFileID
    rw [← hnumbers]
    intro n hn
    obtain ⟨o, ho, rfl⟩ := List.mem_map.1 hn
    exact hids o ho

/-- **Reads in a poisoned engine.** In every run on a directory for a map whose steps meet the
conditions, with any flushes failing, `Get` returns the last acknowledged write of the key, and what
the map had if there is none. -/
theorem poisoned_reads {cfg : Config} {d : DataDir} {evs : List WorkerEvent}
    (hdisk : DiskInv d cfg.maxLevel m) (hroom : OpenRoom cfg.withDefaults d)
    (hok : ∀ e, openEngine cfg d = .ok e → e.WorkerAlong LSMEngine.KeepsReads evs) :
    ∃ e₀ e, openEngine cfg d = .ok e₀ ∧ e₀.workerRun evs = .ok e ∧
      ∀ k, (e.get k).1 = lookupResult (applyUpdates (e₀.ackedRun evs) m k) := by
  obtain ⟨e₀, hopen, h₀⟩ := serving_open hdisk hroom
  obtain ⟨e, hrun, h⟩ := (hok e₀ hopen).invariant Serving h₀ (fun _ _ _ h hok => h.step hok)
  exact ⟨e₀, e, hopen, hrun, h.live.readable.get⟩

/-- The flush of an overwritten value fails, that of the new value succeeds. -/
def overwrittenRun : List WorkerEvent :=
  [.plain (.write (.put [1] [10])), .plain .rotate, .plain (.write (.put [1] [11])), .plain .rotate,
    .flush { fault := some (.apply .whole) }, .plain (.get [1]), .plain .flush,
    .plain (.write (.put [2] [20])), .plain (.compact 0)]

theorem overwrittenRun_reads : ∃ e₀ e, openEngine {} {} = .ok e₀ ∧
    e₀.workerRun overwrittenRun = .ok e ∧
    ∀ k, (e.get k).1 = lookupResult (applyUpdates (e₀.ackedRun overwrittenRun) (fun _ => none) k) :=
  poisoned_reads (diskInv_empty (by decide)) (by decide +kernel) (by decide +kernel)

/-- The flush of the only memtable that holds a key fails. -/
def failedFlush : List WorkerEvent :=
  [.plain (.write (.put [1] [10])), .plain .rotate, .flush { fault := some .build }]

/-- **The failed flush takes the acknowledged write out of sight.** -/
theorem failedFlush_hides : ∃ e₀, openEngine {} {} = .ok e₀ ∧
    e₀.ackedRun failedFlush = [([1], some [10])] ∧
    ∃ e, e₀.workerRun failedFlush = .ok e ∧ (e.get [1]).1 = .error .notFound := by
  decide +kernel

end LsmTree
