import LsmTree.Correct.Durable

/-!
# The invariant of a running engine

`Inv` ties together the layers in memory, the directory, and the logs with their memtables.  It
speaks about a memtable `mem` and a list of immutable ones that may run ahead of the engine's own:
a write that is already logged counts as written.  Each step of the engine keeps it.
-/

namespace LsmTree

open Versioned

variable {maxLevel n : ℕ} {t : SSTableMeta} {d : DataDir} {ws : List WALEntry} {edit : VersionEdit}
  {es : List Entry} {S : Set Entry}

/-- The layers of some memtables, newest first; the immutable ones are given oldest first. -/
def memStack (imms : List ImmutableMemtable) (mem : MemTable) : List (Set Entry) :=
  mem.versions :: imms.reverse.map (fun i => i.table.versions)

theorem memStack_cons {imm : ImmutableMemtable} {imms : List ImmutableMemtable} {mem : MemTable} :
    memStack (imm :: imms) mem = memStack imms mem ++ [imm.table.versions] := by
  simp [memStack]

theorem memStack_rotated (imms : List ImmutableMemtable) (t : MemTable) (n : ℕ) (size : ℤ) :
    memStack (imms ++ [⟨t, n⟩]) (newMemTable size) = ∅ :: memStack imms t := by
  simp [memStack]

def memOwners (imms : List ImmutableMemtable) (mem : MemTable) (logNumber : ℕ) :
    List (ℕ × Set Entry) :=
  imms.map (fun i => (i.logNumber, i.table.versions)) ++ [(logNumber, mem.versions)]

theorem memLayers_eq (e : LSMEngine) : e.memLayers = memStack e.immutables e.memTable := by
  simp [LSMEngine.memLayers, LSMEngine.mems, memStack]

/-- The bookkeeping: the version in memory is that of the manifest file, the numbers in use are
below the counter, and each listed table has its reader. -/
structure Books (e : LSMEngine) : Prop where
  version : e.current = e.dir.version
  file_ids : ∀ id, e.files id ≠ none → id ≤ e.nextFileID
  reader_ids : ∀ id, e.tc.readerOf id ≠ none → id ≤ e.nextFileID
  unique : e.tc.Unique
  readers : ∀ i, ∀ t ∈ e.current.levels i, e.tc.readerOf t.fileID = e.files t.fileID

structure Inv (e : LSMEngine) (mem : MemTable) (imms : List ImmutableMemtable)
    (m : Bytes → Option Bytes) : Prop where
  layered : Layered (memStack imms mem) e.current e.files e.cfg.maxLevel m
  disk : DiskInv e.dir e.cfg.maxLevel m
  owned : Owned e.dir (memOwners imms mem e.logNumber)
  books : Books e
  owner_ids : ∀ o ∈ memOwners imms mem e.logNumber, o.1 ≤ e.nextFileID
  seq_le : ∀ x ∈ walSet e.dir ∪ tableVersions e.current e.files, x.key.seqNo ≤ e.seqNo
  sync : e.cfg.syncWAL = true
  walBuf : e.walBuf = []

variable {e e' : LSMEngine} {mem : MemTable} {imms : List ImmutableMemtable}
  {m : Bytes → Option Bytes}

theorem Config.maxLevel_pos (c : Config) : 0 < c.maxLevel := by
  unfold Config.maxLevel LsmTree.maxLevels
  split_ifs with h
  · omega
  · decide

theorem Books.listed_le (h : Books e) (ht : TablesOk e.current e.files maxLevel) {i : ℕ}
    (hm : t ∈ e.current.levels i) : t.fileID ≤ e.nextFileID := by
  obtain ⟨f, hf, -⟩ := ht.table hm
  exact h.file_ids t.fileID (by rw [hf]; exact Option.some_ne_none f)

theorem Inv.frame (h : Inv e mem imms m) (hcfg : e'.cfg = e.cfg) (hdir : e'.dir = e.dir)
    (hcur : e'.current = e.current) (hlog : e'.logNumber = e.logNumber) (hseq : e'.seqNo = e.seqNo)
    (htc : e'.tc = e.tc) (hid : e'.nextFileID = e.nextFileID) (hbuf : e'.walBuf = e.walBuf) :
    Inv e' mem imms m := by
  have hfiles : e'.files = e.files := by unfold LSMEngine.files; rw [hdir]
  obtain ⟨h1, h2, h3, ⟨h4, h5, h6, h7, h8⟩, h9, h10, h11, h12⟩ := h
  exact ⟨by rw [hcur, hfiles, hcfg]; exact h1, by rw [hdir, hcfg]; exact h2,
    by rw [hdir, hlog]; exact h3,
    ⟨by rw [hcur, hdir]; exact h4, by rw [hfiles, hid]; exact h5, by rw [htc, hid]; exact h6,
      by rw [htc]; exact h7, by rw [hcur, htc, hfiles]; exact h8⟩,
    by rw [hlog, hid]; exact h9, by rw [hdir, hcur, hfiles, hseq]; exact h10,
    by rw [hcfg]; exact h11, by rw [hbuf]; exact h12⟩

theorem mem_union_memStack {x : Entry} : x ∈ union (memStack imms mem) ↔
    x ∈ mem.versions ∨ ∃ i ∈ imms, x ∈ i.table.versions := by
  unfold memStack
  rw [union_cons]
  simp only [Set.mem_union, union, List.mem_map, List.mem_reverse, Set.mem_ofPred_eq]
  constructor
  · rintro (h | ⟨A, ⟨i, hi, rfl⟩, hx⟩)
    · exact Or.inl h
    · exact Or.inr ⟨i, hi, hx⟩
  · rintro (h | ⟨i, hi, hx⟩)
    · exact Or.inl h
    · exact Or.inr ⟨_, ⟨i, hi, rfl⟩, hx⟩

theorem Owned.memStack_subset (h : Owned d (memOwners imms mem n)) :
    union (memStack imms mem) ⊆ walSet d := by
  intro x hx
  rcases mem_union_memStack.1 hx with hx | ⟨i, hi, hx⟩
  · exact ⟨n, h.sub (n, mem.versions) (by simp [memOwners]) hx⟩
  · exact ⟨i.logNumber, h.sub (i.logNumber, i.table.versions)
      (List.mem_append_left _ (List.mem_map_of_mem (f := fun i : ImmutableMemtable =>
        (i.logNumber, i.table.versions)) hi)) hx⟩

theorem Inv.readable_of (h : Inv e mem imms m)
    (hlay : Layered (memStack e.immutables e.memTable) e.current e.files e.cfg.maxLevel m)
    (hsub : union (memStack e.immutables e.memTable) ⊆ union (memStack imms mem)) :
    Readable e m := by
  refine ⟨by rw [memLayers_eq]; exact hlay, h.books.readers, fun x hx => ?_⟩
  rw [LSMEngine.layers, union_append,
    h.layered.tables.shape.union_levelLayers h.layered.maxLevel_le,
    memLayers_eq] at hx
  exact h.seq_le x (hx.imp_left (fun hx => h.owned.memStack_subset (hsub hx)))

theorem Inv.readable (h : Inv e e.memTable e.immutables m) : Readable e m :=
  h.readable_of h.layered (fun _ hx => hx)

/-! ### Reads -/

theorem Inv.setTc (h : Inv e mem imms m) {tc : TableCache} (hr : tc.readerOf = e.tc.readerOf)
    (hu : tc.Unique) : Inv { e with tc := tc } mem imms m := by
  obtain ⟨h1, h2, h3, ⟨h4, h5, h6, h7, h8⟩, h9, h10, h11, h12⟩ := h
  exact ⟨h1, h2, h3, ⟨h4, h5, by rw [hr]; exact h6, hu, by rw [hr]; exact h8⟩, h9, h10, h11, h12⟩

/-! ### Writes -/

theorem Consecutive.seqNo_gt {s : ℕ} (h : Consecutive s ws) {w : WALEntry} (hw : w ∈ ws) :
    s < w.seqNo ∧ w.seqNo ≤ s + ws.length := by
  have : w.seqNo ∈ List.range' (s + 1) ws.length := h ▸ List.mem_map_of_mem hw
  rw [List.mem_range'_1] at this
  omega

theorem Consecutive.pairwise {s : ℕ} (h : Consecutive s ws) :
    (ws.map WALEntry.toEntry).Pairwise (fun a b => a.key.seqNo < b.key.seqNo) := by
  have : (ws.map WALEntry.seqNo).Pairwise (· < ·) := h ▸ List.pairwise_lt_range'
  rw [List.pairwise_map] at this ⊢
  exact this.imp (fun hab => by simpa using hab)

theorem walVersions_eq (ws : List WALEntry) :
    walVersions ws = {e | e ∈ ws.map WALEntry.toEntry} := by
  ext x
  simp [walVersions]

theorem Layered.replay {v : Version} {files : ℕ → Option SSTable} {s : ℕ}
    (h : Layered (memStack imms mem) v files maxLevel m) (hws : Consecutive s ws)
    (hok : ∀ w ∈ ws, w.toEntry.Ok)
    (hle : ∀ x ∈ union (memStack imms mem) ∪ tableVersions v files, x.key.seqNo ≤ s) :
    Layered (memStack imms (mem.replay ws)) v files maxLevel
        (overlay (ws.map WALEntry.toEntry) m) ∧
      (mem.replay ws).versions = mem.versions ∪ walVersions ws := by
  have hlay := h.write (List.forall_mem_map.2 hok) hws.pairwise (fun x hx y hy => by
    obtain ⟨w, hw, rfl⟩ := List.mem_map.1 hy
    rw [WALEntry.toEntry_seqNo]
    rw [union_append, h.tables.shape.union_levelLayers h.maxLevel_le] at hx
    exact (hle x hx).trans_lt (hws.seqNo_gt hw).1)
  have hmem : (mem.replay ws).versions = mem.versions ∪ walVersions ws := by
    refine MemTable.versions_replay ?_
    rw [walVersions_eq]
    exact hlay.agrees.mono (fun x hx => ⟨_, List.mem_cons_self, hx⟩)
  refine ⟨?_, hmem⟩
  unfold memStack
  rw [hmem, walVersions_eq]
  exact hlay

/-- **Logging a write.** Its entries are in the log, and count as written. -/
theorem Inv.logWrite (h : Inv e mem imms m) (hws : Consecutive e.seqNo ws)
    (hok : ∀ w ∈ ws, w.toEntry.Ok) :
    Inv (({ e with seqNo := e.seqNo + ws.length } : LSMEngine).logWrite ws) (mem.replay ws) imms
      (overlay (ws.map WALEntry.toEntry) m) := by
  have hlog : ({ e with seqNo := e.seqNo + ws.length } : LSMEngine).logWrite ws =
      { e with seqNo := e.seqNo + ws.length, walBuf := []
               dir := e.dir.exec (.appendLog e.logNumber [ws]) } := by
    unfold LSMEngine.logWrite
    rw [if_pos h.sync]
    simp [LSMEngine.exec, h.walBuf]
  have hnew : ∀ x ∈ walSet e.dir ∪ tableVersions e.current e.files,
      ∀ y ∈ ws.map WALEntry.toEntry, x.key.seqNo < y.key.seqNo := by
    intro x hx y hy
    obtain ⟨w, hw, rfl⟩ := List.mem_map.1 hy
    rw [WALEntry.toEntry_seqNo]
    exact (h.seq_le x hx).trans_lt (hws.seqNo_gt hw).1
  obtain ⟨hlay, hmem⟩ := h.layered.replay hws hok
    (fun x hx => h.seq_le x (hx.imp_left (fun hx => h.owned.memStack_subset hx)))
  have hwal : walSet (e.dir.exec (.appendLog e.logNumber [ws])) =
      walSet e.dir ∪ {x | x ∈ ws.map WALEntry.toEntry} := by
    rw [walSet_exec_appendLog, ← walVersions_eq]
    simp [recoverWAL]
  have howners : memOwners imms (mem.replay ws) e.logNumber =
      imms.map (fun i => (i.logNumber, i.table.versions)) ++
        [(e.logNumber, mem.versions ∪ walVersions ws)] := by
    rw [memOwners, hmem]
  rw [hlog]
  refine ⟨hlay, ?_, ?_, ⟨h.books.version, h.books.file_ids, h.books.reader_ids, h.books.unique,
    h.books.readers⟩, ?_, ?_, h.sync, rfl⟩
  · refine h.disk.write (List.forall_mem_map.2 hok) hws.pairwise (fun x hx => ?_) hwal rfl rfl
    rw [← h.books.version] at hx
    exact hnew x hx
  · rw [howners]
    exact h.owned.append (fun x hx w hw => (h.seq_le x (Or.inl hx)).trans_lt (hws.seqNo_gt hw).1)
  · intro o ho
    rw [howners] at ho
    rcases List.mem_append.1 ho with ho | ho
    · exact h.owner_ids o (List.mem_append_left _ ho)
    · rw [List.mem_singleton.1 ho]
      exact h.owner_ids (e.logNumber, mem.versions) (by simp [memOwners])
  · rintro x (hx | hx)
    · rw [hwal] at hx
      rcases hx with hx | hx
      · exact (h.seq_le x (Or.inl hx)).trans (Nat.le_add_right _ _)
      · obtain ⟨w, hw, rfl⟩ := List.mem_map.1 hx
        rw [WALEntry.toEntry_seqNo]
        exact (hws.seqNo_gt hw).2
    · exact (h.seq_le x (Or.inr hx)).trans (Nat.le_add_right _ _)

/-! ### Rotation -/

theorem logSet_appendLog_nil (d : DataDir) (n id : ℕ) :
    logSet (d.exec (.appendLog n [])) id = logSet d id := by
  rw [logSet_exec_appendLog]
  split_ifs with hid
  · rw [hid]
    simp [recoverWAL]
  · rfl

theorem walSet_appendLog_nil (d : DataDir) (n : ℕ) :
    walSet (d.exec (.appendLog n [])) = walSet d := by
  unfold walSet
  simp only [logSet_appendLog_nil]

theorem DiskInv.touch (h : DiskInv d maxLevel m) (n : ℕ) :
    DiskInv (d.exec (.appendLog n [])) maxLevel m :=
  h.congr (walSet_appendLog_nil d n) rfl le_rfl (fun _ _ _ => rfl)

theorem Inv.touchLog (h : Inv e mem imms m) (n : ℕ) :
    Inv (e.exec (.appendLog n [])) mem imms m := by
  refine ⟨h.layered, ?_, h.owned.congr (logSet_appendLog_nil e.dir n),
    ⟨h.books.version, h.books.file_ids, h.books.reader_ids, h.books.unique, h.books.readers⟩,
    h.owner_ids, ?_, h.sync, h.walBuf⟩
  · exact h.disk.touch n
  · change ∀ x ∈ walSet (e.dir.exec (.appendLog n [])) ∪ _, _
    rw [walSet_appendLog_nil]
    exact h.seq_le

theorem Inv.newFileID (h : Inv e mem imms m) : Inv e.newFileID.1 mem imms m := by
  obtain ⟨h1, h2, h3, ⟨h4, h5, h6, h7, h8⟩, h9, h10, h11, h12⟩ := h
  exact ⟨h1, h2, h3, ⟨h4, fun id hid => (h5 id hid).trans (Nat.le_succ _),
    fun id hid => (h6 id hid).trans (Nat.le_succ _), h7, h8⟩,
    fun o ho => (h9 o ho).trans (Nat.le_succ _), h10, h11, h12⟩

theorem Inv.rotateOpen (h : Inv e mem imms m) : Inv e.rotateOpen.1 mem imms m :=
  h.newFileID.touchLog _

theorem Books.applyMark (h : Books e) (hu : edit.Unchecked)
    (hreplay : ∀ v : Version, v.recoverEdit edit.persisted = v.applyEdit edit)
    (hl : ∀ v : Version, (v.applyEdit edit).levels = v.levels) : Books (e.apply edit .ok).1 := by
  rw [apply_ok hu]
  refine ⟨?_, h.file_ids, h.reader_ids, h.unique, ?_⟩
  · change e.current.applyEdit edit = recoverVersion (e.dir.edits ++ [edit.persisted])
    rw [recoverVersion_append, hreplay, h.version]
    rfl
  · change ∀ i, ∀ t ∈ (e.current.applyEdit edit).levels i, _
    rw [hl e.current]
    exact h.readers

theorem Inv.applyMark (h : Inv e mem imms m) (hu : edit.Unchecked)
    (hreplay : ∀ v : Version, v.recoverEdit edit.persisted = v.applyEdit edit)
    (hl : ∀ v : Version, (v.applyEdit edit).levels = v.levels)
    (hs : ∀ v : Version, v.maxSeqNo ≤ (v.applyEdit edit).maxSeqNo) :
    Inv (e.apply edit .ok).1 mem imms m := by
  have hv : recoverVersion (e.dir.edits ++ [edit.persisted]) =
      (recoverVersion e.dir.edits).applyEdit edit := by
    rw [recoverVersion_append, hreplay]
  have hbooks := h.books.applyMark hu hreplay hl
  rw [apply_ok hu] at hbooks ⊢
  have hcur : (e.current.applyEdit edit).levels = e.current.levels := hl e.current
  refine ⟨h.layered.congr hcur (fun _ _ _ => rfl), ?_, h.owned.congr (fun _ => rfl), hbooks,
    h.owner_ids, ?_, h.sync, h.walBuf⟩
  · refine h.disk.congr rfl ?_ ?_ (fun _ _ _ => rfl)
    · change (recoverVersion _).levels = (recoverVersion _).levels
      rw [hv, hl]
    · change (recoverVersion _).maxSeqNo ≤ (recoverVersion _).maxSeqNo
      rw [hv]
      exact hs _
  · change ∀ x ∈ walSet e.dir ∪ tableVersions (e.current.applyEdit edit) e.files, _
    rw [tableVersions_congr hcur (fun _ _ _ => rfl)]
    exact h.seq_le

theorem logNumberEdit_unchecked (n : ℕ) : (logNumberEdit n).Unchecked := fun hc => by cases hc

theorem maxSeqNoEdit_unchecked (n : ℕ) : (maxSeqNoEdit n).Unchecked := fun hc => by cases hc

theorem Inv.logNumberEdit (h : Inv e mem imms m) (n : ℕ) :
    Inv (e.apply (logNumberEdit n) .ok).1 mem imms m :=
  h.applyMark (logNumberEdit_unchecked n) (fun v => recoverEdit_logNumberEdit v n) (fun _ => rfl)
    (fun _ => le_rfl)

theorem Inv.maxSeqNoEdit (h : Inv e mem imms m) (n : ℕ) :
    Inv (e.apply (maxSeqNoEdit n) .ok).1 mem imms m :=
  h.applyMark (maxSeqNoEdit_unchecked n) (fun v => recoverEdit_maxSeqNoEdit v n) (fun _ => rfl)
    (fun _ => le_max_left _ _)

/-- **Swapping the memtable.** The next log is new, so it belongs to the new memtable. -/
theorem Inv.rotateSwap (h : Inv e mem imms m) (hn : n ≤ e.nextFileID)
    (hfresh : n ∉ (memOwners imms mem e.logNumber).map Prod.fst) :
    Inv (e.rotateSwap n) (newMemTable e.cfg.memTableSize) (imms ++ [⟨mem, e.logNumber⟩]) m := by
  have howners : memOwners (imms ++ [⟨mem, e.logNumber⟩]) (newMemTable e.cfg.memTableSize) n =
      memOwners imms mem e.logNumber ++ [(n, ∅)] := by
    simp [memOwners]
  have hstack := memStack_rotated imms mem e.logNumber e.cfg.memTableSize
  have hdir : (e.rotateSwap n).dir = e.dir.exec (.appendLog e.logNumber []) := by
    unfold LSMEngine.rotateSwap
    rw [h.walBuf]
    rfl
  obtain ⟨h1, h2, h3, ⟨h4, h5, h6, h7, h8⟩, -, h10, h11, -⟩ := h.touchLog e.logNumber
  have hbooks : Books (e.rotateSwap n) := by
    refine ⟨?_, ?_, h6, h7, ?_⟩
    · rw [hdir]; exact h4
    · unfold LSMEngine.files; rw [hdir]; exact h5
    · unfold LSMEngine.files; rw [hdir]; exact h8
  refine ⟨?_, by rw [hdir]; exact h2, ?_, hbooks, ?_, ?_, h11, rfl⟩
  · rw [hstack]
    unfold LSMEngine.files
    rw [hdir]
    exact @Layered.insert_empty [] _ _ _ _ _ h1
  · rw [hdir]
    change Owned _ (memOwners _ _ n)
    rw [howners]
    exact h3.fresh hfresh
  · intro o ho
    change o ∈ memOwners _ _ n at ho
    rw [howners] at ho
    rcases List.mem_append.1 ho with ho | ho
    · exact h.owner_ids o ho
    · rw [List.mem_singleton.1 ho]
      exact hn
  · unfold LSMEngine.files
    rw [hdir]
    exact h10

theorem Inv.rotateMemTable_over {pre : List ImmutableMemtable}
    (h : Inv e e.memTable (pre ++ e.immutables) m) :
    Inv e.rotateMemTable.1 e.rotateMemTable.1.memTable
      (pre ++ e.rotateMemTable.1.immutables) m := by
  unfold LSMEngine.rotateMemTable
  cases e.rotateReady with
  | error err => exact h
  | ok u =>
    have hswap : Inv ((e.rotateOpen.1.rotateEdit (e.nextFileID + 1)).rotateSwap (e.nextFileID + 1))
        (newMemTable e.cfg.memTableSize)
        ((pre ++ e.immutables) ++ [⟨e.memTable, e.logNumber⟩]) m := by
      refine (h.rotateOpen.logNumberEdit (e.nextFileID + 1)).rotateSwap ?_ ?_
      · rw [apply_ok (logNumberEdit_unchecked _)]
        exact le_rfl
      · intro hc
        obtain ⟨o, ho, hid⟩ := List.mem_map.1 hc
        rw [apply_ok (logNumberEdit_unchecked _)] at ho
        have hid : o.1 = e.nextFileID + 1 := hid
        have := h.owner_ids o ho
        omega
    rw [List.append_assoc] at hswap
    exact hswap

/-- **A rotation as a whole.** -/
theorem Inv.rotateMemTable (h : Inv e e.memTable e.immutables m) :
    Inv e.rotateMemTable.1 e.rotateMemTable.1.memTable e.rotateMemTable.1.immutables m :=
  @Inv.rotateMemTable_over e m [] h

/-! ### Flushes -/

variable {pre rest : List ImmutableMemtable} {imm : ImmutableMemtable}

theorem memStack_middle : memStack (pre ++ imm :: rest) mem =
    memStack rest mem ++ imm.table.versions :: pre.reverse.map (fun i => i.table.versions) := by
  simp [memStack]

theorem memOwners_middle : memOwners (pre ++ imm :: rest) mem n =
    pre.map (fun i => (i.logNumber, i.table.versions)) ++
      (imm.logNumber, imm.table.versions) :: memOwners rest mem n := by
  simp [memOwners]

/-- A table file that holds the versions `S` and waits to be added to level 0. -/
structure BuiltFor (e : LSMEngine) (t : SSTableMeta) (S : Set Entry) : Prop where
  file : ∃ f, e.files t.fileID = some f ∧ TableOk t f ∧ {x | x ∈ f.entries} = S
  level : t.level = 0
  created : t.createdAt = 0
  unlisted : ∀ j, ∀ x ∈ e.current.levels j, x.fileID ≠ t.fileID
  newest : ∀ x ∈ e.current.levels 0, x.fileID < t.fileID
  no_reader : e.tc.readerOf t.fileID = none
  id_le : t.fileID ≤ e.nextFileID

theorem buildTable_fields (cfg : Config) (id : ℕ) (es : List Entry) :
    (buildTable cfg id 0 es).1.fileID = id ∧ (buildTable cfg id 0 es).1.level = 0 ∧
      (buildTable cfg id 0 es).1.createdAt = 0 := by
  obtain ⟨hid, hlevel⟩ :=
    foldl_add_fields es (newSSTableBuilder id 0 cfg.blockSize cfg.bloomBitsPerKey)
  exact ⟨(finish_fileID _).trans hid, (finish_level _).trans hlevel, rfl⟩

theorem foldl_newSSTableBuilder_all (cfg : Config) (id : ℕ) (es : List Entry) :
    (es.foldl SSTableBuilder.add
      (newSSTableBuilder id 0 cfg.blockSize cfg.bloomBitsPerKey)).all = es := by
  rw [foldl_add_all, newSSTableBuilder_all, List.nil_append]

theorem buildTable_entries (cfg : Config) (id : ℕ) (es : List Entry) :
    (buildTable cfg id 0 es).2.entries = es :=
  (finish_built ((newSSTableBuilder_inv id 0 cfg.blockSize cfg.bloomBitsPerKey).foldl_add
    es)).entries_eq.trans (foldl_newSSTableBuilder_all cfg id es)

theorem buildTable_shape (cfg : Config) (id : ℕ) (hs : SortedEntries es)
    (hkeys : ∀ x ∈ es, x.key.userKey ≠ []) (hne : es ≠ []) :
    TableShape (buildTable cfg id 0 es).1 (buildTable cfg id 0 es).2 := by
  have hinv := (newSSTableBuilder_inv id 0 cfg.blockSize cfg.bloomBitsPerKey).foldl_add es
  have hall := foldl_newSSTableBuilder_all cfg id es
  have hentries := buildTable_entries cfg id es
  obtain ⟨x, hx⟩ : ∃ x, es.head? = some x := by
    cases es with
    | nil => exact absurd rfl hne
    | cons x l => exact ⟨x, rfl⟩
  obtain ⟨y, hy⟩ : ∃ y, es.getLast? = some y := by
    cases hc : es.getLast? with
    | none => exact absurd (List.getLast?_eq_none_iff.1 hc) hne
    | some y => exact ⟨y, rfl⟩
  obtain ⟨h1, h2⟩ := finish_range hinv (hall.symm ▸ hx) (hall.symm ▸ hy)
  refine ⟨?_, ?_, ⟨x, ?_, h1⟩, ⟨y, ?_, h2⟩, ?_⟩
  · rw [hentries]
    have := finish_built hinv
    rw [hall] at this
    exact this
  all_goals rw [hentries]
  · exact hs
  · exact hx
  · exact hy
  · exact hkeys

theorem buildTable_ok (cfg : Config) (id : ℕ) (hs : SortedEntries es) (hok : ∀ x ∈ es, x.Ok)
    (hne : es ≠ []) :
    TableOk (buildTable cfg id 0 es).1 (buildTable cfg id 0 es).2 ∧
      (buildTable cfg id 0 es).2.entries = es ∧ (buildTable cfg id 0 es).1.fileID = id ∧
      (buildTable cfg id 0 es).1.level = 0 ∧ (buildTable cfg id 0 es).1.createdAt = 0 := by
  have hsh := buildTable_shape cfg id hs (fun x hx => (hok x hx).key) hne
  have hentries := buildTable_entries cfg id es
  exact ⟨⟨hsh.built, hsh.sorted, hsh.first, hsh.last, hentries.symm ▸ hok⟩, hentries,
    buildTable_fields cfg id es⟩

theorem flushBuild_eq (e : LSMEngine) (imm : ImmutableMemtable) :
    e.flushBuild imm = ({ e with
      nextFileID := e.nextFileID + 1
      dir := e.dir.exec (.writeTable (e.nextFileID + 1)
        (buildTable e.cfg (e.nextFileID + 1) 0 imm.table.entries).2) },
      (buildTable e.cfg (e.nextFileID + 1) 0 imm.table.entries).1) := rfl

theorem flushBuild_fields (e : LSMEngine) (imm : ImmutableMemtable) :
    (e.flushBuild imm).2.fileID = e.nextFileID + 1 ∧ (e.flushBuild imm).2.level = 0 ∧
      (e.flushBuild imm).2.createdAt = 0 :=
  buildTable_fields e.cfg (e.nextFileID + 1) imm.table.entries

theorem register_flushBuild (e : LSMEngine) (imm : ImmutableMemtable) :
    (e.flushBuild imm).1.register (e.flushBuild imm).2.fileID =
      { (e.flushBuild imm).1 with
        tc := e.tc.register (e.nextFileID + 1)
          (buildTable e.cfg (e.nextFileID + 1) 0 imm.table.entries).2 } := by
  have hfile : (e.flushBuild imm).1.dir.ssts.lookup (e.nextFileID + 1) =
      some (buildTable e.cfg (e.nextFileID + 1) 0 imm.table.entries).2 :=
    (exec_writeTable_ssts _ _ _ _).trans (if_pos rfl)
  unfold LSMEngine.register
  rw [(flushBuild_fields e imm).1, hfile]
  rfl

theorem exec_newFile (hlisted : ∀ i, ∀ x ∈ e.current.levels i, x.fileID ≤ e.nextFileID)
    (t : SSTable)
    (i : ℕ) (x : SSTableMeta) (hx : x ∈ e.current.levels i) :
    (e.dir.exec (.writeTable (e.nextFileID + 1) t)).ssts.lookup x.fileID = e.files x.fileID := by
  have := hlisted i x hx
  rw [exec_writeTable_ssts, if_neg (by omega)]
  rfl

theorem Books.writeTable (h : Books e)
    (hlisted : ∀ i, ∀ x ∈ e.current.levels i, x.fileID ≤ e.nextFileID) (t : SSTable) :
    Books { e with nextFileID := e.nextFileID + 1
                   dir := e.dir.exec (.writeTable (e.nextFileID + 1) t) } := by
  refine ⟨h.version, fun id hid => ?_, fun id hid => (h.reader_ids id hid).trans (Nat.le_succ _),
    h.unique, fun i x hx => ?_⟩
  · change (e.dir.exec (.writeTable (e.nextFileID + 1) t)).ssts.lookup id ≠ none at hid
    change id ≤ e.nextFileID + 1
    rw [exec_writeTable_ssts] at hid
    split_ifs at hid with hc
    · exact hc.le
    · exact (h.file_ids id hid).trans (Nat.le_succ _)
  · exact (h.readers i x hx).trans (exec_newFile hlisted t i x hx).symm

theorem Inv.writeTable (h : Inv e mem imms m) (t : SSTable) :
    Inv { e with nextFileID := e.nextFileID + 1
                 dir := e.dir.exec (.writeTable (e.nextFileID + 1) t) } mem imms m := by
  have hlisted : ∀ i, ∀ x ∈ e.current.levels i, x.fileID ≤ e.nextFileID := fun i x hx =>
    h.books.listed_le h.layered.tables hx
  have hold := exec_newFile hlisted t
  refine ⟨h.layered.congr rfl hold, ?_, h.owned.congr (fun _ => rfl),
    h.books.writeTable hlisted t, fun o ho => (h.owner_ids o ho).trans (Nat.le_succ _), ?_,
    h.sync, h.walBuf⟩
  · refine h.disk.congr rfl rfl le_rfl (fun i x hx => hold i x ?_)
    rw [h.books.version]
    exact hx
  · change ∀ x ∈ walSet e.dir ∪ tableVersions e.current _, _
    rw [tableVersions_congr rfl hold]
    exact h.seq_le

theorem builtFor_flushBuild (hok : ∀ x ∈ imm.table.entries, x.Ok) (hne : imm.table.entries ≠ [])
    (hlisted : ∀ j, ∀ x ∈ e.current.levels j, x.fileID ≤ e.nextFileID)
    (hreaders : ∀ id, e.tc.readerOf id ≠ none → id ≤ e.nextFileID) :
    BuiltFor (e.flushBuild imm).1 (e.flushBuild imm).2 imm.table.versions := by
  obtain ⟨h1, h2, h3, h4, h5⟩ := buildTable_ok e.cfg (e.nextFileID + 1) imm.table.sorted hok hne
  rw [flushBuild_eq]
  refine ⟨⟨_, ?_, h1, ?_⟩, h4, h5, fun j x hx => ?_, fun x hx => ?_, ?_, h3.le⟩
  · change (e.dir.exec _).ssts.lookup _ = _
    rw [exec_writeTable_ssts, if_pos h3]
  · rw [h2]
    rfl
  · have := hlisted j x hx
    rw [h3]
    omega
  · have := hlisted 0 x hx
    rw [h3]
    omega
  · rw [h3]
    by_contra hc
    have := hreaders _ hc
    omega

/-- **Building the table of a memtable.** -/
theorem Inv.flushBuild (h : Inv e mem imms m)
    (himm : imm.table.versions ⊆ union (memStack imms mem)) (hne : imm.table.entries ≠ []) :
    Inv (e.flushBuild imm).1 mem imms m ∧
      BuiltFor (e.flushBuild imm).1 (e.flushBuild imm).2 imm.table.versions := by
  refine ⟨?_, builtFor_flushBuild (fun x hx => h.layered.mem_ok x (himm hx)) hne
    (fun j x hx => h.books.listed_le h.layered.tables hx) h.books.reader_ids⟩
  rw [flushBuild_eq]
  exact h.writeTable _

theorem addsTable_addEdit (hl : t.level = 0) (hc : t.createdAt = 0) (v : Version) :
    AddsTable v (v.applyEdit (addEdit t false)) t := by
  refine ⟨?_, fun j hj => ?_⟩
  · rw [applyEdit_add_levels, if_pos hl.symm, addEdit_meta hc, sortLevel_zero]
  · rw [applyEdit_add_levels, if_neg (by omega)]

theorem addEdit_unchecked (hl : t.level = 0) : (addEdit t false).Unchecked :=
  fun _ => Or.inl hl

theorem flushAdd_build (e : LSMEngine) (imm : ImmutableMemtable) :
    ∃ f, (e.flushBuild imm).1.flushAdd (e.flushBuild imm).2 .ok = ({ (e.flushBuild imm).1 with
      tc := e.tc.register (e.nextFileID + 1) f
      current := e.current.applyEdit (addEdit (e.flushBuild imm).2 false)
      dir := { (e.flushBuild imm).1.dir with
        edits := e.dir.edits ++ [(addEdit (e.flushBuild imm).2 false).persisted] } }, true) := by
  have hlevel := (flushBuild_fields e imm).2.1
  refine ⟨(buildTable e.cfg (e.nextFileID + 1) 0 imm.table.entries).2, ?_⟩
  rw [LSMEngine.flushAdd, register_flushBuild, apply_ok (addEdit_unchecked hlevel)]
  rfl

theorem flushAdd_ok (hb : BuiltFor e t S) :
    ∃ f, e.files t.fileID = some f ∧ e.flushAdd t .ok = ({ e with
      tc := e.tc.register t.fileID f
      current := e.current.applyEdit (addEdit t false)
      dir := { e.dir with edits := e.dir.edits ++ [(addEdit t false).persisted] } }, true) := by
  obtain ⟨f, hf, -, -⟩ := hb.file
  have hf' : e.dir.ssts.lookup t.fileID = some f := hf
  refine ⟨f, hf, ?_⟩
  unfold LSMEngine.flushAdd LSMEngine.register
  rw [hf', apply_ok (addEdit_unchecked hb.level)]

theorem BuiltFor.tableVersions_add (hb : BuiltFor e t S) :
    tableVersions (e.current.applyEdit (addEdit t false)) e.files =
      tableVersions e.current e.files ∪ S := by
  obtain ⟨f, hf, -, hset⟩ := hb.file
  have hadd := addsTable_addEdit hb.level hb.created e.current
  ext x
  constructor
  · rintro ⟨i, y, hy, hx⟩
    rcases hadd.mem.1 hy with hy | ⟨-, rfl⟩
    · exact Or.inl ⟨i, y, hy, hx⟩
    · obtain ⟨f', hf', hxf⟩ := hx
      obtain rfl : f = f' := Option.some.inj (hf.symm.trans hf')
      exact Or.inr (hset ▸ hxf)
  · rintro (⟨i, y, hy, hx⟩ | hx)
    · exact ⟨i, y, hadd.mem.2 (Or.inl hy), hx⟩
    · rw [← hset] at hx
      exact ⟨0, t, hadd.mem.2 (Or.inr ⟨rfl, rfl⟩), f, hf, hx⟩

theorem Books.flushAdd (h : Books e) (hb : BuiltFor e t S)
    (hroom : e.tc.entries.length < e.tc.cap) : Books (e.flushAdd t .ok).1 := by
  obtain ⟨f, hf, heq⟩ := flushAdd_ok hb
  have hadd := addsTable_addEdit hb.level hb.created e.current
  rw [heq]
  refine ⟨?_, h.file_ids, fun id hid => ?_, h.unique.register _ _, fun i x hx => ?_⟩
  · change e.current.applyEdit (addEdit t false) =
      recoverVersion (e.dir.edits ++ [(addEdit t false).persisted])
    rw [recoverVersion_append, recoverEdit_addEdit, h.version]
    rfl
  · change (e.tc.register t.fileID f).readerOf id ≠ none at hid
    rw [TableCache.readerOf_register hb.no_reader hroom] at hid
    split_ifs at hid with hc
    · rw [hc]; exact hb.id_le
    · exact h.reader_ids id hid
  · change (e.tc.register t.fileID f).readerOf x.fileID = e.files x.fileID
    rw [TableCache.readerOf_register hb.no_reader hroom]
    rcases hadd.mem.1 hx with hx | ⟨-, rfl⟩
    · rw [if_neg (hb.unlisted i x hx)]
      exact h.readers i x hx
    · rw [if_pos rfl, hf]

def Apart (A B : Set Entry) : Prop := ∀ x ∈ A, ∀ y ∈ B, x.key.userKey ≠ y.key.userKey

theorem Apart.dominates {A B : Set Entry} (h : Apart A B) : Dominates A B := by
  rintro b hb ⟨a, ha, hk⟩
  exact absurd hk (h a ha b hb)

/-- **Adding a built table to level 0.** It holds versions of the memtables, which are newer than it
or do not compete, and is itself newer than the tables. -/
theorem Inv.flushAdd (h : Inv e mem imms m) (hb : BuiltFor e t S)
    (hroom : e.tc.entries.length < e.tc.cap) (hsub : S ⊆ union (memStack imms mem))
    (habove : ∀ A ∈ memStack imms mem, Dominates A S)
    (hbelow : Dominates S (union (levelLayers e.current e.files))) :
    Inv (e.flushAdd t .ok).1 mem imms m ∧
      S ⊆ tableVersions (e.flushAdd t .ok).1.current (e.flushAdd t .ok).1.files := by
  obtain ⟨f, hf, heq⟩ := flushAdd_ok hb
  obtain ⟨f', hf', htab, hset⟩ := hb.file
  obtain rfl : f = f' := Option.some.inj (hf.symm.trans hf')
  have hadd := addsTable_addEdit hb.level hb.created e.current
  have hv : recoverVersion (e.dir.edits ++ [(addEdit t false).persisted]) =
      (recoverVersion e.dir.edits).applyEdit (addEdit t false) := by
    rw [recoverVersion_append, recoverEdit_addEdit]
  have hbooks := h.books.flushAdd hb hroom
  rw [heq] at hbooks ⊢
  refine ⟨⟨?_, ?_, h.owned.congr (fun _ => rfl), hbooks, h.owner_ids, ?_, h.sync, h.walBuf⟩, ?_⟩
  · exact h.layered.addTable hadd e.cfg.maxLevel_pos hb.level hf htab hb.unlisted hb.newest
      (hset ▸ hsub) (hset ▸ habove) (hset ▸ hbelow)
  · have hadd' : AddsTable e.dir.version
      (recoverVersion (e.dir.edits ++ [(addEdit t false).persisted]))
        t := by
      rw [hv]
      exact addsTable_addEdit hb.level hb.created _
    refine h.disk.addTable hadd' e.cfg.maxLevel_pos hb.level hf htab ?_ ?_ ?_ ?_ rfl rfl ?_
    · rw [← h.books.version]; exact hb.unlisted
    · rw [← h.books.version]; exact hb.newest
    · rw [hset]; exact hsub.trans h.owned.memStack_subset
    · rw [hset, ← h.books.version]; exact hbelow
    · change (recoverVersion _).maxSeqNo ≤ (recoverVersion _).maxSeqNo
      rw [hv]
      exact le_rfl
  · change ∀ x ∈ walSet e.dir ∪ tableVersions (e.current.applyEdit (addEdit t false)) e.files, _
    rw [hb.tableVersions_add]
    rintro x (hx | hx | hx)
    · exact h.seq_le x (Or.inl hx)
    · exact h.seq_le x (Or.inr hx)
    · exact h.seq_le x (Or.inl (h.owned.memStack_subset (hsub hx)))
  · change S ⊆ tableVersions (e.current.applyEdit (addEdit t false)) e.files
    rw [hb.tableVersions_add]
    exact Set.subset_union_right

theorem Layered.addable {v : Version} {files : ℕ → Option SSTable} {maxLevel : ℕ}
    (h : Layered (memStack (pre ++ imm :: rest) mem) v files maxLevel m)
    (hpre : ∀ p ∈ pre, Apart p.table.versions imm.table.versions) :
    imm.table.versions ⊆ union (memStack (pre ++ imm :: rest) mem) ∧
      (∀ A ∈ memStack (pre ++ imm :: rest) mem, Dominates A imm.table.versions) ∧
      Dominates imm.table.versions (union (levelLayers v files)) := by
  have ho := h.ordered
  rw [memStack_middle, List.append_assoc, List.cons_append] at ho
  refine ⟨fun x hx => mem_union_memStack.2 (Or.inr ⟨imm, by simp, hx⟩), fun A hA => ?_,
    dominates_union fun B hB => ?_⟩
  · rw [memStack_middle] at hA
    rcases List.mem_append.1 hA with hA | hA
    · exact (List.pairwise_append.1 ho).2.2 A hA _ List.mem_cons_self
    · rcases List.mem_cons.1 hA with rfl | hA
      · exact Dominates.refl _
      · obtain ⟨p, hp, rfl⟩ := List.mem_map.1 hA
        exact (hpre p (List.mem_reverse.1 hp)).dominates
  · have := (List.pairwise_cons.1 (List.pairwise_append.1 ho).2.1).1
    exact this B (List.mem_append_right _ hB)

theorem Inv.addable (h : Inv e mem (pre ++ imm :: rest) m)
    (hpre : ∀ p ∈ pre, Apart p.table.versions imm.table.versions) :
    imm.table.versions ⊆ union (memStack (pre ++ imm :: rest) mem) ∧
      (∀ A ∈ memStack (pre ++ imm :: rest) mem, Dominates A imm.table.versions) ∧
      Dominates imm.table.versions (union (levelLayers e.current e.files)) :=
  h.layered.addable hpre

def SeqSaved (e : LSMEngine) : Prop :=
  ∀ x ∈ tableVersions e.current e.files, x.key.seqNo ≤ e.current.maxSeqNo

/-- **Recording the sequence number.** -/
theorem Inv.flushSeqNo (h : Inv e mem imms m) :
    Inv (e.flushSeqNo .ok) mem imms m ∧ SeqSaved (e.flushSeqNo .ok) ∧
      tableVersions (e.flushSeqNo .ok).current (e.flushSeqNo .ok).files =
        tableVersions e.current e.files := by
  have htables : tableVersions (e.flushSeqNo .ok).current (e.flushSeqNo .ok).files =
      tableVersions e.current e.files := by
    unfold LSMEngine.flushSeqNo
    rw [apply_ok (maxSeqNoEdit_unchecked _)]
    exact tableVersions_congr rfl (fun _ _ _ => rfl)
  refine ⟨h.maxSeqNoEdit e.seqNo, fun x hx => ?_, htables⟩
  rw [htables] at hx
  have hle := h.seq_le x (Or.inr hx)
  unfold LSMEngine.flushSeqNo
  rw [apply_ok (maxSeqNoEdit_unchecked _)]
  exact hle.trans (le_max_right _ _)

/-- **A flushed memtable leaves the stack**; its log is still there. -/
theorem Inv.retire (h : Inv e mem (pre ++ imm :: rest) m)
    (hsub : imm.table.versions ⊆ tableVersions e.current e.files) :
    Inv e mem (pre ++ ⟨newMemTable 0, imm.logNumber⟩ :: rest) m := by
  have hlay := h.layered
  rw [← hlay.tables.shape.union_levelLayers hlay.maxLevel_le] at hsub
  rw [memStack_middle] at hlay
  have hids : ∀ o ∈ memOwners (pre ++ ⟨newMemTable 0, imm.logNumber⟩ :: rest) mem e.logNumber,
      o.1 ≤ e.nextFileID := by
    intro o ho
    rw [memOwners_middle] at ho
    have hall := h.owner_ids
    rw [memOwners_middle] at hall
    rcases List.mem_append.1 ho with ho | ho
    · exact hall o (List.mem_append_left _ ho)
    · rcases List.mem_cons.1 ho with rfl | ho
      · exact hall (imm.logNumber, imm.table.versions) (by simp)
      · exact hall o (by simp [ho])
  refine ⟨?_, h.disk, ?_, h.books, hids, h.seq_le, h.sync, h.walBuf⟩
  · rw [memStack_middle, newMemTable_versions]
    exact (hlay.retire hsub).insert_empty
  · have ho := h.owned
    rw [memOwners_middle] at ho ⊢
    exact ho.outlive (by rw [newMemTable_versions]; exact Set.empty_subset _)

theorem memStack_remove_empty (hempty : imm.table.versions = ∅) {v : Version}
    {files : ℕ → Option SSTable}
    (h : Layered (memStack (pre ++ imm :: rest) mem) v files maxLevel m) :
    Layered (memStack (pre ++ rest) mem) v files maxLevel m := by
  rw [memStack_middle, hempty] at h
  have hstack : memStack (pre ++ rest) mem =
      memStack rest mem ++ pre.reverse.map (fun i => i.table.versions) := by
    simp [memStack]
  rw [hstack]
  exact h.remove_empty

/-- **Removing a log whose memtable was flushed.** Older logs, if there are any, have none of its
keys; newer ones only newer versions. -/
theorem Inv.removeLog (h : Inv e mem (pre ++ imm :: rest) m) (hempty : imm.table.versions = ∅)
    (hsaved : SeqSaved e)
    (hpre : ∀ p ∈ pre, Apart (logSet e.dir p.logNumber) (logSet e.dir imm.logNumber)) :
    Inv (e.exec (.removeLog imm.logNumber)) mem (pre ++ rest) m := by
  have howned := h.owned
  rw [memOwners_middle] at howned
  have howners : memOwners (pre ++ rest) mem e.logNumber =
      pre.map (fun i => (i.logNumber, i.table.versions)) ++ memOwners rest mem e.logNumber := by
    simp [memOwners]
  have howned' := howned.removeLog
  rw [← howners] at howned'
  have hlay := memStack_remove_empty hempty h.layered
  have hids : ∀ o ∈ memOwners (pre ++ rest) mem e.logNumber, o.1 ≤ e.nextFileID := by
    intro o ho
    refine h.owner_ids o ?_
    rw [howners] at ho
    rw [memOwners_middle]
    rcases List.mem_append.1 ho with ho | ho <;> simp [ho]
  refine ⟨hlay, ?_, howned', ⟨h.books.version, h.books.file_ids, h.books.reader_ids,
    h.books.unique, h.books.readers⟩, hids, ?_, h.sync, h.walBuf⟩
  · have hsub : walSet (e.dir.exec (.removeLog imm.logNumber)) ⊆ walSet e.dir := by
      rw [walSet_exec_removeLog]
      rintro x ⟨j, -, hx⟩
      exact ⟨j, hx⟩
    refine @DiskInv.removeLog _ _ _ _ (union (memStack (pre ++ rest) mem)) h.disk rfl rfl hsub ?_
      howned'.memStack_subset ?_ ?_ rfl
    · have hr := hlay.represents
      rw [union_append, h.books.version] at hr
      exact hr
    · rintro w ⟨⟨j, hw⟩, hw'⟩ x hx hk
      have hj : j = imm.logNumber := by
        by_contra hc
        refine hw' ⟨j, ?_⟩
        change w ∈ logSet (e.dir.exec (.removeLog imm.logNumber)) j
        rw [logSet_exec_removeLog, if_neg hc]
        exact hw
      subst hj
      -- the log `x` is in is an older one, which has none of these keys, or a newer one
      obtain ⟨o, ho, hxo⟩ := howned'.mem_walSet hx
      have hxo : x ∈ logSet e.dir o.1 := by
        rw [logSet_exec_removeLog] at hxo
        split_ifs at hxo with hc
        · cases hxo
        · exact hxo
      rw [howners] at ho
      rcases List.mem_append.1 ho with ho | ho
      · obtain ⟨p, hp, rfl⟩ := List.mem_map.1 ho
        exact absurd hk (hpre p hp x hxo w hw)
      · have hrise := (List.pairwise_cons.1 (List.pairwise_append.1 howned.rising).2.1).1
        exact hrise o ho w hw x hxo
    · rw [← h.books.version]
      exact hsaved
  · rintro x (hx | hx)
    · rw [LSMEngine.exec, walSet_exec_removeLog] at hx
      obtain ⟨j, -, hx⟩ := hx
      exact h.seq_le x (Or.inl ⟨j, hx⟩)
    · exact h.seq_le x (Or.inr hx)

theorem flush_eq_of_built (himm : imm.table.entries ≠ []) (hb : BuiltFor (e.flushBuild imm).1
    (e.flushBuild imm).2 imm.table.versions) {o : FlushOutcome} (ho : o.fault = none) :
    e.flush imm o =
      let e₂ := (((e.flushBuild imm).1.flushAdd (e.flushBuild imm).2 .ok).1.flushSeqNo o.seqRes)
      (if o.logRemoved then (e₂.removeImmutable imm).exec (.removeLog imm.logNumber)
        else e₂.removeImmutable imm, true) := by
  obtain ⟨f, -, heq⟩ := flushAdd_ok hb
  unfold LSMEngine.flush
  simp only [ho, reduceCtorEq, if_false, if_neg himm, FlushOutcome.addRes]
  rw [heq]

theorem flush_ok_eq (himm : imm.table.entries ≠ []) (hb : BuiltFor (e.flushBuild imm).1
    (e.flushBuild imm).2 imm.table.versions) (logRemoved : Bool) :
    e.flush imm { logRemoved := logRemoved } =
      let e₂ := (((e.flushBuild imm).1.flushAdd (e.flushBuild imm).2 .ok).1.flushSeqNo .ok)
      (if logRemoved then (e₂.removeImmutable imm).exec (.removeLog imm.logNumber)
        else e₂.removeImmutable imm, true) :=
  flush_eq_of_built himm hb rfl

/-- **A whole flush.** The oldest queued memtable becomes a table of level 0; its log is removed, or
stays behind. -/
theorem Inv.flush (h : Inv e mem (pre ++ imm :: rest) m) (hne : imm.table.entries ≠ [])
    (hroom : e.tc.entries.length < e.tc.cap)
    (hpre : ∀ p ∈ pre, Apart (logSet e.dir p.logNumber) (logSet e.dir imm.logNumber))
    (logRemoved : Bool) :
    Inv (e.flush imm { logRemoved := logRemoved }).1 mem
      (if logRemoved then pre ++ rest else pre ++ ⟨newMemTable 0, imm.logNumber⟩ :: rest) m := by
  obtain ⟨h1, hb⟩ := h.flushBuild
    (fun x hx => mem_union_memStack.2 (Or.inr ⟨imm, by simp, hx⟩)) hne
  have hsub : ∀ p ∈ pre ++ imm :: rest, p.table.versions ⊆ logSet e.dir p.logNumber := by
    intro p hp
    exact h.owned.sub (p.logNumber, p.table.versions)
      (List.mem_append_left _ (List.mem_map_of_mem (f := fun i : ImmutableMemtable =>
        (i.logNumber, i.table.versions)) hp))
  have hpre' : ∀ p ∈ pre, Apart p.table.versions imm.table.versions := fun p hp x hx y hy =>
    hpre p hp x (hsub p (by simp [hp]) hx) y (hsub imm (by simp) hy)
  obtain ⟨hsub', habove, hbelow⟩ := h1.addable hpre'
  obtain ⟨h2, hin⟩ := h1.flushAdd hb hroom hsub' habove hbelow
  obtain ⟨h3, hsaved, htables⟩ := h2.flushSeqNo
  have h4 := h3.retire (by rw [htables]; exact hin)
  have hlogs : (((e.flushBuild imm).1.flushAdd (e.flushBuild imm).2 .ok).1.flushSeqNo
    .ok).dir.logs =
      e.dir.logs := by
    obtain ⟨f, -, heq⟩ := flushAdd_ok hb
    unfold LSMEngine.flushSeqNo
    rw [apply_ok (maxSeqNoEdit_unchecked _), heq]
    rfl
  rw [flush_ok_eq hne hb logRemoved]
  have h5 : Inv ((((e.flushBuild imm).1.flushAdd (e.flushBuild imm).2 .ok).1.flushSeqNo
      .ok).removeImmutable imm) mem (pre ++ ⟨newMemTable 0, imm.logNumber⟩ :: rest) m :=
    h4.frame rfl rfl rfl rfl rfl rfl rfl rfl
  cases logRemoved with
  | false => exact h5
  | true =>
    refine h5.removeLog (newMemTable_versions 0) hsaved (fun p hp => ?_)
    have hlog : ∀ id, logSet ((((e.flushBuild imm).1.flushAdd (e.flushBuild imm).2 .ok).1.flushSeqNo
        .ok).removeImmutable imm).dir id = logSet e.dir id := fun id => by
      unfold logSet DataDir.log
      rw [show ((((e.flushBuild imm).1.flushAdd (e.flushBuild imm).2 .ok).1.flushSeqNo
        .ok).removeImmutable imm).dir.logs = e.dir.logs from hlogs]
    rw [hlog, hlog]
    exact hpre p hp

end LsmTree
