import LsmTree.Correct.CompactStep

/-!
# Recovery

Recovery keeps the meaning of the directory at each of its durable steps, so a crash in recovery is
no worse than one before it, and produces an engine for the same map (`DiskInv.openEngine`).
-/

namespace LsmTree

open Versioned

variable {d : DataDir} {maxLevel : ℕ} {m : Bytes → Option Bytes}

variable {P : DataDir → Prop} {ops : List DiskOp} {ids : List ℕ} {v : Version} {id : ℕ}

/-! ### Sequences of durable steps -/

/-- `P` holds before, between and after the steps. -/
def Throughout (P : DataDir → Prop) : DataDir → List DiskOp → Prop
  | d, [] => P d
  | d, op :: ops => P d ∧ Throughout P (d.exec op) ops

theorem Throughout.take (h : Throughout P d ops) (n : ℕ) : P (d.execAll (ops.take n)) := by
  induction ops generalizing d n with
  | nil =>
    rw [List.take_nil]
    exact h
  | cons op ops ih =>
    cases n with
    | zero => exact h.1
    | succ n => exact ih h.2 n

@[simp] theorem execAll_append (d : DataDir) (ops ops' : List DiskOp) :
    d.execAll (ops ++ ops') = (d.execAll ops).execAll ops' := List.foldl_append

@[simp] theorem execAll_cons (d : DataDir) (op : DiskOp) (ops : List DiskOp) :
    d.execAll (op :: ops) = (d.exec op).execAll ops := rfl

@[simp] theorem execAll_nil (d : DataDir) : d.execAll [] = d := rfl

theorem Throughout.append {ops' : List DiskOp} (h : Throughout P d ops)
    (h' : Throughout P (d.execAll ops) ops') : Throughout P d (ops ++ ops') := by
  induction ops generalizing d with
  | nil => exact h'
  | cons op ops ih => exact ⟨h.1, ih h.2 h'⟩

theorem Throughout.last {P : DataDir → Prop} {ops : List DiskOp} (h : Throughout P d ops) :
    P (d.execAll ops) := by
  induction ops generalizing d with
  | nil => exact h
  | cons op ops ih => exact ih h.2

/-! ### Orphaned tables -/

theorem execAll_removeTables (ids : List ℕ) (d : DataDir) :
    (d.execAll (ids.map DiskOp.removeTable)).edits = d.edits ∧
      (d.execAll (ids.map DiskOp.removeTable)).logs = d.logs ∧
      ∀ j, (d.execAll (ids.map DiskOp.removeTable)).ssts.lookup j =
        if j ∈ ids then none else d.ssts.lookup j := by
  induction ids generalizing d with
  | nil => simp
  | cons id ids ih =>
    obtain ⟨h1, h2, h3⟩ := ih (d.exec (.removeTable id))
    refine ⟨h1, h2, fun j => ?_⟩
    rw [List.map_cons, execAll_cons, h3, exec_removeTable_ssts]
    by_cases hj : j = id <;> by_cases hj' : j ∈ ids <;> simp [hj, hj']

theorem DiskInv.removeTables (h : DiskInv d maxLevel m)
    (hids : ∀ id ∈ ids, ∀ i, ∀ t ∈ d.version.levels i, t.fileID ≠ id) :
    Throughout (fun d => DiskInv d maxLevel m) d (ids.map DiskOp.removeTable) := by
  induction ids generalizing d with
  | nil => exact h
  | cons id ids ih =>
    refine ⟨h, ih ?_ (fun x hx => hids x (List.mem_cons_of_mem id hx))⟩
    refine h.congr rfl rfl le_rfl (fun i t ht => ?_)
    change (d.exec _).ssts.lookup t.fileID = d.ssts.lookup t.fileID
    rw [exec_removeTable_ssts, if_neg (hids id List.mem_cons_self i t ht)]

theorem not_hasFile (hbound : ∀ i, maxLevels ≤ i → v.levels i = []) (hid : v.hasFile id = false) :
    ∀ i, ∀ t ∈ v.levels i, t.fileID ≠ id := by
  intro i t ht hc
  have hi : i < maxLevels := by
    by_contra hge
    rw [hbound i (not_lt.1 hge)] at ht
    cases ht
  have : v.hasFile id = true :=
    List.any_eq_true.2 ⟨i, List.mem_range.2 hi, List.any_eq_true.2 ⟨t, ht, decide_eq_true hc⟩⟩
  rw [hid] at this
  cases this

/-! ### Folding the logs -/

theorem walVersions_toWAL {x : Entry} (h : x.Wf) : walVersions [x.toWAL] = {x} := by
  rw [walVersions_cons, walVersions_nil, h.toEntry_toWAL]
  simp

theorem execAll_rewrite (n : ℕ) {es : List Entry} (hes : ∀ x ∈ es, x.Wf) (d : DataDir) :
    let d' := d.execAll (es.map (fun x => DiskOp.appendLog n [[x.toWAL]]))
    d'.edits = d.edits ∧ d'.ssts = d.ssts ∧
      ∀ j, logSet d' j = if j = n then logSet d n ∪ {x | x ∈ es} else logSet d j := by
  induction es generalizing d with
  | nil =>
    refine ⟨rfl, rfl, fun j => ?_⟩
    by_cases hj : j = n <;> simp [hj]
  | cons x es ih =>
    obtain ⟨h1, h2, h3⟩ := ih (fun y hy => hes y (List.mem_cons_of_mem x hy))
      (d.exec (.appendLog n [[x.toWAL]]))
    refine ⟨h1, h2, fun j => ?_⟩
    rw [List.map_cons, execAll_cons, h3, logSet_exec_appendLog, logSet_exec_appendLog]
    have hw : walVersions (recoverWAL [[x.toWAL]]) = {x} := by
      rw [show recoverWAL [[x.toWAL]] = [x.toWAL] by simp [recoverWAL]]
      exact walVersions_toWAL (hes x List.mem_cons_self)
    by_cases hj : j = n
    · rw [if_pos hj, if_pos rfl, if_pos hj, hw]
      ext y
      simp only [Set.mem_union, Set.mem_singleton_iff, List.mem_cons, Set.mem_ofPred_eq]
      tauto
    · rw [if_neg hj, if_neg hj, if_neg hj]

theorem DiskInv.rewrite (h : DiskInv d maxLevel m) (n : ℕ) {es : List Entry}
    (hes : ∀ x ∈ es, x.Wf ∧ x ∈ walSet d) : Throughout (fun d => DiskInv d maxLevel m) d
      (es.map (fun x => DiskOp.appendLog n [[x.toWAL]])) := by
  induction es generalizing d with
  | nil => exact h
  | cons x es ih =>
    obtain ⟨hwf, hx⟩ := hes x List.mem_cons_self
    have hw : walSet (d.exec (.appendLog n [[x.toWAL]])) = walSet d := by
      rw [walSet_exec_appendLog, show recoverWAL [[x.toWAL]] = [x.toWAL] by simp [recoverWAL],
        walVersions_toWAL hwf]
      exact Set.union_eq_self_of_subset_right (Set.singleton_subset_iff.2 hx)
    refine ⟨h, ih (h.congr hw rfl le_rfl (fun _ _ _ => rfl)) (fun y hy => ?_)⟩
    rw [hw]
    exact hes y (List.mem_cons_of_mem x hy)

theorem execAll_removeLogs (ids : List ℕ) (d : DataDir) :
    (d.execAll (ids.map DiskOp.removeLog)).edits = d.edits ∧
      (d.execAll (ids.map DiskOp.removeLog)).ssts = d.ssts ∧
      ∀ j, logSet (d.execAll (ids.map DiskOp.removeLog)) j = if j ∈ ids then ∅ else logSet d j := by
  induction ids generalizing d with
  | nil => simp
  | cons id ids ih =>
    obtain ⟨h1, h2, h3⟩ := ih (d.exec (.removeLog id))
    refine ⟨h1, h2, fun j => ?_⟩
    rw [List.map_cons, execAll_cons, h3, logSet_exec_removeLog]
    by_cases hj : j = id <;> by_cases hj' : j ∈ ids <;> simp [hj, hj']

theorem DiskInv.removeLogs (h : DiskInv d maxLevel m) {n : ℕ} (hn : n ∉ ids)
    (hall : walSet d ⊆ logSet d n) :
    Throughout (fun d => DiskInv d maxLevel m) d (ids.map DiskOp.removeLog) := by
  induction ids generalizing d with
  | nil => exact h
  | cons id ids ih =>
    rw [List.mem_cons, not_or] at hn
    have hlog : logSet (d.exec (.removeLog id)) n = logSet d n := by
      rw [logSet_exec_removeLog, if_neg hn.1]
    have hw : walSet (d.exec (.removeLog id)) = walSet d := by
      refine Set.Subset.antisymm ?_ (fun x hx => ⟨n, hlog ▸ hall hx⟩)
      rw [walSet_exec_removeLog]
      rintro x ⟨j, -, hx⟩
      exact ⟨j, hx⟩
    refine ⟨h, ih (h.congr hw rfl le_rfl (fun _ _ _ => rfl)) hn.2 ?_⟩
    rw [hw, hlog]
    exact hall

/-! ### The numbers of files -/

theorem le_maxID (h : id ∈ ids) : id ≤ maxID ids := by
  induction ids with
  | nil => cases h
  | cons a ids ih =>
    rcases List.mem_cons.1 h with rfl | h
    · exact le_max_left _ _
    · exact (ih h).trans (le_max_right _ _)

theorem activeLogNumber_spec (d : DataDir) : 0 < activeLogNumber d ∧
    maxID d.ssts.keys < activeLogNumber d ∧ maxID d.logs.keys < activeLogNumber d := by
  unfold activeLogNumber
  generalize maxID d.ssts.keys = a, maxID d.logs.keys = b, (recoverVersion d.edits).nextFileID = n
  simp only
  have h1 : a < if n ≤ a then a + 1 else n := by split_ifs <;> omega
  generalize (if n ≤ a then a + 1 else n) = n₁ at h1 ⊢
  have h2 : n₁ ≤ (if n₁ ≤ b then b + 1 else n₁) ∧ b < (if n₁ ≤ b then b + 1 else n₁) := by
    split_ifs <;> omega
  generalize (if n₁ ≤ b then b + 1 else n₁) = n₂ at h2 ⊢
  split_ifs <;> omega

theorem lt_activeLogNumber_of_sst (h : d.ssts.lookup id ≠ none) : id < activeLogNumber d := by
  have hk : id ∈ d.ssts.keys := by
    exact AList.mem_keys.1 (AList.lookup_isSome.1 (Option.isSome_iff_ne_none.2 h))
  exact (le_maxID hk).trans_lt (activeLogNumber_spec d).2.1

theorem mem_listWALFiles : id ∈ listWALFiles d ↔ id ∈ d.logs.keys :=
  List.mem_insertionSort _

theorem log_eq_nil (h : id ∉ listWALFiles d) : d.log id = [] := by
  rw [mem_listWALFiles] at h
  unfold DataDir.log
  rw [AList.lookup_eq_none.2 (fun hc => h (AList.mem_keys.1 hc))]
  rfl

theorem logSet_eq_empty (h : id ∉ listWALFiles d) : logSet d id = ∅ := by
  unfold logSet
  rw [log_eq_nil h]
  exact walVersions_nil

theorem activeLogNumber_not_mem (d : DataDir) : activeLogNumber d ∉ listWALFiles d := by
  intro h
  have := le_maxID (mem_listWALFiles.1 h)
  exact absurd ((activeLogNumber_spec d).2.2) (not_lt.2 this)

theorem walVersions_recoverEntries (d : DataDir) : walVersions (recoverEntries d) = walSet d := by
  ext x
  unfold walVersions recoverEntries walSet logSet
  constructor
  · rintro ⟨w, hw, rfl⟩
    obtain ⟨id, -, hw⟩ := List.mem_flatMap.1 hw
    exact ⟨id, w, hw, rfl⟩
  · rintro ⟨id, w, hw, rfl⟩
    refine ⟨w, List.mem_flatMap.2 ⟨id, ?_, hw⟩, rfl⟩
    by_contra hc
    rw [log_eq_nil hc] at hw
    cases hw

theorem recoveredMem_versions (h : Agrees (walSet d)) (cfg : Config) :
    (recoveredMem cfg d).versions = walSet d := by
  have hset : (newMemTable cfg.memTableSize).versions ∪ walVersions (recoverEntries d) =
      walSet d := by
    rw [newMemTable_versions, Set.empty_union, walVersions_recoverEntries]
  unfold recoveredMem
  rw [MemTable.versions_replay, hset]
  rw [hset]
  exact h

theorem DiskInv.agrees_wal (h : DiskInv d maxLevel m) : Agrees (walSet d) :=
  h.agrees.mono (fun _ hx => ⟨walSet d, List.mem_cons_self, hx⟩)

/-! ### Cleaning up -/

/-- The directory after the orphans are removed and the logs folded into one. -/
structure Folded (d d' : DataDir) : Prop where
  edits : d'.edits = d.edits
  files : ∀ i, ∀ t ∈ d.version.levels i, d'.files t.fileID = d.files t.fileID
  files_sub : ∀ id, d'.ssts.lookup id ≠ none → d.ssts.lookup id ≠ none
  stray : ∀ id, id ≠ activeLogNumber d → logSet d' id = ∅
  active : logSet d' (activeLogNumber d) = walSet d

theorem DiskInv.orphans_unlisted (h : DiskInv d maxLevel m) :
    ∀ id ∈ orphans d, ∀ i, ∀ t ∈ d.version.levels i, t.fileID ≠ id := by
  intro id hid
  have hno : (!d.version.hasFile id) = true := (List.mem_filter.1 hid).2
  exact not_hasFile (fun i hi => h.tables.bound i (h.maxLevel_le.trans hi)) (by simpa using hno)

theorem DiskInv.cleanOps (h : DiskInv d maxLevel m) (cfg : Config) :
    Throughout (fun d => DiskInv d maxLevel m) d (cleanOps cfg d) ∧
      Folded d (d.execAll (cleanOps cfg d)) := by
  have hA := h.removeTables h.orphans_unlisted
  obtain ⟨he, hl, hs⟩ := execAll_removeTables (orphans d) d
  have h1 := hA.last
  set d₁ := d.execAll ((orphans d).map DiskOp.removeTable) with hd₁
  have hlog₁ : ∀ j, logSet d₁ j = logSet d j := fun j => by
    unfold logSet DataDir.log
    rw [hl]
  have hwal₁ : walSet d₁ = walSet d := by
    unfold walSet
    simp only [hlog₁]
  have hfiles : ∀ i, ∀ t ∈ d.version.levels i, d₁.files t.fileID = d.files t.fileID := by
    intro i t ht
    change d₁.ssts.lookup t.fileID = _
    rw [hs, if_neg (fun hc => h.orphans_unlisted _ hc i t ht rfl)]
    rfl
  have hsub : ∀ id, d₁.ssts.lookup id ≠ none → d.ssts.lookup id ≠ none := by
    intro id hid
    rw [hs] at hid
    split_ifs at hid with hc
    · exact absurd rfl hid
    · exact hid
  unfold LsmTree.cleanOps foldLogOps
  by_cases hlist : listWALFiles d = []
  · -- no log at all: nothing to fold
    have hempty : ∀ id, logSet d id = ∅ := fun id => logSet_eq_empty (by rw [hlist]; simp)
    rw [if_pos hlist, List.append_nil]
    refine ⟨hA, he, hfiles, hsub, fun id _ => ?_, ?_⟩
    · rw [← hd₁, hlog₁, hempty]
    · rw [← hd₁, hlog₁, hempty]
      refine (Set.eq_empty_iff_forall_notMem.2 ?_).symm
      rintro x ⟨id, hx⟩
      rw [hempty] at hx
      cases hx
  · rw [if_neg hlist]
    have hmem : ∀ x ∈ (recoveredMem cfg d).entries, x.Wf ∧ x ∈ walSet d := by
      intro x hx
      have hxw : x ∈ walSet d := recoveredMem_versions h.agrees_wal cfg ▸ hx
      exact ⟨(h.mem_ok x ⟨_, List.mem_singleton_self _, hxw⟩).wf, hxw⟩
    have h2 : DiskInv (d₁.exec (.appendLog (activeLogNumber d) [])) maxLevel m :=
      h1.congr (walSet_appendLog_nil _ _) rfl le_rfl (fun _ _ _ => rfl)
    have hB := @DiskInv.rewrite _ _ _ h2 (activeLogNumber d)
      (recoveredMem cfg d).entries (fun x hx => by
      rw [walSet_appendLog_nil, hwal₁]
      exact hmem x hx)
    have h3 := hB.last
    obtain ⟨he₃, hs₃, hl₃⟩ := execAll_rewrite (activeLogNumber d) (fun x hx => (hmem x hx).1)
      (d₁.exec (.appendLog (activeLogNumber d) []))
    set d₃ := (d₁.exec (.appendLog (activeLogNumber d) [])).execAll
      ((recoveredMem cfg d).entries.map (fun x => DiskOp.appendLog (activeLogNumber d) [[x.toWAL]]))
    have hactive : logSet d₃ (activeLogNumber d) = walSet d := by
      rw [hl₃, if_pos rfl, logSet_appendLog_nil, hlog₁, logSet_eq_empty (activeLogNumber_not_mem d),
        Set.empty_union]
      exact recoveredMem_versions h.agrees_wal cfg
    have hrest : ∀ j, j ≠ activeLogNumber d → logSet d₃ j = logSet d j := fun j hj => by
      rw [hl₃, if_neg hj, logSet_appendLog_nil, hlog₁]
    have hwal₃ : walSet d₃ ⊆ logSet d₃ (activeLogNumber d) := by
      rintro x ⟨j, hx⟩
      rw [hactive]
      by_cases hj : j = activeLogNumber d
      · rw [hj, hactive] at hx
        exact hx
      · rw [hrest j hj] at hx
        exact ⟨j, hx⟩
    have hC := h3.removeLogs (activeLogNumber_not_mem d) hwal₃
    obtain ⟨he₄, hs₄, hl₄⟩ := execAll_removeLogs (listWALFiles d) d₃
    refine ⟨hA.append ⟨h1, hB.append hC⟩, ?_⟩
    rw [execAll_append, execAll_cons, execAll_append]
    refine ⟨he₄.trans (he₃.trans he), fun i t ht => ?_, fun id hid => ?_, fun id hid => ?_, ?_⟩
    · unfold DataDir.files
      rw [hs₄, hs₃]
      exact hfiles i t ht
    · rw [hs₄, hs₃] at hid
      exact hsub id hid
    · rw [hl₄]
      split_ifs with hc
      · rfl
      · rw [hrest id hid]
        exact logSet_eq_empty hc
    · rw [hl₄, if_neg (activeLogNumber_not_mem d)]
      exact hactive

/-! ### Registering the tables -/

theorem registerAll_ok {ssts : Files SSTable} {ms : List SSTableMeta} {tc : TableCache}
    (hfile : ∀ t ∈ ms, ssts.lookup t.fileID ≠ none)
    (hids : (ms.map SSTableMeta.fileID).Nodup) (hnew : ∀ t ∈ ms, tc.readerOf t.fileID = none)
    (hu : tc.Unique) (hroom : tc.entries.length + ms.length ≤ tc.cap) :
    ∃ tc', registerAll ssts ms tc = .ok tc' ∧ tc'.Unique ∧ tc'.cap = tc.cap ∧
      tc'.entries.length = tc.entries.length + ms.length ∧
      ∀ j, tc'.readerOf j =
        if j ∈ ms.map SSTableMeta.fileID then ssts.lookup j else tc.readerOf j := by
  induction ms generalizing tc with
  | nil => exact ⟨tc, rfl, hu, rfl, rfl, fun j => by simp⟩
  | cons t ms ih =>
    rw [List.map_cons, List.nodup_cons] at hids
    rw [List.length_cons] at hroom
    obtain ⟨f, hf⟩ := Option.ne_none_iff_exists'.1 (hfile t List.mem_cons_self)
    have hnone := hnew t List.mem_cons_self
    have hlt : tc.entries.length < tc.cap := by omega
    have hread := @TableCache.readerOf_register tc t.fileID f hnone hlt
    have hcap := TableCache.register_cap tc t.fileID f
    have hlen := TableCache.register_length f hnone hlt
    obtain ⟨tc', h1, h2, h3, h4, h5⟩ := @ih (tc.register t.fileID f)
      (fun x hx => hfile x (List.mem_cons_of_mem t hx)) hids.2
      (fun x hx => by
        have hne : x.fileID ≠ t.fileID := fun hc => hids.1 (List.mem_map.2 ⟨x, hx, hc⟩)
        rw [hread, if_neg hne]
        exact hnew x (List.mem_cons_of_mem t hx))
      (hu.register _ _) (by rw [hlen, hcap]; omega)
    refine ⟨tc', ?_, h2, h3.trans hcap, ?_, fun j => ?_⟩
    · rw [registerAll, hf]
      exact h1
    · rw [h4, hlen, List.length_cons]
      omega
    · rw [h5, hread, List.map_cons]
      by_cases hj : j = t.fileID
      · subst hj
        simp [hids.1, hf]
      · simp [hj]

theorem tables_nodup (hs : LevelsSorted v) (hl : ∀ i, ∀ t ∈ v.levels i, t.level = i)
    (hids : ∀ i j, ∀ t ∈ v.levels i, ∀ t' ∈ v.levels j, t.fileID = t'.fileID → t = t') :
    (v.tables.map SSTableMeta.fileID).Nodup := by
  unfold Version.tables
  rw [List.Nodup, List.pairwise_map, List.pairwise_flatMap]
  refine ⟨fun i _ => List.pairwise_map.1 (hs i).2, ?_⟩
  refine List.nodup_range.imp (fun {i j} hij a ha b hb hab => hij ?_)
  have := hids i j a ha b hb hab
  subst this
  exact (hl i a ha).symm.trans (hl j a hb)

/-- What `Open` needs of a directory: every listed table is there, with a number of its own, and the
logs are well-formed. -/
structure Openable (d : DataDir) : Prop where
  tables : ∀ i, ∀ t ∈ d.version.levels i, ∃ f, d.files t.fileID = some f ∧ TableOk t f
  ids : (d.version.tables.map SSTableMeta.fileID).Nodup
  bound : ∀ i, maxLevels ≤ i → d.version.levels i = []
  wal_ok : ∀ x ∈ walSet d, x.Ok
  agrees : Agrees (walSet d)
  covered : ∀ x ∈ tableVersions d.version d.files,
    x.key.seqNo ≤ d.version.maxSeqNo ∨ ∃ w ∈ walSet d, x.key.seqNo ≤ w.key.seqNo
  untorn : d.torn = false

theorem mem_tables (hbound : ∀ i, maxLevels ≤ i → d.version.levels i = []) {t : SSTableMeta} :
    t ∈ d.version.tables ↔ ∃ i, t ∈ d.version.levels i := by
  unfold Version.tables
  rw [List.mem_flatMap]
  constructor
  · rintro ⟨i, -, ht⟩
    exact ⟨i, ht⟩
  · rintro ⟨i, ht⟩
    refine ⟨i, List.mem_range.2 ?_, ht⟩
    by_contra hi
    rw [hbound i (not_lt.1 hi)] at ht
    cases ht

theorem DiskInv.openable (h : DiskInv d maxLevel m) : Openable d :=
  ⟨fun _ _ ht => h.tables.table ht,
    tables_nodup h.tables.shape.levelsSorted (fun i t ht => (h.tables.ok i t ht).1) h.tables.ids,
    fun i hi => h.tables.bound i (h.maxLevel_le.trans hi),
    fun x hx => h.mem_ok x ⟨_, List.mem_singleton_self _, hx⟩, h.agrees_wal, h.covered,
    h.untorn⟩

/-- The readers once every listed table is registered. -/
structure Registered (d : DataDir) (tc : TableCache) : Prop where
  unique : tc.Unique
  readers : ∀ i, ∀ t ∈ d.version.levels i, tc.readerOf t.fileID = d.files t.fileID
  ids : ∀ id, tc.readerOf id ≠ none → d.ssts.lookup id ≠ none

theorem Openable.registerAll (h : Openable d) {cap : ℤ}
    (hroom : d.version.tables.length ≤ (newTableCache cap).cap) :
    ∃ tc, registerAll d.ssts d.version.tables (newTableCache cap) = .ok tc ∧ Registered d tc ∧
      tc.cap = (newTableCache cap).cap ∧ tc.entries.length = d.version.tables.length := by
  have hempty : ∀ id, (newTableCache cap).readerOf id = none := fun _ => rfl
  obtain ⟨tc, h1, h2, h3, h4, h5⟩ := @registerAll_ok d.ssts d.version.tables (newTableCache cap)
    (fun t ht => by
      obtain ⟨i, hi⟩ := (mem_tables h.bound).1 ht
      obtain ⟨f, hf, -⟩ := h.tables i t hi
      change d.files t.fileID ≠ none
      rw [hf]
      exact Option.some_ne_none f)
    h.ids (fun _ _ => rfl) List.nodup_nil
    (by change 0 + _ ≤ _; omega)
  refine ⟨tc, h1, ⟨h2, fun i t ht => ?_, fun id hid => ?_⟩, h3, ?_⟩
  · rw [h5, if_pos (List.mem_map_of_mem ((mem_tables h.bound).2 ⟨i, ht⟩))]
    rfl
  · rw [h5] at hid
    split_ifs at hid with hc
    · exact hid
    · exact absurd (hempty id) hid
  · rw [h4]
    change 0 + _ = _
    omega

/-! ### The recovered engine -/

theorem Openable.seq_le (h : Openable d) :
    ∀ x ∈ walSet d ∪ tableVersions d.version d.files, x.key.seqNo ≤
      max d.version.maxSeqNo (maxID ((recoverEntries d).map WALEntry.seqNo)) := by
  have hwal : ∀ x ∈ walSet d, x.key.seqNo ≤ maxID ((recoverEntries d).map WALEntry.seqNo) := by
    intro x hx
    rw [← walVersions_recoverEntries] at hx
    obtain ⟨w, hw, rfl⟩ := hx
    rw [WALEntry.toEntry_seqNo]
    exact le_maxID (List.mem_map_of_mem hw)
  rintro x (hx | hx)
  · exact (hwal x hx).trans (le_max_right _ _)
  · rcases h.covered x hx with hle | ⟨w, hw, hle⟩
    · exact hle.trans (le_max_left _ _)
    · exact (hle.trans (hwal w hw)).trans (le_max_right _ _)

/-- **The engine after the logs are folded** satisfies the invariant for the same map. -/
theorem DiskInv.recoveredEngine {cfg : Config} (h : DiskInv d cfg.maxLevel m)
    (hsync : cfg.syncWAL = true) {tc : TableCache} (htc : Registered d tc) :
    Inv (recoveredEngine cfg d tc) (recoveredMem cfg d) [] m := by
  obtain ⟨hthrough, hfold⟩ := h.cleanOps cfg
  have hmem := recoveredMem_versions h.agrees_wal cfg
  have hnext : activeLogNumber d ≤ (LsmTree.recoveredEngine cfg d tc).nextFileID := by
    change _ ≤ if listWALFiles d = [] then activeLogNumber d else activeLogNumber d + 1
    split_ifs <;> omega
  have hversion : (d.execAll (LsmTree.cleanOps cfg d)).version = d.version := by
    unfold DataDir.version
    rw [hfold.edits]
  have hwal : walSet (d.execAll (LsmTree.cleanOps cfg d)) = walSet d := by
    refine Set.Subset.antisymm ?_ (fun x hx => ⟨activeLogNumber d, hfold.active ▸ hx⟩)
    rintro x ⟨id, hx⟩
    by_cases hid : id = activeLogNumber d
    · rw [hid, hfold.active] at hx
      exact hx
    · rw [hfold.stray id hid] at hx
      cases hx
  have howners : memOwners [] (recoveredMem cfg d) (activeLogNumber d) =
      [(activeLogNumber d, walSet d)] := by
    rw [memOwners, hmem]
    rfl
  refine ⟨?_, hthrough.last, ?_,
    ⟨hversion.symm, fun id hid => ?_, fun id hid => ?_, htc.unique, ?_⟩,
    ?_, ?_, hsync, rfl⟩
  · have hstack : memStack [] (recoveredMem cfg d) = [walSet d] := by
      rw [memStack, hmem]
      rfl
    rw [hstack]
    exact h.toLayered.congr rfl hfold.files
  · change Owned _ (memOwners [] (recoveredMem cfg d) (activeLogNumber d))
    rw [howners]
    refine ⟨by simp, fun id hid => hfold.stray id (by simpa using hid), fun o ho => ?_,
      List.pairwise_singleton _ _⟩
    rw [List.mem_singleton.1 ho]
    exact hfold.active.symm.subset
  · exact (lt_activeLogNumber_of_sst (hfold.files_sub id hid)).le.trans hnext
  · exact (lt_activeLogNumber_of_sst (htc.ids id hid)).le.trans hnext
  · intro i t ht
    exact (htc.readers i t ht).trans (hfold.files i t ht).symm
  · intro o ho
    change o ∈ memOwners [] (recoveredMem cfg d) (activeLogNumber d) at ho
    rw [howners] at ho
    rw [List.mem_singleton.1 ho]
    exact hnext
  · intro x hx
    refine h.openable.seq_le x ?_
    change x ∈ walSet (d.execAll (LsmTree.cleanOps cfg d)) ∪
      tableVersions d.version (d.execAll (LsmTree.cleanOps cfg d)).files at hx
    rw [hwal, tableVersions_congr rfl hfold.files] at hx
    exact hx

variable {e : LSMEngine} {mem : MemTable}

theorem Inv.emptyMem (h : Inv e mem [] m) (hsub : mem.versions ⊆ tableVersions e.current e.files)
    (s : ℤ) : Inv e (newMemTable s) [] m := by
  have hlay := h.layered
  rw [← hlay.tables.shape.union_levelLayers hlay.maxLevel_le] at hsub
  refine ⟨?_, h.disk, ?_, h.books, ?_, h.seq_le, h.sync, h.walBuf⟩
  · rw [memStack, newMemTable_versions]
    exact @Layered.insert_empty [] _ _ _ _ _ (@Layered.retire [] _ _ _ _ _ _ hlay hsub)
  · rw [memOwners, newMemTable_versions]
    exact @Owned.outlive e.dir [] [] e.logNumber mem.versions ∅ h.owned (Set.empty_subset _)
  · intro o ho
    rw [memOwners, newMemTable_versions] at ho
    rw [List.mem_singleton.1 ho]
    exact h.owner_ids (e.logNumber, mem.versions) (by simp [memOwners])

theorem Inv.addable_mem (h : Inv e mem [] m) : mem.versions ⊆ union (memStack [] mem) ∧
    (∀ A ∈ memStack [] mem, Dominates A mem.versions) ∧
    Dominates mem.versions (union (levelLayers e.current e.files)) := by
  have ho : Ordered (mem.versions :: levelLayers e.current e.files) := h.layered.ordered
  refine ⟨fun x hx => mem_union_memStack.2 (Or.inl hx), fun A hA => ?_,
    dominates_union (List.pairwise_cons.1 ho).1⟩
  rw [List.mem_singleton.1 hA]
  exact Dominates.refl _

theorem Inv.recoverFlush (h : Inv e e.memTable [] m) (hne : e.memTable.entries ≠ [])
    (hroom : e.tc.entries.length < e.tc.cap) :
    let b := e.flushBuild ⟨e.memTable, e.logNumber⟩
    Inv b.1 e.memTable [] m ∧ Inv (b.1.flushAdd b.2 .ok).1 e.memTable [] m ∧
      Inv { (b.1.flushAdd b.2 .ok).1 with memTable := newMemTable e.cfg.memTableSize }
        (newMemTable e.cfg.memTableSize) [] m := by
  intro b
  obtain ⟨h1, hb⟩ := @Inv.flushBuild e e.memTable [] m ⟨e.memTable, e.logNumber⟩ h
    h.addable_mem.1 hne
  obtain ⟨hsub, habove, hbelow⟩ := h1.addable_mem
  obtain ⟨h2, hin⟩ := h1.flushAdd hb hroom hsub habove hbelow
  exact ⟨h1, h2, (h2.emptyMem hin _).frame rfl rfl rfl rfl rfl rfl rfl rfl⟩

/-- Whether recovery writes its memtable to a table. -/
def oversized (cfg : Config) (d : DataDir) : Prop :=
  cfg.memTableSize < (recoveredMem cfg d).approximateSize ∧ (recoveredMem cfg d).entries ≠ []

instance (cfg : Config) (d : DataDir) : Decidable (oversized cfg d) :=
  inferInstanceAs (Decidable (_ ∧ _))

/-- The cache has room for the tables that `Open` registers. -/
def OpenRoom (cfg : Config) (d : DataDir) : Prop :=
  d.version.tables.length + (if oversized cfg d then 1 else 0) ≤
    (newTableCache cfg.maxOpenFiles).cap

def shrinkOps (cfg : Config) (d : DataDir) : List DiskOp :=
  let id := (if listWALFiles d = [] then activeLogNumber d else activeLogNumber d + 1) + 1
  let (m, t) := buildTable cfg id 0 (recoveredMem cfg d).entries
  if oversized cfg d then [.writeTable id t, .appendEdit (addEdit m false).persisted] else []

def recordOps (d : DataDir) : List DiskOp :=
  if (recoverVersion d.edits).logNumber ≠ activeLogNumber d then
    [.appendEdit (logNumberEdit (activeLogNumber d)).persisted]
  else []

theorem finishOps_eq (cfg : Config) (d : DataDir) :
    finishOps cfg d = shrinkOps cfg d ++ recordOps d ++ [.appendLog (activeLogNumber d) []] := rfl

section Finish

variable {cfg : Config} {tc : TableCache}

theorem shrink_of_oversized (h : oversized cfg d) : (recoveredEngine cfg d tc).shrink =
    { (((recoveredEngine cfg d tc).flushBuild ⟨recoveredMem cfg d, activeLogNumber d⟩).1.flushAdd
        ((recoveredEngine cfg d tc).flushBuild ⟨recoveredMem cfg d, activeLogNumber d⟩).2 .ok).1
          with
      memTable := newMemTable cfg.memTableSize } := by
  unfold LSMEngine.shrink LSMEngine.recoverFlushOversizedMemtable
  exact (if_pos h.1).trans (if_neg h.2)

theorem shrink_of_fits (h : ¬ oversized cfg d) :
    (recoveredEngine cfg d tc).shrink = recoveredEngine cfg d tc ∨
      (recoveredEngine cfg d tc).shrink = (recoveredEngine cfg d tc).newFileID.1 := by
  unfold LSMEngine.shrink LSMEngine.recoverFlushOversizedMemtable
  by_cases hsize : (recoveredEngine cfg d tc).cfg.memTableSize <
      (recoveredEngine cfg d tc).memTable.approximateSize
  · have hnil : (recoveredEngine cfg d tc).memTable.entries = [] := by
      by_contra hc
      exact h ⟨hsize, hc⟩
    rw [if_pos hsize, if_pos hnil]
    exact Or.inr rfl
  · rw [if_neg hsize]
    exact Or.inl rfl

theorem shrinkOps_of_oversized (h : oversized cfg d) (tc : TableCache) : shrinkOps cfg d =
    [.writeTable ((recoveredEngine cfg d tc).nextFileID + 1)
      (buildTable cfg ((recoveredEngine cfg d tc).nextFileID + 1) 0 (recoveredMem cfg d).entries).2,
    .appendEdit (addEdit (buildTable cfg ((recoveredEngine cfg d tc).nextFileID + 1) 0
      (recoveredMem cfg d).entries).1 false).persisted] := by
  unfold shrinkOps
  simp only [if_pos h]
  rfl

theorem shrinkOps_of_fits (h : ¬ oversized cfg d) : shrinkOps cfg d = [] := by
  unfold shrinkOps
  simp only [if_neg h]

theorem Inv.shrink (h : Inv (recoveredEngine cfg d tc) (recoveredMem cfg d) [] m)
    (hroom : oversized cfg d → tc.entries.length < tc.cap) :
    let e := (recoveredEngine cfg d tc).shrink
    Inv e e.memTable [] m ∧ e.dir = (d.execAll (cleanOps cfg d)).execAll (shrinkOps cfg d) ∧
      Throughout (fun d => DiskInv d cfg.maxLevel m) (d.execAll (cleanOps cfg d))
        (shrinkOps cfg d) ∧
      e.logNumber = activeLogNumber d ∧ e.immutables = [] ∧ e.flushQueue = [] ∧
      e.bgError = false ∧ e.cfg = cfg ∧ e.tc.cap = tc.cap := by
  intro e
  by_cases hover : oversized cfg d
  · obtain ⟨h1, h2, h3⟩ := @Inv.recoverFlush m (recoveredEngine cfg d tc) h hover.2 (hroom hover)
    have hb := (@Inv.flushBuild (recoveredEngine cfg d tc) (recoveredMem cfg d) [] m
      ⟨recoveredMem cfg d, activeLogNumber d⟩ h h.addable_mem.1 hover.2).2
    obtain ⟨f, -, heq⟩ := flushAdd_ok hb
    have he : e = { (((recoveredEngine cfg d tc).flushBuild
        ⟨recoveredMem cfg d, activeLogNumber d⟩).1.flushAdd ((recoveredEngine cfg d tc).flushBuild
          ⟨recoveredMem cfg d, activeLogNumber d⟩).2 .ok).1 with
          memTable := newMemTable cfg.memTableSize } := shrink_of_oversized hover
    rw [he, shrinkOps_of_oversized hover tc]
    refine ⟨h3, ?_, ⟨h.disk, h1.disk, ?_⟩, ?_⟩
    · rw [heq]
      rfl
    · have h2 : Inv (((recoveredEngine cfg d tc).flushBuild
          ⟨recoveredMem cfg d, activeLogNumber d⟩).1.flushAdd ((recoveredEngine cfg d tc).flushBuild
            ⟨recoveredMem cfg d, activeLogNumber d⟩).2 .ok).1 _ [] m := h2
      rw [heq] at h2
      exact h2.disk
    · rw [heq]
      exact ⟨rfl, rfl, rfl, rfl, rfl, TableCache.register_cap _ _ _⟩
  · rw [shrinkOps_of_fits hover]
    have hcases : e = recoveredEngine cfg d tc ∨ e = (recoveredEngine cfg d tc).newFileID.1 :=
      shrink_of_fits hover
    rcases hcases with he | he
    · rw [he]
      exact ⟨h, rfl, h.disk, rfl, rfl, rfl, rfl, rfl, rfl⟩
    · rw [he]
      exact ⟨h.newFileID, rfl, h.disk, rfl, rfl, rfl, rfl, rfl, rfl⟩

theorem recordLog_fields (e : LSMEngine) (n : ℕ) :
    (e.recordLog n).logNumber = e.logNumber ∧ (e.recordLog n).memTable = e.memTable ∧
      (e.recordLog n).immutables = e.immutables ∧ (e.recordLog n).flushQueue = e.flushQueue ∧
      (e.recordLog n).bgError = e.bgError ∧ (e.recordLog n).cfg = e.cfg ∧
      (e.recordLog n).tc = e.tc := by
  unfold LSMEngine.recordLog
  split_ifs
  · rw [apply_ok (logNumberEdit_unchecked _)]
    exact ⟨rfl, rfl, rfl, rfl, rfl, rfl, rfl⟩
  · exact ⟨rfl, rfl, rfl, rfl, rfl, rfl, rfl⟩

theorem Inv.finish (h : Inv (recoveredEngine cfg d tc) (recoveredMem cfg d) [] m)
    (hroom : oversized cfg d → tc.entries.length < tc.cap) :
    let e₁ := (recoveredEngine cfg d tc).shrink.recordLog (recoverVersion d.edits).logNumber
    let e := e₁.exec (.appendLog e₁.logNumber [])
    Inv e e.memTable [] m ∧ e.dir = (d.execAll (cleanOps cfg d)).execAll (finishOps cfg d) ∧
      Throughout (fun d => DiskInv d cfg.maxLevel m) (d.execAll (cleanOps cfg d))
        (finishOps cfg d) ∧
      e.immutables = [] ∧ e.flushQueue = [] ∧ e.bgError = false ∧ e.cfg = cfg ∧
      e.tc.cap = tc.cap := by
  obtain ⟨h1, hdir, hthrough, hlog, himm, hqueue, hbg, hcfg, hcap⟩ := h.shrink hroom
  set e₀ := (recoveredEngine cfg d tc).shrink with he₀
  have hrecord : Inv (e₀.recordLog (recoverVersion d.edits).logNumber) e₀.memTable [] m ∧
      (e₀.recordLog (recoverVersion d.edits).logNumber).dir = e₀.dir.execAll (recordOps d) ∧
      Throughout (fun d => DiskInv d cfg.maxLevel m) e₀.dir (recordOps d) := by
    have hd1 := h1.disk
    rw [hcfg] at hd1
    unfold LSMEngine.recordLog recordOps
    rw [hlog]
    split_ifs with hc
    · have h2 := h1.logNumberEdit (activeLogNumber d)
      have hd := h2.disk
      rw [apply_ok (logNumberEdit_unchecked _)] at h2 hd ⊢
      simp only [hcfg] at hd
      exact ⟨h2, rfl, hd1, hd⟩
    · exact ⟨h1, rfl, hd1⟩
  obtain ⟨h2, hdir2, hthrough2⟩ := hrecord
  obtain ⟨hf1, hf2, hf3, hf4, hf5, hf6, hf7⟩ :=
    recordLog_fields e₀ (recoverVersion d.edits).logNumber
  intro e₁ e
  have hlog1 : e₁.logNumber = activeLogNumber d := hf1.trans hlog
  have hdir3 : e.dir = (d.execAll (cleanOps cfg d)).execAll (finishOps cfg d) := by
    rw [finishOps_eq, execAll_append, execAll_append, ← hdir, ← hdir2, ← hlog1]
    rfl
  refine ⟨?_, hdir3, ?_, hf3.trans himm, hf4.trans hqueue, hf5.trans hbg, hf6.trans hcfg,
    (congrArg TableCache.cap hf7).trans hcap⟩
  · have h3 := h2.touchLog e₁.logNumber
    rw [← hf2] at h3
    exact h3
  · rw [finishOps_eq]
    refine (hthrough.append ?_).append ?_
    · rw [← hdir]
      exact hthrough2
    · have hd2 := hthrough2.last
      rw [execAll_append, ← hdir]
      exact ⟨hd2, hd2.touch _⟩

end Finish

/-! ### Opening -/

theorem openEngine_of_registered {cfg : Config} {tc : TableCache} (ht : d.torn = false)
    (h : registerAll d.ssts (recoverVersion d.edits).tables
      (newTableCache cfg.withDefaults.maxOpenFiles) = .ok tc) :
    let e := (recoveredEngine cfg.withDefaults d tc).shrink.recordLog
      (recoverVersion d.edits).logNumber
    openEngine cfg d = .ok (e.exec (.appendLog e.logNumber [])) := by
  unfold openEngine
  simp [h, ht]

theorem openEngine_ok {cfg : Config} {e : LSMEngine} (h : openEngine cfg d = .ok e) :
    d.torn = false ∧ ∃ tc, registerAll d.ssts (recoverVersion d.edits).tables
        (newTableCache cfg.withDefaults.maxOpenFiles) = .ok tc ∧
      e = ((recoveredEngine cfg.withDefaults d tc).shrink.recordLog
        (recoverVersion d.edits).logNumber).exec (.appendLog ((recoveredEngine cfg.withDefaults d
          tc).shrink.recordLog (recoverVersion d.edits).logNumber).logNumber []) := by
  have ht : d.torn = false := by
    by_contra hc
    rw [openEngine, if_pos (by simpa using hc)] at h
    cases h
  cases hreg : registerAll d.ssts (recoverVersion d.edits).tables
      (newTableCache cfg.withDefaults.maxOpenFiles) with
  | error err =>
    simp [openEngine, ht, hreg] at h
  | ok tc =>
    rw [openEngine_of_registered ht hreg] at h
    cases h
    exact ⟨ht, tc, rfl, rfl⟩

/-- The engine with another setting of `SyncWAL`. -/
def setSync (b : Bool) (e : LSMEngine) : LSMEngine :=
  { e with cfg := { e.cfg with syncWAL := b } }

theorem setSync_register (b : Bool) (e : LSMEngine) (id : ℕ) :
    (setSync b e).register id = setSync b (e.register id) := by
  unfold LSMEngine.register
  have hdir : (setSync b e).dir = e.dir := rfl
  rw [hdir]
  cases e.dir.ssts.lookup id <;> rfl

theorem setSync_flushAdd (b : Bool) (e : LSMEngine) (t : SSTableMeta) :
    ((setSync b e).flushAdd t .ok).1 = setSync b (e.flushAdd t .ok).1 := by
  unfold LSMEngine.flushAdd
  rw [setSync_register]
  rfl

theorem setSync_shrink (b : Bool) (e : LSMEngine) : (setSync b e).shrink = setSync b e.shrink := by
  unfold LSMEngine.shrink LSMEngine.recoverFlushOversizedMemtable
  change (if e.cfg.memTableSize < e.memTable.approximateSize then
    if e.memTable.entries = [] then _ else _ else _) = _
  split_ifs
  · rfl
  · exact congrArg (fun x : LSMEngine => { x with memTable := newMemTable e.cfg.memTableSize })
      (setSync_flushAdd b (e.flushBuild ⟨e.memTable, e.logNumber⟩).1
        (e.flushBuild ⟨e.memTable, e.logNumber⟩).2)
  · rfl

theorem setSync_recordLog (b : Bool) (e : LSMEngine) (n : ℕ) :
    (setSync b e).recordLog n = setSync b (e.recordLog n) := by
  unfold LSMEngine.recordLog
  change (if n ≠ e.logNumber then _ else _) = _
  split_ifs <;> rfl

theorem openEngine_syncWAL (cfg : Config) (d : DataDir) (b : Bool) :
    openEngine { cfg with syncWAL := b } d = (openEngine cfg d).map (setSync b) := by
  have hfiles : ({ cfg with syncWAL := b } : Config).withDefaults.maxOpenFiles =
      cfg.withDefaults.maxOpenFiles := rfl
  unfold openEngine
  simp only [hfiles]
  split_ifs
  · rfl
  cases registerAll d.ssts (recoverVersion d.edits).tables
      (newTableCache cfg.withDefaults.maxOpenFiles) with
  | error err => rfl
  | ok tc =>
    have hrun : (setSync b (recoveredEngine cfg.withDefaults d tc)).shrink.recordLog
        (recoverVersion d.edits).logNumber = setSync b ((recoveredEngine cfg.withDefaults d
          tc).shrink.recordLog (recoverVersion d.edits).logNumber) := by
      rw [setSync_shrink, setSync_recordLog]
    exact congrArg (fun e : LSMEngine => Except.ok (e.exec (.appendLog e.logNumber []))) hrun

/-- **Opening a directory** succeeds, yields an engine for the map of the directory, and takes the
durable steps `recoverOps`, each of which keeps that map. -/
theorem DiskInv.openEngine {cfg : Config} (h : DiskInv d cfg.maxLevel m)
    (hsync : cfg.syncWAL = true)
    (hroom : OpenRoom cfg.withDefaults d) :
    ∃ e, openEngine cfg d = .ok e ∧ Inv e e.memTable e.immutables m ∧
      e.dir = d.execAll (recoverOps cfg d) ∧
      Throughout (fun d => DiskInv d cfg.maxLevel m) d (recoverOps cfg d) ∧
      e.immutables = [] ∧ e.flushQueue = [] ∧ e.bgError = false ∧ e.cfg = cfg.withDefaults ∧
      e.tc.cap = (newTableCache cfg.withDefaults.maxOpenFiles).cap := by
  unfold OpenRoom at hroom
  obtain ⟨tc, htc, hreg, hcap, hlen⟩ := @Openable.registerAll d h.openable
    cfg.withDefaults.maxOpenFiles (by omega)
  have h0 : Inv (LsmTree.recoveredEngine cfg.withDefaults d tc) (recoveredMem cfg.withDefaults d)
    [] m :=
    @DiskInv.recoveredEngine d m cfg.withDefaults h hsync tc hreg
  obtain ⟨h1, hdir, hthrough, himm, hqueue, hbg, hcfg, hcap'⟩ := h0.finish (fun hover => by
    rw [if_pos hover] at hroom
    omega)
  refine ⟨_, openEngine_of_registered h.untorn htc, by rw [himm]; exact h1, ?_, ?_, himm, hqueue,
    hbg, hcfg, hcap'.trans hcap⟩
  · rw [hdir, recoverOps, execAll_append]
  · unfold recoverOps
    exact (h.cleanOps cfg.withDefaults).1.append hthrough

end LsmTree
