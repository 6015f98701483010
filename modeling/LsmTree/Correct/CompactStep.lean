import LsmTree.Correct.Inv

/-!
# Compacting a level

`compactLevel` without a failing write is a `LeveledStep` on the version and the files, in memory
and on disk alike, so it keeps the invariant.
-/

namespace LsmTree

open Versioned

variable {e : LSMEngine} {level : ℕ}

variable {ins : List SSTableMeta} {p : CompactionPlan} {x : SSTableMeta}

theorem LeveledInputs.of_mem_iff {v : Version} {maxLevel i : ℕ} {ins' : List SSTableMeta}
    (h : LeveledInputs v maxLevel i ins) (hm : ∀ x, x ∈ ins' ↔ x ∈ ins) :
    LeveledInputs v maxLevel i ins' := by
  obtain ⟨lo, hi, h1, h2⟩ := h.range
  refine ⟨h.lt, fun x hx => h.upper x ((hm x).1 hx), fun hi x hx => (hm x).2 (h.all_l0 hi x hx),
    lo, hi, fun x hx => h1 x ((hm x).1 hx), fun x hx => (hm x).trans (h2 x hx)⟩

theorem foldl_applyEdit_levels {edits : List VersionEdit} {j : ℕ}
    (h : ∀ edit ∈ edits, edit.level ≠ j)
    (v : Version) : (edits.foldl Version.applyEdit v).levels j = v.levels j := by
  induction edits generalizing v with
  | nil => rfl
  | cons edit edits ih =>
    rw [List.foldl_cons, ih (fun x hx => h x (List.mem_cons_of_mem edit hx))]
    have hj : j ≠ edit.level := (h edit List.mem_cons_self).symm
    unfold Version.applyEdit
    cases edit.type <;> simp [Function.update_of_ne hj]

theorem foldl_applyEdit_maxSeqNo (edits : List VersionEdit) (v : Version) :
    v.maxSeqNo ≤ (edits.foldl Version.applyEdit v).maxSeqNo := by
  induction edits generalizing v with
  | nil => exact le_rfl
  | cons edit edits ih =>
    refine le_trans ?_ (ih _)
    unfold Version.applyEdit
    cases edit.type with
    | maxSeqNo => exact le_max_left _ _
    | addSSTable => exact le_rfl
    | deleteSSTable => exact le_rfl
    | logNumber => exact le_rfl
    | nextFileID => exact le_rfl

def CompactionPlan.commit (p : CompactionPlan) (v : Version) : Version :=
  p.commitEdits.foldl Version.applyEdit v

/-- What the tables must be like for a compaction: well-formed, consistent, with their readers, and
with room in the cache for the outputs. -/
structure CompactPre (e : LSMEngine) (level : ℕ) : Prop where
  tables : TablesOk e.current e.files e.cfg.maxLevel
  agrees : Agrees (tableVersions e.current e.files)
  books : Books e
  nonempty : leveledInputs e.current e.cfg.maxLevel level ≠ []

/-- What is needed of the tables to follow a compaction through the version. -/
structure CompactShape (e : LSMEngine) (level : ℕ) : Prop where
  tables : TablesShape e.current e.files e.cfg.maxLevel
  listed_le : ∀ j, ∀ x ∈ e.current.levels j, x.fileID ≤ e.nextFileID
  nonempty : leveledInputs e.current e.cfg.maxLevel level ≠ []

theorem CompactPre.shape (h : CompactPre e level) : CompactShape e level :=
  ⟨h.tables.shape, fun _ _ hx => h.books.listed_le h.tables hx, h.nonempty⟩

/-- The same for a compaction of any listed tables. -/
structure PlanShape (e : LSMEngine) (ins : List SSTableMeta) : Prop where
  tables : TablesShape e.current e.files e.cfg.maxLevel
  listed_le : ∀ j, ∀ x ∈ e.current.levels j, x.fileID ≤ e.nextFileID
  listed : ∀ x ∈ ins, ∃ j, x ∈ e.current.levels j

abbrev LSMEngine.levelPlan (e : LSMEngine) (level : ℕ) : CompactionPlan :=
  e.planCompaction (leveledInputs e.current e.cfg.maxLevel level) (level + 1)

theorem mem_planInputs {l : ℕ} (hp : PlanOk e ins l p) : x ∈ p.inputs ↔ x ∈ ins := by
  rw [hp.inputs_eq]
  exact List.mem_insertionSort _

theorem CompactShape.input (h : CompactShape e level) (hx : x ∈ (e.levelPlan level).inputs) :
    x ∈ e.current.levels level ∨ x ∈ e.current.levels (level + 1) :=
  (leveledInputs_spec h.tables h.nonempty).upper x
    ((mem_planInputs (planCompaction_ok e _ _)).1 hx)

theorem CompactShape.input_listed (h : CompactShape e level) (hx : x ∈ (e.levelPlan level).inputs) :
    ∃ j, x ∈ e.current.levels j :=
  (h.input hx).elim (fun hl => ⟨_, hl⟩) (fun hl => ⟨_, hl⟩)

theorem CompactShape.plan (h : CompactShape e level) :
    PlanShape e (leveledInputs e.current e.cfg.maxLevel level) :=
  ⟨h.tables, h.listed_le, fun _ hx =>
    h.input_listed ((mem_planInputs (planCompaction_ok e _ _)).2 hx)⟩

/-! ### The merged stream -/

def LSMEngine.ReadersRight (e : LSMEngine) : Prop :=
  ∀ i, ∀ t ∈ e.current.levels i, ∀ f, e.tc.readerOf t.fileID = some f → e.files t.fileID = some f

variable {maxLevel : ℕ}

theorem TablesShape.reader (h : TablesShape e.current e.files maxLevel) (hr : e.ReadersRight)
    {j : ℕ} (hx : x ∈ e.current.levels j) {t : SSTable} (ht : e.tc.readerOf x.fileID = some t) :
    e.files x.fileID = some t ∧ TableShape x t ∧ t.iterate = t.entries := by
  have hf := hr j x hx t ht
  obtain ⟨t', ht', hok⟩ := h.table hx
  rw [hf] at ht'
  cases ht'
  exact ⟨hf, hok, hok.built.iterate_eq⟩

theorem TablesShape.stream (h : TablesShape e.current e.files maxLevel) (hr : e.ReadersRight)
    (hlisted : ∀ x ∈ ins, ∃ j, x ∈ e.current.levels j) :
    StreamFrom (mergedStream e.tc.readerOf ins) none := by
  refine ⟨mergedStream_sorted (fun m hm t ht => ?_), fun x hx => ?_, fun p hp => by cases hp⟩
  · obtain ⟨j, hj⟩ := hlisted m hm
    obtain ⟨-, hok, hit⟩ := h.reader hr hj ht
    rw [hit]
    exact hok.sorted
  · obtain ⟨m, hm, t, ht, hx⟩ := mem_mergedStream.1 hx
    obtain ⟨j, hj⟩ := hlisted m hm
    obtain ⟨-, hok, hit⟩ := h.reader hr hj ht
    exact hok.keys x (hit ▸ hx)

theorem TablesShape.mem_stream (h : TablesShape e.current e.files maxLevel) (hr : e.ReadersRight)
    (hlisted : ∀ x ∈ ins, ∃ j, x ∈ e.current.levels j) {y : Entry} :
    y ∈ mergedStream e.tc.readerOf ins ↔
      ∃ m ∈ ins, (e.tc.readerOf m.fileID).isSome ∧ y ∈ tableSet e.files m := by
  rw [mem_mergedStream]
  constructor
  · rintro ⟨m, hm, t, ht, hy⟩
    obtain ⟨j, hj⟩ := hlisted m hm
    obtain ⟨hf, -, hit⟩ := h.reader hr hj ht
    exact ⟨m, hm, by rw [ht]; rfl, t, hf, hit ▸ hy⟩
  · rintro ⟨m, hm, hsome, t, hf, hy⟩
    obtain ⟨j, hj⟩ := hlisted m hm
    obtain ⟨t', ht'⟩ := Option.isSome_iff_exists.1 hsome
    obtain ⟨hf', -, hit⟩ := h.reader hr hj ht'
    rw [hf] at hf'
    cases hf'
    exact ⟨m, hm, t, ht', hit.symm ▸ hy⟩

theorem Books.readersRight (h : Books e) : e.ReadersRight :=
  fun i t ht _ hf => (h.readers i t ht).symm.trans hf

theorem Books.mem_stream (h : Books e) (ht : TablesShape e.current e.files maxLevel)
    (hlisted : ∀ x ∈ ins, ∃ j, x ∈ e.current.levels j) {y : Entry} :
    y ∈ mergedStream e.tc.readerOf ins ↔ ∃ m ∈ ins, y ∈ tableSet e.files m := by
  rw [ht.mem_stream h.readersRight hlisted]
  refine exists_congr fun m => and_congr_right fun hm => and_iff_right ?_
  obtain ⟨j, hj⟩ := hlisted m hm
  obtain ⟨t, hf, -⟩ := ht.table hj
  rw [h.readers j m hj, hf]
  rfl

/-- The version after some tables were added and then some deleted. -/
def editedVersion (v : Version) (add del : List SSTableMeta) : Version :=
  (add.map (fun m => addEdit m true) ++ del.map (fun m => deleteEdit m.level m.fileID)).foldl
    Version.applyEdit v

theorem commitEdits_eq (p : CompactionPlan) : p.commitEdits =
    (p.outputs.map Prod.fst).map (fun m => addEdit m true) ++
      p.inputs.map (fun m => deleteEdit m.level m.fileID) := by
  rw [CompactionPlan.commitEdits, List.map_map]
  rfl

theorem CompactionPlan.commit_eq (p : CompactionPlan) (v : Version) :
    p.commit v = editedVersion v (p.outputs.map Prod.fst) p.inputs := by
  rw [CompactionPlan.commit, commitEdits_eq]
  rfl

section Edited

variable {add del : List SSTableMeta} {l : ℕ}

variable {x : SSTableMeta}

theorem plan_output (hx : x ∈ (e.planCompaction ins l).outputs.map Prod.fst) :
    x.createdAt = 0 ∧ x.level = l ∧ e.nextFileID < x.fileID := by
  obtain ⟨o, ho, rfl⟩ := List.mem_map.1 hx
  have hp := planCompaction_ok e ins l
  exact ⟨(hp.outs o ho).created, (hp.outs o ho).level_eq, (hp.outs o ho).id_gt⟩

theorem PlanShape.eq_of_id (h : PlanShape e ins)
    (hdel : ∀ x ∈ del, x ∈ (e.planCompaction ins l).inputs ∨
      x ∈ (e.planCompaction ins l).outputs.map Prod.fst) {y : SSTableMeta} (hx : x ∈ del)
    (hid : x.fileID = y.fileID)
    (hy : (∃ j, y ∈ e.current.levels j) ∨ y ∈ (e.planCompaction ins l).outputs.map Prod.fst) :
    x = y := by
  have hp := planCompaction_ok e ins l
  rcases hdel x hx with hx | hx
  · obtain ⟨j, hj⟩ := h.listed x ((mem_planInputs hp).1 hx)
    rcases hy with ⟨j', hy⟩ | hy
    · exact h.tables.ids j j' x hj y hy hid
    · have h1 := h.listed_le j _ hj
      have h2 := (plan_output hy).2.2
      omega
  · rcases hy with ⟨j', hy⟩ | hy
    · have h1 := h.listed_le j' _ hy
      have h2 := (plan_output hx).2.2
      omega
    · obtain ⟨o, ho, rfl⟩ := List.mem_map.1 hx
      obtain ⟨o', ho', rfl⟩ := List.mem_map.1 hy
      rcases pairwise_cases hp.ids ho ho' with heq | hlt | hlt
      · rw [heq]
      · exact absurd hid hlt.ne
      · exact absurd hid.symm hlt.ne

theorem PlanShape.mem_edited (h : PlanShape e ins)
    (hadd : ∀ x ∈ add, x ∈ (e.planCompaction ins l).outputs.map Prod.fst)
    (hdel : ∀ x ∈ del, x ∈ (e.planCompaction ins l).inputs ∨
      x ∈ (e.planCompaction ins l).outputs.map Prod.fst) {j : ℕ} :
    x ∈ (editedVersion e.current add del).levels j ↔
      (x ∈ e.current.levels j ∨ (x ∈ add ∧ j = l)) ∧ x ∉ del := by
  rw [editedVersion, List.foldl_append, mem_foldl_deleteEdit,
    mem_foldl_addEdit (fun m hm => (plan_output (hadd m hm)).1)]
  have hold : (x ∈ e.current.levels j ∨ (x ∈ add ∧ x.level = j)) ↔
      (x ∈ e.current.levels j ∨ (x ∈ add ∧ j = l)) := by
    refine or_congr_right (and_congr_right fun hx => ?_)
    rw [(plan_output (hadd x hx)).2.1]
    exact eq_comm
  rw [hold]
  refine and_congr_right fun hx => ?_
  have hlevel : x.level = j := by
    rcases hx with hx | ⟨hx, rfl⟩
    · exact (h.tables.ok j x hx).1
    · exact (plan_output (hadd x hx)).2.1
  constructor
  · exact fun hno hc => hno x hc hlevel rfl
  · intro hno m hm _ hid
    refine hno ?_
    rw [← h.eq_of_id hdel hm hid
      (hx.elim (fun hx => Or.inl ⟨j, hx⟩) (fun hx => Or.inr (hadd x hx.1)))]
    exact hm

theorem PlanShape.edited_sorted (h : PlanShape e ins)
    (hadd : add.Sublist ((e.planCompaction ins l).outputs.map Prod.fst)) (del : List SSTableMeta) :
    LevelsSorted (editedVersion e.current add del) := by
  rw [editedVersion, List.foldl_append]
  refine LevelsSorted.foldl_delete (h.tables.levelsSorted.foldl_add ?_ ?_ ?_) _
  · exact fun m hm => (plan_output (hadd.subset hm)).1
  · refine List.Pairwise.sublist hadd ?_
    rw [List.pairwise_map]
    exact (planCompaction_ok e ins l).ids
  · intro m hm j x hx
    exact (h.listed_le j x hx).trans_lt (plan_output (hadd.subset hm)).2.2

theorem PlanShape.edited_rest (h : PlanShape e ins)
    (hadd : ∀ x ∈ add, x ∈ (e.planCompaction ins l).outputs.map Prod.fst)
    (hdel : ∀ x ∈ del, x ∈ (e.planCompaction ins l).inputs ∨
      x ∈ (e.planCompaction ins l).outputs.map Prod.fst)
    {j : ℕ} (hj : ∀ x ∈ ins, x ∉ e.current.levels j) (hj' : j ≠ l) :
    (editedVersion e.current add del).levels j = e.current.levels j := by
  refine foldl_applyEdit_levels (fun edit hedit => ?_) _
  rcases List.mem_append.1 hedit with hedit | hedit
  · obtain ⟨x, hx, rfl⟩ := List.mem_map.1 hedit
    change x.level ≠ j
    rw [(plan_output (hadd x hx)).2.1]
    exact hj'.symm
  · obtain ⟨x, hx, rfl⟩ := List.mem_map.1 hedit
    change x.level ≠ j
    rcases hdel x hx with hx | hx
    · have hx := (mem_planInputs (planCompaction_ok e ins l)).1 hx
      obtain ⟨i, hi⟩ := h.listed x hx
      rw [(h.tables.ok i x hi).1]
      rintro rfl
      exact hj x hx hi
    · rw [(plan_output hx).2.1]
      exact hj'.symm

theorem CompactShape.not_input (h : CompactShape e level) {j : ℕ} (hj : j ≠ level)
    (hj' : j ≠ level + 1) :
    ∀ x ∈ leveledInputs e.current e.cfg.maxLevel level, x ∉ e.current.levels j := by
  intro x hx hxj
  have h1 := (h.tables.ok j x hxj).1
  rcases (leveledInputs_spec h.tables h.nonempty).upper x hx with hl | hl
  · exact hj (h1.symm.trans (h.tables.ok _ x hl).1)
  · exact hj' (h1.symm.trans (h.tables.ok _ x hl).1)

end Edited

theorem PlanShape.mem_commit (h : PlanShape e ins) {l j : ℕ} {x : SSTableMeta} :
    x ∈ ((e.planCompaction ins l).commit e.current).levels j ↔
      (x ∈ e.current.levels j ∧ x ∉ (e.planCompaction ins l).inputs) ∨
        ∃ t, (x, t) ∈ (e.planCompaction ins l).outputs ∧ j = l := by
  rw [CompactionPlan.commit_eq, h.mem_edited (fun _ hx => hx) (fun _ hx => Or.inl hx)]
  constructor
  · rintro ⟨hx | ⟨hx, hj⟩, hno⟩
    · exact Or.inl ⟨hx, hno⟩
    · obtain ⟨o, ho, rfl⟩ := List.mem_map.1 hx
      exact Or.inr ⟨o.2, ho, hj⟩
  · rintro (⟨hx, hno⟩ | ⟨t, ho, hj⟩)
    · exact ⟨Or.inl hx, hno⟩
    · have hx : x ∈ (e.planCompaction ins l).outputs.map Prod.fst := List.mem_map.2 ⟨_, ho, rfl⟩
      refine ⟨Or.inr ⟨hx, hj⟩, fun hc => ?_⟩
      obtain ⟨j', hj'⟩ := h.listed x ((mem_planInputs (planCompaction_ok e ins l)).1 hc)
      have h1 := h.listed_le j' _ hj'
      have h2 := (plan_output hx).2.2
      omega

theorem CompactShape.mem_commit (h : CompactShape e level) {j : ℕ} {x : SSTableMeta} :
    x ∈ ((e.levelPlan level).commit e.current).levels j ↔
      (x ∈ e.current.levels j ∧ x ∉ (e.levelPlan level).inputs) ∨
        ∃ t, (x, t) ∈ (e.levelPlan level).outputs ∧ j = level + 1 := by
  unfold LSMEngine.levelPlan
  exact h.plan.mem_commit

/-- **A leveled compaction on any files that keep the old tables and have the outputs.** -/
theorem CompactPre.leveledStep (h : CompactPre e level) {files' : ℕ → Option SSTable}
    (hold : ∀ j, ∀ x ∈ e.current.levels j, x ∉ (e.levelPlan level).inputs →
      files' x.fileID = e.files x.fileID)
    (hout : ∀ o ∈ (e.levelPlan level).outputs, files' o.1.fileID = some o.2) :
    LeveledStep e.current e.files e.cfg.maxLevel level (e.levelPlan level).inputs
      (e.levelPlan level).outputs (mergedStream e.tc.readerOf (e.levelPlan level).inputs)
      ((e.levelPlan level).commit e.current) files' := by
  have hp := planCompaction_ok e (leveledInputs e.current e.cfg.maxLevel level) (level + 1)
  exact {
    tables := h.tables
    agrees := h.agrees
    inputs := (leveledInputs_spec h.tables.shape h.nonempty).of_mem_iff (fun x => mem_planInputs hp)
    mem_es := fun x => h.books.mem_stream h.tables.shape fun _ hx => h.shape.input_listed hx
    stream := h.tables.shape.stream h.books.readersRight fun _ hx => h.shape.input_listed hx
    entries := hp.entries
    outs_ok := ⟨e.nextFileID, _, hp.outs, fun j x hx => h.books.listed_le h.tables hx⟩
    out_ids := hp.ids
    levels := fun j x => h.shape.mem_commit
    rest := fun j hj hj' => by
      rw [CompactionPlan.commit_eq]
      unfold LSMEngine.levelPlan
      exact h.shape.plan.edited_rest (fun _ hx => hx) (fun _ hx => Or.inl hx)
        (h.shape.not_input hj hj') hj'
    sorted := by
      rw [CompactionPlan.commit_eq]
      unfold LSMEngine.levelPlan
      exact h.shape.plan.edited_sorted (List.Sublist.refl _) _
    old_files := hold
    out_files := hout }

/-- What a successful `compactLevel` does. -/
structure Compacted (e e' : LSMEngine) (level : ℕ) : Prop where
  step : LeveledStep e.current e.files e.cfg.maxLevel level (e.levelPlan level).inputs
    (e.levelPlan level).outputs (mergedStream e.tc.readerOf (e.levelPlan level).inputs)
    e'.current e'.files
  books : Books e'
  cfg : e'.cfg = e.cfg
  logs : e'.dir.logs = e.dir.logs
  torn : e'.dir.torn = e.dir.torn
  memTable : e'.memTable = e.memTable
  immutables : e'.immutables = e.immutables
  flushQueue : e'.flushQueue = e.flushQueue
  walBuf : e'.walBuf = e.walBuf
  logNumber : e'.logNumber = e.logNumber
  seqNo : e'.seqNo = e.seqNo
  nextFileID : e.nextFileID ≤ e'.nextFileID
  maxSeqNo : e.current.maxSeqNo ≤ e'.current.maxSeqNo
  bgError : e'.bgError = e.bgError
  cap : e'.tc.cap = e.tc.cap

theorem Books.committed {l : ℕ} (h : Books e) (hs : PlanShape e ins)
    (hpeq : e.planCompaction ins l = p) {ssts₀ ssts : Files SSTable} {tc₀ tc : TableCache}
    (hst : Staged e p ssts₀ tc₀) (hu : tc.Unique)
    (hssts : ∀ j, ssts.lookup j =
      if j ∈ p.inputs.map SSTableMeta.fileID then none else ssts₀.lookup j)
    (htc : ∀ j, tc.readerOf j =
      if j ∈ p.inputs.map SSTableMeta.fileID then none else tc₀.readerOf j) :
    (∀ j, ∀ x ∈ e.current.levels j, x ∉ p.inputs → ssts.lookup x.fileID = e.files x.fileID) ∧
    (∀ o ∈ p.outputs, ssts.lookup o.1.fileID = some o.2) ∧
    Books { e with
      dir := { e.dir with
        ssts := ssts, edits := e.dir.edits ++ p.commitEdits.map VersionEdit.persisted }
      tc := tc
      current := p.commitEdits.foldl Version.applyEdit e.current
      nextFileID := p.nextFileID } := by
  have hp : PlanOk e ins l p := hpeq ▸ planCompaction_ok e _ _
  have hlisted : ∀ x ∈ p.inputs, ∃ j, x ∈ e.current.levels j := fun x hx =>
    hs.listed x ((mem_planInputs hp).1 hx)
  -- the numbers of inputs, of other tables and of outputs are apart
  have hkeep : ∀ j, ∀ x ∈ e.current.levels j, x ∉ p.inputs →
      x.fileID ∉ p.inputs.map SSTableMeta.fileID := by
    intro j x hx hnot hc
    obtain ⟨y, hy, hid⟩ := List.mem_map.1 hc
    obtain ⟨j', hj'⟩ := hlisted y hy
    exact hnot (hs.tables.ids j' j y hj' x hx hid ▸ hy)
  have hnew : ∀ o ∈ p.outputs, o.1.fileID ∉ p.inputs.map SSTableMeta.fileID := by
    intro o ho hc
    obtain ⟨y, hy, hid⟩ := List.mem_map.1 hc
    obtain ⟨j', hj'⟩ := hlisted y hy
    have h1 := hs.listed_le j' _ hj'
    have h2 := (hp.outs o ho).id_gt
    omega
  have hold : ∀ j, ∀ x ∈ e.current.levels j, x ∉ p.inputs →
      ssts.lookup x.fileID = e.files x.fileID := by
    intro j x hx hnot
    rw [hssts, if_neg (hkeep j x hx hnot), hst.old_file _ (hs.listed_le j x hx)]
    rfl
  have hout : ∀ o ∈ p.outputs, ssts.lookup o.1.fileID = some o.2 := by
    intro o ho
    rw [hssts, if_neg (hnew o ho), hst.out_file o ho]
  have hver : p.commitEdits.foldl Version.applyEdit e.current =
      recoverVersion (e.dir.edits ++ p.commitEdits.map VersionEdit.persisted) := by
    rw [recoverVersion_appendAll _ (commitEdits_replay _), h.version]
    rfl
  refine ⟨hold, hout, hver, fun id hid => ?_, fun id hid => ?_, hu, fun j x hx => ?_⟩
  · change ssts.lookup id ≠ none at hid
    rw [hssts] at hid
    split_ifs at hid with hc
    · exact absurd rfl hid
    · by_contra hlt
      have hlt : p.nextFileID < id := not_le.1 hlt
      rw [hst.file_ids id hlt] at hid
      have h1 := h.file_ids id hid
      have h2 := hp.next_ge
      omega
  · change tc.readerOf id ≠ none at hid
    rw [htc] at hid
    split_ifs at hid with hc
    · exact absurd rfl hid
    · exact hst.reader_ids id hid
  · have hmem := @PlanShape.mem_commit e ins hs l j x
    rw [hpeq] at hmem
    change tc.readerOf x.fileID = ssts.lookup x.fileID
    rcases hmem.1 hx with ⟨hx, hnot⟩ | ⟨t, ho, -⟩
    · rw [hold j x hx hnot, htc, if_neg (hkeep j x hx hnot),
        hst.old_reader _ (hs.listed_le j x hx)]
      exact h.readers j x hx
    · rw [htc, if_neg (hnew _ ho), hst.out_reader _ ho, hout _ ho]

theorem CompactPre.compacted_of (h : CompactPre e level) (hpeq : e.levelPlan level = p)
    {ssts₀ ssts : Files SSTable} {tc₀ tc : TableCache} (hst : Staged e p ssts₀ tc₀) (hu : tc.Unique)
    (hcap : tc.cap = e.tc.cap)
    (hssts : ∀ j, ssts.lookup j =
      if j ∈ p.inputs.map SSTableMeta.fileID then none else ssts₀.lookup j)
    (htc : ∀ j, tc.readerOf j =
      if j ∈ p.inputs.map SSTableMeta.fileID then none else tc₀.readerOf j) :
    Compacted e { e with
      dir := { e.dir with
        ssts := ssts, edits := e.dir.edits ++ p.commitEdits.map VersionEdit.persisted }
      tc := tc
      current := p.commitEdits.foldl Version.applyEdit e.current
      nextFileID := p.nextFileID } level := by
  obtain ⟨hold, hout, hbooks⟩ := h.books.committed h.shape.plan hpeq hst hu hssts htc
  have hstep : LeveledStep e.current e.files e.cfg.maxLevel level (e.levelPlan level).inputs
      (e.levelPlan level).outputs (mergedStream e.tc.readerOf (e.levelPlan level).inputs)
      ((e.levelPlan level).commit e.current) (fun id => ssts.lookup id) :=
    h.leveledStep (by rw [hpeq]; exact hold) (by rw [hpeq]; exact hout)
  have hcommit : (e.levelPlan level).commit e.current =
      p.commitEdits.foldl Version.applyEdit e.current := by
    rw [hpeq, CompactionPlan.commit]
  rw [hcommit] at hstep
  have hp : PlanOk e (leveledInputs e.current e.cfg.maxLevel level) (level + 1) p :=
    hpeq ▸ planCompaction_ok e _ _
  exact {
    step := hstep
    books := hbooks
    cfg := rfl
    logs := rfl
    torn := rfl
    memTable := rfl
    immutables := rfl
    flushQueue := rfl
    walBuf := rfl
    logNumber := rfl
    seqNo := rfl
    nextFileID := hp.next_ge
    maxSeqNo := foldl_applyEdit_maxSeqNo _ _
    bgError := rfl
    cap := hcap }

/-- **The effect of `compactLevel`.** -/
theorem CompactPre.compacted (h : CompactPre e level)
    (hroom : e.tc.entries.length + (e.levelPlan level).outputs.length ≤ e.tc.cap)
    (rb : ℕ → WriteResult) : Compacted e (e.compactLevel level (fun _ => .ok) rb).1 level := by
  obtain ⟨ssts₀, tc₀, ssts, tc, hst, heq, hu, hcap, hssts, htc⟩ := @executeCompaction_ok e
    (leveledInputs e.current e.cfg.maxLevel level) (level + 1)
    ⟨h.books.unique, h.books.reader_ids, hroom⟩ rb
  have hrun : (e.compactLevel level (fun _ => .ok) rb).1 =
      (e.executeCompaction (leveledInputs e.current e.cfg.maxLevel level) (level + 1)
        (fun _ => .ok) rb).1 := by
    unfold LSMEngine.compactLevel
    simp only [if_neg h.nonempty]
  rw [hrun, heq]
  exact h.compacted_of rfl hst hu hcap hssts htc

theorem compactLevel_of_nil (h : leveledInputs e.current e.cfg.maxLevel level = [])
    (res rb : ℕ → WriteResult) : e.compactLevel level res rb = (e, true) := by
  unfold LSMEngine.compactLevel
  simp only [if_pos h]

variable {mem : MemTable} {imms : List ImmutableMemtable} {m : Bytes → Option Bytes}

theorem Inv.agrees_tables (h : Inv e mem imms m) : Agrees (tableVersions e.current e.files) :=
  h.layered.agrees_tables

theorem Inv.compacted (h : Inv e mem imms m) {e' : LSMEngine} (hc : Compacted e e' level) :
    Inv e' mem imms m := by
  have hlogs : ∀ id, logSet e'.dir id = logSet e.dir id := fun id => by
    unfold logSet DataDir.log
    rw [hc.logs]
  have hwal : walSet e'.dir = walSet e.dir := by
    unfold walSet
    simp only [hlogs]
  have hstep := hc.step
  refine ⟨?_, ?_, ?_, hc.books, ?_, ?_, ?_, ?_⟩
  · rw [hc.cfg]
    exact h.layered.compact hstep
  · rw [hc.cfg]
    have hdisk := hstep
    have hs := hc.maxSeqNo
    rw [h.books.version, hc.books.version] at hdisk hs
    exact h.disk.compact hdisk hwal hs hc.torn
  · rw [hc.logNumber]
    exact h.owned.congr hlogs
  · rw [hc.logNumber]
    exact fun o ho => (h.owner_ids o ho).trans hc.nextFileID
  · rw [hwal, hc.seqNo]
    rintro x (hx | hx)
    · exact h.seq_le x (Or.inl hx)
    · exact h.seq_le x (Or.inr (h.layered.compact_sub hstep hx))
  · rw [hc.cfg]; exact h.sync
  · rw [hc.walBuf]; exact h.walBuf

end LsmTree
