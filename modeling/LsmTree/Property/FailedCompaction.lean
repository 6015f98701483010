import LsmTree.Property.CompactionCommit

/-!
# Failed compactions

If a manifest edit of the commit fails, `executeCompaction` removes the outputs and tries to take
their records back; inputs that are deleted already stay deleted.  So nothing is lost exactly if
every output that was added is taken out again, in memory and in the manifest file, no part of a
record stays in the file, and the inputs that are left still show what all inputs showed
(`failed_compaction_iff`).  A failure of the second deletion is enough to lose a key
(`failedDelete_loses`).
-/

namespace LsmTree

open Versioned

variable {α : Type*} {edits : List VersionEdit} {p : CompactionPlan} {del : List SSTableMeta}

/-! ### The writes that came through -/

def WriteResult.applied (r : WriteResult) : Bool := decide (r = .ok)

def WriteResult.recorded (r : WriteResult) : Bool := decide (r = .ok ∨ r = .failed .whole)

def WriteResult.torn (r : WriteResult) : Bool := decide (r = .failed .part)

/-- The elements of a list whose writes ended as wanted. -/
def chosen {α : Type*} (P : WriteResult → Bool) : List α → (ℕ → WriteResult) → List α
  | [], _ => []
  | x :: xs, res => (if P (res 0) then [x] else []) ++ chosen P xs (fun i => res (i + 1))

theorem chosen_map {β : Type*} (P : WriteResult → Bool) (f : α → β) (xs : List α)
    (res : ℕ → WriteResult) : chosen P (xs.map f) res = (chosen P xs res).map f := by
  induction xs generalizing res with
  | nil => rfl
  | cons x xs ih =>
    rw [List.map_cons, chosen, chosen, ih, List.map_append]
    split_ifs <;> rfl

theorem mem_chosen {P : WriteResult → Bool} {xs : List α} {res : ℕ → WriteResult} {x : α} :
    x ∈ chosen P xs res ↔ ∃ i, xs[i]? = some x ∧ P (res i) = true := by
  induction xs generalizing res with
  | nil => simp [chosen]
  | cons y xs ih =>
    rw [chosen, List.mem_append, ih]
    constructor
    · rintro (hx | ⟨i, hi, hp⟩)
      · split_ifs at hx with hp
        · exact ⟨0, by rw [List.mem_singleton.1 hx]; rfl, hp⟩
        · cases hx
      · exact ⟨i + 1, hi, hp⟩
    · rintro ⟨i, hi, hp⟩
      cases i with
      | zero =>
        rw [List.getElem?_cons_zero, Option.some.injEq] at hi
        rw [if_pos hp, hi]
        exact Or.inl (List.mem_singleton_self x)
      | succ i => exact Or.inr ⟨i, hi, hp⟩

theorem applyIgnore_eq (h : ∀ edit ∈ edits, edit.Unchecked) (e : LSMEngine)
    (res : ℕ → WriteResult) :
    e.applyIgnore edits res = { e with
      current := (chosen WriteResult.applied edits res).foldl Version.applyEdit e.current
      dir := { e.dir with
        edits := e.dir.edits ++
          (chosen WriteResult.recorded edits res).map VersionEdit.persisted
        torn := e.dir.torn || !(chosen WriteResult.torn edits res).isEmpty } } := by
  induction edits generalizing e res with
  | nil => simp [LSMEngine.applyIgnore, chosen]
  | cons edit edits ih =>
    have hu := h edit List.mem_cons_self
    rw [LSMEngine.applyIgnore, ih (fun x hx => h x (List.mem_cons_of_mem edit hx))]
    cases hres : res 0 with
    | ok =>
      simp [apply_ok hu, chosen, hres, WriteResult.applied, WriteResult.recorded,
        WriteResult.torn]
    | failed left =>
      cases left <;>
        simp [apply_failed hu, chosen, hres, WriteResult.applied, WriteResult.recorded,
          WriteResult.torn, Remains.reached, Remains.torn]

theorem applyAll_failed (h : ∀ edit ∈ edits, edit.Unchecked) (e : LSMEngine) {res : ℕ → WriteResult}
    {n : ℕ} {left : Remains} (hn : n < edits.length) (hok : ∀ i < n, res i = .ok)
    (hfail : res n = .failed left) :
    e.applyAll edits res = ({ e with
      current := (edits.take n).foldl Version.applyEdit e.current
      dir := { e.dir with
        edits := e.dir.edits ++
          (edits.take (n + left.reached.toNat)).map VersionEdit.persisted
        torn := e.dir.torn || left.torn } }, false) := by
  induction n generalizing edits e res with
  | zero =>
    cases edits with
    | nil => exact absurd hn (Nat.not_lt_zero _)
    | cons edit edits =>
      rw [LSMEngine.applyAll, hfail, apply_failed (h edit List.mem_cons_self)]
      cases left <;> simp [Remains.reached]
  | succ n ih =>
    cases edits with
    | nil => exact absurd hn (Nat.not_lt_zero _)
    | cons edit edits =>
      rw [LSMEngine.applyAll, hok 0 (Nat.succ_pos n), apply_ok (h edit List.mem_cons_self)]
      simp only
      rw [ih (fun x hx => h x (List.mem_cons_of_mem edit hx)) _ (Nat.lt_of_succ_lt_succ hn)
        (fun i hi => hok (i + 1) (Nat.succ_lt_succ hi)) hfail, Nat.add_right_comm]
      simp

/-! ### What a failed compaction leaves -/

variable {e e' : LSMEngine} {level n : ℕ} {left : Remains} {res rb : ℕ → WriteResult}
  {m : Bytes → Option Bytes}

def LSMEngine.outputMetas (e : LSMEngine) (level : ℕ) : List SSTableMeta :=
  (e.levelPlan level).outputs.map Prod.fst

/-- What a compaction leaves whose manifest edit number `n` failed. -/
structure TakenBack (e e' : LSMEngine) (level n : ℕ) (left : Remains) (rb : ℕ → WriteResult) :
    Prop where
  memTable : e'.memTable = e.memTable
  immutables : e'.immutables = e.immutables
  seqNo : e'.seqNo = e.seqNo
  logs : e'.dir.logs = e.dir.logs
  current : e'.current = editedVersion e.current (e.addedBy level n)
    (e.deletedBy level n ++ chosen WriteResult.applied (e.outputMetas level) rb)
  version : e'.dir.version = editedVersion e.current (e.addedBy level (n + left.reached.toNat))
    (e.deletedBy level (n + left.reached.toNat) ++
      chosen WriteResult.recorded (e.outputMetas level) rb)
  torn : e'.dir.torn = (e.dir.torn || left.torn ||
    !(chosen WriteResult.torn (e.outputMetas level) rb).isEmpty)
  old_files : ∀ id ≤ e.nextFileID, e'.files id = e.files id
  out_files : ∀ t ∈ e.outputMetas level, e'.files t.fileID = none
  old_readers : ∀ id ≤ e.nextFileID, e'.tc.readerOf id = e.tc.readerOf id
  out_readers : ∀ t ∈ e.outputMetas level, e'.tc.readerOf t.fileID = none

theorem deleteEdit_unchecked (l id : ℕ) : (deleteEdit l id).Unchecked := fun hc => by cases hc

theorem editedVersion_append (v : Version) (add del del' : List SSTableMeta) :
    (del'.map (fun x => deleteEdit x.level x.fileID)).foldl Version.applyEdit
      (editedVersion v add del) = editedVersion v add (del ++ del') := by
  unfold editedVersion
  rw [List.map_append, ← List.foldl_append, List.append_assoc]

theorem rollbackEdits_eq (e : LSMEngine) (level : ℕ) :
    (e.levelPlan level).outputs.map (fun o => deleteEdit (level + 1) o.1.fileID) =
      (e.outputMetas level).map (fun x => deleteEdit x.level x.fileID) := by
  rw [LSMEngine.outputMetas, List.map_map]
  refine List.map_congr_left (fun o ho => ?_)
  change _ = deleteEdit o.1.level o.1.fileID
  rw [(plan_output (List.mem_map_of_mem (f := Prod.fst) ho)).2.1]

theorem rollback_spec (e₁ : LSMEngine) {p : CompactionPlan} {l : ℕ} {metas : List SSTableMeta}
    (hids : p.outputs.map (fun o => o.1.fileID) = metas.map SSTableMeta.fileID)
    (hedits : p.outputs.map (fun o => deleteEdit l o.1.fileID) =
      metas.map (fun x => deleteEdit x.level x.fileID)) (rb : ℕ → WriteResult) :
    ∃ ssts tc, e₁.rollback p l rb = { e₁ with
        current := ((chosen WriteResult.applied metas rb).map
          (fun x => deleteEdit x.level x.fileID)).foldl Version.applyEdit e₁.current
        dir := { e₁.dir with
          ssts := ssts
          edits := e₁.dir.edits ++ ((chosen WriteResult.recorded metas rb).map
            (fun x => deleteEdit x.level x.fileID)).map VersionEdit.persisted
          torn := e₁.dir.torn || !(chosen WriteResult.torn metas rb).isEmpty }
        tc := tc } ∧
      (∀ j, ssts.lookup j =
        if j ∈ metas.map SSTableMeta.fileID then none else e₁.dir.ssts.lookup j) ∧
      ∀ j, tc.readerOf j = if j ∈ metas.map SSTableMeta.fileID then none else e₁.tc.readerOf j := by
  obtain ⟨ssts, tc, hdrop, -, hssts, htc⟩ := dropTables_spec (metas.map SSTableMeta.fileID) e₁
  refine ⟨ssts, tc, ?_, hssts, htc⟩
  unfold LSMEngine.rollback
  rw [hids, hedits, hdrop, applyIgnore_eq, chosen_map, chosen_map, chosen_map, List.isEmpty_map]
  intro edit hedit
  obtain ⟨x, -, rfl⟩ := List.mem_map.1 hedit
  exact deleteEdit_unchecked x.level x.fileID

theorem executeCompaction_failed {inputs : List SSTableMeta} {l : ℕ}
    (hp : e.planCompaction inputs l = p) (hn : n < p.commitEdits.length)
    (hok : ∀ i < n, res i = .ok) (hfail : res n = .failed left) :
    e.executeCompaction inputs l res rb = ((({ e.stageOutputs p with
      current := (p.commitEdits.take n).foldl Version.applyEdit (e.stageOutputs p).current
      dir := { (e.stageOutputs p).dir with
        edits := (e.stageOutputs p).dir.edits ++
          (p.commitEdits.take (n + left.reached.toNat)).map VersionEdit.persisted
        torn := (e.stageOutputs p).dir.torn || left.torn } } :
            LSMEngine).rollback p l rb), false) := by
  unfold LSMEngine.executeCompaction
  simp only [hp]
  rw [applyAll_failed (commitEdits_unchecked p) (e.stageOutputs p) hn hok hfail]

theorem takenBack_of (h : CompactPre e level) (hp : e.levelPlan level = p)
    {ssts₀ ssts : Files SSTable} {tc₀ tc : TableCache} (hst : Staged e p ssts₀ tc₀)
    (hssts : ∀ j, ssts.lookup j =
      if j ∈ (e.outputMetas level).map SSTableMeta.fileID then none else ssts₀.lookup j)
    (htc : ∀ j, tc.readerOf j =
      if j ∈ (e.outputMetas level).map SSTableMeta.fileID then none else tc₀.readerOf j) :
    TakenBack e { e with
      dir := { e.dir with
        ssts := ssts
        edits := (e.dir.edits ++
          (p.commitEdits.take (n + left.reached.toNat)).map VersionEdit.persisted) ++
          ((chosen WriteResult.recorded (e.outputMetas level) rb).map
            (fun x => deleteEdit x.level x.fileID)).map VersionEdit.persisted
        torn := e.dir.torn || left.torn ||
          !(chosen WriteResult.torn (e.outputMetas level) rb).isEmpty }
      tc := tc
      current := ((chosen WriteResult.applied (e.outputMetas level) rb).map
        (fun x => deleteEdit x.level x.fileID)).foldl Version.applyEdit
          ((p.commitEdits.take n).foldl Version.applyEdit e.current)
      nextFileID := p.nextFileID } level n left rb := by
  have hnew : ∀ j ≤ e.nextFileID, j ∉ (e.outputMetas level).map SSTableMeta.fileID := by
    intro j hj hc
    obtain ⟨t, ht, rfl⟩ := List.mem_map.1 hc
    exact absurd hj (not_le.2 (plan_output ht).2.2)
  have hedited : ∀ k, editedVersion e.current ((p.outputs.map Prod.fst).take k)
      (p.inputs.take (k - p.outputs.length)) =
      editedVersion e.current (e.addedBy level k) (e.deletedBy level k) := by
    intro k
    rw [LSMEngine.addedBy, LSMEngine.deletedBy, hp]
  refine ⟨rfl, rfl, rfl, rfl, ?_, ?_, rfl, fun j hj => ?_, fun t ht => ?_, fun j hj => ?_,
    fun t ht => ?_⟩
  · simp only
    rw [foldl_commitEdits_take, hedited, editedVersion_append]
  · unfold DataDir.version
    simp only
    rw [recoverVersion_appendAll, recoverVersion_appendAll, foldl_commitEdits_take,
      show recoverVersion e.dir.edits = e.current from h.books.version.symm, hedited,
      editedVersion_append]
    · exact fun edit hedit => commitEdits_replay _ edit (List.mem_of_mem_take hedit)
    · intro edit hedit v
      obtain ⟨x, -, rfl⟩ := List.mem_map.1 hedit
      exact recoverEdit_deleteEdit v x.level x.fileID
  · change ssts.lookup j = e.dir.ssts.lookup j
    rw [hssts, if_neg (hnew j hj)]
    exact hst.old_file j hj
  · change ssts.lookup t.fileID = none
    rw [hssts, if_pos (List.mem_map_of_mem ht)]
  · change tc.readerOf j = e.tc.readerOf j
    rw [htc, if_neg (hnew j hj)]
    exact hst.old_reader j hj
  · change tc.readerOf t.fileID = none
    rw [htc, if_pos (List.mem_map_of_mem ht)]

theorem compactLevel_failed (h : CompactPre e level)
    (hroom : e.tc.entries.length + (e.levelPlan level).outputs.length ≤ e.tc.cap)
    (hn : n < (e.levelPlan level).commitEdits.length) (hok : ∀ i < n, res i = .ok)
    (hfail : res n = .failed left) : (e.compactLevel level res rb).2 = false ∧
      TakenBack e (e.compactLevel level res rb).1 level n left rb := by
  obtain ⟨ssts₀, tc₀, hstage, hst⟩ := @stageOutputs_spec e
    (leveledInputs e.current e.cfg.maxLevel level) (level + 1)
    ⟨h.books.unique, h.books.reader_ids, hroom⟩
  have hids : (e.levelPlan level).outputs.map (fun o => o.1.fileID) =
      (e.outputMetas level).map SSTableMeta.fileID := by
    rw [LSMEngine.outputMetas, List.map_map]
    rfl
  have hedits := rollbackEdits_eq e level
  obtain ⟨p, hp⟩ : ∃ p, e.levelPlan level = p := ⟨_, rfl⟩
  have hrun : e.compactLevel level res rb =
      e.executeCompaction (leveledInputs e.current e.cfg.maxLevel level) (level + 1) res rb := by
    unfold LSMEngine.compactLevel
    simp only [if_neg h.nonempty]
  rw [hp] at hn hids hedits
  unfold LSMEngine.levelPlan at hp
  rw [hp] at hstage hst
  rw [hrun, executeCompaction_failed hp hn hok hfail, hstage]
  obtain ⟨ssts, tc, hback, hssts, htc⟩ := @rollback_spec
    { e with
      dir := { e.dir with
        ssts := ssts₀
        edits := e.dir.edits ++
          (p.commitEdits.take (n + left.reached.toNat)).map VersionEdit.persisted
        torn := e.dir.torn || left.torn }
      tc := tc₀
      current := (p.commitEdits.take n).foldl Version.applyEdit e.current
      nextFileID := p.nextFileID } p (level + 1) (e.outputMetas level) hids hedits rb
  refine ⟨rfl, ?_⟩
  simp only
  rw [hback]
  exact takenBack_of h hp hst hssts htc

/-! ### When nothing is lost -/

theorem Midway.drop_outputs {v v' : Version} {files readers : ℕ → Option SSTable} {i : ℕ}
    {ins : List SSTableMeta} {outs : List (SSTableMeta × SSTable)} {add del' : List SSTableMeta}
    (h : Midway v v' files readers i ins outs add del) (hgone : ∀ x ∈ add, x ∈ del)
    (hdel : ∀ j, ∀ x ∈ v.levels j, x ∈ del ↔ x ∈ del') :
    Midway v v' files readers i ins outs [] del' where
  levels := by
    intro j x
    rw [h.levels]
    constructor
    · rintro ⟨hx | ⟨hx, -⟩, hno⟩
      · exact ⟨Or.inl hx, fun hc => hno ((hdel j x hx).2 hc)⟩
      · exact absurd (hgone x hx) hno
    · rintro ⟨hx | ⟨hx, -⟩, hno⟩
      · exact ⟨Or.inl hx, fun hc => hno ((hdel j x hx).1 hc)⟩
      · cases hx
  l0 := by
    intro hi
    rw [h.l0 hi]
    refine List.filter_congr (fun t ht => ?_)
    rw [decide_eq_decide, hdel 0 t ht]
  rest := h.rest
  sorted := h.sorted
  add_sub := fun x hx => by cases hx
  del_sub := fun j x hx hd => h.del_sub j x hx ((hdel j x hx).2 hd)
  old_readers := fun j x hx hno => h.old_readers j x hx (fun hc => hno ((hdel j x hx).1 hc))
  out_readers := fun o _ hx => by cases hx

theorem outputMetas_nodup (e : LSMEngine) (level : ℕ) : (e.outputMetas level).Nodup := by
  have hids := (planCompaction_ok e (leveledInputs e.current e.cfg.maxLevel level) (level + 1)).ids
  rw [LSMEngine.outputMetas, List.nodup_iff_pairwise_ne, List.pairwise_map]
  exact hids.imp (fun hlt heq => absurd (congrArg SSTableMeta.fileID heq) hlt.ne)

theorem mem_addedBy {t : SSTableMeta} :
    t ∈ e.addedBy level n ↔ ∃ i < n, (e.outputMetas level)[i]? = some t := by
  unfold LSMEngine.addedBy
  rw [List.mem_take_iff_getElem]
  constructor
  · rintro ⟨i, hi, rfl⟩
    exact ⟨i, by omega, List.getElem?_eq_getElem _⟩
  · rintro ⟨i, hi, ht⟩
    obtain ⟨hlt, rfl⟩ := List.getElem?_eq_some_iff.1 ht
    exact ⟨i, by have : i < ((e.levelPlan level).outputs.map Prod.fst).length := hlt; omega, rfl⟩

variable {P : WriteResult → Bool}

theorem deletedBy_chosen_sub : ∀ x ∈ e.deletedBy level n ++ chosen P (e.outputMetas level) rb,
    x ∈ (e.levelPlan level).inputs ∨ x ∈ (e.levelPlan level).outputs.map Prod.fst := by
  intro x hx
  rcases List.mem_append.1 hx with hx | hx
  · exact Or.inl (List.mem_of_mem_take hx)
  · obtain ⟨i, hi, -⟩ := mem_chosen.1 hx
    exact Or.inr (List.mem_of_getElem? hi)

theorem CompactPre.output_gone (h : CompactPre e level) :
    (∀ t ∈ e.addedBy level n, t ∈ e.deletedBy level n ++ chosen P (e.outputMetas level) rb) ↔
      ∀ i < (e.outputMetas level).length, i < n → P (rb i) = true := by
  constructor
  · intro hall i hi hn
    have hget : (e.outputMetas level)[i]? = some (e.outputMetas level)[i] :=
      List.getElem?_eq_getElem hi
    rcases List.mem_append.1 (hall _ (mem_addedBy.2 ⟨i, hn, hget⟩)) with hx | hx
    · obtain ⟨j, hj⟩ := h.shape.input_listed (List.mem_of_mem_take hx)
      exact absurd (h.books.listed_le h.tables hj)
        (not_le.2 (plan_output (List.mem_of_getElem? hget)).2.2)
    · obtain ⟨i', hi', hp⟩ := mem_chosen.1 hx
      rw [(List.getElem?_inj hi (outputMetas_nodup e level)).1 (hget.trans hi'.symm)]
      exact hp
  · intro hall t ht
    obtain ⟨i, hn, hi⟩ := mem_addedBy.1 ht
    obtain ⟨hlt, -⟩ := List.getElem?_eq_some_iff.1 hi
    exact List.mem_append_right _ (mem_chosen.2 ⟨i, hi, hall i hlt hn⟩)

theorem CompactPre.all_there_iff (h : CompactPre e level) {files : ℕ → Option SSTable}
    (hold : ∀ id ≤ e.nextFileID, files id = e.files id)
    (hout : ∀ t ∈ e.outputMetas level, files t.fileID = none) :
    (∀ j, ∀ t ∈ (editedVersion e.current (e.addedBy level n)
      (e.deletedBy level n ++ chosen P (e.outputMetas level) rb)).levels j,
        files t.fileID ≠ none) ↔
      ∀ i < (e.outputMetas level).length, i < n → P (rb i) = true := by
  have hadd : ∀ t ∈ e.addedBy level n, t ∈ (e.levelPlan level).outputs.map Prod.fst :=
    fun t ht => List.mem_of_mem_take ht
  rw [← h.output_gone]
  constructor
  · intro hall t ht
    by_contra hno
    exact hall (level + 1) t
      ((h.shape.plan.mem_edited hadd deletedBy_chosen_sub).2 ⟨Or.inr ⟨ht, rfl⟩, hno⟩)
      (hout t (hadd t ht))
  · intro hgone j t ht
    obtain ⟨ht | ⟨ht, -⟩, hno⟩ := (h.shape.plan.mem_edited hadd deletedBy_chosen_sub).1 ht
    · obtain ⟨f, hf, -⟩ := h.tables.table ht
      rw [hold _ (h.books.listed_le h.tables ht), hf]
      exact Option.some_ne_none f
    · exact absurd (hgone t ht) hno

theorem CompactPre.midway_back (h : CompactPre e level) {readers : ℕ → Option SSTable}
    (hold : ∀ j, ∀ x ∈ e.current.levels j, readers x.fileID = e.files x.fileID)
    (hout : ∀ t ∈ e.outputMetas level, readers t.fileID = none)
    (hgone : ∀ i < (e.outputMetas level).length, i < n → P (rb i) = true) :
    Midway e.current (editedVersion e.current (e.addedBy level n)
      (e.deletedBy level n ++ chosen P (e.outputMetas level) rb)) e.files readers level
      (e.levelPlan level).inputs (e.levelPlan level).outputs [] (e.deletedBy level n) := by
  have hmid := @CompactPre.midway e level (e.addedBy level n)
    (e.deletedBy level n ++ chosen P (e.outputMetas level) rb) h (List.take_sublist _ _)
    deletedBy_chosen_sub readers (fun j x hx _ => hold j x hx)
    (fun o ho _ _ => Or.inr (hout o.1 (List.mem_map_of_mem (f := Prod.fst) ho)))
  refine hmid.drop_outputs (h.output_gone.2 hgone) (fun j x hx => ?_)
  rw [List.mem_append, or_iff_left]
  intro hc
  obtain ⟨i, hi, -⟩ := mem_chosen.1 hc
  exact absurd (h.books.listed_le h.tables hx)
    (not_le.2 (plan_output (List.mem_of_getElem? hi)).2.2)

/-- Every file that the manifest lists, in memory or in its file, is on disk. -/
def LSMEngine.AllThere (e : LSMEngine) : Prop :=
  (∀ j, ∀ t ∈ e.current.levels j, e.files t.fileID ≠ none) ∧
    ∀ j, ∀ t ∈ e.dir.version.levels j, e.files t.fileID ≠ none

/-- The lookup of the key gets as far as the inputs, and is not answered as before once the inputs
`del` are deleted and no output is there. -/
def LSMEngine.Uncovered (e : LSMEngine) (level : ℕ) (del : List SSTableMeta) (k : Bytes)
    (r : Option Bytes) : Prop :=
  Reaches e.current e.files (e.levelPlan level).inputs level k r ∧
    Exposed e.files (inputsLeft e.current (e.levelPlan level).inputs del level)
      (lowerNow e.current [] del level) (belowGet e.current e.files level k) k r

/-- A failure of manifest edit number `n` of a compaction that loses nothing.  Every output that was
added is taken out of the version again, and the record of every output that is in the manifest file
is followed by one of its deletion.  No part of a record is in the file.  No key is uncovered by the
inputs that were deleted before the failure, those of the failed edit included if its record is in
the file; only keys that no memtable, and after a restart no log, knows are concerned. -/
structure Harmless (e : LSMEngine) (level n : ℕ) (left : Remains) (rb : ℕ → WriteResult) :
    Prop where
  applied : ∀ i < (e.outputMetas level).length, i < n → rb i = .ok
  recorded : ∀ i < (e.outputMetas level).length, i < n + left.reached.toNat →
    rb i = .ok ∨ rb i = .failed .whole
  untorn : left ≠ .part ∧ ∀ i < (e.outputMetas level).length, rb i ≠ .failed .part
  kept : ∀ k r, e.memGet k = none → ¬ e.Uncovered level (e.deletedBy level n) k r
  kept_on_disk : ∀ k r, ¬ Holds (walSet e.dir) k →
    ¬ e.Uncovered level (e.deletedBy level (n + left.reached.toNat)) k r

theorem OpenRoom.of_sub {cfg : Config} {d d' : DataDir} (h : OpenRoom cfg d)
    (hids : (d'.version.tables.map SSTableMeta.fileID).Nodup)
    (hsub : ∀ t ∈ d'.version.tables, t ∈ d.version.tables) (hlogs : d'.logs = d.logs) :
    OpenRoom cfg d' := by
  have hlen : d'.version.tables.length ≤ d.version.tables.length :=
    (List.subperm_of_subset (List.Nodup.of_map _ hids) hsub).length_le
  have hover : oversized cfg d' ↔ oversized cfg d := by
    unfold oversized
    rw [recoveredMem_congr hlogs]
  unfold OpenRoom at h ⊢
  simp only [hover]
  omega

theorem uncovered_iff {readers : ℕ → Option SSTable}
    (hold : ∀ j, ∀ x ∈ e.current.levels j, readers x.fileID = e.files x.fileID) (k : Bytes) :
    (∀ r, Reaches e.current e.files (e.levelPlan level).inputs level k r →
      ¬ Exposed readers (inputsLeft e.current (e.levelPlan level).inputs del level)
        (lowerNow e.current [] del level) (belowGet e.current e.files level k) k r) ↔
      ∀ r, ¬ e.Uncovered level del k r := by
  have hget : ∀ j, ∀ t ∈ e.current.levels j, tableGet readers t k = tableGet e.files t k := by
    intro j t ht
    unfold tableGet
    rw [hold j t ht]
  have hu : ∀ t ∈ inputsLeft e.current (e.levelPlan level).inputs del level,
      tableGet readers t k = tableGet e.files t k := fun t ht => hget _ t (mem_inputsLeft.1 ht).1
  have hl : ∀ t ∈ lowerNow e.current [] del level,
      tableGet readers t k = tableGet e.files t k := fun t ht =>
    hget (level + 1) t (by simpa using (List.mem_filter.1 ht).1)
  constructor
  · rintro hno r ⟨hr, hex⟩
    exact hno r hr (hex.congr hu hl)
  · intro hno r hr hex
    exact hno r ⟨hr, hex.congr (fun t ht => (hu t ht).symm) (fun t ht => (hl t ht).symm)⟩

section TakenBack

theorem TakenBack.readers (hback : TakenBack e e' level n left rb) (h : CompactPre e level)
    (j : ℕ)
    (x : SSTableMeta) (hx : x ∈ e.current.levels j) :
    e'.tc.readerOf x.fileID = e.files x.fileID :=
  (hback.old_readers _ (h.books.listed_le h.tables hx)).trans (h.books.readers j x hx)

theorem TakenBack.files (hback : TakenBack e e' level n left rb) (h : CompactPre e level) (j : ℕ)
    (x : SSTableMeta) (hx : x ∈ e.current.levels j) : e'.dir.files x.fileID = e.files x.fileID :=
  hback.old_files _ (h.books.listed_le h.tables hx)

theorem TakenBack.allThere_iff (hback : TakenBack e e' level n left rb)
    (h : CompactPre e level) :
    e'.AllThere ↔ (∀ i < (e.outputMetas level).length, i < n → (rb i).applied = true) ∧
      ∀ i < (e.outputMetas level).length, i < n + left.reached.toNat → (rb i).recorded = true := by
  unfold LSMEngine.AllThere
  rw [hback.current, hback.version, h.all_there_iff hback.old_files hback.out_files,
    h.all_there_iff hback.old_files hback.out_files]

theorem TakenBack.untorn_iff (hback : TakenBack e e' level n left rb) (h : e.dir.torn = false) :
    e'.dir.torn = false ↔
      left ≠ .part ∧ ∀ i < (e.outputMetas level).length, rb i ≠ .failed .part := by
  have hleft : left.torn = false ↔ left ≠ .part := by cases left <;> simp [Remains.torn]
  rw [hback.torn, h, Bool.false_or, Bool.or_eq_false_iff, hleft, Bool.not_eq_false',
    List.isEmpty_iff, List.eq_nil_iff_forall_not_mem]
  refine and_congr_right (fun _ => ⟨fun hno i hi hc => ?_, fun hno t ht => ?_⟩)
  · exact hno _ (mem_chosen.2 ⟨i, List.getElem?_eq_getElem hi, decide_eq_true hc⟩)
  · obtain ⟨i, hi, hc⟩ := mem_chosen.1 ht
    exact hno i (List.getElem?_eq_some_iff.1 hi).1 (of_decide_eq_true hc)

variable {es : List Entry} {v₁ : Version} {files₁ : ℕ → Option SSTable}

/-- **The running engine**, once no output is listed: its tables are those before without the inputs
that were deleted. -/
theorem TakenBack.get_iff (hback : TakenBack e e' level n left rb) (h : Good e m)
    (hpre : CompactPre e level)
    (hs : LeveledStep e.current e.files e.cfg.maxLevel level (e.levelPlan level).inputs
      (e.levelPlan level).outputs es v₁ files₁)
    (hgone : ∀ i < (e.outputMetas level).length, i < n → (rb i).applied = true) :
    (∀ k, (e'.get k).1 = (e.get k).1) ↔
      ∀ k r, e.memGet k = none → ¬ e.Uncovered level (e.deletedBy level n) k r := by
  have hmid := hpre.midway_back (hback.readers hpre) hback.out_readers hgone
  rw [← hback.current] at hmid
  have hmem : ∀ k, e'.memGet k = e.memGet k := fun k => by
    unfold LSMEngine.memGet
    rw [hback.memTable, hback.immutables]
  refine forall_congr' (fun k => ?_)
  rw [hmid.get_eq_iff h.inv.readable hs (hs.inputs.lt.trans_le h.inv.disk.maxLevel_le) (hmem k)
    hback.seqNo, uncovered_iff (hback.readers hpre)]
  exact ⟨fun hk r hm => hk hm r, fun hk hm r => hk r hm⟩

/-- **The engine after a restart**, if the manifest file can be read and lists no output: the same
with the inputs whose deletion is in the file. -/
theorem TakenBack.restart_iff (hback : TakenBack e e' level n left rb) (h : Good e m)
    (hpre : CompactPre e level) {cfg : Config} (hopen : OpenRoom cfg.withDefaults e.dir)
    (hs : LeveledStep e.current e.files e.cfg.maxLevel level (e.levelPlan level).inputs
      (e.levelPlan level).outputs es v₁ files₁)
    (hgone : ∀ i < (e.outputMetas level).length, i < n + left.reached.toNat →
      (rb i).recorded = true) (huntorn : e'.dir.torn = false) :
    ∃ e₁, openEngine cfg e'.dir = .ok e₁ ∧ ((∀ k, (e₁.get k).1 = (e.get k).1) ↔
      ∀ k r, ¬ Holds (walSet e.dir) k →
        ¬ e.Uncovered level (e.deletedBy level (n + left.reached.toNat)) k r) := by
  have hmid := hpre.midway_back (hback.files hpre) hback.out_files hgone
  rw [← hback.version] at hmid
  have hseq : e.current.maxSeqNo ≤ e'.dir.version.maxSeqNo := by
    rw [hback.version]
    exact foldl_applyEdit_maxSeqNo _ _
  have hopenable : Openable e'.dir := by
    have hmid := hmid
    have hs := hs
    have hseq := hseq
    rw [h.inv.books.version] at hmid hs hseq
    exact hmid.openable h.inv.disk hs (fun o _ hx => by cases hx) hback.logs hseq huntorn
  have hroom : OpenRoom cfg.withDefaults e'.dir := by
    refine hopen.of_sub hopenable.ids (fun t ht => ?_) hback.logs
    obtain ⟨j, hj, ht⟩ := List.mem_flatMap.1 ht
    obtain ⟨ht | ⟨ht, -⟩, -⟩ := (hmid.levels j t).1 ht
    · refine List.mem_flatMap.2 ⟨j, hj, ?_⟩
      rw [← h.inv.books.version]
      exact ht
    · cases ht
  obtain ⟨e₁, hopen₁, hget⟩ :=
    hmid.reopen h.inv hs (fun o _ hx => by cases hx) hback.logs hseq huntorn hroom
  refine ⟨e₁, hopen₁, forall_congr' (fun k => ?_)⟩
  rw [hget k, uncovered_iff (hback.files hpre)]
  exact ⟨fun hk r hw => hk hw r, fun hk hw r => hk r hw⟩

end TakenBack

/-- **When a failed compaction loses nothing.** Every lookup, in the running engine and after a
restart, returns what it did before the compaction and every listed file exists, exactly if the
failure was harmless. -/
theorem failed_compaction_iff {cfg : Config} (h : Good e m)
    (hne : leveledInputs e.current e.cfg.maxLevel level ≠ [])
    (hroom : e.tc.entries.length + (e.levelPlan level).outputs.length ≤ e.tc.cap)
    (hopen : OpenRoom cfg.withDefaults e.dir) (hn : n < (e.levelPlan level).commitEdits.length)
    (hok : ∀ i < n, res i = .ok) (hfail : res n = .failed left) :
    (e.compactLevel level res rb).2 = false ∧
    (((∀ k, ((e.compactLevel level res rb).1.get k).1 = (e.get k).1) ∧
      (∃ e', openEngine cfg (e.compactLevel level res rb).1.dir = .ok e' ∧
        ∀ k, (e'.get k).1 = (e.get k).1) ∧
      (e.compactLevel level res rb).1.AllThere) ↔ Harmless e level n left rb) := by
  have hpre := h.compactPre hne
  obtain ⟨hfalse, hback⟩ := @compactLevel_failed e level n left res rb hpre hroom hn hok hfail
  refine ⟨hfalse, ?_⟩
  generalize (e.compactLevel level res rb).1 = e₁ at hback
  obtain ⟨ssts, tc, hst, -⟩ := commitPrefix_spec hpre hroom 0
  have hs := hpre.staged_step hst
  constructor
  · rintro ⟨h1, ⟨e', hopen', h2⟩, h3⟩
    obtain ⟨ha, hr⟩ := (hback.allThere_iff hpre).1 h3
    have huntorn := (openEngine_ok hopen').1
    obtain ⟨e'', hopen'', hiff⟩ := hback.restart_iff h hpre hopen hs hr huntorn
    rw [hopen'] at hopen''
    cases hopen''
    exact ⟨fun i hi hin => of_decide_eq_true (ha i hi hin),
      fun i hi hin => of_decide_eq_true (hr i hi hin),
      (hback.untorn_iff h.inv.disk.untorn).1 huntorn, (hback.get_iff h hpre hs ha).1 h1, hiff.1 h2⟩
  · rintro ⟨ha, hr, huntorn, hkept, hdisk⟩
    have ha' : ∀ i < (e.outputMetas level).length, i < n → (rb i).applied = true :=
      fun i hi hin => decide_eq_true (ha i hi hin)
    have hr' : ∀ i < (e.outputMetas level).length, i < n + left.reached.toNat →
        (rb i).recorded = true := fun i hi hin => decide_eq_true (hr i hi hin)
    obtain ⟨e', hopen', hiff⟩ := hback.restart_iff h hpre hopen hs hr'
      ((hback.untorn_iff h.inv.disk.untorn).2 huntorn)
    exact ⟨(hback.get_iff h hpre hs ha').2 hkept, ⟨e', hopen', hiff.2 hdisk⟩,
      (hback.allThere_iff hpre).2 ⟨ha', hr'⟩⟩

/-- The manifest write number `n` fails after its record has reached the file. -/
def failsAt (n : ℕ) : ℕ → WriteResult := fun i => if i = n then .failed .whole else .ok

theorem overwriteRun_failed_iff : ∃ e₀, openEngine {} {} = .ok e₀ ∧
    ∃ e, e₀.run overwriteRun = .ok e ∧ (e.compactLevel 0 (failsAt 1) (fun _ => .ok)).2 = false ∧
      (((∀ k, ((e.compactLevel 0 (failsAt 1) (fun _ => .ok)).1.get k).1 = (e.get k).1) ∧
        (∃ e', openEngine {} (e.compactLevel 0 (failsAt 1) (fun _ => .ok)).1.dir = .ok e' ∧
          ∀ k, (e'.get k).1 = (e.get k).1) ∧
        (e.compactLevel 0 (failsAt 1) (fun _ => .ok)).1.AllThere) ↔
      Harmless e 0 1 .whole (fun _ => .ok)) := by
  obtain ⟨e₀, hopen, e, hrun, h⟩ := @run_good {} overwriteRun (by decide) rfl (by decide +kernel)
  have hpre : ∀ e₀, openEngine {} {} = .ok e₀ → ∀ e, e₀.run overwriteRun = .ok e →
      leveledInputs e.current e.cfg.maxLevel 0 ≠ [] ∧
      e.tc.entries.length + (e.levelPlan 0).outputs.length ≤ e.tc.cap ∧
      OpenRoom (Config.withDefaults {}) e.dir ∧ 1 < (e.levelPlan 0).commitEdits.length := by
    decide +kernel
  obtain ⟨hne, hroom, hopen', hn⟩ := hpre e₀ hopen e hrun
  have hok : ∀ i < 1, failsAt 1 i = .ok := by decide
  exact ⟨e₀, hopen, e, hrun, failed_compaction_iff h hne hroom hopen' hn hok rfl⟩

/-- **The second deletion fails.** The newer value is gone at once, and after a restart the older
one is, too. -/
theorem failedDelete_loses : ∃ e₀, openEngine {} {} = .ok e₀ ∧ e₀.ValidRun overwriteRun ∧
    ∃ e, e₀.run overwriteRun = .ok e ∧ (e.get [1]).1 = .ok [20] ∧
      2 < (e.levelPlan 0).commitEdits.length ∧
      (e.compactLevel 0 (failsAt 2) (fun _ => .ok)).2 = false ∧
      ((e.compactLevel 0 (failsAt 2) (fun _ => .ok)).1.get [1]).1 = .ok [10] ∧
      ∃ e', openEngine {} (e.compactLevel 0 (failsAt 2) (fun _ => .ok)).1.dir = .ok e' ∧
        (e'.get [1]).1 = .error .notFound := by
  decide +kernel

end LsmTree
