import LsmTree.Correct.Midway
import LsmTree.Property.Refinement

/-!
# The commit of a compaction, edit by edit

A compaction adds its outputs and then deletes its inputs, one durable manifest edit each.  After
`n` of these edits a lookup, and a lookup after a crash and restart, return what they did before
the compaction exactly if no key is exposed (`commit_prefix_invisible_iff`).  Keys do get exposed:
the level-0 inputs are deleted newest first, so that an older version of a key comes to light
(`commit_prefix_visible`).
-/

namespace LsmTree

open Versioned

/-- The engine after the first `n` manifest edits of a compaction's commit. -/
def LSMEngine.commitPrefix (e : LSMEngine) (level n : ℕ) : LSMEngine :=
  ((e.stageOutputs (e.levelPlan level)).applyAll ((e.levelPlan level).commitEdits.take n)
    (fun _ => .ok)).1

/-- The outputs that the first `n` edits add. -/
def LSMEngine.addedBy (e : LSMEngine) (level n : ℕ) : List SSTableMeta :=
  ((e.levelPlan level).outputs.map Prod.fst).take n

/-- The inputs that the first `n` edits delete. -/
def LSMEngine.deletedBy (e : LSMEngine) (level n : ℕ) : List SSTableMeta :=
  (e.levelPlan level).inputs.take (n - (e.levelPlan level).outputs.length)

theorem foldl_commitEdits_take (p : CompactionPlan) (v : Version) (n : ℕ) :
    (p.commitEdits.take n).foldl Version.applyEdit v =
      editedVersion v ((p.outputs.map Prod.fst).take n) (p.inputs.take (n - p.outputs.length)) := by
  rw [commitEdits_eq, List.take_append, List.length_map, List.length_map]
  simp only [← List.map_take]
  rfl

variable {e : LSMEngine} {level : ℕ} {m : Bytes → Option Bytes}

theorem commitPrefix_spec (h : CompactPre e level)
    (hroom : e.tc.entries.length + (e.levelPlan level).outputs.length ≤ e.tc.cap) (n : ℕ) :
    ∃ ssts tc, Staged e (e.levelPlan level) ssts tc ∧
      (e.stageOutputs (e.levelPlan level)).files = (fun id => ssts.lookup id) ∧
      e.commitPrefix level n = { e with
        dir := { e.dir with
          ssts := ssts
          edits := e.dir.edits ++
            ((e.levelPlan level).commitEdits.take n).map VersionEdit.persisted }
        tc := tc
        current := editedVersion e.current (e.addedBy level n) (e.deletedBy level n)
        nextFileID := (e.levelPlan level).nextFileID } := by
  obtain ⟨ssts, tc, hstage, hst⟩ := @stageOutputs_spec e
    (leveledInputs e.current e.cfg.maxLevel level) (level + 1)
    ⟨h.books.unique, h.books.reader_ids, hroom⟩
  refine ⟨ssts, tc, hst, by rw [hstage]; rfl, ?_⟩
  unfold LSMEngine.commitPrefix
  rw [applyAll_ok (fun edit hedit => commitEdits_unchecked _ edit (List.mem_of_mem_take hedit)),
    foldl_commitEdits_take, hstage]
  rfl

theorem Good.compactPre (h : Good e m) (hne : leveledInputs e.current e.cfg.maxLevel level ≠ []) :
    CompactPre e level :=
  ⟨h.inv.layered.tables, h.inv.agrees_tables, h.inv.books, hne⟩

section Prefix

variable {n : ℕ} {ssts : Files SSTable} {tc : TableCache}

theorem deletedBy_sub : ∀ x ∈ e.deletedBy level n, x ∈ (e.levelPlan level).inputs ∨
    x ∈ (e.levelPlan level).outputs.map Prod.fst := fun _ hx => Or.inl (List.mem_of_mem_take hx)

theorem CompactPre.staged_step (h : CompactPre e level)
    (hst : Staged e (e.levelPlan level) ssts tc) :
    LeveledStep e.current e.files e.cfg.maxLevel level (e.levelPlan level).inputs
      (e.levelPlan level).outputs (mergedStream e.tc.readerOf (e.levelPlan level).inputs)
      ((e.levelPlan level).commit e.current) (fun id => ssts.lookup id) :=
  h.leveledStep (fun _ _ hx _ => hst.old_file _ (h.books.listed_le h.tables hx)) hst.out_file

theorem CompactPre.midway_readers (h : CompactPre e level)
    (hst : Staged e (e.levelPlan level) ssts tc) :
    Midway e.current (editedVersion e.current (e.addedBy level n) (e.deletedBy level n)) e.files
      tc.readerOf level (e.levelPlan level).inputs (e.levelPlan level).outputs (e.addedBy level n)
      (e.deletedBy level n) := by
  refine h.midway (List.take_sublist _ _) deletedBy_sub (fun j x hx _ => ?_)
    (fun o ho _ _ => Or.inl (hst.out_reader o ho))
  rw [hst.old_reader _ (h.books.listed_le h.tables hx), h.books.readers j x hx]

theorem CompactPre.midway_files (h : CompactPre e level)
    (hst : Staged e (e.levelPlan level) ssts tc) :
    Midway e.current (editedVersion e.current (e.addedBy level n) (e.deletedBy level n)) e.files
      (fun id => ssts.lookup id) level (e.levelPlan level).inputs (e.levelPlan level).outputs
      (e.addedBy level n) (e.deletedBy level n) :=
  h.midway (List.take_sublist _ _) deletedBy_sub
    (fun _ _ hx _ => hst.old_file _ (h.books.listed_le h.tables hx))
    (fun o ho _ _ => Or.inl (hst.out_file o ho))

theorem CompactPre.staged_get (h : CompactPre e level) (hst : Staged e (e.levelPlan level) ssts tc)
    (k : Bytes) : (∀ t ∈ inputsLeft e.current (e.levelPlan level).inputs
      (e.deletedBy level n) level,
      tableGet tc.readerOf t k = tableGet (fun id => ssts.lookup id) t k) ∧
    ∀ t ∈ lowerNow e.current (e.addedBy level n) (e.deletedBy level n) level,
      tableGet tc.readerOf t k = tableGet (fun id => ssts.lookup id) t k := by
  have hold : ∀ j, ∀ t ∈ e.current.levels j,
      tableGet tc.readerOf t k = tableGet (fun id => ssts.lookup id) t k := by
    intro j t ht
    have hle := h.books.listed_le h.tables ht
    unfold tableGet
    simp only [hst.old_reader _ hle, hst.old_file _ hle, h.books.readers j t ht]
    rfl
  refine ⟨fun t ht => hold level t (mem_inputsLeft.1 ht).1, fun t ht => ?_⟩
  rcases List.mem_append.1 (List.mem_filter.1 ht).1 with ht | ht
  · exact hold _ t ht
  · obtain ⟨o, ho, rfl⟩ := List.mem_map.1 (List.mem_of_mem_take ht)
    unfold tableGet
    simp only [hst.out_reader o ho, hst.out_file o ho]

end Prefix

/-- **When a prefix of a commit is invisible.** After the first `n` manifest edits of a leveled
compaction every lookup, and every lookup after a crash and restart at this point, returns what it
did before, exactly if no key whose lookup gets as far as the inputs is exposed: the newest input
left in the upper level that knows the key, or else the table of the lower level that starts last at
or before it, or else the levels below, show what the inputs showed. -/
theorem commit_prefix_invisible_iff {cfg : Config} (h : Good e m)
    (hne : leveledInputs e.current e.cfg.maxLevel level ≠ [])
    (hroom : e.tc.entries.length + (e.levelPlan level).outputs.length ≤ e.tc.cap) (n : ℕ)
    (hopen : OpenRoom cfg.withDefaults (e.commitPrefix level n).dir) :
    ((∀ k, ((e.commitPrefix level n).get k).1 = (e.get k).1) ∧
      ∃ e', openEngine cfg (e.commitPrefix level n).dir = .ok e' ∧
        ∀ k, (e'.get k).1 = (e.get k).1) ↔
    ∀ k r, e.memGet k = none → Reaches e.current e.files (e.levelPlan level).inputs level k r →
      ¬ Exposed (e.stageOutputs (e.levelPlan level)).files
        (inputsLeft e.current (e.levelPlan level).inputs (e.deletedBy level n) level)
        (lowerNow e.current (e.addedBy level n) (e.deletedBy level n) level)
        (belowGet e.current e.files level k) k r := by
  have hpre := h.compactPre hne
  obtain ⟨ssts, tc, hst, hfiles, heq⟩ := commitPrefix_spec hpre hroom n
  have hs := hpre.staged_step hst
  have hi : level + 1 < maxLevels := hs.inputs.lt.trans_le h.inv.disk.maxLevel_le
  rw [hfiles]
  have hrun : ∀ k, ((e.commitPrefix level n).get k).1 = (e.get k).1 ↔ _ := fun k =>
    @Midway.get_eq_iff e (e.commitPrefix level n) m level _ _ _ _ _ (e.addedBy level n)
      (e.deletedBy level n) _ k h.inv.readable (by rw [heq]; exact hpre.midway_readers hst) hs hi
      (by rw [heq]; rfl) (by rw [heq])
  have hversion : (e.commitPrefix level n).dir.version =
      editedVersion e.current (e.addedBy level n) (e.deletedBy level n) := by
    rw [heq]
    change recoverVersion _ = _
    rw [recoverVersion_appendAll _ (fun edit hedit => commitEdits_replay _ edit
      (List.mem_of_mem_take hedit)), foldl_commitEdits_take, h.inv.books.version]
    rfl
  have hdisk : (e.commitPrefix level n).dir.files = fun id => ssts.lookup id := by rw [heq]; rfl
  obtain ⟨e', hopen', hget⟩ := @Midway.reopen e m level _ _ _ _ _ (e.addedBy level n)
    (e.deletedBy level n) (e.commitPrefix level n).dir cfg h.inv
    (by rw [hversion, heq]; exact hpre.midway_files hst) hs
    (fun o ho _ _ => by
      rw [hdisk]
      intro (hc : ssts.lookup o.1.fileID = none)
      rw [hst.out_file o ho] at hc
      cases hc)
    (by rw [heq]) (by rw [hversion]; exact foldl_applyEdit_maxSeqNo _ _)
    (by rw [heq]; exact h.inv.disk.untorn) hopen
  have htc : (e.commitPrefix level n).tc = tc := by rw [heq]
  rw [htc] at hrun
  rw [hdisk] at hget
  constructor
  · rintro ⟨hall, -⟩ k r hmem hr hex
    obtain ⟨hu, hl⟩ := @CompactPre.staged_get e level n ssts tc hpre hst k
    exact (hrun k).1 (hall k) hmem r hr (hex.congr hu hl)
  · intro hno
    refine ⟨fun k => (hrun k).2 fun hmem r hr hex => ?_, e', hopen', fun k => (hget k).2
      fun hwal r hr => hno k r (h.inv.memGet_none hwal) hr⟩
    obtain ⟨hu, hl⟩ := @CompactPre.staged_get e level n ssts tc hpre hst k
    exact hno k r hmem hr (hex.congr (fun t ht => (hu t ht).symm) (fun t ht => (hl t ht).symm))

/-- A key that is written, flushed, overwritten and flushed again. -/
def overwriteRun : List Event :=
  [.write (.put [1] [10]), .rotate, .flush, .write (.put [1] [20]), .rotate, .flush]

theorem overwriteRun_commit_iff : ∃ e₀, openEngine {} {} = .ok e₀ ∧
    ∃ e, e₀.run overwriteRun = .ok e ∧
      (((∀ k, ((e.commitPrefix 0 2).get k).1 = (e.get k).1) ∧
        ∃ e', openEngine {} (e.commitPrefix 0 2).dir = .ok e' ∧ ∀ k, (e'.get k).1 = (e.get k).1) ↔
      ∀ k r, e.memGet k = none → Reaches e.current e.files (e.levelPlan 0).inputs 0 k r →
        ¬ Exposed (e.stageOutputs (e.levelPlan 0)).files
          (inputsLeft e.current (e.levelPlan 0).inputs (e.deletedBy 0 2) 0)
          (lowerNow e.current (e.addedBy 0 2) (e.deletedBy 0 2) 0)
          (belowGet e.current e.files 0 k) k r) := by
  obtain ⟨e₀, hopen, e, hrun, h⟩ := @run_good {} overwriteRun (by decide) rfl (by decide +kernel)
  have hpre : ∀ e₀, openEngine {} {} = .ok e₀ → ∀ e, e₀.run overwriteRun = .ok e →
      leveledInputs e.current e.cfg.maxLevel 0 ≠ [] ∧
      e.tc.entries.length + (e.levelPlan 0).outputs.length ≤ e.tc.cap ∧
      OpenRoom (Config.withDefaults {}) (e.commitPrefix 0 2).dir := by
    decide +kernel
  obtain ⟨hne, hroom, hroom'⟩ := hpre e₀ hopen e hrun
  exact ⟨e₀, hopen, e, hrun, commit_prefix_invisible_iff h hne hroom 2 hroom'⟩

/-- Once the output is added and the newer of the two inputs deleted, the older value comes to
light, also after a restart. -/
theorem commit_prefix_visible : ∃ e₀, openEngine {} {} = .ok e₀ ∧ e₀.ValidRun overwriteRun ∧
    ∃ e, e₀.run overwriteRun = .ok e ∧ (e.get [1]).1 = .ok [20] ∧
      2 ≤ (e.levelPlan 0).commitEdits.length ∧ ((e.commitPrefix 0 2).get [1]).1 = .ok [10] ∧
      ∃ e', openEngine {} (e.commitPrefix 0 2).dir = .ok e' ∧ (e'.get [1]).1 = .ok [10] := by
  decide +kernel

end LsmTree
