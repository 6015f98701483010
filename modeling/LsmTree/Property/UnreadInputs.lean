import LsmTree.Property.CompactionCommit

/-!
# Inputs that cannot be read

A compaction skips inputs that have no reader and blocks that cannot be loaded, and then deletes all
inputs.  So it drops nothing that it could not read exactly if it can read everything
(`unread_kept_iff`): every input has a reader all of whose blocks load.  An evicted reader is enough
to lose a table for good (`evicted_input_lost`).
-/

namespace LsmTree

open Versioned

/-- The table has a reader, and all its blocks can be loaded. -/
def LSMEngine.canRead (e : LSMEngine) (t : SSTableMeta) : Bool :=
  match e.tc.readerOf t.fileID with
  | none => false
  | some f => f.blocks.all DataBlock.loads

def LSMEngine.versionsIn (e : LSMEngine) (inputs : List SSTableMeta) : Set Entry :=
  {x | ∃ t ∈ inputs, x ∈ tableSet e.files t}

/-- Tables that may be compacted, readable or not: they are listed, their files are sorted, a reader
reads its own file, and a version of a key is the same in all of them. -/
structure InputsOk (e : LSMEngine) (inputs : List SSTableMeta) : Prop where
  listed : ∀ t ∈ inputs, t ∈ e.current.levels t.level
  file : ∀ t ∈ inputs, ∃ f, e.files t.fileID = some f ∧ SortedEntries f.entries
  reader : ∀ t ∈ inputs, ∀ f, e.tc.readerOf t.fileID = some f → e.files t.fileID = some f
  agrees : Agrees (e.versionsIn inputs)

variable {e : LSMEngine} {inputs : List SSTableMeta} {l : ℕ} {m : Bytes → Option Bytes}

theorem iterate_eq_entries {f : SSTable} (h : f.blocks.all DataBlock.loads = true) :
    f.iterate = f.entries := by
  unfold SSTable.iterate SSTable.entries
  rw [List.filter_eq_self.2 (fun b hb => List.all_eq_true.1 h b hb)]

theorem InputsOk.of_reads (h : InputsOk e inputs) {t : SSTableMeta} (ht : t ∈ inputs)
    (hr : e.canRead t = true) : ∃ f, e.tc.readerOf t.fileID = some f ∧ e.files t.fileID = some f ∧
      SortedEntries f.entries ∧ f.iterate = f.entries := by
  unfold LSMEngine.canRead at hr
  cases hf : e.tc.readerOf t.fileID with
  | none =>
    rw [hf] at hr
    cases hr
  | some f =>
    rw [hf] at hr
    have hfile := h.reader t ht f hf
    obtain ⟨f', hf', hs⟩ := h.file t ht
    rw [hfile] at hf'
    cases hf'
    exact ⟨f, rfl, hfile, hs, iterate_eq_entries hr⟩

theorem mem_kept_of_first {b : Bool} {es : List Entry} {prev : Option Bytes} {x : Entry}
    (hf : firstVersion es x.key.userKey = some x) (hprev : prev ≠ some x.key.userKey)
    (hlive : x.key.type ≠ .deletion) : x ∈ kept b es prev := by
  induction es generalizing prev with
  | nil => cases hf
  | cons y es ih =>
    rw [kept]
    unfold firstVersion at hf
    by_cases hk : y.key.userKey = x.key.userKey
    · rw [List.find?_cons_of_pos (by simpa using hk), Option.some.injEq] at hf
      rw [hf, if_neg hprev, if_neg (fun hc => hlive hc.1)]
      exact List.mem_cons_self
    · rw [List.find?_cons_of_neg (by simpa using hk)] at hf
      have hnext : nextLastKey prev y.key.userKey ≠ some x.key.userKey := by
        cases prev with
        | none =>
          unfold nextLastKey
          split_ifs
          · simp
          · simpa using hk
        | some p => simpa [nextLastKey] using hk
      split_ifs
      · exact ih hf hprev
      · exact ih hf hnext
      · exact List.mem_cons_of_mem y (ih hf hnext)

/-- **If everything can be read**, the newest version of a key is in an output unless it is a
tombstone. -/
theorem InputsOk.live_kept (h : InputsOk e inputs) (hreads : ∀ t ∈ inputs, e.canRead t = true)
    {k : Bytes} {x : Entry} (hx : IsNewest (e.versionsIn inputs) k x) (hlive : x.payload ≠ none) :
    ∃ o ∈ (e.planCompaction inputs l).outputs, x ∈ o.2.entries := by
  have hp := planCompaction_ok e inputs l
  have hin : ∀ t, t ∈ (e.planCompaction inputs l).inputs ↔ t ∈ inputs := fun t =>
    mem_planInputs hp
  have hmem : ∀ y, y ∈ mergedStream e.tc.readerOf (e.planCompaction inputs l).inputs ↔
      y ∈ e.versionsIn inputs := by
    intro y
    rw [mem_mergedStream]
    constructor
    · rintro ⟨t, ht, f, hf, hy⟩
      obtain ⟨f', hf', hfile, -, hit⟩ := h.of_reads ((hin t).1 ht) (hreads t ((hin t).1 ht))
      rw [hf] at hf'
      cases hf'
      exact ⟨t, (hin t).1 ht, f, hfile, hit ▸ hy⟩
    · rintro ⟨t, ht, f, hf, hy⟩
      obtain ⟨f', hf', hfile, -, hit⟩ := h.of_reads ht (hreads t ht)
      rw [hf] at hfile
      cases hfile
      exact ⟨t, (hin t).2 ht, f, hf', hit.symm ▸ hy⟩
  have hsorted : StreamSorted (mergedStream e.tc.readerOf (e.planCompaction inputs l).inputs) := by
    refine mergedStream_sorted (fun t ht f hf => ?_)
    obtain ⟨f', hf', -, hs, hit⟩ := h.of_reads ((hin t).1 ht) (hreads t ((hin t).1 ht))
    rw [hf] at hf'
    cases hf'
    rw [hit]
    exact hs
  obtain ⟨hxin, hxk, hmax⟩ := hx
  -- the first entry of the key in the stream is newest as well, so it is the same
  obtain ⟨y, hy⟩ : ∃ y, firstVersion
      (mergedStream e.tc.readerOf (e.planCompaction inputs l).inputs) k = some y := by
    by_contra hc
    have hnone := Option.eq_none_iff_forall_ne_some.2 (fun y hy => hc ⟨y, hy⟩)
    exact firstVersion_none.1 hnone x ((hmem x).2 hxin) hxk
  obtain ⟨hyin, hyk, hymax⟩ := firstVersion_stream_newest hsorted hy
  have hxy : x = y := h.agrees x hxin y ((hmem y).1 hyin) (hxk.trans hyk.symm)
    (le_antisymm (hymax x ((hmem x).2 hxin) hxk) (hmax y ((hmem y).1 hyin) hyk))
  rw [← hxy, ← show x.key.userKey = k from hxk] at hy
  have hkept := @mem_kept_of_first (decide (l + 1 = e.cfg.maxLevel)) _ none x hy (by simp)
    (fun hc => hlive (by unfold Entry.payload; rw [hc]))
  rw [← hp.entries] at hkept
  obtain ⟨o, ho, hxo⟩ := List.mem_flatMap.1 hkept
  exact ⟨o, ho, hxo⟩

theorem executeCompaction_removes (e : LSMEngine) (inputs : List SSTableMeta) (l : ℕ)
    (rb : ℕ → WriteResult) : (e.executeCompaction inputs l (fun _ => .ok) rb).2 = true ∧
      ∀ t ∈ inputs,
        t ∉ (e.executeCompaction inputs l (fun _ => .ok) rb).1.current.levels t.level ∧
        (e.executeCompaction inputs l (fun _ => .ok) rb).1.files t.fileID = none := by
  have hp := planCompaction_ok e inputs l
  unfold LSMEngine.executeCompaction
  generalize e.planCompaction inputs l = p at hp
  simp only [applyAll_ok (commitEdits_unchecked p)]
  obtain ⟨ssts, tc, hdrop, -, hssts, -⟩ := dropTables_spec (p.inputs.map SSTableMeta.fileID)
    { e.stageOutputs p with
      current := p.commitEdits.foldl Version.applyEdit (e.stageOutputs p).current
      dir := { (e.stageOutputs p).dir with
        edits := (e.stageOutputs p).dir.edits ++ p.commitEdits.map VersionEdit.persisted } }
  rw [hdrop]
  refine ⟨trivial, fun t ht => ?_⟩
  have hin : t ∈ p.inputs := (mem_planInputs hp).2 ht
  constructor
  · change t ∉ (p.commitEdits.foldl Version.applyEdit (e.stageOutputs p).current).levels t.level
    rw [commitEdits_eq, List.foldl_append, mem_foldl_deleteEdit]
    exact fun hc => hc.2 t hin rfl rfl
  · change ssts.lookup t.fileID = none
    rw [hssts, if_pos (List.mem_map_of_mem hin)]

/-- **When a compaction drops nothing that it could not read.** It keeps the inputs that it cannot
read, in the manifest and on disk, and carries the newest live version of every key of the inputs
over to an output, exactly if it can read all inputs. -/
theorem unread_kept_iff (h : InputsOk e inputs) (rb : ℕ → WriteResult) :
    (e.executeCompaction inputs l (fun _ => .ok) rb).2 = true ∧
    (((∀ t ∈ inputs, e.canRead t = false →
        t ∈ (e.executeCompaction inputs l (fun _ => .ok) rb).1.current.levels t.level ∧
        (e.executeCompaction inputs l (fun _ => .ok) rb).1.files t.fileID ≠ none) ∧
      ∀ k x, IsNewest (e.versionsIn inputs) k x → x.payload ≠ none →
        ∃ o ∈ (e.planCompaction inputs l).outputs, x ∈ o.2.entries) ↔
    ∀ t ∈ inputs, e.canRead t = true) := by
  obtain ⟨hok, hremoved⟩ := executeCompaction_removes e inputs l rb
  refine ⟨hok, fun ⟨hkept, _⟩ t ht => ?_, fun hreads => ⟨fun t ht hno => ?_, fun k x hx hlive =>
    h.live_kept hreads hx hlive⟩⟩
  · by_contra hno
    exact (hremoved t ht).1 (hkept t ht (Bool.eq_false_iff.2 hno)).1
  · rw [hreads t ht] at hno
    cases hno

theorem Good.inputsOk (h : Good e m) {level : ℕ}
    (hne : leveledInputs e.current e.cfg.maxLevel level ≠ []) :
    InputsOk e (leveledInputs e.current e.cfg.maxLevel level) ∧
      ∀ t ∈ leveledInputs e.current e.cfg.maxLevel level, e.canRead t = true := by
  have hpre := h.compactPre hne
  have hlisted : ∀ t ∈ leveledInputs e.current e.cfg.maxLevel level,
      t ∈ e.current.levels t.level := by
    intro t ht
    rcases (leveledInputs_spec hpre.tables.shape hne).upper t ht with hl | hl <;>
      rw [(hpre.tables.ok _ t hl).1] <;> exact hl
  have hread : ∀ t ∈ leveledInputs e.current e.cfg.maxLevel level, ∃ f,
      e.tc.readerOf t.fileID = some f ∧ e.files t.fileID = some f ∧ TableOk t f := by
    intro t ht
    obtain ⟨f, hf, hok⟩ := hpre.tables.table (hlisted t ht)
    exact ⟨f, (hpre.books.readers _ t (hlisted t ht)).trans hf, hf, hok⟩
  refine ⟨⟨hlisted, fun t ht => ?_, fun t ht f hf => ?_, ?_⟩, fun t ht => ?_⟩
  · obtain ⟨f, -, hf, hok⟩ := hread t ht
    exact ⟨f, hf, hok.sorted⟩
  · rw [← hpre.books.readers _ t (hlisted t ht)]
    exact hf
  · refine hpre.agrees.mono (fun x hx => ?_)
    obtain ⟨t, ht, hx⟩ := hx
    exact ⟨t.level, t, hlisted t ht, hx⟩
  · obtain ⟨f, hf, -, hok⟩ := hread t ht
    unfold LSMEngine.canRead
    rw [hf]
    exact List.all_eq_true.2 (fun b hb => (hok.built.blocks_ok b hb).1)

def twoFlushes : List Event :=
  [.write (.put [1] [10]), .rotate, .flush, .write (.put [2] [20]), .rotate, .flush]

theorem twoFlushes_kept_iff : ∃ e₀, openEngine {} {} = .ok e₀ ∧ ∃ e, e₀.run twoFlushes = .ok e ∧
    ∃ inputs, inputs = leveledInputs e.current e.cfg.maxLevel 0 ∧ InputsOk e inputs ∧
    (e.executeCompaction inputs 1 (fun _ => .ok) (fun _ => .ok)).2 = true ∧
    (((∀ t ∈ inputs, e.canRead t = false →
        t ∈ (e.executeCompaction inputs 1 (fun _ => .ok) (fun _ => .ok)).1.current.levels t.level ∧
        (e.executeCompaction inputs 1 (fun _ => .ok) (fun _ => .ok)).1.files t.fileID ≠ none) ∧
      ∀ k x, IsNewest (e.versionsIn inputs) k x → x.payload ≠ none →
        ∃ o ∈ (e.planCompaction inputs 1).outputs, x ∈ o.2.entries) ↔
    ∀ t ∈ inputs, e.canRead t = true) := by
  obtain ⟨e₀, hopen, e, hrun, h⟩ := @run_good {} twoFlushes (by decide) rfl (by decide +kernel)
  have hne : ∀ e₀, openEngine {} {} = .ok e₀ → ∀ e, e₀.run twoFlushes = .ok e →
      leveledInputs e.current e.cfg.maxLevel 0 ≠ [] := by decide +kernel
  obtain ⟨hin, -⟩ := h.inputsOk (hne e₀ hopen e hrun)
  exact ⟨e₀, hopen, e, hrun, _, rfl, hin, unread_kept_iff hin (fun _ => .ok)⟩

/-- **An evicted input is lost.** With room for one reader the second flush evicts that of the first
table; the compaction skips the table and deletes it.  Before, a restart with more room finds its
key; afterwards it is gone. -/
theorem evicted_input_lost : ∃ e₀, openEngine { maxOpenFiles := 1 } {} = .ok e₀ ∧
    ∃ e, e₀.run twoFlushes = .ok e ∧
      (∃ t ∈ leveledInputs e.current e.cfg.maxLevel 0, e.canRead t = false ∧
        (e.compactLevel 0 (fun _ => .ok) (fun _ => .ok)).1.files t.fileID = none) ∧
      (e.compactLevel 0 (fun _ => .ok) (fun _ => .ok)).2 = true ∧
      (∃ e', openEngine {} e.dir = .ok e' ∧ (e'.get [1]).1 = .ok [10]) ∧
      ∃ e', openEngine {} (e.compactLevel 0 (fun _ => .ok) (fun _ => .ok)).1.dir = .ok e' ∧
        (e'.get [1]).1 = .error .notFound := by
  decide +kernel

end LsmTree
