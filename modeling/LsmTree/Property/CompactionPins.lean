import LsmTree.Correct.CompactionFault
import LsmTree.Property.Refinement

/-!
# What a failed compaction leaves behind

A compaction pins the readers of its inputs, creates output files and registers their readers.  The
pins are given back at one point, after the merge loop, and the rollback that removes the outputs is
armed only after they are registered.  A call that fails in the merge loop leaves all pins, and one
that fails before the rollback is armed leaves the files it created; the rollback itself does not
know of an output file that was left empty (`compaction_clean_iff`).
-/

namespace LsmTree

variable {o : CompactionFaults} {m : Merging} {f : MergeFailed} {l : ℕ}

variable {inputs : List SSTableMeta} {pins : List ℕ}

/-- Everything is given back: each pinned reader was released once, and a call that failed has left
neither readers of its outputs nor output files. -/
structure CompactionOutcome.Clean (out : CompactionOutcome) : Prop where
  released : out.released.Perm out.pinned
  registered : out.exit ≠ .success → ∀ id ∈ out.registered, out.e.tc.readerOf id = none
  removed : out.exit ≠ .success → ∀ id ∈ out.created, out.e.dir.ssts.lookup id = none

/-- The exits that give everything back: success, a failure to create the first output when no
input has a reader, and a failure in the manifest when the merge has written something. -/
def CompactionExit.Clean (e : LSMEngine) (inputs : List SSTableMeta) (outputLevel : ℕ) :
    CompactionExit → Prop
  | .success => True
  | .createFirst => ∀ x ∈ inputs, e.tc.readerOf x.fileID = none
  | .manifest => 0 < e.cfg.sstMaxSize ∧
      kept (decide (outputLevel + 1 = e.cfg.maxLevel))
        (mergedStream e.tc.readerOf (inputs.insertionSort inputLe)) none ≠ []
  | .create | .add | .finish | .register => False

/-- **The exits after the merge loop.** -/
theorem Merging.Books.commit (h : m.Books) :
    (m.commit o inputs l pins).Clean ↔ match (m.commit o inputs l pins).exit with
      | .success => True
      | .manifest => 0 < m.builder.numEntries ∧ m.Tidy
      | _ => False := by
  unfold Merging.commit
  have hb : ({ m with e := { m.e with tc := pins.foldl TableCache.release m.e.tc } } :
    Merging).Books := ⟨h.last, h.created_le, h.current, h.onDisk, h.outputs, h.fresh⟩
  have htidy : ({ m with e := { m.e with tc := pins.foldl TableCache.release m.e.tc } } :
    Merging).Tidy ↔ m.Tidy := Iff.rfl
  rw [← htidy]
  generalize hm : ({ m with e := { m.e with tc := pins.foldl TableCache.release m.e.tc } } :
    Merging) = m₁ at hb ⊢
  have hn : m₁.builder = m.builder := by rw [← hm]
  rw [← hn]
  simp only
  cases hf : m₁.finishOutput o with
  | error f =>
    obtain rfl := finishOutput_error hf
    simp only
    exact iff_of_false (fun hc => hb.onDisk _ hb.current
      (hc.removed (fun hs => by cases hs) _ hb.current)) id
  | ok y =>
    obtain ⟨e, outputs⟩ := y
    obtain ⟨-, -, -, hdisk, houts⟩ := hb.finishOutput hf
    simp only
    obtain ⟨hdir, hok, hbad⟩ := registerOutputs_spec (o := o) []
      (outputs.map (fun x => x.1.fileID)) e
    rcases hreg : registerOutputs o [] (outputs.map (fun x => x.1.fileID)) e with
      ⟨e₁, registered, _ | _⟩
    · -- a reader could not be opened: the files stay
      rw [hreg] at hdir hbad
      simp only [hreg]
      refine iff_of_false (fun hc => ?_) id
      obtain ⟨x, hx⟩ := List.exists_mem_of_ne_nil _ (hbad rfl).1
      obtain ⟨y, hy, rfl⟩ := List.mem_map.1 hx
      have := hc.removed (fun hs => by cases hs) _ (houts y hy)
      change e₁.dir.ssts.lookup y.1.fileID = none at this
      rw [hdir] at this
      exact hdisk _ (houts y hy) this
    · rw [hreg] at hdir hok
      have hids : registered = outputs.map (fun x => x.1.fileID) := hok rfl
      simp only [hreg]
      obtain ⟨hssts, -⟩ := applyAll_frame (CompactionPlan.commitEdits
        ⟨inputs, outputs, m₁.builder.fileID, e.nextFileID, e.tc⟩) o.apply e₁
      rcases happ : e₁.applyAll (CompactionPlan.commitEdits
        ⟨inputs, outputs, m₁.builder.fileID, e.nextFileID, e.tc⟩) o.apply with ⟨e₂, _ | _⟩
      · -- the manifest: the outputs are rolled back
        rw [happ] at hssts
        simp only
        have hroll := rollback_frame (l := l) e₂ ⟨inputs, outputs, m₁.builder.fileID, e.nextFileID,
          e.tc⟩ o.rollback
        constructor
        · intro hc
          have hall : ∀ id ∈ m₁.created, id ∈ outputs.map (fun x => x.1.fileID) := by
            intro id hid
            by_contra hno
            have := hc.removed (fun hs => by cases hs) id hid
            change (LSMEngine.rollback _ _ _ _).dir.ssts.lookup id = none at this
            rw [(hroll id).1, if_neg hno, hssts, hdir] at this
            exact hdisk id hid this
          have hpos : 0 < m₁.builder.numEntries := by
            rcases (mem_outputs_iff hf).1 (hall _ hb.current) with hc | hc
            · exact absurd hc (not_mem_outputs hb)
            · exact hc.1
          refine ⟨hpos, fun id hid => ?_⟩
          exact ((mem_outputs_iff hf).1 (hall id hid)).imp_right And.right
        · rintro ⟨hpos, ht⟩
          refine ⟨List.Perm.refl _, fun _ id hid => ?_, fun _ id hid => ?_⟩
          · exact (hroll id).2 (hids ▸ hid)
          · change (LSMEngine.rollback _ _ _ _).dir.ssts.lookup id = none
            rw [(hroll id).1, if_pos]
            exact (mem_outputs_iff hf).2 ((ht id hid).imp_right fun heq => ⟨hpos, heq⟩)
      · simp only
        exact iff_of_true ⟨List.Perm.refl _, fun hc => absurd rfl hc, fun hc => absurd rfl hc⟩
          trivial

theorem commit_exit (m : Merging) : (m.commit o inputs l pins).exit ≠ .createFirst := by
  unfold Merging.commit
  simp only
  split
  · rename_i f hf
    rw [finishOutput_error hf]
    exact fun h => by cases h
  · split
    · exact fun h => by cases h
    · split <;> exact fun h => by cases h

theorem outcome_clean_iff (hne : f.exit ≠ .success) :
    (f.outcome pins).Clean ↔ pins = [] ∧ ∀ id ∈ f.created, f.e.dir.ssts.lookup id = none := by
  constructor
  · intro h
    exact ⟨List.nil_perm.1 h.released, h.removed hne⟩
  · rintro ⟨rfl, hfiles⟩
    refine ⟨List.Perm.refl _, fun _ id hid => ?_, fun _ => hfiles⟩
    cases hid

theorem pins_eq_nil_iff (e : LSMEngine) (inputs : List SSTableMeta) :
    (openInputs 0 (inputs.insertionSort inputLe) e.tc).2.2 = [] ↔
      ∀ x ∈ inputs, e.tc.readerOf x.fileID = none := by
  rw [openInputs_pins, List.filter_eq_nil_iff]
  simp [List.mem_insertionSort]

/-- **What every exit of a compaction leaves behind.**  The exit is the call that failed. -/
theorem compaction_clean_iff (e : LSMEngine) (inputs : List SSTableMeta) (outputLevel : ℕ)
    (o : CompactionFaults) (exit : CompactionExit)
    (hexit : (e.executeCompactionWith inputs outputLevel o).exit = exit) :
    (e.executeCompactionWith inputs outputLevel o).Clean ↔ exit.Clean e inputs outputLevel := by
  subst hexit
  have hpins := pins_eq_nil_iff e inputs
  have hsources := openInputs_fst 0 (inputs.insertionSort inputLe) e.tc
  have hempty := openInputs_sources_of_nil 0 (inputs.insertionSort inputLe) e.tc
  unfold LSMEngine.executeCompactionWith
  rcases hopen : openInputs 0 (inputs.insertionSort inputLe) e.tc with ⟨sources, tc, pins⟩
  rw [hopen] at hpins hsources hempty
  have hstream : (KWayMerge.mergeAll mergeLess sources).map MergeEntry.entry =
      mergedStream e.tc.readerOf (inputs.insertionSort inputLe) := by
    change sources = _ at hsources
    rw [hsources]
    rfl
  simp only [hopen]
  cases hfirst : createOutput o outputLevel .createFirst { e with tc := tc } [] [] with
  | error f =>
    obtain ⟨hex, hcr⟩ := createOutput_error hfirst
    simp only
    rw [outcome_clean_iff (by rw [hex]; decide), hcr]
    change _ ↔ CompactionExit.Clean e inputs outputLevel f.exit
    rw [hex]
    simpa [CompactionExit.Clean] using hpins
  | ok m =>
    have hb : m.Books := createOutput_books hfirst (by simp) (by simp) (by simp)
    have hm := createOutput_ok hfirst
    cases hloop : mergeLoop o outputLevel (decide (outputLevel + 1 = e.cfg.maxLevel))
        ((KWayMerge.mergeAll mergeLess sources).map MergeEntry.entry) none m with
    | error f =>
      -- something was merged, so something is pinned
      obtain ⟨hne, hex⟩ := mergeLoop_error hloop
      have hpinned : pins ≠ [] := by
        intro hc
        have hnil : sources = [] := hempty hc
        rw [hnil] at hne
        exact hne rfl
      simp only [hloop]
      have hbad : ¬ CompactionExit.Clean e inputs outputLevel f.exit := by
        rcases hex with hex | hex | hex <;> rw [hex] <;> exact id
      refine iff_of_false (fun hc => hpinned ?_) hbad
      exact List.nil_perm.1 hc.released
    | ok m₁ =>
      have hadv := hb.mergeLoop hloop
      have hcfg : m.e.cfg = e.cfg := by rw [hm]; rfl
      have hzero : m.builder.numEntries = 0 := by rw [hm]; rfl
      have htidy : m.Tidy := by
        intro id hid
        rw [hm] at hid ⊢
        exact Or.inr (List.mem_singleton.1 hid)
      simp only [hloop]
      rw [hadv.books.commit]
      have hwritten : (0 < m₁.builder.numEntries ∧ m₁.Tidy) ↔
          CompactionExit.Clean e inputs outputLevel .manifest := by
        rw [hadv.entries, hzero, hstream]
        simp only [lt_irrefl, false_or]
        change _ ↔ 0 < e.cfg.sstMaxSize ∧ _
        rw [and_comm]
        refine and_congr_left fun hkept => ?_
        constructor
        · intro ht
          by_contra hmax
          obtain ⟨id, hid, hno, hlt⟩ := hadv.empty (by rw [hcfg]; omega) hzero (hstream ▸ hkept)
          exact (ht id hid).elim hno hlt.ne
        · exact fun hmax => hadv.tidy (by rw [hcfg]; exact hmax) htidy
      cases hex : (m₁.commit o (inputs.insertionSort inputLe) outputLevel pins).exit with
      | manifest => exact hwritten
      | success => exact Iff.rfl
      | createFirst => exact absurd hex (commit_exit m₁)
      | create | add | finish | register => exact Iff.rfl

def twoInputs : List Event :=
  [.write (.put [1] [10]), .rotate, .flush, .write (.put [2] [20]), .rotate, .flush]

theorem twoInputs_clean_iff : ∃ e₀, openEngine {} {} = .ok e₀ ∧ ∃ e, e₀.run twoInputs = .ok e ∧
    ∃ inputs, inputs = leveledInputs e.current e.cfg.maxLevel 0 ∧
      (e.executeCompactionWith inputs 1 {}).exit = .success ∧
      ((e.executeCompactionWith inputs 1 {}).Clean ↔
        CompactionExit.Clean e inputs 1 .success) := by
  have hexit : ∃ e₀, openEngine {} {} = .ok e₀ ∧ ∃ e, e₀.run twoInputs = .ok e ∧
      (e.executeCompactionWith (leveledInputs e.current e.cfg.maxLevel 0) 1 {}).exit =
        .success := by decide +kernel
  obtain ⟨e₀, hopen, e, hrun, hexit⟩ := hexit
  exact ⟨e₀, hopen, e, hrun, _, rfl, hexit, compaction_clean_iff e _ 1 {} .success hexit⟩

def secondAddFails : CompactionFaults where
  add _ i := decide (i = 0)

/-- **A failed `Add` leaks.**  Every entry fills a block, and that of the second one cannot be
written: both inputs stay pinned, and the output file stays on disk. -/
theorem failedAdd_leaks : ∃ e₀, openEngine { blockSize := 1 } {} = .ok e₀ ∧
    ∃ e, e₀.run twoInputs = .ok e ∧ ∃ out,
      out = e.executeCompactionWith (leveledInputs e.current e.cfg.maxLevel 0) 1 secondAddFails ∧
      out.exit = .add ∧ out.pinned.length = 2 ∧ out.released = [] ∧
      (∃ id ∈ out.created, out.e.dir.ssts.lookup id ≠ none) ∧ ¬ out.Clean := by
  have hleak : ∃ e₀, openEngine { blockSize := 1 } {} = .ok e₀ ∧
      ∃ e, e₀.run twoInputs = .ok e ∧
      (fun out => out.exit = .add ∧ out.pinned.length = 2 ∧ out.released = [] ∧
        ∃ id ∈ out.created, out.e.dir.ssts.lookup id ≠ none)
      (e.executeCompactionWith (leveledInputs e.current e.cfg.maxLevel 0) 1 secondAddFails) := by
    decide +kernel
  obtain ⟨e₀, hopen, e, hrun, hexit, hpinned, hreleased, hfile⟩ := hleak
  refine ⟨e₀, hopen, e, hrun, _, rfl, hexit, hpinned, hreleased, hfile, fun hc => ?_⟩
  have hlen := hc.released.length_eq
  rw [hreleased, hpinned] at hlen
  cases hlen

end LsmTree
