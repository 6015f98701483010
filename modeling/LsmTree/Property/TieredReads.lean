import LsmTree.Engine.Tiered
import LsmTree.Correct.Midway
import LsmTree.Property.Refinement

/-!
# Reads after size-tiered and time-window compactions

Both strategies merge some tables of level 0 and put the result into level 1, beside the tables that
are there.  A table that stays in level 0 may be older than one that was picked, and is now asked
before it.  The tables of level 1 may then overlap: a lookup asks the one that starts last at or
before the key, and a scan believes the first that knows it.  Reads stay as they are exactly if
nothing of this shows another result (`tiered_reads_iff`).
-/

namespace LsmTree

open Versioned

variable {e e' : LSMEngine} {ins : List SSTableMeta} {m : Bytes → Option Bytes} {k : Bytes}
  {o : SSTableMeta × SSTable}

/-! ### The tables then -/

def LSMEngine.merged (e : LSMEngine) (ins : List SSTableMeta) : List (SSTableMeta × SSTable) :=
  (e.planCompaction ins 1).outputs

def LSMEngine.mergedFiles (e : LSMEngine) (ins : List SSTableMeta) (id : ℕ) : Option SSTable :=
  match (e.merged ins).find? (fun o => o.1.fileID = id) with
  | some o => some o.2
  | none => e.files id

def LSMEngine.leftTables (e : LSMEngine) (ins : List SSTableMeta) : List SSTableMeta :=
  l0Desc ((e.current.levels 0).filter (fun t => t ∉ ins))

def LSMEngine.lowerTables (e : LSMEngine) (ins : List SSTableMeta) : List SSTableMeta :=
  e.current.levels 1 ++ (e.merged ins).map Prod.fst

/-- How a scan may miss the result `r`: no table of the upper level knows the key, and of the tables
of the lower level that know it the one that starts first shows another one. -/
def Overtaken (readers : ℕ → Option SSTable) (upper lower : List SSTableMeta) (k : Bytes)
    (r : Option Bytes) : Prop :=
  upper.findSome? (fun t => tableGet readers t k) = none ∧
    ∃ c ∈ lower, (∀ t ∈ lower, tableGet readers t k ≠ none → metaLe c t) ∧
      ∃ r', tableGet readers c k = some r' ∧ r' ≠ r

/-- Reads of the key miss the result `r` once the picked tables are compacted. -/
def LSMEngine.Misread (e : LSMEngine) (ins : List SSTableMeta) (k : Bytes) (r : Option Bytes) :
    Prop :=
  Exposed (e.mergedFiles ins) (e.leftTables ins) (e.lowerTables ins)
      (belowGet e.current e.files 0 k) k r ∨
    Overtaken (e.mergedFiles ins) (e.leftTables ins) (e.lowerTables ins) k r

theorem mergedFiles_of_le {id : ℕ} (h : id ≤ e.nextFileID) : e.mergedFiles ins id = e.files id := by
  have hnone : (e.merged ins).find? (fun o => o.1.fileID = id) = none := by
    refine List.find?_eq_none.2 (fun o ho hid => ?_)
    have h1 := ((planCompaction_ok e ins 1).outs o ho).id_gt
    have h2 : o.1.fileID = id := of_decide_eq_true hid
    omega
  unfold LSMEngine.mergedFiles
  rw [hnone]

theorem mergedFiles_of_mem (ho : o ∈ e.merged ins) :
    e.mergedFiles ins o.1.fileID = some o.2 := by
  unfold LSMEngine.mergedFiles
  cases hf : (e.merged ins).find? (fun x => x.1.fileID = o.1.fileID) with
  | none => exact absurd (decide_eq_true rfl) (List.find?_eq_none.1 hf o ho)
  | some x =>
    have hid : x.1.fileID = o.1.fileID := by simpa using List.find?_some hf
    rcases pairwise_cases (planCompaction_ok e ins 1).ids (List.mem_of_find?_eq_some hf) ho
      with rfl | hlt | hlt
    · rfl
    · exact absurd hid hlt.ne
    · exact absurd hid.symm hlt.ne

theorem Readable.merged_ok (h : Readable e m) (hb : Books e)
    (hin : ∀ t ∈ ins, t ∈ e.current.levels 0) (ho : o ∈ e.merged ins) :
    TableOk o.1 o.2 ∧ ∀ x ∈ o.2.entries, x ∈ tableVersions e.current e.files := by
  have hp := planCompaction_ok e ins 1
  have hlisted : ∀ x ∈ (e.planCompaction ins 1).inputs, ∃ j, x ∈ e.current.levels j :=
    fun x hx => ⟨0, hin x ((mem_planInputs hp).1 hx)⟩
  have hstream := h.tables.shape.stream hb.readersRight hlisted
  have hsorted := hp.entries ▸ kept_sorted hstream
  have hfrom : ∀ x ∈ o.2.entries, x ∈ tableVersions e.current e.files := by
    intro x hx
    have hkept := hp.entries ▸ List.mem_flatMap.2 ⟨o, ho, hx⟩
    have hes := List.mem_of_find?_eq_some ((mem_kept hstream).1 hkept).2.1
    obtain ⟨t, ht, hxt⟩ := (hb.mem_stream h.tables.shape hlisted).1 hes
    obtain ⟨j, hj⟩ := hlisted t ht
    exact ⟨j, t, hj, hxt⟩
  have hout := hp.outs o ho
  refine ⟨⟨hout.built, ?_, hout.first, hout.last, fun x hx => h.tables.entries_ok (hfrom x hx)⟩,
    hfrom⟩
  exact ((List.pairwise_flatMap.1 hsorted).1 o ho).imp
    (fun hab => InternalKey.less_iff.2 (Or.inl hab))

/-! ### The compaction -/

/-- What a compaction of tables of level 0 into level 1 does. -/
structure Moved (e e' : LSMEngine) (ins : List SSTableMeta) : Prop where
  mems : e'.mems = e.mems
  seqNo : e'.seqNo = e.seqNo
  upper : l0Desc (e'.current.levels 0) = e.leftTables ins
  lower : ∀ t, t ∈ e'.current.levels 1 ↔ t ∈ e.lowerTables ins
  rest : ∀ j, j ≠ 0 → j ≠ 1 → e'.current.levels j = e.current.levels j
  sorted : LevelsSorted e'.current
  files : ∀ j, ∀ t ∈ e'.current.levels j, e'.files t.fileID = e.mergedFiles ins t.fileID
  readers : ∀ j, ∀ t ∈ e'.current.levels j, e'.tc.readerOf t.fileID = e'.files t.fileID
  listed : ∀ j, ∀ t ∈ e'.current.levels j, t ∈ e.current.levels j ∨ ∃ s, (t, s) ∈ e.merged ins

theorem applyAll_of_true {edits : List VersionEdit} {res : ℕ → WriteResult}
    (h : (e.applyAll edits res).2 = true) :
    e.applyAll edits res = e.applyAll edits (fun _ => .ok) := by
  induction edits generalizing e res with
  | nil => rfl
  | cons edit edits ih =>
    rw [LSMEngine.applyAll] at h ⊢
    rw [LSMEngine.applyAll]
    cases hres : res 0 with
    | ok =>
      rw [hres] at h
      rcases happly : e.apply edit .ok with ⟨e₁, _ | _⟩
      · rfl
      · rw [happly] at h
        exact ih h
    | failed reached =>
      have hfail : (e.apply edit (.failed reached)).2 = false := by
        unfold LSMEngine.apply Manifest.apply
        cases reached <;> split_ifs <;> rfl
      rw [hres] at h
      rcases happly : e.apply edit (.failed reached) with ⟨e₁, _ | _⟩
      · rw [happly] at h
        cases h
      · rw [happly] at hfail
        cases hfail

theorem executeCompaction_of_true {l : ℕ} {res rb : ℕ → WriteResult}
    (h : (e.executeCompaction ins l res rb).2 = true) :
    e.executeCompaction ins l res rb = e.executeCompaction ins l (fun _ => .ok) rb := by
  have hall : ((e.stageOutputs (e.planCompaction ins l)).applyAll
      (e.planCompaction ins l).commitEdits res).2 = true := by
    unfold LSMEngine.executeCompaction at h
    dsimp only at h
    rcases hres : (e.stageOutputs (e.planCompaction ins l)).applyAll
      (e.planCompaction ins l).commitEdits res with ⟨e₁, _ | _⟩
    · rw [hres] at h
      cases h
    · rfl
  unfold LSMEngine.executeCompaction
  dsimp only
  rw [applyAll_of_true hall]

theorem PlanShape.moved (h : PlanShape e ins) (hin : ∀ t ∈ ins, t ∈ e.current.levels 0)
    {v : Version} (hv : v = (e.planCompaction ins 1).commit e.current) :
    v.levels 0 = (e.current.levels 0).filter (fun t => t ∉ ins) ∧
    (∀ t, t ∈ v.levels 1 ↔
      t ∈ e.current.levels 1 ∨ t ∈ (e.planCompaction ins 1).outputs.map Prod.fst) ∧
    (∀ j, j ≠ 0 → j ≠ 1 → v.levels j = e.current.levels j) ∧ LevelsSorted v := by
  have hp := planCompaction_ok e ins 1
  have hnot : ∀ j, j ≠ 0 → ∀ x ∈ ins, x ∉ e.current.levels j := by
    intro j hj x hx hxj
    exact hj ((h.tables.ok j x hxj).1.symm.trans (h.tables.ok 0 x (hin x hx)).1)
  rw [hv, CompactionPlan.commit_eq]
  refine ⟨?_, fun t => ?_, fun j h0 h1 => ?_, ?_⟩
  · rw [h.edited_l0 Nat.one_ne_zero (fun _ hx => hx) (fun _ hx => Or.inl hx)]
    simp only [mem_planInputs hp]
  · rw [h.mem_edited (fun _ hx => hx) (fun _ hx => Or.inl hx), mem_planInputs hp]
    refine ⟨fun ht => ht.1.imp id And.left, fun ht => ⟨ht.imp id fun ht => ⟨ht, rfl⟩, fun hc => ?_⟩⟩
    rcases ht with ht | ht
    · exact hnot 1 Nat.one_ne_zero t hc ht
    · have h1 := h.listed_le 0 t (hin t hc)
      have h2 := (plan_output ht).2.2
      omega
  · exact h.edited_rest (fun _ hx => hx) (fun _ hx => Or.inl hx) (hnot j h0) h1
  · exact h.edited_sorted (List.Sublist.refl _) _

theorem Readable.moved (h : Readable e m) (hb : Books e) (hin : ∀ t ∈ ins, t ∈ e.current.levels 0)
    (hroom : e.tc.entries.length + (e.merged ins).length ≤ e.tc.cap) {res rb : ℕ → WriteResult}
    (hrun : e.executeCompaction ins 1 res rb = (e', true)) : Moved e e' ins := by
  have hs : PlanShape e ins :=
    ⟨h.tables.shape, fun _ _ hx => hb.listed_le h.tables hx, fun x hx => ⟨0, hin x hx⟩⟩
  obtain ⟨ssts₀, tc₀, ssts, tc, hst, heq, hu, -, hssts, htc⟩ :=
    @executeCompaction_ok e ins 1 ⟨hb.unique, hb.reader_ids, hroom⟩ rb
  rw [executeCompaction_of_true (by rw [hrun]), heq] at hrun
  obtain ⟨hold, hout, hbooks⟩ := hb.committed hs rfl hst hu hssts htc
  have he' := congrArg Prod.fst hrun
  dsimp only at he'
  have hcurrent : e'.current = (e.planCompaction ins 1).commit e.current := by
    rw [← he', CompactionPlan.commit]
  have hfiles : ∀ id, e'.files id = ssts.lookup id := by
    intro id
    rw [← he', LSMEngine.files]
  rw [he'] at hbooks
  obtain ⟨hupper, hlower, hrest, hsorted⟩ := hs.moved hin hcurrent
  have hlisted : ∀ j, ∀ t ∈ e'.current.levels j,
      (t ∈ e.current.levels j ∧ t ∉ (e.planCompaction ins 1).inputs) ∨
        ∃ s, (t, s) ∈ (e.planCompaction ins 1).outputs := by
    intro j t ht
    rw [hcurrent] at ht
    obtain hx | ⟨s, ho, -⟩ := hs.mem_commit.1 ht
    · exact Or.inl hx
    · exact Or.inr ⟨s, ho⟩
  exact {
    mems := by
      rw [← he']
      rfl
    seqNo := by rw [← he']
    upper := congrArg l0Desc hupper
    lower := fun t => (hlower t).trans List.mem_append.symm
    rest := hrest
    sorted := hsorted
    files := fun j t ht => by
      rcases hlisted j t ht with ⟨ht, hno⟩ | ⟨s, ho⟩
      · rw [hfiles, mergedFiles_of_le (hb.listed_le h.tables ht), hold j t ht hno]
      · rw [hfiles, @mergedFiles_of_mem e ins (t, s) ho, hout _ ho]
    readers := hbooks.readers
    listed := fun j t ht => (hlisted j t ht).imp And.left id }

/-! ### Tables of one level -/

section Levels

variable {v : Version} {files readers : ℕ → Option SSTable} {j maxLevel : ℕ} {r : Option Bytes}

theorem findSome?_flatMap {α β γ : Type*} (f : α → List β) (g : β → Option γ) (l : List α) :
    (l.flatMap f).findSome? g = l.findSome? (fun a => (f a).findSome? g) := by
  induction l with
  | nil => rfl
  | cons a l ih =>
    rw [List.flatMap_cons, List.findSome?_append, List.findSome?_cons, ih]
    cases (f a).findSome? g <;> rfl

theorem TablesOk.levelGet_eq (h : TablesOk v files maxLevel) (hj : j ≠ 0) :
    levelGet v files k j = (v.levels j).findSome? (fun t => tableGet files t k) :=
  Option.ext fun _ => (h.levelGet_eq_some hj).trans
    (findSome?_eq_some_of_unique fun _ ha _ hb => h.eq_of_tableGet hj ha hb).symm

theorem findSome?_eq_first (hs : LevelsSorted v) (hj : j ≠ 0) :
    (v.levels j).findSome? (fun t => tableGet readers t k) = some r ↔
      ∃ c ∈ v.levels j, (∀ t ∈ v.levels j, tableGet readers t k ≠ none → metaLe c t) ∧
        tableGet readers c k = some r := by
  have hfirst : ∀ {r}, (v.levels j).findSome? (fun t => tableGet readers t k) = some r →
      ∃ c ∈ v.levels j, (∀ t ∈ v.levels j, tableGet readers t k ≠ none → metaLe c t) ∧
        tableGet readers c k = some r := by
    intro r hr
    obtain ⟨pre, c, post, hl, hc, hpre⟩ := List.findSome?_eq_some_iff.1 hr
    have hp := (hs j).1 hj
    rw [hl] at hp ⊢
    refine ⟨c, by simp, fun t ht hk => ?_, hc⟩
    rcases List.mem_append.1 ht with ht | ht
    · exact absurd (hpre t ht) hk
    · rcases List.mem_cons.1 ht with rfl | ht
      · exact Or.inr ⟨rfl, le_rfl⟩
      · exact (List.pairwise_cons.1 (List.pairwise_append.1 hp).2.1).1 t ht
  refine ⟨hfirst, ?_⟩
  rintro ⟨c, hc, hmin, hr⟩
  cases hf : (v.levels j).findSome? (fun t => tableGet readers t k) with
  | none =>
    rw [List.findSome?_eq_none_iff.1 hf c hc] at hr
    cases hr
  | some r' =>
    obtain ⟨d, hd, hmin', hr'⟩ := hfirst hf
    have hid := metaLe_antisymm (hmin d hd (by rw [hr']; simp)) (hmin' c hc (by rw [hr]; simp))
    rcases pairwise_cases (List.pairwise_map.1 (hs j).2) hc hd with rfl | hne | hne
    · exact hr'.symm.trans hr
    · exact absurd hid hne
    · exact absurd hid.symm hne

end Levels

/-! ### Reads -/

theorem Moved.tableGet_eq (hmv : Moved e e' ins) {j : ℕ} {t : SSTableMeta}
    (ht : t ∈ e'.current.levels j) :
    tableGet e'.tc.readerOf t k = tableGet (e.mergedFiles ins) t k := by
  unfold tableGet
  rw [hmv.readers j t ht, hmv.files j t ht]

theorem Moved.table (hmv : Moved e e' ins) (h : Readable e m) (hb : Books e)
    (hin : ∀ t ∈ ins, t ∈ e.current.levels 0) {j : ℕ} {t : SSTableMeta}
    (ht : t ∈ e'.current.levels j) : ∃ f, e'.tc.readerOf t.fileID = some f ∧ TableOk t f ∧
      ∀ x ∈ f.entries, x ∈ tableVersions e.current e.files := by
  rw [hmv.readers j t ht, hmv.files j t ht]
  rcases hmv.listed j t ht with hold | ⟨s, ho⟩
  · obtain ⟨f, hf, hok⟩ := h.tables.table hold
    rw [mergedFiles_of_le (hb.listed_le h.tables hold)]
    exact ⟨f, hf, hok, fun x hx => ⟨j, t, hold, f, hf, hx⟩⟩
  · exact ⟨s, @mergedFiles_of_mem e ins (t, s) ho, h.merged_ok hb hin ho⟩

theorem Moved.deep_get (hmv : Moved e e' ins) (h : Readable e m) (hb : Books e) {j : ℕ} (hj : 2 ≤ j)
    {t : SSTableMeta} (ht : t ∈ e.current.levels j) :
    tableGet e'.tc.readerOf t k = tableGet e.files t k := by
  rw [hmv.tableGet_eq (j := j) (by rwa [hmv.rest j (by omega) (by omega)])]
  unfold tableGet
  rw [mergedFiles_of_le (hb.listed_le h.tables ht)]

/-- **A lookup** returns what it did unless the key is exposed. -/
theorem Moved.get_iff (hmv : Moved e e' ins) (h : Readable e m) (hb : Books e)
    (hin : ∀ t ∈ ins, t ∈ e.current.levels 0) (hmem : e.memGet k = none) :
    (e'.get k).1 = (e.get k).1 ↔ ¬ Exposed (e.mergedFiles ins) (e.leftTables ins)
      (e.lowerTables ins) (belowGet e.current e.files 0 k) k (m k) := by
  have hok : ∀ j, ∀ t ∈ e'.current.levels j, ∀ f, e'.tc.readerOf t.fileID = some f → TableOk t f ∧
      ∀ x ∈ f.entries, x ∈ tableVersions e.current e.files := by
    intro j t ht f hf
    obtain ⟨g, hg, hgok⟩ := hmv.table h hb hin ht
    rw [hf] at hg
    cases hg
    exact hgok
  have hreaders : ReadersOk e'.current e'.tc.readerOf e'.seqNo :=
    ⟨fun j t ht f hf => (hok j t ht f hf).1, fun j t ht f hf x hx => by
      rw [hmv.seqNo]
      exact h.seq_tables x ((hok j t ht f hf).2 x hx)⟩
  have hmem' : e'.memGet k = none := by rw [memGet_eq, hmv.mems, ← memGet_eq, hmem]
  have hupper : levelGet e'.current e'.tc.readerOf k 0 =
      (e.leftTables ins).findSome? (fun t => tableGet (e.mergedFiles ins) t k) := by
    rw [levelGet, if_pos rfl, ← hmv.upper]
    exact findSome?_congr fun t ht => hmv.tableGet_eq (mem_l0Desc.1 ht)
  have hlower : ∀ r, levelGet e'.current e'.tc.readerOf k 1 = some r ↔
      ∃ c, LastStart (e.lowerTables ins) k c ∧ tableGet (e.mergedFiles ins) c k = some r := by
    intro r
    rw [levelGet_eq_some hmv.sorted Nat.one_ne_zero (hreaders.ok 1)]
    refine exists_congr fun c => ?_
    rw [LastStart.congr hmv.lower]
    refine and_congr_right fun hc => ?_
    rw [hmv.tableGet_eq ((hmv.lower c).2 hc.mem)]
  have hbelow : belowGet e'.current e'.tc.readerOf 0 k = belowGet e.current e.files 0 k := by
    refine findSome?_congr fun j hj => ?_
    have hj := (List.mem_range'_1.1 hj).1
    unfold levelGet
    rw [if_neg (by omega), if_neg (by omega), hmv.rest j (by omega) (by omega)]
    cases hc : findLevelCandidate (e.current.levels j) k with
    | none => rfl
    | some c =>
      have hsorted := h.tables.shape.levelsSorted
      exact hmv.deep_get h hb hj ((findLevelCandidate_eq_some hsorted (by omega)).1 hc).1.mem
  rw [get_eq_tablesGet hreaders, h.get, lookupResult_inj, hmem', Option.none_or,
    tablesGet_split _ _ (i := 0) (by decide), show aboveGet _ _ 0 k = none from rfl, Option.none_or,
    hupper, hbelow, exposed_iff hlower, not_not]

theorem Moved.firstHit_eq (hmv : Moved e e' ins) (h : Readable e m) (hb : Books e)
    (hmem : e.memGet k = none) :
    firstHit (layerGets e'.mems e'.current e'.tc.readerOf) k =
      ((e.leftTables ins).findSome? (fun t => tableGet (e.mergedFiles ins) t k)).or
        (((e'.current.levels 1).findSome? (fun t => tableGet e'.tc.readerOf t k)).or
          (belowGet e.current e.files 0 k)) := by
  have hbelow : ((List.range' 2 (maxLevels - 2)).flatMap e'.current.levels).findSome?
      (fun t => tableGet e'.tc.readerOf t k) = belowGet e.current e.files 0 k := by
    rw [findSome?_flatMap]
    refine findSome?_congr fun j hj => ?_
    have hj := (List.mem_range'_1.1 hj).1
    rw [h.tables.levelGet_eq (by omega), hmv.rest j (by omega) (by omega)]
    exact findSome?_congr fun t ht => hmv.deep_get h hb hj ht
  rw [firstHit_layerGets, hmv.mems, ← memGet_eq, hmem, Option.none_or, ← hbelow]
  unfold firstHit Version.scanOrder
  rw [List.findSome?_map, List.findSome?_append, hmv.upper,
    show List.range' 1 (maxLevels - 1) = 1 :: List.range' 2 (maxLevels - 2) from rfl,
    List.flatMap_cons, List.findSome?_append]
  congr 1
  refine findSome?_congr fun t ht => ?_
  rw [← hmv.upper] at ht
  exact hmv.tableGet_eq (mem_l0Desc.1 ht)

/-- **A scan** shows what it did unless the key is exposed or overtaken. -/
theorem Moved.firstHit_iff (hmv : Moved e e' ins) (h : Readable e m) (hb : Books e)
    (hmem : e.memGet k = none) (hexp : ¬ Exposed (e.mergedFiles ins) (e.leftTables ins)
      (e.lowerTables ins) (belowGet e.current e.files 0 k) k (m k)) :
    (firstHit (layerGets e'.mems e'.current e'.tc.readerOf) k).getD none = m k ↔
      ¬ Overtaken (e.mergedFiles ins) (e.leftTables ins) (e.lowerTables ins) k (m k) := by
  have hfirst : ∀ r,
      (e'.current.levels 1).findSome? (fun t => tableGet e'.tc.readerOf t k) = some r ↔
      ∃ c ∈ e.lowerTables ins, (∀ t ∈ e.lowerTables ins,
        tableGet (e.mergedFiles ins) t k ≠ none → metaLe c t) ∧
          tableGet (e.mergedFiles ins) c k = some r := by
    intro r
    rw [findSome?_eq_first hmv.sorted Nat.one_ne_zero]
    simp only [← hmv.lower]
    refine exists_congr fun c => and_congr_right fun hc => ?_
    rw [hmv.tableGet_eq hc]
    refine and_congr_left fun _ => forall₂_congr fun t ht => ?_
    rw [hmv.tableGet_eq ht]
  rw [hmv.firstHit_eq h hb hmem]
  cases hleft : (e.leftTables ins).findSome? (fun t => tableGet (e.mergedFiles ins) t k) with
  | some r =>
    refine iff_of_true ?_ fun hover => by cases hleft.symm.trans hover.1
    by_contra hne
    exact hexp (.upper hleft hne)
  | none =>
    rw [Option.none_or]
    cases hlow : (e'.current.levels 1).findSome? (fun t => tableGet e'.tc.readerOf t k) with
    | some r =>
      obtain ⟨c, hc, hmin, hr⟩ := (hfirst r).1 hlow
      rw [Option.some_or, Option.getD_some]
      constructor
      · rintro heq ⟨-, d, hd, hmin', r', hr', hne⟩
        have := (hfirst r').2 ⟨d, hd, hmin', hr'⟩
        rw [hlow] at this
        cases this
        exact hne heq
      · intro hover
        by_contra hne
        exact hover ⟨hleft, c, hc, hmin, r, hr, hne⟩
    | none =>
      have hno : ∀ c ∈ e.lowerTables ins, tableGet (e.mergedFiles ins) c k = none := by
        intro c hc
        have hc := (hmv.lower c).2 hc
        rw [← hmv.tableGet_eq hc]
        exact List.findSome?_eq_none_iff.1 hlow c hc
      rw [Option.none_or]
      refine iff_of_true ?_ ?_
      · by_contra hne
        exact hexp (.hidden hleft (fun c hc => hno c hc.mem) hne)
      · rintro ⟨-, c, hc, -, r, hr, -⟩
        rw [hno c hc] at hr
        cases hr

/-- `Get` and `ScanWithError` answer as before. -/
def SameReads (e e' : LSMEngine) : Prop :=
  (∀ k, (e'.get k).1 = (e.get k).1) ∧ ∀ start stop limit,
    (e'.scanWithError start stop limit).1 = (e.scanWithError start stop limit).1

theorem Moved.sameReads_iff (hmv : Moved e e' ins) (h : Readable e m) (hb : Books e)
    (hin : ∀ t ∈ ins, t ∈ e.current.levels 0) :
    SameReads e e' ↔ ∀ k, e.memGet k = none → ¬ e.Misread ins k (m k) := by
  set m' := fun k => (firstHit (layerGets e'.mems e'.current e'.tc.readerOf) k).getD none with hm'
  have hscan : ∀ start stop limit,
      IsScan m' start stop limit (e'.scanWithError start stop limit).1 := by
    intro start stop limit
    rw [scanWithError_eq]
    refine scanResult_isScan (fun j t ht => ?_) (fun t ht x hx => ?_) (fun _ _ _ => rfl)
      (fun _ _ => rfl) limit
    · obtain ⟨f, hf, hok, -⟩ := hmv.table h hb hin ht
      exact ⟨f, hf, hok.shape⟩
    · rw [hmv.mems] at ht
      exact (h.mem_ok x ⟨_, List.mem_map_of_mem ht, hx⟩).key
  have hscans : (∀ start stop limit, (e'.scanWithError start stop limit).1 =
      (e.scanWithError start stop limit).1) ↔ ∀ k, m' k = m k := by
    constructor
    · intro hsame k
      obtain ⟨L, -, hL, hr⟩ := hscan [] [] 0
      obtain ⟨L', -, hL', hr'⟩ := h.scanWithError [] [] 0
      have hLL : L = L' := hr.symm.trans ((hsame [] [] 0).trans hr')
      refine Option.ext fun v => ?_
      have hrange : InRange [] [] k := ⟨Or.inl rfl, Or.inl rfl⟩
      rw [← and_iff_right (a := InRange [] [] k) (b := m' k = some v) hrange, ← hL, hLL, hL',
        and_iff_right hrange]
    · intro hmm start stop limit
      exact (funext hmm ▸ hscan start stop limit).unique (h.scanWithError start stop limit)
  unfold SameReads
  rw [hscans, ← forall_and]
  refine forall_congr' fun k => ?_
  cases hmem : e.memGet k with
  | none =>
    rw [hmv.get_iff h hb hin hmem, forall_prop_of_true rfl]
    unfold LSMEngine.Misread
    rw [not_or]
    exact and_congr_right fun hexp => hmv.firstHit_iff h hb hmem hexp
  | some r =>
    refine iff_of_true ⟨?_, ?_⟩ fun hc => by cases hc
    · have hmem' : e'.memGet k = some r := by rw [memGet_eq, hmv.mems, ← memGet_eq, hmem]
      rw [get_fst, get_fst, hmem', hmem]
    · rw [hm', ← LayeredShape.firstHit h.toLayered.shape k]
      change (firstHit (layerGets e'.mems _ _) k).getD none =
        (firstHit (layerGets e.mems _ _) k).getD none
      rw [firstHit_layerGets, firstHit_layerGets, hmv.mems, ← memGet_eq, hmem, Option.some_or,
        Option.some_or]

/-- **When reads survive** a size-tiered or a time-window compaction.  From any state whose reads
return the map `m`, with room in the table cache, they are as before if and only if no key that the
memtables do not know is misread. -/
theorem tiered_reads_iff {srt : SizeSort} {res rb : ℕ → WriteResult} (h : Readable e m)
    (hb : Books e) (hroom : e.tc.entries.length + (e.merged ins).length ≤ e.tc.cap)
    (hrun : (e.stcsInputs srt = some ins ∧ e.runSTCSCompaction srt res rb = (e', true)) ∨
      ∃ now, e.twcsInputs srt now = some ins ∧ e.runTWCSCompaction srt now res rb = (e', true)) :
    SameReads e e' ↔ ∀ k, e.memGet k = none → ¬ e.Misread ins k (m k) := by
  have hpick : (∀ t ∈ ins, t ∈ e.current.levels 0) ∧
      e.executeCompaction ins 1 res rb = (e', true) := by
    rcases hrun with ⟨hin, hrun⟩ | ⟨now, hin, hrun⟩
    · unfold LSMEngine.runSTCSCompaction at hrun
      rw [hin] at hrun
      exact ⟨fun t ht => mem_of_mem_stcsPickInputs hin ht, hrun⟩
    · unfold LSMEngine.runTWCSCompaction at hrun
      rw [hin] at hrun
      obtain ⟨-, _, -, hfrom⟩ := twcsPickInputs_window hin
      exact ⟨fun t ht => (hfrom t ht).1, hrun⟩
  exact (h.moved hb hpick.1 hroom hpick.2).sameReads_iff h hb hpick.1

def equalFlushes : List Event :=
  [.write (.put [1] [10]), .rotate, .flush, .write (.put [2] [20]), .rotate, .flush,
    .write (.delete [1]), .rotate, .flush, .write (.put [1] [30]), .rotate, .flush]

theorem equalFlushes_reads_iff : ∃ e₀, openEngine {} {} = .ok e₀ ∧
    ∃ e, e₀.run equalFlushes = .ok e ∧ ∃ m : Bytes → Option Bytes, Readable e m ∧
      ∃ ins e', e.stcsInputs .insertion = some ins ∧
      e.runSTCSCompaction .insertion (fun _ => .ok) (fun _ => .ok) = (e', true) ∧
      (SameReads e e' ↔ ∀ k, e.memGet k = none → ¬ e.Misread ins k (m k)) := by
  obtain ⟨e₀, hopen, e, hrun, h⟩ := @run_good {} equalFlushes (by decide) rfl (by decide +kernel)
  have hpick : ∀ e₀, openEngine {} {} = .ok e₀ → ∀ e, e₀.run equalFlushes = .ok e →
      ∃ ins ∈ e.stcsInputs .insertion, e.tc.entries.length + (e.merged ins).length ≤ e.tc.cap ∧
        (e.runSTCSCompaction .insertion (fun _ => .ok) (fun _ => .ok)).2 = true := by
    decide +kernel
  obtain ⟨ins, hins, hroom, hdone⟩ := hpick e₀ hopen e hrun
  exact ⟨e₀, hopen, e, hrun, _, h.inv.readable, ins, _, hins, Prod.ext rfl hdone,
    tiered_reads_iff h.inv.readable h.inv.books hroom (.inl ⟨hins, Prod.ext rfl hdone⟩)⟩

/-- A table that is larger than the others, and four later ones that all write the same key. -/
def unequalFlushes : List Event :=
  [.write (.put [1] [10]), .write (.put [2] (List.replicate 200 0)), .rotate, .flush,
    .write (.put [1] [11]), .rotate, .flush, .write (.put [1] [12]), .rotate, .flush,
    .write (.put [1] [13]), .rotate, .flush, .write (.put [1] [14]), .rotate, .flush]

/-- **An old value comes back**: the four later tables are picked, the first one stays. -/
theorem unequalFlushes_stale : ∃ e₀, openEngine {} {} = .ok e₀ ∧
    ∃ e, e₀.run unequalFlushes = .ok e ∧ (e.get [1]).1 = .ok [14] ∧
      (e.runSTCSCompaction .insertion (fun _ => .ok) (fun _ => .ok)).2 = true ∧
      ((e.runSTCSCompaction .insertion (fun _ => .ok) (fun _ => .ok)).1.get [1]).1 = .ok [10] := by
  decide +kernel

end LsmTree
