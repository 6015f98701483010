import LsmTree.Correct.Lookup

/-!
# Lookups in the middle of a compaction

A compaction commits by one manifest edit per table, so lookups and crashes may find some of the
outputs added and some of the inputs deleted (`Midway`).  Keys that no input holds are looked up as
before (`Midway.levelGet_of_untouched`).  For the others the answer comes from the inputs of the
upper level that are left, then from the one table of the lower level that starts last at or before
the key, then from the levels below; `Exposed` lists how that can differ from what the inputs hold.
-/

namespace LsmTree

open Versioned

variable {k : Bytes} {files : ℕ → Option SSTable}

/-- The inputs of level `j` that are not deleted, newest first. -/
def inputsLeft (v : Version) (ins del : List SSTableMeta) (j : ℕ) : List SSTableMeta :=
  l0Desc ((v.levels j).filter (fun t => t ∈ ins ∧ t ∉ del))

/-- What the inputs of a compaction from level `i` know about a key. -/
def inputsGet (v : Version) (files : ℕ → Option SSTable) (ins : List SSTableMeta) (i : ℕ)
    (k : Bytes) : Option (Option Bytes) :=
  (inputsLeft v ins [] i ++ inputsLeft v ins [] (i + 1)).findSome? (fun t => tableGet files t k)

/-- What the levels above level `i` know about a key. -/
def aboveGet (v : Version) (files : ℕ → Option SSTable) (i : ℕ) (k : Bytes) :
    Option (Option Bytes) :=
  (List.range i).findSome? (levelGet v files k)

/-- What the levels below level `i + 1` know about a key. -/
def belowGet (v : Version) (files : ℕ → Option SSTable) (i : ℕ) (k : Bytes) :
    Option (Option Bytes) :=
  (List.range' (i + 2) (maxLevels - (i + 2))).findSome? (levelGet v files k)

/-- How a lookup of a key may miss the result `r`: a table left in the upper level shows another
one; or none there knows the key, and the table that starts last at or before it in the lower level
shows another one; or that table does not know the key either, and the levels below show another
one. -/
inductive Exposed (readers : ℕ → Option SSTable) (upper lower : List SSTableMeta)
    (below : Option (Option Bytes)) (k : Bytes) (r : Option Bytes) : Prop
  | upper {r' : Option Bytes} (h : upper.findSome? (fun t => tableGet readers t k) = some r')
      (hne : r' ≠ r)
  | lower {c : SSTableMeta} {r' : Option Bytes}
      (hup : upper.findSome? (fun t => tableGet readers t k) = none) (hc : LastStart lower k c)
      (h : tableGet readers c k = some r') (hne : r' ≠ r)
  | hidden (hup : upper.findSome? (fun t => tableGet readers t k) = none)
      (hc : ∀ c, LastStart lower k c → tableGet readers c k = none) (hne : below.getD none ≠ r)

theorem LastStart.congr {l l' : List SSTableMeta} {c : SSTableMeta} (h : ∀ x, x ∈ l ↔ x ∈ l') :
    LastStart l k c ↔ LastStart l' k c :=
  ⟨fun ⟨h1, h2, h3⟩ => ⟨(h c).1 h1, h2, fun t ht => h3 t ((h t).2 ht)⟩,
    fun ⟨h1, h2, h3⟩ => ⟨(h c).2 h1, h2, fun t ht => h3 t ((h t).1 ht)⟩⟩

theorem Exposed.congr {readers readers' : ℕ → Option SSTable} {upper lower : List SSTableMeta}
    {below : Option (Option Bytes)} {r : Option Bytes} (h : Exposed readers upper lower below k r)
    (hu : ∀ t ∈ upper, tableGet readers' t k = tableGet readers t k)
    (hl : ∀ t ∈ lower, tableGet readers' t k = tableGet readers t k) :
    Exposed readers' upper lower below k r := by
  have hupper := findSome?_congr hu
  cases h with
  | upper h hne => exact .upper (hupper.trans h) hne
  | lower hup hc h hne => exact .lower (hupper.trans hup) hc ((hl _ hc.mem).trans h) hne
  | hidden hup hc hne =>
    exact .hidden (hupper.trans hup) (fun c hlast => (hl c hlast.mem).trans (hc c hlast)) hne

theorem exposed_iff {readers : ℕ → Option SSTable} {upper lower : List SSTableMeta}
    {low below : Option (Option Bytes)} {k : Bytes} {r : Option Bytes}
    (hlow : ∀ r', low = some r' ↔ ∃ c, LastStart lower k c ∧ tableGet readers c k = some r') :
    Exposed readers upper lower below k r ↔
      ((upper.findSome? (fun t => tableGet readers t k)).or (low.or below)).getD none ≠ r := by
  cases hu : upper.findSome? (fun t => tableGet readers t k) with
  | some r' =>
    simp only [Option.some_or, Option.getD_some]
    constructor
    · rintro (⟨h, hne⟩ | ⟨hup, -⟩ | ⟨hup, -⟩)
      · rw [hu] at h
        cases h
        exact hne
      · rw [hu] at hup; cases hup
      · rw [hu] at hup; cases hup
    · exact fun hne => .upper hu hne
  | none =>
    cases hl : low with
    | some r' =>
      obtain ⟨c, hc, hr⟩ := (hlow r').1 hl
      simp only [Option.none_or, Option.some_or, Option.getD_some]
      constructor
      · rintro (⟨h, -⟩ | ⟨-, hc', h', hne⟩ | ⟨-, hno, -⟩)
        · rw [hu] at h; cases h
        · have := (hlow _).2 ⟨_, hc', h'⟩
          rw [hl] at this
          cases this
          exact hne
        · rw [hno c hc] at hr; cases hr
      · exact fun hne => .lower hu hc hr hne
    | none =>
      have hno : ∀ c, LastStart lower k c → tableGet readers c k = none := by
        intro c hc
        by_contra hr
        obtain ⟨r', hr'⟩ := Option.ne_none_iff_exists'.1 hr
        have := (hlow r').2 ⟨c, hc, hr'⟩
        rw [hl] at this
        cases this
      simp only [Option.none_or]
      constructor
      · rintro (⟨h, -⟩ | ⟨-, hc', h', -⟩ | ⟨-, -, hne⟩)
        · rw [hu] at h; cases h
        · rw [hno _ hc'] at h'; cases h'
        · exact hne
      · exact fun hne => .hidden hu hno hne

theorem tablesGet_split (v : Version) (files : ℕ → Option SSTable) {i : ℕ} (hi : i + 1 < maxLevels)
    (k : Bytes) : tablesGet v files k = (aboveGet v files i k).or
      ((levelGet v files k i).or ((levelGet v files k (i + 1)).or (belowGet v files i k))) := by
  have hrange : List.range maxLevels =
      List.range i ++ (i :: (i + 1) :: List.range' (i + 2) (maxLevels - (i + 2))) := by
    unfold maxLevels at *
    have : ∀ i, i < 6 → List.range 7 =
      List.range i ++ (i :: (i + 1) :: List.range' (i + 2) (7 - (i + 2))) := by decide
    exact this i (by omega)
  unfold tablesGet aboveGet belowGet
  rw [hrange, List.findSome?_append, List.findSome?_cons, List.findSome?_cons]
  cases levelGet v files k i with
  | some r => rfl
  | none => cases levelGet v files k (i + 1) <;> rfl

theorem tableGet_ne_none {t : SSTableMeta} :
    tableGet files t k ≠ none ↔ ∃ x ∈ tableSet files t, x.key.userKey = k := by
  unfold tableGet tableSet
  cases files t.fileID with
  | none => simp
  | some f =>
    rw [Option.bind_some, ne_eq, Option.map_eq_none_iff, firstVersion_none]
    push Not
    simp

theorem findSome?_eq_some_of_unique {α β : Type*} {g : α → Option β} {l : List α} {r : β}
    (hu : ∀ x ∈ l, ∀ y ∈ l, g x ≠ none → g y ≠ none → x = y) :
    l.findSome? g = some r ↔ ∃ x ∈ l, g x = some r := by
  constructor
  · exact fun h => List.exists_of_findSome?_eq_some h
  · rintro ⟨x, hx, hr⟩
    cases hf : l.findSome? g with
    | none =>
      rw [List.findSome?_eq_none_iff] at hf
      rw [hf x hx] at hr
      cases hr
    | some r' =>
      obtain ⟨y, hy, hr'⟩ := List.exists_of_findSome?_eq_some hf
      rw [hu y hy x hx (by rw [hr']; simp) (by rw [hr]; simp), hr] at hr'
      exact hr'.symm

/-! ### A version in the middle of a commit -/

/-- The version `v'` lies between `v` and the end of a compaction from level `i`: the tables `add`
among the outputs were added, and the tables `del` deleted.  Old tables are read as before, and an
output that was added has its own reader or none. -/
structure Midway (v v' : Version) (files readers : ℕ → Option SSTable) (i : ℕ)
    (ins : List SSTableMeta) (outs : List (SSTableMeta × SSTable)) (add del : List SSTableMeta) :
    Prop where
  levels : ∀ j x, x ∈ v'.levels j ↔ (x ∈ v.levels j ∨ (x ∈ add ∧ j = i + 1)) ∧ x ∉ del
  l0 : i = 0 → v'.levels 0 = (v.levels 0).filter (fun t => t ∉ del)
  rest : ∀ j, j ≠ i → j ≠ i + 1 → v'.levels j = v.levels j
  sorted : LevelsSorted v'
  add_sub : ∀ x ∈ add, ∃ t, (x, t) ∈ outs
  del_sub : ∀ j, ∀ x ∈ v.levels j, x ∈ del → x ∈ ins
  old_readers : ∀ j, ∀ x ∈ v.levels j, x ∉ del → readers x.fileID = files x.fileID
  out_readers : ∀ o ∈ outs, o.1 ∈ add → o.1 ∉ del →
    readers o.1.fileID = some o.2 ∨ readers o.1.fileID = none

section Midway

variable {v v' v₁ : Version} {files readers files₁ : ℕ → Option SSTable} {maxLevel i : ℕ}
  {ins : List SSTableMeta} {outs : List (SSTableMeta × SSTable)} {es : List Entry}
  {add del : List SSTableMeta} {k : Bytes}

variable {j : ℕ} {c t x : SSTableMeta} {r : Option Bytes}

theorem Midway.old_get (h : Midway v v' files readers i ins outs add del) (hx : x ∈ v.levels j)
    (hdel : x ∉ del) : tableGet readers x k = tableGet files x k := by
  unfold tableGet
  rw [h.old_readers j x hx hdel]

theorem Midway.add_get (h : Midway v v' files readers i ins outs add del)
    (hs : LeveledStep v files maxLevel i ins outs es v₁ files₁) (hx : x ∈ add) (hdel : x ∉ del)
    (hk : tableGet readers x k ≠ none) : ∃ t ∈ ins, tableGet files t k ≠ none := by
  obtain ⟨t, ho⟩ := h.add_sub x hx
  obtain ⟨y, ⟨f, hf, hy⟩, hyk⟩ := tableGet_ne_none.1 hk
  rcases h.out_readers _ ho hx hdel with hr | hr
  · rw [hr] at hf
    cases hf
    obtain ⟨m, hm, hym⟩ := (hs.mem_es y).1 (hs.shape.mem_es_of_mem_out ho hy)
    exact ⟨m, hm, tableGet_ne_none.2 ⟨y, hym, hyk⟩⟩
  · rw [hr] at hf
    cases hf

theorem Midway.table_ok (h : Midway v v' files readers i ins outs add del)
    (hs : LeveledStep v files maxLevel i ins outs es v₁ files₁) (j : ℕ) (x : SSTableMeta)
    (hx : x ∈ v'.levels j) (f : SSTable) (hf : readers x.fileID = some f) : TableOk x f := by
  obtain ⟨hor, hdel⟩ := (h.levels j x).1 hx
  clear hx
  rcases hor with hx | ⟨hx, rfl⟩
  · obtain ⟨g, hg, hok⟩ := hs.tables.table hx
    rw [h.old_readers j x hx hdel, hg] at hf
    cases hf
    exact hok
  · obtain ⟨t, ho⟩ := h.add_sub x hx
    rcases h.out_readers _ ho hx hdel with hr | hr
    · rw [hr] at hf
      cases hf
      exact hs.out_tableOk ho
    · rw [hr] at hf
      cases hf

theorem TablesOk.metaLe_of_holds (h : TablesOk v files maxLevel) (hj : j ≠ 0) (hc : c ∈ v.levels j)
    (ht : t ∈ v.levels j) (hck : tableGet files c k ≠ none) (htk : t.firstKey ≤ k) :
    metaLe t c := by
  obtain ⟨x, hx, hxk⟩ := tableGet_ne_none.1 hck
  have hr := h.shape.range hc hx
  rw [hxk] at hr
  obtain ⟨f, -, hok⟩ := h.table ht
  rcases pairwise_cases (h.disjoint j hj) ht hc with rfl | hd | hd
  · exact Or.inr ⟨rfl, le_rfl⟩
  · exact Or.inl (hok.shape.firstKey_le_lastKey.trans_lt hd)
  · exact absurd (hr.2.trans_lt hd) (not_lt.2 htk)

theorem TablesOk.levelGet_eq_some (h : TablesOk v files maxLevel) (hj : j ≠ 0) :
    levelGet v files k j = some r ↔ ∃ c ∈ v.levels j, tableGet files c k = some r := by
  rw [LsmTree.levelGet_eq_some h.shape.levelsSorted hj (fun t ht f hf => by
    obtain ⟨g, hg, hok⟩ := h.table ht
    rw [hg] at hf
    cases hf
    exact hok)]
  constructor
  · rintro ⟨c, hc, hr⟩
    exact ⟨c, hc.mem, hr⟩
  · rintro ⟨c, hc, hr⟩
    have hne : tableGet files c k ≠ none := by rw [hr]; simp
    obtain ⟨x, hx, hxk⟩ := tableGet_ne_none.1 hne
    refine ⟨c, ⟨hc, ?_, fun t ht htk => h.metaLe_of_holds hj hc ht hne htk⟩, hr⟩
    rw [← hxk]
    exact (h.shape.range hc hx).1

theorem Midway.levelGet_rest (h : Midway v v' files readers i ins outs add del)
    (hs : LeveledStep v files maxLevel i ins outs es v₁ files₁) (hj : j ≠ i) (hj' : j ≠ i + 1) :
    levelGet v' readers k j = levelGet v files k j := by
  have hget : ∀ t ∈ v.levels j, tableGet readers t k = tableGet files t k := fun t ht =>
    h.old_get ht (fun hc => hs.shape.not_mem_ins hj hj' ht (h.del_sub j t ht hc))
  unfold levelGet
  rw [h.rest j hj hj']
  split_ifs with h0
  · subst h0
    rw [h.rest 0 hj hj']
    exact findSome?_congr (fun t ht => hget t (mem_l0Desc.1 ht))
  · cases hc : findLevelCandidate (v.levels j) k with
    | none => rfl
    | some c =>
      have hm := ((findLevelCandidate_eq_some hs.tables.shape.levelsSorted h0).1 hc).1.mem
      exact hget c hm

theorem Midway.levelGet_of_holds (h : Midway v v' files readers i ins outs add del)
    (hs : LeveledStep v files maxLevel i ins outs es v₁ files₁) (hj : j = i ∨ j = i + 1)
    (h0 : j ≠ 0) (hc : c ∈ v.levels j) (hno : c ∉ ins) (hr : tableGet files c k = some r) :
    levelGet v' readers k j = some r := by
  have hne : tableGet files c k ≠ none := by rw [hr]; simp
  have hdel : c ∉ del := fun hd => hno (h.del_sub j c hc hd)
  obtain ⟨x, hx, hxk⟩ := tableGet_ne_none.1 hne
  have hrange := hs.tables.shape.range hc hx
  rw [hxk] at hrange
  rw [LsmTree.levelGet_eq_some h.sorted h0 (h.table_ok hs j)]
  refine ⟨c, ⟨(h.levels j c).2 ⟨Or.inl hc, hdel⟩, hrange.1, fun t ht htk => ?_⟩,
    (h.old_get hc hdel).trans hr⟩
  rcases ((h.levels j t).1 ht).1 with hold | ⟨hadd, rfl⟩
  · exact hs.tables.metaLe_of_holds h0 hc hold hne htk
  · -- an output lies on one side of a table that is not merged
    obtain ⟨f, ho⟩ := h.add_sub t hadd
    obtain ⟨⟨y, hy, hfirst⟩, -⟩ := hs.shape.out_range ho
    have hfirst : t.firstKey = y.key.userKey := hfirst
    rcases hs.shape.side hc hno with hside | hside
    · exact Or.inl (hfirst ▸ hside y (hs.shape.mem_es_of_mem_out ho hy))
    · have := hside y (hs.shape.mem_es_of_mem_out ho hy)
      rw [← hfirst] at this
      exact absurd (hrange.2.trans_lt this) (not_lt.2 htk)

/-- **Keys that no input holds** are looked up as before. -/
theorem Midway.levelGet_of_untouched (h : Midway v v' files readers i ins outs add del)
    (hs : LeveledStep v files maxLevel i ins outs es v₁ files₁)
    (hno : ∀ t ∈ ins, tableGet files t k = none) (hj : j = i ∨ j = i + 1) :
    levelGet v' readers k j = levelGet v files k j := by
  by_cases h0 : j = 0
  · subst h0
    have hi : i = 0 := by omega
    have hnone : ∀ t ∈ v.levels 0, tableGet files t k = none := fun t ht =>
      hno t (hs.inputs.all_l0 hi t ht)
    unfold levelGet
    rw [if_pos rfl, if_pos rfl,
      List.findSome?_eq_none_iff.2 (fun t ht => hnone t (mem_l0Desc.1 ht)),
      List.findSome?_eq_none_iff]
    intro t ht
    have ht := mem_l0Desc.1 ht
    rw [h.l0 hi] at ht
    have hdel : t ∉ del := by simpa using (List.mem_filter.1 ht).2
    rw [h.old_get (List.mem_filter.1 ht).1 hdel]
    exact hnone t (List.mem_filter.1 ht).1
  · refine Option.ext fun r => ?_
    rw [hs.tables.levelGet_eq_some h0]
    constructor
    · intro hr
      obtain ⟨c, hc, hr⟩ := (LsmTree.levelGet_eq_some h.sorted h0 (h.table_ok hs j)).1 hr
      obtain ⟨hmem, hdel⟩ := (h.levels j c).1 hc.mem
      rcases hmem with hmem | ⟨hmem, -⟩
      · exact ⟨c, hmem, (h.old_get hmem hdel).symm.trans hr⟩
      · obtain ⟨t, ht, hne⟩ := h.add_get hs hmem hdel (by rw [hr]; simp)
        exact absurd (hno t ht) hne
    · rintro ⟨c, hc, hr⟩
      refine h.levelGet_of_holds hs hj h0 hc (fun hin => ?_) hr
      rw [hno c hin] at hr
      cases hr

theorem TablesOk.eq_of_tableGet (h : TablesOk v files maxLevel) (h0 : j ≠ 0) {a b : SSTableMeta}
    (ha : a ∈ v.levels j) (hb : b ∈ v.levels j) (hak : tableGet files a k ≠ none)
    (hbk : tableGet files b k ≠ none) : a = b := by
  obtain ⟨x, hx, hxk⟩ := tableGet_ne_none.1 hak
  obtain ⟨y, hy, hyk⟩ := tableGet_ne_none.1 hbk
  exact h.shape.eq_of_holds h0 ha hb hx hy (hxk.trans hyk.symm)

theorem mem_inputsLeft : t ∈ inputsLeft v ins del j ↔ t ∈ v.levels j ∧ t ∈ ins ∧ t ∉ del := by
  unfold inputsLeft
  rw [mem_l0Desc, List.mem_filter]
  simp

/-- **The upper level** answers with the inputs that are left, if no other table of it knows the
key. -/
theorem Midway.levelGet_upper (h : Midway v v' files readers i ins outs add del)
    (hs : LeveledStep v files maxLevel i ins outs es v₁ files₁)
    (hfree : ∀ t ∈ v.levels i, t ∉ ins → tableGet files t k = none) :
    levelGet v' readers k i = (inputsLeft v ins del i).findSome?
      (fun t => tableGet readers t k) := by
  by_cases h0 : i = 0
  · subst h0
    have hfilter : v'.levels 0 = (v.levels 0).filter (fun t => t ∈ ins ∧ t ∉ del) := by
      rw [h.l0 rfl]
      refine List.filter_congr (fun t ht => ?_)
      simp [hs.inputs.all_l0 rfl t ht]
    rw [levelGet, if_pos rfl, inputsLeft, hfilter]
  · refine Option.ext fun r => ?_
    rw [LsmTree.levelGet_eq_some h.sorted h0 (h.table_ok hs i), findSome?_eq_some_of_unique]
    · constructor
      · rintro ⟨c, hc, hr⟩
        obtain ⟨hmem, hdel⟩ := (h.levels i c).1 hc.mem
        have hmem := hmem.resolve_right (fun hadd => by omega)
        refine ⟨c, mem_inputsLeft.2 ⟨hmem, ?_, hdel⟩, hr⟩
        by_contra hno
        rw [h.old_get hmem hdel, hfree c hmem hno] at hr
        cases hr
      · rintro ⟨c, hc, hr⟩
        obtain ⟨hmem, -, hdel⟩ := mem_inputsLeft.1 hc
        have hr' : tableGet files c k = some r := (h.old_get hmem hdel).symm.trans hr
        have hne : tableGet files c k ≠ none := by rw [hr']; simp
        obtain ⟨x, hx, hxk⟩ := tableGet_ne_none.1 hne
        refine ⟨c, ⟨(h.levels i c).2 ⟨Or.inl hmem, hdel⟩, ?_, fun t ht htk => ?_⟩, hr⟩
        · rw [← hxk]
          exact (hs.tables.shape.range hmem hx).1
        · have ht := ((h.levels i t).1 ht).1.resolve_right (fun hadd => by omega)
          exact hs.tables.metaLe_of_holds h0 hmem ht hne htk
    · intro a ha b hb hak hbk
      obtain ⟨ha, -, had⟩ := mem_inputsLeft.1 ha
      obtain ⟨hb, -, hbd⟩ := mem_inputsLeft.1 hb
      rw [h.old_get ha had] at hak
      rw [h.old_get hb hbd] at hbk
      exact hs.tables.eq_of_tableGet h0 ha hb hak hbk

theorem LeveledStep.midway (hs : LeveledStep v files maxLevel i ins outs es v₁ files₁) :
    Midway v v files files i ins outs [] [] where
  levels := by simp
  l0 := by simp
  rest := fun _ _ _ => rfl
  sorted := hs.tables.shape.levelsSorted
  add_sub := fun x hx => by cases hx
  del_sub := fun _ x _ hx => by cases hx
  old_readers := fun _ _ _ _ => rfl
  out_readers := fun o _ hx => by cases hx

theorem LeveledStep.levelGet_inputs (hs : LeveledStep v files maxLevel i ins outs es v₁ files₁)
    (hfree : ∀ t ∈ v.levels i, t ∉ ins → tableGet files t k = none)
    (hheld : ∃ t ∈ ins, tableGet files t k ≠ none) :
    (levelGet v files k i).or (levelGet v files k (i + 1)) = inputsGet v files ins i k := by
  have hlower : levelGet v files k (i + 1) =
      (inputsLeft v ins [] (i + 1)).findSome? (fun t => tableGet files t k) := by
    refine Option.ext fun r => ?_
    rw [hs.tables.levelGet_eq_some (Nat.succ_ne_zero i), findSome?_eq_some_of_unique]
    · constructor
      · rintro ⟨c, hc, hr⟩
        refine ⟨c, mem_inputsLeft.2 ⟨hc, ?_, List.not_mem_nil⟩, hr⟩
        by_contra hno
        obtain ⟨t, ht, htk⟩ := hheld
        obtain ⟨y, hy, hyk⟩ := tableGet_ne_none.1 htk
        obtain ⟨x, hx, hxk⟩ := tableGet_ne_none.1 (show tableGet files c k ≠ none by rw [hr]; simp)
        have hrange := hs.tables.shape.range hc hx
        rw [hxk, ← hyk] at hrange
        rcases hs.shape.side hc hno with hside | hside
        · exact absurd (hside y ((hs.mem_es y).2 ⟨t, ht, hy⟩)) (not_lt.2 hrange.1)
        · exact absurd (hside y ((hs.mem_es y).2 ⟨t, ht, hy⟩)) (not_lt.2 hrange.2)
      · rintro ⟨c, hc, hr⟩
        exact ⟨c, (mem_inputsLeft.1 hc).1, hr⟩
    · intro a ha b hb hak hbk
      exact hs.tables.eq_of_tableGet (Nat.succ_ne_zero i) (mem_inputsLeft.1 ha).1
        (mem_inputsLeft.1 hb).1 hak hbk
  rw [hs.midway.levelGet_upper hs hfree, hlower, inputsGet, List.findSome?_append]

theorem inputsGet_ne_none (hup : ∀ t ∈ ins, t ∈ v.levels i ∨ t ∈ v.levels (i + 1)) :
    inputsGet v files ins i k ≠ none ↔ ∃ t ∈ ins, tableGet files t k ≠ none := by
  unfold inputsGet
  rw [ne_eq, List.findSome?_eq_none_iff]
  push Not
  constructor
  · rintro ⟨t, ht, hk⟩
    rcases List.mem_append.1 ht with ht | ht <;> exact ⟨t, (mem_inputsLeft.1 ht).2.1, hk⟩
  · rintro ⟨t, ht, hk⟩
    refine ⟨t, List.mem_append.2 ?_, hk⟩
    exact (hup t ht).imp (fun hl => mem_inputsLeft.2 ⟨hl, ht, List.not_mem_nil⟩)
      (fun hl => mem_inputsLeft.2 ⟨hl, ht, List.not_mem_nil⟩)

/-- The lookup of a key gets as far as the inputs of a compaction, and they show the result `r`. -/
structure Reaches (v : Version) (files : ℕ → Option SSTable) (ins : List SSTableMeta) (i : ℕ)
    (k : Bytes) (r : Option Bytes) : Prop where
  above : aboveGet v files i k = none
  upper : ∀ t ∈ v.levels i, t ∉ ins → tableGet files t k = none
  shows : inputsGet v files ins i k = some r

/-- The tables of the lower level in the middle of a commit. -/
def lowerNow (v : Version) (add del : List SSTableMeta) (i : ℕ) : List SSTableMeta :=
  (v.levels (i + 1) ++ add).filter (fun t => t ∉ del)

/-- **A lookup in the middle of a commit** returns what it did before, unless it gets as far as the
inputs and the key is exposed. -/
theorem Midway.lookup_eq_iff (h : Midway v v' files readers i ins outs add del)
    (hs : LeveledStep v files maxLevel i ins outs es v₁ files₁) (hi : i + 1 < maxLevels) :
    (tablesGet v' readers k).getD none = (tablesGet v files k).getD none ↔
      ∀ r, Reaches v files ins i k r → ¬ Exposed readers (inputsLeft v ins del i)
        (lowerNow v add del i) (belowGet v files i k) k r := by
  have habove : aboveGet v' readers i k = aboveGet v files i k :=
    findSome?_congr (fun j hj => by
      have := List.mem_range.1 hj
      exact h.levelGet_rest hs (by omega) (by omega))
  have hbelow : belowGet v' readers i k = belowGet v files i k :=
    findSome?_congr (fun j hj => by
      have := (List.mem_range'_1.1 hj).1
      exact h.levelGet_rest hs (by omega) (by omega))
  rw [tablesGet_split v' readers hi, tablesGet_split v files hi, habove, hbelow]
  cases ha : aboveGet v files i k with
  | some a => exact ⟨fun _ r hr => absurd hr.above (by rw [ha]; simp), fun _ => rfl⟩
  | none =>
    simp only [Option.none_or]
    by_cases hfree : ∀ t ∈ v.levels i, t ∉ ins → tableGet files t k = none
    swap
    · -- another table of the upper level answers, before and now
      push Not at hfree
      obtain ⟨c, hc, hno, hk⟩ := hfree
      obtain ⟨a, hr⟩ := Option.ne_none_iff_exists'.1 hk
      have h0 : i ≠ 0 := fun h0 => hno (hs.inputs.all_l0 h0 c (h0 ▸ hc))
      rw [h.levelGet_of_holds hs (Or.inl rfl) h0 hc hno hr,
        hs.midway.levelGet_of_holds hs (Or.inl rfl) h0 hc hno hr]
      exact ⟨fun _ r hr => absurd (hr.upper c hc hno) hk, fun _ => rfl⟩
    by_cases hheld : ∃ t ∈ ins, tableGet files t k ≠ none
    · obtain ⟨r, hr⟩ := Option.ne_none_iff_exists'.1 ((inputsGet_ne_none hs.inputs.upper).2 hheld)
      have hlow : ∀ r', levelGet v' readers k (i + 1) = some r' ↔
          ∃ c, LastStart (lowerNow v add del i) k c ∧ tableGet readers c k = some r' := by
        intro r'
        rw [LsmTree.levelGet_eq_some h.sorted (Nat.succ_ne_zero i) (h.table_ok hs (i + 1))]
        refine exists_congr fun c => and_congr_left fun _ => LastStart.congr fun x => ?_
        rw [h.levels, lowerNow, List.mem_filter, List.mem_append]
        simp
      have hbefore : ((levelGet v files k i).or ((levelGet v files k (i + 1)).or
          (belowGet v files i k))).getD none = r := by
        rw [← Option.or_assoc, hs.levelGet_inputs hfree hheld, hr]
        rfl
      rw [hbefore, h.levelGet_upper hs hfree]
      have hexp := @exposed_iff readers (inputsLeft v ins del i) (lowerNow v add del i)
        (levelGet v' readers k (i + 1)) (belowGet v files i k) k r hlow
      constructor
      · intro heq r' hr'
        have hrr : r' = r := Option.some.inj (hr'.shows.symm.trans hr)
        rw [hrr, hexp, not_not]
        exact heq
      · intro hno
        have := hno r ⟨ha, hfree, hr⟩
        rwa [hexp, not_not] at this
    · have hno : ∀ t ∈ ins, tableGet files t k = none := by
        push Not at hheld
        exact hheld
      rw [h.levelGet_of_untouched hs hno (Or.inl rfl), h.levelGet_of_untouched hs hno (Or.inr rfl)]
      refine ⟨fun _ r hr => absurd ((inputsGet_ne_none hs.inputs.upper).1 (by rw [hr.shows]; simp))
        hheld, fun _ => rfl⟩

end Midway

/-! ### Engines in the middle of a commit -/

theorem lookupResult_inj {a b : Option Bytes} : lookupResult a = lookupResult b ↔ a = b := by
  cases a <;> cases b <;> simp [lookupResult]

theorem TablesOk.tablesGet_eq {v : Version} {maxLevel : ℕ} (h : TablesOk v files maxLevel)
    (k : Bytes) : tablesGet v files k = firstHit (v.scanOrder.map (tableGet files)) k := by
  rw [← candidates_findSome?, findSome?_candidates h.shape
    (fun i _ t ht hk => tableGet_none_of_range h.shape ht hk)]
  unfold firstHit
  rw [List.findSome?_map]
  rfl

theorem Layered.lookup {ts : List MemTable} {v : Version} {files : ℕ → Option SSTable}
    {maxLevel : ℕ} {m : Bytes → Option Bytes}
    (h : Layered (ts.map MemTable.versions) v files maxLevel m) (k : Bytes) :
    ((Versioned.firstHit (ts.map MemTable.get) k).or (tablesGet v files k)).getD none = m k := by
  rw [← h.shape.firstHit k, h.tables.tablesGet_eq]
  unfold layerGets Versioned.firstHit
  rw [List.findSome?_append]

section Engine

variable {e : LSMEngine} {level : ℕ} {add del : List SSTableMeta} {m : Bytes → Option Bytes}

theorem foldl_addEdit_level {ms : List SSTableMeta} {j : ℕ} (h : ∀ x ∈ ms, x.level ≠ j)
    (v : Version) : ((ms.map (fun m => addEdit m true)).foldl Version.applyEdit v).levels j =
      v.levels j :=
  foldl_applyEdit_levels (fun edit hedit => by
    obtain ⟨x, hx, rfl⟩ := List.mem_map.1 hedit
    exact h x hx) v

theorem foldl_deleteEdit_l0 (ms : List SSTableMeta) (v : Version) :
    ((ms.map (fun m => deleteEdit m.level m.fileID)).foldl Version.applyEdit v).levels 0 =
      (v.levels 0).filter (fun t => ∀ m ∈ ms, m.level = 0 → m.fileID ≠ t.fileID) := by
  induction ms generalizing v with
  | nil => simp
  | cons m ms ih =>
    rw [List.map_cons, List.foldl_cons, ih, applyEdit_delete_levels]
    by_cases hl : 0 = m.level
    · rw [if_pos hl, sortLevel_zero, List.filter_filter]
      refine List.filter_congr (fun t _ => ?_)
      rw [Bool.eq_iff_iff]
      simp only [Bool.and_eq_true, decide_eq_true_eq, bne_iff_ne, List.mem_cons, forall_eq_or_imp]
      exact ⟨fun ⟨h1, h2⟩ => ⟨fun _ => Ne.symm h2, h1⟩, fun ⟨h1, h2⟩ => ⟨h2, (h1 hl.symm).symm⟩⟩
    · rw [if_neg hl]
      refine List.filter_congr (fun t _ => ?_)
      simp [Ne.symm hl]

theorem PlanShape.edited_l0 {ins : List SSTableMeta} {l : ℕ} (h : PlanShape e ins) (hl : l ≠ 0)
    (hadd : ∀ x ∈ add, x ∈ (e.planCompaction ins l).outputs.map Prod.fst)
    (hdel : ∀ x ∈ del, x ∈ (e.planCompaction ins l).inputs ∨
      x ∈ (e.planCompaction ins l).outputs.map Prod.fst) :
    (editedVersion e.current add del).levels 0 =
      (e.current.levels 0).filter (fun t => t ∉ del) := by
  have hlevel : ∀ x ∈ add, x.level ≠ 0 := fun x hx => (plan_output (hadd x hx)).2.1.trans_ne hl
  unfold editedVersion
  rw [List.foldl_append, foldl_deleteEdit_l0, foldl_addEdit_level hlevel]
  refine List.filter_congr (fun t ht => ?_)
  rw [decide_eq_decide]
  constructor
  · exact fun hno hc => hno t hc (h.tables.ok 0 t ht).1 rfl
  · exact fun hno x hx _ hid => hno (h.eq_of_id hdel hx hid (Or.inl ⟨0, ht⟩) ▸ hx)

theorem CompactPre.midway (h : CompactPre e level)
    (hadd : add.Sublist ((e.levelPlan level).outputs.map Prod.fst))
    (hdel : ∀ x ∈ del, x ∈ (e.levelPlan level).inputs ∨
      x ∈ (e.levelPlan level).outputs.map Prod.fst)
    {readers : ℕ → Option SSTable}
    (hold : ∀ j, ∀ x ∈ e.current.levels j, x ∉ del → readers x.fileID = e.files x.fileID)
    (hout : ∀ o ∈ (e.levelPlan level).outputs, o.1 ∈ add → o.1 ∉ del →
      readers o.1.fileID = some o.2 ∨ readers o.1.fileID = none) :
    Midway e.current (editedVersion e.current add del) e.files readers level
      (e.levelPlan level).inputs (e.levelPlan level).outputs add del where
  levels := fun j x => h.shape.plan.mem_edited (fun x hx => hadd.subset hx) hdel
  l0 := fun _ => h.shape.plan.edited_l0 (Nat.succ_ne_zero level) (fun x hx => hadd.subset hx) hdel
  rest := fun j hj hj' => h.shape.plan.edited_rest (fun x hx => hadd.subset hx) hdel
    (h.shape.not_input hj hj') hj'
  sorted := h.shape.plan.edited_sorted hadd del
  add_sub := by
    intro x hx
    obtain ⟨o, ho, rfl⟩ := List.mem_map.1 (hadd.subset hx)
    exact ⟨o.2, ho⟩
  del_sub := by
    intro j x hx hd
    refine (hdel x hd).resolve_right (fun hc => ?_)
    have h1 := h.books.listed_le h.tables hx
    have h2 := (plan_output hc).2.2
    omega
  old_readers := hold
  out_readers := hout

end Engine

section Results

variable {e e' : LSMEngine} {m : Bytes → Option Bytes} {i : ℕ} {ins : List SSTableMeta}
  {outs : List (SSTableMeta × SSTable)} {es : List Entry} {v₁ : Version}
  {files₁ : ℕ → Option SSTable} {add del : List SSTableMeta} {d : DataDir} {maxLevel : ℕ}
  {k : Bytes}

theorem Midway.entry_mem {v v' : Version} {files readers : ℕ → Option SSTable}
    (h : Midway v v' files readers i ins outs add del)
    (hs : LeveledStep v files maxLevel i ins outs es v₁ files₁) {j : ℕ} {x : SSTableMeta}
    (hx : x ∈ v'.levels j) {f : SSTable} (hf : readers x.fileID = some f) {y : Entry}
    (hy : y ∈ f.entries) : y ∈ tableVersions v files := by
  obtain ⟨hor, hdel⟩ := (h.levels j x).1 hx
  rcases hor with hold | ⟨hadd, -⟩
  · rw [h.old_readers j x hold hdel] at hf
    exact ⟨j, x, hold, f, hf, hy⟩
  · obtain ⟨t, ho⟩ := h.add_sub x hadd
    rcases h.out_readers _ ho hadd hdel with hr | hr
    · rw [hr] at hf
      cases hf
      obtain ⟨z, hz, hyz⟩ := (hs.mem_es y).1 (hs.shape.mem_es_of_mem_out ho hy)
      exact (hs.inputs.upper z hz).elim (fun hl => ⟨_, z, hl, hyz⟩) (fun hl => ⟨_, z, hl, hyz⟩)
    · rw [hr] at hf
      cases hf

theorem Readable.get_eq_tablesGet (h : Readable e m) (k : Bytes) :
    (e.get k).1 = lookupResult (((e.memGet k).or (tablesGet e.current e.files k)).getD none) := by
  rw [h.get k, ← @Layered.lookup e.mems _ _ _ _ h.toLayered k, memGet_eq]

/-- **A lookup in a running engine** in the middle of a commit. -/
theorem Midway.get_eq_iff (h : Readable e m)
    (hmid : Midway e.current e'.current e.files e'.tc.readerOf i ins outs add del)
    (hs : LeveledStep e.current e.files maxLevel i ins outs es v₁ files₁) (hi : i + 1 < maxLevels)
    (hmem : e'.memGet k = e.memGet k) (hseq : e'.seqNo = e.seqNo) :
    (e'.get k).1 = (e.get k).1 ↔ (e.memGet k = none → ∀ r, Reaches e.current e.files ins i k r →
      ¬ Exposed e'.tc.readerOf (inputsLeft e.current ins del i) (lowerNow e.current add del i)
        (belowGet e.current e.files i k) k r) := by
  rw [LsmTree.get_eq_tablesGet (e := e') ⟨hmid.table_ok hs, fun j x hx f hf y hy => by
      rw [hseq]
      exact h.seq_tables y (hmid.entry_mem hs hx hf hy)⟩, h.get_eq_tablesGet, lookupResult_inj,
        hmem]
  cases e.memGet k with
  | some r => simp
  | none =>
    simp only [Option.none_or, forall_const]
    exact hmid.lookup_eq_iff hs hi

theorem Midway.openable (h : DiskInv e.dir maxLevel m)
    (hmid : Midway e.dir.version d.version e.dir.files d.files i ins outs add del)
    (hs : LeveledStep e.dir.version e.dir.files maxLevel i ins outs es v₁ files₁)
    (hthere : ∀ o ∈ outs, o.1 ∈ add → o.1 ∉ del → d.files o.1.fileID ≠ none)
    (hlogs : d.logs = e.dir.logs) (hseq : e.dir.version.maxSeqNo ≤ d.version.maxSeqNo)
    (htorn : d.torn = false) : Openable d := by
  have hwal : walSet d = walSet e.dir := by
    unfold walSet logSet DataDir.log
    rw [hlogs]
  have hlevel : ∀ j, ∀ x ∈ d.version.levels j, x.level = j := by
    intro j x hx
    obtain ⟨hold | ⟨hadd, rfl⟩, -⟩ := (hmid.levels j x).1 hx
    · exact (hs.tables.ok j x hold).1
    · obtain ⟨t, ho⟩ := hmid.add_sub x hadd
      obtain ⟨lo, hi, hout, -⟩ := hs.outs_ok
      exact (hout _ ho).level_eq
  refine ⟨fun j x hx => ?_, tables_nodup hmid.sorted hlevel ?_, fun j hj => ?_, ?_, ?_, ?_, htorn⟩
  · have hne : d.files x.fileID ≠ none := by
      obtain ⟨hold | ⟨hadd, rfl⟩, hdel⟩ := (hmid.levels j x).1 hx
      · obtain ⟨f, hf, -⟩ := hs.tables.table hold
        rw [hmid.old_readers j x hold hdel, hf]
        simp
      · obtain ⟨t, ho⟩ := hmid.add_sub x hadd
        exact hthere _ ho hadd hdel
    obtain ⟨f, hf⟩ := Option.ne_none_iff_exists'.1 hne
    exact ⟨f, hf, hmid.table_ok hs j x hx f hf⟩
  · intro j j' x hx y hy hid
    obtain ⟨hx | ⟨hx, -⟩, -⟩ := (hmid.levels j x).1 hx <;>
      obtain ⟨hy | ⟨hy, -⟩, -⟩ := (hmid.levels j' y).1 hy
    · exact hs.tables.ids j j' x hx y hy hid
    · obtain ⟨t, ho⟩ := hmid.add_sub y hy
      exact absurd hid (hs.shape.old_lt_out hx ho).ne
    · obtain ⟨t, ho⟩ := hmid.add_sub x hx
      exact absurd hid.symm (hs.shape.old_lt_out hy ho).ne
    · obtain ⟨t, ho⟩ := hmid.add_sub x hx
      obtain ⟨t', ho'⟩ := hmid.add_sub y hy
      exact congrArg Prod.fst (hs.shape.out_eq_of_id ho ho' hid)
  · have hlt := hs.inputs.lt
    have hmax := h.maxLevel_le
    rw [hmid.rest j (by omega) (by omega), hs.tables.bound j (by omega)]
  · rw [hwal]
    exact fun x hx => h.mem_ok x ⟨_, List.mem_singleton_self _, hx⟩
  · rw [hwal]
    exact h.agrees_wal
  · rintro x ⟨j, y, hy, f, hf, hx⟩
    rw [hwal]
    exact (h.covered x (hmid.entry_mem hs hy hf hx)).imp_left (fun hle => hle.trans hseq)

theorem recoveredMem_congr {d' : DataDir} (h : d.logs = d'.logs) (cfg : Config) :
    recoveredMem cfg d = recoveredMem cfg d' := by
  unfold recoveredMem recoverEntries listWALFiles DataDir.log
  rw [h]

theorem recoveredMem_get_none (h : Agrees (walSet d)) (cfg : Config) (k : Bytes) :
    (recoveredMem cfg d).get k = none ↔ ¬ Holds (walSet d) k := by
  have hans := (recoveredMem cfg d).get_answers k
  rw [recoveredMem_versions h cfg] at hans
  cases hg : (recoveredMem cfg d).get k with
  | none =>
    rw [hg] at hans
    exact ⟨fun _ => hans, fun _ => rfl⟩
  | some r =>
    rw [hg] at hans
    obtain ⟨x, hx, -⟩ := hans
    exact ⟨fun hc => (by cases hc), fun hc => absurd hx.holds hc⟩

/-- **A lookup after a restart** in the middle of a commit. -/
theorem Midway.reopen {cfg : Config} (h : Inv e e.memTable e.immutables m)
    (hmid : Midway e.current d.version e.files d.files i ins outs add del)
    (hs : LeveledStep e.current e.files e.cfg.maxLevel i ins outs es v₁ files₁)
    (hthere : ∀ o ∈ outs, o.1 ∈ add → o.1 ∉ del → d.files o.1.fileID ≠ none)
    (hlogs : d.logs = e.dir.logs) (hseq : e.current.maxSeqNo ≤ d.version.maxSeqNo)
    (htorn : d.torn = false) (hroom : OpenRoom cfg.withDefaults d) :
    ∃ e', openEngine cfg d = .ok e' ∧ ∀ k, ((e'.get k).1 = (e.get k).1 ↔
      (¬ Holds (walSet e.dir) k → ∀ r, Reaches e.current e.files ins i k r →
        ¬ Exposed d.files (inputsLeft e.current ins del i) (lowerNow e.current add del i)
          (belowGet e.current e.files i k) k r)) := by
  have hi : i + 1 < maxLevels := hs.inputs.lt.trans_le h.disk.maxLevel_le
  have hversion := h.books.version
  have hopenable : Openable d := by
    rw [hversion] at hmid hs hseq
    exact hmid.openable h.disk hs hthere hlogs hseq htorn
  obtain ⟨e', hopen, hget⟩ := @Openable.openEngine d cfg hopenable hroom
  refine ⟨e', hopen, fun k => ?_⟩
  have hlay : Layered ([recoveredMem cfg.withDefaults d].map MemTable.versions) e.current e.files
      e.cfg.maxLevel m := by
    rw [List.map_singleton, recoveredMem_congr hlogs, recoveredMem_versions h.disk.agrees_wal,
      hversion]
    exact h.disk.toLayered
  have hbefore := hlay.lookup k
  rw [hget k, h.readable.get k, lookupResult_inj, ← hbefore,
    show Versioned.firstHit ([recoveredMem cfg.withDefaults d].map MemTable.get) k =
      (recoveredMem cfg.withDefaults d).get k by
        simp only [Versioned.firstHit, List.map_singleton, List.findSome?_cons, List.findSome?_nil]
        cases (recoveredMem cfg.withDefaults d).get k <;> rfl]
  cases hw : (recoveredMem cfg.withDefaults d).get k with
  | some r =>
    have hholds : Holds (walSet e.dir) k := by
      by_contra hc
      rw [recoveredMem_congr hlogs, (recoveredMem_get_none h.disk.agrees_wal _ k).2 hc] at hw
      cases hw
    simp [hholds]
  | none =>
    have hno : ¬ Holds (walSet e.dir) k := by
      rw [recoveredMem_congr hlogs] at hw
      exact (recoveredMem_get_none h.disk.agrees_wal _ k).1 hw
    simp only [Option.none_or, hno, not_false_eq_true, forall_const]
    exact hmid.lookup_eq_iff hs hi

theorem Inv.memGet_none (h : Inv e e.memTable e.immutables m) (hno : ¬ Holds (walSet e.dir) k) :
    e.memGet k = none := by
  rw [memGet_eq]
  unfold Versioned.firstHit
  rw [List.findSome?_eq_none_iff]
  intro get hget
  obtain ⟨t, ht, rfl⟩ := List.mem_map.1 hget
  have hans := t.get_answers k
  cases hg : t.get k with
  | none => rfl
  | some r =>
    rw [hg] at hans
    obtain ⟨x, hx, -⟩ := hans
    refine absurd (hx.holds.mono fun y hy => ?_) hno
    refine h.owned.memStack_subset ?_
    rw [← memLayers_eq]
    exact ⟨_, List.mem_map_of_mem ht, hy⟩

end Results

end LsmTree
