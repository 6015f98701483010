import LsmTree.Correct.Effect
import LsmTree.Correct.Read

/-!
# Leveled compaction keeps the tables in order

The inputs of a leveled compaction are whole, key by key: all of level 0 or one table of a deeper
level, and every table of the next level that could hold one of their keys.  Committing it gives a
version of the same shape (`LeveledStep.tablesOk`) in which the layers are still ordered
(`LeveledStep.ordered`) and only superseded versions and last tombstones are gone
(`LeveledStep.compacts`).
-/

namespace LsmTree

open Versioned

variable {m : SSTableMeta} {v : Version} {l : List SSTableMeta} {files : ℕ → Option SSTable}
  {i maxLevel : ℕ}

/-! ### Edits of a commit -/

theorem addEdit_meta (h : m.createdAt = 0) (b : Bool) : (addEdit m b).meta = m := by
  obtain ⟨id, level, first, last, size, created⟩ := m
  simp only at h
  subst h
  rfl

theorem mem_foldl_addEdit {ms : List SSTableMeta} (hc : ∀ m ∈ ms, m.createdAt = 0) (v : Version)
    {j : ℕ} {x : SSTableMeta} :
    x ∈ ((ms.map (fun m => addEdit m true)).foldl Version.applyEdit v).levels j ↔
      x ∈ v.levels j ∨ (x ∈ ms ∧ x.level = j) := by
  induction ms generalizing v with
  | nil => simp
  | cons m ms ih =>
    rw [List.map_cons, List.foldl_cons, ih (fun y hy => hc y (List.mem_cons_of_mem m hy)),
      applyEdit_add_levels, addEdit_meta (hc m List.mem_cons_self)]
    by_cases hj : j = m.level
    · rw [if_pos hj, mem_sortLevel, List.mem_append, List.mem_singleton, List.mem_cons]
      constructor
      · rintro ((h | rfl) | h)
        · exact Or.inl h
        · exact Or.inr ⟨Or.inl rfl, hj.symm⟩
        · exact Or.inr ⟨Or.inr h.1, h.2⟩
      · rintro (h | ⟨rfl | h, hl⟩)
        · exact Or.inl (Or.inl h)
        · exact Or.inl (Or.inr rfl)
        · exact Or.inr ⟨h, hl⟩
    · rw [if_neg hj, List.mem_cons]
      constructor
      · rintro (h | h)
        · exact Or.inl h
        · exact Or.inr ⟨Or.inr h.1, h.2⟩
      · rintro (h | ⟨rfl | h, hl⟩)
        · exact Or.inl h
        · exact absurd hl.symm hj
        · exact Or.inr ⟨h, hl⟩

theorem mem_foldl_deleteEdit (ms : List SSTableMeta) (v : Version) {j : ℕ} {x : SSTableMeta} :
    x ∈ ((ms.map (fun m => deleteEdit m.level m.fileID)).foldl Version.applyEdit v).levels j ↔
      x ∈ v.levels j ∧ ∀ m ∈ ms, m.level = j → m.fileID ≠ x.fileID := by
  induction ms generalizing v with
  | nil => simp
  | cons m ms ih =>
    rw [List.map_cons, List.foldl_cons, ih, applyEdit_delete_levels]
    simp only [List.mem_cons, forall_eq_or_imp]
    by_cases hj : j = m.level
    · rw [if_pos hj, mem_sortLevel, List.mem_filter]
      simp only [bne_iff_ne, ne_eq, hj, forall_const]
      constructor
      · rintro ⟨⟨h1, h2⟩, h3⟩
        exact ⟨h1, Ne.symm h2, h3⟩
      · rintro ⟨h1, h2, h3⟩
        exact ⟨⟨h1, Ne.symm h2⟩, h3⟩
    · rw [if_neg hj]
      simp [Ne.symm hj]

/-- Deeper levels are sorted and file ids do not repeat within a level. -/
def LevelsSorted (v : Version) : Prop :=
  ∀ j, (j ≠ 0 → (v.levels j).Pairwise metaLe) ∧ ((v.levels j).map SSTableMeta.fileID).Nodup

theorem LevelsSorted.applyEdit {v : Version} (h : LevelsSorted v) {edit : VersionEdit}
    (hnew : edit.type = .addSSTable → ∀ m ∈ v.levels edit.level, m.fileID ≠ edit.fileID) :
    LevelsSorted (v.applyEdit edit) := by
  intro j
  unfold Version.applyEdit
  cases ht : edit.type with
  | addSSTable =>
    by_cases hj : j = edit.level
    · subst hj
      simp only [Function.update_self]
      refine ⟨sortLevel_sorted _, ?_⟩
      rw [((sortLevel_perm _ _).map _).nodup_iff, List.map_append, List.nodup_append]
      refine ⟨(h _).2, by simp, ?_⟩
      intro a ha b hb
      obtain ⟨m, hm, rfl⟩ := List.mem_map.1 ha
      rw [List.map_singleton, List.mem_singleton] at hb
      rw [hb]
      exact hnew ht m hm
    · simp only [Function.update_of_ne hj]
      exact h j
  | deleteSSTable =>
    by_cases hj : j = edit.level
    · subst hj
      simp only [Function.update_self]
      refine ⟨sortLevel_sorted _, ?_⟩
      rw [((sortLevel_perm _ _).map _).nodup_iff]
      exact List.Nodup.sublist (List.filter_sublist.map _) (h _).2
    · simp only [Function.update_of_ne hj]
      exact h j
  | logNumber => exact h j
  | nextFileID => exact h j
  | maxSeqNo => exact h j

theorem LevelsSorted.foldl_delete (h : LevelsSorted v) (ms : List SSTableMeta) :
    LevelsSorted ((ms.map (fun m => deleteEdit m.level m.fileID)).foldl Version.applyEdit v) := by
  induction ms generalizing v with
  | nil => exact h
  | cons m ms ih => exact ih (h.applyEdit (fun hc => by cases hc))

theorem LevelsSorted.foldl_add (h : LevelsSorted v) {ms : List SSTableMeta}
    (hc : ∀ m ∈ ms, m.createdAt = 0) (hids : ms.Pairwise (fun a b => a.fileID < b.fileID))
    (hnew : ∀ m ∈ ms, ∀ j, ∀ x ∈ v.levels j, x.fileID < m.fileID) :
    LevelsSorted ((ms.map (fun m => addEdit m true)).foldl Version.applyEdit v) := by
  induction ms generalizing v with
  | nil => exact h
  | cons m ms ih =>
    obtain ⟨hm, hids⟩ := List.pairwise_cons.1 hids
    refine ih (h.applyEdit (fun _ x hx => (hnew m List.mem_cons_self _ x hx).ne))
      (fun y hy => hc y (List.mem_cons_of_mem m hy)) hids ?_
    intro y hy j x hx
    have hmem : x ∈ v.levels j ∨ (x ∈ [m] ∧ x.level = j) :=
      (@mem_foldl_addEdit [m] (fun z hz => by
        rw [List.mem_singleton.1 hz]; exact hc m List.mem_cons_self) v j x).1 hx
    rcases hmem with hx | ⟨hx, -⟩
    · exact hnew y (List.mem_cons_of_mem m hy) j x hx
    · rw [List.mem_singleton.1 hx]
      exact hm y hy

theorem pairwise_cases {α : Type*} {R : α → α → Prop} {l : List α} (h : l.Pairwise R) {a b : α}
    (ha : a ∈ l) (hb : b ∈ l) : a = b ∨ R a b ∨ R b a := by
  obtain ⟨n, hn, rfl⟩ := List.getElem_of_mem ha
  obtain ⟨n', hn', rfl⟩ := List.getElem_of_mem hb
  rcases lt_trichotomy n n' with hlt | rfl | hlt
  · exact Or.inr (Or.inl (List.pairwise_iff_getElem.1 h n n' hn hn' hlt))
  · exact Or.inl rfl
  · exact Or.inr (Or.inr (List.pairwise_iff_getElem.1 h n' n hn' hn hlt))

theorem pairwise_disjoint (hs : l.Pairwise metaLe) (hn : (l.map SSTableMeta.fileID).Nodup)
    (hr : ∀ m ∈ l, m.firstKey ≤ m.lastKey)
    (hd : ∀ a ∈ l, ∀ b ∈ l, a.fileID ≠ b.fileID → a.lastKey < b.firstKey ∨ b.lastKey < a.firstKey) :
    l.Pairwise (fun a b => a.lastKey < b.firstKey) := by
  have hn' : l.Pairwise (fun a b => a.fileID ≠ b.fileID) := List.pairwise_map.1 hn
  refine (hs.and hn').imp_of_mem (fun {a b} ha hb hab => ?_)
  rcases hd a ha b hb hab.2 with h | h
  · exact h
  · exact absurd (hab.1.firstKey_le.trans (hr b hb)) (not_le.2 h)

theorem TablesShape.levelsSorted (h : TablesShape v files maxLevel) : LevelsSorted v := by
  intro j
  by_cases hj : j = 0
  · subst hj
    exact ⟨fun hc => absurd rfl hc, List.pairwise_map.2 (h.l0.imp (fun hab => hab.ne))⟩
  · have hr : ∀ m ∈ v.levels j, m.firstKey ≤ m.lastKey := fun m hm => by
      obtain ⟨t, -, hok⟩ := h.table hm
      exact hok.firstKey_le_lastKey
    refine ⟨fun _ => (h.disjoint j hj).imp_of_mem (fun ha _ hab => Or.inl ((hr _ ha).trans_lt hab)),
      List.pairwise_map.2 ((h.disjoint j hj).imp_of_mem (fun {a b} ha hb hab hc => ?_))⟩
    have : a = b := h.ids j j a ha b hb hc
    subst this
    exact absurd hab (not_lt.2 (hr a ha))

/-! ### The inputs -/

theorem mem_dedupeByFileID (h : ∀ a ∈ l, ∀ b ∈ l, a.fileID = b.fileID → a = b) :
    m ∈ dedupeByFileID l ↔ m ∈ l := by
  induction l with
  | nil => rfl
  | cons a l ih =>
    have ih := ih (fun x hx y hy => h x (List.mem_cons_of_mem a hx) y (List.mem_cons_of_mem a hy))
    rw [dedupeByFileID, List.mem_cons, List.mem_filter, ih, List.mem_cons]
    constructor
    · rintro (rfl | ⟨hm, -⟩)
      · exact Or.inl rfl
      · exact Or.inr hm
    · rintro (rfl | hm)
      · exact Or.inl rfl
      · by_cases hma : m.fileID = a.fileID
        · exact Or.inl (h m (List.mem_cons_of_mem a hm) a List.mem_cons_self hma)
        · exact Or.inr ⟨hm, by simpa using hma⟩

theorem keyRange_covers {l : List SSTableMeta} (hne : ∀ m ∈ l, m.firstKey ≠ []) :
    ∀ m ∈ l, (keyRange l).1 ≤ m.firstKey ∧ m.lastKey ≤ (keyRange l).2 := by
  unfold keyRange
  generalize hr : (([], []) : Bytes × Bytes) = r
  clear hr
  have key : ∀ (l : List SSTableMeta) (r : Bytes × Bytes), (∀ m ∈ l, m.firstKey ≠ []) →
      let r' := l.foldl (fun (r : Bytes × Bytes) (m : SSTableMeta) =>
        (if r.1 = [] ∨ m.firstKey < r.1 then m.firstKey else r.1,
          if r.2 = [] ∨ r.2 < m.lastKey then m.lastKey else r.2)) r
      (r.1 ≠ [] → r'.1 ≤ r.1) ∧ r.2 ≤ r'.2 ∧ ∀ m ∈ l, r'.1 ≤ m.firstKey ∧ m.lastKey ≤ r'.2 := by
    intro l
    induction l with
    | nil => exact fun r _ => ⟨fun _ => le_rfl, le_rfl, fun m hm => by cases hm⟩
    | cons a l ih =>
      intro r hne
      have ha := hne a List.mem_cons_self
      obtain ⟨h1, h2, h3⟩ := ih
        (if r.1 = [] ∨ a.firstKey < r.1 then a.firstKey else r.1,
          if r.2 = [] ∨ r.2 < a.lastKey then a.lastKey else r.2)
        (fun m hm => hne m (List.mem_cons_of_mem a hm))
      simp only [List.foldl_cons]
      have hlo : (if r.1 = [] ∨ a.firstKey < r.1 then a.firstKey else r.1) ≠ [] ∧
          (if r.1 = [] ∨ a.firstKey < r.1 then a.firstKey else r.1) ≤ a.firstKey ∧
          (r.1 ≠ [] → (if r.1 = [] ∨ a.firstKey < r.1 then a.firstKey else r.1) ≤ r.1) := by
        split_ifs with hc
        · exact ⟨ha, le_rfl, fun hr => (hc.resolve_left hr).le⟩
        · rw [not_or] at hc
          exact ⟨hc.1, not_lt.1 hc.2, fun _ => le_rfl⟩
      have hhi : r.2 ≤ (if r.2 = [] ∨ r.2 < a.lastKey then a.lastKey else r.2) ∧
          a.lastKey ≤ (if r.2 = [] ∨ r.2 < a.lastKey then a.lastKey else r.2) := by
        split_ifs with hc
        · refine ⟨?_, le_rfl⟩
          rcases hc with hc | hc
          · rw [hc]; exact not_lt.1 (List.not_lt_nil _)
          · exact hc.le
        · rw [not_or] at hc
          exact ⟨le_rfl, not_lt.1 hc.2⟩
      refine ⟨fun hr => (h1 hlo.1).trans (hlo.2.2 hr), hhi.1.trans h2, fun m hm => ?_⟩
      rcases List.mem_cons.1 hm with rfl | hm
      · exact ⟨(h1 hlo.1).trans hlo.2.1, hhi.2.trans h2⟩
      · exact h3 m hm
  exact (key l r hne).2.2

/-- What the inputs of a leveled compaction from level `i` are: tables of level `i` covered by a key
range, and all tables of the next level that overlap it. -/
structure LeveledInputs (v : Version) (maxLevel i : ℕ) (ins : List SSTableMeta) : Prop where
  lt : i + 1 < maxLevel
  upper : ∀ m ∈ ins, m ∈ v.levels i ∨ m ∈ v.levels (i + 1)
  all_l0 : i = 0 → ∀ m ∈ v.levels 0, m ∈ ins
  range : ∃ lo hi, (∀ m ∈ ins, m ∈ v.levels i → lo ≤ m.firstKey ∧ m.lastKey ≤ hi) ∧
    ∀ m ∈ v.levels (i + 1), m ∈ ins ↔ m.firstKey ≤ hi ∧ lo ≤ m.lastKey

theorem leveledInputs_spec (h : TablesShape v files maxLevel)
    (hne : leveledInputs v maxLevel i ≠ []) :
    LeveledInputs v maxLevel i (leveledInputs v maxLevel i) := by
  unfold leveledInputs at hne ⊢
  by_cases hlt : maxLevel ≤ i + 1
  · simp [hlt] at hne
  rw [if_neg hlt] at hne ⊢
  set base := if i = 0 then v.levels 0 else (v.levels i).take 1 with hbase
  have hsub : ∀ m ∈ base, m ∈ v.levels i := by
    intro m hm
    rw [hbase] at hm
    split_ifs at hm with hi
    · rw [hi]; exact hm
    · exact List.mem_of_mem_take hm
  by_cases hb : base = []
  · simp [hb] at hne
  simp only [if_neg hb] at hne ⊢
  set r := keyRange base with hr
  have hcover := @keyRange_covers base (fun m hm => by
    obtain ⟨t, -, hok⟩ := h.table (hsub m hm)
    exact hok.firstKey_ne_nil)
  rw [← hr] at hcover
  have hmem : ∀ m, m ∈ dedupeByFileID (base ++ (v.levels (i + 1)).filter
      (fun m => overlaps m.firstKey m.lastKey r.1 r.2)) ↔
      m ∈ base ∨ (m ∈ v.levels (i + 1) ∧ m.firstKey ≤ r.2 ∧ r.1 ≤ m.lastKey) := by
    intro m
    rw [mem_dedupeByFileID]
    · rw [List.mem_append, List.mem_filter]
      simp [overlaps]
    · have hin : ∀ a ∈ base ++ (v.levels (i + 1)).filter
          (fun m => overlaps m.firstKey m.lastKey r.1 r.2), ∃ j, a ∈ v.levels j := by
        intro a ha
        rcases List.mem_append.1 ha with ha | ha
        · exact ⟨i, hsub a ha⟩
        · exact ⟨i + 1, (List.mem_filter.1 ha).1⟩
      intro a ha b hb hab
      obtain ⟨j, hj⟩ := hin a ha
      obtain ⟨j', hj'⟩ := hin b hb
      exact h.ids j j' a hj b hj' hab
  have hlevel : ∀ m ∈ v.levels (i + 1), m ∉ v.levels i := fun m hm hm' => by
    have h1 := (h.ok _ m hm).1
    have h2 := (h.ok _ m hm').1
    omega
  refine ⟨not_le.1 hlt, fun m hm => ?_, ?_, r.1, r.2, fun m hm hmi => ?_, fun m hm => ?_⟩
  · rcases (hmem m).1 hm with hm | hm
    · exact Or.inl (hsub m hm)
    · exact Or.inr hm.1
  · rintro rfl m hm
    exact (hmem m).2 (Or.inl (by rw [hbase, if_pos rfl]; exact hm))
  · rcases (hmem m).1 hm with hm | hm
    · exact hcover m hm
    · exact absurd hmi (hlevel m hm.1)
  · rw [hmem m]
    constructor
    · rintro (hb | hb)
      · exact absurd (hsub m hb) (hlevel m hm)
      · exact hb.2
    · exact fun hb => Or.inr ⟨hm, hb⟩

/-! ### A committed compaction -/

/-- A leveled compaction from level `i`: `v` and `files` before, `v'` and `files'` after it.  `es`
is the merged stream of the inputs. -/
structure LeveledStep (v : Version) (files : ℕ → Option SSTable) (maxLevel i : ℕ)
    (ins : List SSTableMeta) (outs : List (SSTableMeta × SSTable)) (es : List Entry)
    (v' : Version) (files' : ℕ → Option SSTable) : Prop where
  tables : TablesOk v files maxLevel
  agrees : Agrees (tableVersions v files)
  inputs : LeveledInputs v maxLevel i ins
  mem_es : ∀ x, x ∈ es ↔ ∃ m ∈ ins, x ∈ tableSet files m
  stream : StreamFrom es none
  entries : outs.flatMap (fun o => o.2.entries) = kept (decide (i + 1 + 1 = maxLevel)) es none
  outs_ok : ∃ lo hi, (∀ o ∈ outs, OutOk (i + 1) lo hi o) ∧ ∀ j, ∀ m ∈ v.levels j, m.fileID ≤ lo
  out_ids : outs.Pairwise (fun a b => a.1.fileID < b.1.fileID)
  levels : ∀ j x, x ∈ v'.levels j ↔
    (x ∈ v.levels j ∧ x ∉ ins) ∨ ∃ t, (x, t) ∈ outs ∧ j = i + 1
  rest : ∀ j, j ≠ i → j ≠ i + 1 → v'.levels j = v.levels j
  sorted : LevelsSorted v'
  old_files : ∀ j, ∀ m ∈ v.levels j, m ∉ ins → files' m.fileID = files m.fileID
  out_files : ∀ o ∈ outs, files' o.1.fileID = some o.2

/-- The same without a word on values, and where versions with one stamp may differ. -/
structure MergeStep (v : Version) (files : ℕ → Option SSTable) (maxLevel i : ℕ)
    (ins : List SSTableMeta) (outs : List (SSTableMeta × SSTable)) (es : List Entry)
    (v' : Version) (files' : ℕ → Option SSTable) : Prop where
  tables : TablesShape v files maxLevel
  inputs : LeveledInputs v maxLevel i ins
  mem_es : ∀ x, x ∈ es ↔ ∃ m ∈ ins, x ∈ tableSet files m
  stream : StreamFrom es none
  entries : outs.flatMap (fun o => o.2.entries) = kept (decide (i + 1 + 1 = maxLevel)) es none
  outs_ok : ∃ lo hi, (∀ o ∈ outs, OutOk (i + 1) lo hi o) ∧ ∀ j, ∀ m ∈ v.levels j, m.fileID ≤ lo
  out_ids : outs.Pairwise (fun a b => a.1.fileID < b.1.fileID)
  levels : ∀ j x, x ∈ v'.levels j ↔
    (x ∈ v.levels j ∧ x ∉ ins) ∨ ∃ t, (x, t) ∈ outs ∧ j = i + 1
  rest : ∀ j, j ≠ i → j ≠ i + 1 → v'.levels j = v.levels j
  sorted : LevelsSorted v'
  old_files : ∀ j, ∀ m ∈ v.levels j, m ∉ ins → files' m.fileID = files m.fileID
  out_files : ∀ o ∈ outs, files' o.1.fileID = some o.2

def LeveledStep.upperSet (v : Version) (files : ℕ → Option SSTable) (ins : List SSTableMeta)
    (i : ℕ) : Set Entry :=
  {x | ∃ m ∈ ins, m ∈ v.levels i ∧ x ∈ tableSet files m}

def LeveledStep.outSet (outs : List (SSTableMeta × SSTable)) : Set Entry :=
  {x | ∃ o ∈ outs, x ∈ o.2.entries}

namespace MergeStep

open LeveledStep (upperSet outSet)

variable {v v' : Version} {files files' : ℕ → Option SSTable} {maxLevel i : ℕ}
  {ins : List SSTableMeta} {outs : List (SSTableMeta × SSTable)} {es : List Entry}

variable {a b o : SSTableMeta × SSTable} {x : Entry} {j : ℕ} {m : SSTableMeta}

theorem mem_out (h : MergeStep v files maxLevel i ins outs es v' files') (ho : o ∈ outs)
    (hx : x ∈ o.2.entries) : x ∈ kept (decide (i + 1 + 1 = maxLevel)) es none :=
  h.entries ▸ List.mem_flatMap.2 ⟨o, ho, hx⟩

theorem mem_es_of_mem_out (h : MergeStep v files maxLevel i ins outs es v' files') (ho : o ∈ outs)
    (hx : x ∈ o.2.entries) : x ∈ es :=
  List.mem_of_find?_eq_some ((mem_kept h.stream).1 (h.mem_out ho hx)).2.1

theorem key_ne_nil (h : MergeStep v files maxLevel i ins outs es v' files') (hx : x ∈ es) :
    x.key.userKey ≠ [] := by
  obtain ⟨m, hm, t, ht, hxt⟩ := (h.mem_es x).1 hx
  obtain ⟨j, hj⟩ : ∃ j, m ∈ v.levels j :=
    (h.inputs.upper m hm).elim (fun hj => ⟨_, hj⟩) (fun hj => ⟨_, hj⟩)
  obtain ⟨t', ht', hok⟩ := h.tables.table hj
  rw [ht] at ht'
  cases ht'
  exact hok.keys x hxt

theorem out_sorted (h : MergeStep v files maxLevel i ins outs es v' files') :
    (outs.flatMap (fun o => o.2.entries)).Pairwise (fun x y => x.key.userKey < y.key.userKey) :=
  h.entries ▸ kept_sorted h.stream

theorem out_tableShape (h : MergeStep v files maxLevel i ins outs es v' files') (ho : o ∈ outs) :
    TableShape o.1 o.2 := by
  obtain ⟨lo, hi, hout, -⟩ := h.outs_ok
  have hok := hout o ho
  refine ⟨hok.built, ?_, hok.first, hok.last, fun x hx => h.key_ne_nil (h.mem_es_of_mem_out ho hx)⟩
  refine ((List.pairwise_flatMap.1 h.out_sorted).1 o ho).imp (fun {a b} hab => ?_)
  exact InternalKey.less_iff.2 (Or.inl hab)

theorem side (h : MergeStep v files maxLevel i ins outs es v' files') {g : SSTableMeta}
    (hg : g ∈ v.levels (i + 1)) (hgi : g ∉ ins) :
    (∀ x ∈ es, x.key.userKey < g.firstKey) ∨ (∀ x ∈ es, g.lastKey < x.key.userKey) := by
  obtain ⟨lo, hi, hup, hlow⟩ := h.inputs.range
  obtain ⟨tg, -, hgok⟩ := h.tables.table hg
  have hgr := hgok.firstKey_le_lastKey
  have hdis : ∀ m ∈ ins, m ∈ v.levels (i + 1) →
      m.lastKey < g.firstKey ∨ g.lastKey < m.firstKey := by
    intro m hm hml
    rcases pairwise_cases (h.tables.disjoint (i + 1) (Nat.succ_ne_zero i)) hml hg with rfl | hd
    · exact absurd hm hgi
    · exact hd
  have hout : ¬ (g.firstKey ≤ hi ∧ lo ≤ g.lastKey) := fun hc => hgi ((hlow g hg).2 hc)
  rw [not_and_or, not_le, not_le] at hout
  rcases hout with hout | hout
  · refine Or.inl (fun x hx => ?_)
    obtain ⟨m, hm, hxm⟩ := (h.mem_es x).1 hx
    rcases h.inputs.upper m hm with hml | hml
    · exact (((h.tables.range hml hxm).2).trans (hup m hm hml).2).trans_lt hout
    · rcases hdis m hm hml with hd | hd
      · exact ((h.tables.range hml hxm).2).trans_lt hd
      · have := ((hlow m hml).1 hm).1
        exact absurd (hgr.trans_lt (hd.trans_le (this.trans hout.le))) (lt_irrefl _)
  · refine Or.inr (fun x hx => ?_)
    obtain ⟨m, hm, hxm⟩ := (h.mem_es x).1 hx
    rcases h.inputs.upper m hm with hml | hml
    · exact hout.trans_le ((hup m hm hml).1.trans (h.tables.range hml hxm).1)
    · rcases hdis m hm hml with hd | hd
      · have := ((hlow m hml).1 hm).2
        exact absurd ((hout.trans_le this).trans (hd.trans_le hgr)) (lt_irrefl _)
      · exact hd.trans_le (h.tables.range hml hxm).1

theorem out_range (h : MergeStep v files maxLevel i ins outs es v' files') (ho : o ∈ outs) :
    (∃ x ∈ o.2.entries, o.1.firstKey = x.key.userKey) ∧
      ∃ y ∈ o.2.entries, o.1.lastKey = y.key.userKey := by
  obtain ⟨x, hx, hfirst⟩ := (h.out_tableShape ho).first
  obtain ⟨y, hy, hlast⟩ := (h.out_tableShape ho).last
  exact ⟨⟨x, List.mem_of_mem_head? hx, hfirst⟩, ⟨y, List.mem_of_mem_getLast? hy, hlast⟩⟩

theorem outs_disjoint (h : MergeStep v files maxLevel i ins outs es v' files') (ha : a ∈ outs)
    (hb : b ∈ outs) (hab : a.1.fileID < b.1.fileID) : a.1.lastKey < b.1.firstKey := by
  obtain ⟨-, y, hy, hlast⟩ := h.out_range ha
  obtain ⟨⟨x, hx, hfirst⟩, -⟩ := h.out_range hb
  rw [hlast, hfirst]
  have hkeys := h.out_ids.and (List.pairwise_flatMap.1 h.out_sorted).2
  rcases pairwise_cases hkeys ha hb with rfl | hlt | hlt
  · exact absurd hab (lt_irrefl _)
  · exact hlt.2 y hy x hx
  · exact absurd (hab.trans hlt.1) (lt_irrefl _)

theorem out_eq_of_id (h : MergeStep v files maxLevel i ins outs es v' files') (ha : a ∈ outs)
    (hb : b ∈ outs) (hab : a.1.fileID = b.1.fileID) : a = b := by
  rcases pairwise_cases h.out_ids ha hb with heq | hlt | hlt
  · exact heq
  · exact absurd hab hlt.ne
  · exact absurd hab.symm hlt.ne

theorem old_lt_out (h : MergeStep v files maxLevel i ins outs es v' files') (hm : m ∈ v.levels j)
    (ho : o ∈ outs) : m.fileID < o.1.fileID := by
  obtain ⟨lo, hi, hout, hold⟩ := h.outs_ok
  exact (hold j m hm).trans_lt (hout o ho).id_gt

/-- **The version after a leveled compaction has the shape of the one before.** -/
theorem tablesShape (h : MergeStep v files maxLevel i ins outs es v' files') :
    TablesShape v' files' maxLevel := by
  have hok : ∀ j, ∀ m ∈ v'.levels j, m.level = j ∧ ∃ t, files' m.fileID = some t ∧
      TableShape m t := by
    intro j m hm
    rcases (h.levels j m).1 hm with ⟨hm, hmi⟩ | ⟨t, ho, rfl⟩
    · rw [h.old_files j m hm hmi]
      exact h.tables.ok j m hm
    · obtain ⟨lo, hi, hout, -⟩ := h.outs_ok
      exact ⟨(hout _ ho).level_eq, t, h.out_files _ ho, h.out_tableShape ho⟩
  have hr : ∀ j, ∀ m ∈ v'.levels j, m.firstKey ≤ m.lastKey := by
    intro j m hm
    obtain ⟨-, t, -, hmt⟩ := hok j m hm
    exact hmt.firstKey_le_lastKey
  refine ⟨hok, ?_, ?_, ?_, ?_⟩
  · intro j j' m hm m' hm' hid
    rcases (h.levels j m).1 hm with ⟨hm, -⟩ | ⟨t, ho, rfl⟩ <;>
      rcases (h.levels j' m').1 hm' with ⟨hm', -⟩ | ⟨t', ho', rfl⟩
    · exact h.tables.ids j j' m hm m' hm' hid
    · exact absurd hid (h.old_lt_out hm ho').ne
    · exact absurd hid.symm (h.old_lt_out hm' ho).ne
    · exact congrArg Prod.fst (h.out_eq_of_id ho ho' hid)
  · by_cases hi : i = 0
    · have hnil : v'.levels 0 = [] := by
        rw [List.eq_nil_iff_forall_not_mem]
        intro m hm
        rcases (h.levels 0 m).1 hm with ⟨hm, hmi⟩ | ⟨t, -, hc⟩
        · exact hmi (h.inputs.all_l0 hi m hm)
        · omega
      rw [hnil]
      exact List.Pairwise.nil
    · rw [h.rest 0 (Ne.symm hi) (by omega)]
      exact h.tables.l0
  · intro j hj
    refine pairwise_disjoint ((h.sorted j).1 hj) (h.sorted j).2 (hr j) ?_
    have hold : ∀ a ∈ v.levels j, ∀ b ∈ v.levels j, a.fileID ≠ b.fileID →
        a.lastKey < b.firstKey ∨ b.lastKey < a.firstKey := by
      intro a ha b hb hab
      rcases pairwise_cases (h.tables.disjoint j hj) ha hb with rfl | hd
      · exact absurd rfl hab
      · exact hd
    have hmix : ∀ g ∈ v.levels (i + 1), g ∉ ins → ∀ o ∈ outs,
        g.lastKey < o.1.firstKey ∨ o.1.lastKey < g.firstKey := by
      intro g hg hgi o ho
      obtain ⟨⟨x, hx, hfirst⟩, y, hy, hlast⟩ := h.out_range ho
      rcases h.side hg hgi with hs | hs
      · exact Or.inr (hlast ▸ hs y (h.mem_es_of_mem_out ho hy))
      · exact Or.inl (hfirst ▸ hs x (h.mem_es_of_mem_out ho hx))
    intro a ha b hb hab
    rcases (h.levels j a).1 ha with ⟨ha, hai⟩ | ⟨t, ho, hja⟩ <;>
      rcases (h.levels j b).1 hb with ⟨hb, hbi⟩ | ⟨t', ho', hjb⟩
    · exact hold a ha b hb hab
    · exact hmix a (hjb ▸ ha) hai _ ho'
    · exact (hmix b (hja ▸ hb) hbi _ ho).symm
    · rcases lt_or_gt_of_ne hab with hlt | hlt
      · exact Or.inl (h.outs_disjoint ho ho' hlt)
      · exact Or.inr (h.outs_disjoint ho' ho hlt)
  · intro j hj
    have := h.inputs.lt
    rw [h.rest j (by omega) (by omega), h.tables.bound j hj]

theorem outSet_eq (h : MergeStep v files maxLevel i ins outs es v' files') :
    outSet outs = {x | x ∈ kept (decide (i + 1 + 1 = maxLevel)) es none} := by
  ext x
  rw [Set.mem_ofPred_eq, ← h.entries, List.mem_flatMap]
  rfl

theorem es_eq (h : MergeStep v files maxLevel i ins outs es v' files') :
    {x | x ∈ es} = upperSet v files ins i ∪ upperSet v files ins (i + 1) := by
  ext x
  rw [Set.mem_ofPred_eq, h.mem_es]
  constructor
  · rintro ⟨m, hm, hx⟩
    exact (h.inputs.upper m hm).elim (fun hl => Or.inl ⟨m, hm, hl, hx⟩)
      (fun hl => Or.inr ⟨m, hm, hl, hx⟩)
  · rintro (⟨m, hm, -, hx⟩ | ⟨m, hm, -, hx⟩) <;> exact ⟨m, hm, hx⟩

theorem not_mem_upperSet (h : MergeStep v files maxLevel i ins outs es v' files')
    (hj : j = i ∨ j = i + 1) (hm : m ∈ v.levels j) (hmi : m ∉ ins) (hx : x ∈ tableSet files m) :
    x ∉ upperSet v files ins j := by
  rintro ⟨m', hm', hl, hx'⟩
  rcases Nat.eq_zero_or_pos j with rfl | hpos
  · exact hmi (h.inputs.all_l0 (by omega) m hm)
  · exact hmi (h.tables.eq_of_holds hpos.ne' hm hl hx hx' rfl ▸ hm')

theorem old_tableSet (h : MergeStep v files maxLevel i ins outs es v' files') (hm : m ∈ v.levels j)
    (hmi : m ∉ ins) : tableSet files' m = tableSet files m := by
  unfold tableSet
  rw [h.old_files j m hm hmi]

theorem out_tableSet (h : MergeStep v files maxLevel i ins outs es v' files') (ho : o ∈ outs) :
    tableSet files' o.1 = {x | x ∈ o.2.entries} := by
  ext x
  simp [tableSet, h.out_files o ho]

theorem levelSet_upper (h : MergeStep v files maxLevel i ins outs es v' files') :
    levelSet v' files' i = levelSet v files i \ upperSet v files ins i := by
  ext x
  constructor
  · rintro ⟨m, hm, hx⟩
    rcases (h.levels i m).1 hm with ⟨hm, hmi⟩ | ⟨t, -, hc⟩
    · rw [h.old_tableSet hm hmi] at hx
      exact ⟨⟨m, hm, hx⟩, h.not_mem_upperSet (Or.inl rfl) hm hmi hx⟩
    · omega
  · rintro ⟨⟨m, hm, hx⟩, hnot⟩
    have hmi : m ∉ ins := fun hc => hnot ⟨m, hc, hm, hx⟩
    exact ⟨m, (h.levels i m).2 (Or.inl ⟨hm, hmi⟩), by rwa [h.old_tableSet hm hmi]⟩

theorem levelSet_lower (h : MergeStep v files maxLevel i ins outs es v' files') :
    levelSet v' files' (i + 1) =
      (levelSet v files (i + 1) \ upperSet v files ins (i + 1)) ∪ outSet outs := by
  ext x
  constructor
  · rintro ⟨m, hm, hx⟩
    rcases (h.levels (i + 1) m).1 hm with ⟨hm, hmi⟩ | ⟨t, ho, -⟩
    · rw [h.old_tableSet hm hmi] at hx
      exact Or.inl ⟨⟨m, hm, hx⟩, h.not_mem_upperSet (Or.inr rfl) hm hmi hx⟩
    · rw [h.out_tableSet ho] at hx
      exact Or.inr ⟨_, ho, hx⟩
  · rintro (⟨⟨m, hm, hx⟩, hnot⟩ | ⟨o, ho, hx⟩)
    · have hmi : m ∉ ins := fun hc => hnot ⟨m, hc, hm, hx⟩
      exact ⟨m, (h.levels _ m).2 (Or.inl ⟨hm, hmi⟩), by rwa [h.old_tableSet hm hmi]⟩
    · exact ⟨o.1, (h.levels _ o.1).2 (Or.inr ⟨o.2, ho, rfl⟩), by rw [h.out_tableSet ho]; exact hx⟩

theorem not_mem_ins (h : MergeStep v files maxLevel i ins outs es v' files') (hj : j ≠ i)
    (hj' : j ≠ i + 1) (hm : m ∈ v.levels j) : m ∉ ins := by
  intro hc
  have hl := (h.tables.ok j m hm).1
  rcases h.inputs.upper m hc with hm' | hm' <;> have hl' := (h.tables.ok _ m hm').1 <;> omega

theorem levelSet_rest (h : MergeStep v files maxLevel i ins outs es v' files') (hj : j ≠ i)
    (hj' : j ≠ i + 1) : levelSet v' files' j = levelSet v files j := by
  ext x
  unfold levelSet
  rw [h.rest j hj hj']
  constructor <;> rintro ⟨m, hm, hx⟩
  · exact ⟨m, hm, by rwa [h.old_tableSet hm (h.not_mem_ins hj hj' hm)] at hx⟩
  · exact ⟨m, hm, by rwa [h.old_tableSet hm (h.not_mem_ins hj hj' hm)]⟩

/-- **Leveled compaction merges one layer down into the next, key by key.** -/
theorem mergesInto (h : MergeStep v files maxLevel i ins outs es v' files') :
    MergesInto (levelSet v files i) (levelSet v files (i + 1)) (upperSet v files ins i)
      (upperSet v files ins (i + 1)) (outSet outs) where
  subA := by
    rintro x ⟨m, -, hl, hx⟩
    exact ⟨m, hl, hx⟩
  subB := by
    rintro x ⟨m, -, hl, hx⟩
    exact ⟨m, hl, hx⟩
  wholeA := by
    rintro x ⟨m, hm, hl, hx⟩ y ⟨m', hl', hy⟩ hk
    rcases Nat.eq_zero_or_pos i with rfl | hpos
    · exact ⟨m', h.inputs.all_l0 rfl m' hl', hl', hy⟩
    · have : m' = m := h.tables.eq_of_holds hpos.ne' hl' hl hy hx hk
      subst this
      exact ⟨m', hm, hl, hy⟩
  wholeB := by
    intro x hx y ⟨g, hg, hy⟩ hk
    have hk : y.key.userKey = x.key.userKey := hk
    rw [← h.es_eq] at hx
    by_contra hc
    have hgi : g ∉ ins := fun hgi => hc ⟨g, hgi, hg, hy⟩
    have hr := h.tables.range hg hy
    rw [hk] at hr
    rcases h.side hg hgi with hs | hs
    · exact absurd (hs x hx) (not_lt.2 hr.1)
    · exact absurd (hs x hx) (not_lt.2 hr.2)
  newest := by
    intro x hx
    rw [h.outSet_eq] at hx
    rw [← h.es_eq]
    exact firstVersion_stream_newest h.stream.sorted ((mem_kept h.stream).1 hx).2.1

end MergeStep

/-! ### Layers around a level -/

def layersAbove (v : Version) (files : ℕ → Option SSTable) (i : ℕ) : List (Set Entry) :=
  if i = 0 then []
  else (l0Desc (v.levels 0)).map (tableSet files) ++ (List.range' 1 (i - 1)).map (levelSet v files)

def layersAt (v : Version) (files : ℕ → Option SSTable) (i : ℕ) : List (Set Entry) :=
  if i = 0 then (l0Desc (v.levels 0)).map (tableSet files) else [levelSet v files i]

theorem levelLayers_split (v : Version) (files : ℕ → Option SSTable) (hi : i + 2 ≤ maxLevels) :
    levelLayers v files = layersAbove v files i ++ layersAt v files i ++
      levelSet v files (i + 1) :: (List.range' (i + 2) (maxLevels - (i + 2))).map
        (levelSet v files) := by
  unfold maxLevels at *
  unfold levelLayers layersAbove layersAt maxLevels
  by_cases h0 : i = 0
  · subst h0
    rw [if_pos rfl, if_pos rfl, List.nil_append]
    rfl
  · rw [if_neg h0, if_neg h0]
    have hsplit : ∀ i < 6, i ≠ 0 → List.range' 1 (7 - 1) =
        List.range' 1 (i - 1) ++ i :: (i + 1) :: List.range' (i + 2) (7 - (i + 2)) := by decide
    rw [hsplit i (by omega) h0]
    simp only [List.map_append, List.map_cons, List.append_assoc, List.cons_append, List.nil_append]

theorem union_layersAt (v : Version) (files : ℕ → Option SSTable) (i : ℕ) :
    union (layersAt v files i) = levelSet v files i := by
  unfold layersAt
  split_ifs with h
  · subst h
    ext x
    simp only [union, List.mem_map, mem_l0Desc, Set.mem_ofPred_eq]
    constructor
    · rintro ⟨A, ⟨m, hm, rfl⟩, hx⟩
      exact ⟨m, hm, hx⟩
    · rintro ⟨m, hm, hx⟩
      exact ⟨_, ⟨m, hm, rfl⟩, hx⟩
  · rw [union_cons, union_nil, Set.union_empty]

theorem union_levelLayers_split (v : Version) (files : ℕ → Option SSTable)
    (hi : i + 2 ≤ maxLevels) : union (levelLayers v files) = union (layersAbove v files i) ∪
      union (levelSet v files i :: levelSet v files (i + 1) ::
        (List.range' (i + 2) (maxLevels - (i + 2))).map (levelSet v files)) := by
  rw [levelLayers_split v files hi, List.append_assoc, union_append, union_append, union_layersAt,
    ← union_cons]

namespace MergeStep

variable {v v' : Version} {files files' : ℕ → Option SSTable} {maxLevel i : ℕ}
  {ins : List SSTableMeta} {outs : List (SSTableMeta × SSTable)} {es : List Entry}

theorem layersAbove_eq (h : MergeStep v files maxLevel i ins outs es v' files') :
    layersAbove v' files' i = layersAbove v files i := by
  unfold layersAbove
  split_ifs with hi
  · rfl
  · rw [h.rest 0 (Ne.symm hi) (by omega)]
    congr 1
    · refine List.map_congr_left (fun m hm => ?_)
      exact h.old_tableSet (mem_l0Desc.1 hm)
        (h.not_mem_ins (Ne.symm hi) (by omega) (mem_l0Desc.1 hm))
    · refine List.map_congr_left (fun j hj => ?_)
      have := List.mem_range'_1.1 hj
      exact h.levelSet_rest (by omega) (by omega)

theorem layersBelow_eq (h : MergeStep v files maxLevel i ins outs es v' files') (n : ℕ) :
    (List.range' (i + 2) n).map (levelSet v' files') =
      (List.range' (i + 2) n).map (levelSet v files) := by
  refine List.map_congr_left (fun j hj => ?_)
  have := List.mem_range'_1.1 hj
  exact h.levelSet_rest (by omega) (by omega)

theorem layersAt_sublist (h : MergeStep v files maxLevel i ins outs es v' files') :
    (layersAt v' files' i).Sublist [levelSet v' files' i] := by
  unfold layersAt
  split_ifs with hi
  · have hnil : v'.levels 0 = [] := by
      rw [List.eq_nil_iff_forall_not_mem]
      intro m hm
      rcases (h.levels 0 m).1 hm with ⟨hm, hmi⟩ | ⟨t, -, hc⟩
      · exact hmi (h.inputs.all_l0 hi m hm)
      · omega
    rw [hnil]
    exact List.nil_sublist _
  · exact List.Sublist.refl _

/-- **After a leveled compaction the layers are still ordered**, whatever is above them. -/
theorem ordered (h : MergeStep v files maxLevel i ins outs es v' files')
    (hmax : maxLevel ≤ maxLevels) {U : List (Set Entry)} (ho : Ordered (U ++ levelLayers v files)) :
    Ordered (U ++ levelLayers v' files') := by
  have hi : i + 2 ≤ maxLevels := by have := h.inputs.lt; omega
  rw [levelLayers_split v files hi, ← List.append_assoc, ← List.append_assoc] at ho
  have ho := h.mergesInto.ordered (union_layersAt v files i ▸ ho.collapse)
  rw [← h.levelSet_upper, ← h.levelSet_lower] at ho
  rw [levelLayers_split v' files' hi, h.layersAbove_eq, h.layersBelow_eq, List.append_assoc,
    ← List.append_assoc]
  exact ho.sublist (List.Sublist.append (List.Sublist.refl _)
    (h.layersAt_sublist.append (List.Sublist.refl _)))

end MergeStep

namespace LeveledStep

variable {v v' : Version} {files files' : ℕ → Option SSTable} {maxLevel i : ℕ}
  {ins : List SSTableMeta} {outs : List (SSTableMeta × SSTable)} {es : List Entry}

theorem shape (h : LeveledStep v files maxLevel i ins outs es v' files') :
    MergeStep v files maxLevel i ins outs es v' files' where
  tables := h.tables.shape
  inputs := h.inputs
  mem_es := h.mem_es
  stream := h.stream
  entries := h.entries
  outs_ok := h.outs_ok
  out_ids := h.out_ids
  levels := h.levels
  rest := h.rest
  sorted := h.sorted
  old_files := h.old_files
  out_files := h.out_files

theorem entry_ok (h : LeveledStep v files maxLevel i ins outs es v' files') {x : Entry}
    (hx : x ∈ es) : x.Ok := by
  obtain ⟨m, hm, hxm⟩ := (h.mem_es x).1 hx
  exact (h.inputs.upper m hm).elim (fun hj => h.tables.entries_ok ⟨_, m, hj, hxm⟩)
    (fun hj => h.tables.entries_ok ⟨_, m, hj, hxm⟩)

theorem out_tableOk (h : LeveledStep v files maxLevel i ins outs es v' files')
    {o : SSTableMeta × SSTable} (ho : o ∈ outs) : TableOk o.1 o.2 :=
  have hs := h.shape.out_tableShape ho
  ⟨hs.built, hs.sorted, hs.first, hs.last,
    fun _ hx => h.entry_ok (h.shape.mem_es_of_mem_out ho hx)⟩

/-- **The version after a leveled compaction has the shape of the one before.** -/
theorem tablesOk (h : LeveledStep v files maxLevel i ins outs es v' files') :
    TablesOk v' files' maxLevel := by
  refine h.shape.tablesShape.tablesOk ?_
  rintro x ⟨j, m, hm, hx⟩
  rcases (h.levels j m).1 hm with ⟨hm, hmi⟩ | ⟨t, ho, -⟩
  · rw [h.shape.old_tableSet hm hmi] at hx
    exact h.tables.entries_ok ⟨j, m, hm, hx⟩
  · rw [h.shape.out_tableSet ho] at hx
    exact (h.out_tableOk ho).entries_ok x hx

/-- **Leveled compaction merges one layer down into the next, key by key.** -/
theorem mergeDown (h : LeveledStep v files maxLevel i ins outs es v' files') {n : ℕ} :
    MergeDown (levelSet v files i) (levelSet v files (i + 1)) (upperSet v files ins i)
      (upperSet v files ins (i + 1)) (outSet outs)
      ((List.range' (i + 2) n).map (levelSet v files)) where
  subA := h.shape.mergesInto.subA
  subB := h.shape.mergesInto.subB
  wholeA := h.shape.mergesInto.wholeA
  wholeB := h.shape.mergesInto.wholeB
  thins := by
    intro k
    rw [← h.shape.es_eq, h.shape.outSet_eq]
    refine kept_thins h.stream (h.agrees.mono ?_) k
    intro x hx
    obtain ⟨m, hm, hxm⟩ := (h.mem_es x).1 hx
    exact (h.inputs.upper m hm).elim (fun hl => ⟨_, m, hl, hxm⟩) (fun hl => ⟨_, m, hl, hxm⟩)
  drops := by
    intro k hk hno C hC
    obtain ⟨j, hj, rfl⟩ := List.mem_map.1 hC
    rw [← h.shape.es_eq] at hk
    rw [h.shape.outSet_eq] at hno
    -- only the last level drops a key, and nothing is below it
    have hb := of_decide_eq_true ((kept_holds h.stream hk).resolve_left hno)
    rintro ⟨x, ⟨m, hm, -⟩, -⟩
    rw [h.tables.bound j (by have := (List.mem_range'_1.1 hj).1; omega)] at hm
    cases hm

/-- **Only superseded versions and last tombstones are gone.** -/
theorem compacts (h : LeveledStep v files maxLevel i ins outs es v' files')
    (hmax : maxLevel ≤ maxLevels) (ho : Ordered (levelLayers v files)) :
    Compacts (union (levelLayers v files)) (union (levelLayers v' files')) := by
  have hi : i + 2 ≤ maxLevels := by have := h.inputs.lt; omega
  have ha : Agrees (union (levelLayers v files)) := h.tables.shape.union_levelLayers hmax ▸ h.agrees
  rw [union_levelLayers_split v files hi] at ha ⊢
  rw [union_levelLayers_split v' files' hi, h.shape.layersAbove_eq, h.shape.layersBelow_eq]
  rw [levelLayers_split v files hi] at ho
  have ho := union_layersAt v files i ▸ ho.collapse
  have hAB := (List.pairwise_append.1 ho).2.1
  have hc := h.mergeDown.compacts ((List.pairwise_cons.1 hAB).1 _ List.mem_cons_self)
    (ha.mono Set.subset_union_right)
  rw [← h.shape.levelSet_upper, ← h.shape.levelSet_lower] at hc
  exact hc.under ho.dominates ha

end LeveledStep

end LsmTree
