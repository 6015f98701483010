import LsmTree.Engine.Read

/-!
# Tables and lookups in them

`TablesOk` says what a version and the table files it lists look like between operations: every
listed file exists and is a well-formed table with the recorded key range, file ids are unique,
level 0 is in the order of its ids, and the tables of a deeper level lie side by side.

In such a version the one table that `findLevelCandidate` picks is the only one of its level that
can hold the key (`findSome?_level`), so that a lookup asks, in effect, all tables in the order of
`scanOrder` (`probe_eq`).
-/

namespace LsmTree

open Versioned

variable {a b m : SSTableMeta} {t : SSTable} {e : Entry} {i s : ℕ} {k : Bytes}
  {level : List SSTableMeta} {α : Type*} {readers : ℕ → Option SSTable}

/-- Entries the engine is meant for: the key is not empty, nor is a live value, and a tombstone
carries none. -/
structure Entry.Ok (e : Entry) : Prop where
  key : e.key.userKey ≠ []
  value : e.key.type = .value → e.value ≠ []
  wf : e.Wf

/-- A well-formed table file with the key range its metadata says. -/
structure TableOk (m : SSTableMeta) (t : SSTable) : Prop where
  built : t.Built t.entries
  sorted : SortedEntries t.entries
  first : ∃ x, t.entries.head? = some x ∧ m.firstKey = x.key.userKey
  last : ∃ y, t.entries.getLast? = some y ∧ m.lastKey = y.key.userKey
  entries_ok : ∀ e ∈ t.entries, e.Ok

structure TableShape (m : SSTableMeta) (t : SSTable) : Prop where
  built : t.Built t.entries
  sorted : SortedEntries t.entries
  first : ∃ x, t.entries.head? = some x ∧ m.firstKey = x.key.userKey
  last : ∃ y, t.entries.getLast? = some y ∧ m.lastKey = y.key.userKey
  keys : ∀ e ∈ t.entries, e.key.userKey ≠ []

def tableSet (files : ℕ → Option SSTable) (m : SSTableMeta) : Set Entry :=
  {e | ∃ t, files m.fileID = some t ∧ e ∈ t.entries}

def levelSet (v : Version) (files : ℕ → Option SSTable) (i : ℕ) : Set Entry :=
  {e | ∃ m ∈ v.levels i, e ∈ tableSet files m}

def tableVersions (v : Version) (files : ℕ → Option SSTable) : Set Entry :=
  {e | ∃ i, e ∈ levelSet v files i}

structure TablesOk (v : Version) (files : ℕ → Option SSTable) (maxLevel : ℕ) : Prop where
  ok : ∀ i, ∀ m ∈ v.levels i, m.level = i ∧ ∃ t, files m.fileID = some t ∧ TableOk m t
  ids : ∀ i j, ∀ m ∈ v.levels i, ∀ m' ∈ v.levels j, m.fileID = m'.fileID → m = m'
  l0 : (v.levels 0).Pairwise (fun a b => a.fileID < b.fileID)
  disjoint : ∀ i, i ≠ 0 → (v.levels i).Pairwise (fun a b => a.lastKey < b.firstKey)
  bound : ∀ i, maxLevel ≤ i → v.levels i = []

structure TablesShape (v : Version) (files : ℕ → Option SSTable) (maxLevel : ℕ) : Prop where
  ok : ∀ i, ∀ m ∈ v.levels i, m.level = i ∧ ∃ t, files m.fileID = some t ∧ TableShape m t
  ids : ∀ i j, ∀ m ∈ v.levels i, ∀ m' ∈ v.levels j, m.fileID = m'.fileID → m = m'
  l0 : (v.levels 0).Pairwise (fun a b => a.fileID < b.fileID)
  disjoint : ∀ i, i ≠ 0 → (v.levels i).Pairwise (fun a b => a.lastKey < b.firstKey)
  bound : ∀ i, maxLevel ≤ i → v.levels i = []

theorem TableOk.shape (h : TableOk m t) : TableShape m t :=
  ⟨h.built, h.sorted, h.first, h.last, fun e he => (h.entries_ok e he).key⟩

/-! ### Key ranges -/

theorem TableShape.range (h : TableShape m t) (he : e ∈ t.entries) :
    m.firstKey ≤ e.key.userKey ∧ e.key.userKey ≤ m.lastKey := by
  obtain ⟨x, hx, hfirst⟩ := h.first
  obtain ⟨y, hy, hlast⟩ := h.last
  refine ⟨?_, ?_⟩
  · rw [hfirst]
    obtain ⟨es, hes⟩ : ∃ es, t.entries = x :: es := by
      cases hc : t.entries with
      | nil => rw [hc] at hx; cases hx
      | cons a es => rw [hc] at hx; cases hx; exact ⟨es, rfl⟩
    rw [hes] at he
    exact (hes ▸ h.sorted).userKey_le he
  · rw [hlast]
    exact h.sorted.userKey_le_getLast hy e he

theorem TableShape.firstKey_le_lastKey (h : TableShape m t) : m.firstKey ≤ m.lastKey := by
  obtain ⟨x, hx, -⟩ := id h.first
  have hr := h.range (List.mem_of_mem_head? hx)
  exact hr.1.trans hr.2

theorem TableShape.lastKey_ne_nil (h : TableShape m t) : m.lastKey ≠ [] := by
  obtain ⟨y, hy, hlast⟩ := h.last
  rw [hlast]
  exact h.keys y (List.mem_of_getLast? hy)

theorem TableShape.firstKey_ne_nil (h : TableShape m t) : m.firstKey ≠ [] := by
  obtain ⟨x, hx, hfirst⟩ := h.first
  rw [hfirst]
  exact h.keys x (List.mem_of_mem_head? hx)

variable {v : Version} {files : ℕ → Option SSTable} {maxLevel : ℕ}

theorem TablesOk.shape (h : TablesOk v files maxLevel) : TablesShape v files maxLevel where
  ok i m hm := ⟨(h.ok i m hm).1, (h.ok i m hm).2.imp (fun _ ht => ⟨ht.1, ht.2.shape⟩)⟩
  ids := h.ids
  l0 := h.l0
  disjoint := h.disjoint
  bound := h.bound

theorem TablesShape.tablesOk (h : TablesShape v files maxLevel)
    (hok : ∀ e ∈ tableVersions v files, e.Ok) : TablesOk v files maxLevel where
  ok i m hm := by
    obtain ⟨hl, t, ht, hs⟩ := h.ok i m hm
    exact ⟨hl, t, ht, hs.built, hs.sorted, hs.first, hs.last,
      fun e he => hok e ⟨i, m, hm, t, ht, he⟩⟩
  ids := h.ids
  l0 := h.l0
  disjoint := h.disjoint
  bound := h.bound

theorem TablesOk.entries_ok (h : TablesOk v files maxLevel) (he : e ∈ tableVersions v files) :
    e.Ok := by
  obtain ⟨i, m, hm, t, ht, he⟩ := he
  obtain ⟨-, t', ht', hok⟩ := h.ok i m hm
  rw [ht] at ht'
  cases ht'
  exact hok.entries_ok e he

theorem TablesShape.table (h : TablesShape v files maxLevel) (hm : m ∈ v.levels i) :
    ∃ t, files m.fileID = some t ∧ TableShape m t := (h.ok i m hm).2

theorem TablesOk.table (h : TablesOk v files maxLevel) (hm : m ∈ v.levels i) :
    ∃ t, files m.fileID = some t ∧ TableOk m t := (h.ok i m hm).2

theorem TablesShape.range (h : TablesShape v files maxLevel) (hm : m ∈ v.levels i)
    (he : e ∈ tableSet files m) : m.firstKey ≤ e.key.userKey ∧ e.key.userKey ≤ m.lastKey := by
  obtain ⟨t, ht, hok⟩ := h.table hm
  obtain ⟨t', ht', he⟩ := he
  rw [ht] at ht'
  cases ht'
  exact hok.range he

theorem eq_of_range (hd : level.Pairwise (fun a b => a.lastKey < b.firstKey)) (ha : a ∈ level)
    (hb : b ∈ level) (hka : a.firstKey ≤ k ∧ k ≤ a.lastKey)
    (hkb : b.firstKey ≤ k ∧ k ≤ b.lastKey) : a = b := by
  by_contra hne
  have hd : level.Pairwise (fun a b => a.lastKey < b.firstKey ∨ b.lastKey < a.firstKey) :=
    hd.imp Or.inl
  have : Std.Symm (fun a b : SSTableMeta => a.lastKey < b.firstKey ∨ b.lastKey < a.firstKey) :=
    ⟨fun _ _ => Or.symm⟩
  rcases hd.forall ha hb hne with hlt | hlt
  · exact absurd (hlt.trans_le (hkb.1.trans hka.2)) (lt_irrefl _)
  · exact absurd (hlt.trans_le (hka.1.trans hkb.2)) (lt_irrefl _)

theorem TablesShape.sideBySide (h : TablesShape v files maxLevel) (hi : i ≠ 0) :
    (v.levels i).Pairwise (fun a b => a.firstKey ≤ b.firstKey) ∧
      ∀ m ∈ v.levels i, m.lastKey ≠ [] := by
  refine ⟨(h.disjoint i hi).imp_of_mem (fun ha _ hab => ?_), fun m hm => ?_⟩
  · obtain ⟨t, -, hok⟩ := h.table ha
    exact hok.firstKey_le_lastKey.trans hab.le
  · obtain ⟨t, -, hok⟩ := h.table hm
    exact hok.lastKey_ne_nil

theorem TablesShape.eq_of_holds (h : TablesShape v files maxLevel) (hi : i ≠ 0)
    (ha : a ∈ v.levels i) (hb : b ∈ v.levels i) {x y : Entry} (hx : x ∈ tableSet files a)
    (hy : y ∈ tableSet files b) (hxy : x.key.userKey = y.key.userKey) : a = b :=
  eq_of_range (h.disjoint i hi) ha hb (h.range ha hx) (hxy ▸ h.range hb hy)

/-! ### The level search -/

theorem findLevelCandidate_split {pre post : List SSTableMeta} (hpre : ∀ m ∈ pre, m.firstKey ≤ k)
    (hpost : ∀ m ∈ post, k < m.firstKey) :
    findLevelCandidate (pre ++ post) k =
      pre.getLast?.filter (fun c => !decide (c.lastKey ≠ [] ∧ c.lastKey < k)) := by
  have hidx : BinarySearch.searchList (fun m : SSTableMeta => decide (k < m.firstKey))
      (pre ++ post) = pre.length :=
    BinarySearch.searchList_append
      (fun m hm => decide_eq_false (not_lt.2 (hpre m hm))) (fun m hm => decide_eq_true (hpost m hm))
  unfold findLevelCandidate
  simp only [hidx]
  rcases List.eq_nil_or_concat pre with rfl | ⟨l, c, rfl⟩
  · rfl
  · simp only [List.concat_eq_append, List.length_append, List.length_singleton,
      Nat.add_one_ne_zero, if_false, Nat.add_sub_cancel, List.append_assoc, List.getLast?_concat]
    rw [List.getElem?_append_right (Nat.le_refl _)]
    simp only [Nat.sub_self, List.singleton_append, List.getElem?_cons_zero]
    by_cases hc : c.lastKey ≠ [] ∧ c.lastKey < k
    · rw [if_pos hc]
      simp [Option.filter, hc]
    · rw [if_neg hc]
      simp [Option.filter, hc]

theorem exists_split_firstKey (h : level.Pairwise (fun a b => a.firstKey ≤ b.firstKey))
    (k : Bytes) :
    ∃ pre post, level = pre ++ post ∧ (∀ m ∈ pre, m.firstKey ≤ k) ∧ ∀ m ∈ post, k < m.firstKey := by
  have hp : level.Pairwise (fun a b => decide (k < a.firstKey) = true →
      decide (k < b.firstKey) = true) :=
    h.imp (fun hab ha => decide_eq_true ((of_decide_eq_true ha).trans_le hab))
  obtain ⟨pre, post, hl, h1, h2⟩ := BinarySearch.exists_split hp
  exact ⟨pre, post, hl, fun m hm => not_lt.1 (of_decide_eq_false (h1 m hm)),
    fun m hm => of_decide_eq_true (h2 m hm)⟩

theorem findSome?_level (hsorted : level.Pairwise (fun a b => a.firstKey ≤ b.firstKey))
    (hd : level.Pairwise (fun a b => a.lastKey < b.firstKey))
    (hlast : ∀ m ∈ level, m.lastKey ≠ []) {g : SSTableMeta → Option α}
    (hg : ∀ m ∈ level, ¬ (m.firstKey ≤ k ∧ k ≤ m.lastKey) → g m = none) :
    level.findSome? g = (findLevelCandidate level k).bind g := by
  obtain ⟨pre, post, rfl, hpre, hpost⟩ := exists_split_firstKey hsorted k
  rw [findLevelCandidate_split hpre hpost]
  have hpostnone : post.findSome? g = none := by
    rw [List.findSome?_eq_none_iff]
    exact fun m hm => hg m (List.mem_append_right pre hm) (fun hc => absurd (hpost m hm)
      (not_lt.2 hc.1))
  rw [List.findSome?_append, hpostnone, Option.or_none]
  rcases List.eq_nil_or_concat pre with rfl | ⟨l, c, rfl⟩
  · rfl
  · rw [List.concat_eq_append] at *
    have hc : c ∈ (l ++ [c]) ++ post := by simp
    have hlnone : l.findSome? g = none := by
      rw [List.findSome?_eq_none_iff]
      intro m hm
      refine hg m (by simp [hm]) (fun hmk => ?_)
      -- a table before the last one ends before that one starts
      have hlt : m.lastKey < c.firstKey :=
        (List.pairwise_append.1 (List.pairwise_append.1 hd).1).2.2 m hm c
          (List.mem_singleton_self c)
      exact absurd (hlt.trans_le (hpre c (by simp))) (not_lt.2 hmk.2)
    rw [List.findSome?_append, hlnone, Option.none_or, List.getLast?_concat]
    simp only [List.findSome?_cons, List.findSome?_nil]
    by_cases hk : c.lastKey < k
    · have hnone : g c = none := hg c hc (fun hck => absurd hk (not_lt.2 hck.2))
      simp [Option.filter, hk, hlast c hc, hnone]
    · simp only [Option.filter, hk, and_false, decide_false, Bool.not_false, if_true,
        Option.bind_some]
      cases g c <;> rfl

/-! ### Lookups -/

/-- What a table that can be read knows about a key. -/
def tableGet (files : ℕ → Option SSTable) (m : SSTableMeta) (k : Bytes) : Option (Option Bytes) :=
  (files m.fileID).bind (fun t => (firstVersion t.entries k).map Entry.payload)

theorem TablesShape.tableGet_answers (h : TablesShape v files maxLevel) (hm : m ∈ v.levels i) :
    Answers (tableGet files m) (tableSet files m) := by
  obtain ⟨t, ht, hok⟩ := h.table hm
  have hset : tableSet files m = {e | e ∈ t.entries} := by
    ext e
    simp only [tableSet, Set.mem_ofPred_eq, ht, Option.some.injEq, exists_eq_left']
  have hget : tableGet files m = fun k => (firstVersion t.entries k).map Entry.payload := by
    funext k
    simp [tableGet, ht]
  rw [hset, hget]
  exact answers_firstVersion hok.sorted

theorem probe_eq_findSome {g : SSTableMeta → Option (Option Bytes)} {ms : List SSTableMeta}
    (h : ∀ m ∈ ms, ∃ t, readers m.fileID = some t ∧ t.get k s = .ok (g m)) :
    probe readers k s ms = .ok (ms.findSome? g) := by
  induction ms with
  | nil => rfl
  | cons m ms ih =>
    obtain ⟨t, ht, hg⟩ := h m List.mem_cons_self
    have ih := ih (fun x hx => h x (List.mem_cons_of_mem m hx))
    rw [probe, ht, List.findSome?_cons]
    simp only [hg]
    cases g m with
    | none => exact ih
    | some r => rfl

theorem TableShape.get_eq (h : TableShape m t)
    (hs : ∀ e ∈ t.entries, e.key.userKey = k → e.key.seqNo ≤ s) :
    t.get k s = .ok ((firstVersion t.entries k).map Entry.found) :=
  h.built.get_of_le h.sorted hs

theorem TableOk.get_eq (h : TableOk m t)
    (hs : ∀ e ∈ t.entries, e.key.userKey = k → e.key.seqNo ≤ s) :
    t.get k s = .ok ((firstVersion t.entries k).map Entry.payload) := by
  rw [h.shape.get_eq hs]
  congr 1
  cases hv : firstVersion t.entries k with
  | none => rfl
  | some e =>
    have he : e ∈ t.entries := List.mem_of_find?_eq_some hv
    simp only [Option.map_some]
    rw [Entry.found_eq_payload (h.entries_ok e he).value]

theorem tableGet_none_of_range (h : TablesShape v files maxLevel) (hm : m ∈ v.levels i)
    (hk : ¬ (m.firstKey ≤ k ∧ k ≤ m.lastKey)) : tableGet files m k = none := by
  obtain ⟨t, ht, hok⟩ := h.table hm
  have : firstVersion t.entries k = none :=
    firstVersion_none.2 (fun e he hek => hk (hek ▸ hok.range he))
  simp [tableGet, ht, this]

theorem mem_l0Desc {l : List SSTableMeta} : m ∈ l0Desc l ↔ m ∈ l :=
  List.mem_insertionSort _

theorem mem_scanOrder : m ∈ v.scanOrder ↔ ∃ i < maxLevels, m ∈ v.levels i := by
  simp only [Version.scanOrder, List.mem_append, mem_l0Desc, List.mem_flatMap, List.mem_range'_1]
  constructor
  · rintro (hm | ⟨i, hi, hm⟩)
    · exact ⟨0, by decide, hm⟩
    · exact ⟨i, by unfold maxLevels at *; omega, hm⟩
  · rintro ⟨i, hi, hm⟩
    rcases Nat.eq_zero_or_pos i with rfl | hpos
    · exact Or.inl hm
    · exact Or.inr ⟨i, by unfold maxLevels at *; omega, hm⟩

theorem findSome?_candidates (h : TablesShape v files maxLevel) {g : SSTableMeta → Option α}
    (hg : ∀ i, i ≠ 0 → ∀ m ∈ v.levels i, ¬ (m.firstKey ≤ k ∧ k ≤ m.lastKey) → g m = none) :
    (v.candidates k).findSome? g = v.scanOrder.findSome? g := by
  have hlevel : ∀ i, i ≠ 0 →
      (v.levels i).findSome? g = (findLevelCandidate (v.levels i) k).bind g := by
    intro i hi
    obtain ⟨hsorted, hlast⟩ := h.sideBySide hi
    exact findSome?_level hsorted (h.disjoint i hi) hlast (hg i hi)
  have hlist : ∀ l : List ℕ, (∀ i ∈ l, i ≠ 0) →
      (l.filterMap (fun i => findLevelCandidate (v.levels i) k)).findSome? g =
        (l.flatMap v.levels).findSome? g := by
    intro l
    induction l with
    | nil => intro _; rfl
    | cons i l ih =>
      intro hl
      have ih := ih (fun j hj => hl j (List.mem_cons_of_mem i hj))
      rw [List.flatMap_cons, List.findSome?_append, hlevel i (hl i List.mem_cons_self), ← ih,
        List.filterMap_cons]
      cases hc : findLevelCandidate (v.levels i) k with
      | none => simp
      | some c =>
        simp only [List.findSome?_cons, Option.bind_some]
        cases g c <;> rfl
  unfold Version.candidates Version.scanOrder
  rw [List.findSome?_append, List.findSome?_append,
    hlist _ (fun i hi => by have := List.mem_range'_1.1 hi; omega)]

theorem mem_candidates (hm : m ∈ v.candidates k) : ∃ i < maxLevels, m ∈ v.levels i := by
  simp only [Version.candidates, List.mem_append, mem_l0Desc, List.mem_filterMap,
    List.mem_range'_1] at hm
  rcases hm with hm | ⟨i, hi, hc⟩
  · exact ⟨0, by decide, hm⟩
  · refine ⟨i, by unfold maxLevels at *; omega, ?_⟩
    unfold findLevelCandidate at hc
    simp only at hc
    split at hc
    · cases hc
    · split at hc
      · cases hc
      · rename_i c hget
        split at hc
        · cases hc
        · cases hc
          exact List.mem_of_getElem? hget

/-- **A table lookup at a snapshot that covers every version asks all tables in order**, and takes
an empty value for a deletion. -/
theorem TablesShape.probe_eq (h : TablesShape v files maxLevel)
    (hr : ∀ i, ∀ m ∈ v.levels i, readers m.fileID = files m.fileID)
    (hs : ∀ e ∈ tableVersions v files, e.key.userKey = k → e.key.seqNo ≤ s) :
    probe readers k s (v.candidates k) =
      .ok ((firstHit (v.scanOrder.map (tableGet files)) k).map fun r => r.bind goValue) := by
  have hprobe : probe readers k s (v.candidates k) = .ok ((v.candidates k).findSome?
      (fun m => (tableGet files m k).map fun r => r.bind goValue)) := by
    refine probe_eq_findSome (fun m hm => ?_)
    obtain ⟨i, -, hmi⟩ := mem_candidates hm
    obtain ⟨t, ht, hok⟩ := h.table hmi
    refine ⟨t, (hr i m hmi).trans ht, ?_⟩
    rw [hok.get_eq (fun e he => hs e ⟨i, m, hmi, t, ht, he⟩)]
    have hfound : Entry.found = fun e => e.payload.bind goValue := funext Entry.found_eq
    rw [hfound]
    simp [tableGet, ht, Function.comp_def]
  have hall : (v.candidates k).findSome? (fun m => tableGet files m k) =
      v.scanOrder.findSome? (fun m => tableGet files m k) :=
    findSome?_candidates h (fun i _ m hm hk => tableGet_none_of_range h hm hk)
  rw [hprobe, firstHit, List.findSome?_map]
  exact congrArg Except.ok (List.map_findSome?.symm.trans (congrArg _ hall))

theorem probe_eq (h : TablesOk v files maxLevel)
    (hr : ∀ i, ∀ m ∈ v.levels i, readers m.fileID = files m.fileID)
    (hs : ∀ e ∈ tableVersions v files, e.key.userKey = k → e.key.seqNo ≤ s) :
    probe readers k s (v.candidates k) =
      .ok (firstHit (v.scanOrder.map (tableGet files)) k) := by
  rw [h.shape.probe_eq hr hs]
  congr 1
  cases hit : firstHit (v.scanOrder.map (tableGet files)) k with
  | none => rfl
  | some r =>
    -- the entry that is found has no empty value
    rw [firstHit, List.findSome?_map] at hit
    obtain ⟨m, hm, hget⟩ := List.exists_of_findSome?_eq_some hit
    obtain ⟨i, -, hmi⟩ := mem_scanOrder.1 hm
    obtain ⟨t, ht, hok⟩ := h.table hmi
    simp only [Function.comp_apply, tableGet, ht, Option.bind_some, Option.map_eq_some_iff] at hget
    obtain ⟨e, he, rfl⟩ := hget
    have hvalue := (hok.entries_ok e (List.mem_of_find?_eq_some he)).value
    rw [Option.map_some, ← Entry.found_eq, Entry.found_eq_payload hvalue]

end LsmTree
