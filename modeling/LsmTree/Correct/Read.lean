import LsmTree.Correct.Tables

/-!
# Point lookups return the represented map

The layers of an engine, newest first: the memtable, the immutable memtables, the level-0 tables and
the deeper levels.  If each layer dominates the ones below it (`Readable`), a lookup returns what
the versions of all layers together mean (`Readable.get`).
-/

namespace LsmTree

open Versioned

/-- The table layers: each level-0 table, newest first, and each deeper level. -/
def levelLayers (v : Version) (files : ℕ → Option SSTable) : List (Set Entry) :=
  (l0Desc (v.levels 0)).map (tableSet files) ++
    (List.range' 1 (maxLevels - 1)).map (levelSet v files)

/-- The tables as layers of their own, in the order they are asked. -/
def tableLayers (v : Version) (files : ℕ → Option SSTable) : List (Set Entry) :=
  v.scanOrder.map (tableSet files)

def LSMEngine.mems (e : LSMEngine) : List MemTable :=
  e.memTable :: e.immutables.reverse.map ImmutableMemtable.table

def LSMEngine.memLayers (e : LSMEngine) : List (Set Entry) := e.mems.map MemTable.versions

def LSMEngine.files (e : LSMEngine) : ℕ → Option SSTable := fun id => e.dir.ssts.lookup id

def LSMEngine.layers (e : LSMEngine) : List (Set Entry) :=
  e.memLayers ++ levelLayers e.current e.files

section Layers

variable {v : Version} {files : ℕ → Option SSTable} {maxLevel : ℕ}

variable {i : ℕ} {a : SSTableMeta}

theorem mem_union_levelLayers {x : Entry} :
    x ∈ union (levelLayers v files) ↔ ∃ i < maxLevels, x ∈ levelSet v files i := by
  rw [levelLayers, union_append]
  simp only [Set.mem_union, union, Set.mem_ofPred_eq, List.mem_map, mem_l0Desc, List.mem_range'_1]
  constructor
  · rintro (⟨A, ⟨t, ht, rfl⟩, hx⟩ | ⟨A, ⟨i, hi, rfl⟩, hx⟩)
    · exact ⟨0, by decide, t, ht, hx⟩
    · exact ⟨i, by unfold maxLevels at *; omega, hx⟩
  · rintro ⟨i, hi, hx⟩
    rcases Nat.eq_zero_or_pos i with rfl | hpos
    · obtain ⟨t, ht, hx⟩ := hx
      exact Or.inl ⟨_, ⟨t, ht, rfl⟩, hx⟩
    · exact Or.inr ⟨_, ⟨i, by unfold maxLevels at *; omega, rfl⟩, hx⟩

theorem TablesShape.union_levelLayers (h : TablesShape v files maxLevel)
    (hmax : maxLevel ≤ maxLevels) : union (levelLayers v files) = tableVersions v files := by
  ext x
  rw [mem_union_levelLayers]
  constructor
  · rintro ⟨i, -, hx⟩
    exact ⟨i, hx⟩
  · rintro ⟨i, t, ht, hx⟩
    refine ⟨i, ?_, t, ht, hx⟩
    by_contra hi
    rw [h.bound i (hmax.trans (not_lt.1 hi))] at ht
    cases ht

theorem union_tableLayers : union (tableLayers v files) = union (levelLayers v files) := by
  ext x
  rw [mem_union_levelLayers]
  simp only [tableLayers, union, Set.mem_ofPred_eq, List.mem_map, mem_scanOrder]
  constructor
  · rintro ⟨A, ⟨t, ⟨i, hi, ht⟩, rfl⟩, hx⟩
    exact ⟨i, hi, t, ht, hx⟩
  · rintro ⟨i, hi, t, ht, hx⟩
    exact ⟨_, ⟨t, ⟨i, hi, ht⟩, rfl⟩, hx⟩

theorem TablesShape.dominates_table (h : TablesShape v files maxLevel) (hi : i ≠ 0)
    (ha : a ∈ v.levels i) {B : Set Entry} (hd : Dominates (levelSet v files i) B) :
    Dominates (tableSet files a) B := by
  rintro b hb ⟨x, hx, hxk⟩
  obtain ⟨y, ⟨a', ha', hy⟩, hyk, hs⟩ := hd b hb ⟨x, ⟨a, ha, hx⟩, hxk⟩
  have : a = a' := h.eq_of_holds hi ha ha' hx hy (hxk.trans hyk.symm)
  subst this
  exact ⟨y, hy, hyk, hs⟩

theorem TablesShape.dominates_sibling {b : SSTableMeta} (h : TablesShape v files maxLevel)
    (ha : a ∈ v.levels i) (hb : b ∈ v.levels i) (hab : a.lastKey < b.firstKey) :
    Dominates (tableSet files a) (tableSet files b) := by
  rintro y hy ⟨x, hx, hxk⟩
  have h1 := (h.range ha hx).2
  have h2 := (h.range hb hy).1
  rw [show x.key.userKey = y.key.userKey from hxk] at h1
  exact absurd (h1.trans_lt (hab.trans_le h2)) (lt_irrefl _)

theorem tableSet_subset_levelSet (ha : a ∈ v.levels i) :
    tableSet files a ⊆ levelSet v files i := fun _ hx => ⟨a, ha, hx⟩

theorem TablesShape.ordered_tableLayers (h : TablesShape v files maxLevel) {U : List (Set Entry)}
    (ho : Ordered (U ++ levelLayers v files)) : Ordered (U ++ tableLayers v files) := by
  unfold Ordered levelLayers tableLayers Version.scanOrder at *
  rw [List.map_append]
  obtain ⟨hU, hL, hUL⟩ := List.pairwise_append.1 ho
  obtain ⟨h0, hrest, h0rest⟩ := List.pairwise_append.1 hL
  have hpos : ∀ i ∈ List.range' 1 (maxLevels - 1), i ≠ 0 := fun i hi => by
    have := List.mem_range'_1.1 hi; omega
  refine List.pairwise_append.2 ⟨hU, List.pairwise_append.2 ⟨h0, ?_, ?_⟩, ?_⟩
  · rw [List.pairwise_map, List.pairwise_flatMap]
    refine ⟨fun i hi => ?_, ?_⟩
    · exact (h.disjoint i (hpos i hi)).imp_of_mem (fun ha hb hab => h.dominates_sibling ha hb hab)
    · rw [List.pairwise_map] at hrest
      refine hrest.imp_of_mem (fun {i j} hi _ hij a ha b hb => ?_)
      exact (h.dominates_table (hpos i hi) ha hij).mono_right (tableSet_subset_levelSet hb)
  · intro A hA B hB
    obtain ⟨b, hb, rfl⟩ := List.mem_map.1 hB
    obtain ⟨j, hj, hb⟩ := List.mem_flatMap.1 hb
    exact (h0rest A hA _ (List.mem_map_of_mem hj)).mono_right (tableSet_subset_levelSet hb)
  · intro A hA B hB
    rcases List.mem_append.1 hB with hB | hB
    · exact hUL A hA B (List.mem_append_left _ hB)
    · obtain ⟨b, hb, rfl⟩ := List.mem_map.1 hB
      obtain ⟨j, hj, hb⟩ := List.mem_flatMap.1 hb
      exact (hUL A hA _ (List.mem_append_right _ (List.mem_map_of_mem hj))).mono_right
        (tableSet_subset_levelSet hb)

end Layers

/-- Layers `U` over the tables of a version that together mean the map `m`: the tables are
well-formed, the layers are ordered, and a stamp stands for one version only. -/
structure Layered (U : List (Set Entry)) (v : Version) (files : ℕ → Option SSTable) (maxLevel : ℕ)
    (m : Bytes → Option Bytes) : Prop where
  maxLevel_le : maxLevel ≤ maxLevels
  tables : TablesOk v files maxLevel
  mem_ok : ∀ x ∈ union U, x.Ok
  ordered : Ordered (U ++ levelLayers v files)
  agrees : Agrees (union (U ++ levelLayers v files))
  represents : Represents (union (U ++ levelLayers v files)) m

/-- The same without a condition on values: scans return empty values like any other. -/
structure LayeredShape (U : List (Set Entry)) (v : Version) (files : ℕ → Option SSTable)
    (maxLevel : ℕ) (m : Bytes → Option Bytes) : Prop where
  maxLevel_le : maxLevel ≤ maxLevels
  tables : TablesShape v files maxLevel
  keys : ∀ x ∈ union U, x.key.userKey ≠ []
  ordered : Ordered (U ++ levelLayers v files)
  agrees : Agrees (union (U ++ levelLayers v files))
  represents : Represents (union (U ++ levelLayers v files)) m

/-- A state in which reads return the map `m`. -/
structure Readable (e : LSMEngine) (m : Bytes → Option Bytes) : Prop extends
    Layered e.memLayers e.current e.files e.cfg.maxLevel m where
  readers : ∀ i, ∀ t ∈ e.current.levels i, e.tc.readerOf t.fileID = e.files t.fileID
  seq_le : ∀ x ∈ union e.layers, x.key.seqNo ≤ e.seqNo

def lookupResult : Option Bytes → Except EngineError Bytes
  | some v => .ok v
  | none => .error .notFound

theorem getResult_ok (r : Option (Option Bytes)) :
    getResult (.ok r) = lookupResult (r.getD none) := by
  rcases r with _ | _ | v <;> rfl

variable {e : LSMEngine} {m : Bytes → Option Bytes}

theorem memGet_eq (e : LSMEngine) (k : Bytes) :
    e.memGet k = firstHit (e.mems.map MemTable.get) k := by
  unfold LSMEngine.memGet firstHit LSMEngine.mems
  rw [List.findSome?_map]
  rfl

/-- The lookups of memtables and then of tables, table by table. -/
def layerGets (ts : List MemTable) (v : Version) (files : ℕ → Option SSTable) :
    List (Bytes → Option (Option Bytes)) :=
  ts.map MemTable.get ++ v.scanOrder.map (tableGet files)

theorem forall₂_map {α β γ : Type*} {f : α → β} {g : α → γ} {R : β → γ → Prop} {l : List α}
    (h : ∀ a ∈ l, R (f a) (g a)) : List.Forall₂ R (l.map f) (l.map g) := by
  induction l with
  | nil => exact List.Forall₂.nil
  | cons a l ih =>
    exact List.Forall₂.cons (h a List.mem_cons_self)
      (ih (fun x hx => h x (List.mem_cons_of_mem a hx)))

section Shape

variable {U : List (Set Entry)} {v : Version} {files : ℕ → Option SSTable} {maxLevel : ℕ}

variable {x : Entry} {ts : List MemTable}

theorem Layered.shape (h : Layered U v files maxLevel m) : LayeredShape U v files maxLevel m :=
  ⟨h.maxLevel_le, h.tables.shape, fun x hx => (h.mem_ok x hx).key, h.ordered, h.agrees,
    h.represents⟩

theorem Layered.ok (h : Layered U v files maxLevel m) (hx : x ∈ union (U ++ levelLayers v files)) :
    x.Ok := by
  rw [union_append, h.tables.shape.union_levelLayers h.maxLevel_le] at hx
  exact hx.elim (h.mem_ok x) h.tables.entries_ok

theorem LayeredShape.layered (h : LayeredShape U v files maxLevel m)
    (hok : ∀ x ∈ union (U ++ levelLayers v files), x.Ok) : Layered U v files maxLevel m := by
  rw [union_append, h.tables.union_levelLayers h.maxLevel_le] at hok
  exact ⟨h.maxLevel_le, h.tables.tablesOk (fun x hx => hok x (Or.inr hx)),
    fun x hx => hok x (Or.inl hx), h.ordered, h.agrees, h.represents⟩

theorem TablesShape.answers_layers (h : TablesShape v files maxLevel)
    (ho : Ordered (ts.map MemTable.versions ++ levelLayers v files)) :
    Answers (Versioned.firstHit (layerGets ts v files))
      (union (ts.map MemTable.versions ++ levelLayers v files)) := by
  have hset : union (ts.map MemTable.versions ++ levelLayers v files) =
      union (ts.map MemTable.versions ++ tableLayers v files) := by
    rw [union_append, union_append, union_tableLayers]
  rw [hset]
  refine Answers.firstHit (List.rel_append ?_ ?_) (h.ordered_tableLayers ho)
  · exact forall₂_map (fun t _ => t.get_answers)
  · refine forall₂_map (fun t ht => ?_)
    obtain ⟨i, -, hti⟩ := mem_scanOrder.1 ht
    exact h.tableGet_answers hti

/-- **Layers of memtables over tables answer with the map they mean.** -/
theorem LayeredShape.firstHit (h : LayeredShape (ts.map MemTable.versions) v files maxLevel m)
    (k : Bytes) : (firstHit (layerGets ts v files) k).getD none = m k :=
  (h.tables.answers_layers h.ordered).eq_of_represents h.agrees h.represents k

end Shape

theorem firstHit_layerGets (ts : List MemTable) (v : Version) (files : ℕ → Option SSTable)
    (k : Bytes) : firstHit (layerGets ts v files) k =
      (firstHit (ts.map MemTable.get) k).or (firstHit (v.scanOrder.map (tableGet files)) k) := by
  unfold layerGets Versioned.firstHit
  exact List.findSome?_append

theorem Readable.seq_tables (h : Readable e m) :
    ∀ x ∈ tableVersions e.current e.files, x.key.seqNo ≤ e.seqNo := by
  intro x hx
  rw [← h.tables.shape.union_levelLayers h.maxLevel_le] at hx
  exact h.seq_le x (by rw [LSMEngine.layers, union_append]; exact Or.inr hx)

theorem Readable.get_eq_firstHit (h : Readable e m) (k : Bytes) :
    (e.get k).1 = lookupResult ((firstHit (layerGets e.mems e.current e.files) k).getD none) := by
  rw [get_fst, ← getResult_ok, memGet_eq, firstHit_layerGets,
    probe_eq h.tables h.readers (fun x hx _ => h.seq_tables x hx)]
  cases firstHit (e.mems.map MemTable.get) k <;> rfl

/-- **A lookup returns what the represented map says.** -/
theorem Readable.get (h : Readable e m) (k : Bytes) : (e.get k).1 = lookupResult (m k) := by
  rw [h.get_eq_firstHit, LayeredShape.firstHit h.toLayered.shape]

end LsmTree
