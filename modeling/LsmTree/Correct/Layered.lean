import LsmTree.Correct.Compact

/-!
# Steps of layered states

What writing, rotating, flushing and compacting do to the layers over a version, apart from the
engine that carries them out.  The same steps are taken by the layers in memory and, on disk, by the
versions in the logs.
-/

namespace LsmTree

open Versioned

variable {U : List (Set Entry)} {v v' : Version} {files files' : ℕ → Option SSTable} {maxLevel : ℕ}
  {m : Bytes → Option Bytes}

variable {L U' : List (Set Entry)} {S : Set Entry} {es : List Entry} {t : SSTableMeta} {f : SSTable}
  {ins : List SSTableMeta} {outs : List (SSTableMeta × SSTable)}

/-! ### Changes that do not touch the tables -/

theorem TablesShape.congr (h : TablesShape v files maxLevel) (hl : v'.levels = v.levels)
    (hf : ∀ i, ∀ t ∈ v.levels i, files' t.fileID = files t.fileID) :
    TablesShape v' files' maxLevel := by
  refine ⟨fun i t ht => ?_, ?_, ?_, ?_, ?_⟩
  · rw [hl] at ht
    rw [hf i t ht]
    exact h.ok i t ht
  all_goals rw [hl]
  · exact h.ids
  · exact h.l0
  · exact h.disjoint
  · exact h.bound

theorem tableVersions_congr (hl : v'.levels = v.levels)
    (hf : ∀ i, ∀ t ∈ v.levels i, files' t.fileID = files t.fileID) :
    tableVersions v' files' = tableVersions v files := by
  unfold tableVersions levelSet tableSet
  rw [hl]
  ext x
  constructor <;> rintro ⟨i, t, ht, f, hx⟩
  · exact ⟨i, t, ht, f, hf i t ht ▸ hx⟩
  · exact ⟨i, t, ht, f, (hf i t ht).symm ▸ hx⟩

theorem levelLayers_congr (hl : v'.levels = v.levels)
    (hf : ∀ i, ∀ t ∈ v.levels i, files' t.fileID = files t.fileID) :
    levelLayers v' files' = levelLayers v files := by
  have htable : ∀ i, ∀ t ∈ v.levels i, tableSet files' t = tableSet files t := fun i t ht => by
    unfold tableSet
    rw [hf i t ht]
  unfold levelLayers levelSet
  rw [hl]
  congr 1
  · exact List.map_congr_left (fun t ht => htable 0 t (mem_l0Desc.1 ht))
  · refine List.map_congr_left (fun i _ => ?_)
    ext x
    constructor <;> rintro ⟨t, ht, hx⟩
    · exact ⟨t, ht, htable i t ht ▸ hx⟩
    · exact ⟨t, ht, (htable i t ht).symm ▸ hx⟩

theorem LayeredShape.congr (h : LayeredShape U v files maxLevel m) (hl : v'.levels = v.levels)
    (hf : ∀ i, ∀ t ∈ v.levels i, files' t.fileID = files t.fileID) :
    LayeredShape U v' files' maxLevel m := by
  have hlayers := levelLayers_congr hl hf
  exact ⟨h.maxLevel_le, h.tables.congr hl hf, h.keys, hlayers ▸ h.ordered, hlayers ▸ h.agrees,
    hlayers ▸ h.represents⟩

theorem Layered.congr (h : Layered U v files maxLevel m) (hl : v'.levels = v.levels)
    (hf : ∀ i, ∀ t ∈ v.levels i, files' t.fileID = files t.fileID) :
    Layered U v' files' maxLevel m := by
  refine (h.shape.congr hl hf).layered (fun x hx => h.ok ?_)
  rw [levelLayers_congr hl hf] at hx
  exact hx

theorem union_insert_empty : union (U ++ ∅ :: U' ++ L) = union (U ++ U' ++ L) := by
  simp only [union_append, union_cons, Set.empty_union]

theorem LayeredShape.insert_empty {U' : List (Set Entry)}
    (h : LayeredShape (U ++ U') v files maxLevel m) :
    LayeredShape (U ++ ∅ :: U') v files maxLevel m := by
  have hU : union (U ++ ∅ :: U') = union (U ++ U') := by simp
  refine ⟨h.maxLevel_le, h.tables, by rw [hU]; exact h.keys, ?_,
    by rw [union_insert_empty]; exact h.agrees, by rw [union_insert_empty]; exact h.represents⟩
  have ho := h.ordered
  unfold Ordered at ho ⊢
  rw [List.append_assoc] at ho ⊢
  obtain ⟨h1, h2, h3⟩ := List.pairwise_append.1 ho
  refine List.pairwise_append.2 ⟨h1, List.pairwise_cons.2 ⟨fun B _ => Dominates.empty_left B, h2⟩,
    fun A hA B hB => ?_⟩
  rcases List.mem_cons.1 hB with rfl | hB
  · exact Dominates.empty_right A
  · exact h3 A hA B hB

theorem Layered.insert_empty {U' : List (Set Entry)} (h : Layered (U ++ U') v files maxLevel m) :
    Layered (U ++ ∅ :: U') v files maxLevel m :=
  h.shape.insert_empty.layered (fun _ hx => h.ok (union_insert_empty ▸ hx))

theorem Layered.remove_empty (h : Layered (U ++ ∅ :: U') v files maxLevel m) :
    Layered (U ++ U') v files maxLevel m := by
  have hU : union (U ++ ∅ :: U') = union (U ++ U') := by simp
  refine ⟨h.maxLevel_le, h.tables, by rw [← hU]; exact h.mem_ok, ?_,
    by rw [← union_insert_empty]; exact h.agrees, by rw [← union_insert_empty]; exact h.represents⟩
  refine h.ordered.sublist (List.Sublist.append ?_ (List.Sublist.refl _))
  exact List.Sublist.append (List.Sublist.refl _) (List.sublist_cons_self ∅ U')

/-! ### Writes -/

theorem union_write {N : Set Entry} : union ((S ∪ N) :: U ++ L) = union (S :: U ++ L) ∪ N := by
  simp only [List.cons_append, union_cons]
  rw [Set.union_right_comm]

/-- **A write.** Newer versions with rising stamps go into the top layer. -/
theorem LayeredShape.write (h : LayeredShape (S :: U) v files maxLevel m)
    (hkeys : ∀ e ∈ es, e.key.userKey ≠ [])
    (hes : es.Pairwise (fun a b => a.key.seqNo < b.key.seqNo))
    (hnew : ∀ x ∈ union (S :: U ++ levelLayers v files), ∀ e ∈ es, x.key.seqNo < e.key.seqNo) :
    LayeredShape ((S ∪ {e | e ∈ es}) :: U) v files maxLevel (overlay es m) := by
  refine ⟨h.maxLevel_le, h.tables, ?_, ?_, ?_, ?_⟩
  · rintro x hx
    rw [union_cons] at hx
    rcases hx with (hx | hx) | hx
    · exact h.keys x (by rw [union_cons]; exact Or.inl hx)
    · exact hkeys x hx
    · exact h.keys x (by rw [union_cons]; exact Or.inr hx)
  · obtain ⟨htop, hrest⟩ := List.pairwise_cons.1 h.ordered
    refine List.pairwise_cons.2 ⟨fun B hB => (htop B hB).union_left ?_, hrest⟩
    exact Dominates.of_seq_le fun a ha b hb =>
      (hnew b ⟨B, List.mem_cons_of_mem S hB, hb⟩ a ha).le
  · rw [union_write]
    exact h.agrees.newer hes hnew
  · rw [union_write]
    exact h.represents.overlay (hes.imp (fun hab => le_of_lt hab))
      (fun x hx e he => (hnew x hx e he).le)

theorem Layered.write (h : Layered (S :: U) v files maxLevel m) (hok : ∀ e ∈ es, e.Ok)
    (hes : es.Pairwise (fun a b => a.key.seqNo < b.key.seqNo))
    (hnew : ∀ x ∈ union (S :: U ++ levelLayers v files), ∀ e ∈ es, x.key.seqNo < e.key.seqNo) :
    Layered ((S ∪ {e | e ∈ es}) :: U) v files maxLevel (overlay es m) := by
  refine (h.shape.write (fun e he => (hok e he).key) hes hnew).layered (fun x hx => ?_)
  rw [union_write] at hx
  exact hx.elim h.ok (hok x)

/-! ### Flushes -/

structure AddsTable (v v' : Version) (t : SSTableMeta) : Prop where
  l0 : v'.levels 0 = v.levels 0 ++ [t]
  rest : ∀ j, j ≠ 0 → v'.levels j = v.levels j

theorem l0Desc_append {l : List SSTableMeta} (h : ∀ x ∈ l, x.fileID < t.fileID) :
    l0Desc (l ++ [t]) = t :: l0Desc l := by
  unfold l0Desc
  induction l with
  | nil => rfl
  | cons x l ih =>
    rw [List.cons_append, List.insertionSort_cons,
      ih (fun y hy => h y (List.mem_cons_of_mem x hy)), List.orderedInsert_cons,
      if_neg (not_le.2 (h x List.mem_cons_self)), List.insertionSort_cons]

theorem AddsTable.mem {x : SSTableMeta} (h : AddsTable v v' t) {j : ℕ} :
    x ∈ v'.levels j ↔ x ∈ v.levels j ∨ (j = 0 ∧ x = t) := by
  by_cases hj : j = 0
  · subst hj
    rw [h.l0, List.mem_append, List.mem_singleton]
    simp
  · rw [h.rest j hj]
    simp [hj]

theorem AddsTable.levelLayers {t : SSTableMeta} (h : AddsTable v v' t)
    (hid : ∀ x ∈ v.levels 0, x.fileID < t.fileID) :
    levelLayers v' files = tableSet files t :: levelLayers v files := by
  unfold LsmTree.levelLayers
  rw [h.l0, l0Desc_append hid, List.map_cons, List.cons_append]
  congr 2
  refine List.map_congr_left (fun j hj => ?_)
  have := (List.mem_range'_1.1 hj).1
  unfold levelSet
  rw [h.rest j (by omega)]

theorem TablesShape.addTable (h : TablesShape v files maxLevel) (hadd : AddsTable v v' t)
    (hmax : 0 < maxLevel) (hlevel : t.level = 0) (hf : files t.fileID = some f)
    (hok : TableShape t f) (hid : ∀ j, ∀ x ∈ v.levels j, x.fileID ≠ t.fileID)
    (hid0 : ∀ x ∈ v.levels 0, x.fileID < t.fileID) : TablesShape v' files maxLevel := by
  refine ⟨fun j x hx => ?_, fun i j x hx y hy hxy => ?_, ?_, fun j hj => ?_, fun j hj => ?_⟩
  · rcases hadd.mem.1 hx with hx | ⟨rfl, rfl⟩
    · exact h.ok j x hx
    · exact ⟨hlevel, f, hf, hok⟩
  · rcases hadd.mem.1 hx with hx | ⟨-, rfl⟩ <;> rcases hadd.mem.1 hy with hy | ⟨-, rfl⟩
    · exact h.ids i j x hx y hy hxy
    · exact absurd hxy (hid i x hx)
    · exact absurd hxy.symm (hid j y hy)
    · rfl
  · rw [hadd.l0, List.pairwise_append]
    refine ⟨h.l0, List.pairwise_singleton _ _, fun x hx y hy => ?_⟩
    rw [List.mem_singleton.1 hy]
    exact hid0 x hx
  · rw [hadd.rest j hj]
    exact h.disjoint j hj
  · rw [hadd.rest j (by omega)]
    exact h.bound j hj

theorem AddsTable.union_layers (h : AddsTable v v' t) (hf : files t.fileID = some f)
    (hid0 : ∀ x ∈ v.levels 0, x.fileID < t.fileID) (hsub : {x | x ∈ f.entries} ⊆ union U) :
    LsmTree.levelLayers v' files = {x | x ∈ f.entries} :: LsmTree.levelLayers v files ∧
      union (U ++ LsmTree.levelLayers v' files) = union (U ++ LsmTree.levelLayers v files) := by
  have htable : tableSet files t = {x | x ∈ f.entries} := by
    ext x
    simp [tableSet, hf]
  have hlayers := @AddsTable.levelLayers v v' files t h hid0
  rw [htable] at hlayers
  refine ⟨hlayers, ?_⟩
  rw [hlayers, union_append, union_append, union_cons, ← Set.union_assoc,
    Set.union_eq_self_of_subset_right hsub]

/-- **A flushed table.** It holds versions of the layers above, each of which is newer than it or
does not compete, and is itself newer than the tables. -/
theorem LayeredShape.addTable (h : LayeredShape U v files maxLevel m) (hadd : AddsTable v v' t)
    (hmax : 0 < maxLevel) (hlevel : t.level = 0) (hf : files t.fileID = some f)
    (hok : TableShape t f) (hid : ∀ j, ∀ x ∈ v.levels j, x.fileID ≠ t.fileID)
    (hid0 : ∀ x ∈ v.levels 0, x.fileID < t.fileID) (hsub : {x | x ∈ f.entries} ⊆ union U)
    (habove : ∀ A ∈ U, Dominates A {x | x ∈ f.entries})
    (hbelow : Dominates {x | x ∈ f.entries} (union (levelLayers v files))) :
    LayeredShape U v' files maxLevel m := by
  obtain ⟨hlayers, hset⟩ := hadd.union_layers hf hid0 hsub
  refine ⟨h.maxLevel_le, h.tables.addTable hadd hmax hlevel hf hok hid hid0, h.keys, ?_,
    hset ▸ h.agrees, hset ▸ h.represents⟩
  obtain ⟨h1, h2, h3⟩ := List.pairwise_append.1 h.ordered
  rw [hlayers]
  refine List.pairwise_append.2 ⟨h1, List.pairwise_cons.2 ⟨fun B hB => ?_, h2⟩, fun A hA B hB => ?_⟩
  · exact hbelow.mono_right (fun x hx => ⟨B, hB, hx⟩)
  · rcases List.mem_cons.1 hB with rfl | hB
    · exact habove A hA
    · exact h3 A hA B hB

theorem Layered.addTable (h : Layered U v files maxLevel m) (hadd : AddsTable v v' t)
    (hmax : 0 < maxLevel) (hlevel : t.level = 0) (hf : files t.fileID = some f) (hok : TableOk t f)
    (hid : ∀ j, ∀ x ∈ v.levels j, x.fileID ≠ t.fileID)
    (hid0 : ∀ x ∈ v.levels 0, x.fileID < t.fileID) (hsub : {x | x ∈ f.entries} ⊆ union U)
    (habove : ∀ A ∈ U, Dominates A {x | x ∈ f.entries})
    (hbelow : Dominates {x | x ∈ f.entries} (union (levelLayers v files))) :
    Layered U v' files maxLevel m := by
  obtain ⟨-, hset⟩ := hadd.union_layers hf hid0 hsub
  exact (h.shape.addTable hadd hmax hlevel hf hok.shape hid hid0 hsub habove hbelow).layered
    (fun x hx => h.ok (hset ▸ hx))

/-- **A flushed memtable can go**: its versions are in the tables. -/
theorem LayeredShape.retire {S : Set Entry} {U' : List (Set Entry)}
    (h : LayeredShape (U ++ S :: U') v files maxLevel m) (hsub : S ⊆ union (levelLayers v files)) :
    LayeredShape (U ++ U') v files maxLevel m := by
  have hset : union (U ++ S :: U' ++ levelLayers v files) = union
      (U ++ U' ++ levelLayers v files) := by
    simp only [union_append, union_cons]
    ext x
    have := @hsub x
    simp only [Set.mem_union]
    tauto
  have hsl : (U ++ U').Sublist (U ++ S :: U') :=
    List.Sublist.append (List.Sublist.refl _) (List.sublist_cons_self S U')
  refine ⟨h.maxLevel_le, h.tables, fun x hx => h.keys x ?_,
    h.ordered.sublist (List.Sublist.append hsl (List.Sublist.refl _)), hset ▸ h.agrees,
    hset ▸ h.represents⟩
  obtain ⟨A, hA, hxA⟩ := hx
  exact ⟨A, hsl.subset hA, hxA⟩

theorem Layered.retire {S : Set Entry} {U' : List (Set Entry)}
    (h : Layered (U ++ S :: U') v files maxLevel m) (hsub : S ⊆ union (levelLayers v files)) :
    Layered (U ++ U') v files maxLevel m := by
  refine (h.shape.retire hsub).layered (fun x hx => h.ok ?_)
  obtain ⟨A, hA, hxA⟩ := hx
  exact ⟨A, ((List.sublist_cons_self S U').append_left U).append_right _ |>.subset hA, hxA⟩

theorem Layered.drop (h : Layered (U ++ S :: U') v files maxLevel m)
    (hheld : ∀ x ∈ S, Holds (union U) x.key.userKey) : Layered (U ++ U') v files maxLevel m := by
  have hsl : (U ++ U').Sublist (U ++ S :: U') :=
    List.Sublist.append (List.Sublist.refl _) (List.sublist_cons_self S U')
  have hsub : union (U ++ U' ++ levelLayers v files) ⊆ union
      (U ++ S :: U' ++ levelLayers v files) := by
    rintro x ⟨A, hA, hx⟩
    exact ⟨A, (List.Sublist.append hsl (List.Sublist.refl _)).subset hA, hx⟩
  refine ⟨h.maxLevel_le, h.tables, fun x hx => h.mem_ok x ?_,
    h.ordered.sublist (List.Sublist.append hsl (List.Sublist.refl _)), h.agrees.mono hsub, ?_⟩
  · obtain ⟨A, hA, hxA⟩ := hx
    exact ⟨A, hsl.subset hA, hxA⟩
  · have ho := h.ordered
    have ha := h.agrees
    have hr := h.represents
    simp only [List.append_assoc, List.cons_append] at ho ha hr ⊢
    rw [union_append, union_cons] at ha hr
    rw [union_append]
    refine hr.drop ha ?_ hheld
    exact ho.dominates.mono_right (fun x hx => by rw [union_cons]; exact Or.inl hx)

/-! ### Compactions and logs -/

theorem Layered.agrees_tables (h : Layered U v files maxLevel m) : Agrees
    (tableVersions v files) := by
  rw [← h.tables.shape.union_levelLayers h.maxLevel_le]
  refine h.agrees.mono ?_
  rw [union_append]
  exact Set.subset_union_right

/-- **A leveled compaction.** -/
theorem Layered.compact {i : ℕ} (h : Layered U v files maxLevel m)
    (hstep : LeveledStep v files maxLevel i ins outs es v' files') :
    Layered U v' files' maxLevel m := by
  have hbelow : Ordered (levelLayers v files) := (List.pairwise_append.1 h.ordered).2.1
  have hc := hstep.compacts h.maxLevel_le hbelow
  have ha := h.agrees
  have hr := h.represents
  rw [union_append] at ha hr
  refine ⟨h.maxLevel_le, hstep.tablesOk, h.mem_ok, hstep.shape.ordered h.maxLevel_le h.ordered, ?_,
    ?_⟩
  · rw [union_append]
    exact ha.mono (Set.union_subset_union_right _ hc.sub)
  · rw [union_append]
    exact hr.compact h.ordered.dominates ha hc

theorem Layered.compact_sub {i : ℕ} (h : Layered U v files maxLevel m)
    (hstep : LeveledStep v files maxLevel i ins outs es v' files') :
    tableVersions v' files' ⊆ tableVersions v files := by
  rw [← hstep.tablesOk.shape.union_levelLayers h.maxLevel_le,
    ← h.tables.shape.union_levelLayers h.maxLevel_le]
  exact (hstep.compacts h.maxLevel_le (List.pairwise_append.1 h.ordered).2.1).sub

/-- **A removed log.** Its versions are older than everything left of their keys, and what is left
still means the map. -/
theorem Layered.forget {W W' M : Set Entry} (h : Layered [W] v files maxLevel m) (hsub : W' ⊆ W)
    (hM : Represents (M ∪ union (levelLayers v files)) m) (hMW : M ⊆ W')
    (hold : ∀ w ∈ W \ W', ∀ x ∈ W', x.key.userKey = w.key.userKey → w.key.seqNo < x.key.seqNo) :
    Layered [W'] v files maxLevel m := by
  have ha := h.agrees
  have hr := h.represents
  simp only [List.cons_append, List.nil_append, union_cons] at ha hr
  refine ⟨h.maxLevel_le, h.tables, fun x hx => h.mem_ok x ?_, ?_, ?_, ?_⟩
  · obtain ⟨A, hA, hxA⟩ := hx
    rw [List.mem_singleton.1 hA] at hxA
    exact ⟨W, List.mem_singleton_self W, hsub hxA⟩
  · obtain ⟨htop, hrest⟩ := List.pairwise_cons.1 h.ordered
    exact List.pairwise_cons.2 ⟨fun B hB => (htop B hB).forget hsub hold, hrest⟩
  · simp only [List.cons_append, List.nil_append, union_cons]
    exact ha.mono (Set.union_subset_union_left _ hsub)
  · simp only [List.cons_append, List.nil_append, union_cons]
    exact hr.forget hM hsub hMW hold

end LsmTree
