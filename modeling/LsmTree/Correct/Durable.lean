import LsmTree.Correct.Layered
import LsmTree.Engine.Recover

/-!
# What the data directory holds

The logs of a directory, all together, are one layer over its tables (`DiskInv`): recovery replays
every log into one memtable.  While the engine runs, each log belongs to a memtable, from the oldest
immutable one to the active one, and the stamps rise from log to log (`Owned`).
-/

namespace LsmTree

open Versioned

variable {es : List Entry}

def DataDir.files (d : DataDir) : ℕ → Option SSTable := fun id => d.ssts.lookup id

/-- The version that the manifest file stands for. -/
def DataDir.version (d : DataDir) : Version := recoverVersion d.edits

def logSet (d : DataDir) (id : ℕ) : Set Entry := walVersions (recoverWAL (d.log id))

def walSet (d : DataDir) : Set Entry := {x | ∃ id, x ∈ logSet d id}

/-- A directory that recovery turns into an engine for the map `m`.  The stamps of the tables are
below the recorded one, or below one in a log. -/
structure DiskInv (d : DataDir) (maxLevel : ℕ) (m : Bytes → Option Bytes) : Prop extends
    Layered [walSet d] d.version d.files maxLevel m where
  covered : ∀ x ∈ tableVersions d.version d.files,
    x.key.seqNo ≤ d.version.maxSeqNo ∨ ∃ w ∈ walSet d, x.key.seqNo ≤ w.key.seqNo
  untorn : d.torn = false

variable {d d' : DataDir} {maxLevel : ℕ} {m : Bytes → Option Bytes}

theorem DiskInv.congr (h : DiskInv d maxLevel m) (hw : walSet d' = walSet d)
    (hl : d'.version.levels = d.version.levels)
    (hs : d.version.maxSeqNo ≤ d'.version.maxSeqNo)
    (hf : ∀ i, ∀ t ∈ d.version.levels i, d'.files t.fileID = d.files t.fileID)
    (ht : d'.torn = d.torn := by rfl) : DiskInv d' maxLevel m := by
  refine ⟨hw ▸ h.toLayered.congr hl hf, fun x hx => ?_, ht.trans h.untorn⟩
  rw [tableVersions_congr hl hf] at hx
  rw [hw]
  exact (h.covered x hx).imp_left (fun hle => hle.trans hs)

theorem DiskInv.compact {i : ℕ} {ins : List SSTableMeta} {outs : List (SSTableMeta × SSTable)}
    (h : DiskInv d maxLevel m)
    (hstep : LeveledStep d.version d.files maxLevel i ins outs es d'.version d'.files)
    (hw : walSet d' = walSet d) (hs : d.version.maxSeqNo ≤ d'.version.maxSeqNo)
    (ht : d'.torn = d.torn := by rfl) : DiskInv d' maxLevel m := by
  refine ⟨hw ▸ h.toLayered.compact hstep, fun x hx => ?_, ht.trans h.untorn⟩
  rw [hw]
  exact (h.covered x (h.toLayered.compact_sub hstep hx)).imp_left (fun hle => hle.trans hs)

theorem DiskInv.write (h : DiskInv d maxLevel m) (hok : ∀ e ∈ es, e.Ok)
    (hes : es.Pairwise (fun a b => a.key.seqNo < b.key.seqNo))
    (hnew : ∀ x ∈ walSet d ∪ tableVersions d.version d.files, ∀ e ∈ es, x.key.seqNo < e.key.seqNo)
    (hw : walSet d' = walSet d ∪ {e | e ∈ es}) (hv : d'.version = d.version)
    (hf : d'.files = d.files) (ht : d'.torn = d.torn := by rfl) :
    DiskInv d' maxLevel (overlay es m) := by
  have hset : union (walSet d :: [] ++ levelLayers d.version d.files) =
      walSet d ∪ tableVersions d.version d.files := by
    rw [List.cons_append, List.nil_append, union_cons,
      h.tables.shape.union_levelLayers h.maxLevel_le]
  refine ⟨?_, fun x hx => ?_, ht.trans h.untorn⟩
  · rw [hw, hv, hf]
    exact h.toLayered.write hok hes (hset ▸ hnew)
  · rw [hv, hf] at hx
    rw [hv, hw]
    exact (h.covered x hx).imp_right (fun ⟨w, hwd, hle⟩ => ⟨w, Or.inl hwd, hle⟩)

theorem DiskInv.addTable {t : SSTableMeta} {f : SSTable} (h : DiskInv d maxLevel m)
    (hadd : AddsTable d.version d'.version t) (hmax : 0 < maxLevel) (hlevel : t.level = 0)
    (hf : d.files t.fileID = some f) (hok : TableOk t f)
    (hid : ∀ j, ∀ x ∈ d.version.levels j, x.fileID ≠ t.fileID)
    (hid0 : ∀ x ∈ d.version.levels 0, x.fileID < t.fileID)
    (hsub : {x | x ∈ f.entries} ⊆ walSet d)
    (hbelow : Dominates {x | x ∈ f.entries} (union (levelLayers d.version d.files)))
    (hw : walSet d' = walSet d) (hfiles : d'.files = d.files)
    (hs : d.version.maxSeqNo ≤ d'.version.maxSeqNo) (ht : d'.torn = d.torn := by rfl) :
    DiskInv d' maxLevel m := by
  have hlay := h.toLayered.addTable hadd hmax hlevel hf hok hid hid0
    (fun x hx => ⟨walSet d, List.mem_singleton_self _, hsub hx⟩)
    (fun A hA => by
      rw [List.mem_singleton.1 hA]
      exact fun x hx _ => ⟨x, hsub hx, rfl, le_rfl⟩) hbelow
  refine ⟨by rw [hw, hfiles]; exact hlay, ?_, ht.trans h.untorn⟩
  rintro x ⟨i, t', ht', hx⟩
  rw [hfiles] at hx
  rw [hw]
  rcases hadd.mem.1 ht' with ht' | ⟨-, rfl⟩
  · exact (h.covered x ⟨i, t', ht', hx⟩).imp_left (fun hle => hle.trans hs)
  · obtain ⟨f', hf', hxf⟩ := hx
    rw [hf] at hf'
    cases hf'
    exact Or.inr ⟨x, hsub hxf, le_rfl⟩

theorem DiskInv.removeLog {M : Set Entry} (h : DiskInv d maxLevel m)
    (hv : d'.version = d.version) (hf : d'.files = d.files) (hsub : walSet d' ⊆ walSet d)
    (hM : Represents (M ∪ union (levelLayers d.version d.files)) m) (hMW : M ⊆ walSet d')
    (hold : ∀ w ∈ walSet d \ walSet d', ∀ x ∈ walSet d', x.key.userKey = w.key.userKey →
      w.key.seqNo < x.key.seqNo)
    (hseq : ∀ x ∈ tableVersions d.version d.files, x.key.seqNo ≤ d.version.maxSeqNo)
    (ht : d'.torn = d.torn := by rfl) : DiskInv d' maxLevel m := by
  refine ⟨?_, fun x hx => Or.inl ?_, ht.trans h.untorn⟩
  · rw [hv, hf]
    exact h.toLayered.forget hsub hM hMW hold
  · rw [hv, hf] at hx
    rw [hv]
    exact hseq x hx

/-! ### Logs and their memtables -/

theorem logSet_exec_appendLog (d : DataDir) (id : ℕ) (r : WalFile) (j : ℕ) :
    logSet (d.exec (.appendLog id r)) j =
      if j = id then logSet d id ∪ walVersions (recoverWAL r) else logSet d j := by
  unfold logSet recoverWAL
  rw [exec_appendLog_log]
  split_ifs
  · rw [List.flatten_append, walVersions_append]
  · rfl

theorem logSet_exec_removeLog (d : DataDir) (id j : ℕ) :
    logSet (d.exec (.removeLog id)) j = if j = id then ∅ else logSet d j := by
  unfold logSet recoverWAL
  rw [exec_removeLog_log]
  split_ifs
  · simp
  · rfl

theorem walSet_exec_appendLog (d : DataDir) (id : ℕ) (r : WalFile) :
    walSet (d.exec (.appendLog id r)) = walSet d ∪ walVersions (recoverWAL r) := by
  ext x
  constructor
  · rintro ⟨j, hx⟩
    rw [logSet_exec_appendLog] at hx
    split_ifs at hx with hj
    · exact hx.imp_left (fun h => ⟨id, h⟩)
    · exact Or.inl ⟨j, hx⟩
  · rintro (⟨j, hx⟩ | hx)
    · refine ⟨j, ?_⟩
      rw [logSet_exec_appendLog]
      split_ifs with hj
      · exact Or.inl (hj ▸ hx)
      · exact hx
    · exact ⟨id, by rw [logSet_exec_appendLog, if_pos rfl]; exact Or.inr hx⟩

theorem walSet_exec_removeLog (d : DataDir) (id : ℕ) :
    walSet (d.exec (.removeLog id)) = {x | ∃ j ≠ id, x ∈ logSet d j} := by
  ext x
  constructor
  · rintro ⟨j, hx⟩
    rw [logSet_exec_removeLog] at hx
    split_ifs at hx with hj
    · cases hx
    · exact ⟨j, hj, hx⟩
  · rintro ⟨j, hj, hx⟩
    exact ⟨j, by rw [logSet_exec_removeLog, if_neg hj]; exact hx⟩

/-- The logs on disk belong to memtables, oldest first: each log holds at least the versions of its
memtable, and the stamps rise from log to log.  A log that outlived its memtable belongs to an empty
one. -/
structure Owned (d : DataDir) (os : List (ℕ × Set Entry)) : Prop where
  nodup : (os.map Prod.fst).Nodup
  stray : ∀ id, id ∉ os.map Prod.fst → logSet d id = ∅
  sub : ∀ o ∈ os, o.2 ⊆ logSet d o.1
  rising : os.Pairwise (fun a b =>
    ∀ x ∈ logSet d a.1, ∀ y ∈ logSet d b.1, x.key.seqNo < y.key.seqNo)

variable {os os' : List (ℕ × Set Entry)}

theorem Owned.congr (h : Owned d os) (hl : ∀ id, logSet d' id = logSet d id) : Owned d' os := by
  refine ⟨h.nodup, fun id hid => (hl id).trans (h.stray id hid), fun o ho => ?_, ?_⟩
  · rw [hl]; exact h.sub o ho
  · refine h.rising.imp (fun {a b} hab => ?_)
    rw [hl, hl]
    exact hab

theorem Owned.mem_walSet (h : Owned d os) {x : Entry} (hx : x ∈ walSet d) :
    ∃ o ∈ os, x ∈ logSet d o.1 := by
  obtain ⟨id, hx⟩ := hx
  by_contra hc
  have hid : id ∉ os.map Prod.fst := fun hid => by
    obtain ⟨o, ho, rfl⟩ := List.mem_map.1 hid
    exact hc ⟨o, ho, hx⟩
  rw [h.stray id hid] at hx
  cases hx

theorem Owned.append {n : ℕ} {S : Set Entry} (h : Owned d (os ++ [(n, S)])) {ws : List WALEntry}
    (hnew : ∀ x ∈ walSet d, ∀ w ∈ ws, x.key.seqNo < w.seqNo) :
    Owned (d.exec (.appendLog n [ws])) (os ++ [(n, S ∪ walVersions ws)]) := by
  have hids : (os ++ [(n, S ∪ walVersions ws)]).map Prod.fst = (os ++ [(n, S)]).map Prod.fst := by
    simp
  have hne : ∀ o ∈ os, o.1 ≠ n := by
    have := h.nodup
    rw [List.map_append, List.nodup_append] at this
    intro o ho
    exact this.2.2 o.1 (List.mem_map_of_mem ho) n (by simp)
  have hlog : ∀ o ∈ os, logSet (d.exec (.appendLog n [ws])) o.1 = logSet d o.1 := fun o ho => by
    rw [logSet_exec_appendLog, if_neg (hne o ho)]
  have hlogn : logSet (d.exec (.appendLog n [ws])) n = logSet d n ∪ walVersions ws := by
    rw [logSet_exec_appendLog, if_pos rfl]
    simp [recoverWAL]
  obtain ⟨h1, -, h3⟩ := List.pairwise_append.1 h.rising
  refine ⟨hids ▸ h.nodup, fun id hid => ?_, fun o ho => ?_, ?_⟩
  · rw [hids] at hid
    have hidn : id ≠ n := fun hc => hid (by rw [hc]; simp)
    rw [logSet_exec_appendLog, if_neg hidn]
    exact h.stray id hid
  · rcases List.mem_append.1 ho with ho | ho
    · rw [hlog o ho]
      exact h.sub o (List.mem_append_left _ ho)
    · rw [List.mem_singleton.1 ho]
      simp only [hlogn]
      exact Set.union_subset_union_left _ (h.sub (n, S) (by simp))
  · refine List.pairwise_append.2 ⟨h1.imp_of_mem (fun {a b} ha hb hab => ?_),
      List.pairwise_singleton _ _, fun a ha b hb => ?_⟩
    · rw [hlog a ha, hlog b hb]
      exact hab
    · rw [List.mem_singleton.1 hb, hlog a ha]
      simp only [hlogn]
      rintro x hx y (hy | ⟨w, hw, rfl⟩)
      · exact h3 a ha (n, S) (by simp) x hx y hy
      · rw [WALEntry.toEntry_seqNo]
        exact hnew x ⟨a.1, hx⟩ w hw

theorem Owned.fresh (h : Owned d os) {n : ℕ} (hn : n ∉ os.map Prod.fst) :
    Owned d (os ++ [(n, ∅)]) := by
  have hlog : logSet d n = ∅ := h.stray n hn
  refine ⟨?_, fun id hid => h.stray id (fun hc => hid ?_), fun o ho => ?_, ?_⟩
  · rw [List.map_append, List.nodup_append]
    refine ⟨h.nodup, by simp, fun a ha b hb => ?_⟩
    simp only [List.map_cons, List.map_nil, List.mem_singleton] at hb
    rw [hb]
    exact fun hc => hn (hc ▸ ha)
  · rw [List.map_append]
    exact List.mem_append_left _ hc
  · rcases List.mem_append.1 ho with ho | ho
    · exact h.sub o ho
    · rw [List.mem_singleton.1 ho]
      exact Set.empty_subset _
  · refine List.pairwise_append.2
      ⟨h.rising, List.pairwise_singleton _ _, fun a _ b hb x _ y hy => ?_⟩
    rw [List.mem_singleton.1 hb, hlog] at hy
    cases hy

theorem Owned.outlive {n : ℕ} {S S' : Set Entry} (h : Owned d (os ++ (n, S) :: os'))
    (hs : S' ⊆ S) : Owned d (os ++ (n, S') :: os') := by
  have hids : (os ++ (n, S') :: os').map Prod.fst = (os ++ (n, S) :: os').map Prod.fst := by simp
  refine ⟨hids ▸ h.nodup, fun id hid => h.stray id (hids ▸ hid), fun o ho => ?_, ?_⟩
  · rcases List.mem_append.1 ho with ho | ho
    · exact h.sub o (List.mem_append_left _ ho)
    · rcases List.mem_cons.1 ho with rfl | ho
      · exact hs.trans (h.sub (n, S) (by simp))
      · exact h.sub o (by simp [ho])
  · obtain ⟨h1, h2, h3⟩ := List.pairwise_append.1 h.rising
    obtain ⟨h4, h5⟩ := List.pairwise_cons.1 h2
    refine List.pairwise_append.2 ⟨h1, List.pairwise_cons.2 ⟨h4, h5⟩, fun a ha b hb => ?_⟩
    rcases List.mem_cons.1 hb with rfl | hb
    · exact h3 a ha (n, S) List.mem_cons_self
    · exact h3 a ha b (List.mem_cons_of_mem _ hb)

theorem Owned.removeLog {n : ℕ} {S : Set Entry} (h : Owned d (os ++ (n, S) :: os')) :
    Owned (d.exec (.removeLog n)) (os ++ os') := by
  have hnod := h.nodup
  rw [List.map_append, List.map_cons, List.nodup_middle, List.nodup_cons, ← List.map_append] at hnod
  have hlog : ∀ o ∈ os ++ os', logSet (d.exec (.removeLog n)) o.1 = logSet d o.1 := fun o ho => by
    have hne : o.1 ≠ n := fun hc => hnod.1 (List.mem_map.2 ⟨o, ho, hc⟩)
    rw [logSet_exec_removeLog, if_neg hne]
  have hsl : (os ++ os').Sublist (os ++ (n, S) :: os') :=
    List.Sublist.append (List.Sublist.refl _) (List.sublist_cons_self _ _)
  refine ⟨hnod.2, fun id hid => ?_, fun o ho => ?_, ?_⟩
  · rw [logSet_exec_removeLog]
    split_ifs with hn
    · rfl
    · refine h.stray id (fun hc => hid ?_)
      rw [List.map_append, List.map_cons, List.mem_append, List.mem_cons] at hc
      rw [List.map_append, List.mem_append]
      tauto
  · rw [hlog o ho]
    exact h.sub o (hsl.subset ho)
  · refine (h.rising.sublist hsl).imp_of_mem (fun {a b} ha hb hab => ?_)
    rw [hlog a ha, hlog b hb]
    exact hab

end LsmTree
