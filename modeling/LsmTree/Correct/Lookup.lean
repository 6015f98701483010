import LsmTree.Correct.Recover

/-!
# Lookups level by level

Between operations the tables of a deeper level lie side by side, and a lookup asks in effect all
of them.  In the middle of a compaction, or after one that went wrong, they may overlap or lack a
reader.  What a lookup returns then is worked out here: it asks the level-0 tables by falling number
and of each deeper level the table that starts last at or before the key (`LastStart`), through
whatever readers there are (`get_eq_tablesGet`).
-/

namespace LsmTree

open Versioned

variable {α β : Type*} {e : LSMEngine} {a b t : SSTableMeta} {j : ℕ} {r : Option Bytes}

/-- The table of a level that starts last at or before a key. -/
structure LastStart (level : List SSTableMeta) (k : Bytes) (c : SSTableMeta) : Prop where
  mem : c ∈ level
  starts : c.firstKey ≤ k
  last : ∀ t ∈ level, t.firstKey ≤ k → metaLe t c

/-- What a lookup learns about a key from level `j`. -/
def levelGet (v : Version) (readers : ℕ → Option SSTable) (k : Bytes) (j : ℕ) :
    Option (Option Bytes) :=
  if j = 0 then (l0Desc (v.levels 0)).findSome? (fun t => tableGet readers t k)
  else (findLevelCandidate (v.levels j) k).bind (fun t => tableGet readers t k)

def tablesGet (v : Version) (readers : ℕ → Option SSTable) (k : Bytes) : Option (Option Bytes) :=
  (List.range maxLevels).findSome? (levelGet v readers k)

/-- The readers that are there work, and have no version above a sequence number. -/
structure ReadersOk (v : Version) (readers : ℕ → Option SSTable) (s : ℕ) : Prop where
  ok : ∀ i, ∀ t ∈ v.levels i, ∀ f, readers t.fileID = some f → TableOk t f
  seq_le : ∀ i, ∀ t ∈ v.levels i, ∀ f, readers t.fileID = some f →
    ∀ x ∈ f.entries, x.key.seqNo ≤ s

variable {v v' : Version} {readers : ℕ → Option SSTable} {s : ℕ} {k : Bytes}

theorem findSome?_filterMap {γ : Type*} (f : α → Option β) (g : β → Option γ) (l : List α) :
    (l.filterMap f).findSome? g = l.findSome? (fun a => (f a).bind g) := by
  induction l with
  | nil => rfl
  | cons a l ih =>
    rw [List.filterMap_cons, List.findSome?_cons]
    cases hf : f a with
    | none => simpa [hf] using ih
    | some b =>
      simp only [Option.bind_some, List.findSome?_cons]
      cases g b with
      | none => exact ih
      | some c => rfl

theorem findSome?_congr {f g : α → Option β} {l : List α} (h : ∀ a ∈ l, f a = g a) :
    l.findSome? f = l.findSome? g := by
  induction l with
  | nil => rfl
  | cons a l ih =>
    rw [List.findSome?_cons, List.findSome?_cons, h a List.mem_cons_self,
      ih (fun b hb => h b (List.mem_cons_of_mem a hb))]

theorem candidates_findSome? (v : Version) (readers : ℕ → Option SSTable) (k : Bytes) :
    (v.candidates k).findSome? (fun t => tableGet readers t k) = tablesGet v readers k := by
  unfold Version.candidates tablesGet
  rw [List.findSome?_append, findSome?_filterMap,
    show List.range maxLevels = 0 :: List.range' 1 (maxLevels - 1) from rfl, List.findSome?_cons]
  have hrest : (List.range' 1 (maxLevels - 1)).findSome?
      (fun i => (findLevelCandidate (v.levels i) k).bind (fun t => tableGet readers t k)) =
      (List.range' 1 (maxLevels - 1)).findSome? (levelGet v readers k) :=
    findSome?_congr (fun i hi => by
      have := (List.mem_range'_1.1 hi).1
      rw [levelGet, if_neg (by omega)])
  rw [hrest, levelGet, if_pos rfl]
  cases (l0Desc (v.levels 0)).findSome? (fun t => tableGet readers t k) <;> rfl

theorem probe_eq_findSome? {g : SSTableMeta → Option (Option Bytes)} {ms : List SSTableMeta}
    (hsome : ∀ m ∈ ms, ∀ t, readers m.fileID = some t → t.get k s = .ok (g m))
    (hnone : ∀ m ∈ ms, readers m.fileID = none → g m = none) :
    probe readers k s ms = .ok (ms.findSome? g) := by
  induction ms with
  | nil => rfl
  | cons m ms ih =>
    have ih := ih (fun x hx => hsome x (List.mem_cons_of_mem m hx))
      (fun x hx => hnone x (List.mem_cons_of_mem m hx))
    rw [probe, List.findSome?_cons]
    cases hr : readers m.fileID with
    | none =>
      rw [hnone m List.mem_cons_self hr]
      exact ih
    | some t =>
      simp only [hsome m List.mem_cons_self t hr]
      cases g m with
      | none => exact ih
      | some r => rfl

theorem ReadersOk.probe (h : ReadersOk v readers s) (k : Bytes) :
    probe readers k s (v.candidates k) = .ok (tablesGet v readers k) := by
  rw [← candidates_findSome?]
  refine probe_eq_findSome? (fun m hm t ht => ?_) (fun m hm hr => ?_)
  · obtain ⟨i, -, hmi⟩ := mem_candidates hm
    rw [(h.ok i m hmi t ht).get_eq (fun x hx _ => h.seq_le i m hmi t ht x hx)]
    simp [tableGet, ht]
  · simp [tableGet, hr]

/-- **A lookup through the readers that are there.** -/
theorem get_eq_tablesGet (h : ReadersOk e.current e.tc.readerOf e.seqNo) (k : Bytes) : (e.get k).1 =
      lookupResult (((e.memGet k).or (tablesGet e.current e.tc.readerOf k)).getD none) := by
  rw [get_fst, ← getResult_ok]
  cases e.memGet k with
  | some r => rfl
  | none =>
    simp only [Option.none_or]
    rw [h.probe]

/-! ### Which table of a level answers -/

theorem metaLe_antisymm (h : metaLe a b) (h' : metaLe b a) : a.fileID = b.fileID := by
  rcases h with h | ⟨h, hid⟩ <;> rcases h' with h' | ⟨h', hid'⟩
  · exact absurd (h.trans h') (lt_irrefl _)
  · exact absurd h (h' ▸ lt_irrefl _)
  · exact absurd h' (h ▸ lt_irrefl _)
  · omega

theorem LastStart.unique (hs : LevelsSorted v) (ha : LastStart (v.levels j) k a)
    (hb : LastStart (v.levels j) k b) : a = b := by
  have hid := metaLe_antisymm (hb.last a ha.mem ha.starts) (ha.last b hb.mem hb.starts)
  rcases pairwise_cases (List.pairwise_map.1 (hs j).2) ha.mem hb.mem with heq | hne | hne
  · exact heq
  · exact absurd hid hne
  · exact absurd hid.symm hne

theorem tableGet_range (hok : ∀ f, readers t.fileID = some f → TableOk t f)
    (h : tableGet readers t k = some r) : t.firstKey ≤ k ∧ k ≤ t.lastKey := by
  unfold tableGet at h
  cases hr : readers t.fileID with
  | none => rw [hr] at h; cases h
  | some f =>
    rw [hr, Option.bind_some, Option.map_eq_some_iff] at h
    obtain ⟨x, hx, -⟩ := h
    have hk : x.key.userKey = k := by simpa using List.find?_some hx
    have := (hok f hr).shape.range (List.mem_of_find?_eq_some hx)
    rwa [hk] at this

theorem findLevelCandidate_eq_some (hs : LevelsSorted v) (hj : j ≠ 0) {c : SSTableMeta} :
    findLevelCandidate (v.levels j) k = some c ↔
      LastStart (v.levels j) k c ∧ ¬ (c.lastKey ≠ [] ∧ c.lastKey < k) := by
  have hsorted : (v.levels j).Pairwise (fun a b => a.firstKey ≤ b.firstKey) :=
    ((hs j).1 hj).imp (fun hab => hab.elim le_of_lt (fun h => h.1.le))
  obtain ⟨pre, post, hl, hpre, hpost⟩ := exists_split_firstKey hsorted k
  have hd : ∀ l d, pre = l ++ [d] → LastStart (v.levels j) k d := by
    rintro l d rfl
    refine ⟨by rw [hl]; simp, hpre d (by simp), fun t ht htk => ?_⟩
    rw [hl] at ht
    rcases List.mem_append.1 ht with ht | ht
    · rcases List.mem_append.1 ht with ht | ht
      · have hp := (hs j).1 hj
        rw [hl] at hp
        exact (List.pairwise_append.1 (List.pairwise_append.1 hp).1).2.2 t ht d
          (List.mem_singleton_self d)
      · rw [List.mem_singleton.1 ht]
        exact Or.inr ⟨rfl, le_rfl⟩
    · exact absurd (hpost t ht) (not_lt.2 htk)
  have hlast : LastStart (v.levels j) k c ↔ pre.getLast? = some c := by
    constructor
    · intro hc
      have hcpre : c ∈ pre := by
        have hm := hc.mem
        rw [hl] at hm
        exact (List.mem_append.1 hm).resolve_right
          (fun hm => absurd (hpost c hm) (not_lt.2 hc.starts))
      rcases List.eq_nil_or_concat pre with hnil | ⟨l, d, hpd⟩
      · rw [hnil] at hcpre
        cases hcpre
      · rw [List.concat_eq_append] at hpd
        rw [hc.unique hs (hd l d hpd), hpd, List.getLast?_concat]
    · intro hc
      obtain ⟨l, hpc⟩ := List.getLast?_eq_some_iff.1 hc
      exact hd l c hpc
  rw [hlast, hl, findLevelCandidate_split hpre hpost, Option.filter_eq_some_iff]
  simp only [Bool.not_eq_true', decide_eq_false_iff_not]

/-- **A deeper level answers with the table that starts last.** -/
theorem levelGet_eq_some (hs : LevelsSorted v) (hj : j ≠ 0)
    (hok : ∀ t ∈ v.levels j, ∀ f, readers t.fileID = some f → TableOk t f) :
    levelGet v readers k j = some r ↔
      ∃ c, LastStart (v.levels j) k c ∧ tableGet readers c k = some r := by
  rw [levelGet, if_neg hj, Option.bind_eq_some_iff]
  constructor
  · rintro ⟨c, hc, hr⟩
    exact ⟨c, ((findLevelCandidate_eq_some hs hj).1 hc).1, hr⟩
  · rintro ⟨c, hc, hr⟩
    refine ⟨c, (findLevelCandidate_eq_some hs hj).2 ⟨hc, fun hlt => ?_⟩, hr⟩
    exact absurd hlt.2 (not_lt.2 (tableGet_range (hok c hc.mem) hr).2)

/-! ### Lookups after a restart -/

theorem tablesGet_congr {readers' : ℕ → Option SSTable} (hl : v'.levels = v.levels)
    (hr : ∀ i, ∀ t ∈ v.levels i, readers' t.fileID = readers t.fileID) (k : Bytes) :
    tablesGet v' readers' k = tablesGet v readers k := by
  have htable : ∀ i, ∀ t ∈ v.levels i, tableGet readers' t k = tableGet readers t k := by
    intro i t ht
    unfold tableGet
    rw [hr i t ht]
  rw [← candidates_findSome?, ← candidates_findSome?,
    show v'.candidates k = v.candidates k by unfold Version.candidates; rw [hl]]
  refine findSome?_congr (fun t ht => ?_)
  obtain ⟨i, -, hi⟩ := mem_candidates ht
  exact htable i t hi

theorem tablesGet_addTable (h : AddsTable v v' t) (hnewest : ∀ x ∈ v.levels 0, x.fileID < t.fileID)
    (k : Bytes) : tablesGet v' readers k = (tableGet readers t k).or (tablesGet v readers k) := by
  have hrest : (List.range' 1 (maxLevels - 1)).findSome? (levelGet v' readers k) =
      (List.range' 1 (maxLevels - 1)).findSome? (levelGet v readers k) :=
    findSome?_congr (fun i hi => by
      have hi := (List.mem_range'_1.1 hi).1
      rw [levelGet, levelGet, if_neg (by omega), if_neg (by omega), h.rest i (by omega)])
  unfold tablesGet
  rw [show List.range maxLevels = 0 :: List.range' 1 (maxLevels - 1) from rfl, List.findSome?_cons,
    List.findSome?_cons, hrest, levelGet, if_pos rfl, levelGet, if_pos rfl, h.l0,
    l0Desc_append hnewest, List.findSome?_cons]
  cases tableGet readers t k with
  | some r => rfl
  | none =>
    cases (l0Desc (v.levels 0)).findSome? (fun t => tableGet readers t k) <;> rfl

theorem memGet_of_nil (h : e.immutables = []) (k : Bytes) : e.memGet k = e.memTable.get k := by
  unfold LSMEngine.memGet
  rw [h]
  simp only [List.reverse_nil, List.map_nil, List.findSome?_cons, List.findSome?_nil]
  cases e.memTable.get k <;> rfl

theorem get_finish (e : LSMEngine) (n : ℕ) (ops : DiskOp) (k : Bytes) :
    (((e.recordLog n).exec ops).get k).1 = (e.get k).1 := by
  rw [get_fst, get_fst]
  unfold LSMEngine.recordLog
  split_ifs
  · rw [apply_ok (logNumberEdit_unchecked _)]
    rfl
  · rfl

section Open

variable {d : DataDir} {cfg : Config} {tc : TableCache}

theorem Openable.get_recovered (h : Openable d) (htc : Registered d tc) (k : Bytes) :
    ((recoveredEngine cfg d tc).get k).1 = lookupResult
      ((((recoveredMem cfg d).get k).or (tablesGet d.version d.files k)).getD none) := by
  have hok : ReadersOk (recoveredEngine cfg d tc).current (recoveredEngine cfg d tc).tc.readerOf
      (recoveredEngine cfg d tc).seqNo := by
    refine ⟨fun i t ht f hf => ?_, fun i t ht f hf x hx => ?_⟩
    · obtain ⟨f', hf', hok⟩ := h.tables i t ht
      rw [show (recoveredEngine cfg d tc).tc.readerOf t.fileID = _ from htc.readers i t ht,
        hf'] at hf
      cases hf
      exact hok
    · refine h.seq_le x (Or.inr ⟨i, t, ht, f, ?_, hx⟩)
      rw [← htc.readers i t ht]
      exact hf
  rw [get_eq_tablesGet hok, memGet_of_nil rfl]
  have htables := @tablesGet_congr d.version d.version d.files tc.readerOf rfl htc.readers k
  change lookupResult ((((recoveredMem cfg d).get k).or (tablesGet d.version tc.readerOf k)).getD
    none) = _
  rw [htables]

theorem lt_nextFileID_of_sst {id : ℕ} (h : d.ssts.lookup id ≠ none) :
    id ≤ (recoveredEngine cfg d tc).nextFileID := by
  have hlt := lt_activeLogNumber_of_sst h
  change _ ≤ if listWALFiles d = [] then activeLogNumber d else activeLogNumber d + 1
  split_ifs <;> omega

theorem Openable.builtFor (h : Openable d) (htc : Registered d tc) (hover : oversized cfg d) :
    BuiltFor ((recoveredEngine cfg d tc).flushBuild ⟨recoveredMem cfg d, activeLogNumber d⟩).1
      ((recoveredEngine cfg d tc).flushBuild ⟨recoveredMem cfg d, activeLogNumber d⟩).2
      (recoveredMem cfg d).versions := by
  refine @builtFor_flushBuild (recoveredEngine cfg d tc) ⟨recoveredMem cfg d, activeLogNumber d⟩
    (fun x hx => h.wal_ok x (recoveredMem_versions h.agrees cfg ▸ hx)) hover.2 (fun j x hx => ?_)
    (fun id hid => lt_nextFileID_of_sst (htc.ids id hid))
  obtain ⟨f, hf, -⟩ := h.tables j x hx
  refine lt_nextFileID_of_sst ?_
  rw [show d.ssts.lookup x.fileID = some f from hf]
  exact Option.some_ne_none f

theorem Openable.get_shrink (h : Openable d) (htc : Registered d tc)
    (hroom : oversized cfg d → tc.entries.length < tc.cap) (k : Bytes) :
    ((recoveredEngine cfg d tc).shrink.get k).1 = lookupResult
      ((((recoveredMem cfg d).get k).or (tablesGet d.version d.files k)).getD none) := by
  rw [← @Openable.get_recovered d cfg tc h htc k]
  by_cases hover : oversized cfg d
  · have hb := @Openable.builtFor d cfg tc h htc hover
    set e₁ := ((recoveredEngine cfg d tc).flushBuild ⟨recoveredMem cfg d, activeLogNumber d⟩).1
    set t := ((recoveredEngine cfg d tc).flushBuild ⟨recoveredMem cfg d, activeLogNumber d⟩).2
    have hshrink : (recoveredEngine cfg d tc).shrink =
        { (e₁.flushAdd t .ok).1 with memTable := newMemTable cfg.memTableSize } :=
      shrink_of_oversized hover
    obtain ⟨f, hf, heq⟩ := flushAdd_ok hb
    obtain ⟨f', hf', hok, hset⟩ := hb.file
    obtain rfl : f = f' := Option.some.inj (hf.symm.trans hf')
    have hadd := addsTable_addEdit hb.level hb.created d.version
    have hread : ∀ j, (tc.register t.fileID f).readerOf j = if j = t.fileID then some f else
        tc.readerOf j := TableCache.readerOf_register hb.no_reader (hroom hover)
    have hentry : ∀ x ∈ f.entries, x ∈ walSet d := fun x hx => by
      rw [← recoveredMem_versions h.agrees cfg, ← hset]
      exact hx
    have hlisted : ∀ i, ∀ x ∈ d.version.levels i,
        (tc.register t.fileID f).readerOf x.fileID = tc.readerOf x.fileID := fun i x hx => by
      rw [hread, if_neg (hb.unlisted i x hx)]
    have hfile : ∀ i, ∀ x ∈ (d.version.applyEdit (addEdit t false)).levels i, ∀ g,
        (tc.register t.fileID f).readerOf x.fileID = some g → TableOk x g ∧
          ∀ y ∈ g.entries, y ∈ walSet d ∪ tableVersions d.version d.files := by
      intro i x hx g hg
      rcases hadd.mem.1 hx with hx | ⟨-, rfl⟩
      · obtain ⟨g', hg', hok'⟩ := h.tables i x hx
        rw [hlisted i x hx, htc.readers i x hx, hg'] at hg
        cases hg
        exact ⟨hok', fun y hy => Or.inr ⟨i, x, hx, g, hg', hy⟩⟩
      · rw [hread, if_pos rfl] at hg
        cases hg
        exact ⟨hok, fun y hy => Or.inl (hentry y hy)⟩
    rw [hshrink, heq, @Openable.get_recovered d cfg tc h htc k, get_eq_tablesGet
      ⟨fun i x hx g hg => (hfile i x hx g hg).1, fun i x hx g hg y hy =>
        h.seq_le y ((hfile i x hx g hg).2 y hy)⟩, memGet_of_nil rfl]
    have hmem : (newMemTable cfg.memTableSize).get k = none := rfl
    have htable : tableGet (tc.register t.fileID f).readerOf t k = (recoveredMem cfg d).get k := by
      have hentries : f.entries = (recoveredMem cfg d).entries := by
        obtain ⟨-, h2, h3, -⟩ := buildTable_ok cfg ((recoveredEngine cfg d tc).nextFileID + 1)
          (recoveredMem cfg d).sorted (fun x hx => h.wal_ok x
            (recoveredMem_versions h.agrees cfg ▸ hx)) hover.2
        have hwritten : e₁.files t.fileID = some (buildTable cfg
            ((recoveredEngine cfg d tc).nextFileID + 1) 0 (recoveredMem cfg d).entries).2 :=
          (exec_writeTable_ssts _ _ _ _).trans (if_pos h3)
        rw [hwritten] at hf
        cases hf
        exact h2
      unfold tableGet
      rw [hread, if_pos rfl, Option.bind_some, hentries, MemTable.get_eq]
    change lookupResult ((((newMemTable cfg.memTableSize).get k).or
      (tablesGet (d.version.applyEdit (addEdit t false)) (tc.register t.fileID f).readerOf k)).getD
        none) = _
    rw [hmem, Option.none_or, tablesGet_addTable hadd hb.newest, htable,
      @tablesGet_congr d.version d.version d.files (tc.register t.fileID f).readerOf rfl
        (fun i x hx => (hlisted i x hx).trans (htc.readers i x hx)) k]
  · rcases @shrink_of_fits d cfg tc hover with heq | heq
    · rw [heq]
    · rw [heq, get_fst, get_fst]
      rfl

/-- **Lookups after a restart**: the logs are asked first, then the tables that the manifest
lists. -/
theorem Openable.openEngine (h : Openable d) (hroom : OpenRoom cfg.withDefaults d) :
    ∃ e, openEngine cfg d = .ok e ∧ ∀ k, (e.get k).1 = lookupResult
      ((((recoveredMem cfg.withDefaults d).get k).or (tablesGet d.version d.files k)).getD
        none) := by
  unfold OpenRoom at hroom
  obtain ⟨tc, htc, hreg, hcap, hlen⟩ := @Openable.registerAll d h
    cfg.withDefaults.maxOpenFiles (by omega)
  refine ⟨_, openEngine_of_registered h.untorn htc, fun k => ?_⟩
  rw [get_finish]
  refine h.get_shrink hreg (fun hover => ?_) k
  rw [if_pos hover] at hroom
  omega

end Open

end LsmTree
