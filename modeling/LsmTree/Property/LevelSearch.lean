import LsmTree.Correct.Tables

/-!
# The level search and the range filter

A lookup asks one table of a deeper level, the last that does not start after the key, and takes an
empty last key for no bound at all.  On a level whose ranges lie side by side, which is what
`sortLevel` and the compactions make of it (`TablesShape.sideBySide`), that is the table which a
linear scan of the level finds (`findLevelCandidate_eq_find?`).

A scan passes over tables by `tableOverlapsRange`, where an empty key stands for an absent bound on
all four sides.  A table that has a key of the scanned range is never passed over
(`tableOverlapsRange_of_mem`, `mem_tableSources`).
-/

namespace LsmTree

variable {level ms : List SSTableMeta} {m : SSTableMeta} {t : SSTable} {k start stop : Bytes}
  {readers : ℕ → Option SSTable}

def SSTableMeta.Covers (m : SSTableMeta) (k : Bytes) : Prop := m.firstKey ≤ k ∧ k ≤ m.lastKey

instance (m : SSTableMeta) (k : Bytes) : Decidable (m.Covers k) :=
  inferInstanceAs (Decidable (_ ∧ _))

/-- The level is sorted by first key, and each range ends before the next one begins. -/
def SideBySide (level : List SSTableMeta) : Prop :=
  level.Pairwise (fun a b => a.firstKey ≤ b.firstKey ∧ a.lastKey < b.firstKey)

instance (level : List SSTableMeta) : Decidable (SideBySide level) :=
  inferInstanceAs (Decidable (level.Pairwise _))

theorem sideBySide_iff (h : ∀ m ∈ level, m.firstKey ≤ m.lastKey) :
    SideBySide level ↔ level.Pairwise (fun a b => a.firstKey ≤ b.firstKey) ∧
      level.Pairwise (fun a b => ¬ ∃ k, a.Covers k ∧ b.Covers k) := by
  rw [← List.pairwise_and_iff]
  refine List.Pairwise.iff_of_mem (fun {a b} ha hb => and_congr_right (fun hab => ?_))
  constructor
  · rintro hlt ⟨k, hka, hkb⟩
    exact absurd (hlt.trans_le (hkb.1.trans hka.2)) (lt_irrefl _)
  · intro hno
    by_contra hle
    exact hno ⟨b.firstKey, ⟨hab, not_lt.1 hle⟩, le_rfl, h b hb⟩

/-! ### Lookups -/

theorem covers_of_findLevelCandidate (hlast : ∀ m ∈ level, m.lastKey ≠ [])
    (hlevel : SideBySide level) (h : findLevelCandidate level k = some m) : m.Covers k := by
  obtain ⟨pre, post, rfl, hpre, hpost⟩ := exists_split_firstKey (hlevel.imp And.left) k
  rw [findLevelCandidate_split hpre hpost, Option.filter_eq_some_iff, Bool.not_eq_true',
    decide_eq_false_iff_not] at h
  have hm : m ∈ pre := List.mem_of_getLast? h.1
  refine ⟨hpre m hm, not_lt.1 (fun hlt => h.2 ⟨?_, hlt⟩)⟩
  exact hlast m (List.mem_append_left _ hm)

theorem findLevelCandidate_eq_find? (hlast : ∀ m ∈ level, m.lastKey ≠ [])
    (hlevel : SideBySide level) (k : Bytes) :
    findLevelCandidate level k = level.find? (fun m => decide (m.Covers k)) := by
  have hscan : level.findSome? (Option.guard fun m => decide (m.Covers k)) =
      (findLevelCandidate level k).bind (Option.guard fun m => decide (m.Covers k)) := by
    refine findSome?_level (hlevel.imp And.left) (hlevel.imp And.right) hlast (fun m hm hk => ?_)
    exact Option.guard_eq_none_iff.2 (decide_eq_false hk)
  rw [List.findSome?_guard] at hscan
  rw [hscan]
  cases hc : findLevelCandidate level k with
  | none => rfl
  | some c =>
    rw [Option.bind_some, eq_comm, Option.guard_eq_some_iff]
    exact ⟨rfl, decide_eq_true (covers_of_findLevelCandidate hlast hlevel hc)⟩

theorem findLevelCandidate_eq_some_iff (hlast : ∀ m ∈ level, m.lastKey ≠ [])
    (hlevel : SideBySide level) :
    findLevelCandidate level k = some m ↔ m ∈ level ∧ m.Covers k := by
  have hfind := findLevelCandidate_eq_find? hlast hlevel k
  have hfound : ∀ c, findLevelCandidate level k = some c → c ∈ level ∧ c.Covers k := by
    intro c hc
    refine ⟨?_, covers_of_findLevelCandidate hlast hlevel hc⟩
    rw [hfind] at hc
    exact List.mem_of_find?_eq_some hc
  refine ⟨hfound m, fun hm => ?_⟩
  cases hc : findLevelCandidate level k with
  | none =>
    rw [hfind, List.find?_eq_none] at hc
    exact absurd (decide_eq_true hm.2) (hc m hm.1)
  | some c =>
    -- both cover the key, and only one table can
    obtain ⟨hmem, hcover⟩ := hfound c hc
    rw [eq_of_range (hlevel.imp And.right) hmem hm.1 hcover hm.2]

/-! ### Scans -/

theorem mem_tableSources (hm : m ∈ ms) (ht : readers m.fileID = some t) (hk : m.Covers k)
    (hstart : start ≤ k) (hstop : stop = [] ∨ k < stop) (p : ℕ) :
    ∃ q, scanSource start stop q t.iterate ∈ tableSources readers start stop p ms := by
  have hover := tableOverlapsRange_of_mem hk.1 hk.2 (Or.inr hstart) hstop
  induction ms generalizing p with
  | nil => cases hm
  | cons m' ms ih =>
    rw [tableSources]
    rcases List.mem_cons.1 hm with rfl | hm
    · rw [if_pos hover, ht]
      exact ⟨p, List.mem_cons_self⟩
    · obtain ⟨q, hq⟩ := ih hm (p + 1)
      refine ⟨q, ?_⟩
      split_ifs
      · cases readers m'.fileID with
        | none => exact hq
        | some t' => exact List.mem_cons_of_mem _ hq
      · exact hq

/-- **The level search is a linear scan, and no table of a scanned range is skipped.**  The search
returns the one table of the level that covers the key, if there is one.  Whatever the bounds, empty
ones included, a table that covers a scanned key passes the filter, and it takes part in the scan if
it can be read. -/
theorem level_search :
    (∀ level : List SSTableMeta, (∀ m ∈ level, m.lastKey ≠ []) → SideBySide level → ∀ key,
      findLevelCandidate level key = level.find? (fun m => decide (m.Covers key)) ∧
        ∀ c, findLevelCandidate level key = some c ↔ c ∈ level ∧ c.Covers key) ∧
      (∀ (m : SSTableMeta) (start stop k : Bytes), m.Covers k → start ≤ k → stop = [] ∨ k < stop →
        tableOverlapsRange m.firstKey m.lastKey start stop = true) ∧
      ∀ (start stop k : Bytes) (p : ℕ) (ms : List SSTableMeta) (tc : TableCache) (m : SSTableMeta)
        (t : SSTable), m ∈ ms → tc.readerOf m.fileID = some t → m.Covers k → start ≤ k →
        stop = [] ∨ k < stop →
        ∃ q, scanSource start stop q t.iterate ∈ (scanTables start stop p ms tc).1 := by
  refine ⟨fun level hlast hlevel key => ⟨findLevelCandidate_eq_find? hlast hlevel key,
    fun c => findLevelCandidate_eq_some_iff hlast hlevel⟩, ?_, ?_⟩
  · intro m start stop k hk hstart hstop
    exact tableOverlapsRange_of_mem hk.1 hk.2 (Or.inr hstart) hstop
  · intro start stop k p ms tc m t hm ht hk hstart hstop
    rw [scanTables_fst]
    exact mem_tableSources hm ht hk hstart hstop p

/-- Two tables with adjacent ranges, where the last key of the first is a prefix of the first key
of the second. -/
def adjacentLevel : List SSTableMeta :=
  [{ fileID := 7, level := 1, firstKey := [1], lastKey := [2], fileSize := 0 },
    { fileID := 3, level := 1, firstKey := [2, 0], lastKey := [5], fileSize := 0 }]

theorem adjacentLevel_search : (∀ m ∈ adjacentLevel, m.lastKey ≠ []) ∧ SideBySide adjacentLevel ∧
    findLevelCandidate adjacentLevel [2] = adjacentLevel[0]? ∧
    findLevelCandidate adjacentLevel [2, 0] = adjacentLevel[1]? := by
  have hlast : ∀ m ∈ adjacentLevel, m.lastKey ≠ [] := by decide
  have hlevel : SideBySide adjacentLevel := by decide
  have hsearch := level_search.1 adjacentLevel hlast hlevel
  exact ⟨hlast, hlevel, (hsearch [2]).1, (hsearch [2, 0]).1⟩

end LsmTree
