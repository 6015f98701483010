import Mathlib.Data.List.Sort
import LsmTree.Lib.SkipLists
import LsmTree.Memtable

/-!
# Memtables in any order

The memtable over its skip list with all levels (`internal/memtable/skiplist.go`), for any calls and
any outcomes of the random level choices.  Its entries are those of the model with one sorted list
(`tableAfter_entries`).  So if calls with the same key and sequence number are the same, the entries
depend only on the set of the calls, and a lookup finds the newest one (`memtable_order`).
-/

namespace LsmTree

open SkipLists Versioned

variable {l : List Entry}

inductive MemCall
  | put (key value : Bytes) (seqNo : UInt64)
  | delete (key : Bytes) (seqNo : UInt64)
  deriving DecidableEq, Repr

def MemCall.entry : MemCall → Entry
  | .put key value seqNo => ⟨⟨key, seqNo.toNat, .value⟩, value⟩
  | .delete key seqNo => ⟨⟨key, seqNo.toNat, .deletion⟩, []⟩

def skipListMaxLevel : ℕ := 12

/-- The loop of `randomLevel`; `flips` tells which random numbers are below the probability. -/
def climb (level : ℕ) : List Bool → ℕ
  | true :: flips => if level < skipListMaxLevel then climb (level + 1) flips else level
  | _ => level

def randomLevel (flips : List Bool) : ℕ := climb 1 flips

/-- `SkipList.Insert`. -/
def insertTower (sl : State Entry) (key : InternalKey) (value : Bytes) (flips : List Bool) :
    State Entry :=
  sl.insert (fun x => x.key.less key) (fun x => x.key.equal key) (fun x => ⟨x.key, value⟩)
    ⟨key, value⟩ (randomLevel flips)

/-- `SkipList.FindLE`. -/
def findTower (sl : State Entry) (searchKey : InternalKey) : Option Entry :=
  ((sl.find fun x => x.key.less searchKey).bind (sl.items[·]?)).filter
    fun x => x.key.userKey = searchKey.userKey

/-- `MemTable.GetAtSeqNo`. -/
def getAtSeqNo (sl : State Entry) (key : Bytes) (seqNo : UInt64) : Option (Option Bytes) :=
  (findTower sl ⟨key, seqNo.toNat, .deletion⟩).map Entry.payload

/-- `MemTable.Get`, which searches with the greatest sequence number. -/
def getNewest (sl : State Entry) (key : Bytes) : Option (Option Bytes) :=
  (findTower sl ⟨key, 2 ^ 64 - 1, .value⟩).map Entry.payload

/-- The skip list after the calls, each with the flips for a new node. -/
def tableAfter (calls : List (MemCall × List Bool)) : State Entry :=
  calls.foldl (fun sl c => insertTower sl c.1.entry.key c.1.entry.value c.2) {}

def MemTable.call (m : MemTable) : MemCall → MemTable
  | .put key value seqNo => m.put key value seqNo.toNat
  | .delete key seqNo => m.delete key seqNo.toNat

/-! ## The skip list and the sorted list -/

theorem randomLevel_pos (flips : List Bool) : 0 < randomLevel flips := by
  have hclimb : ∀ level flips, level ≤ climb level flips := by
    intro level flips
    induction flips generalizing level with
    | nil => exact le_rfl
    | cons b flips ih =>
      cases b with
      | false => exact le_rfl
      | true =>
        rw [climb]
        split_ifs
        · exact (Nat.le_succ level).trans (ih (level + 1))
        · exact le_rfl
  exact hclimb 1 flips

theorem insertSorted_eq (key : InternalKey) (value : Bytes) (l : List Entry) :
    insertSorted (fun x => x.key.less key) (fun x => x.key.equal key) (fun x => ⟨x.key, value⟩)
      ⟨key, value⟩ l = insertNode key value l := by
  induction l with
  | nil => rfl
  | cons x l ih => rw [insertSorted, insertNode, ih]

theorem SortedEntries.before (h : SortedEntries l) (key : InternalKey) :
    l.Pairwise fun a b => b.key.less key = true → a.key.less key = true :=
  h.imp fun hab hb => InternalKey.less_trans hab hb

/-- **The skip list refines the sorted list**: whatever heights the nodes have, the entries are the
same. -/
theorem tableAfter_entries (calls : List (MemCall × List Bool)) (maxSize : ℤ) :
    (∃ chain height, Rep (tableAfter calls) chain height) ∧ (tableAfter calls).toList =
      (calls.foldl (fun m c => MemTable.call m c.1) (newMemTable maxSize)).entries := by
  induction calls using List.reverseRecOn with
  | nil => exact ⟨⟨[], _, rep_empty Entry⟩, rfl⟩
  | append_singleton calls c ih =>
    obtain ⟨⟨chain, height, hrep⟩, heq⟩ := ih
    have hsorted : SortedEntries (tableAfter calls).toList := heq ▸ MemTable.sorted _
    obtain ⟨chain', height', hrep', hinsert⟩ := hrep.insert (hsorted.before c.1.entry.key)
      (randomLevel_pos c.2)
    rw [tableAfter, List.foldl_append, List.foldl_append]
    refine ⟨⟨chain', height', hrep'⟩, hinsert.trans ?_⟩
    rw [insertSorted_eq, heq]
    rcases c with ⟨c, flips⟩
    cases c <;> rfl

theorem tableAfter_sorted (calls : List (MemCall × List Bool)) :
    SortedEntries (tableAfter calls).toList :=
  (tableAfter_entries calls 0).2 ▸ MemTable.sorted _

/-! ## What it holds and finds -/

def Inserted (calls : List (MemCall × List Bool)) : Set Entry := {e | ∃ c ∈ calls, c.1.entry = e}

theorem mem_tableAfter {calls : List (MemCall × List Bool)} (h : Agrees (Inserted calls))
    (e : Entry) : e ∈ (tableAfter calls).toList ↔ e ∈ Inserted calls := by
  rw [(tableAfter_entries calls 0).2]
  induction calls using List.reverseRecOn generalizing e with
  | nil => simp [Inserted]
  | append_singleton calls c ih =>
    have hsub : Inserted calls ⊆ Inserted (calls ++ [c]) := fun x ⟨d, hd, hx⟩ =>
      ⟨d, List.mem_append_left _ hd, hx⟩
    have hc : c.1.entry ∈ Inserted (calls ++ [c]) := ⟨c, by simp, rfl⟩
    have ih := ih fun x hx y hy => h x (hsub hx) y (hsub hy)
    have hentries : (MemTable.call (calls.foldl (fun m c => MemTable.call m c.1) (newMemTable 0))
        c.1).entries = insertNode c.1.entry.key c.1.entry.value
          (calls.foldl (fun m c => MemTable.call m c.1) (newMemTable 0)).entries := by
      rcases c with ⟨c, flips⟩
      cases c <;> rfl
    have hold : e ∈ Inserted (calls ++ [c]) ↔ e ∈ Inserted calls ∨ e = c.1.entry := by
      simp [Inserted, or_and_right, exists_or, eq_comm]
    rw [List.foldl_append, List.foldl_cons, List.foldl_nil, hentries, mem_insertNode, ih, hold]
    intro y hy heq
    obtain ⟨hk, hs⟩ := InternalKey.equal_iff.1 heq
    exact h y (hsub ((ih y).1 hy)) _ hc hk hs

theorem find_filter_eq (h : SortedEntries l) (k : Bytes) (s : ℕ) (type : EntryType) :
    (l.find? fun x => !x.key.less ⟨k, s, type⟩).filter
      (fun x => x.key.userKey = k) = firstVersion (visible s l) k := by
  induction l with
  | nil => rfl
  | cons x l ih =>
    have ih := ih (List.pairwise_cons.1 h).2
    cases hless : x.key.less ⟨k, s, type⟩ with
    | true =>
      rw [List.find?_cons_of_neg (by simp [hless]), ih]
      rcases InternalKey.less_iff.1 hless with hlt | ⟨-, hlt⟩
      · by_cases hseq : x.key.seqNo ≤ s <;> simp [visible, firstVersion, hseq, ne_of_lt hlt]
      · simp [visible, Nat.not_le.2 hlt]
    | false =>
      rw [List.find?_cons_of_pos (by simp [hless])]
      rcases InternalKey.less_eq_false_iff.1 hless with hlt | ⟨hk, hseq⟩
      · have habsent : firstVersion (visible s (x :: l)) k = none :=
          firstVersion_none.2 fun y hy => (hlt.trans_le (h.userKey_le (mem_visible.1 hy).1)).ne'
        simp [habsent, (ne_of_lt hlt).symm]
      · simp [visible, firstVersion, hseq, hk]

theorem findTower_eq (calls : List (MemCall × List Bool)) (k : Bytes) (s : ℕ) (type : EntryType) :
    findTower (tableAfter calls) ⟨k, s, type⟩ =
      firstVersion (visible s (tableAfter calls).toList) k := by
  obtain ⟨⟨chain, height, hrep⟩, -⟩ := tableAfter_entries calls 0
  have hsorted := tableAfter_sorted calls
  rw [findTower, hrep.find_item (hsorted.before ⟨k, s, type⟩)]
  exact find_filter_eq hsorted k s type

/-- **A memtable is a versioned map that does not depend on the order of the calls**: it lists every
version once, in order; calls in another order, or repeated, give the same entries; and a lookup
finds the newest version, or the newest that a snapshot sees. -/
theorem memtable_order {calls : List (MemCall × List Bool)} (h : Agrees (Inserted calls)) :
    SortedEntries (tableAfter calls).toList ∧
      (∀ e, e ∈ (tableAfter calls).toList ↔ ∃ c ∈ calls, c.1.entry = e) ∧
      (∀ calls', Inserted calls' = Inserted calls →
        (tableAfter calls').toList = (tableAfter calls).toList) ∧
      Answers (getNewest (tableAfter calls)) (Inserted calls) ∧
      ∀ seqNo, Answers (fun key => getAtSeqNo (tableAfter calls) key seqNo)
        {e ∈ Inserted calls | e.key.seqNo ≤ seqNo.toNat} := by
  have hmem := mem_tableAfter h
  have hsorted := tableAfter_sorted calls
  have hvisible : ∀ s, Answers (fun k => (firstVersion (visible s (tableAfter calls).toList) k).map
      Entry.payload) {e ∈ Inserted calls | e.key.seqNo ≤ s} := by
    intro s
    have hset : {e ∈ Inserted calls | e.key.seqNo ≤ s} =
        {e | e ∈ visible s (tableAfter calls).toList} := by
      ext e
      rw [Set.mem_ofPred_eq, Set.mem_ofPred_eq, mem_visible, hmem]
    rw [hset]
    exact answers_firstVersion (hsorted.sublist List.filter_sublist)
  refine ⟨hsorted, hmem, fun calls' hsame => ?_, ?_, fun seqNo => ?_⟩
  · have hirrefl : Std.Irrefl fun a b : Entry => a.key.less b.key = true :=
      ⟨fun a => by simp [InternalKey.less]⟩
    have hantisymm : Std.Antisymm fun a b : Entry => a.key.less b.key = true :=
      ⟨fun a b hab hba => absurd (InternalKey.less_trans hab hba) (hirrefl.irrefl a)⟩
    refine (tableAfter_sorted calls').eq_of_mem_iff hsorted fun e => ?_
    rw [mem_tableAfter (hsame ▸ h), hmem, hsame]
  · -- every sequence number is at most the greatest one
    have hall : {e ∈ Inserted calls | e.key.seqNo ≤ 2 ^ 64 - 1} = Inserted calls := by
      refine Set.sep_eq_self_iff_mem_true.2 ?_
      rintro e ⟨⟨c, flips⟩, -, rfl⟩
      cases c with
      | put key value seqNo => exact Nat.le_sub_one_of_lt seqNo.toNat_lt
      | delete key seqNo => exact Nat.le_sub_one_of_lt seqNo.toNat_lt
    have hget : getNewest (tableAfter calls) = fun k =>
        (firstVersion (visible (2 ^ 64 - 1) (tableAfter calls).toList) k).map Entry.payload := by
      funext k
      rw [getNewest, findTower_eq]
    rw [hget, ← hall]
    exact hvisible (2 ^ 64 - 1)
  · have hget : (fun key => getAtSeqNo (tableAfter calls) key seqNo) = fun k =>
        (firstVersion (visible seqNo.toNat (tableAfter calls).toList) k).map Entry.payload := by
      funext k
      rw [getAtSeqNo, findTower_eq]
    rw [hget]
    exact hvisible seqNo.toNat

/-- A write, a later deletion, and the write once more, as a replay has it. -/
def replayedCalls : List (MemCall × List Bool) :=
  [(.put [1] [5] 3, [true]), (.delete [1] 7, []), (.put [1] [5] 3, [])]

/-- The calls in the other order give the same entries. -/
theorem replayedCalls_order : Agrees (Inserted replayedCalls) ∧
    (tableAfter replayedCalls.reverse).toList = (tableAfter replayedCalls).toList := by
  have hagree : Agrees (Inserted replayedCalls) := by
    rintro _ ⟨c, hc, rfl⟩ _ ⟨d, hd, rfl⟩ _ hs
    simp only [replayedCalls, List.mem_cons, List.not_mem_nil, or_false] at hc hd
    rcases hc with rfl | rfl | rfl <;> rcases hd with rfl | rfl | rfl <;>
      first | rfl | exact absurd hs (by decide)
  refine ⟨hagree, (memtable_order hagree).2.2.1 _ ?_⟩
  ext e
  simp [Inserted]

end LsmTree
