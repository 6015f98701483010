import Mathlib.Order.WithBot
import LsmTree.Sstable.Reader

/-!
# Memtables (`internal/memtable/memtable.go`, `skiplist.go`)

A memtable is a skip list of versions in internal-key order together with an approximate size.  The
skip list is modelled by its bottom level, which all towers agree with; its sortedness is part of
the type.

A lookup of a key finds its newest version (`MemTable.get_answers`).  Inserting adds just the new
version, as long as its stamp is not already in use for another one (`mem_insertNode`).
-/

namespace LsmTree

variable {l : List Entry}

/-- Insert a pair; an equal key (user key and sequence number) has only its value replaced. -/
def insertNode (key : InternalKey) (value : Bytes) : List Entry → List Entry
  | [] => [⟨key, value⟩]
  | x :: xs =>
    if x.key.less key then x :: insertNode key value xs
    else if x.key.equal key then ⟨x.key, value⟩ :: xs
    else ⟨key, value⟩ :: x :: xs

theorem mem_insertNode_of {key : InternalKey} {value : Bytes} {x : Entry}
    (h : x ∈ insertNode key value l) : x ∈ l ∨ (x.key.equal key = true ∧ x.value = value) := by
  induction l with
  | nil =>
    rw [insertNode, List.mem_singleton] at h
    subst h
    exact Or.inr ⟨InternalKey.equal_iff.2 ⟨rfl, rfl⟩, rfl⟩
  | cons y ys ih =>
    rw [insertNode] at h
    split_ifs at h with h1 h2
    · rcases List.mem_cons.1 h with rfl | h
      · exact Or.inl List.mem_cons_self
      · exact (ih h).imp_left (List.mem_cons_of_mem y)
    · rcases List.mem_cons.1 h with rfl | h
      · exact Or.inr ⟨h2, rfl⟩
      · exact Or.inl (List.mem_cons_of_mem y h)
    · rcases List.mem_cons.1 h with rfl | h
      · exact Or.inr ⟨InternalKey.equal_iff.2 ⟨rfl, rfl⟩, rfl⟩
      · exact Or.inl h

theorem InternalKey.less_of_equal {a b c : InternalKey} (h : a.equal b = true) :
    c.less a = c.less b := by
  obtain ⟨hk, hs⟩ := InternalKey.equal_iff.1 h
  simp [InternalKey.less, hk, hs]

theorem insertNode_sorted (h : SortedEntries l) (key : InternalKey) (value : Bytes) :
    SortedEntries (insertNode key value l) := by
  induction l with
  | nil => exact List.pairwise_singleton _ _
  | cons y ys ih =>
    obtain ⟨hy, hys⟩ := List.pairwise_cons.1 h
    rw [insertNode]
    split_ifs with h1 h2
    · refine List.pairwise_cons.2 ⟨fun x hx => ?_, ih hys⟩
      rcases mem_insertNode_of hx with hx | ⟨hx, -⟩
      · exact hy x hx
      · rw [InternalKey.less_of_equal hx]
        exact h1
    · exact List.pairwise_cons.2 ⟨hy, hys⟩
    · have hlt : key.less y.key = true := by
        rcases InternalKey.less_eq_false_iff.1 (Bool.eq_false_iff.2 h1) with hl | ⟨hk, hs⟩
        · exact InternalKey.less_iff.2 (Or.inl hl)
        · refine InternalKey.less_iff.2 (Or.inr ⟨hk.symm, lt_of_le_of_ne hs ?_⟩)
          exact fun hc => h2 (InternalKey.equal_iff.2 ⟨hk, hc⟩)
      refine List.pairwise_cons.2 ⟨fun x hx => ?_, h⟩
      rcases List.mem_cons.1 hx with rfl | hx
      · exact hlt
      · exact InternalKey.less_trans hlt (hy x hx)

theorem mem_insertNode {l : List Entry} {e x : Entry}
    (h : ∀ y ∈ l, y.key.equal e.key = true → y = e) :
    x ∈ insertNode e.key e.value l ↔ x ∈ l ∨ x = e := by
  induction l with
  | nil => rw [insertNode]; simp
  | cons y ys ih =>
    have ih := ih (fun z hz => h z (List.mem_cons_of_mem y hz))
    rw [insertNode]
    split_ifs with h1 h2
    · rw [List.mem_cons, ih, List.mem_cons, or_assoc]
    · have hye : y = e := h y List.mem_cons_self h2
      subst hye
      rw [List.mem_cons]
      tauto
    · rw [List.mem_cons, or_comm]

theorem insertNode_ne_nil (key : InternalKey) (value : Bytes) (l : List Entry) :
    insertNode key value l ≠ [] := by
  cases l with
  | nil => exact List.cons_ne_nil _ _
  | cons y ys => rw [insertNode]; split_ifs <;> exact List.cons_ne_nil _ _

/-- A skip list, as the ordered list of its nodes. -/
structure SkipList where
  nodes : List Entry
  sorted : SortedEntries nodes

def newSkipList : SkipList := ⟨[], List.Pairwise.nil⟩

def SkipList.insert (sl : SkipList) (key : InternalKey) (value : Bytes) : SkipList :=
  ⟨insertNode key value sl.nodes, insertNode_sorted sl.sorted key value⟩

/-- The first node not before the search key, if it is of the same user key.  The search key's
sequence number `⊤` is `math.MaxUint64`. -/
def SkipList.findLE (sl : SkipList) (userKey : Bytes) (seqNo : WithTop ℕ) : Option Entry :=
  match sl.nodes.find? (fun x => !(decide (x.key.userKey < userKey) ||
      (decide (x.key.userKey = userKey) && decide (seqNo < WithTop.some x.key.seqNo)))) with
  | some x => if x.key.userKey = userKey then some x else none
  | none => none

/-- A mutable in-memory sorted table.  A table that has gained size has entries. -/
structure MemTable where
  sl : SkipList
  size : ℤ
  maxSize : ℤ
  nonempty : 0 < size → sl.nodes ≠ []

def newMemTable (maxSize : ℤ) : MemTable := ⟨newSkipList, 0, maxSize, fun h => absurd h (by decide)⟩

def MemTable.put (m : MemTable) (key value : Bytes) (seqNo : ℕ) : MemTable :=
  { m with
    sl := m.sl.insert ⟨key, seqNo, .value⟩ value
    size := m.size + (key.length + value.length + 16)
    nonempty := fun _ => insertNode_ne_nil _ _ _ }

def MemTable.delete (m : MemTable) (key : Bytes) (seqNo : ℕ) : MemTable :=
  { m with
    sl := m.sl.insert ⟨key, seqNo, .deletion⟩ []
    size := m.size + (key.length + 16)
    nonempty := fun _ => insertNode_ne_nil _ _ _ }

/-- The most recent version of a key: `none` if there is none, `some none` for a tombstone. -/
def MemTable.get (m : MemTable) (key : Bytes) : Option (Option Bytes) :=
  (m.sl.findLE key ⊤).map Entry.payload

def MemTable.entries (m : MemTable) : List Entry := m.sl.nodes

def MemTable.approximateSize (m : MemTable) : ℤ := m.size

def MemTable.isFull (m : MemTable) : Bool := decide (m.maxSize ≤ m.size)

theorem MemTable.sorted (m : MemTable) : SortedEntries m.entries := m.sl.sorted

/-! ### Lookups -/

@[simp] theorem newMemTable_entries (s : ℤ) : (newMemTable s).entries = [] := rfl

theorem findLE_top (sl : SkipList) (k : Bytes) : sl.findLE k ⊤ = firstVersion sl.nodes k := by
  obtain ⟨l, hl⟩ := sl
  unfold SkipList.findLE firstVersion
  simp only [not_top_lt, decide_false, Bool.and_false, Bool.or_false]
  induction l with
  | nil => rfl
  | cons x xs ih =>
    have ih := ih (List.pairwise_cons.1 hl).2
    rcases lt_trichotomy x.key.userKey k with hlt | heq | hgt
    · simpa [List.find?_cons, hlt, hlt.ne] using ih
    · simp [heq]
    · have hnone : firstVersion xs k = none := by
        refine firstVersion_none.2 (fun y hy hyk => ?_)
        have := InternalKey.less_userKey_le ((List.pairwise_cons.1 hl).1 y hy)
        rw [hyk] at this
        exact absurd hgt (not_lt.2 this)
      unfold firstVersion at hnone
      simp [hgt.ne', hgt.not_gt, hnone]

theorem MemTable.get_eq (m : MemTable) (k : Bytes) :
    m.get k = (firstVersion m.entries k).map Entry.payload := by
  rw [MemTable.get, findLE_top]
  rfl

def MemTable.versions (m : MemTable) : Set Entry := {e | e ∈ m.entries}

theorem answers_firstVersion {es : List Entry} (hs : SortedEntries es) :
    Versioned.Answers (fun k => (firstVersion es k).map Entry.payload) {e | e ∈ es} := by
  intro k
  cases hv : firstVersion es k with
  | none =>
    simp only [hv, Option.map_none]
    rintro ⟨e, he, hk⟩
    exact firstVersion_none.1 hv e he hk
  | some e =>
    simp only [hv, Option.map_some]
    exact ⟨e, firstVersion_isNewest hs hv, rfl⟩

theorem MemTable.get_answers (m : MemTable) : Versioned.Answers m.get m.versions := by
  have h := answers_firstVersion m.sorted
  intro k
  rw [m.get_eq k]
  exact h k

@[simp] theorem newMemTable_versions (s : ℤ) : (newMemTable s).versions = ∅ := by
  ext e; simp [MemTable.versions]

end LsmTree
