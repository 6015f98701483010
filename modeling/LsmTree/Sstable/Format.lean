import Mathlib.Data.List.Lex
import Mathlib.Data.List.Pairwise
import Mathlib.Order.Basic
import LsmTree.Lib.Versioned
import LsmTree.Lib.KWayMerge

/-!
# Keys, entries and table metadata (`internal/sstable/format.go`)

Byte strings are ordered as `bytes.Compare` orders them.  The engine stamps every write of a user
key with a sequence number; an `InternalKey` carries both and a type that tells live values from
tombstones.  Internal keys sort by user key, and the newer of two versions of one user key sorts
first.

Sequence numbers and file ids are natural numbers: the 64-bit counters of the engine are not
assumed to wrap around.
-/

namespace LsmTree

instance instLinearOrderUInt8 : LinearOrder UInt8 where
  le_refl := UInt8.le_refl
  le_trans _ _ _ := UInt8.le_trans
  lt_iff_le_not_ge a b := by
    rw [UInt8.lt_iff_toNat_lt, UInt8.le_iff_toNat_le, UInt8.le_iff_toNat_le]; omega
  le_antisymm _ _ := UInt8.le_antisymm
  le_total := UInt8.le_total
  toDecidableLE := inferInstance
  toDecidableLT := inferInstance
  toDecidableEq := inferInstance

abbrev Bytes := List UInt8

instance instLawfulBEqBytes : LawfulBEq Bytes := inferInstance

inductive EntryType
  | value
  | deletion
  deriving DecidableEq, Repr

structure InternalKey where
  userKey : Bytes
  seqNo : ℕ
  type : EntryType
  deriving DecidableEq, Repr

/-- `a` sorts before `b`: user key ascending, then sequence number descending. -/
def InternalKey.less (a b : InternalKey) : Bool :=
  if a.userKey ≠ b.userKey then decide (a.userKey < b.userKey) else decide (b.seqNo < a.seqNo)

def InternalKey.equal (a b : InternalKey) : Bool :=
  decide (a.userKey = b.userKey) && decide (a.seqNo = b.seqNo)

/-- One key-value record of a memtable or a table; a tombstone has no value bytes. -/
structure Entry where
  key : InternalKey
  value : Bytes
  deriving DecidableEq, Repr

/-- What the record says about its user key: a live value, or a deletion. -/
def Entry.payload (e : Entry) : Option Bytes :=
  match e.key.type with
  | .value => some e.value
  | .deletion => none

instance : Versioned.Stamped Entry Bytes Bytes where
  key e := e.key.userKey
  seq e := e.key.seqNo
  payload := Entry.payload

@[simp] theorem stamped_key (e : Entry) : Versioned.Stamped.key e = e.key.userKey := rfl
@[simp] theorem stamped_seq (e : Entry) : Versioned.Stamped.seq e = e.key.seqNo := rfl
@[simp] theorem stamped_payload (e : Entry) : Versioned.Stamped.payload e = e.payload := rfl

/-- The metadata of one table file.  `createdAt` is in nanoseconds. -/
structure SSTableMeta where
  fileID : ℕ
  level : ℕ
  firstKey : Bytes
  lastKey : Bytes
  fileSize : ℕ
  createdAt : ℤ := 0
  deriving DecidableEq, Repr

/-! ### The order on internal keys -/

variable {a b : InternalKey}

theorem InternalKey.less_iff :
    a.less b = true ↔
      a.userKey < b.userKey ∨ (a.userKey = b.userKey ∧ b.seqNo < a.seqNo) := by
  unfold InternalKey.less
  split_ifs with h
  · simp only [decide_eq_true_eq]
    exact ⟨Or.inl, fun h' => h'.resolve_right (fun hc => h hc.1)⟩
  · have he : a.userKey = b.userKey := not_not.1 h
    simp [he]

theorem InternalKey.less_eq_false_iff :
    a.less b = false ↔
      b.userKey < a.userKey ∨ (a.userKey = b.userKey ∧ a.seqNo ≤ b.seqNo) := by
  rw [← Bool.not_eq_true, InternalKey.less_iff]
  rcases lt_trichotomy a.userKey b.userKey with h | h | h
  · simp [h, h.ne, h.not_gt]
  · simp [h]
  · simp [h, h.ne', h.not_gt]

theorem InternalKey.less_trans {c : InternalKey} (h : a.less b = true) (h' : b.less c = true) :
    a.less c = true := by
  rw [InternalKey.less_iff] at *
  rcases h with h | ⟨h1, h2⟩ <;> rcases h' with h' | ⟨h1', h2'⟩
  · exact Or.inl (h.trans h')
  · exact Or.inl (h1' ▸ h)
  · exact Or.inl (h1 ▸ h')
  · exact Or.inr ⟨h1.trans h1', h2'.trans h2⟩

theorem InternalKey.equal_iff : a.equal b = true ↔ a.userKey = b.userKey ∧ a.seqNo = b.seqNo := by
  simp [InternalKey.equal]

theorem InternalKey.less_userKey_le (h : a.less b = true) : a.userKey ≤ b.userKey := by
  rcases InternalKey.less_iff.1 h with h | h
  · exact h.le
  · exact h.1.le

/-- Entries sorted strictly by internal key, as a memtable and a table store them. -/
def SortedEntries (es : List Entry) : Prop := es.Pairwise (fun a b => a.key.less b.key = true)

variable {es : List Entry}

theorem SortedEntries.userKey_le {e x : Entry} (h : SortedEntries (e :: es)) (hx : x ∈ e :: es) :
    e.key.userKey ≤ x.key.userKey := by
  rcases List.mem_cons.1 hx with rfl | hx
  · exact le_rfl
  · exact InternalKey.less_userKey_le ((List.pairwise_cons.1 h).1 x hx)

theorem SortedEntries.agrees (h : SortedEntries es) : Versioned.Agrees {e | e ∈ es} := by
  intro a ha b hb hk hs
  by_contra hne
  have hsymm : es.Pairwise (fun a b : Entry => a.key.less b.key = true ∨ b.key.less a.key = true) :=
    h.imp Or.inl
  have : Std.Symm (fun a b : Entry => a.key.less b.key = true ∨ b.key.less a.key = true) :=
    ⟨fun _ _ => Or.symm⟩
  rcases hsymm.forall ha hb hne with hab | hab <;>
    rcases InternalKey.less_iff.1 hab with hlt | ⟨-, hlt⟩
  · exact hlt.ne hk
  · exact hlt.ne hs.symm
  · exact hlt.ne hk.symm
  · exact hlt.ne hs

end LsmTree
