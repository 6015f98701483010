import Mathlib.Data.List.Basic
import LsmTree.Bloom

/-!
# Building tables (`internal/sstable/builder.go`, `block_builder.go`, `varint.go`)

A table is a sequence of data blocks, an index entry for each of them (the last internal key of the
block) and a Bloom filter over its user keys.  `SSTableBuilder` cuts the entries it is given into
blocks by the encoded size of a block, so the builders keep the sizes of their buffers: prefix
compression, varint lengths, restart points and footer are counted byte for byte, the bytes
themselves are not kept.

The built table holds exactly the added entries, in order (`finish_built`).
-/

namespace LsmTree

def be64 (n : ℕ) : Bytes := (List.range 8).map (fun i => UInt8.ofNat (n / 256 ^ (7 - i)))

def EntryType.byte : EntryType → UInt8
  | .value => 1
  | .deletion => 2

/-- `[UserKey | SeqNo:8BE | TypeByte]`. -/
def encodeKey (k : InternalKey) : Bytes := k.userKey ++ be64 k.seqNo ++ [k.type.byte]

/-- The number of bytes `PutUvarint` writes. -/
def uvarintLen (n : ℕ) : ℕ := Nat.log2 n / 7 + 1

/-- The length of the common part at the start of two byte strings. -/
def sharedLen : Bytes → Bytes → ℕ
  | a :: as, b :: bs => if a = b then sharedLen as bs + 1 else 0
  | _, _ => 0

/-- The number of entries between restart points of a data block. -/
def restartIntervalDefault : ℕ := 16

def footerSize : ℕ := 48

/-- The state of a block builder: `len(b.buf)`, `len(b.restarts)`, entries since the last restart
point, and the last encoded key. -/
structure BlockBuilder where
  size : ℕ := 0
  restarts : ℕ := 0
  counter : ℕ := 0
  lastKey : Bytes := []
  restartInterval : ℕ := restartIntervalDefault
  deriving Repr

/-- Append a pair with prefix compression; the value matters only through its length. -/
def BlockBuilder.add (b : BlockBuilder) (key : InternalKey) (valueLen : ℕ) : BlockBuilder :=
  let encoded := encodeKey key
  let compress := b.counter < b.restartInterval
  let shared := if compress then sharedLen b.lastKey encoded else 0
  let unshared := encoded.length - shared
  { b with
    size := b.size + uvarintLen shared + uvarintLen unshared + uvarintLen valueLen + unshared +
      valueLen
    restarts := if compress then b.restarts else b.restarts + 1
    counter := (if compress then b.counter else 0) + 1
    lastKey := encoded }

/-- The length of the finished block: the buffer, the restart array and its length. -/
def BlockBuilder.finishSize (b : BlockBuilder) : ℕ := b.size + 4 * b.restarts + 4

def BlockBuilder.reset (b : BlockBuilder) : BlockBuilder :=
  { restartInterval := b.restartInterval }

/-- A data block as the reader sees it: its index entry, its entries, and whether `loadBlock`
succeeds on it. -/
structure DataBlock where
  lastKey : InternalKey
  entries : List Entry
  loads : Bool := true
  deriving DecidableEq, Repr

/-- A table file: its data blocks in order, and its Bloom filter when it has one. -/
structure SSTable where
  blocks : List DataBlock
  filter : Option BloomFilter
  deriving DecidableEq, Repr

def SSTable.entries (t : SSTable) : List Entry := t.blocks.flatMap DataBlock.entries

/-- The table builder.  `pending` are the entries of the unfinished data block.  The index entry of
a finished block is written at once here; the source holds it back until the next `Add` or
`Finish`, before anything reads the index. -/
structure SSTableBuilder where
  fileID : ℕ
  level : ℕ
  blockSize : ℕ
  bitsPerKey : ℕ
  fileSize : ℕ := 0
  dataBlock : BlockBuilder := {}
  indexBlock : BlockBuilder := { restartInterval := 1 }
  blocks : List DataBlock := []
  pending : List Entry := []
  bloomKeys : List Bytes := []
  firstKey : Option Bytes := none
  lastKey : Bytes := []
  numEntries : ℕ := 0
  deriving Repr

/-- A new builder, with the defaults for sizes that are not positive. -/
def newSSTableBuilder (fileID level : ℕ) (blockSize bitsPerKey : ℤ) : SSTableBuilder where
  fileID := fileID
  level := level
  blockSize := if blockSize ≤ 0 then 4096 else blockSize.toNat
  bitsPerKey := if bitsPerKey ≤ 0 then 10 else bitsPerKey.toNat

def SSTableBuilder.flushDataBlock (b : SSTableBuilder) (lastKey : InternalKey) : SSTableBuilder :=
  let size := b.dataBlock.finishSize
  { b with
    fileSize := b.fileSize + size
    indexBlock := b.indexBlock.add lastKey (uvarintLen b.fileSize + uvarintLen size)
    blocks := b.blocks ++ [{ lastKey := lastKey, entries := b.pending }]
    pending := []
    dataBlock := b.dataBlock.reset }

/-- Add a key-value pair; the data block is finished once it is large enough. -/
def SSTableBuilder.add (b : SSTableBuilder) (e : Entry) : SSTableBuilder :=
  let b' := { b with
    firstKey := b.firstKey.or (some e.key.userKey)
    lastKey := e.key.userKey
    bloomKeys := b.bloomKeys ++ [e.key.userKey]
    dataBlock := b.dataBlock.add e.key e.value.length
    pending := b.pending ++ [e]
    numEntries := b.numEntries + 1 }
  if b'.blockSize ≤ b'.dataBlock.size then b'.flushDataBlock e.key else b'

def SSTableBuilder.approxSize (b : SSTableBuilder) : ℕ := b.fileSize + b.dataBlock.size

def SSTableBuilder.closeBlocks (b : SSTableBuilder) : SSTableBuilder :=
  match b.pending.getLast? with
  | some e => if 0 < b.dataBlock.size then b.flushDataBlock e.key else b
  | none => b

def SSTableBuilder.finish (b : SSTableBuilder) : SSTableMeta × SSTable :=
  let b := b.closeBlocks
  let filter := if b.bloomKeys = [] then none else some (newBloomFilter b.bloomKeys b.bitsPerKey)
  let filterSize := match filter with
    | none => 0
    | some f => f.bits.length
  ({ fileID := b.fileID
     level := b.level
     firstKey := b.firstKey.getD []
     lastKey := b.lastKey
     fileSize := b.fileSize + filterSize + b.indexBlock.finishSize + footerSize },
   { blocks := b.blocks, filter := filter })

/-! ### What a finished table holds -/

/-- A readable block whose index entry is the key of its last entry. -/
def DataBlock.Ok (b : DataBlock) : Prop :=
  b.loads = true ∧ ∃ e, b.entries.getLast? = some e ∧ b.lastKey = e.key

def SSTableBuilder.all (b : SSTableBuilder) : List Entry :=
  b.blocks.flatMap DataBlock.entries ++ b.pending

/-- The bookkeeping of a builder agrees with what was added. -/
structure SSTableBuilder.Inv (b : SSTableBuilder) : Prop where
  blocks_ok : ∀ x ∈ b.blocks, x.Ok
  bloomKeys_eq : b.bloomKeys = b.all.map (fun e => e.key.userKey)
  firstKey_eq : b.firstKey = b.all.head?.map (fun e => e.key.userKey)
  lastKey_eq : ∀ e, b.all.getLast? = some e → b.lastKey = e.key.userKey
  numEntries_eq : b.numEntries = b.all.length
  size_pos : b.pending ≠ [] → 0 < b.dataBlock.size

/-- The table was built from the entries: they are cut into readable blocks, and the filter covers
their user keys. -/
structure SSTable.Built (t : SSTable) (es : List Entry) : Prop where
  entries_eq : t.entries = es
  blocks_ok : ∀ x ∈ t.blocks, x.Ok
  filter_eq : ∀ f, t.filter = some f → ∀ e ∈ es, f.mayContain e.key.userKey = true

theorem newSSTableBuilder_inv (fileID level : ℕ) (blockSize bitsPerKey : ℤ) :
    (newSSTableBuilder fileID level blockSize bitsPerKey).Inv where
  blocks_ok := by simp [newSSTableBuilder]
  bloomKeys_eq := by simp [newSSTableBuilder, SSTableBuilder.all]
  firstKey_eq := by simp [newSSTableBuilder, SSTableBuilder.all]
  lastKey_eq := by simp [newSSTableBuilder, SSTableBuilder.all]
  numEntries_eq := by simp [newSSTableBuilder, SSTableBuilder.all]
  size_pos := by simp [newSSTableBuilder]

@[simp] theorem newSSTableBuilder_all (fileID level : ℕ) (blockSize bitsPerKey : ℤ) :
    (newSSTableBuilder fileID level blockSize bitsPerKey).all = [] := by
  simp [newSSTableBuilder, SSTableBuilder.all]

@[simp] theorem flushDataBlock_all (b : SSTableBuilder) (k : InternalKey) :
    (b.flushDataBlock k).all = b.all := by
  simp [SSTableBuilder.flushDataBlock, SSTableBuilder.all]

variable {b : SSTableBuilder}

theorem SSTableBuilder.Inv.flushDataBlock (h : b.Inv) {e : Entry}
    (he : b.pending.getLast? = some e) : (b.flushDataBlock e.key).Inv where
  blocks_ok := by
    intro x hx
    rcases List.mem_append.1 hx with hx | hx
    · exact h.blocks_ok x hx
    · rw [List.mem_singleton.1 hx]
      exact ⟨rfl, e, he, rfl⟩
  bloomKeys_eq := by rw [flushDataBlock_all]; exact h.bloomKeys_eq
  firstKey_eq := by rw [flushDataBlock_all]; exact h.firstKey_eq
  lastKey_eq := by rw [flushDataBlock_all]; exact h.lastKey_eq
  numEntries_eq := by rw [flushDataBlock_all]; exact h.numEntries_eq
  size_pos := fun hne => absurd rfl hne

theorem BlockBuilder.add_size_pos (b : BlockBuilder) (k : InternalKey) (n : ℕ) :
    0 < (b.add k n).size := by
  simp only [BlockBuilder.add, uvarintLen]
  omega

@[simp] theorem add_all (b : SSTableBuilder) (e : Entry) : (b.add e).all = b.all ++ [e] := by
  unfold SSTableBuilder.add
  simp only
  split_ifs
  · rw [flushDataBlock_all]; simp [SSTableBuilder.all]
  · simp [SSTableBuilder.all]

theorem SSTableBuilder.Inv.add {b : SSTableBuilder} (h : b.Inv) (e : Entry) : (b.add e).Inv := by
  have key : ({ b with
      firstKey := b.firstKey.or (some e.key.userKey)
      lastKey := e.key.userKey
      bloomKeys := b.bloomKeys ++ [e.key.userKey]
      dataBlock := b.dataBlock.add e.key e.value.length
      pending := b.pending ++ [e]
      numEntries := b.numEntries + 1 } : SSTableBuilder).Inv := by
    have hall : b.blocks.flatMap DataBlock.entries ++ (b.pending ++ [e]) = b.all ++ [e] := by
      simp [SSTableBuilder.all]
    constructor
    · exact h.blocks_ok
    · simp only [SSTableBuilder.all]
      rw [hall, h.bloomKeys_eq]
      simp
    · simp only [SSTableBuilder.all]
      rw [hall, h.firstKey_eq]
      cases b.all <;> simp
    · simp only [SSTableBuilder.all]
      rw [hall]
      intro x hx
      rw [List.getLast?_concat, Option.some.injEq] at hx
      rw [hx]
    · simp only [SSTableBuilder.all]
      rw [hall, h.numEntries_eq]
      simp
    · exact fun _ => BlockBuilder.add_size_pos _ _ _
  unfold SSTableBuilder.add
  simp only
  split_ifs
  · exact key.flushDataBlock (by simp)
  · exact key

@[simp] theorem foldl_add_all (es : List Entry) (b : SSTableBuilder) :
    (es.foldl SSTableBuilder.add b).all = b.all ++ es := by
  induction es generalizing b with
  | nil => simp
  | cons e es ih => simp [ih]

theorem SSTableBuilder.Inv.foldl_add (h : b.Inv) (es : List Entry) :
    (es.foldl SSTableBuilder.add b).Inv := by
  induction es generalizing b with
  | nil => exact h
  | cons e es ih => exact ih (h.add e)

theorem SSTableBuilder.Inv.closeBlocks (h : b.Inv) :
    b.closeBlocks.Inv ∧ b.closeBlocks.all = b.all ∧ b.closeBlocks.pending = [] := by
  unfold SSTableBuilder.closeBlocks
  split
  · rename_i e he
    have hne : b.pending ≠ [] := by rintro hc; rw [hc] at he; cases he
    rw [if_pos (h.size_pos hne)]
    exact ⟨h.flushDataBlock he, flushDataBlock_all b e.key, rfl⟩
  · rename_i he
    exact ⟨h, rfl, List.getLast?_eq_none_iff.1 he⟩

/-- **A finished table holds exactly what was added.** -/
theorem finish_built (h : b.Inv) : b.finish.2.Built b.all := by
  obtain ⟨hinv, hall, hpend⟩ := h.closeBlocks
  have hblocks : b.closeBlocks.blocks.flatMap DataBlock.entries = b.all := by
    rw [← hall, SSTableBuilder.all, hpend, List.append_nil]
  constructor
  · exact hblocks
  · exact hinv.blocks_ok
  · intro f hf e he
    simp only [SSTableBuilder.finish] at hf
    split_ifs at hf
    cases hf
    refine mayContain_newBloomFilter ?_ _
    rw [hinv.bloomKeys_eq, hall]
    exact List.mem_map_of_mem he

theorem closeBlocks_fields (b : SSTableBuilder) :
    b.closeBlocks.fileID = b.fileID ∧ b.closeBlocks.level = b.level ∧
      b.closeBlocks.firstKey = b.firstKey ∧ b.closeBlocks.lastKey = b.lastKey := by
  unfold SSTableBuilder.closeBlocks
  split
  · split_ifs
    · exact ⟨rfl, rfl, rfl, rfl⟩
    · exact ⟨rfl, rfl, rfl, rfl⟩
  · exact ⟨rfl, rfl, rfl, rfl⟩

@[simp] theorem add_fileID (b : SSTableBuilder) (e : Entry) : (b.add e).fileID = b.fileID := by
  unfold SSTableBuilder.add; simp only; split_ifs <;> rfl

@[simp] theorem add_level (b : SSTableBuilder) (e : Entry) : (b.add e).level = b.level := by
  unfold SSTableBuilder.add; simp only; split_ifs <;> rfl

theorem foldl_add_fields (es : List Entry) (b : SSTableBuilder) :
    (es.foldl SSTableBuilder.add b).fileID = b.fileID ∧
      (es.foldl SSTableBuilder.add b).level = b.level := by
  induction es generalizing b with
  | nil => exact ⟨rfl, rfl⟩
  | cons e es ih => simpa using ih (b.add e)

@[simp] theorem finish_fileID (b : SSTableBuilder) : b.finish.1.fileID = b.fileID :=
  (closeBlocks_fields b).1

@[simp] theorem finish_level (b : SSTableBuilder) : b.finish.1.level = b.level :=
  (closeBlocks_fields b).2.1

theorem finish_range (h : b.Inv) {x y : Entry} (hx : b.all.head? = some x)
    (hy : b.all.getLast? = some y) :
    b.finish.1.firstKey = x.key.userKey ∧ b.finish.1.lastKey = y.key.userKey := by
  obtain ⟨-, -, hf, hl⟩ := closeBlocks_fields b
  simp only [SSTableBuilder.finish]
  rw [hf, hl, h.firstKey_eq, hx, h.lastKey_eq y hy]
  exact ⟨rfl, rfl⟩

end LsmTree
