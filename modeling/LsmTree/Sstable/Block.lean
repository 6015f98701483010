import LsmTree.Lib.LittleEndian
import LsmTree.Lib.Slice
import LsmTree.Lib.Uvarint
import LsmTree.Sstable.Reader

/-!
# The bytes of a block (`internal/sstable/block_builder.go`, `varint.go`)

Keys, block handles, block builder and block iterator byte for byte.  An entry of a block is
`[sharedLen][unsharedLen][valueLen][unsharedKey][value]` with variable-length numbers; the key
shares its first `sharedLen` bytes with the one before it.  A block ends with its restart points and
their number.

Slice expressions that are out of range, lengths that cannot be allocated and other panics of the
source are `Halt`s of the model.  Loops run on fuel; `Halt.running` says that it was not enough.
-/

namespace LsmTree.Table

open LittleEndian Word

/-- Why a call does not return: a panic, or it is still running. -/
inductive Halt
  | sliceOutOfRange
  | indexOutOfRange
  | lenOutOfRange
  | divideByZero
  | outOfOrder
  | running
  deriving DecidableEq, Repr

inductive TableError
  | corruptSSTable
  | unsupportedVersion (version : ℕ)
  | eof
  | unexpectedEOF
  | negativeOffset
  deriving DecidableEq, Repr

/-- `s[lo:hi]`. -/
def slice (s : Slice UInt8) (lo hi : ℤ) : Except Halt (Slice UInt8) :=
  match s.sub lo hi with
  | some t => .ok t
  | none => .error .sliceOutOfRange

/-! ## Keys and handles -/

/-- An internal key with the types it has in a file: any type byte is possible. -/
structure InternalKey where
  userKey : Bytes
  seqNo : UInt64
  type : UInt8
  deriving DecidableEq, Repr

/-- `[UserKey | SeqNo:8BE | TypeByte]`. -/
def encodeKey (k : InternalKey) : Bytes := k.userKey ++ be64 k.seqNo.toNat ++ [k.type]

/-- The key of its encoding; too short an encoding gives the zero key. -/
def decodeKey (data : Bytes) : InternalKey :=
  if data.length < 9 then ⟨[], 0, 0⟩
  else
    { userKey := data.take (data.length - 9)
      seqNo := UInt64.ofNat (decode ((data.drop (data.length - 9)).take 8).reverse)
      type := data.getLastD 0 }

structure BlockHandle where
  offset : ℕ
  size : ℕ
  deriving DecidableEq, Repr

def encodeBlockHandle (h : BlockHandle) : Bytes := Uvarint.put h.offset ++ Uvarint.put h.size

/-- The handle at the start of the data and the number of bytes it takes, neither of them
checked. -/
def decodeBlockHandle (data : Slice UInt8) : Except Halt (BlockHandle × ℤ) := do
  let offset := Uvarint.get data.toList
  let rest ← slice data offset.2 data.len
  let size := Uvarint.get rest.toList
  return (⟨offset.1, size.1⟩, offset.2 + size.2)

/-! ## Building -/

/-- May the next key follow the previous one in a block? -/
def keysAreInOrder (encodedPrev encodedNext : Bytes) (nextKey : InternalKey) : Bool :=
  if encodedPrev = encodedNext then false
  else if (decodeKey encodedPrev).userKey ≠ nextKey.userKey then
    decide ((decodeKey encodedPrev).userKey < nextKey.userKey)
  else true

/-- A block builder; `lastKey` is `none` until the first key. -/
structure BlockBuilder where
  buf : Bytes := []
  restarts : List UInt32 := []
  counter : ℕ := 0
  lastKey : Option Bytes := none
  restartInterval : ℕ
  deriving DecidableEq, Repr

def newBlockBuilder (restartInterval : ℤ) : BlockBuilder where
  restartInterval := if restartInterval ≤ 0 then restartIntervalDefault else restartInterval.toNat

/-- One entry whose key shares so many bytes with the key before it. -/
def entryBytes (shared : ℕ) (encodedKey value : Bytes) : Bytes :=
  Uvarint.put shared ++ Uvarint.put (encodedKey.length - shared) ++ Uvarint.put value.length ++
    encodedKey.drop shared ++ value

/-- Append a pair with prefix compression, or with its full key at a restart point. -/
def BlockBuilder.add (b : BlockBuilder) (key : InternalKey) (value : Bytes) :
    Except Halt BlockBuilder :=
  let encodedKey := encodeKey key
  if b.lastKey.any fun prev => !keysAreInOrder prev encodedKey key then .error .outOfOrder
  else if b.counter < b.restartInterval then
    .ok { b with
      buf := b.buf ++ entryBytes (sharedLen (b.lastKey.getD []) encodedKey) encodedKey value
      lastKey := some encodedKey
      counter := b.counter + 1 }
  else
    .ok { b with
      restarts := b.restarts ++ [UInt32.ofNat b.buf.length]
      buf := b.buf ++ entryBytes 0 encodedKey value
      lastKey := some encodedKey
      counter := 1 }

def restartBytes (restarts : List UInt32) : Bytes :=
  restarts.flatMap (fun r => encode 4 r.toNat) ++ encode 4 restarts.length

def BlockBuilder.finish (b : BlockBuilder) : Bytes := b.buf ++ restartBytes b.restarts

/-- Clear the builder for reuse; the last key becomes an empty slice, not `nil`. -/
def BlockBuilder.reset (b : BlockBuilder) : BlockBuilder :=
  { restartInterval := b.restartInterval, lastKey := b.lastKey.map fun _ => [] }

/-! ## Decoding -/

structure Block where
  data : Slice UInt8
  restarts : List UInt32

/-- The four bytes at `data[pos:]` as a number. -/
def uint32At (data : Slice UInt8) (pos : ℤ) : Except Halt ℕ := do
  let s ← slice data pos data.len
  if s.len < 4 then .error .indexOutOfRange else .ok (decode (s.toList.take 4))

def decodeBlock (data : Slice UInt8) : Except Halt (Except TableError Block) := do
  if data.len < 4 then return .error .corruptSSTable
  let numRestarts ← uint32At data (data.len - 4)
  let restartsStart : ℤ := data.len - 4 - numRestarts * 4
  if restartsStart < 0 then return .error .corruptSSTable
  let restarts ← (List.range numRestarts).mapM fun i : ℕ => uint32At data (restartsStart + i * 4)
  let body ← slice data 0 restartsStart
  return .ok ⟨body, restarts.map UInt32.ofNat⟩

/-- The lengths at the start of an entry, and how many bytes they take. -/
structure Header where
  shared : ℕ
  unshared : ℕ
  valueLen : ℕ
  size : ℕ
  deriving DecidableEq, Repr

def readVarint (data : Slice UInt8) : Except Halt (Option (ℕ × ℕ × Slice UInt8)) :=
  let v := Uvarint.get data.toList
  if v.2 ≤ 0 then .ok none
  else (slice data v.2 data.len).map fun rest => some (v.1, v.2.toNat, rest)

/-- Read the lengths of an entry; nothing if one of them does not decode. -/
def readHeader (data : Slice UInt8) : Except Halt (Option (Header × Slice UInt8)) := do
  match ← readVarint data with
  | none => return none
  | some (shared, n1, data) =>
    match ← readVarint data with
    | none => return none
    | some (unshared, n2, data) =>
      match ← readVarint data with
      | none => return none
      | some (valueLen, n3, data) => return some (⟨shared, unshared, valueLen, n1 + n2 + n3⟩, data)

def copyInto (dst src : Bytes) : Bytes := src.take dst.length ++ dst.drop src.length

/-- Put the key together from the shared part of the last key and the bytes of the entry. -/
def joinKey (lastKey : Bytes) (data : Slice UInt8) (shared unshared : ℕ) : Except Halt Bytes := do
  let length := uint64 (shared + unshared)
  if 2 ^ 63 ≤ length then .error .lenOutOfRange
  let kept ← slice (.ofList lastKey) 0 shared
  let fullKey := copyInto (List.replicate length 0) kept.toList
  let dst ← slice (.ofList fullKey) shared length
  let src ← slice data 0 unshared
  return fullKey.take shared ++ copyInto dst.toList src.toList

structure BlockIterator where
  block : Block
  pos : ℕ := 0
  lastKey : Bytes := []
  key : InternalKey := ⟨[], 0, 0⟩
  value : Bytes := []
  valid : Bool := false

/-- Move to the next entry.  The two tests are made on signed words. -/
def BlockIterator.next (it : BlockIterator) : Except Halt BlockIterator := do
  if it.block.data.len ≤ it.pos then return { it with valid := false }
  let data ← slice it.block.data it.pos it.block.data.len
  match ← readHeader data with
  | none => return { it with valid := false }
  | some (h, data) =>
    if (it.lastKey.length : ℤ) < int64 h.shared ∨
        (data.len : ℤ) < int64 (int64 h.unshared + int64 h.valueLen) then
      return { it with valid := false }
    let fullKey ← joinKey it.lastKey data h.shared h.unshared
    let value ← slice data h.unshared (uint64 (h.unshared + h.valueLen))
    return { it with
      lastKey := fullKey
      key := decodeKey fullKey
      value := value.toList
      pos := it.pos + h.size + h.unshared + h.valueLen
      valid := true }

def newBlockIterator (block : Block) : Except Halt BlockIterator :=
  BlockIterator.next { block := block }

/-- Move to the entry at a restart point, whose key is stored in full. -/
def BlockIterator.seekToRestart (it : BlockIterator) (restartIdx : ℕ) : Except Halt BlockIterator :=
  match it.block.restarts[restartIdx]? with
  | none => .error .indexOutOfRange
  | some r => BlockIterator.next { it with pos := r.toNat, lastKey := [] }

end LsmTree.Table
