import LsmTree.BlockCache
import LsmTree.Sstable.Block

/-!
# The bytes of a table file (`internal/sstable/builder.go`, `reader.go`)

A table file holds its data blocks, the Bloom filter, the index block and a footer of 48 bytes with
the handles of filter and index, a version and a magic number.  The reader has the file mapped into
memory, or, without a mapping, reads from it.

Writing to the file does not fail here, and memory can be allocated up to the largest length that
the language admits.
-/

namespace LsmTree.Table

open LittleEndian Word

def magicNumber : ℕ := 0x88e241b785f4cff7

def formatVersion : ℕ := 1

structure SSTableMeta where
  fileID : ℕ
  level : ℕ
  firstKey : Bytes
  lastKey : Bytes
  fileSize : ℕ
  numKeys : ℕ
  filePath : String
  createdAt : ℤ
  deriving DecidableEq, Repr

/-! ## Building -/

/-- A table builder; `file` is what has been written, `firstKey` is `none` until the first key. -/
structure SSTableBuilder where
  filePath : String
  fileID : ℕ
  level : ℕ
  blockSize : ℕ
  bitsPerKey : ℕ
  file : Bytes := []
  fileSize : ℕ := 0
  dataBlock : BlockBuilder
  indexBlock : BlockBuilder
  bloomKeys : List Bytes := []
  firstKey : Option Bytes := none
  lastKey : Bytes := []
  lastIKey : InternalKey := ⟨[], 0, 0⟩
  numEntries : ℕ := 0
  pendingIndex : Bool := false
  lastHandle : BlockHandle := ⟨0, 0⟩
  lastBlockIKey : InternalKey := ⟨[], 0, 0⟩
  deriving DecidableEq, Repr

def newSSTableBuilder (path : String) (fileID level : ℕ) (blockSize bitsPerKey : ℤ) :
    SSTableBuilder where
  filePath := path
  fileID := fileID
  level := level
  blockSize := if blockSize ≤ 0 then 4096 else blockSize.toNat
  bitsPerKey := if bitsPerKey ≤ 0 then 10 else bitsPerKey.toNat
  dataBlock := newBlockBuilder restartIntervalDefault
  indexBlock := newBlockBuilder 1

def SSTableBuilder.writeRawBlock (b : SSTableBuilder) (data : Bytes) :
    BlockHandle × SSTableBuilder :=
  (⟨b.fileSize, data.length⟩,
    { b with file := b.file ++ data, fileSize := b.fileSize + data.length })

def SSTableBuilder.flushDataBlock (b : SSTableBuilder) : SSTableBuilder :=
  let r := b.writeRawBlock b.dataBlock.finish
  { r.2 with lastHandle := r.1, pendingIndex := true, dataBlock := b.dataBlock.reset }

/-- The index entry of a block: its last key leads to its handle. -/
def SSTableBuilder.addIndexEntry (b : SSTableBuilder) (lastKey : InternalKey)
    (handle : BlockHandle) : Except Halt SSTableBuilder :=
  (b.indexBlock.add lastKey (encodeBlockHandle handle)).map fun block =>
    { b with indexBlock := block }

def SSTableBuilder.writePending (b : SSTableBuilder) : Except Halt SSTableBuilder :=
  if b.pendingIndex then
    (b.addIndexEntry b.lastBlockIKey b.lastHandle).map fun b => { b with pendingIndex := false }
  else .ok b

/-- Add a key-value pair; the data block is written once it is large enough. -/
def SSTableBuilder.add (b : SSTableBuilder) (key : InternalKey) (value : Bytes) :
    Except Halt SSTableBuilder := do
  let b ← { b with
    firstKey := b.firstKey.or (some key.userKey)
    lastKey := key.userKey
    lastIKey := key
    bloomKeys := b.bloomKeys ++ [key.userKey] }.writePending
  let dataBlock ← b.dataBlock.add key value
  let b := { b with dataBlock := dataBlock, numEntries := b.numEntries + 1 }
  if b.blockSize ≤ b.dataBlock.buf.length then
    return { b with lastBlockIKey := key }.flushDataBlock
  else
    return b

/-- Build the filter; its size in bits is cut to 32 bits before it divides the hashes. -/
def buildFilter (keys : List Bytes) (bitsPerKey : ℕ) : Except Halt BloomFilter :=
  if bloomBits keys.length (max 1 bitsPerKey) % 2 ^ 32 = 0 then .error .divideByZero
  else .ok (newBloomFilter keys bitsPerKey)

def putAt (data : Bytes) (pos : ℕ) (bs : Bytes) : Bytes :=
  data.take pos ++ copyInto (data.drop pos) bs

/-- The footer; the version lies behind the handles and before the magic number. -/
def footerBytes (filterHandle indexHandle : BlockHandle) : Bytes :=
  let footer := putAt (List.replicate footerSize 0) 0 (encodeBlockHandle filterHandle)
  let pos := (encodeBlockHandle filterHandle).length
  let footer := putAt footer pos (encodeBlockHandle indexHandle)
  let pos := pos + (encodeBlockHandle indexHandle).length
  let footer := putAt footer pos (List.replicate (40 - pos) 0)
  let footer := putAt footer 32 (encode 4 formatVersion)
  putAt footer 40 (encode 8 magicNumber)

def SSTableBuilder.closeData (b : SSTableBuilder) : SSTableBuilder :=
  if 0 < b.dataBlock.buf.length then { b with lastBlockIKey := b.lastIKey }.flushDataBlock else b

def SSTableBuilder.writeFilter (b : SSTableBuilder) : Except Halt (BlockHandle × SSTableBuilder) :=
  if b.bloomKeys = [] then .ok (⟨0, 0⟩, b)
  else (buildFilter b.bloomKeys b.bitsPerKey).map fun f => b.writeRawBlock f.bits

def SSTableBuilder.writeIndex (b : SSTableBuilder) (filterHandle : BlockHandle) : SSTableBuilder :=
  let r := b.writeRawBlock b.indexBlock.finish
  { r.2 with
    file := r.2.file ++ footerBytes filterHandle r.1
    fileSize := r.2.fileSize + footerSize }

/-- Write what is left of the data, then filter, index and footer.  `now` is the time. -/
def SSTableBuilder.finish (b : SSTableBuilder) (now : ℤ) :
    Except Halt (SSTableMeta × SSTableBuilder) := do
  let b ← b.closeData.writePending
  let r ← b.writeFilter
  let b := r.2.writeIndex r.1
  return ({ fileID := b.fileID
            level := b.level
            firstKey := b.firstKey.getD []
            lastKey := b.lastKey
            fileSize := b.fileSize
            numKeys := b.numEntries
            filePath := b.filePath
            createdAt := now }, b)

/-! ## Opening -/

/-- A reader; `mmapData` is empty when the file is not mapped. -/
structure SSTableReader where
  file : Bytes
  mmapData : Bytes
  indexBlock : Block
  bloomFilter : Option BloomFilter
  fileID : ℕ
  level : ℕ

/-- Go on with the value; an error is returned at once. -/
def andThen {α β : Type} (r : Except TableError α) (f : α → Except Halt (Except TableError β)) :
    Except Halt (Except TableError β) :=
  match r with
  | .error e => .ok (.error e)
  | .ok a => f a

def readAt (file : Bytes) (n : ℕ) (offset : ℤ) : Except TableError Bytes :=
  if offset < 0 then .error .negativeOffset
  else if offset.toNat + n ≤ file.length then .ok ((file.drop offset.toNat).take n)
  else .error .eof

/-- The bytes of a block: a window into the mapping, or bytes read from the file.  The end of the
block is computed on signed words and compared with the length of the mapping. -/
def readBlockAt (file mmapData : Bytes) (h : BlockHandle) :
    Except Halt (Except TableError (Slice UInt8)) :=
  if h.size = 0 then .ok (.error .eof)
  else if (mmapData.length : ℤ) < int64 (int64 h.offset + int64 h.size) then
    .ok (.error .unexpectedEOF)
  else if mmapData ≠ [] then
    (slice (.ofList mmapData) h.offset (uint64 (h.offset + h.size))).map .ok
  else if 2 ^ 63 ≤ h.size then .error .lenOutOfRange
  else .ok ((readAt file h.size (int64 h.offset)).map .ofList)

def loadFilter (file mmapData : Bytes) (h : BlockHandle) :
    Except Halt (Except TableError (Option BloomFilter)) :=
  if 0 < h.size then
    (readBlockAt file mmapData h).map fun r => r.map fun data => some ⟨data.toList⟩
  else .ok (.ok none)

def loadIndex (file mmapData : Bytes) (h : BlockHandle) :
    Except Halt (Except TableError Block) := do
  andThen (← readBlockAt file mmapData h) decodeBlock

def checkFooter (footer : Bytes) : Except TableError Unit :=
  if decode ((footer.drop 40).take 8) ≠ magicNumber then .error .corruptSSTable
  else
    let version := decode ((footer.drop 32).take 4)
    if version ≠ 0 ∧ version ≠ formatVersion then .error (.unsupportedVersion version) else .ok ()

def footerHandles (footer : Bytes) : Except Halt (BlockHandle × BlockHandle) := do
  let filter ← decodeBlockHandle (.ofList footer)
  let rest ← slice (.ofList footer) filter.2 footer.length
  let index ← decodeBlockHandle rest
  return (filter.1, index.1)

def readFooter (file : Bytes) (fileSize : ℕ) : Except TableError Bytes :=
  (readAt file footerSize (int64 (int64 fileSize - footerSize))).bind fun footer =>
    (checkFooter footer).map fun _ => footer

def openBlocks (file mmapData : Bytes) (fileID level : ℕ) (handles : BlockHandle × BlockHandle) :
    Except Halt (Except TableError SSTableReader) := do
  andThen (← loadFilter file mmapData handles.1) fun bloomFilter => do
    andThen (← loadIndex file mmapData handles.2) fun indexBlock =>
      .ok (.ok ⟨file, mmapData, indexBlock, bloomFilter, fileID, level⟩)

/-- Open a table of the given size, with its file mapped into memory or not. -/
def newSSTableReader (file : Bytes) (fileSize : ℕ) (mapped : Bool) (fileID level : ℕ) :
    Except Halt (Except TableError SSTableReader) :=
  andThen (readFooter file fileSize) fun footer =>
    (footerHandles footer).bind (openBlocks file (if mapped then file else []) fileID level)

/-! ## Lookups -/

/-- The Bloom check; the number of bits is cut to 32 bits before it divides the hash. -/
def mayContain (f : BloomFilter) (userKey : Bytes) : Except Halt Bool :=
  let k := (f.bits.getD (f.bits.length - 1) 0).toNat
  if 2 ≤ f.bits.length ∧ 1 ≤ k ∧ k ≤ 30 ∧ (f.bits.length - 1) * 8 % 2 ^ 32 = 0 then
    .error .divideByZero
  else .ok (f.mayContain userKey)

end LsmTree.Table
