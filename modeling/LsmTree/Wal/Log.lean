import LsmTree.Wal.Record

/-!
# Writing and reading log files (`internal/wal/wal.go`, `reader.go`)

A payload is cut into fragments that fit into the 32 KiB blocks of the file.  Each fragment has a
header with the checksum of the fragment, its length and a type that says whether the fragment is a
whole payload, or its first, a middle or its last part.  What is left of a block when no payload
byte fits after a header is filled with zeros.

Recovery reads block by block.  It stops at a fragment that is cut short or does not match its
checksum; a payload that does not decode is passed over.

The checksum is a parameter.  The buffered bytes of the writer are counted as part of the file:
every run looked at here ends with `Close` or `Sync`, which flush them.
-/

namespace LsmTree.Log

open LittleEndian

def blockSize : ℕ := 32 * 1024

/-- The size of a fragment header: checksum (4), length (2) and type (1). -/
def headerSize : ℕ := 7

def recordFull : UInt8 := 1
def recordFirst : UInt8 := 2
def recordMiddle : UInt8 := 3
def recordLast : UInt8 := 4

structure WAL where
  /-- The bytes written so far. -/
  file : Bytes
  /-- The position within the current block. -/
  blockPos : ℕ
  seqNo : UInt64
  deriving DecidableEq, Repr

def openWAL (file : Bytes) : WAL := ⟨file, file.length % blockSize, 0⟩

section

variable (crc : Bytes → UInt32)

/-! ## The writer -/

def header (rType : UInt8) (chunk : Bytes) : Bytes :=
  encode 4 (crc chunk).toNat ++ encode 2 chunk.length ++ [rType]

def recordType (isFirst isFinal : Bool) : UInt8 :=
  if isFirst && isFinal then recordFull
  else if isFirst then recordFirst
  else if isFinal then recordLast
  else recordMiddle

/-- Fill the block up with zeros if no payload byte fits after a header. -/
def WAL.padBlock (w : WAL) : WAL :=
  if blockSize < w.blockPos + headerSize then
    { w with file := w.file ++ List.replicate (blockSize - w.blockPos) 0, blockPos := 0 }
  else if w.blockPos + headerSize = blockSize then
    { w with file := w.file ++ List.replicate headerSize 0, blockPos := 0 }
  else w

def WAL.writeFragment (w : WAL) (rType : UInt8) (chunk : Bytes) : WAL :=
  let blockPos := w.blockPos + headerSize + chunk.length
  { w with
    file := w.file ++ header crc rType chunk ++ chunk
    blockPos := if blockSize ≤ blockPos then 0 else blockPos }

/-- The loop of `writeRecord` over what remains of the payload.  Every round writes at least one
byte of it, so as many rounds as there are bytes are enough. -/
def WAL.writeLoop : ℕ → Bool → Bytes → WAL → WAL
  | 0, _, _, w => w
  | fuel + 1, isFirst, data, w =>
    if data = [] then w
    else
      let w := w.padBlock
      let avail := blockSize - w.blockPos - headerSize
      let chunk := data.take avail
      let rest := data.drop avail
      writeLoop fuel false rest (w.writeFragment crc (recordType isFirst rest.isEmpty) chunk)

def WAL.writeRecord (w : WAL) (data : Bytes) : WAL := WAL.writeLoop crc data.length true data w

/-- Append one entry; the log's own stamp follows. -/
def WAL.appendWithSeqNo (w : WAL) (e : RawEntry) : WAL :=
  let w := w.writeRecord crc (encodeEntry e)
  { w with seqNo := max w.seqNo e.seqNo }

def WAL.appendBatch (w : WAL) (es : List RawEntry) : WAL :=
  if es = [] then w
  else
    let w := w.writeRecord crc (encodeBatch es)
    { w with seqNo := es.foldl (fun s e => max s e.seqNo) w.seqNo }

/-! ## The reader -/

/-- What the reader carries from fragment to fragment. -/
structure Reader where
  entries : List RawEntry := []
  pendingFragments : Bytes := []
  deriving DecidableEq, Repr

def Reader.add (r : Reader) (rType : UInt8) (payload : Bytes) : Reader :=
  if rType = recordFull then
    ⟨r.entries ++ (decodeEntries payload).getD [], []⟩
  else if rType = recordFirst then
    { r with pendingFragments := payload }
  else if rType = recordMiddle then
    { r with pendingFragments := r.pendingFragments ++ payload }
  else if rType = recordLast then
    ⟨r.entries ++ (decodeEntries (r.pendingFragments ++ payload)).getD [], []⟩
  else r

/-- Read the fragments of a block, of which `block` is the part not read yet.  The flag tells
whether reading stops altogether. -/
def readBlock : ℕ → Bytes → Reader → Reader × Bool
  | 0, _, r => (r, false)
  | fuel + 1, block, r =>
    if block.length < headerSize then (r, false)
    else
      let crcStored := decode (block.take 4)
      let length := decode ((block.drop 4).take 2)
      let rType := (block.drop 6).headD 0
      if length = 0 ∧ rType = 0 then (r, false)
      else if block.length < headerSize + length then (r, true)
      else
        let payload := (block.drop headerSize).take length
        if (crc payload).toNat ≠ crcStored then (r, true)
        else readBlock fuel (block.drop (headerSize + length)) (r.add rType payload)

/-- Read the blocks of a file, of which `file` is the part not read yet. -/
def recoverBlocks : ℕ → Bytes → Reader → Reader
  | 0, _, r => r
  | fuel + 1, file, r =>
    let block := file.take blockSize
    if block = [] then r
    else match readBlock crc block.length block r with
      | (r, true) => r
      | (r, false) =>
        if block.length < blockSize then r else recoverBlocks fuel (file.drop blockSize) r

def recoverWAL (file : Bytes) : List RawEntry :=
  (recoverBlocks crc (file.length + 1) file {}).entries

end

end LsmTree.Log
