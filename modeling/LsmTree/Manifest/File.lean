import LsmTree.Lib.BufferedWriter
import LsmTree.Manifest.Codec

/-!
# The manifest file (`internal/manifest/manifest.go`)

A new manifest file starts with four magic bytes and has records `[CRC:4][length:4][body]`; an old
one has no magic and records `[length:4][body]`.  Records are written through a buffered writer and
synced, and only then is the edit applied in memory.  `recover` tells the formats apart by the first
four bytes and folds the edits of all records.
-/

namespace LsmTree.Disk

open LittleEndian BufferedWriter

def manifestMagic : Bytes := [0x4D, 0x4E, 0x49, 0x46]

/-- The size of the writer's buffer, the default of the standard library. -/
def bufferSize : ℕ := 4096

/-- A manifest: the writer with the file behind it, the version in memory, and the format. -/
structure Manifest where
  writer : Writer UInt8
  current : Version
  usesCRC : Bool

def Manifest.file (m : Manifest) : Bytes := m.writer.sink

/-- Open a manifest file with the given contents; a new one gets the magic bytes. -/
def openManifest (file : Bytes) : Manifest :=
  if file = [] then ⟨⟨manifestMagic, [], false⟩, {}, true⟩ else ⟨⟨file, [], false⟩, {}, false⟩

def Manifest.setCurrent (m : Manifest) (v : Version) : Manifest := { m with current := v }

def Manifest.setFormat (m : Manifest) (usesCRC : Bool) : Manifest := { m with usesCRC := usesCRC }

inductive Fault
  | none
  /-- A write to the file fails after so many bytes of the record. -/
  | device (room : ℕ)
  /-- All bytes reach the file, and `Sync` fails. -/
  | sync
  deriving DecidableEq, Repr

/-- How many of the bytes to write the file takes. -/
def Fault.room : Fault → ℕ → ℕ
  | device room, _ => room
  | _, length => length

section

variable (crc : Bytes → UInt32)

def recordHeader (usesCRC : Bool) (data : Bytes) : Bytes :=
  if usesCRC then encode 4 (crc data).toNat ++ encode 4 data.length else encode 4 data.length

/-- Append the record of an edit to the file; the result says whether no error occurred. -/
def Manifest.writeEdit (m : Manifest) (edit : VersionEdit) (fault : Fault) : Manifest × Bool :=
  let data := encodeVersionEdit edit
  let header := recordHeader crc m.usesCRC data
  let r := write bufferSize (fault.room (header.length + data.length)) m.writer header
  if r.1.failed then ({ m with writer := r.1 }, false)
  else
    let r := write bufferSize r.2 r.1 data
    if r.1.failed then ({ m with writer := r.1 }, false)
    else
      let r := flush r.2 r.1
      ({ m with writer := r.1 }, !r.1.failed && decide (fault ≠ .sync))

/-- Validate an edit, persist it, and then apply it in memory. -/
def Manifest.apply (m : Manifest) (edit : VersionEdit) (fault : Fault) : Manifest × Bool :=
  if m.current.rejects edit then (m, false)
  else
    let r := m.writeEdit crc edit fault
    if r.2 then ({ r.1 with current := m.current.applyEdit edit }, true) else (r.1, false)

/-! ## Recovery -/

/-- Why `Recover` gives up. -/
inductive RecoverError
  | truncatedHeader
  | truncatedBody
  | eof
  | crcMismatch
  | corruptManifest
  /-- A level beyond the array of levels. -/
  | indexOutOfRange
  deriving DecidableEq, Repr

def readBody (length : ℕ) (rest : Bytes) : Except RecoverError (Bytes × Bytes) :=
  if length ≤ rest.length then .ok (rest.take length, rest.drop length)
  else .error (if rest = [] then .eof else .truncatedBody)

def headerLen (usesCRC : Bool) : ℕ := if usesCRC then 8 else 4

/-- Read the next record; nothing at the end of the file. -/
def readRecord (usesCRC : Bool) (rest : Bytes) : Except RecoverError (Option (Bytes × Bytes)) :=
  if rest = [] then .ok none
  else if rest.length < headerLen usesCRC then .error .truncatedHeader
  else
    let length := decode ((rest.drop (headerLen usesCRC - 4)).take 4)
    match readBody length (rest.drop (headerLen usesCRC)) with
    | .error e => .error e
    | .ok (body, rest') =>
      if usesCRC ∧ (crc body).toNat ≠ decode (rest.take 4) then .error .crcMismatch
      else .ok (some (body, rest'))

/-- Fold a decoded edit into the version: an edit of unknown type only raises the marks. -/
def foldEdit (v : Version) (e : RawEdit) : Except RecoverError Version :=
  match EditType.ofCode e.type with
  | none => .ok
      { v with
        logNumber := max v.logNumber e.logNumber
        nextFileID := max v.nextFileID e.nextFileID
        maxSeqNo := max v.maxSeqNo e.maxSeqNo }
  | some t =>
    if (t = .addSSTable ∨ t = .deleteSSTable) ∧ ¬ (0 ≤ e.level ∧ e.level < maxLevels) then
      .error .indexOutOfRange
    else .ok (v.recoverEdit
      { type := t, level := e.level.toNat, fileID := e.fileID, fileSize := e.fileSize,
        firstKey := e.firstKey, lastKey := e.lastKey, logNumber := e.logNumber,
        nextFileID := e.nextFileID, maxSeqNo := e.maxSeqNo })

/-- The record loop.  Every round reads at least four bytes, so one round more than there are bytes
is enough. -/
def recoverLoop (usesCRC : Bool) : ℕ → Version → Bytes → Except RecoverError Version
  | 0, v, _ => .ok v
  | fuel + 1, v, rest =>
    match readRecord crc usesCRC rest with
    | .error e => .error e
    | .ok none => .ok v
    | .ok (some (body, rest')) =>
      match decodeVersionEdit body with
      | none => .error .corruptManifest
      | some e =>
        match foldEdit v e with
        | .error e => .error e
        | .ok v => recoverLoop usesCRC fuel v rest'

/-- Rebuild the version from the file, and tell its format.  Without the magic bytes the first four
bytes are the length of the first record. -/
def recover (file : Bytes) : Except RecoverError (Version × Bool) :=
  if file.length < 4 then .ok ({}, false)
  else if file.take 4 = manifestMagic then
    (recoverLoop crc true (file.length + 1) {} (file.drop 4)).map fun v => (v, true)
  else (recoverLoop crc false (file.length + 1) {} file).map fun v => (v, false)

/-- Open the file and take over what `Recover` finds in it, as the engine does. -/
def openRecovered (file : Bytes) : Except RecoverError Manifest :=
  (recover crc (openManifest file).file).map fun r =>
    ((openManifest file).setCurrent r.1).setFormat r.2

end

end LsmTree.Disk
