import LsmTree.Engine.Recover
import LsmTree.Manifest.Codec
import LsmTree.Sstable.File

/-!
# Fixed-width fields

The engine's directory has the manifest as a list of edits and a log as a list of records.  In the
files the lengths take four bytes, as do the offsets within a block, and the probes of a filter are
taken modulo the low 32 bits of its size.  `checkTable` says whether `Finish` panics because these
are zero; `TableFits`, `EditFits` and `RecordFits` say that no field overflows.
-/

namespace LsmTree

/-- `Finish` on a table, as far as it can panic: in the filter. -/
def checkTable (cfg : Config) (t : SSTableMeta × SSTable) : Except Table.Halt Unit :=
  (Table.buildFilter (t.2.entries.map (fun x => x.key.userKey))
    (newSSTableBuilder 0 0 cfg.blockSize cfg.bloomBitsPerKey).bitsPerKey).map (fun _ => ())

/-- The filter can be built, and no offset in the file takes more than four bytes. -/
def TableFits (cfg : Config) (t : SSTableMeta × SSTable) : Prop :=
  checkTable cfg t = .ok () ∧ t.1.fileSize < 2 ^ 32

/-- The numbers of an edit and the length of its record fit their fields. -/
def EditFits (edit : VersionEdit) : Prop :=
  edit.level < maxLevels ∧ edit.fileID < 2 ^ 64 - 1 ∧ edit.fileSize < 2 ^ 64 ∧
    edit.logNumber < 2 ^ 64 ∧ edit.nextFileID < 2 ^ 64 ∧ edit.maxSeqNo < 2 ^ 64 ∧
    (encodeVersionEdit edit).length < 2 ^ 32

/-- So do the number of entries of a log record and each of them, which takes 17 bytes besides its
key and its value. -/
def RecordFits (record : List WALEntry) : Prop :=
  record.length < 2 ^ 32 ∧
    ∀ w ∈ record, w.seqNo < 2 ^ 64 ∧ 17 + w.key.length + w.value.length < 2 ^ 32

def DataDir.Fits (d : DataDir) : Prop :=
  (∀ edit ∈ d.edits, EditFits edit) ∧ ∀ id ∈ d.logs.keys, ∀ record ∈ d.log id, RecordFits record

/-- The table that a memtable becomes, unless it is empty.  The number of the file matters neither
for the filter nor for the size. -/
def flushTables (cfg : Config) (mem : MemTable) : List (SSTableMeta × SSTable) :=
  if mem.entries = [] then [] else [buildTable cfg 0 0 mem.entries]

/-- The table that an `Open` writes if replay has inflated the memtable. -/
def openTables (cfg : Config) (d : DataDir) : List (SSTableMeta × SSTable) :=
  if cfg.memTableSize < (recoveredMem cfg d).approximateSize then
    flushTables cfg (recoveredMem cfg d)
  else []

/-- What an `Open` finds fits, and so does what it writes. -/
def OpenFits (cfg : Config) (d : DataDir) : Prop :=
  d.Fits ∧ ∀ t ∈ openTables cfg d, TableFits cfg t

instance (cfg : Config) (t : SSTableMeta × SSTable) : Decidable (TableFits cfg t) :=
  inferInstanceAs (Decidable (_ ∧ _))

instance (edit : VersionEdit) : Decidable (EditFits edit) := inferInstanceAs (Decidable (_ ∧ _))

instance (record : List WALEntry) : Decidable (RecordFits record) :=
  inferInstanceAs (Decidable (_ ∧ _))

instance decidableDirFits (d : DataDir) : Decidable d.Fits := inferInstanceAs (Decidable (_ ∧ _))

instance (cfg : Config) (d : DataDir) : Decidable (OpenFits cfg d) :=
  inferInstanceAs (Decidable (_ ∧ _))

end LsmTree
