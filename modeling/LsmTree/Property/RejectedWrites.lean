import LsmTree.Engine.WriteFault
import LsmTree.Correct.Midway
import LsmTree.Property.CrashSafety

/-!
# Writes that return an error

A rejected write should have no effect on any lookup, neither in the running engine nor after a
crash and a restart.  The engine keeps this up to the log: a write that is refused, or whose record
does not get into the log file, leaves no trace.  Once the record is in the file, or in the
memtable, the write has happened, and an error that comes after that (a failed `fsync`, a stalled or
failed `rotateMemTable`) does not take it back.
-/

namespace LsmTree.Rejected

open Versioned

variable {e e' : LSMEngine} {m m' md : Bytes → Option Bytes} {op : WriteOp}
  {fault : Option WriteFault}

variable {d : DataDir} {n s : ℕ} {ws : List WALEntry}

/-! ### Answers after a restart -/

/-- The answers of the engine that opens a directory. -/
def answers (cfg : Config) (d : DataDir) : Except OpenError (Bytes → Except EngineError Bytes) :=
  (openEngine cfg d).map (fun e k => (e.get k).1)

def synced (e : LSMEngine) : LSMEngine :=
  { e.exec (.appendLog e.logNumber e.walBuf) with
    walBuf := []
    cfg := { e.cfg with syncWAL := true } }

/-- A state between writes, with or without `SyncWAL`: with its log synced the engine stands for
`m`, and what is on disk stands for `md`. -/
structure Serves (e : LSMEngine) (m md : Bytes → Option Bytes) : Prop where
  inv : Inv (synced e) e.memTable e.immutables m
  disk : DiskInv e.dir e.cfg.maxLevel md
  buffer : e.cfg.syncWAL = true → e.walBuf = []

structure SameReads (e e' : LSMEngine) : Prop where
  memTable : e'.memTable = e.memTable
  immutables : e'.immutables = e.immutables
  current : e'.current = e.current
  tc : e'.tc = e.tc
  seqNo : e'.seqNo = e.seqNo

theorem SameReads.get (h : SameReads e e') (k : Bytes) : (e'.get k).1 = (e.get k).1 := by
  rw [get_fst, get_fst, h.current, h.tc, h.seqNo]
  unfold LSMEngine.memGet
  rw [h.memTable, h.immutables]

theorem Serves.get (h : Serves e m md) (hs : e.seqNo ≤ s) (k : Bytes) :
    (({ e with seqNo := s } : LSMEngine).get k).1 = lookupResult (m k) := by
  have hinv : Inv { synced e with seqNo := s } e.memTable e.immutables m := h.inv.bumpSeq hs
  have hsame : SameReads { synced e with seqNo := s } { e with seqNo := s } :=
    ⟨rfl, rfl, rfl, rfl, rfl⟩
  exact (hsame.get k).trans ((Inv.readable hinv).get k)

theorem Serves.of_good (h : Good e m) : Serves e m m := by
  have hsynced : synced e = e.exec (.appendLog e.logNumber []) := by
    unfold synced
    rw [h.inv.walBuf]
    have hcfg : ({ e.cfg with syncWAL := true } : Config) = e.cfg := by
      rw [← h.inv.sync]
    rw [hcfg]
    exact congrArg (fun buf => { e.exec (.appendLog e.logNumber []) with walBuf := buf })
      h.inv.walBuf.symm
  refine ⟨?_, h.inv.disk, fun _ => h.inv.walBuf⟩
  rw [hsynced]
  exact h.inv.touchLog _

theorem Serves.fresh (h : Serves e m md) (records : WalFile) :
    logSet (e.dir.exec (.appendLog e.logNumber records)) (e.nextFileID + 1) = ∅ := by
  have hne : e.nextFileID + 1 ≠ e.logNumber := by
    have : e.logNumber ≤ e.nextFileID :=
      h.inv.owner_ids (e.logNumber, e.memTable.versions)
        (by simp [memOwners, synced, LSMEngine.exec])
    omega
  have hstray := h.inv.owned.stray (e.nextFileID + 1) (fun hmem => by
    obtain ⟨o, ho, hid⟩ := List.mem_map.1 hmem
    have : o.1 ≤ e.nextFileID := h.inv.owner_ids o ho
    omega)
  change logSet (e.dir.exec (.appendLog e.logNumber e.walBuf)) _ = ∅ at hstray
  rw [logSet_exec_appendLog, if_neg hne] at hstray ⊢
  exact hstray

theorem Serves.logged (h : Serves e m md) (hop : op.Nonempty) (hws : Consecutive e.seqNo ws)
    (hups : ws.map (fun w => (w.key, w.toEntry.payload)) = op.updates) :
    Inv ((({ synced e with seqNo := e.seqNo + ws.length } : LSMEngine).logWrite ws).insertEntries
      ws)
      (e.memTable.replay ws) e.immutables (applyUpdates op.updates m) := by
  have hlog := h.inv.logWrite hws (hop.entries_ok hups)
  rw [overlay_toEntry, hups] at hlog
  exact hlog.frame rfl rfl rfl rfl rfl rfl rfl rfl

end LsmTree.Rejected
