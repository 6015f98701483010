import LsmTree.Property.Refinement

/-!
# Crash safety, step by step

Writes and flushes are taken apart into their durable steps, and a crash may hit between any two of
them, recovery included.  Whatever happens, the operations that were acknowledged are found again
after the next `Open`, in order, and the one that was in flight is found as a whole or not at all
(`durable_and_atomic`).  So is an operation that was given up in a write stall, though it returned
an error (`stalled_writes_found`).

The steps of the writer, of the flush worker and of recovery are those of `submit`, `flush` and
`openEngine`.
-/

namespace LsmTree

open Versioned

variable {new : List ImmutableMemtable} {ops : List WriteOp}

/-! ### The system -/

/-- Where the writer is: in a call whose record is logged, inserted, and then perhaps in a rotation.
`ForceFlush` and `Close` rotate without a write. -/
inductive WriterPc
  | idle
  | called (op : WriteOp)
  | logged (op : WriteOp) (ws : List WALEntry)
  | inserted (op : WriteOp)
  | walCreated (op : Option WriteOp) (newLogNumber : ℕ)
  | editApplied (op : Option WriteOp) (newLogNumber : ℕ)

/-- How a call ended: acknowledged, given up in a write stall after its record was logged, or cut
off by a crash. -/
inductive CallStatus
  | acked
  | stalled
  | inFlight
  deriving DecidableEq, Repr

abbrev History := List (WriteOp × CallStatus)

/-- The steps of the writer; the last argument are the calls that return. -/
inductive WriterStep : LSMEngine → WriterPc → LSMEngine → WriterPc → History → Prop
  | call {e : LSMEngine} {op : WriteOp} (h : op.Nonempty) : WriterStep e .idle e (.called op) []
  | reject {e e' : LSMEngine} {op : WriteOp} {err : EngineError}
      (h : e.accept op = (e', .error err)) : WriterStep e (.called op) e' .idle []
  | nothing {e e' : LSMEngine} {op : WriteOp} (h : e.accept op = (e', .ok [])) :
      WriterStep e (.called op) e' .idle [(op, .acked)]
  | log {e e' : LSMEngine} {op : WriteOp} {ws : List WALEntry} (h : e.accept op = (e', .ok ws))
      (hne : ws ≠ []) : WriterStep e (.called op) (e'.logWrite ws) (.logged op ws) []
  | insert {e : LSMEngine} {op : WriteOp} {ws : List WALEntry} :
      WriterStep e (.logged op ws) (e.insertEntries ws) (.inserted op) []
  | ack {e : LSMEngine} {op : WriteOp} (h : e.memTable.isFull = false) :
      WriterStep e (.inserted op) e .idle [(op, .acked)]
  | giveUp {e : LSMEngine} {op : WriteOp} {err : EngineError} (hfull : e.memTable.isFull = true)
      (h : e.rotateReady = .error err) : WriterStep e (.inserted op) e .idle [(op, .stalled)]
  | createWal {e : LSMEngine} {op : WriteOp} (hfull : e.memTable.isFull = true)
      (h : e.rotateReady = .ok ()) :
      WriterStep e (.inserted op) e.rotateOpen.1 (.walCreated (some op) e.rotateOpen.2) []
  | forceRotate {e : LSMEngine} (hsize : 0 < e.memTable.approximateSize)
      (h : e.rotateReady = .ok ()) :
      WriterStep e .idle e.rotateOpen.1 (.walCreated none e.rotateOpen.2) []
  | applyEdit {e : LSMEngine} {op : Option WriteOp} {n : ℕ} :
      WriterStep e (.walCreated op n) (e.rotateEdit n) (.editApplied op n) []
  | swap {e : LSMEngine} {op : Option WriteOp} {n : ℕ} : WriterStep e (.editApplied op n)
      (e.rotateSwap n) .idle (op.toList.map (fun op => (op, .acked)))

inductive FlusherPc
  | idle
  | built (imm : ImmutableMemtable) (t : SSTableMeta)
  | added (imm : ImmutableMemtable)
  | saved (imm : ImmutableMemtable)
  | removed (imm : ImmutableMemtable)

inductive FlusherStep : LSMEngine → FlusherPc → LSMEngine → FlusherPc → Prop
  | build {e : LSMEngine} {imm : ImmutableMemtable} {queue : List ImmutableMemtable}
      (hq : e.flushQueue = imm :: queue) (hne : imm.table.entries ≠ [])
      (hfits : ∀ t ∈ flushTables e.cfg imm.table, TableFits e.cfg t) :
      FlusherStep e .idle (({ e with flushQueue := queue } : LSMEngine).flushBuild imm).1
        (.built imm (({ e with flushQueue := queue } : LSMEngine).flushBuild imm).2)
  | skip {e : LSMEngine} {imm : ImmutableMemtable} {queue : List ImmutableMemtable}
      (hq : e.flushQueue = imm :: queue) (hnil : imm.table.entries = []) :
      FlusherStep e .idle
        ((({ e with flushQueue := queue } : LSMEngine).newFileID.1).removeImmutable imm) .idle
  | add {e : LSMEngine} {imm : ImmutableMemtable} {t : SSTableMeta}
      (hroom : e.tc.entries.length < e.tc.cap) :
      FlusherStep e (.built imm t) (e.flushAdd t .ok).1 (.added imm)
  | saveSeqNo {e : LSMEngine} {imm : ImmutableMemtable} :
      FlusherStep e (.added imm) (e.flushSeqNo .ok) (.saved imm)
  | remove {e : LSMEngine} {imm : ImmutableMemtable} :
      FlusherStep e (.saved imm) (e.removeImmutable imm) (.removed imm)
  | unlink {e : LSMEngine} {imm : ImmutableMemtable} :
      FlusherStep e (.removed imm) (e.exec (.removeLog imm.logNumber)) .idle

def WriterPc.inFlight : WriterPc → History
  | .idle | .walCreated none _ | .editApplied none _ => []
  | .called op | .logged op _ | .inserted op | .walCreated (some op) _ | .editApplied (some op) _ =>
    [(op, .inFlight)]

/-- A running engine with its two workers, or what a crash left. -/
inductive Sys
  | up (e : LSMEngine) (w : WriterPc) (f : FlusherPc) (hist : History)
  | down (d : DataDir) (hist : History)

/-- An `Open` with synced logs, the given number of levels, room for the tables, and nothing that
exceeds its field. -/
structure MayOpen (maxLevel : ℕ) (cfg : Config) (d : DataDir) : Prop where
  sync : cfg.syncWAL = true
  levels : cfg.maxLevel = maxLevel
  room : OpenRoom cfg.withDefaults d
  fits : OpenFits cfg.withDefaults d

/-- The steps of the system.  Reads and completed compactions come in between; a crash may hit
anywhere, also after any number of steps of recovery. -/
inductive Step (maxLevel : ℕ) : Sys → Sys → Prop
  | writer {e e' : LSMEngine} {w w' : WriterPc} {f : FlusherPc} {hist ret : History}
      (h : WriterStep e w e' w' ret) : Step maxLevel (.up e w f hist) (.up e' w' f (hist ++ ret))
  | flusher {e e' : LSMEngine} {w : WriterPc} {f f' : FlusherPc} {hist : History}
      (h : FlusherStep e f e' f') : Step maxLevel (.up e w f hist) (.up e' w f' hist)
  | compact {e : LSMEngine} {w : WriterPc} {hist : History} (level : ℕ)
      (hroom : e.tc.entries.length + (e.levelPlan level).outputs.length ≤ e.tc.cap)
      (hfits : ∀ t ∈ (e.levelPlan level).outputs, TableFits e.cfg t) :
      Step maxLevel (.up e w .idle hist)
        (.up (e.compactLevel level (fun _ => .ok) (fun _ => .ok)).1 w .idle hist)
  | get {e : LSMEngine} {w : WriterPc} {f : FlusherPc} {hist : History} (key : Bytes) :
      Step maxLevel (.up e w f hist) (.up (e.get key).2 w f hist)
  | scan {e : LSMEngine} {w : WriterPc} {f : FlusherPc} {hist : History} (start stop : Bytes)
      (limit : ℤ) :
      Step maxLevel (.up e w f hist) (.up (e.scanWithError start stop limit).2 w f hist)
  | crash {e : LSMEngine} {w : WriterPc} {f : FlusherPc} {hist : History} :
      Step maxLevel (.up e w f hist) (.down e.dir (hist ++ w.inFlight))
  | crashInOpen {d : DataDir} {hist : History} {cfg : Config} (n : ℕ) (h : MayOpen maxLevel cfg d) :
      Step maxLevel (.down d hist) (.down (d.execAll ((recoverOps cfg d).take n)) hist)
  | reopen {d : DataDir} {hist : History} {cfg : Config} {e : LSMEngine}
    (h : MayOpen maxLevel cfg d)
      (hopen : openEngine cfg d = .ok e) :
      Step maxLevel (.down d hist) (.up e .idle .idle hist)

/-- The states of runs that begin with a new directory. -/
inductive Reach (maxLevel : ℕ) : Sys → Prop
  | start : Reach maxLevel (.down {} [])
  | step {s s' : Sys} (h : Reach maxLevel s) (hs : Step maxLevel s s') : Reach maxLevel s'

/-- Calls with this status are in the log: all that returned after they were admitted. -/
def CallStatus.logged : CallStatus → Bool
  | .acked | .stalled => true
  | .inFlight => false

/-- The operations that may be found after the calls of a history, if those with a status that is
`sure` are: these, in order, and any of those cut off, each as a whole. -/
inductive Outcome (sure : CallStatus → Bool) : History → List WriteOp → Prop
  | nil : Outcome sure [] []
  | found {hist : History} {ops : List WriteOp} {op : WriteOp} {status : CallStatus}
      (h : Outcome sure hist ops) (hs : sure status = true ∨ status = .inFlight) :
      Outcome sure ((op, status) :: hist) (op :: ops)
  | lost {hist : History} {ops : List WriteOp} {op : WriteOp} {status : CallStatus}
      (h : Outcome sure hist ops) (hs : sure status = false) :
      Outcome sure ((op, status) :: hist) ops

theorem Outcome.acked {hist : History} (h : Outcome CallStatus.logged hist ops)
    (hno : CallStatus.stalled ∉ hist.map Prod.snd) :
    Outcome (fun status => status == .acked) hist ops := by
  induction h with
  | nil => exact .nil
  | @found hist ops op status _ hs ih =>
    rw [List.map_cons, List.mem_cons, not_or] at hno
    refine .found (ih hno.2) ?_
    cases status with
    | acked => exact .inl rfl
    | stalled => exact absurd rfl hno.1
    | inFlight => exact .inr rfl
  | @lost hist ops op status _ hs ih =>
    rw [List.map_cons, List.mem_cons, not_or] at hno
    refine .lost (ih hno.2) ?_
    cases status with
    | acked | stalled => cases hs
    | inFlight => rfl

def mapOf (ops : List WriteOp) : Bytes → Option Bytes := lastUpdate (ops.flatMap WriteOp.updates)

/-! ### The invariant -/

/-- The operation whose record is logged but that has not returned. -/
def WriterPc.pending : WriterPc → List WriteOp
  | .logged op _ | .inserted op | .walCreated (some op) _ | .editApplied (some op) _ => [op]
  | _ => []

/-- The memtable with what is logged but not yet inserted. -/
def WriterPc.mem (e : LSMEngine) : WriterPc → MemTable
  | .logged _ ws => e.memTable.replay ws
  | _ => e.memTable

/-- The immutables, and the log that outlives its memtable. -/
def FlusherPc.imms (e : LSMEngine) : FlusherPc → List ImmutableMemtable
  | .removed imm => ⟨newMemTable 0, imm.logNumber⟩ :: e.immutables
  | _ => e.immutables

def WriterPc.Ok (e : LSMEngine) (imms : List ImmutableMemtable) : WriterPc → Prop
  | .idle => True
  | .called op => op.Nonempty
  | .logged _ ws => ws ≠ []
  | .inserted _ => e.memTable.entries ≠ []
  | .walCreated _ n | .editApplied _ n => e.memTable.entries ≠ [] ∧ n ≤ e.nextFileID ∧
      n ∉ imms.map (fun i => i.logNumber) ∧ n ≠ e.logNumber

def FlusherPc.Ok (e : LSMEngine) : FlusherPc → Prop
  | .idle => e.immutables = e.flushQueue
  | .built imm t => e.immutables = imm :: e.flushQueue ∧ BuiltFor e t imm.table.versions
  | .added imm => e.immutables = imm :: e.flushQueue ∧
      imm.table.versions ⊆ tableVersions e.current e.files
  | .saved imm => e.immutables = imm :: e.flushQueue ∧
      imm.table.versions ⊆ tableVersions e.current e.files ∧ SeqSaved e
  | .removed _ => e.immutables = e.flushQueue ∧ SeqSaved e

/-- What the writer does to the rest of the engine: it may hand over memtables. -/
structure Handover (e e' : LSMEngine) (new : List ImmutableMemtable) : Prop where
  files : e'.files = e.files
  levels : e'.current.levels = e.current.levels
  maxSeqNo : e'.current.maxSeqNo = e.current.maxSeqNo
  tc : e'.tc = e.tc
  nextFileID : e.nextFileID ≤ e'.nextFileID
  immutables : e'.immutables = e.immutables ++ new
  flushQueue : e'.flushQueue = e.flushQueue ++ new
  nonempty : ∀ i ∈ new, i.table.entries ≠ []
  bgError : e'.bgError = e.bgError
  cfg : e'.cfg = e.cfg

variable {e e' : LSMEngine} {w w' : WriterPc} {f f' : FlusherPc} {hist ret : History}
  {mem : MemTable} {imms : List ImmutableMemtable} {m : Bytes → Option Bytes} {maxLevel : ℕ}

theorem Handover.tables (h : Handover e e' new) :
    tableVersions e'.current e'.files = tableVersions e.current e.files :=
  tableVersions_congr h.levels (fun _ _ _ => by rw [h.files])

theorem Handover.seqSaved (h : Handover e e' new) (hs : SeqSaved e) : SeqSaved e' := by
  intro x hx
  rw [h.tables] at hx
  rw [h.maxSeqNo]
  exact hs x hx

theorem FlusherPc.Ok.handover (h : f.Ok e) (hh : Handover e e' new) :
    f.Ok e' ∧ f.imms e' = f.imms e ++ new := by
  have hcons : ∀ imm : ImmutableMemtable, e.immutables = imm :: e.flushQueue →
      e'.immutables = imm :: e'.flushQueue := fun imm hi => by
    rw [hh.immutables, hh.flushQueue, hi, List.cons_append]
  cases f with
  | idle =>
    refine ⟨?_, hh.immutables⟩
    change e'.immutables = e'.flushQueue
    rw [hh.immutables, hh.flushQueue, show e.immutables = e.flushQueue from h]
  | built imm t =>
    obtain ⟨hi, hb⟩ := h
    refine ⟨⟨hcons imm hi, ?_⟩, hh.immutables⟩
    obtain ⟨h1, h2, h3, h4, h5, h6, h7⟩ := hb
    exact ⟨by rw [hh.files]; exact h1, h2, h3, by rw [hh.levels]; exact h4,
      by rw [hh.levels]; exact h5, by rw [hh.tc]; exact h6, h7.trans hh.nextFileID⟩
  | added imm => exact ⟨⟨hcons imm h.1, by rw [hh.tables]; exact h.2⟩, hh.immutables⟩
  | saved imm =>
    exact ⟨⟨hcons imm h.1, by rw [hh.tables]; exact h.2.1, hh.seqSaved h.2.2⟩, hh.immutables⟩
  | removed imm =>
    refine ⟨⟨?_, hh.seqSaved h.2⟩, ?_⟩
    · rw [hh.immutables, hh.flushQueue, h.1]
    · change _ :: e'.immutables = (_ :: e.immutables) ++ new
      rw [hh.immutables, List.cons_append]

theorem WriterPc.Ok.mono {imms' : List ImmutableMemtable} (h : w.Ok e imms)
    (hmem : e'.memTable = e.memTable) (hlog : e'.logNumber = e.logNumber)
    (hid : e.nextFileID ≤ e'.nextFileID)
    (hsub : imms'.map (fun i => i.logNumber) ⊆ imms.map (fun i => i.logNumber)) :
    w.Ok e' imms' := by
  cases w with
  | idle => trivial
  | called op => exact h
  | logged op ws => exact h
  | inserted op =>
    change e'.memTable.entries ≠ []
    rw [hmem]
    exact h
  | walCreated op n | editApplied op n =>
    obtain ⟨h1, h2, h3, h4⟩ := h
    exact ⟨by rw [hmem]; exact h1, h2.trans hid, fun hc => h3 (hsub hc), by rw [hlog]; exact h4⟩

theorem mapOf_append (ops : List WriteOp) (op : WriteOp) :
    mapOf (ops ++ [op]) = applyUpdates op.updates (mapOf ops) := by
  unfold mapOf
  rw [← applyUpdates_eq_lastUpdate, ← applyUpdates_eq_lastUpdate, List.flatMap_append,
    applyUpdates_append]
  simp

variable {sure : CallStatus → Bool}

theorem Outcome.append {hist' : History} {ops' : List WriteOp} (h : Outcome sure hist ops)
    (h' : Outcome sure hist' ops') : Outcome sure (hist ++ hist') (ops ++ ops') := by
  induction h with
  | nil => exact h'
  | found _ hs ih => exact ih.found hs
  | lost _ hs ih => exact ih.lost hs

theorem Outcome.kept (h : Outcome sure hist ops) (op : WriteOp) {status : CallStatus}
    (hs : sure status = true ∨ status = .inFlight) :
    Outcome sure (hist ++ [(op, status)]) (ops ++ [op]) :=
  h.append (.found .nil hs)

theorem fresh_iff {n logNumber : ℕ} :
    n ∉ (memOwners imms mem logNumber).map Prod.fst ↔
      n ∉ imms.map (fun i => i.logNumber) ∧ n ≠ logNumber := by
  unfold memOwners
  rw [List.map_append, List.map_map, List.mem_append, not_or]
  exact Iff.and Iff.rfl (by simp)

/-! ### One step -/

theorem Handover.refl (e : LSMEngine) : Handover e e [] :=
  ⟨rfl, rfl, rfl, rfl, le_rfl, by simp, by simp, fun i hi => (by cases hi), rfl, rfl⟩

theorem logWrite_fields (e : LSMEngine) (ws : List WALEntry) :
    Handover e (e.logWrite ws) [] ∧ (e.logWrite ws).memTable = e.memTable := by
  unfold LSMEngine.logWrite
  split_ifs
  all_goals
    exact ⟨⟨rfl, rfl, rfl, rfl, le_rfl, (List.append_nil _).symm, (List.append_nil _).symm,
      fun i hi => (by cases hi), rfl, rfl⟩, rfl⟩

theorem Inv.rotateOpen_fresh (h : Inv e mem imms m) :
    e.nextFileID + 1 ∉ imms.map (fun i => i.logNumber) ∧ e.nextFileID + 1 ≠ e.logNumber := by
  refine (@fresh_iff mem imms (e.nextFileID + 1) e.logNumber).1 (fun hc => ?_)
  obtain ⟨o, ho, hid⟩ := List.mem_map.1 hc
  have hid : o.1 = e.nextFileID + 1 := hid
  have := h.owner_ids o ho
  omega

/-- What a step of the writer keeps: it may hand over memtables, and the calls so far account for
the map. -/
def WriterPc.Kept (w' : WriterPc) (e e' : LSMEngine) (imms : List ImmutableMemtable)
    (calls : History) : Prop :=
  ∃ new ops', Handover e e' new ∧ Outcome CallStatus.logged calls ops' ∧
    Inv e' (w'.mem e') (imms ++ new) (mapOf (ops' ++ w'.pending)) ∧ w'.Ok e' (imms ++ new)

theorem WriterPc.Kept.quiet {calls : History} (hhand : Handover e e' [])
    (hout : Outcome CallStatus.logged calls ops)
    (h : Inv e' (w'.mem e') imms (mapOf (ops ++ w'.pending))) (hok : w'.Ok e' imms) :
    w'.Kept e e' imms calls := by
  refine ⟨[], ops, hhand, hout, ?_, ?_⟩
  · rwa [List.append_nil]
  · rwa [List.append_nil]

theorem WriterPc.Kept.nothing {op : WriteOp} (hadm : e.accept op = (e', .ok []))
    (h : Inv e e.memTable imms (mapOf (ops ++ [])))
    (hout : Outcome CallStatus.logged hist ops) :
    WriterPc.idle.Kept e e' imms (hist ++ [(op, .acked)]) := by
  obtain ⟨rfl, -, hups⟩ := accept_ok hadm
  refine .quiet ?_ (hout.kept op (Or.inl rfl)) ?_ trivial
  · exact ⟨rfl, rfl, rfl, rfl, le_rfl, by simp, by simp, fun i hi => (by cases hi), rfl, rfl⟩
  · have hsame : mapOf (ops ++ [op] ++ WriterPc.idle.pending) = mapOf (ops ++ []) := by
      change mapOf (ops ++ [op] ++ []) = mapOf (ops ++ [])
      rw [List.append_nil, List.append_nil, mapOf_append, ← hups]
      rfl
    rw [hsame]
    exact h.bumpSeq (Nat.le_add_right _ _)

theorem WriterPc.Kept.log {op : WriteOp} {ws : List WALEntry} (hadm : e.accept op = (e', .ok ws))
    (hne : ws ≠ []) (hop : op.Nonempty) (h : Inv e e.memTable imms (mapOf (ops ++ [])))
    (hout : Outcome CallStatus.logged hist ops) :
    (WriterPc.logged op ws).Kept e (e'.logWrite ws) imms hist := by
  obtain ⟨rfl, hcons, hups⟩ := accept_ok hadm
  have hlog := h.logWrite hcons (hop.entries_ok hups)
  rw [overlay_toEntry, hups] at hlog
  obtain ⟨hf, hmem⟩ := logWrite_fields { e with seqNo := e.seqNo + ws.length } ws
  refine .quiet ⟨hf.files, hf.levels, hf.maxSeqNo, hf.tc, hf.nextFileID, hf.immutables,
    hf.flushQueue, hf.nonempty, hf.bgError, hf.cfg⟩ hout ?_ hne
  change Inv _ (MemTable.replay _ ws) _ (mapOf (ops ++ [op]))
  rw [hmem, mapOf_append, ← List.append_nil ops]
  exact hlog

theorem WriterPc.Kept.createWal {op : Option WriteOp} (hne : e.memTable.entries ≠ [])
    (h : Inv e e.memTable imms
      (mapOf (ops ++ (WriterPc.walCreated op e.rotateOpen.2).pending)))
    (hout : Outcome CallStatus.logged hist ops) :
    (WriterPc.walCreated op e.rotateOpen.2).Kept e e.rotateOpen.1 imms hist := by
  obtain ⟨hf1, hf2⟩ := h.rotateOpen_fresh
  refine .quiet ?_ hout h.rotateOpen ⟨hne, le_rfl, hf1, hf2⟩
  exact ⟨rfl, rfl, rfl, rfl, Nat.le_succ _, (List.append_nil _).symm, (List.append_nil _).symm,
    fun i hi => (by cases hi), rfl, rfl⟩

theorem WriterPc.Kept.applyEdit {op : Option WriteOp} {n : ℕ}
    (h : Inv e e.memTable imms (mapOf (ops ++ (WriterPc.walCreated op n).pending)))
    (hok : (WriterPc.walCreated op n).Ok e imms) (hout : Outcome CallStatus.logged hist ops) :
    (WriterPc.editApplied op n).Kept e (e.rotateEdit n) imms hist := by
  have hedit := h.logNumberEdit n
  refine .quiet ?_ hout ?_ ?_
  · unfold LSMEngine.rotateEdit
    rw [apply_ok (logNumberEdit_unchecked n)]
    exact ⟨rfl, rfl, rfl, rfl, le_rfl, (List.append_nil _).symm, (List.append_nil _).symm,
      fun i hi => (by cases hi), rfl, rfl⟩
  · have hmem : (e.apply (logNumberEdit n) .ok).1.memTable = e.memTable := by
      rw [apply_ok (logNumberEdit_unchecked n)]
    change Inv (e.apply (LsmTree.logNumberEdit n) .ok).1
      (e.apply (LsmTree.logNumberEdit n) .ok).1.memTable imms _
    rw [hmem]
    cases op <;> exact hedit
  · refine WriterPc.Ok.mono (w := .editApplied op n) hok ?_ ?_ ?_ (fun _ hx => hx)
    all_goals
      unfold LSMEngine.rotateEdit
      rw [apply_ok (logNumberEdit_unchecked n)]

theorem WriterPc.Kept.swap {op : Option WriteOp} {n : ℕ}
    (h : Inv e e.memTable imms (mapOf (ops ++ (WriterPc.editApplied op n).pending)))
    (hok : (WriterPc.editApplied op n).Ok e imms) (hout : Outcome CallStatus.logged hist ops) :
    WriterPc.idle.Kept e (e.rotateSwap n) imms
      (hist ++ op.toList.map (fun op => (op, .acked))) := by
  obtain ⟨hne, hid, hfresh⟩ := hok
  refine ⟨[⟨e.memTable, e.logNumber⟩], ops ++ op.toList, ?_, ?_, ?_, trivial⟩
  · exact ⟨rfl, rfl, rfl, rfl, le_rfl, rfl, rfl,
      fun i hi => (by rw [List.mem_singleton.1 hi]; exact hne), rfl, rfl⟩
  · cases op with
    | none => simpa using hout
    | some op => exact hout.kept op (Or.inl rfl)
  · have hswap := h.rotateSwap hid (fresh_iff.2 hfresh)
    have hsame : mapOf (ops ++ op.toList ++ WriterPc.idle.pending) =
        mapOf (ops ++ (WriterPc.editApplied op n).pending) := by
      cases op <;> simp [WriterPc.pending]
    rw [hsame]
    exact hswap

/-- **A step of the writer.** -/
theorem WriterStep.preserves (hs : WriterStep e w e' w' ret)
    (h : Inv e (w.mem e) imms (mapOf (ops ++ w.pending))) (hok : w.Ok e imms)
    (hout : Outcome CallStatus.logged hist ops) : w'.Kept e e' imms (hist ++ ret) := by
  have hhist : hist = hist ++ [] := (List.append_nil hist).symm
  cases hs with
  | call hop => exact .quiet (.refl e) (hhist ▸ hout) h hop
  | reject hadm =>
    obtain ⟨s, hs, rfl⟩ := accept_error hadm
    refine .quiet ?_ (hhist ▸ hout) (h.bumpSeq hs) trivial
    exact ⟨rfl, rfl, rfl, rfl, le_rfl, by simp, by simp, fun i hi => (by cases hi), rfl, rfl⟩
  | nothing hadm => exact .nothing hadm h hout
  | log hadm hne => exact .log hadm hne hok h (hhist ▸ hout)
  | insert =>
    refine .quiet ?_ (hhist ▸ hout) (h.frame rfl rfl rfl rfl rfl rfl rfl rfl)
      (MemTable.replay_ne_nil hok)
    exact ⟨rfl, rfl, rfl, rfl, le_rfl, by simp [LSMEngine.insertEntries],
      by simp [LSMEngine.insertEntries], fun i hi => (by cases hi), rfl, rfl⟩
  | ack hfull | giveUp hfull hstall =>
    refine .quiet (.refl e) (hout.kept _ (Or.inl rfl)) ?_ trivial
    simpa [WriterPc.pending, WriterPc.mem] using h
  | createWal hfull hready => exact .createWal hok h (hhist ▸ hout)
  | forceRotate hsize hready => exact .createWal (e.memTable.nonempty hsize) h (hhist ▸ hout)
  | applyEdit => exact .applyEdit h hok (hhist ▸ hout)
  | swap => exact .swap h hok hout

/-- What the flush worker does to the rest of the engine. -/
structure FlushFrame (e e' : LSMEngine) (imms imms' : List ImmutableMemtable) : Prop where
  memTable : e'.memTable = e.memTable
  logNumber : e'.logNumber = e.logNumber
  nextFileID : e.nextFileID ≤ e'.nextFileID
  bgError : e'.bgError = e.bgError
  cfg : e'.cfg = e.cfg
  immutables : e'.immutables ⊆ e.immutables
  logs : imms'.map (fun i => i.logNumber) ⊆ imms.map (fun i => i.logNumber)

theorem flushAdd_frame {t : SSTableMeta} {S : Set Entry} (hb : BuiltFor e t S) :
    FlushFrame e (e.flushAdd t .ok).1 e.immutables (e.flushAdd t .ok).1.immutables ∧
      (e.flushAdd t .ok).1.immutables = e.immutables ∧
      (e.flushAdd t .ok).1.flushQueue = e.flushQueue := by
  obtain ⟨g, -, heq⟩ := flushAdd_ok hb
  rw [heq]
  exact ⟨⟨rfl, rfl, le_rfl, rfl, rfl, fun _ hx => hx, fun _ hx => hx⟩, rfl, rfl⟩

theorem flushSeqNo_frame (e : LSMEngine) :
    FlushFrame e (e.flushSeqNo .ok) e.immutables (e.flushSeqNo .ok).immutables ∧
      (e.flushSeqNo .ok).immutables = e.immutables ∧
      (e.flushSeqNo .ok).flushQueue = e.flushQueue := by
  unfold LSMEngine.flushSeqNo
  rw [apply_ok (maxSeqNoEdit_unchecked _)]
  exact ⟨⟨rfl, rfl, le_rfl, rfl, rfl, fun _ hx => hx, fun _ hx => hx⟩, rfl, rfl⟩

/-- **A step of the flush worker.** -/
theorem FlusherStep.preserves (hs : FlusherStep e f e' f') (h : Inv e mem (f.imms e) m)
    (hok : f.Ok e) (hne : ∀ i ∈ e.immutables, i.table.entries ≠ []) :
    Inv e' mem (f'.imms e') m ∧ f'.Ok e' ∧ FlushFrame e e' (f.imms e) (f'.imms e') := by
  cases hs with
  | @build imm queue hq himm =>
    have hi : e.immutables = imm :: queue := (show e.immutables = e.flushQueue from hok).trans hq
    have h' : Inv { e with flushQueue := queue } mem e.immutables m :=
      h.frame rfl rfl rfl rfl rfl rfl rfl rfl
    obtain ⟨h1, hb⟩ := h'.flushBuild
      (fun x hx => mem_union_memStack.2 (Or.inr ⟨imm, by simp [hi], hx⟩)) himm
    exact ⟨h1, ⟨hi, hb⟩, ⟨rfl, rfl, Nat.le_succ _, rfl, rfl, fun _ hx => hx, fun _ hx => hx⟩⟩
  | @skip imm queue hq himm =>
    have hi : e.immutables = imm :: queue := (show e.immutables = e.flushQueue from hok).trans hq
    exact absurd himm (hne imm (by rw [hi]; exact List.mem_cons_self))
  | @add imm t hroom =>
    obtain ⟨hi, hb⟩ := hok
    have h' : Inv e mem ([] ++ imm :: e.flushQueue) m := by
      rw [List.nil_append, ← hi]
      exact h
    obtain ⟨hsub, habove, hbelow⟩ := h'.addable (fun p hp => by cases hp)
    obtain ⟨h1, hin⟩ := h'.flushAdd hb hroom hsub habove hbelow
    obtain ⟨hframe, himms, hqueue⟩ := flushAdd_frame hb
    refine ⟨?_, ⟨?_, hin⟩, hframe⟩
    · change Inv _ mem (e.flushAdd t .ok).1.immutables m
      rw [himms, hi]
      exact h1
    · rw [himms, hqueue]
      exact hi
  | @saveSeqNo imm =>
    obtain ⟨h1, hsaved, htables⟩ := h.flushSeqNo
    obtain ⟨hframe, himms, hqueue⟩ := flushSeqNo_frame e
    refine ⟨?_, ⟨?_, ?_, hsaved⟩, hframe⟩
    · change Inv _ mem (e.flushSeqNo .ok).immutables m
      rw [himms]
      exact h1
    · rw [himms, hqueue]
      exact hok.1
    · rw [htables]
      exact hok.2
  | @remove imm =>
    obtain ⟨hi, hin, hsaved⟩ := hok
    have h' : Inv e mem ([] ++ imm :: e.flushQueue) m := by
      rw [List.nil_append, ← hi]
      exact h
    have hrest : (e.removeImmutable imm).immutables = e.flushQueue := by
      have hf := filter_logNumber h'.owned.nodup_imms
      rw [← hi] at hf
      exact hf
    refine ⟨?_, ⟨hrest, hsaved⟩, ⟨rfl, rfl, le_rfl, rfl, rfl, ?_, ?_⟩⟩
    · change Inv _ mem (_ :: (e.removeImmutable imm).immutables) m
      rw [hrest]
      exact (h'.retire hin).frame rfl rfl rfl rfl rfl rfl rfl rfl
    · rw [hrest, hi]
      exact List.subset_cons_self _ _
    · change List.map _ (_ :: (e.removeImmutable imm).immutables) ⊆ List.map _ e.immutables
      rw [hrest, hi]
      exact fun _ hx => hx
  | @unlink imm =>
    have h' : Inv e mem ([] ++ ⟨newMemTable 0, imm.logNumber⟩ :: e.immutables) m := h
    refine ⟨h'.removeLog (newMemTable_versions 0) hok.2 (fun p hp => by cases hp), hok.1,
      ⟨rfl, rfl, le_rfl, rfl, rfl, fun _ hx => hx, ?_⟩⟩
    exact List.subset_cons_self _ _

/-- The invariant of a running system, for the operations that are logged. -/
structure UpInv (maxLevel : ℕ) (e : LSMEngine) (w : WriterPc) (f : FlusherPc)
    (ops : List WriteOp) : Prop where
  inv : Inv e (w.mem e) (f.imms e) (mapOf (ops ++ w.pending))
  writer : w.Ok e (f.imms e)
  flusher : f.Ok e
  nonempty : ∀ i ∈ e.immutables, i.table.entries ≠ []
  levels : e.cfg.maxLevel = maxLevel

def Sys.Inv (maxLevel : ℕ) : Sys → Prop
  | .up e w f hist => ∃ ops, Outcome CallStatus.logged hist ops ∧ UpInv maxLevel e w f ops
  | .down d hist => ∃ ops, Outcome CallStatus.logged hist ops ∧ DiskInv d maxLevel (mapOf ops)

theorem WriterPc.mem_congr (hmem : e'.memTable = e.memTable) : w.mem e' = w.mem e := by
  cases w <;> simp only [WriterPc.mem, hmem]

theorem UpInv.background (h : UpInv maxLevel e w f ops)
    (hinv : LsmTree.Inv e' (w.mem e) (f'.imms e') (mapOf (ops ++ w.pending))) (hf : f'.Ok e')
    (hframe : FlushFrame e e' (f.imms e) (f'.imms e')) : UpInv maxLevel e' w f' ops where
  inv := by
    rw [WriterPc.mem_congr hframe.memTable]
    exact hinv
  writer := h.writer.mono hframe.memTable hframe.logNumber hframe.nextFileID hframe.logs
  flusher := hf
  nonempty := fun i hi => h.nonempty i (hframe.immutables hi)
  levels := by
    rw [hframe.cfg]
    exact h.levels

theorem UpInv.readOnly (h : UpInv maxLevel e w f ops) (hr : ReadOnly e e') :
    UpInv maxLevel e' w f ops := by
  have hinv := h.inv.readOnly hr
  have hf := h.flusher
  have hreaders := hr.readers
  rw [hr.eq] at hinv hreaders ⊢
  have himms : f.imms { e with tc := e'.tc } = f.imms e := by cases f <;> rfl
  refine h.background (by rw [himms]; exact hinv) ?_
    ⟨rfl, rfl, le_rfl, rfl, rfl, fun _ hx => hx, by rw [himms]; exact fun _ hx => hx⟩
  cases f with
  | idle | added imm | saved imm | removed imm => exact hf
  | built imm t =>
    obtain ⟨hi, h1, h2, h3, h4, h5, h6, h7⟩ := hf
    exact ⟨hi, h1, h2, h3, h4, h5, by rw [hreaders]; exact h6, h7⟩

/-- **A completed compaction.** -/
theorem UpInv.compact (h : UpInv maxLevel e w .idle ops) {level : ℕ}
    (hroom : e.tc.entries.length + (e.levelPlan level).outputs.length ≤ e.tc.cap) :
    UpInv maxLevel (e.compactLevel level (fun _ => .ok) (fun _ => .ok)).1 w .idle ops := by
  by_cases hne : leveledInputs e.current e.cfg.maxLevel level = []
  · rw [compactLevel_of_nil hne]
    exact h
  · have hc := CompactPre.compacted ⟨h.inv.layered.tables, h.inv.agrees_tables, h.inv.books, hne⟩
      hroom (fun _ => .ok)
    have himms : FlusherPc.idle.imms (e.compactLevel level (fun _ => .ok) (fun _ => .ok)).1 =
        FlusherPc.idle.imms e := hc.immutables
    refine h.background ?_ ?_ ⟨hc.memTable, hc.logNumber, hc.nextFileID, hc.bgError, hc.cfg, ?_, ?_⟩
    · rw [himms]
      exact h.inv.compacted hc
    · have hf : e.immutables = e.flushQueue := h.flusher
      change _ = _
      rw [hc.immutables, hc.flushQueue, hf]
    · rw [hc.immutables]
      exact fun _ hx => hx
    · rw [himms]
      exact fun _ hx => hx

theorem UpInv.crash (h : UpInv maxLevel e w f ops) (hout : Outcome CallStatus.logged hist ops) :
    ∃ ops', Outcome CallStatus.logged (hist ++ w.inFlight) ops' ∧
      DiskInv e.dir maxLevel (mapOf ops') := by
  have hdisk := h.inv.disk
  rw [h.levels] at hdisk
  rcases w with _ | op | ⟨op, ws⟩ | op | ⟨_ | op, n⟩ | ⟨_ | op, n⟩
  case called => 
    refine ⟨ops, ?_, by simpa [WriterPc.pending] using hdisk⟩
    simpa [WriterPc.inFlight] using hout.append (.lost .nil rfl)
  case idle | walCreated.none | editApplied.none =>
    exact ⟨ops, by simpa [WriterPc.inFlight] using hout, by simpa [WriterPc.pending] using hdisk⟩
  all_goals exact ⟨ops ++ [op], hout.kept op (Or.inr rfl), hdisk⟩

theorem DiskInv.upInv {d : DataDir} (h : DiskInv d maxLevel (mapOf ops)) {cfg : Config}
    (hcfg : MayOpen maxLevel cfg d) :
    ∃ e, LsmTree.openEngine cfg d = .ok e ∧ UpInv maxLevel e .idle .idle ops := by
  have hd := h
  rw [← hcfg.levels] at hd
  obtain ⟨e, hopen, hinv, -, -, himm, hqueue, -, hcfg', -⟩ := hd.openEngine hcfg.sync hcfg.room
  refine ⟨e, hopen, ⟨?_, trivial, himm.trans hqueue.symm, ?_, ?_⟩⟩
  · change Inv e e.memTable e.immutables (mapOf (ops ++ []))
    rw [List.append_nil]
    exact hinv
  · rw [himm]
    exact fun i hi => by cases hi
  · rw [hcfg']
    exact hcfg.levels

/-- **A step of the system.** -/
theorem Step.preserves {s s' : Sys} (hs : Step maxLevel s s') (h : s.Inv maxLevel) :
    s'.Inv maxLevel := by
  cases hs with
  | writer hw =>
    obtain ⟨ops, hout, h⟩ := h
    obtain ⟨new, ops', hhand, hout', hinv, hok⟩ := hw.preserves h.inv h.writer hout
    obtain ⟨hf, himms⟩ := h.flusher.handover hhand
    refine ⟨ops', hout', ⟨by rw [himms]; exact hinv, by rw [himms]; exact hok, hf, fun i hi => ?_,
      by rw [hhand.cfg]; exact h.levels⟩⟩
    rw [hhand.immutables] at hi
    exact (List.mem_append.1 hi).elim (h.nonempty i) (hhand.nonempty i)
  | flusher hf =>
    obtain ⟨ops, hout, h⟩ := h
    obtain ⟨hinv, hok, hframe⟩ := hf.preserves h.inv h.flusher h.nonempty
    exact ⟨ops, hout, h.background hinv hok hframe⟩
  | compact level hroom _ =>
    obtain ⟨ops, hout, h⟩ := h
    exact ⟨ops, hout, h.compact hroom⟩
  | get key =>
    obtain ⟨ops, hout, h⟩ := h
    exact ⟨ops, hout, h.readOnly (readOnly_get _ key)⟩
  | scan start stop limit =>
    obtain ⟨ops, hout, h⟩ := h
    exact ⟨ops, hout, h.readOnly (readOnly_scan _ start stop limit)⟩
  | crash =>
    obtain ⟨ops, hout, h⟩ := h
    exact h.crash hout
  | crashInOpen n hcfg =>
    obtain ⟨ops, hout, h⟩ := h
    rw [← hcfg.levels] at h
    obtain ⟨e, -, -, -, hall, -⟩ := h.openEngine hcfg.sync hcfg.room
    rw [← hcfg.levels]
    exact ⟨ops, hout, hall.take n⟩
  | reopen hcfg hopen =>
    obtain ⟨ops, hout, h⟩ := h
    obtain ⟨e, hopen', h⟩ := h.upInv hcfg
    rw [hopen] at hopen'
    cases hopen'
    exact ⟨ops, hout, h⟩

/-- **The invariant holds along every run.** -/
theorem Reach.inv {s : Sys} (hmax : maxLevel ≤ maxLevels) (h : Reach maxLevel s) :
    s.Inv maxLevel := by
  induction h with
  | start => exact ⟨[], .nil, diskInv_empty hmax⟩
  | step _ hs ih => exact hs.preserves ih

theorem UpInv.readable (h : UpInv maxLevel e .idle f ops) : Readable e (mapOf ops) := by
  have hinv : Inv e e.memTable (f.imms e) (mapOf ops) := by
    have := h.inv
    rwa [show ops ++ WriterPc.idle.pending = ops from List.append_nil ops] at this
  cases f with
  | idle | built imm t | added imm | saved imm => exact hinv.readable
  | removed imm =>
    have hinv : Inv e e.memTable ([] ++ ⟨newMemTable 0, imm.logNumber⟩ :: e.immutables) _ := hinv
    refine hinv.readable_of (memStack_remove_empty (newMemTable_versions 0) hinv.layered) ?_
    intro x hx
    rcases mem_union_memStack.1 hx with hx | ⟨i, hi, hx⟩
    · exact mem_union_memStack.2 (Or.inl hx)
    · exact mem_union_memStack.2 (Or.inr ⟨i, by simp [hi], hx⟩)

/-! ### Whole operations -/

/-- How a write operation returns, if it does not reject its values. -/
def LSMEngine.returned (e : LSMEngine) (op : WriteOp) : History :=
  match e.accept op, (e.submit op).2 with
  | (_, .error _), _ => []
  | _, .ok _ => [(op, .acked)]
  | _, .error _ => [(op, .stalled)]

theorem Reach.submit {op : WriteOp} (h : Reach maxLevel (.up e .idle f hist)) (hop : op.Nonempty) :
    Reach maxLevel (.up (e.submit op).1 .idle f (hist ++ e.returned op)) := by
  have hcall : Reach maxLevel (.up e (.called op) f hist) := by
    simpa using h.step (.writer (.call hop))
  unfold LSMEngine.returned LSMEngine.submit
  cases hadm : e.accept op with
  | mk e₁ r =>
    cases r with
    | error err => exact hcall.step (.writer (.reject hadm))
    | ok ws =>
      cases ws with
      | nil => exact hcall.step (.writer (.nothing hadm))
      | cons w ws =>
        have hlog := hcall.step (.writer (.log hadm (List.cons_ne_nil w ws)))
        have hins := hlog.step (.writer .insert)
        rw [List.append_nil, List.append_nil] at hins
        simp only [LSMEngine.rotateIfFull]
        split_ifs with hfull
        · unfold LSMEngine.rotateMemTable
          cases hready : ((e₁.logWrite (w :: ws)).insertEntries (w :: ws)).rotateReady with
          | error err => exact hins.step (.writer (.giveUp hfull hready))
          | ok u =>
            have hwal := hins.step (.writer (.createWal hfull hready))
            have hswap := (hwal.step (.writer .applyEdit)).step (.writer .swap)
            rw [List.append_nil, List.append_nil] at hswap
            exact hswap
        · exact hins.step (.writer (.ack (by simpa using hfull)))

/-! ### Durability -/

/-- **Durability and atomicity.** Along every run, with crashes between any two durable steps of
writes, rotations, flushes and recoveries, the engine answers from the operations that were logged
before they returned, in order, and from any of those that a crash cut off, each taken as a whole.
If no call was given up in a write stall, the operations that were logged are the acknowledged ones.
What a crash leaves is read back from its bytes and can be opened again. -/
theorem durable_and_atomic (hmax : maxLevel ≤ maxLevels) {s : Sys} (h : Reach maxLevel s)
    (crc : Bytes → UInt32) :
    (∀ e f hist, s = .up e .idle f hist → ∃ ops, Outcome CallStatus.logged hist ops ∧
      (CallStatus.stalled ∉ hist.map Prod.snd →
        Outcome (fun status => status == .acked) hist ops) ∧
      ∀ k, (e.get k).1 = lookupResult (mapOf ops k)) ∧
    ∀ d hist, s = .down d hist → ∃ ops, Outcome CallStatus.logged hist ops ∧
      (CallStatus.stalled ∉ hist.map Prod.snd →
        Outcome (fun status => status == .acked) hist ops) ∧
      ∀ cfg, MayOpen maxLevel cfg d → d.ReadBack crc ∧
        ∃ e, openEngine cfg d = .ok e ∧ ∀ k, (e.get k).1 = lookupResult (mapOf ops k) := by
  have hinv := h.inv hmax
  constructor
  · rintro e f hist rfl
    obtain ⟨ops, hout, hup⟩ := hinv
    exact ⟨ops, hout, hout.acked, hup.readable.get⟩
  · rintro d hist rfl
    obtain ⟨ops, hout, hdisk⟩ := hinv
    refine ⟨ops, hout, hout.acked, fun cfg hcfg => ⟨hcfg.fits.1.readBack crc, ?_⟩⟩
    obtain ⟨e, hopen, hup⟩ := hdisk.upInv hcfg
    exact ⟨e, hopen, hup.readable.get⟩

/-- One call has returned, and a crash has cut off the next. -/
theorem cutOff_durable : ∃ d e ops, Reach 7 (.down d
      [(.put [1] [10], .acked), (.put [2] [20], .inFlight)]) ∧ MayOpen 7 {} d ∧
    d.ReadBack Crc32.checksumIEEE ∧ openEngine {} d = .ok e ∧
    Outcome (fun status => status == .acked)
      [(.put [1] [10], .acked), (.put [2] [20], .inFlight)] ops ∧
    ∀ k, (e.get k).1 = lookupResult (mapOf ops k) := by
  obtain ⟨e, hopen, -⟩ := @openEngine_empty {} (by decide) rfl
  have hrun : ∀ e, openEngine {} {} = .ok e →
      e.returned (.put [1] [10]) = [(.put [1] [10], .acked)] ∧
      OpenRoom (Config.withDefaults {}) (e.submit (.put [1] [10])).1.dir ∧
      OpenFits (Config.withDefaults {}) (e.submit (.put [1] [10])).1.dir := by
    decide +kernel
  obtain ⟨hret, hroom, hfits⟩ := hrun e hopen
  have h0 : Reach 7 (.up e .idle .idle []) :=
    Reach.start.step (.reopen ⟨rfl, rfl, by decide +kernel, by decide +kernel⟩ hopen)
  have h1 := h0.submit (show (WriteOp.put [1] [10]).Nonempty by decide)
  have h2 := (h1.step (.writer (.call (show (WriteOp.put [2] [20]).Nonempty by decide)))).step
    .crash
  rw [hret] at h2
  obtain ⟨ops, -, hout, hall⟩ :=
    (durable_and_atomic (by decide) h2 Crc32.checksumIEEE).2 _ _ rfl
  obtain ⟨hread, e', hopen', hget⟩ := hall {} ⟨rfl, rfl, hroom, hfits⟩
  exact ⟨_, e', ops, h2, ⟨rfl, rfl, hroom, hfits⟩, hread, hopen', hout (by decide), hget⟩

/-- Every write fills the memtable, and one immutable memtable is allowed. -/
def stallConfig : Config := { memTableSize := 1, maxImmutableMemTables := 1 }

/-- The calls of a run in which the flush worker does not get to run: the second and third write
give up in the stall. -/
def stallHistory : History :=
  [(.put [1] [10], .acked), (.put [2] [20], .stalled), (.put [3] [30], .stalled)]

def LSMEngine.afterStalls (e : LSMEngine) : LSMEngine :=
  (((e.submit (.put [1] [10])).1.submit (.put [2] [20])).1.submit (.put [3] [30])).1

theorem reach_stalls : ∃ e, openEngine stallConfig {} = .ok e ∧
    Reach 7 (.down e.afterStalls.dir stallHistory) := by
  obtain ⟨e, hopen, -⟩ := @openEngine_empty stallConfig (by decide) rfl
  have hret : ∀ e, openEngine stallConfig {} = .ok e →
      e.returned (.put [1] [10]) ++ (e.submit (.put [1] [10])).1.returned (.put [2] [20]) ++
        ((e.submit (.put [1] [10])).1.submit (.put [2] [20])).1.returned (.put [3] [30]) =
          stallHistory := by
    decide +kernel
  have h0 : Reach 7 (.up e .idle .idle []) :=
    Reach.start.step (.reopen ⟨rfl, rfl, by decide +kernel, by decide +kernel⟩ hopen)
  have h1 := h0.submit (show (WriteOp.put [1] [10]).Nonempty by decide)
  have h2 := h1.submit (show (WriteOp.put [2] [20]).Nonempty by decide)
  have h3 := h2.submit (show (WriteOp.put [3] [30]).Nonempty by decide)
  rw [List.nil_append, hret e hopen] at h3
  exact ⟨e, hopen, h3.step .crash⟩

/-- A write that gives up in a stall reports an error, but it is logged: the acknowledged operations
and those cut off by a crash do not account for what is found after a restart. -/
theorem stalled_writes_found : ¬ ∀ d hist cfg e, Reach 7 (.down d hist) → MayOpen 7 cfg d →
    openEngine cfg d = .ok e → ∃ ops, Outcome (fun st => st == .acked) hist ops ∧
      ∀ k, (e.get k).1 = lookupResult (mapOf ops k) := by
  intro h
  obtain ⟨e, hopen, hr⟩ := reach_stalls
  have hrun : ∀ e, openEngine stallConfig {} = .ok e →
      OpenRoom stallConfig.withDefaults e.afterStalls.dir ∧
      OpenFits stallConfig.withDefaults e.afterStalls.dir ∧
      ∀ e', openEngine stallConfig e.afterStalls.dir = .ok e' →
        (e'.get [2]).1 = .ok [20] ∧ (e'.get [3]).1 = .ok [30] := by
    decide +kernel
  obtain ⟨hroom, hfits, hget⟩ := hrun e hopen
  have hmay : MayOpen 7 stallConfig e.afterStalls.dir := ⟨rfl, rfl, hroom, hfits⟩
  obtain ⟨ops₀, -, hdisk⟩ := hr.inv (by decide)
  obtain ⟨e', hopen', -⟩ := hdisk.upInv hmay
  obtain ⟨ops, hout, hall⟩ := h _ _ _ _ hr hmay hopen'
  -- only the first operation was acknowledged
  have hops : ops = [.put [1] [10]] := by
    rcases hout with _ | ⟨hout, hs⟩ | ⟨hout, hs⟩
    · rcases hout with _ | ⟨-, hs⟩ | ⟨hout, -⟩
      · simp at hs
      · rcases hout with _ | ⟨-, hs⟩ | ⟨hout, -⟩
        · simp at hs
        · cases hout
          rfl
    · cases hs
  have hall := hall [2]
  rw [hops, (hget e' hopen').1] at hall
  exact absurd hall (by decide)

end LsmTree
