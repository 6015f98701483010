import LsmTree.Engine.Recover
import Mathlib.Logic.Function.Basic

/-!
# Writers and the flush worker on one lock and one bounded queue

`Put`, `Delete`, `Write` and `ForceFlush` run under `e.mu`.  A rotation waits on `flushCond` (which
gives the lock back) while there are `MaxImmutableMemTables` immutable memtables, and sends the
memtable it took out on `flushQueue`, a channel of capacity 16, with the lock held.  The flush
worker receives from the channel and takes the lock to drop the memtable it has written.

* `flushWrite`, `detach`, `enqueue`: the engine's own steps, cut where the lock or the channel is
  used; `flushNext_eq` and `rotateMemTable_eq` put them together again;
* `Sys`, `Act`, `Sys.step`: any number of writers and the worker, interleaved in any order.

The condition variable may wake a waiting writer at any time: the flush worker broadcasts, and so do
the timers of the other writers.
-/

namespace LsmTree

variable {e : LSMEngine}

/-- The part of a round of the flush worker before it takes the lock.  The result says whether the
memtable's log is removed in the end. -/
def LSMEngine.flushWrite (e : LSMEngine) (imm : ImmutableMemtable) (o : FlushOutcome) :
    LSMEngine × Bool :=
  if o.fault = some .build then ({ e.newFileID.1 with bgError := true }, false)
  else if imm.table.entries = [] then (e.newFileID.1, false)
  else
    let (e, m) := e.flushBuild imm
    if o.fault = some .register then ({ e with bgError := true }, false)
    else
      match e.flushAdd m o.addRes with
      | (e, false) =>
        ({ ({ e with tc := e.tc.unregister m.fileID } : LSMEngine).exec (.removeTable m.fileID) with
            bgError := true }, false)
      | (e, true) => (e.flushSeqNo o.seqRes, o.logRemoved)

def LSMEngine.unlinkLog (e : LSMEngine) (imm : ImmutableMemtable) (unlink : Bool) : LSMEngine :=
  if unlink then e.exec (.removeLog imm.logNumber) else e

/-- The part of a rotation before the send: the engine and the memtable taken out. -/
def LSMEngine.detach (e : LSMEngine) : LSMEngine × ImmutableMemtable :=
  let (e, n) := e.rotateOpen
  let e := e.rotateEdit n
  ({ e.rotateSwap n with flushQueue := e.flushQueue }, ⟨e.memTable, e.logNumber⟩)

/-- The send on `flushQueue`. -/
def LSMEngine.enqueue (e : LSMEngine) (imm : ImmutableMemtable) : LSMEngine :=
  { e with flushQueue := e.flushQueue ++ [imm] }

theorem rotateMemTable_eq (h : e.rotateReady = .ok ()) :
    e.rotateMemTable = (e.detach.1.enqueue e.detach.2, .ok ()) := by
  unfold LSMEngine.rotateMemTable
  rw [h]
  rfl

theorem flushNext_eq {imm : ImmutableMemtable} {queue : List ImmutableMemtable}
    (h : e.flushQueue = imm :: queue) (o : FlushOutcome) :
    e.flushNext o =
      ((({ e with flushQueue := queue } : LSMEngine).flushWrite imm o).1.removeImmutable
        imm).unlinkLog imm (({ e with flushQueue := queue } : LSMEngine).flushWrite imm o).2 := by
  unfold LSMEngine.flushNext
  rw [h]
  simp only
  generalize ({ e with flushQueue := queue } : LSMEngine) = e₁
  unfold LSMEngine.flush LSMEngine.flushWrite
  by_cases hbuild : o.fault = some .build
  · rw [if_pos hbuild, if_pos hbuild]
    rfl
  rw [if_neg hbuild, if_neg hbuild]
  by_cases hempty : imm.table.entries = []
  · rw [if_pos hempty, if_pos hempty]
    rfl
  rw [if_neg hempty, if_neg hempty]
  simp only
  by_cases hreg : o.fault = some .register
  · rw [if_pos hreg, if_pos hreg]
    rfl
  rw [if_neg hreg, if_neg hreg]
  rcases hadd : (e₁.flushBuild imm).1.flushAdd (e₁.flushBuild imm).2 o.addRes with ⟨e₂, ok⟩
  cases ok with
  | false => rfl
  | true => cases hlog : o.logRemoved <;> rfl

namespace Backpressure

def flushQueueCap : ℕ := 16

inductive Call
  | write (op : WriteOp)
  | forceFlush
  deriving DecidableEq, Repr

inductive Todo
  | start (c : Call)
  | rotate (c : Call)
  | drain
  deriving DecidableEq, Repr

/-- Where a writer is: outside, in `e.mu.Lock()`, under the lock, in `flushCond.Wait()`, or at the
send, with the lock held. -/
inductive WriterPc
  | idle
  | blocked (t : Todo)
  | running (t : Todo)
  | waiting (t : Todo)
  | sending (c : Call) (imm : ImmutableMemtable)

/-- Where the flush worker is: at the receive, in a flush, in `e.mu.Lock()`, under the lock, or at
the removal of the log. -/
inductive WorkerPc
  | idle
  | flushing (imm : ImmutableMemtable)
  | blocked (imm : ImmutableMemtable) (unlink : Bool)
  | locked (imm : ImmutableMemtable) (unlink : Bool)
  | unlinking (imm : ImmutableMemtable) (unlink : Bool)

inductive Party
  | writer (i : ℕ)
  | worker
  deriving DecidableEq, Repr

/-- The engine, the holder of its lock, the writers and the flush worker. -/
structure Sys where
  e : LSMEngine
  mu : Option Party := none
  writers : ℕ → WriterPc := fun _ => .idle
  worker : WorkerPc := .idle

/-- The steps: a writer makes a call, gets the lock, goes on under the lock, returns with an error,
or is woken; the worker receives, writes the table, gets the lock, drops the memtable, removes the
log. -/
inductive Act
  | call (i : ℕ) (c : Call)
  | lock (i : ℕ)
  | work (i : ℕ)
  | fail (i : ℕ)
  | wake (i : ℕ)
  | receive
  | flush (o : FlushOutcome)
  | lockWorker
  | remove
  | unlink
  deriving DecidableEq, Repr

def Sys.goto (s : Sys) (i : ℕ) (pc : WriterPc) : Sys :=
  { s with writers := Function.update s.writers i pc }

def Sys.acquire (s : Sys) (i : ℕ) (t : Todo) : Sys :=
  { s.goto i (.running t) with mu := some (.writer i) }

def Sys.release (s : Sys) (i : ℕ) (pc : WriterPc) : Sys := { s.goto i pc with mu := none }

@[simp] theorem goto_writers (s : Sys) (i : ℕ) (pc : WriterPc) : (s.goto i pc).writers i = pc := by
  unfold Sys.goto
  exact Function.update_self i pc s.writers

@[simp] theorem acquire_writers (s : Sys) (i : ℕ) (t : Todo) :
    (s.acquire i t).writers i = .running t := goto_writers s i (.running t)

@[simp] theorem release_writers (s : Sys) (i : ℕ) (pc : WriterPc) :
    (s.release i pc).writers i = pc := goto_writers s i pc

/-- A write under the lock, up to the question whether the memtable is full. -/
def Sys.write (s : Sys) (i : ℕ) (op : WriteOp) : Sys :=
  match s.e.accept op with
  | (e, .error _) => { s with e := e }.release i .idle
  | (e, .ok []) => { s with e := e }.release i .idle
  | (e, .ok (w :: ws)) =>
    let e := (e.logWrite (w :: ws)).insertEntries (w :: ws)
    if e.memTable.isFull then { s with e := e }.goto i (.running (.rotate (.write op)))
    else { s with e := e }.release i .idle

/-- A rotation up to the send.  The loop on `flushCond` checks for a background error and a free
slot again each time it is woken. -/
def Sys.rotate (s : Sys) (i : ℕ) (c : Call) : Sys :=
  match s.e.rotateReady with
  | .error .writeStall => s.release i (.waiting (.rotate c))
  | .error _ => s.release i .idle
  | .ok () => { s with e := s.e.detach.1 }.goto i (.sending c s.e.detach.2)

/-- The send, if there is room, and what the call does after it: a write returns, `ForceFlush` goes
on to wait for the flushes. -/
def Sys.send (s : Sys) (i : ℕ) (c : Call) (imm : ImmutableMemtable) : Sys :=
  if s.e.flushQueue.length < flushQueueCap then
    match c with
    | .write _ => { s with e := s.e.enqueue imm }.release i .idle
    | .forceFlush => { s with e := s.e.enqueue imm }.goto i (.running .drain)
  else s

def Sys.work (s : Sys) (i : ℕ) : Sys :=
  match s.writers i with
  | .running (.start (.write op)) => s.write i op
  | .running (.start .forceFlush) =>
    if 0 < s.e.memTable.approximateSize then s.goto i (.running (.rotate .forceFlush))
    else s.goto i (.running .drain)
  | .running (.rotate c) => s.rotate i c
  | .running .drain =>
    if s.e.immutables = [] then s.release i .idle else s.release i (.waiting .drain)
  | .sending c imm => s.send i c imm
  | _ => s

/-- An error return under the lock: the log could not be written, the new log or the manifest edit
failed, or the write stalled for too long.  The sequence number, or the new log's number, is used
up. -/
def Sys.fail (s : Sys) (i : ℕ) : Sys :=
  match s.writers i with
  | .running (.start (.write op)) => { s with e := (s.e.accept op).1 }.release i .idle
  | .running (.rotate _) =>
    match s.e.rotateReady with
    | .ok () => { s with e := s.e.newFileID.1 }.release i .idle
    | .error _ => s.release i .idle
  | _ => s

/-- One step; an act that is not possible where it is tried does nothing. -/
def Sys.step (s : Sys) : Act → Sys
  | .call i c =>
    match s.writers i with
    | .idle => s.goto i (.blocked (.start c))
    | _ => s
  | .lock i =>
    match s.writers i, s.mu with
    | .blocked t, none => s.acquire i t
    | _, _ => s
  | .work i => s.work i
  | .fail i => s.fail i
  | .wake i =>
    match s.writers i with
    | .waiting t => s.goto i (.blocked t)
    | _ => s
  | .receive =>
    match s.worker, s.e.flushQueue with
    | .idle, imm :: queue =>
      { s with e := { s.e with flushQueue := queue }, worker := .flushing imm }
    | _, _ => s
  | .flush o =>
    match s.worker with
    | .flushing imm =>
      { s with e := (s.e.flushWrite imm o).1, worker := .blocked imm (s.e.flushWrite imm o).2 }
    | _ => s
  | .lockWorker =>
    match s.worker, s.mu with
    | .blocked imm unlink, none => { s with mu := some .worker, worker := .locked imm unlink }
    | _, _ => s
  | .remove =>
    match s.worker with
    | .locked imm unlink =>
      { s with e := s.e.removeImmutable imm, mu := none, worker := .unlinking imm unlink }
    | _ => s
  | .unlink =>
    match s.worker with
    | .unlinking imm unlink => { s with e := s.e.unlinkLog imm unlink, worker := .idle }
    | _ => s

def Sys.run (s : Sys) (acts : List Act) : Sys := acts.foldl Sys.step s

/-- A writer holds the lock and is blocked at the send, since the queue is full, and the flush
worker is blocked at the lock. -/
def Sys.Deadlocked (s : Sys) : Prop :=
  ∃ i c imm, s.mu = some (.writer i) ∧ s.writers i = .sending c imm ∧
    flushQueueCap ≤ s.e.flushQueue.length ∧ ∃ imm' unlink, s.worker = .blocked imm' unlink

end Backpressure

end LsmTree
