import LsmTree.Engine.State

/-!
# The write path (`LSMEngine.Put`, `Delete`, `Write`, `rotateMemTable`)

A write is admitted (value sizes, background error), stamped with sequence numbers, appended to the
active log as one record, inserted into the memtable, and may then rotate a full memtable out.
Rotation creates a new log, records its number in the manifest and swaps the memtable; each of these
is a function of its own, since a crash can hit between them.

A stalled rotation (`writeStall`) leaves the engine as it was: the writer waits for a flush and
tries again, or gives up.
-/

namespace LsmTree

variable {ws : List WALEntry} {e e' : LSMEngine}

structure BatchEntry where
  key : Bytes
  value : Bytes
  delete : Bool
  deriving DecidableEq, Repr

/-- The log entry for a batch operation: a delete carries no value. -/
def BatchEntry.stamp (b : BatchEntry) (seqNo : ℕ) : WALEntry :=
  if b.delete then ⟨.delete, b.key, [], seqNo⟩ else ⟨.set, b.key, b.value, seqNo⟩

/-- Stamp the operations of a batch in order, giving up at the first value that is too large.
Returns the sequence number reached and the log entries. -/
def stampBatch (maxValueSize : ℤ) : ℕ → List BatchEntry → ℕ × Option (List WALEntry)
  | s, [] => (s, some [])
  | s, b :: bs =>
    if b.delete = false ∧ maxValueSize < b.value.length then (s, none)
    else
      let (s', r) := stampBatch maxValueSize (s + 1) bs
      (s', r.map (fun ws => b.stamp (s + 1) :: ws))

inductive WriteOp
  | put (key value : Bytes)
  | delete (key : Bytes)
  | write (batch : List BatchEntry)
  deriving DecidableEq, Repr

/-- The checks before anything is logged, and the stamped entries.  An empty batch yields none. -/
def LSMEngine.accept (e : LSMEngine) : WriteOp → LSMEngine × Except EngineError (List WALEntry)
  | .put key value =>
    if e.cfg.maxValueSize < value.length then (e, .error .valueTooLarge)
    else if e.bgError then (e, .error .background)
    else ({ e with seqNo := e.seqNo + 1 }, .ok [⟨.set, key, value, e.seqNo + 1⟩])
  | .delete key =>
    if e.bgError then (e, .error .background)
    else ({ e with seqNo := e.seqNo + 1 }, .ok [⟨.delete, key, [], e.seqNo + 1⟩])
  | .write batch =>
    if batch = [] then (e, .ok [])
    else if e.bgError then (e, .error .background)
    else
      match stampBatch e.cfg.maxValueSize e.seqNo batch with
      | (s, none) => ({ e with seqNo := s }, .error .valueTooLarge)
      | (s, some ws) => ({ e with seqNo := s }, .ok ws)

/-- Append a record to the active log, and sync it if so configured. -/
def LSMEngine.logWrite (e : LSMEngine) (record : List WALEntry) : LSMEngine :=
  if e.cfg.syncWAL then
    { e.exec (.appendLog e.logNumber (e.walBuf ++ [record])) with walBuf := [] }
  else { e with walBuf := e.walBuf ++ [record] }

def LSMEngine.insertEntries (e : LSMEngine) (ws : List WALEntry) : LSMEngine :=
  { e with memTable := e.memTable.replay ws }

/-- Whether a rotation can go ahead: no background error, and a free slot for the memtable. -/
def LSMEngine.rotateReady (e : LSMEngine) : Except EngineError Unit :=
  if e.bgError then .error .background
  else if e.cfg.maxImmutableMemTables ≤ e.immutables.length then .error .writeStall
  else .ok ()

def LSMEngine.rotateOpen (e : LSMEngine) : LSMEngine × ℕ :=
  let (e, n) := e.newFileID
  (e.exec (.appendLog n []), n)

def LSMEngine.rotateEdit (e : LSMEngine) (newLogNumber : ℕ) : LSMEngine :=
  (e.apply (logNumberEdit newLogNumber) .ok).1

/-- Make the memtable immutable, continue with a new one on the new log, close the old log (which
syncs it) and queue the flush. -/
def LSMEngine.rotateSwap (e : LSMEngine) (newLogNumber : ℕ) : LSMEngine :=
  let imm : ImmutableMemtable := ⟨e.memTable, e.logNumber⟩
  { e.exec (.appendLog e.logNumber e.walBuf) with
    memTable := newMemTable e.cfg.memTableSize
    immutables := e.immutables ++ [imm]
    logNumber := newLogNumber
    walBuf := []
    flushQueue := e.flushQueue ++ [imm] }

def LSMEngine.rotateMemTable (e : LSMEngine) : LSMEngine × Except EngineError Unit :=
  match e.rotateReady with
  | .error err => (e, .error err)
  | .ok () =>
    let (e, n) := e.rotateOpen
    ((e.rotateEdit n).rotateSwap n, .ok ())

def LSMEngine.rotateIfFull (e : LSMEngine) : LSMEngine × Except EngineError Unit :=
  if e.memTable.isFull then e.rotateMemTable else (e, .ok ())

def LSMEngine.submit (e : LSMEngine) (op : WriteOp) : LSMEngine × Except EngineError Unit :=
  match e.accept op with
  | (e, .error err) => (e, .error err)
  | (e, .ok []) => (e, .ok ())
  | (e, .ok ws) => ((e.logWrite ws).insertEntries ws).rotateIfFull

def LSMEngine.delete (e : LSMEngine) (key : Bytes) : LSMEngine × Except EngineError Unit :=
  e.submit (.delete key)

def LSMEngine.write (e : LSMEngine) (batch : List BatchEntry) :
    LSMEngine × Except EngineError Unit :=
  e.submit (.write batch)

/-! ### What an admitted write looks like -/

/-- The pairs a write operation stands for: a key and its new value, or a deletion. -/
def WriteOp.updates : WriteOp → List (Bytes × Option Bytes)
  | .put key value => [(key, some value)]
  | .delete key => [(key, none)]
  | .write batch => batch.map (fun b => (b.key, if b.delete then none else some b.value))

/-- Log entries stamped one after another from `s + 1` on. -/
def Consecutive (s : ℕ) (ws : List WALEntry) : Prop :=
  ws.map WALEntry.seqNo = List.range' (s + 1) ws.length

theorem stampBatch_some {n : ℤ} {s s' : ℕ} {bs : List BatchEntry}
    (h : stampBatch n s bs = (s', some ws)) :
    s' = s + ws.length ∧ Consecutive s ws ∧
      ws.map (fun w => (w.key, w.toEntry.payload)) = (WriteOp.write bs).updates := by
  induction bs generalizing s ws with
  | nil =>
    cases h
    exact ⟨rfl, rfl, rfl⟩
  | cons b bs ih =>
    rw [stampBatch] at h
    by_cases hb : b.delete = false ∧ n < b.value.length
    · rw [if_pos hb] at h
      cases h
    · rw [if_neg hb] at h
      cases hr : stampBatch n (s + 1) bs with
      | mk s'' r =>
        rw [hr] at h
        simp only [Prod.mk.injEq] at h
        obtain ⟨rfl, h⟩ := h
        obtain ⟨ws', rfl, rfl⟩ := Option.map_eq_some_iff.1 h
        obtain ⟨h1, h2, h3⟩ := ih hr
        refine ⟨by simp only [List.length_cons]; omega, ?_, ?_⟩
        · unfold Consecutive at h2 ⊢
          rw [List.map_cons, h2, List.length_cons, List.range'_succ]
          congr 1
          unfold BatchEntry.stamp
          split_ifs <;> rfl
        · rw [List.map_cons, h3]
          simp only [WriteOp.updates, List.map_cons]
          congr 1
          unfold BatchEntry.stamp
          split_ifs <;> rfl

theorem stampBatch_mono (n : ℤ) (bs : List BatchEntry) (s : ℕ) : s ≤ (stampBatch n s bs).1 := by
  induction bs generalizing s with
  | nil => exact le_rfl
  | cons b bs ih =>
    rw [stampBatch]
    split_ifs
    · exact le_rfl
    · exact (Nat.le_succ s).trans (ih (s + 1))

variable {op : WriteOp}

/-- **Admission.** A write that passes the checks changes the sequence number only, and its entries
are its updates in order, stamped with the numbers it took. -/
theorem accept_ok (h : e.accept op = (e', .ok ws)) :
    e' = { e with seqNo := e.seqNo + ws.length } ∧ Consecutive e.seqNo ws ∧
      ws.map (fun w => (w.key, w.toEntry.payload)) = op.updates := by
  cases op with
  | put key value =>
    simp only [LSMEngine.accept] at h
    split at h
    · cases h
    · split at h
      · cases h
      · obtain ⟨rfl, h⟩ := Prod.mk.inj h
        cases h
        exact ⟨rfl, rfl, rfl⟩
  | delete key =>
    simp only [LSMEngine.accept] at h
    split at h
    · cases h
    · obtain ⟨rfl, h⟩ := Prod.mk.inj h
      cases h
      exact ⟨rfl, rfl, rfl⟩
  | write batch =>
    simp only [LSMEngine.accept] at h
    split at h
    · rename_i hb
      obtain ⟨rfl, h⟩ := Prod.mk.inj h
      cases h
      subst hb
      exact ⟨rfl, rfl, rfl⟩
    · split at h
      · cases h
      · split at h
        · cases h
        · rename_i s ws' hs
          obtain ⟨rfl, h⟩ := Prod.mk.inj h
          cases h
          obtain ⟨rfl, h2, h3⟩ := stampBatch_some hs
          exact ⟨rfl, h2, h3⟩

theorem accept_error {err : EngineError} (h : e.accept op = (e', .error err)) :
    ∃ s, e.seqNo ≤ s ∧ e' = { e with seqNo := s } := by
  cases op with
  | put key value =>
    simp only [LSMEngine.accept] at h
    split at h
    · cases h; exact ⟨e.seqNo, le_rfl, rfl⟩
    · split at h
      · cases h; exact ⟨e.seqNo, le_rfl, rfl⟩
      · cases h
  | delete key =>
    simp only [LSMEngine.accept] at h
    split at h
    · cases h; exact ⟨e.seqNo, le_rfl, rfl⟩
    · cases h
  | write batch =>
    have hmono := stampBatch_mono e.cfg.maxValueSize batch e.seqNo
    simp only [LSMEngine.accept] at h
    split at h
    · cases h
    · split at h
      · cases h; exact ⟨e.seqNo, le_rfl, rfl⟩
      · split at h
        · rename_i s hs
          cases h
          rw [hs] at hmono
          exact ⟨s, hmono, rfl⟩
        · cases h

end LsmTree
