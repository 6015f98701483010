import LsmTree.Property.Refinement

/-!
# Runs in which flushes fail

The flush worker goes on after a failed flush: it records the error, which stops writes and
rotations, drops the memtable and takes the next one.  A step of such a run is an ordinary step, or
a round of the worker with any outcome.  `FlushFailed` says what a failed flush leaves behind: the
version, the readers and the logs as they were, maybe a table file that nothing lists, and maybe a
record in the manifest file.
-/

namespace LsmTree

variable {m : Bytes → Option Bytes}

inductive WorkerEvent
  | plain (ev : Event)
  | flush (o : FlushOutcome)
  deriving DecidableEq, Repr

def LSMEngine.workerStep (e : LSMEngine) : WorkerEvent → Except OpenError LSMEngine
  | .plain ev => e.step ev
  | .flush o => .ok (e.flushNext o)

def LSMEngine.workerRun (e : LSMEngine) : List WorkerEvent → Except OpenError LSMEngine
  | [] => .ok e
  | ev :: evs =>
    match e.workerStep ev with
    | .error err => .error err
    | .ok e => e.workerRun evs

/-- The updates that a step acknowledges: those of a write that returns no error. -/
def LSMEngine.acked (e : LSMEngine) : WorkerEvent → List (Bytes × Option Bytes)
  | .plain (.write op) => if (e.submit op).2.isOk then op.updates else []
  | _ => []

/-- The updates that a run acknowledges, in order. -/
def LSMEngine.ackedRun (e : LSMEngine) : List WorkerEvent → List (Bytes × Option Bytes)
  | [] => []
  | ev :: evs =>
    e.acked ev ++
      match e.workerStep ev with
      | .error _ => []
      | .ok e => e.ackedRun evs

def LSMEngine.WorkerAlong (allowed : LSMEngine → WorkerEvent → Prop) (e : LSMEngine) :
    List WorkerEvent → Prop
  | [] => True
  | ev :: evs => allowed e ev ∧ ∀ e', e.workerStep ev = .ok e' → e'.WorkerAlong allowed evs

instance decidableWorkerAlong (allowed : LSMEngine → WorkerEvent → Prop)
    [∀ e ev, Decidable (allowed e ev)] : (e : LSMEngine) → (evs : List WorkerEvent) →
      Decidable (e.WorkerAlong allowed evs)
  | _, [] => isTrue trivial
  | e, ev :: evs =>
    haveI : DecidablePred (fun e' : LSMEngine => e'.WorkerAlong allowed evs) :=
      fun e' => decidableWorkerAlong allowed e' evs
    inferInstanceAs (Decidable (allowed e ev ∧
      ∀ e', e.workerStep ev = .ok e' → e'.WorkerAlong allowed evs))

variable {e e' : LSMEngine}

/-- **Runs with acknowledged writes.** What relates an engine to a map, and is kept by every allowed
step with the updates that it acknowledges, holds after every allowed run. -/
theorem LSMEngine.WorkerAlong.invariant {allowed : LSMEngine → WorkerEvent → Prop}
    (inv : LSMEngine → (Bytes → Option Bytes) → Prop) {evs : List WorkerEvent}
    (h : e.WorkerAlong allowed evs) (hinv : inv e m)
    (hstep : ∀ e m ev, inv e m → allowed e ev →
      ∃ e', e.workerStep ev = .ok e' ∧ inv e' (applyUpdates (e.acked ev) m)) :
    ∃ e', e.workerRun evs = .ok e' ∧ inv e' (applyUpdates (e.ackedRun evs) m) := by
  induction evs generalizing e m with
  | nil => exact ⟨e, rfl, hinv⟩
  | cons ev evs ih =>
    obtain ⟨e₁, h1, hinv₁⟩ := hstep e m ev hinv h.1
    obtain ⟨e₂, h2, hinv₂⟩ := ih (h.2 e₁ h1) hinv₁
    refine ⟨e₂, ?_, ?_⟩
    · rw [LSMEngine.workerRun, h1]
      exact h2
    · rw [LSMEngine.ackedRun, h1, applyUpdates_append]
      exact hinv₂

/-! ### Writes -/

theorem logWrite_eq (e : LSMEngine) (ws : List WALEntry) :
    ∃ logs buf, e.logWrite ws = { e with dir := { e.dir with logs := logs }, walBuf := buf } := by
  unfold LSMEngine.logWrite
  split_ifs
  · exact ⟨_, _, rfl⟩
  · exact ⟨e.dir.logs, _, rfl⟩

/-- **A write without a stall** is acknowledged exactly if it is carried out.  It takes sequence
numbers, or it is logged, inserted, and may rotate the memtable out. -/
theorem submit_preserves {P : LSMEngine → (Bytes → Option Bytes) → Prop} {op : WriteOp}
    (hop : op.Nonempty) (hstall : e.stalls op = false)
    (hbump : ∀ s, e.seqNo ≤ s → P { e with seqNo := s } m)
    (hwrite : ∀ ws logs buf, Consecutive e.seqNo ws → (∀ w ∈ ws, w.toEntry.Ok) →
      ({ e with seqNo := e.seqNo + ws.length } : LSMEngine).logWrite ws =
        { e with
          seqNo := e.seqNo + ws.length, dir := { e.dir with logs := logs }, walBuf := buf } →
      P { e with
        seqNo := e.seqNo + ws.length, memTable := e.memTable.replay ws, walBuf := buf
        dir := { e.dir with logs := logs } } (Versioned.overlay (ws.map WALEntry.toEntry) m))
    (hrotate : ∀ e₁ m₁, P e₁ m₁ → e₁.memTable.entries ≠ [] → P e₁.rotateMemTable.1 m₁) :
    P (e.submit op).1 (applyUpdates (e.acked (.plain (.write op))) m) := by
  cases haccept : e.accept op with
  | mk e₁ r =>
    have hacked : e.acked (.plain (.write op)) = if r.isOk then op.updates else [] := by
      rw [LSMEngine.acked, LSMEngine.submit_isOk haccept hstall]
    rw [hacked]
    unfold LSMEngine.submit
    rw [haccept]
    cases r with
    | error err =>
      obtain ⟨s, hs, rfl⟩ := accept_error haccept
      exact hbump s hs
    | ok ws =>
      obtain ⟨rfl, hcons, hups⟩ := accept_ok haccept
      change P _ (applyUpdates op.updates m)
      cases ws with
      | nil =>
        rw [← hups]
        exact hbump _ (Nat.le_add_right _ _)
      | cons w ws =>
        obtain ⟨logs, buf, heq⟩ :=
          logWrite_eq { e with seqNo := e.seqNo + (w :: ws).length } (w :: ws)
        have hin := hwrite (w :: ws) logs buf hcons (hop.entries_ok hups) heq
        rw [overlay_toEntry, hups] at hin
        simp only [heq, LSMEngine.insertEntries]
        unfold LSMEngine.rotateIfFull
        split_ifs
        · exact hrotate _ _ hin (MemTable.replay_ne_nil (List.cons_ne_nil w ws))
        · exact hin

/-! ### Failed flushes -/

structure FlushFailed (e e' : LSMEngine) : Prop where
  eq : e' = { e with dir := e'.dir, tc := e'.tc, nextFileID := e.nextFileID + 1 }
  logs : e'.dir.logs = e.dir.logs
  files : ∀ id ≤ e.nextFileID, e'.files id = e.files id
  file_ids : ∀ id, e'.files id ≠ none → id ≤ e.nextFileID + 1
  readers : e'.tc.readerOf = e.tc.readerOf
  unique : e'.tc.Unique

theorem TableCache.readerOf_register_unregister {tc : TableCache} {id : ℕ} {t : SSTable}
    (hnew : tc.readerOf id = none) (hroom : tc.entries.length < tc.cap) :
    ((tc.register id t).unregister id).readerOf = tc.readerOf := by
  funext j
  rw [readerOf_unregister, readerOf_register hnew hroom]
  split_ifs with hj
  · rw [hj, hnew]
  · rfl

/-- **A failed flush.** -/
theorem flush_failed {imm : ImmutableMemtable} {o : FlushOutcome} {fault : FlushFault}
    (hne : imm.table.entries ≠ []) (ho : o.fault = some fault)
    (hfiles : ∀ id, e.files id ≠ none → id ≤ e.nextFileID)
    (hreaders : ∀ id, e.tc.readerOf id ≠ none → id ≤ e.nextFileID) (hu : e.tc.Unique)
    (hroom : e.tc.entries.length < e.tc.cap) :
    (e.flush imm o).2 = false ∧ FlushFailed e (e.flush imm o).1 ∧
      ((∀ left, fault = .apply left → left = .nothing) →
        (e.flush imm o).1.dir.edits = e.dir.edits ∧
          (e.flush imm o).1.dir.torn = e.dir.torn) := by
  have hfree : ∀ id, id = e.nextFileID + 1 → e.files id = none ∧ e.tc.readerOf id = none := by
    rintro id rfl
    constructor
    · by_contra hc
      have := hfiles _ hc
      omega
    · by_contra hc
      have := hreaders _ hc
      omega
  have hwritten : ∀ t, FlushFailed e { e with
      nextFileID := e.nextFileID + 1
      dir := e.dir.exec (.writeTable (e.nextFileID + 1) t) } := by
    intro t
    refine ⟨rfl, rfl, fun id hid => ?_, fun id hid => ?_, rfl, hu⟩
    · exact (exec_writeTable_ssts _ _ _ _).trans (if_neg (by omega))
    · change (e.dir.exec (.writeTable (e.nextFileID + 1) t)).ssts.lookup id ≠ none at hid
      rw [exec_writeTable_ssts] at hid
      split_ifs at hid with hc
      · exact hc.le
      · exact (hfiles id hid).trans (Nat.le_succ _)
  unfold LSMEngine.flush
  cases fault with
  | build =>
    simp only [ho, if_true]
    exact ⟨trivial,
      ⟨rfl, rfl, fun _ _ => rfl, fun id hid => (hfiles id hid).trans (Nat.le_succ _), rfl,
      hu⟩, fun _ => ⟨rfl, rfl⟩⟩
  | register =>
    simp only [ho, Option.some.injEq, reduceCtorEq, if_false, if_neg hne, if_true]
    rw [flushBuild_eq]
    exact ⟨trivial, hwritten _, fun _ => ⟨rfl, rfl⟩⟩
  | apply left =>
    obtain ⟨hid, hlevel, -⟩ := flushBuild_fields e imm
    obtain ⟨-, hnew⟩ := hfree _ rfl
    simp only [ho, Option.some.injEq, reduceCtorEq, if_false, if_neg hne, FlushOutcome.addRes]
    rw [LSMEngine.flushAdd, register_flushBuild, apply_failed (addEdit_unchecked hlevel), hid]
    refine ⟨rfl, ⟨rfl, rfl, fun id hle => ?_, fun id hne => ?_, ?_, ?_⟩, fun hleft => ?_⟩
    · refine (exec_removeTable_ssts _ _ _).trans ?_
      rw [if_neg (by omega)]
      exact (exec_writeTable_ssts _ _ _ _).trans (if_neg (by omega))
    · by_contra hgt
      have hgt : id ≠ e.nextFileID + 1 := by omega
      refine hne ((exec_removeTable_ssts _ _ _).trans ?_)
      rw [if_neg hgt]
      refine ((exec_writeTable_ssts _ _ _ _).trans (if_neg hgt)).trans ?_
      by_contra hc
      have := hfiles id hc
      omega
    · exact TableCache.readerOf_register_unregister hnew hroom
    · exact (hu.register _ _).unregister _
    · cases hleft left rfl
      exact ⟨List.append_nil _, Bool.or_false _⟩

theorem flushNext_failed {imm : ImmutableMemtable} {rest : List ImmutableMemtable}
    {o : FlushOutcome} {fault : FlushFault} (hq : e.flushQueue = imm :: rest)
    (himms : e.immutables = imm :: rest) (hlogs : ((imm :: rest).map (fun i => i.logNumber)).Nodup)
    (hne : imm.table.entries ≠ []) (ho : o.fault = some fault)
    (hfiles : ∀ id, e.files id ≠ none → id ≤ e.nextFileID)
    (hreaders : ∀ id, e.tc.readerOf id ≠ none → id ≤ e.nextFileID) (hu : e.tc.Unique)
    (hroom : e.tc.entries.length < e.tc.cap) :
    ∃ e₁, FlushFailed e e₁ ∧ ((∀ left, fault = .apply left → left = .nothing) →
        e₁.dir.edits = e.dir.edits ∧ e₁.dir.torn = e.dir.torn) ∧
      e.flushNext o = { e₁ with bgError := true, immutables := rest, flushQueue := rest } := by
  obtain ⟨hfail, hleft, hedits⟩ := @flush_failed { e with flushQueue := rest } imm o fault hne ho
    hfiles hreaders hu hroom
  obtain ⟨e₁, ok, hrun⟩ : ∃ e₁ ok, ({ e with flushQueue := rest } : LSMEngine).flush imm o =
      (e₁, ok) := ⟨_, _, rfl⟩
  simp only [hrun] at hfail hleft hedits
  subst hfail
  have heq := hleft.eq
  refine ⟨{ e₁ with flushQueue := e.flushQueue }, ⟨by rw [heq], hleft.logs, hleft.files,
    hleft.file_ids, hleft.readers, hleft.unique⟩, hedits, ?_⟩
  have hrest : e₁.immutables.filter (fun i => i.logNumber != imm.logNumber) = rest := by
    rw [heq, show ({ e with flushQueue := rest } : LSMEngine).immutables = _ from himms]
    exact filter_logNumber hlogs
  have hqueue : e₁.flushQueue = rest := by rw [heq]
  unfold LSMEngine.flushNext
  rw [hq]
  simp only [hrun, LSMEngine.removeImmutable, hrest]
  rw [← hqueue]

end LsmTree
