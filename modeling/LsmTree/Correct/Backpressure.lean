import LsmTree.Correct.Eviction
import LsmTree.Engine.Backpressure

/-!
# Where the immutable memtables are

An immutable memtable is in the hands of the flush worker, in the queue, or in the hands of the
writer that holds the lock and is about to send it (`Books`).  The three lists are kept by every
step of every run (`Inv.step`, `inv_run`); the length of the queue follows from them and from the
admission test, which counts all three.
-/

namespace LsmTree.Backpressure

variable {M : ℤ} {e e' : LSMEngine} {a b : List ImmutableMemtable} {imm : ImmutableMemtable}

variable {c : Call}

/-! ### Steps that leave the memtables where they are -/

/-- Nothing happens to the immutable memtables, the queue and the active log. -/
structure Quiet (e e' : LSMEngine) : Prop where
  cfg : e'.cfg = e.cfg
  immutables : e'.immutables = e.immutables
  flushQueue : e'.flushQueue = e.flushQueue
  logNumber : e'.logNumber = e.logNumber
  nextFileID : e.nextFileID ≤ e'.nextFileID

theorem Quiet.refl (e : LSMEngine) : Quiet e e := ⟨rfl, rfl, rfl, rfl, le_rfl⟩

theorem Quiet.trans {e'' : LSMEngine} (h : Quiet e e') (h' : Quiet e' e'') : Quiet e e'' :=
  ⟨h'.cfg.trans h.cfg, h'.immutables.trans h.immutables, h'.flushQueue.trans h.flushQueue,
    h'.logNumber.trans h.logNumber, h.nextFileID.trans h'.nextFileID⟩

theorem quiet_newFileID (e : LSMEngine) : Quiet e e.newFileID.1 :=
  ⟨rfl, rfl, rfl, rfl, Nat.le_succ _⟩

theorem quiet_apply (e : LSMEngine) (edit : VersionEdit) (res : WriteResult) :
    Quiet e (e.apply edit res).1 := ⟨rfl, rfl, rfl, rfl, le_rfl⟩

theorem quiet_accept (e : LSMEngine) (op : WriteOp) : Quiet e (e.accept op).1 := by
  rcases h : e.accept op with ⟨e', r⟩
  cases r with
  | error err =>
    obtain ⟨s, -, rfl⟩ := accept_error h
    exact ⟨rfl, rfl, rfl, rfl, le_rfl⟩
  | ok ws =>
    obtain ⟨rfl, -⟩ := accept_ok h
    exact ⟨rfl, rfl, rfl, rfl, le_rfl⟩

theorem quiet_logWrite (e : LSMEngine) (ws : List WALEntry) : Quiet e (e.logWrite ws) := by
  unfold LSMEngine.logWrite
  split_ifs <;> exact ⟨rfl, rfl, rfl, rfl, le_rfl⟩

theorem quiet_register (e : LSMEngine) (id : ℕ) : Quiet e (e.register id) := by
  unfold LSMEngine.register
  cases e.dir.ssts.lookup id <;> exact ⟨rfl, rfl, rfl, rfl, le_rfl⟩

theorem quiet_flushAdd (e : LSMEngine) (t : SSTableMeta) (res : WriteResult) :
    Quiet e (e.flushAdd t res).1 :=
  (quiet_register e t.fileID).trans (quiet_apply _ _ _)

theorem quiet_flushWrite (e : LSMEngine) (imm : ImmutableMemtable) (o : FlushOutcome) :
    Quiet e (e.flushWrite imm o).1 := by
  have hnew := quiet_newFileID e
  have hbuild : Quiet e (e.flushBuild imm).1 := ⟨rfl, rfl, rfl, rfl, Nat.le_succ _⟩
  unfold LSMEngine.flushWrite
  by_cases hfault : o.fault = some .build
  · rw [if_pos hfault]
    exact ⟨hnew.1, hnew.2, hnew.3, hnew.4, hnew.5⟩
  rw [if_neg hfault]
  by_cases hempty : imm.table.entries = []
  · rw [if_pos hempty]
    exact hnew
  rw [if_neg hempty]
  simp only
  by_cases hreg : o.fault = some .register
  · rw [if_pos hreg]
    exact ⟨hbuild.1, hbuild.2, hbuild.3, hbuild.4, hbuild.5⟩
  rw [if_neg hreg]
  have hadd := hbuild.trans
    (quiet_flushAdd (e.flushBuild imm).1 (e.flushBuild imm).2 o.addRes)
  rcases hres : (e.flushBuild imm).1.flushAdd (e.flushBuild imm).2 o.addRes with ⟨e₁, ok⟩
  rw [hres] at hadd
  cases ok with
  | false => exact ⟨hadd.1, hadd.2, hadd.3, hadd.4, hadd.5⟩
  | true => exact hadd.trans (quiet_apply e₁ (maxSeqNoEdit e₁.seqNo) o.seqRes)

theorem quiet_unlinkLog (e : LSMEngine) (imm : ImmutableMemtable) (unlink : Bool) :
    Quiet e (e.unlinkLog imm unlink) := by
  cases unlink <;> exact ⟨rfl, rfl, rfl, rfl, le_rfl⟩

theorem quiet_shrink (e : LSMEngine) : Quiet e e.shrink := by
  unfold LSMEngine.shrink LSMEngine.recoverFlushOversizedMemtable
  by_cases hsize : e.cfg.memTableSize < e.memTable.approximateSize
  · rw [if_pos hsize]
    by_cases hempty : e.memTable.entries = []
    · rw [if_pos hempty]
      exact quiet_newFileID e
    · rw [if_neg hempty]
      have hbuild : Quiet e (e.flushBuild ⟨e.memTable, e.logNumber⟩).1 :=
        ⟨rfl, rfl, rfl, rfl, Nat.le_succ _⟩
      have hadd := hbuild.trans (quiet_flushAdd (e.flushBuild ⟨e.memTable, e.logNumber⟩).1
        (e.flushBuild ⟨e.memTable, e.logNumber⟩).2 .ok)
      exact ⟨hadd.1, hadd.2, hadd.3, hadd.4, hadd.5⟩
  · rw [if_neg hsize]
    exact Quiet.refl e

theorem quiet_recordLog (e : LSMEngine) (n : ℕ) : Quiet e (e.recordLog n) := by
  unfold LSMEngine.recordLog
  split_ifs
  · exact quiet_apply _ _ _
  · exact Quiet.refl e

/-! ### The books -/

/-- The immutable memtables are those with the flush worker, those in the queue and those about to
be sent, oldest first, and the admission test holds. -/
structure Books (M : ℤ) (e : LSMEngine) (inFlight outbox : List ImmutableMemtable) : Prop where
  cfg : e.cfg.maxImmutableMemTables = M
  immutables : e.immutables = inFlight ++ e.flushQueue ++ outbox
  increasing : (e.immutables.map ImmutableMemtable.logNumber).Pairwise (· < ·)
  below : ∀ n ∈ e.immutables.map ImmutableMemtable.logNumber, n < e.logNumber
  logNumber : e.logNumber ≤ e.nextFileID
  admitted : (e.immutables.length : ℤ) ≤ M

theorem Books.quiet (h : Books M e a b) (hq : Quiet e e') : Books M e' a b where
  cfg := hq.cfg ▸ h.cfg
  immutables := by rw [hq.immutables, hq.flushQueue, h.immutables]
  increasing := hq.immutables ▸ h.increasing
  below := by
    rw [hq.immutables, hq.logNumber]
    exact h.below
  logNumber := hq.logNumber ▸ h.logNumber.trans hq.nextFileID
  admitted := hq.immutables ▸ h.admitted

theorem Books.detach (h : Books M e a []) (hready : e.rotateReady = .ok ()) :
    Books M e.detach.1 a [e.detach.2] := by
  have hslot : (e.immutables.length : ℤ) < M := by
    unfold LSMEngine.rotateReady at hready
    split_ifs at hready with hbg hfull
    rw [h.cfg] at hfull
    exact not_le.1 hfull
  have himms : e.detach.1.immutables = e.immutables ++ [⟨e.memTable, e.logNumber⟩] := rfl
  have hnumbers : e.detach.1.immutables.map ImmutableMemtable.logNumber =
      e.immutables.map ImmutableMemtable.logNumber ++ [e.logNumber] := by
    rw [himms, List.map_append]
    rfl
  have hnew : e.detach.1.logNumber = e.nextFileID + 1 := rfl
  constructor
  · exact h.cfg
  · rw [himms, h.immutables, List.append_nil]
    rfl
  · rw [hnumbers, List.pairwise_append]
    refine ⟨h.increasing, List.pairwise_singleton _ _, fun n hn m hm => ?_⟩
    rw [List.mem_singleton.1 hm]
    exact h.below n hn
  · rw [hnumbers, hnew]
    intro n hn
    have hlog := h.logNumber
    rcases List.mem_append.1 hn with hn | hn
    · have := h.below n hn
      omega
    · rw [List.mem_singleton.1 hn]
      omega
  · exact le_refl (e.nextFileID + 1)
  · rw [himms, List.length_append, List.length_singleton]
    push_cast
    omega

theorem Books.enqueue (h : Books M e a [imm]) : Books M (e.enqueue imm) a [] := by
  refine ⟨h.cfg, ?_, h.increasing, h.below, h.logNumber, h.admitted⟩
  change e.immutables = a ++ (e.flushQueue ++ [imm]) ++ []
  rw [h.immutables, List.append_nil, List.append_assoc]

theorem Books.receive {queue : List ImmutableMemtable} (h : Books M e [] b)
    (hqueue : e.flushQueue = imm :: queue) :
    Books M { e with flushQueue := queue } [imm] b := by
  refine ⟨h.cfg, ?_, h.increasing, h.below, h.logNumber, h.admitted⟩
  change e.immutables = [imm] ++ queue ++ b
  rw [h.immutables, hqueue]
  rfl

theorem Books.remove (h : Books M e [imm] b) : Books M (e.removeImmutable imm) [] b := by
  have hincr := h.increasing
  have hbelow := h.below
  rw [h.immutables, List.append_assoc, List.singleton_append, List.map_cons] at hincr hbelow
  have hrest : (e.removeImmutable imm).immutables = e.flushQueue ++ b := by
    change e.immutables.filter (fun m => m.logNumber != imm.logNumber) = e.flushQueue ++ b
    rw [h.immutables, List.append_assoc, List.singleton_append,
      List.filter_cons_of_neg (by simp), List.filter_eq_self]
    intro m hm
    have hlt := List.rel_of_pairwise_cons hincr (List.mem_map_of_mem hm)
    exact bne_iff_ne.2 hlt.ne'
  have hlen : (e.removeImmutable imm).immutables.length ≤ e.immutables.length :=
    List.length_filter_le _ _
  have hadm := h.admitted
  constructor
  · exact h.cfg
  · exact hrest
  · rw [hrest]
    exact hincr.of_cons
  · rw [hrest]
    exact fun n hn => hbelow n (List.mem_cons_of_mem _ hn)
  · exact h.logNumber
  · omega

/-! ### The lock -/

def WriterPc.Holds : WriterPc → Prop
  | .running _ | .sending _ _ => True
  | .idle | .blocked _ | .waiting _ => False

def WorkerPc.Holds : WorkerPc → Prop
  | .locked _ _ => True
  | .idle | .flushing _ | .blocked _ _ | .unlinking _ _ => False

def WriterPc.outbox : WriterPc → List ImmutableMemtable
  | .sending _ imm => [imm]
  | .idle | .blocked _ | .running _ | .waiting _ => []

/-- The memtable the worker has received and not yet dropped. -/
def WorkerPc.inFlight : WorkerPc → List ImmutableMemtable
  | .flushing imm | .blocked imm _ | .locked imm _ => [imm]
  | .idle | .unlinking _ _ => []

/-- The memtable about to be sent by the holder of the lock. -/
def Sys.outbox (s : Sys) : List ImmutableMemtable :=
  match s.mu with
  | some (.writer i) => (s.writers i).outbox
  | _ => []

/-- The lock is held by the party whose place says so, and the books are in order. -/
structure Inv (M : ℤ) (s : Sys) : Prop where
  writers : ∀ i, (s.writers i).Holds ↔ s.mu = some (.writer i)
  worker : s.worker.Holds ↔ s.mu = some .worker
  books : Books M s.e s.worker.inFlight s.outbox

variable {s : Sys} {i : ℕ} {pc : WriterPc}

theorem outbox_of_writer (h : s.mu = some (.writer i)) : s.outbox = (s.writers i).outbox := by
  unfold Sys.outbox
  rw [h]

theorem outbox_of_free (h : s.mu = none) : s.outbox = [] := by
  unfold Sys.outbox
  rw [h]

theorem Inv.books_of (h : Inv M s) (hpc : s.writers i = pc) (hholds : pc.Holds) :
    s.mu = some (.writer i) ∧ Books M s.e s.worker.inFlight pc.outbox := by
  have hmu := (h.writers i).1 (hpc.symm ▸ hholds)
  have hbooks := h.books
  rw [outbox_of_writer hmu, hpc] at hbooks
  exact ⟨hmu, hbooks⟩

theorem Inv.goto_holder (h : Inv M s) (hmu : s.mu = some (.writer i)) (hholds : pc.Holds)
    (hbooks : Books M e s.worker.inFlight pc.outbox) :
    Inv M (({ s with e := e } : Sys).goto i pc) where
  writers j := by
    change (Function.update s.writers i pc j).Holds ↔ s.mu = _
    rcases eq_or_ne j i with rfl | hne
    · rw [Function.update_self]
      exact ⟨fun _ => hmu, fun _ => hholds⟩
    · rw [Function.update_of_ne hne]
      exact h.writers j
  worker := h.worker
  books := by
    rw [outbox_of_writer (s := ({ s with e := e } : Sys).goto i pc) hmu]
    change Books M e s.worker.inFlight (Function.update s.writers i pc i).outbox
    rw [Function.update_self]
    exact hbooks

theorem Inv.release (h : Inv M s) (hmu : s.mu = some (.writer i)) (hfree : ¬ pc.Holds)
    (hbooks : Books M e s.worker.inFlight []) :
    Inv M (({ s with e := e } : Sys).release i pc) where
  writers j := by
    change (Function.update s.writers i pc j).Holds ↔ none = some (Party.writer j)
    rcases eq_or_ne j i with rfl | hne
    · rw [Function.update_self]
      exact ⟨fun hc => absurd hc hfree, fun hc => by cases hc⟩
    · rw [Function.update_of_ne hne, h.writers j, hmu]
      exact ⟨fun hc => absurd (Party.writer.inj (Option.some.inj hc)).symm hne,
        fun hc => by cases hc⟩
  worker := by
    have hworker := h.worker
    rw [hmu] at hworker
    exact ⟨fun hc => (by cases hworker.1 hc), fun hc => by cases hc⟩
  books := hbooks

theorem Inv.goto_outside (h : Inv M s) (hold : ¬ (s.writers i).Holds) (hnew : ¬ pc.Holds) :
    Inv M (s.goto i pc) := by
  have hother : ∀ j, s.mu = some (.writer j) → j ≠ i := fun j hj hji =>
    hold (hji ▸ (h.writers j).2 hj)
  have hout : (s.goto i pc).outbox = s.outbox := by
    rcases hmu : s.mu with _ | p
    · rw [outbox_of_free hmu, outbox_of_free (s := s.goto i pc) hmu]
    · cases p with
      | writer j =>
        rw [outbox_of_writer hmu, outbox_of_writer (s := s.goto i pc) hmu]
        change (Function.update s.writers i pc j).outbox = _
        rw [Function.update_of_ne (hother j hmu)]
      | worker =>
        unfold Sys.outbox
        rw [hmu, show (s.goto i pc).mu = some .worker from hmu]
  refine ⟨fun j => ?_, h.worker, hout ▸ h.books⟩
  change (Function.update s.writers i pc j).Holds ↔ s.mu = _
  rcases eq_or_ne j i with rfl | hne
  · rw [Function.update_self]
    exact ⟨fun hc => absurd hc hnew, fun hc => absurd rfl (hother j hc)⟩
  · rw [Function.update_of_ne hne]
    exact h.writers j

/-! ### One step -/

theorem Inv.write (h : Inv M s) {op : WriteOp}
    (hpc : s.writers i = .running (.start (.write op))) : Inv M (s.write i op) := by
  obtain ⟨hmu, hbooks⟩ := h.books_of hpc trivial
  have hbooks := hbooks.quiet (quiet_accept s.e op)
  unfold Sys.write
  rcases haccept : s.e.accept op with ⟨e, r⟩
  rw [haccept] at hbooks
  cases r with
  | error err => exact h.release hmu id hbooks
  | ok ws =>
    cases ws with
    | nil => exact h.release hmu id hbooks
    | cons w ws =>
      have hlog := hbooks.quiet (quiet_logWrite e (w :: ws))
      have hinsert : Books M ((e.logWrite (w :: ws)).insertEntries (w :: ws)) s.worker.inFlight
        [] :=
        hlog.quiet ⟨rfl, rfl, rfl, rfl, le_rfl⟩
      simp only
      split_ifs
      · exact h.goto_holder hmu trivial hinsert
      · exact h.release hmu id hinsert

theorem Inv.rotate (h : Inv M s) (hpc : s.writers i = .running (.rotate c)) :
    Inv M (s.rotate i c) := by
  obtain ⟨hmu, hbooks⟩ := h.books_of hpc trivial
  unfold Sys.rotate
  rcases hready : s.e.rotateReady with err | _
  · cases err with
    | writeStall => exact h.release hmu id hbooks
    | notFound | valueTooLarge | background | read => exact h.release hmu id hbooks
  · exact h.goto_holder hmu trivial (hbooks.detach hready)

theorem Inv.send (h : Inv M s) (hpc : s.writers i = .sending c imm) : Inv M (s.send i c imm) := by
  obtain ⟨hmu, hbooks⟩ := h.books_of hpc trivial
  unfold Sys.send
  split_ifs
  · cases c with
    | write op => exact h.release hmu id hbooks.enqueue
    | forceFlush => exact h.goto_holder hmu trivial hbooks.enqueue
  · exact h

theorem Inv.work (h : Inv M s) (i : ℕ) : Inv M (s.work i) := by
  unfold Sys.work
  cases hpc : s.writers i with
  | idle | blocked | waiting => exact h
  | sending c imm => exact h.send hpc
  | running t =>
    obtain ⟨hmu, hbooks⟩ := h.books_of hpc trivial
    cases t with
    | start c =>
      cases c with
      | write op => exact h.write hpc
      | forceFlush =>
        simp only
        split_ifs <;> exact h.goto_holder hmu trivial hbooks
    | rotate c => exact h.rotate hpc
    | drain =>
      simp only
      split_ifs <;> exact h.release hmu id hbooks

theorem Inv.fail (h : Inv M s) (i : ℕ) : Inv M (s.fail i) := by
  unfold Sys.fail
  cases hpc : s.writers i with
  | idle | blocked | waiting | sending => exact h
  | running t =>
    obtain ⟨hmu, hbooks⟩ := h.books_of hpc trivial
    cases t with
    | start c =>
      cases c with
      | write op => exact h.release hmu id (hbooks.quiet (quiet_accept s.e op))
      | forceFlush => exact h
    | rotate c =>
      rcases hready : s.e.rotateReady with err | _
      · exact h.release hmu id hbooks
      · exact h.release hmu id (hbooks.quiet (quiet_newFileID s.e))
    | drain => exact h

theorem Inv.lock (h : Inv M s) {t : Todo} (hmu : s.mu = none) :
    Inv M (s.acquire i t) where
  writers j := by
    change (Function.update s.writers i (.running t) j).Holds ↔
      some (Party.writer i) = some (.writer j)
    rcases eq_or_ne j i with rfl | hne
    · rw [Function.update_self]
      exact ⟨fun _ => rfl, fun _ => trivial⟩
    · rw [Function.update_of_ne hne, h.writers j, hmu]
      exact ⟨fun hc => (by cases hc),
        fun hc => absurd (Party.writer.inj (Option.some.inj hc)).symm hne⟩
  worker := by
    have hworker := h.worker
    rw [hmu] at hworker
    exact ⟨fun hc => (by cases hworker.1 hc), fun hc => by cases hc⟩
  books := by
    have hbooks := h.books
    rw [outbox_of_free hmu] at hbooks
    rw [outbox_of_writer (s := s.acquire i t) rfl, acquire_writers]
    exact hbooks

theorem Inv.worker_outside (h : Inv M s) {w w' : WorkerPc} (hw : s.worker = w) (hold : ¬ w.Holds)
    (hnew : ¬ w'.Holds) (hbooks : Books M e w'.inFlight s.outbox) :
    Inv M { s with e := e, worker := w' } :=
  ⟨h.writers, ⟨fun hc => absurd hc hnew, fun hc => absurd (hw ▸ h.worker.2 hc) hold⟩, hbooks⟩

/-- **One step.** -/
theorem Inv.step (h : Inv M s) (act : Act) : Inv M (s.step act) := by
  cases act with
  | call i c =>
    simp only [Sys.step]
    cases hpc : s.writers i with
    | idle => exact h.goto_outside (by rw [hpc]; exact id) id
    | blocked | running | waiting | sending => exact h
  | lock i =>
    simp only [Sys.step]
    cases hpc : s.writers i with
    | idle | running | waiting | sending => exact h
    | blocked t =>
      cases hmu : s.mu with
      | none => exact h.lock hmu
      | some p => exact h
  | work i => exact h.work i
  | fail i => exact h.fail i
  | wake i =>
    simp only [Sys.step]
    cases hpc : s.writers i with
    | waiting t => exact h.goto_outside (by rw [hpc]; exact id) id
    | idle | blocked | running | sending => exact h
  | receive =>
    simp only [Sys.step]
    have hbooks := h.books
    cases hw : s.worker with
    | idle =>
      rw [hw] at hbooks
      cases hqueue : s.e.flushQueue with
      | nil => exact h
      | cons imm queue => exact h.worker_outside hw id id (hbooks.receive hqueue)
    | flushing | blocked | locked | unlinking => exact h
  | flush o =>
    simp only [Sys.step]
    have hbooks := h.books
    cases hw : s.worker with
    | flushing imm =>
      rw [hw] at hbooks
      exact h.worker_outside hw id id (hbooks.quiet (quiet_flushWrite s.e imm o))
    | idle | blocked | locked | unlinking => exact h
  | lockWorker =>
    simp only [Sys.step]
    have hbooks := h.books
    cases hw : s.worker with
    | blocked imm unlink =>
      cases hmu : s.mu with
      | none =>
        rw [hw, outbox_of_free hmu] at hbooks
        refine ⟨fun i => ?_, ⟨fun _ => rfl, fun _ => trivial⟩, hbooks⟩
        have hwriter := h.writers i
        rw [hmu] at hwriter
        exact ⟨fun hc => (by cases hwriter.1 hc), fun hc => by cases hc⟩
      | some p => exact h
    | idle | flushing | locked | unlinking => exact h
  | remove =>
    simp only [Sys.step]
    have hbooks := h.books
    cases hw : s.worker with
    | locked imm unlink =>
      have hmu : s.mu = some .worker := h.worker.1 (hw.symm ▸ trivial)
      have hout : s.outbox = [] := by
        unfold Sys.outbox
        rw [hmu]
      rw [hw, hout] at hbooks
      refine ⟨fun i => ?_, ⟨fun hc => (by cases hc), fun hc => by cases hc⟩, hbooks.remove⟩
      have hwriter := h.writers i
      rw [hmu] at hwriter
      exact ⟨fun hc => (by cases hwriter.1 hc), fun hc => by cases hc⟩
    | idle | flushing | blocked | unlinking => exact h
  | unlink =>
    simp only [Sys.step]
    have hbooks := h.books
    cases hw : s.worker with
    | unlinking imm unlink =>
      rw [hw] at hbooks
      exact h.worker_outside hw id id (hbooks.quiet (quiet_unlinkLog s.e imm unlink))
    | idle | flushing | blocked | locked => exact h

/-! ### Whole runs -/

theorem books_open {cfg : Config} {d : DataDir} (hM : 1 ≤ cfg.maxImmutableMemTables)
    (hopen : openEngine cfg d = .ok e) : Books cfg.maxImmutableMemTables e [] [] := by
  obtain ⟨tc, -, -, rfl⟩ := openEngine_eq hopen
  have hfirst : Books cfg.maxImmutableMemTables (recoveredEngine cfg.withDefaults d tc) [] [] := by
    refine ⟨?_, rfl, List.Pairwise.nil, fun n hn => (by cases hn), ?_, ?_⟩
    · change (if cfg.maxImmutableMemTables = 0 then 2 else cfg.maxImmutableMemTables) = _
      rw [if_neg (by omega)]
    · change activeLogNumber d ≤
        if listWALFiles d = [] then activeLogNumber d else activeLogNumber d + 1
      split_ifs <;> omega
    · change ((0 : ℕ) : ℤ) ≤ _
      omega
  exact ((hfirst.quiet (quiet_shrink _)).quiet (quiet_recordLog _ _)).quiet
    ⟨rfl, rfl, rfl, rfl, le_rfl⟩

/-- **A whole run.** -/
theorem inv_run (hbooks : Books M e [] []) (acts : List Act) :
    Inv M (Sys.run ⟨e, none, fun _ => .idle, .idle⟩ acts) := by
  have hstart : Inv M ⟨e, none, fun _ => .idle, .idle⟩ :=
    ⟨fun i => ⟨fun hc => (by cases hc), fun hc => by cases hc⟩,
      ⟨fun hc => (by cases hc), fun hc => by cases hc⟩, hbooks⟩
  have hrun : ∀ (acts : List Act) (s : Sys), Inv M s → Inv M (s.run acts) := by
    intro acts
    induction acts with
    | nil => exact fun s h => h
    | cons act acts ih => exact fun s h => ih (s.step act) (h.step act)
  exact hrun acts _ hstart

theorem Inv.le_of_deadlocked (h : Inv M s) (hdead : s.Deadlocked) : 18 ≤ M := by
  obtain ⟨i, c, imm, hmu, hpc, hfull, imm', unlink, hworker⟩ := hdead
  obtain ⟨-, hbooks⟩ := h.books_of hpc trivial
  have hlen : s.e.immutables.length = 1 + s.e.flushQueue.length + 1 := by
    rw [hbooks.immutables, hworker, List.length_append, List.length_append]
    rfl
  have hadm := hbooks.admitted
  unfold flushQueueCap at hfull
  omega

end LsmTree.Backpressure
