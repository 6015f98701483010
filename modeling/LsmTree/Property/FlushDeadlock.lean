import LsmTree.Correct.Backpressure

/-!
# The flush queue can deadlock with the flush worker

A writer that finds the queue full blocks at the send with the lock held; the flush worker, which
would make room, needs the lock to drop the memtable it has written.  Sixteen queued memtables, the
one with the worker and the one being sent are eighteen, so the admission test rules the deadlock
out exactly when `MaxImmutableMemTables` is at most 17 (`deadlock_free_iff`).
-/

namespace LsmTree.Backpressure

variable {M : ℤ} {s : Sys} {w : WorkerPc} {k n : ℕ}

variable {e : LSMEngine} {i : ℕ} {c : Call}

/-! ### Filling the queue -/

def tinyConfig (M : ℤ) : Config := { memTableSize := 1, maxImmutableMemTables := M }

def fillOp : WriteOp := .put [1] [1]

/-- The lock is free, the first writer idle and the memtable empty; the queue holds `k` memtables,
and `n` are immutable. -/
structure Filled (M : ℤ) (w : WorkerPc) (k n : ℕ) (s : Sys) : Prop where
  mu : s.mu = none
  writer : s.writers 0 = .idle
  worker : s.worker = w
  cfg : s.e.cfg = (tinyConfig M).withDefaults
  bgError : s.e.bgError = false
  memTable : s.e.memTable = newMemTable 1
  queued : s.e.flushQueue.length = k
  immutables : s.e.immutables.length = n

/-- The first writer stands at the send with the lock held. -/
structure AtSend (M : ℤ) (w : WorkerPc) (k n : ℕ) (s : Sys) : Prop where
  mu : s.mu = some (.writer 0)
  writer : ∃ imm, s.writers 0 = .sending (.write fillOp) imm
  worker : s.worker = w
  cfg : s.e.cfg = (tinyConfig M).withDefaults
  bgError : s.e.bgError = false
  memTable : s.e.memTable = newMemTable 1
  queued : s.e.flushQueue.length = k
  immutables : s.e.immutables.length = n

def filledEngine (e : LSMEngine) : LSMEngine :=
  let e := { e with seqNo := e.seqNo + 1 }
  let ws : List WALEntry := [⟨.set, [1], [1], e.seqNo⟩]
  (e.logWrite ws).insertEntries ws

def fillActs : List Act := [.call 0 (.write fillOp), .lock 0, .work 0, .work 0]

theorem accept_fillOp (hcfg : e.cfg = (tinyConfig M).withDefaults) (hbg : e.bgError = false) :
    e.accept fillOp = ({ e with seqNo := e.seqNo + 1 }, .ok [⟨.set, [1], [1], e.seqNo + 1⟩]) := by
  have hfits : ¬ e.cfg.maxValueSize < (([1] : Bytes).length : ℤ) := by
    rw [hcfg]
    change ¬ (1024 * 1024 : ℤ) < 1
    decide
  change (if e.cfg.maxValueSize < (([1] : Bytes).length : ℤ) then _ else
    if e.bgError = true then _ else _) = _
  rw [if_neg hfits, hbg]
  rfl

theorem filledEngine_fields (hmem : e.memTable = newMemTable 1) :
    Quiet e (filledEngine e) ∧ (filledEngine e).bgError = e.bgError ∧
      (filledEngine e).memTable.isFull = true := by
  unfold filledEngine LSMEngine.logWrite LSMEngine.insertEntries
  simp only
  split_ifs
  all_goals
    refine ⟨⟨rfl, rfl, rfl, rfl, le_rfl⟩, rfl, ?_⟩
    change (e.memTable.replay [⟨.set, [1], [1], e.seqNo + 1⟩]).isFull = true
    rw [hmem]
    rfl

theorem step_call (h : s.writers i = .idle) :
    s.step (.call i c) = s.goto i (.blocked (.start c)) := by
  simp only [Sys.step, h]

theorem step_lock {t : Todo} (h : s.writers i = .blocked t) (hmu : s.mu = none) :
    s.step (.lock i) = s.acquire i t := by
  simp only [Sys.step, h, hmu]

theorem step_write {op : WriteOp} (h : s.writers i = .running (.start (.write op))) :
    s.step (.work i) = s.write i op := by
  simp only [Sys.step, Sys.work, h]

theorem step_rotate (h : s.writers i = .running (.rotate c)) (hready : s.e.rotateReady = .ok ()) :
    s.step (.work i) = ({ s with e := s.e.detach.1 } : Sys).goto i (.sending c s.e.detach.2) := by
  simp only [Sys.step, Sys.work, h, Sys.rotate, hready]

theorem Filled.fill (h : Filled M w k n s) (hM : 1 ≤ M) (hn : (n : ℤ) < M) :
    AtSend M w k (n + 1) (s.run fillActs) := by
  obtain ⟨hquiet, hbg, hfull⟩ := filledEngine_fields h.memTable
  have hbg := hbg.trans h.bgError
  have hcfg := hquiet.cfg.trans h.cfg
  have himms : (filledEngine s.e).immutables.length = n :=
    (congrArg List.length hquiet.immutables).trans h.immutables
  have hlimit : (filledEngine s.e).cfg.maxImmutableMemTables = M := by
    rw [hcfg]
    change (if M = 0 then 2 else M) = M
    rw [if_neg (by omega)]
  have hready : (filledEngine s.e).rotateReady = .ok () := by
    unfold LSMEngine.rotateReady
    rw [hbg, hlimit, himms, if_neg (by decide), if_neg (by omega)]
  -- the call, the lock, the write and the rotation, one after the other
  set s₁ := s.goto 0 (.blocked (.start (.write fillOp))) with hs₁
  set s₂ := s₁.acquire 0 (.start (.write fillOp)) with hs₂
  set s₃ := ({ s₂ with e := filledEngine s.e } : Sys).goto 0 (.running (.rotate (.write fillOp)))
    with hs₃
  have h1 : s.step (.call 0 (.write fillOp)) = s₁ := step_call h.writer
  have h2 : s₁.step (.lock 0) = s₂ := step_lock (goto_writers _ _ _) h.mu
  have h3 : s₂.step (.work 0) = s₃ := by
    have haccept : s₂.e.accept fillOp = ({ s.e with seqNo := s.e.seqNo + 1 },
        .ok [⟨.set, [1], [1], s.e.seqNo + 1⟩]) := accept_fillOp h.cfg h.bgError
    rw [step_write (acquire_writers _ _ _), Sys.write, haccept]
    exact if_pos hfull
  have h4 : s₃.step (.work 0) = ({ s₃ with e := (filledEngine s.e).detach.1 } : Sys).goto 0
      (.sending (.write fillOp) (filledEngine s.e).detach.2) :=
    step_rotate (goto_writers _ _ _) hready
  have hrun : s.run fillActs = ({ s₃ with e := (filledEngine s.e).detach.1 } : Sys).goto 0
      (.sending (.write fillOp) (filledEngine s.e).detach.2) := by
    change (((s.step (.call 0 (.write fillOp))).step (.lock 0)).step (.work 0)).step (.work 0) = _
    rw [h1, h2, h3, h4]
  rw [hrun]
  refine ⟨rfl, ⟨_, goto_writers _ _ _⟩, h.worker, hcfg, hbg, ?_, ?_, ?_⟩
  · change newMemTable (filledEngine s.e).cfg.memTableSize = newMemTable 1
    rw [hcfg]
    rfl
  · exact (congrArg List.length hquiet.flushQueue).trans h.queued
  · change ((filledEngine s.e).immutables ++ [_]).length = n + 1
    rw [List.length_append, himms]
    rfl

theorem AtSend.send (h : AtSend M w k n s) (hk : k < flushQueueCap) :
    Filled M w (k + 1) n (s.run [.work 0]) := by
  obtain ⟨imm, hpc⟩ := h.writer
  have hroom : s.e.flushQueue.length < flushQueueCap := h.queued.symm ▸ hk
  have hrun : s.run [.work 0] = ({ s with e := s.e.enqueue imm } : Sys).release 0 .idle := by
    change s.step (.work 0) = _
    simp only [Sys.step, Sys.work, hpc, Sys.send, if_pos hroom]
  rw [hrun]
  refine ⟨rfl, release_writers _ _ _, h.worker, h.cfg, h.bgError, h.memTable, ?_, h.immutables⟩
  change (s.e.flushQueue ++ [imm]).length = k + 1
  rw [List.length_append, h.queued]
  rfl

theorem run_append (s : Sys) (acts acts' : List Act) :
    s.run (acts ++ acts') = (s.run acts).run acts' := List.foldl_append

/-- **One more in the queue.** -/
theorem Filled.queue (h : Filled M w k n s) (hM : 1 ≤ M) (hn : (n : ℤ) < M)
    (hk : k < flushQueueCap) : Filled M w (k + 1) (n + 1) (s.run (fillActs ++ [.work 0])) := by
  rw [run_append]
  exact (h.fill hM hn).send hk

theorem flushWrite_fields (e : LSMEngine) (imm : ImmutableMemtable) :
    (e.flushWrite imm {}).1.bgError = e.bgError ∧
      (e.flushWrite imm {}).1.memTable = e.memTable := by
  unfold LSMEngine.flushWrite
  rw [if_neg (fun hc => by cases hc)]
  by_cases hempty : imm.table.entries = []
  · rw [if_pos hempty]
    exact ⟨rfl, rfl⟩
  · rw [if_neg hempty]
    simp only
    obtain ⟨f, hadd⟩ := flushAdd_build e imm
    rw [if_neg (fun hc => by cases hc), show FlushOutcome.addRes {} = .ok from rfl, hadd]
    exact ⟨rfl, rfl⟩

theorem Filled.workerBlocked (h : Filled M .idle 1 n s) :
    ∃ imm unlink, Filled M (.blocked imm unlink) 0 n (s.run [.receive, .flush {}]) := by
  obtain ⟨imm, hqueue⟩ := List.length_eq_one_iff.1 h.queued
  set e₁ : LSMEngine := { s.e with flushQueue := [] } with he₁
  have hquiet := quiet_flushWrite e₁ imm {}
  obtain ⟨hbg, hmem⟩ := flushWrite_fields e₁ imm
  have hrun : s.run [.receive, .flush {}] =
      { s with e := (e₁.flushWrite imm {}).1, worker :=
        .blocked imm (e₁.flushWrite imm {}).2 } := by
    change (s.step .receive).step (.flush {}) = _
    simp only [Sys.step, h.worker, hqueue]
    rfl
  refine ⟨imm, (e₁.flushWrite imm {}).2, ?_⟩
  rw [hrun]
  exact ⟨h.mu, h.writer, rfl, hquiet.cfg.trans h.cfg, hbg.trans h.bgError, hmem.trans h.memTable,
    congrArg List.length hquiet.flushQueue,
    (congrArg List.length hquiet.immutables).trans h.immutables⟩

theorem Filled.fillUp (h : Filled M w 0 1 s) (hM : 18 ≤ M) (k : ℕ) (hk : k ≤ flushQueueCap) :
    ∃ acts, Filled M w k (k + 1) (s.run acts) := by
  induction k with
  | zero => exact ⟨[], h⟩
  | succ k ih =>
    have hcap : k < flushQueueCap := hk
    obtain ⟨acts, hacts⟩ := ih hcap.le
    refine ⟨acts ++ (fillActs ++ [.work 0]), ?_⟩
    rw [run_append]
    unfold flushQueueCap at hcap
    exact hacts.queue (by omega) (by push_cast; omega) hk

/-- **The deadlock.** With eighteen memtables allowed, sixteen of them fill the queue, one is with
the worker, which waits for the lock, and the last is being sent with the lock held. -/
theorem deadlock_reached (hM : 18 ≤ M) (hopen : openEngine (tinyConfig M) {} = .ok e) :
    ∃ acts, (Sys.run ⟨e, none, fun _ => .idle, .idle⟩ acts).Deadlocked := by
  have hstart : Filled M .idle 0 0 ⟨e, none, fun _ => .idle, .idle⟩ := by
    cases hopen
    exact ⟨rfl, rfl, rfl, rfl, rfl, rfl, rfl, rfl⟩
  have hfirst := hstart.queue (by omega) (by push_cast; omega) (by decide)
  obtain ⟨imm, unlink, hworker⟩ := hfirst.workerBlocked
  obtain ⟨acts, hfull⟩ := hworker.fillUp hM flushQueueCap le_rfl
  have hsend := hfull.fill (by omega) (by unfold flushQueueCap; push_cast; omega)
  rw [← run_append, ← run_append, ← run_append] at hsend
  obtain ⟨imm', hpc⟩ := hsend.writer
  exact ⟨_, 0, _, imm', hsend.mu, hpc, hsend.queued.ge, imm, unlink, hsend.worker⟩

/-! ### The limit -/

/-- **No deadlock exactly up to seventeen.** In no run of the writers and the flush worker, from any
directory and under any configuration with the given limit, is there a deadlock, if and only if the
limit is at most 17. -/
theorem deadlock_free_iff (M : ℤ) (hM : 1 ≤ M) :
    (∀ (cfg : Config) (d : DataDir) (e : LSMEngine), cfg.maxImmutableMemTables = M →
      openEngine cfg d = .ok e → ∀ acts : List Act,
        ¬ (Sys.run ⟨e, none, fun _ => .idle, .idle⟩ acts).Deadlocked) ↔ M ≤ 17 := by
  constructor
  · intro hfree
    by_contra hlarge
    have hopen : ∃ e, openEngine (tinyConfig M) {} = .ok e := ⟨_, rfl⟩
    obtain ⟨e, hopen⟩ := hopen
    obtain ⟨acts, hdead⟩ := deadlock_reached (by omega) hopen
    exact hfree (tinyConfig M) {} e rfl hopen acts hdead
  · rintro hsmall cfg d e rfl hopen acts hdead
    have hle := (inv_run (books_open hM hopen) acts).le_of_deadlocked hdead
    omega

theorem deadlock_free_two :
    (1 : ℤ) ≤ 2 ∧ ∀ (cfg : Config) (d : DataDir) (e : LSMEngine), cfg.maxImmutableMemTables = 2 →
      openEngine cfg d = .ok e → ∀ acts : List Act,
        ¬ (Sys.run ⟨e, none, fun _ => .idle, .idle⟩ acts).Deadlocked :=
  ⟨by decide, (deadlock_free_iff 2 (by decide)).2 (by decide)⟩

/-- With eighteen there is a run into the deadlock. -/
theorem eighteen_deadlock :
    ∃ (cfg : Config) (e : LSMEngine) (acts : List Act), cfg.maxImmutableMemTables = 18 ∧
      openEngine cfg {} = .ok e ∧ (Sys.run ⟨e, none, fun _ => .idle, .idle⟩ acts).Deadlocked := by
  have hopen : ∃ e, openEngine (tinyConfig 18) {} = .ok e := ⟨_, rfl⟩
  obtain ⟨e, hopen⟩ := hopen
  obtain ⟨acts, hdead⟩ := deadlock_reached le_rfl hopen
  exact ⟨tinyConfig 18, e, acts, rfl, hopen, hdead⟩

end LsmTree.Backpressure
