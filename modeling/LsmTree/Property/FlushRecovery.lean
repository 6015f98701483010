import LsmTree.Correct.Worker

/-!
# Restarts after failed flushes

A failed flush leaves its log on disk, and so does a flush that cannot remove it.  `Open` replays
all logs into one memtable, which is read before any table: an old log hides what a newer memtable
has already brought into the tables (`oldLog_wins`).  If no log that was left behind has a key in
common with a memtable that is flushed after it, and no failed flush leaves its record or a part of
it in the manifest, a restart finds the last acknowledged write of every key
(`newest_write_recovered`).
-/

namespace LsmTree

open Versioned

variable {closed : Option ℕ}

/-- The logs on disk that belong to no memtable of the engine. -/
def LSMEngine.leftoverLogs (e : LSMEngine) : List ℕ :=
  e.dir.logs.keys.filter
    (fun id => decide (id ≠ e.logNumber) && e.immutables.all (fun i => i.logNumber != id))

/-- No log that was left behind has a key in common with the log of the memtable. -/
def LSMEngine.ApartFromOld (e : LSMEngine) (imm : ImmutableMemtable) : Prop :=
  ∀ id ∈ e.leftoverLogs, ∀ w ∈ recoverWAL (e.dir.log id),
    ∀ w' ∈ recoverWAL (e.dir.log imm.logNumber), w.key ≠ w'.key

instance (e : LSMEngine) (imm : ImmutableMemtable) : Decidable (e.ApartFromOld imm) :=
  inferInstanceAs (Decidable (∀ id ∈ e.leftoverLogs, ∀ w ∈ recoverWAL (e.dir.log id),
    ∀ w' ∈ recoverWAL (e.dir.log imm.logNumber), w.key ≠ w'.key))

/-- The engine's own memtables, and older ones of which at least the logs are there, mean the
map. -/
structure Recoverable (e : LSMEngine) (m : Bytes → Option Bytes) : Prop where
  inv : ∃ pre, Inv e e.memTable (pre ++ e.immutables) m
  queue : e.flushQueue = e.immutables
  nonempty : ∀ i ∈ e.immutables, i.table.entries ≠ []

variable {e e' : LSMEngine} {mem : MemTable} {imms pre rest : List ImmutableMemtable}
  {imm : ImmutableMemtable} {m : Bytes → Option Bytes}

theorem Good.recoverable (h : Good e m) : Recoverable e m := ⟨⟨[], h.inv⟩, h.queue, h.nonempty⟩

theorem mem_logSet {d : DataDir} {id : ℕ} {x : Entry} :
    x ∈ logSet d id ↔ ∃ w ∈ recoverWAL (d.log id), w.toEntry = x := Iff.rfl

theorem LSMEngine.ApartFromOld.apart (h : e.ApartFromOld imm)
    (hinv : Inv e mem (pre ++ e.immutables) m) (p : ImmutableMemtable) (hp : p ∈ pre) :
    Apart (logSet e.dir p.logNumber) (logSet e.dir imm.logNumber) := by
  intro x hx y hy
  obtain ⟨w, hw, rfl⟩ := mem_logSet.1 hx
  obtain ⟨w', hw', rfl⟩ := mem_logSet.1 hy
  rw [WALEntry.toEntry_userKey, WALEntry.toEntry_userKey]
  refine h p.logNumber (List.mem_filter.2 ⟨?_, ?_⟩) w hw w' hw'
  · by_contra hc
    have hnone : e.dir.logs.lookup p.logNumber = none := AList.lookup_eq_none.2 (fun hm => hc hm)
    unfold DataDir.log at hw
    rw [hnone] at hw
    cases hw
  · have hnodup := hinv.owned.nodup
    unfold memOwners at hnodup
    rw [List.map_append, List.map_append, List.map_append, List.append_assoc,
      List.nodup_append] at hnodup
    have hne : ∀ n ∈ (e.immutables.map (fun i => i.logNumber)) ++ [e.logNumber],
        p.logNumber ≠ n := by
      intro n hn
      refine hnodup.2.2 _ ?_ n ?_
      · exact List.mem_map.2 ⟨_, List.mem_map.2 ⟨p, hp, rfl⟩, rfl⟩
      · rw [List.map_map]
        exact hn
    rw [Bool.and_eq_true, List.all_eq_true]
    refine ⟨by simpa using hne e.logNumber (by simp), fun i hi => ?_⟩
    have := hne i.logNumber (List.mem_append_left _ (List.mem_map_of_mem hi))
    simpa using this.symm

/-! ### Steps -/

theorem Recoverable.readOnly (h : Recoverable e m) (hr : ReadOnly e e') : Recoverable e' m := by
  obtain ⟨pre, hinv⟩ := h.inv
  have hread := hinv.readOnly hr
  rw [hr.eq] at hread ⊢
  exact ⟨⟨pre, hread⟩, h.queue, h.nonempty⟩

theorem Recoverable.rotate (h : Recoverable e m) (hne : e.memTable.entries ≠ []) :
    Recoverable e.rotateMemTable.1 m := by
  obtain ⟨pre, hinv⟩ := h.inv
  obtain ⟨hqueue, hall⟩ := rotateMemTable_queue h.queue h.nonempty hne
  exact ⟨⟨pre, hinv.rotateMemTable_over⟩, hqueue, hall⟩

theorem Recoverable.submit (h : Recoverable e m) {op : WriteOp} (hop : op.Nonempty)
    (hstall : e.stalls op = false) :
    Recoverable (e.submit op).1 (applyUpdates (e.acked (.plain (.write op))) m) := by
  obtain ⟨pre, hinv⟩ := h.inv
  refine submit_preserves hop hstall (fun s hs => ?_) (fun ws logs buf hcons hok heq => ?_)
    (fun e₁ m₁ h₁ hne => h₁.rotate hne)
  · exact ⟨⟨pre, hinv.bumpSeq hs⟩, h.queue, h.nonempty⟩
  · have hlog := hinv.logWrite hcons hok
    rw [heq] at hlog
    exact ⟨⟨pre, hlog.frame rfl rfl rfl rfl rfl rfl rfl rfl⟩, h.queue, h.nonempty⟩

/-- **A failed flush** that leaves no record in the manifest file changes nothing on disk, but for a
table file that is not listed. -/
theorem Inv.flush_failed (h : Inv e mem imms m) (hleft : FlushFailed e e')
    (hedits : e'.dir.edits = e.dir.edits) (htorn : e'.dir.torn = e.dir.torn) :
    Inv e' mem imms m := by
  have hfiles : ∀ i, ∀ x ∈ e.current.levels i, e'.files x.fileID = e.files x.fileID :=
    fun i x hx => hleft.files _ (h.books.listed_le h.layered.tables hx)
  have hlogs : ∀ id, logSet e'.dir id = logSet e.dir id := fun id => by
    unfold logSet DataDir.log
    rw [hleft.logs]
  have hwal : walSet e'.dir = walSet e.dir := by
    unfold walSet
    simp only [hlogs]
  have hversion : e'.dir.version = e.dir.version := by
    unfold DataDir.version
    rw [hedits]
  have hcfg : e'.cfg = e.cfg := by rw [hleft.eq]
  have hcur : e'.current = e.current := by rw [hleft.eq]
  have hlog : e'.logNumber = e.logNumber := by rw [hleft.eq]
  have hseq : e'.seqNo = e.seqNo := by rw [hleft.eq]
  have hbuf : e'.walBuf = e.walBuf := by rw [hleft.eq]
  have hnext : e'.nextFileID = e.nextFileID + 1 := by rw [hleft.eq]
  refine ⟨?_, ?_, ?_, ⟨?_, ?_, ?_, hleft.unique, ?_⟩, ?_, ?_, ?_, ?_⟩
  · rw [hcfg, hcur]
    exact h.layered.congr rfl hfiles
  · rw [hcfg]
    refine h.disk.congr hwal (by rw [hversion]) (by rw [hversion]) (fun i x hx => hfiles i x ?_)
      htorn
    rw [h.books.version]
    exact hx
  · rw [hlog]
    exact h.owned.congr hlogs
  · rw [hcur, hversion]
    exact h.books.version
  · rw [hnext]
    exact hleft.file_ids
  · rw [hnext, hleft.readers]
    exact fun id hid => (h.books.reader_ids id hid).trans (Nat.le_succ _)
  · rw [hcur, hleft.readers]
    exact fun i x hx => (h.books.readers i x hx).trans (hfiles i x hx).symm
  · rw [hlog, hnext]
    exact fun o ho => (h.owner_ids o ho).trans (Nat.le_succ _)
  · rw [hwal, hcur, tableVersions_congr rfl hfiles, hseq]
    exact h.seq_le
  · rw [hcfg]
    exact h.sync
  · rw [hbuf]
    exact h.walBuf

/-- There is a slot for the table of the oldest queued memtable.  If its flush succeeds, the
sequence number is recorded and no log that was left behind has a key of the memtable; if it fails,
neither the record of the table nor a part of it stays in the manifest file. -/
def LSMEngine.KeepsLog (e : LSMEngine) (o : FlushOutcome) : List ImmutableMemtable → Prop
  | [] => True
  | imm :: _ => e.tc.entries.length < e.tc.cap ∧
      (o.fault = none → o.seqRes = .ok ∧ e.ApartFromOld imm) ∧
      o.fault ≠ some (.apply .whole) ∧ o.fault ≠ some (.apply .part)

instance (e : LSMEngine) (o : FlushOutcome) : (queue : List ImmutableMemtable) →
    Decidable (e.KeepsLog o queue)
  | [] => isTrue trivial
  | _ :: _ => inferInstanceAs (Decidable (_ ∧ _))

/-- **A round of the flush worker.** A log that stays behind belongs to an older memtable from then
on: to one that was dropped, or to an empty one. -/
theorem Recoverable.flushNext (h : Recoverable e m) {o : FlushOutcome}
    (hok : e.KeepsLog o e.flushQueue) :
    Recoverable (e.flushNext o) m ∧ (e.flushNext o).cfg = e.cfg := by
  cases hq : e.flushQueue with
  | nil =>
    unfold LSMEngine.flushNext
    rw [hq]
    exact ⟨h, rfl⟩
  | cons imm rest =>
    rw [hq] at hok
    obtain ⟨hroom, hsuccess, hwhole, hpart⟩ := hok
    obtain ⟨pre, hinv⟩ := h.inv
    have himms : e.immutables = imm :: rest := h.queue.symm.trans hq
    have hne : imm.table.entries ≠ [] := h.nonempty imm (by rw [himms]; exact List.mem_cons_self)
    have hrest : ∀ i ∈ rest, i.table.entries ≠ [] := fun i hi =>
      h.nonempty i (by rw [himms]; exact List.mem_cons_of_mem imm hi)
    have hlogs : ((imm :: rest).map (fun i => i.logNumber)).Nodup := by
      have hnodup := hinv.owned.nodup_imms
      rw [List.map_append, himms] at hnodup
      exact (List.nodup_append.1 hnodup).2.1
    cases hfault : o.fault with
    | none =>
      obtain ⟨hseq, hapart⟩ := hsuccess hfault
      have hpre := hapart.apart hinv
      rw [himms] at hinv
      have hinv' : Inv { e with flushQueue := rest } e.memTable (pre ++ imm :: rest) m :=
        hinv.frame rfl rfl rfl rfl rfl rfl rfl rfl
      have hb := (hinv'.flushBuild
        (fun x hx => mem_union_memStack.2 (Or.inr ⟨imm, by simp, hx⟩)) hne).2
      obtain ⟨f0, f1, f2, f3, -, f5, -⟩ := flushNext_ok hq himms hlogs hne hb hfault
      have hflush := hinv'.flush hne hroom hpre o.logRemoved
      have ho : ({ logRemoved := o.logRemoved } : FlushOutcome) = o := by
        rw [← hfault, ← hseq]
      rw [ho, ← f0] at hflush
      refine ⟨⟨?_, f3.trans f2.symm, by rw [f2]; exact hrest⟩, f5⟩
      rw [f1, f2]
      split_ifs at hflush
      · exact ⟨pre, hflush⟩
      · exact ⟨pre ++ [⟨newMemTable 0, imm.logNumber⟩], by simpa using hflush⟩
    | some fault =>
      obtain ⟨e₁, hleft, hedits, heq⟩ := flushNext_failed hq himms hlogs hne hfault
        hinv.books.file_ids hinv.books.reader_ids hinv.books.unique hroom
      have hnothing : ∀ left, fault = .apply left → left = .nothing := by
        rintro left rfl
        cases left with
        | nothing => rfl
        | part => exact absurd hfault hpart
        | whole => exact absurd hfault hwhole
      obtain ⟨hedits, htorn⟩ := hedits hnothing
      have hkept := hinv.flush_failed hleft hedits htorn
      have hmem : e₁.memTable = e.memTable := by rw [hleft.eq]
      have hcfg : e₁.cfg = e.cfg := by rw [hleft.eq]
      rw [heq]
      refine ⟨⟨⟨pre ++ [imm], ?_⟩, rfl, hrest⟩, hcfg⟩
      rw [himms, ← hmem] at hkept
      have hkept : Inv e₁ e₁.memTable (pre ++ [imm] ++ rest) m := by simpa using hkept
      exact hkept.frame rfl rfl rfl rfl rfl rfl rfl rfl

theorem Recoverable.compactLevel (h : Recoverable e m) {level : ℕ}
    (hroom : e.tc.entries.length + (e.levelPlan level).outputs.length ≤ e.tc.cap)
    (rb : ℕ → WriteResult) : Recoverable (e.compactLevel level (fun _ => .ok) rb).1 m ∧
      (e.compactLevel level (fun _ => .ok) rb).1.cfg = e.cfg := by
  obtain ⟨pre, hinv⟩ := h.inv
  by_cases hne : leveledInputs e.current e.cfg.maxLevel level = []
  · rw [compactLevel_of_nil hne]
    exact ⟨h, rfl⟩
  · have hc := CompactPre.compacted ⟨hinv.layered.tables, hinv.agrees_tables, hinv.books, hne⟩
      hroom rb
    refine ⟨⟨⟨pre, ?_⟩, ?_, ?_⟩, hc.cfg⟩
    · rw [hc.memTable, hc.immutables]
      exact hinv.compacted hc
    · rw [hc.flushQueue, hc.immutables]
      exact h.queue
    · rw [hc.immutables]
      exact h.nonempty

/-! ### Restarts -/

/-- The rounds of the flush worker during a `Close` keep the logs apart. -/
def LSMEngine.KeepsClosing (e : LSMEngine) : Option ℕ → Prop
  | none => True
  | some n => ∀ i < n, (e.closing i).KeepsLog {} (e.closing i).flushQueue

instance (e : LSMEngine) : (closed : Option ℕ) → Decidable (e.KeepsClosing closed)
  | none => isTrue trivial
  | some n => inferInstanceAs (Decidable (∀ i < n, _))

theorem Recoverable.closing (h : Recoverable e m) {n : ℕ} (hok : e.KeepsClosing (some n)) :
    Recoverable (e.closing n) m ∧ (e.closing n).cfg = e.cfg := by
  induction n with
  | zero =>
    unfold LSMEngine.closing
    split_ifs with hsize
    · exact ⟨h.rotate (e.memTable.nonempty hsize), (rotateMemTable_fields e).1⟩
    · exact ⟨h, rfl⟩
  | succ n ih =>
    obtain ⟨hrec, hcfg⟩ := ih (fun i hi => hok i (hi.trans (Nat.lt_succ_self n)))
    have hstep : e.closing (n + 1) = (e.closing n).flushNext {} :=
      Function.iterate_succ_apply' _ _ _
    obtain ⟨h1, h2⟩ := hrec.flushNext (hok n (Nat.lt_succ_self n))
    rw [hstep]
    exact ⟨h1, h2.trans hcfg⟩

theorem Recoverable.leftBehind (h : Recoverable e m) (hok : e.KeepsClosing closed) :
    DiskInv (e.leftBehind closed) e.cfg.maxLevel m := by
  cases closed with
  | none =>
    obtain ⟨pre, hinv⟩ := h.inv
    exact hinv.disk
  | some n =>
    obtain ⟨hrec, hcfg⟩ := h.closing hok
    obtain ⟨pre, hinv⟩ := hrec.inv
    have hclose : e.close n = ((e.closing n).exec (.appendLog (e.closing n).logNumber [])).dir := by
      rw [← hinv.walBuf]
      rfl
    rw [LSMEngine.leftBehind, hclose, ← hcfg]
    exact (hinv.touchLog (e.closing n).logNumber).disk

/-! ### Runs -/

/-- The conditions on a step: keys and values are not empty and no write stalls; registering tables
does not exceed `MaxOpenFiles`; no memtable is flushed while an older log with one of its keys is
left behind, and no failed flush leaves its record or a part of it in the manifest file; every
`Open` uses synced logs and the same number of levels. -/
def LSMEngine.KeepsLogs (e : LSMEngine) : WorkerEvent → Prop
  | .plain (.write op) => op.Nonempty ∧ e.stalls op = false
  | .plain (.restart cfg closed) => (cfg.syncWAL = true ∧ cfg.maxLevel = e.cfg.maxLevel) ∧
      OpenRoom cfg.withDefaults (e.leftBehind closed) ∧ e.KeepsClosing closed
  | .plain .flush => e.KeepsLog {} e.flushQueue
  | .plain ev => e.Room ev
  | .flush o => e.KeepsLog o e.flushQueue

instance (e : LSMEngine) : (ev : WorkerEvent) → Decidable (e.KeepsLogs ev)
  | .plain (.write op) => inferInstanceAs (Decidable (op.Nonempty ∧ _))
  | .plain (.restart _ _) => inferInstanceAs (Decidable ((_ ∧ _) ∧ _ ∧ _))
  | .plain (.get key) => inferInstanceAs (Decidable (e.Room (.get key)))
  | .plain (.scan start stop limit) => inferInstanceAs (Decidable (e.Room (.scan start stop limit)))
  | .plain .rotate => inferInstanceAs (Decidable (e.Room .rotate))
  | .plain .flush => inferInstanceAs (Decidable (e.KeepsLog {} e.flushQueue))
  | .plain (.compact level) => inferInstanceAs (Decidable (e.Room (.compact level)))
  | .flush o => inferInstanceAs (Decidable (e.KeepsLog o e.flushQueue))

theorem Recoverable.restart (h : Recoverable e m) {cfg : Config}
    (hok : e.KeepsLogs (.plain (.restart cfg closed))) :
    ∃ e', e.workerStep (.plain (.restart cfg closed)) = .ok e' ∧ Good e' m := by
  obtain ⟨⟨hsync, hlevel⟩, hroom, hclosing⟩ := hok
  have hdisk := h.leftBehind hclosing
  rw [← hlevel] at hdisk
  obtain ⟨e', hopen, -, hgood⟩ := hdisk.open_good hsync hroom
  exact ⟨e', hopen, hgood⟩

/-- **One step of a run.** -/
theorem Recoverable.step (h : Recoverable e m) {ev : WorkerEvent} (hok : e.KeepsLogs ev) :
    ∃ e', e.workerStep ev = .ok e' ∧ Recoverable e' (applyUpdates (e.acked ev) m) := by
  cases ev with
  | flush o => exact ⟨_, rfl, (h.flushNext hok).1⟩
  | plain ev =>
    cases ev with
    | write op => exact ⟨_, rfl, h.submit hok.1 hok.2⟩
    | get key => exact ⟨_, rfl, h.readOnly (readOnly_get e key)⟩
    | scan start stop limit => exact ⟨_, rfl, h.readOnly (readOnly_scan e start stop limit)⟩
    | rotate =>
      refine ⟨_, rfl, ?_⟩
      split_ifs with hsize
      · exact h.rotate (e.memTable.nonempty hsize)
      · exact h
    | flush => exact ⟨_, rfl, (h.flushNext hok).1⟩
    | compact level => exact ⟨_, rfl, (h.compactLevel hok (fun _ => .ok)).1⟩
    | restart cfg closed =>
      obtain ⟨e', hopen, hgood⟩ := h.restart hok
      exact ⟨e', hopen, hgood.recoverable⟩

end LsmTree
