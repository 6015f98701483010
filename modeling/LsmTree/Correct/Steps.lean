import Mathlib.Data.List.Induction
import LsmTree.Correct.Recover
import LsmTree.Correct.Scan

/-!
# Whole operations

Each operation that runs to its end keeps `Good`: the invariant for the engine's own memtables, with
all of the immutable ones queued for flushing.
-/

namespace LsmTree

open Versioned

variable {e e' : LSMEngine} {mem : MemTable} {imms : List ImmutableMemtable}
  {m : Bytes → Option Bytes}

variable {op : WriteOp} {ws : List WALEntry} {imm : ImmutableMemtable}

/-! ### Updates -/

def applyUpdates (us : List (Bytes × Option Bytes)) (m : Bytes → Option Bytes) :
    Bytes → Option Bytes :=
  us.foldl (fun m u => Function.update m u.1 u.2) m

def lastUpdate (us : List (Bytes × Option Bytes)) (k : Bytes) : Option Bytes :=
  match us.reverse.find? (fun u => u.1 = k) with
  | some u => u.2
  | none => none

theorem applyUpdates_append (us us' : List (Bytes × Option Bytes)) (m : Bytes → Option Bytes) :
    applyUpdates (us ++ us') m = applyUpdates us' (applyUpdates us m) := List.foldl_append

theorem applyUpdates_eq_lastUpdate (us : List (Bytes × Option Bytes)) :
    applyUpdates us (fun _ => none) = lastUpdate us := by
  induction us using List.reverseRecOn with
  | nil => rfl
  | append_singleton us u ih =>
    rw [applyUpdates_append, ih]
    funext k
    unfold lastUpdate applyUpdates
    rw [List.reverse_append]
    by_cases hk : u.1 = k
    · subst hk
      simp
    · simp [hk, Ne.symm hk]

theorem overlay_toEntry (ws : List WALEntry) (m : Bytes → Option Bytes) :
    overlay (ws.map WALEntry.toEntry) m =
      applyUpdates (ws.map (fun w => (w.key, w.toEntry.payload))) m := by
  unfold overlay applyUpdates
  rw [List.foldl_map, List.foldl_map]
  congr 1
  funext m w
  change Function.update m w.toEntry.key.userKey w.toEntry.payload = _
  rw [WALEntry.toEntry_userKey]

def WriteOp.Nonempty (op : WriteOp) : Prop := ∀ u ∈ op.updates, u.1 ≠ [] ∧ u.2 ≠ some []

instance (op : WriteOp) : Decidable op.Nonempty :=
  inferInstanceAs (Decidable (∀ u ∈ op.updates, u.1 ≠ [] ∧ u.2 ≠ some []))

def WriteOp.fits (maxValueSize : ℤ) (op : WriteOp) : Bool :=
  op.updates.all (fun u => u.2.all (fun v => decide ((v.length : ℤ) ≤ maxValueSize)))

theorem toEntry_ok {w : WALEntry} (hk : w.key ≠ []) (hv : w.toEntry.payload ≠ some []) :
    w.toEntry.Ok := by
  refine ⟨by rw [WALEntry.toEntry_userKey]; exact hk, fun ht hval => hv ?_, w.toEntry_wf⟩
  unfold Entry.payload
  rw [ht]
  simp [hval]

theorem WriteOp.Nonempty.entries_ok (h : op.Nonempty)
    (hws : ws.map (fun w => (w.key, w.toEntry.payload)) = op.updates) : ∀ w ∈ ws, w.toEntry.Ok := by
  intro w hw
  have hmem : (w.key, w.toEntry.payload) ∈ op.updates :=
    hws ▸ List.mem_map_of_mem (f := fun w : WALEntry => (w.key, w.toEntry.payload)) hw
  exact toEntry_ok (h _ hmem).1 (h _ hmem).2

theorem stampBatch_isSome (n : ℤ) (s : ℕ) (bs : List BatchEntry) :
    (stampBatch n s bs).2.isSome = (WriteOp.write bs).fits n := by
  induction bs generalizing s with
  | nil => rfl
  | cons b bs ih =>
    have ih := ih (s + 1)
    rw [stampBatch]
    simp only [WriteOp.fits, WriteOp.updates, List.map_cons, List.all_cons] at ih ⊢
    rw [← ih]
    cases hb : b.delete with
    | true => simp
    | false =>
      by_cases hlen : n < b.value.length
      · simp [hlen]
      · simp [hlen, not_lt.1 hlen]

theorem accept_fits (e : LSMEngine) (op : WriteOp) (hbg : e.bgError = false) :
    (∃ e' ws, e.accept op = (e', .ok ws)) ↔ op.fits e.cfg.maxValueSize = true := by
  cases op with
  | put key value =>
    simp only [LSMEngine.accept, hbg, WriteOp.fits, WriteOp.updates]
    by_cases hlen : e.cfg.maxValueSize < value.length
    · simp [hlen]
    · simp [hlen, not_lt.1 hlen]
  | delete key => simp [LSMEngine.accept, hbg, WriteOp.fits, WriteOp.updates]
  | write batch =>
    rw [← stampBatch_isSome e.cfg.maxValueSize e.seqNo batch]
    simp only [LSMEngine.accept, hbg]
    by_cases hb : batch = []
    · subst hb
      simp [stampBatch]
    · rw [if_neg hb]
      cases hs : stampBatch e.cfg.maxValueSize e.seqNo batch with
      | mk s r => cases r <;> simp

/-! ### Reads -/

/-- A read only changes the cache, and there neither readers nor room. -/
structure ReadOnly (e e' : LSMEngine) : Prop where
  eq : e' = { e with tc := e'.tc }
  readers : e'.tc.readerOf = e.tc.readerOf
  unique : e.tc.Unique → e'.tc.Unique
  length : e.tc.Unique → e'.tc.entries.length = e.tc.entries.length
  cap : e.tc.Unique → e'.tc.cap = e.tc.cap

theorem readOnly_get (e : LSMEngine) (k : Bytes) : ReadOnly e (e.get k).2 := by
  unfold LSMEngine.get
  cases e.memGet k with
  | some r => exact ⟨rfl, rfl, fun h => h, fun _ => rfl, fun _ => rfl⟩
  | none =>
    have key : ∀ h : e.tc.Unique, _ := fun h => h.probeTables k e.seqNo (e.current.candidates k)
    have rel : ∀ h : e.tc.Unique, _ := fun h =>
      (key h).1.foldl_release (probeTables k e.seqNo (e.current.candidates k) e.tc).2.2
    refine ⟨rfl, ?_, fun h => (rel h).1, fun h => (rel h).2.1.trans (key h).2.1,
      fun h => (rel h).2.2.trans (key h).2.2⟩
    change (List.foldl TableCache.release _ _).readerOf = _
    rw [foldl_release_readerOf, probeTables_readerOf]

theorem readOnly_scan (e : LSMEngine) (start stop : Bytes) (limit : ℤ) :
    ReadOnly e (e.scanWithError start stop limit).2 := by
  unfold LSMEngine.scanWithError
  have key : ∀ h : e.tc.Unique, _ := fun h => h.scanTables start stop
    (e.memTable :: e.immutables.reverse.map ImmutableMemtable.table).length e.current.scanOrder
  have rel : ∀ h : e.tc.Unique, _ := fun h => (key h).1.foldl_release (scanTables start stop
    (e.memTable :: e.immutables.reverse.map ImmutableMemtable.table).length e.current.scanOrder
      e.tc).2.2
  refine ⟨rfl, ?_, fun h => (rel h).1, fun h => (rel h).2.1.trans (key h).2.1,
    fun h => (rel h).2.2.trans (key h).2.2⟩
  change (List.foldl TableCache.release _ _).readerOf = _
  rw [foldl_release_readerOf, scanTables_readerOf]

theorem Inv.readOnly (h : Inv e mem imms m) (hr : ReadOnly e e') : Inv e' mem imms m := by
  rw [hr.eq]
  exact h.setTc hr.readers (hr.unique h.books.unique)

/-! ### Whole operations -/

structure Good (e : LSMEngine) (m : Bytes → Option Bytes) : Prop where
  inv : Inv e e.memTable e.immutables m
  queue : e.flushQueue = e.immutables
  nonempty : ∀ i ∈ e.immutables, i.table.entries ≠ []
  healthy : e.bgError = false

theorem Inv.bumpSeq (h : Inv e mem imms m) {s : ℕ} (hs : e.seqNo ≤ s) :
    Inv { e with seqNo := s } mem imms m := by
  obtain ⟨h1, h2, h3, ⟨h4, h5, h6, h7, h8⟩, h9, h10, h11, h12⟩ := h
  exact ⟨h1, h2, h3, ⟨h4, h5, h6, h7, h8⟩, h9, fun x hx => (h10 x hx).trans hs, h11, h12⟩

theorem Good.readOnly (h : Good e m) (hr : ReadOnly e e') : Good e' m := by
  have hinv := h.inv.readOnly hr
  rw [hr.eq] at hinv ⊢
  exact ⟨hinv, h.queue, h.nonempty, h.healthy⟩

theorem rotateMemTable_fields (e : LSMEngine) : e.rotateMemTable.1.cfg = e.cfg ∧
    e.rotateMemTable.1.tc = e.tc ∧ e.rotateMemTable.1.bgError = e.bgError ∧
    ((e.rotateMemTable.1 = e) ∨
      (e.rotateMemTable.1.immutables = e.immutables ++ [⟨e.memTable, e.logNumber⟩] ∧
        e.rotateMemTable.1.flushQueue = e.flushQueue ++ [⟨e.memTable, e.logNumber⟩])) := by
  unfold LSMEngine.rotateMemTable
  cases e.rotateReady with
  | error err => exact ⟨rfl, rfl, rfl, Or.inl rfl⟩
  | ok u =>
    simp only [LSMEngine.rotateEdit]
    rw [apply_ok (logNumberEdit_unchecked _)]
    exact ⟨rfl, rfl, rfl, Or.inr ⟨rfl, rfl⟩⟩

theorem rotateMemTable_queue (hqueue : e.flushQueue = e.immutables)
    (hall : ∀ i ∈ e.immutables, i.table.entries ≠ []) (hne : e.memTable.entries ≠ []) :
    e.rotateMemTable.1.flushQueue = e.rotateMemTable.1.immutables ∧
      ∀ i ∈ e.rotateMemTable.1.immutables, i.table.entries ≠ [] := by
  obtain ⟨-, -, -, heq | ⟨h1, h2⟩⟩ := rotateMemTable_fields e
  · rw [heq]
    exact ⟨hqueue, hall⟩
  · rw [h1, h2, hqueue]
    refine ⟨rfl, fun i hi => ?_⟩
    rcases List.mem_append.1 hi with hi | hi
    · exact hall i hi
    · rw [List.mem_singleton.1 hi]
      exact hne

/-- **Rotation.** -/
theorem Good.rotate (h : Good e m) (hne : e.memTable.entries ≠ []) : Good e.rotateMemTable.1 m := by
  obtain ⟨hqueue, hall⟩ := rotateMemTable_queue h.queue h.nonempty hne
  exact ⟨h.inv.rotateMemTable, hqueue, hall, (rotateMemTable_fields e).2.2.1.trans h.healthy⟩

theorem MemTable.replay_ne_nil {t : MemTable} (h : ws ≠ []) : (t.replay ws).entries ≠ [] := by
  induction ws using List.reverseRecOn with
  | nil => exact absurd rfl h
  | append_singleton ws w _ =>
    rw [MemTable.replay_append, MemTable.replay_cons, MemTable.replay_nil, MemTable.apply_entries]
    exact insertNode_ne_nil _ _ _

/-- **A write operation.** If its values fit it is carried out, else nothing happens. -/
theorem Good.submit (h : Good e m) {op : WriteOp} (hop : op.Nonempty) :
    Good (e.submit op).1
      (if op.fits e.cfg.maxValueSize then applyUpdates op.updates m else m) ∧
    (e.submit op).1.cfg = e.cfg ∧ (e.submit op).1.tc = e.tc := by
  cases haccept : e.accept op with
  | mk e₁ r =>
    unfold LSMEngine.submit
    rw [haccept]
    cases r with
    | error err =>
      have hfits : op.fits e.cfg.maxValueSize = false := by
        rw [Bool.eq_false_iff]
        intro hc
        obtain ⟨e₂, ws, hok⟩ := (accept_fits e op h.healthy).2 hc
        rw [haccept] at hok
        cases hok
      obtain ⟨s, hs, rfl⟩ := accept_error haccept
      rw [hfits]
      exact ⟨⟨h.inv.bumpSeq hs, h.queue, h.nonempty, h.healthy⟩, rfl, rfl⟩
    | ok ws =>
      have hfits : op.fits e.cfg.maxValueSize = true :=
        (accept_fits e op h.healthy).1 ⟨e₁, ws, haccept⟩
      obtain ⟨rfl, hcons, hups⟩ := accept_ok haccept
      rw [hfits, if_pos rfl]
      cases ws with
      | nil =>
        rw [← hups]
        exact ⟨⟨h.inv.bumpSeq (Nat.le_add_right _ _), h.queue, h.nonempty, h.healthy⟩, rfl, rfl⟩
      | cons w ws =>
        have hlog := h.inv.logWrite hcons (hop.entries_ok hups)
        rw [overlay_toEntry, hups] at hlog
        simp only
        set e₂ := ({ e with seqNo := e.seqNo + (w :: ws).length } : LSMEngine).logWrite (w :: ws)
          with he₂
        have hfields : e₂.memTable = e.memTable ∧ e₂.immutables = e.immutables ∧
            e₂.flushQueue = e.flushQueue ∧ e₂.bgError = e.bgError ∧ e₂.cfg = e.cfg ∧
              e₂.tc = e.tc := by
          rw [he₂]
          unfold LSMEngine.logWrite
          split_ifs <;> exact ⟨rfl, rfl, rfl, rfl, rfl, rfl⟩
        obtain ⟨f1, f2, f3, f4, f5, f6⟩ := hfields
        have hgood : Good (e₂.insertEntries (w :: ws)) (applyUpdates op.updates m) := by
          refine ⟨?_, f3.trans (h.queue.trans f2.symm), fun i hi => ?_, f4.trans h.healthy⟩
          · change Inv _ (e₂.memTable.replay (w :: ws)) e₂.immutables _
            rw [f1, f2]
            exact hlog.frame rfl rfl rfl rfl rfl rfl rfl rfl
          · have hi : i ∈ e₂.immutables := hi
            rw [f2] at hi
            exact h.nonempty i hi
        have hne : (e₂.insertEntries (w :: ws)).memTable.entries ≠ [] :=
          MemTable.replay_ne_nil (List.cons_ne_nil w ws)
        unfold LSMEngine.rotateIfFull
        split_ifs
        · obtain ⟨g1, g2, -, -⟩ := rotateMemTable_fields (e₂.insertEntries (w :: ws))
          exact ⟨hgood.rotate hne, g1.trans f5, g2.trans f6⟩
        · exact ⟨hgood, f5, f6⟩

/-- The engine takes the write and then has no slot for the full memtable. -/
def LSMEngine.stalls (e : LSMEngine) (op : WriteOp) : Bool :=
  match e.accept op with
  | (e, .ok (w :: ws)) =>
    ((e.logWrite (w :: ws)).insertEntries (w :: ws)).memTable.isFull &&
      !((e.logWrite (w :: ws)).insertEntries (w :: ws)).rotateReady.isOk
  | _ => false

theorem LSMEngine.submit_isOk {e₁ : LSMEngine} {r : Except EngineError (List WALEntry)}
    (h : e.accept op = (e₁, r)) (hstall : e.stalls op = false) : (e.submit op).2.isOk = r.isOk := by
  unfold LSMEngine.stalls at hstall
  unfold LSMEngine.submit
  rw [h] at hstall ⊢
  cases r with
  | error err => rfl
  | ok ws =>
    cases ws with
    | nil => rfl
    | cons w ws =>
      simp only at hstall ⊢
      unfold LSMEngine.rotateIfFull LSMEngine.rotateMemTable
      by_cases hfull : ((e₁.logWrite (w :: ws)).insertEntries (w :: ws)).memTable.isFull = true
      · rw [hfull, Bool.true_and] at hstall
        rw [if_pos hfull]
        cases hready : ((e₁.logWrite (w :: ws)).insertEntries (w :: ws)).rotateReady with
        | error err =>
          rw [hready] at hstall
          cases hstall
        | ok u => rfl
      · rw [if_neg hfull]
        rfl

theorem LSMEngine.submit_error {err : EngineError} (hbg : e.bgError = false)
    (h : e.submit op = (e', .error err)) (hstall : e.stalls op = false) :
    op.fits e.cfg.maxValueSize = false := by
  rw [Bool.eq_false_iff]
  intro hfits
  obtain ⟨e₁, ws, hacc⟩ := (accept_fits e op hbg).2 hfits
  have hok := LSMEngine.submit_isOk hacc hstall
  rw [h] at hok
  cases hok

theorem filter_logNumber {rest : List ImmutableMemtable}
    (h : (((imm :: rest).map (fun i => i.logNumber)).Nodup)) :
    (imm :: rest).filter (fun i => i.logNumber != imm.logNumber) = rest := by
  rw [List.map_cons, List.nodup_cons] at h
  rw [List.filter_cons]
  simp only [bne_self_eq_false, Bool.false_eq_true, if_false]
  refine List.filter_eq_self.2 (fun i hi => ?_)
  have hne : i.logNumber ≠ imm.logNumber := fun hc => h.1 (List.mem_map.2 ⟨i, hi, hc⟩)
  simpa using hne

theorem Owned.nodup_imms {d : DataDir} {n : ℕ} (h : Owned d (memOwners imms mem n)) :
    (imms.map (fun i => i.logNumber)).Nodup := by
  have hn := h.nodup
  unfold memOwners at hn
  rw [List.map_append, List.map_map] at hn
  exact (List.nodup_append.1 hn).1

theorem flushSeqNo_fields (e : LSMEngine) (res : WriteResult) :
    ∃ current edits torn, e.flushSeqNo res =
      { e with current := current, dir := { e.dir with edits := edits, torn := torn } } :=
  ⟨_, _, _, rfl⟩

theorem flush_fields (hne : imm.table.entries ≠ [])
    (hb : BuiltFor (e.flushBuild imm).1 (e.flushBuild imm).2 imm.table.versions) {o : FlushOutcome}
    (ho : o.fault = none) :
    let e' := (e.flush imm o).1
    (e.flush imm o).2 = true ∧ e'.memTable = e.memTable ∧
      e'.immutables = e.immutables.filter (fun i => i.logNumber != imm.logNumber) ∧
      e'.flushQueue = e.flushQueue ∧ e'.bgError = e.bgError ∧ e'.cfg = e.cfg ∧
      e'.tc.cap = e.tc.cap ∧ e'.logNumber = e.logNumber ∧ e'.nextFileID = e.nextFileID + 1 := by
  obtain ⟨f, -, heq⟩ := flushAdd_ok hb
  rw [flush_eq_of_built hne hb ho]
  obtain ⟨current, edits, torn, hseq⟩ := flushSeqNo_fields
    ((e.flushBuild imm).1.flushAdd (e.flushBuild imm).2 .ok).1 o.seqRes
  rw [hseq, heq]
  cases o.logRemoved <;>
    exact ⟨rfl, rfl, rfl, rfl, rfl, rfl, TableCache.register_cap _ _ _, rfl, rfl⟩

theorem flushNext_ok {imm : ImmutableMemtable} {rest : List ImmutableMemtable}
    (hq : e.flushQueue = imm :: rest) (himms : e.immutables = imm :: rest)
    (hlogs : ((imm :: rest).map (fun i => i.logNumber)).Nodup) (hne : imm.table.entries ≠ [])
    (hb : BuiltFor (({ e with flushQueue := rest } : LSMEngine).flushBuild imm).1
      (({ e with flushQueue := rest } : LSMEngine).flushBuild imm).2 imm.table.versions)
    {o : FlushOutcome} (ho : o.fault = none) :
    let e' := e.flushNext o
    e' = (({ e with flushQueue := rest } : LSMEngine).flush imm o).1 ∧ e'.memTable = e.memTable ∧
      e'.immutables = rest ∧ e'.flushQueue = rest ∧ e'.bgError = e.bgError ∧ e'.cfg = e.cfg ∧
      e'.tc.cap = e.tc.cap ∧ e'.logNumber = e.logNumber ∧ e'.nextFileID = e.nextFileID + 1 := by
  obtain ⟨f0, f1, f2, f3, f4, f5, f6, f7, f8⟩ := flush_fields hne hb ho
  have hrest : e.immutables.filter (fun i => i.logNumber != imm.logNumber) = rest := by
    rw [himms]
    exact filter_logNumber hlogs
  have hrun : e.flushNext o = (({ e with flushQueue := rest } : LSMEngine).flush imm o).1 := by
    unfold LSMEngine.flushNext
    rw [hq]
    cases hflush : ({ e with flushQueue := rest } : LSMEngine).flush imm o with
    | mk e₁ ok =>
      rw [hflush] at f0
      change ok = true at f0
      subst f0
      simp only [hflush]
  intro e'
  rw [show e' = _ from hrun]
  exact ⟨rfl, f1, f2.trans hrest, f3, f4, f5, f6, f7, f8⟩

/-- **A successful flush of the oldest immutable.** -/
theorem Good.flushNext (h : Good e m) (hroom : e.flushQueue ≠ [] → e.tc.entries.length < e.tc.cap) :
    Good (e.flushNext {}) m ∧ (e.flushNext {}).cfg = e.cfg ∧
      (e.flushNext {}).tc.cap = e.tc.cap := by
  cases hq : e.flushQueue with
  | nil =>
    unfold LSMEngine.flushNext
    rw [hq]
    exact ⟨h, rfl, rfl⟩
  | cons imm rest =>
    have himms : e.immutables = imm :: rest := h.queue.symm.trans hq
    have hne : imm.table.entries ≠ [] := h.nonempty imm (by rw [himms]; exact List.mem_cons_self)
    have hinv := h.inv
    rw [himms] at hinv
    have hinv' : Inv { e with flushQueue := rest } e.memTable ([] ++ imm :: rest) m :=
      hinv.frame rfl rfl rfl rfl rfl rfl rfl rfl
    have hflush := hinv'.flush hne (hroom (by rw [hq]; exact List.cons_ne_nil _ _))
      (fun p hp => by cases hp) true
    have hb := (hinv'.flushBuild
      (fun x hx => mem_union_memStack.2 (Or.inr ⟨imm, by simp, hx⟩)) hne).2
    obtain ⟨f0, f1, f2, f3, f4, f5, f6, -⟩ :=
      @flushNext_ok e imm rest hq himms hinv.owned.nodup_imms hne hb {} rfl
    refine ⟨⟨?_, f3.trans f2.symm, fun i hi => ?_, f4.trans h.healthy⟩, f5, f6⟩
    · rw [f1, f2, f0]
      exact hflush
    · rw [f2] at hi
      exact h.nonempty i (by rw [himms]; exact List.mem_cons_of_mem imm hi)

/-- **A completed compaction.** -/
theorem Good.compactLevel (h : Good e m) {level : ℕ}
    (hroom : e.tc.entries.length + (e.levelPlan level).outputs.length ≤ e.tc.cap)
    (rb : ℕ → WriteResult) :
    Good (e.compactLevel level (fun _ => .ok) rb).1 m ∧
      (e.compactLevel level (fun _ => .ok) rb).1.cfg = e.cfg ∧
      (e.compactLevel level (fun _ => .ok) rb).1.tc.cap = e.tc.cap := by
  by_cases hne : leveledInputs e.current e.cfg.maxLevel level = []
  · rw [compactLevel_of_nil hne]
    exact ⟨h, rfl, rfl⟩
  · have hc := CompactPre.compacted ⟨h.inv.layered.tables, h.inv.agrees_tables, h.inv.books, hne⟩
      hroom rb
    refine ⟨⟨?_, ?_, ?_, hc.bgError.trans h.healthy⟩, hc.cfg, hc.cap⟩
    · rw [hc.memTable, hc.immutables]
      exact h.inv.compacted hc
    · rw [hc.flushQueue, hc.immutables]
      exact h.queue
    · rw [hc.immutables]
      exact h.nonempty

end LsmTree
