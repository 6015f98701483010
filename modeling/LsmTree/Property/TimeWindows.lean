import LsmTree.Engine.Tiered
import LsmTree.Correct.Eviction
import LsmTree.Property.Refinement

/-!
# Time-window compaction and creation times

`SSTableBuilder.Finish` records when a table was created, but the manifest edits of flushes and
compactions do not carry the time, and neither `Apply` nor `Recover` sets it: every listed table
seems to be as old as the epoch (`Edited.timeless`).  The picker does what it should by the times it
is given (`twcsPickInputs_window`), so it takes all of level 0 for one closed window.

A `Timed` engine goes with the times that `Finish` recorded.
-/

namespace LsmTree

/-! ### The times are lost -/

def SSTableMeta.createdBy (m : SSTableMeta) (clock : ℕ → ℤ) : SSTableMeta :=
  { m with createdAt := clock m.fileID }

def CompactionPlan.createdBy (p : CompactionPlan) (clock : ℕ → ℤ) : CompactionPlan :=
  { p with outputs := p.outputs.map (fun o => (o.1.createdBy clock, o.2)) }

theorem flushAdd_createdBy (e : LSMEngine) (m : SSTableMeta) (clock : ℕ → ℤ) (res : WriteResult) :
    e.flushAdd (m.createdBy clock) res = e.flushAdd m res := rfl

theorem commitEdits_createdBy (p : CompactionPlan) (clock : ℕ → ℤ) :
    (p.createdBy clock).commitEdits = p.commitEdits := by
  unfold CompactionPlan.commitEdits CompactionPlan.createdBy
  rw [List.map_map]
  rfl

theorem stageOutputs_createdBy (e : LSMEngine) (p : CompactionPlan) (clock : ℕ → ℤ) :
    e.stageOutputs (p.createdBy clock) = e.stageOutputs p := by
  unfold LSMEngine.stageOutputs CompactionPlan.createdBy
  simp only [List.foldl_map, List.any_map]
  rfl

/-! ### Versions without times -/

def Version.Timeless (v : Version) : Prop := ∀ i, ∀ t ∈ v.levels i, t.createdAt = 0

theorem Version.Timeless.applyEdit {v : Version} (h : v.Timeless) (edit : VersionEdit) :
    (v.applyEdit edit).Timeless := by
  intro i t ht
  unfold Version.applyEdit at ht
  cases htype : edit.type with
  | addSSTable =>
    rw [htype] at ht
    simp only [Function.update_apply] at ht
    split_ifs at ht with hlevel
    · rw [mem_sortLevel, List.mem_append, List.mem_singleton] at ht
      rcases ht with ht | rfl
      · exact h _ t ht
      · rfl
    · exact h i t ht
  | deleteSSTable =>
    rw [htype] at ht
    simp only [Function.update_apply] at ht
    split_ifs at ht with hlevel
    · rw [mem_sortLevel] at ht
      exact h _ t (List.mem_of_mem_filter ht)
    · exact h i t ht
  | logNumber | nextFileID | maxSeqNo =>
    rw [htype] at ht
    exact h i t ht

theorem timeless_recoverVersion (file : List VersionEdit) : (recoverVersion file).Timeless := by
  suffices h : ∀ v : Version, v.Timeless → (file.foldl Version.recoverEdit v).Timeless from
    h {} (fun i t ht => by cases ht)
  intro v hv
  induction file generalizing v with
  | nil => exact hv
  | cons edit file ih => exact ih (v.recoverEdit edit) (hv.applyEdit edit)

def Edited (e e' : LSMEngine) : Prop :=
  ∃ edits : List VersionEdit, e'.current = edits.foldl Version.applyEdit e.current

variable {e e' e'' : LSMEngine} {srt : SizeSort}

theorem Edited.timeless (h : Edited e e') (he : e.current.Timeless) : e'.current.Timeless := by
  obtain ⟨edits, hedits⟩ := h
  rw [hedits]
  clear hedits
  induction edits generalizing e with
  | nil => exact he
  | cons edit edits ih =>
    exact @ih { e with current := e.current.applyEdit edit } (he.applyEdit edit)

theorem Edited.of_eq (h : e'.current = e.current) : Edited e e' := ⟨[], h⟩

theorem Edited.trans (h : Edited e e') (h' : Edited e' e'') : Edited e e'' := by
  obtain ⟨edits, h⟩ := h
  obtain ⟨edits', h'⟩ := h'
  exact ⟨edits ++ edits', by rw [h', h, List.foldl_append]⟩

theorem edited_apply (e : LSMEngine) (edit : VersionEdit) (res : WriteResult) :
    Edited e (e.apply edit res).1 := by
  unfold LSMEngine.apply Manifest.apply
  split_ifs
  · exact .of_eq rfl
  · cases res with
    | ok => exact ⟨[edit], rfl⟩
    | failed reached => cases reached <;> exact .of_eq rfl

theorem edited_rotate (e : LSMEngine) : Edited e e.rotateMemTable.1 := by
  unfold LSMEngine.rotateMemTable
  cases e.rotateReady with
  | error err => exact .of_eq rfl
  | ok u =>
    obtain ⟨edits, h⟩ := edited_apply e.rotateOpen.1 (logNumberEdit e.rotateOpen.2) .ok
    exact ⟨edits, h⟩

theorem edited_submit (e : LSMEngine) (op : WriteOp) : Edited e (e.submit op).1 := by
  unfold LSMEngine.submit
  rcases hacc : e.accept op with ⟨e₁, err | ws⟩
  · obtain ⟨s, -, rfl⟩ := accept_error hacc
    exact .of_eq rfl
  · obtain ⟨rfl, -, -⟩ := accept_ok hacc
    cases ws with
    | nil => exact .of_eq rfl
    | cons w ws =>
      simp only
      set e₁ : LSMEngine := { e with seqNo := e.seqNo + (w :: ws).length } with he₁
      have hlog : Edited e ((e₁.logWrite (w :: ws)).insertEntries (w :: ws)) := by
        unfold LSMEngine.logWrite
        split_ifs <;> exact .of_eq rfl
      unfold LSMEngine.rotateIfFull
      split_ifs
      · exact hlog.trans (edited_rotate _)
      · exact hlog

theorem edited_register (e : LSMEngine) (id : ℕ) : Edited e (e.register id) := by
  unfold LSMEngine.register
  cases e.dir.ssts.lookup id <;> exact .of_eq rfl

theorem edited_flushAdd (e : LSMEngine) (m : SSTableMeta) (res : WriteResult) :
    Edited e (e.flushAdd m res).1 :=
  (edited_register e m.fileID).trans (edited_apply _ _ _)

theorem edited_flush (e : LSMEngine) (imm : ImmutableMemtable) (o : FlushOutcome) :
    Edited e (e.flush imm o).1 := by
  unfold LSMEngine.flush
  by_cases hbuild : o.fault = some .build
  · rw [if_pos hbuild]
    exact .of_eq rfl
  by_cases hempty : imm.table.entries = []
  · rw [if_neg hbuild, if_pos hempty]
    exact .of_eq rfl
  rw [if_neg hbuild, if_neg hempty]
  simp only
  by_cases hreg : o.fault = some .register
  · rw [if_pos hreg]
    exact .of_eq rfl
  rw [if_neg hreg]
  obtain ⟨edits, hadd⟩ := edited_flushAdd (e.flushBuild imm).1 (e.flushBuild imm).2 o.addRes
  have hadd : Edited e ((e.flushBuild imm).1.flushAdd (e.flushBuild imm).2 o.addRes).1 :=
    ⟨edits, hadd⟩
  rcases hres : (e.flushBuild imm).1.flushAdd (e.flushBuild imm).2 o.addRes with ⟨e₁, _ | _⟩
  · rw [hres] at hadd
    exact hadd
  · rw [hres] at hadd
    have hseq := hadd.trans (edited_apply e₁ (maxSeqNoEdit e₁.seqNo) o.seqRes)
    simp only
    split_ifs
    · exact hseq
    · exact hseq

theorem edited_flushNext (e : LSMEngine) (o : FlushOutcome) : Edited e (e.flushNext o) := by
  unfold LSMEngine.flushNext
  cases hq : e.flushQueue with
  | nil => exact .of_eq rfl
  | cons imm queue =>
    simp only
    have hflush := edited_flush { e with flushQueue := queue } imm o
    rcases hres : ({ e with flushQueue := queue } : LSMEngine).flush imm o with ⟨e₁, _ | _⟩
    · rw [hres] at hflush
      exact hflush
    · rw [hres] at hflush
      exact hflush

theorem edited_applyAll (edits : List VersionEdit) (e : LSMEngine) (res : ℕ → WriteResult) :
    Edited e (e.applyAll edits res).1 := by
  induction edits generalizing e res with
  | nil => exact .of_eq rfl
  | cons edit edits ih =>
    have happly := edited_apply e edit (res 0)
    rw [LSMEngine.applyAll]
    rcases hres : e.apply edit (res 0) with ⟨e₁, _ | _⟩
    · rw [hres] at happly
      exact happly
    · rw [hres] at happly
      exact happly.trans (ih e₁ _)

theorem edited_applyIgnore (edits : List VersionEdit) (e : LSMEngine) (res : ℕ → WriteResult) :
    Edited e (e.applyIgnore edits res) := by
  induction edits generalizing e res with
  | nil => exact .of_eq rfl
  | cons edit edits ih => exact (edited_apply e edit (res 0)).trans (ih _ _)

theorem edited_executeCompaction (e : LSMEngine) (inputs : List SSTableMeta) (level : ℕ)
    (res rb : ℕ → WriteResult) : Edited e (e.executeCompaction inputs level res rb).1 := by
  unfold LSMEngine.executeCompaction
  set p := e.planCompaction inputs level
  have hstage : Edited e (e.stageOutputs p) := .of_eq (by rw [stageOutputs_eq])
  have hcommit := hstage.trans (edited_applyAll p.commitEdits (e.stageOutputs p) res)
  rcases hres : (e.stageOutputs p).applyAll p.commitEdits res with ⟨e₁, _ | _⟩
  · rw [hres] at hcommit
    simp only [hres]
    have hdrop : Edited e₁ (e₁.dropTables (p.outputs.map (fun o => o.1.fileID))) :=
      .of_eq (by rw [dropTables_eq])
    exact hcommit.trans (hdrop.trans (edited_applyIgnore _ _ _))
  · rw [hres] at hcommit
    simp only [hres]
    exact hcommit.trans (.of_eq (by rw [dropTables_eq]))

theorem timeless_open {cfg : Config} {d : DataDir} (h : openEngine cfg d = .ok e) :
    e.current.Timeless := by
  obtain ⟨-, tc, -, rfl⟩ := openEngine_ok h
  set e₀ := recoveredEngine cfg.withDefaults d tc
  have hshrink : Edited e₀ e₀.shrink := by
    unfold LSMEngine.shrink LSMEngine.recoverFlushOversizedMemtable
    split_ifs
    · exact .of_eq rfl
    · obtain ⟨edits, hadd⟩ := edited_flushAdd (e₀.flushBuild ⟨e₀.memTable, e₀.logNumber⟩).1
        (e₀.flushBuild ⟨e₀.memTable, e₀.logNumber⟩).2 .ok
      exact ⟨edits, hadd⟩
    · exact .of_eq rfl
  have hrecord : Edited e₀.shrink (e₀.shrink.recordLog (recoverVersion d.edits).logNumber) := by
    unfold LSMEngine.recordLog
    split_ifs
    · exact edited_apply _ _ _
    · exact .of_eq rfl
  exact (hshrink.trans hrecord).timeless (timeless_recoverVersion d.edits)

/-! ### Runs with a clock -/

/-- An engine, and the time that `Finish` recorded for each table file. -/
structure Timed where
  eng : LSMEngine
  born : ℕ → ℤ

/-- What happens: a step of the engine, a flush that may fail, a compaction of either strategy. -/
inductive TimedEvent
  | engine (ev : Event)
  | flush (o : FlushOutcome)
  | stcs (res rb : ℕ → WriteResult)
  | twcs (now : ℤ) (res rb : ℕ → WriteResult)

/-- The engine after an event.  One that cannot be opened is left as it is. -/
def TimedEvent.carry (srt : SizeSort) (e : LSMEngine) : TimedEvent → LSMEngine
  | .engine ev =>
    match e.step ev with
    | .ok e' => e'
    | .error _ => e
  | .flush o => e.flushNext o
  | .stcs res rb => (e.runSTCSCompaction srt res rb).1
  | .twcs now res rb => (e.runTWCSCompaction srt now res rb).1

/-- One event, with the times at which `Finish` is called for the files that it builds.  Files that
are there keep theirs. -/
def Timed.next (srt : SizeSort) (s : Timed) (x : TimedEvent × (ℕ → ℤ)) : Timed where
  eng := x.1.carry srt s.eng
  born id := if s.eng.dir.ssts.lookup id = none then x.2 id else s.born id

def Timed.window (s : Timed) (t : SSTableMeta) : ℤ :=
  twcsWindowStart (s.born t.fileID) s.eng.cfg.twcs.windowSize

def Timed.windowAt (s : Timed) (now : ℤ) : ℤ := twcsWindowStart now s.eng.cfg.twcs.windowSize

/-- Whatever `runTWCSCompaction` selects now was created in one window, and not in the current
one. -/
def Timed.RespectsWindows (s : Timed) (srt : SizeSort) (now : ℤ) : Prop :=
  ∀ inputs, s.eng.twcsInputs srt now = some inputs → ∃ w, w ≠ s.windowAt now ∧
    ∀ t ∈ inputs, s.window t = w

/-- All of level 0 was created in one window, and not in the current one. -/
def Timed.OneClosedWindow (s : Timed) (now : ℤ) : Prop :=
  ∃ w, w ≠ s.windowAt now ∧ ∀ t ∈ s.eng.current.levels 0, s.window t = w

theorem edited_compactPicked (e : LSMEngine) (inputs : Option (List SSTableMeta))
    (res rb : ℕ → WriteResult) : Edited e (e.compactPicked inputs res rb).1 := by
  cases inputs with
  | none => exact .of_eq rfl
  | some inputs => exact edited_executeCompaction e inputs 1 res rb

theorem timeless_step (h : e.current.Timeless) {ev : Event} (hstep : e.step ev = .ok e') :
    e'.current.Timeless := by
  cases ev with
  | write op =>
    cases hstep
    exact (edited_submit e op).timeless h
  | get key =>
    cases hstep
    rw [(readOnly_get e key).eq]
    exact h
  | scan start stop limit =>
    cases hstep
    rw [(readOnly_scan e start stop limit).eq]
    exact h
  | rotate =>
    cases hstep
    split_ifs
    · exact (edited_rotate e).timeless h
    · exact h
  | flush =>
    cases hstep
    exact (edited_flushNext e {}).timeless h
  | compact level =>
    cases hstep
    unfold LSMEngine.compactLevel
    simp only
    split_ifs
    · exact h
    · exact (edited_executeCompaction e _ _ _ _).timeless h
  | restart cfg closed => exact timeless_open hstep

theorem timeless_carry (h : e.current.Timeless) (ev : TimedEvent) :
    (ev.carry srt e).current.Timeless := by
  cases ev with
  | engine ev =>
    rw [TimedEvent.carry]
    cases hstep : e.step ev with
    | ok e' => exact timeless_step h hstep
    | error err => exact h
  | flush o => exact (edited_flushNext e o).timeless h
  | stcs res rb => exact (edited_compactPicked e _ res rb).timeless h
  | twcs now res rb => exact (edited_compactPicked e _ res rb).timeless h

/-- **No listed table ever has a creation time.** -/
theorem timeless_run {s : Timed} (h : s.eng.current.Timeless)
    (events : List (TimedEvent × (ℕ → ℤ))) :
    (events.foldl (Timed.next srt) s).eng.current.Timeless := by
  induction events generalizing s with
  | nil => exact h
  | cons x events ih => exact ih (timeless_carry h x.1)

theorem twcsWindowStart_zero (windowSize : ℤ) : twcsWindowStart 0 windowSize = 0 := by
  unfold twcsWindowStart
  simp only [Int.zero_tdiv, Int.zero_mul]

theorem Config.twcs_minThreshold (cfg : Config) : cfg.twcs.minThreshold = 4 := by
  unfold Config.twcs
  split_ifs <;> rfl

/-- **Windows are respected** in every run, by every `runTWCSCompaction` that finds fewer than four
tables in level 0, or the clock still in the window of the epoch, or all of level 0 created in one
window that is over. -/
theorem twcs_respects_windows {cfg : Config} {d : DataDir} {e₀ : LSMEngine}
    (hopen : openEngine cfg d = .ok e₀) (srt : SizeSort) (born : ℕ → ℤ)
    (events : List (TimedEvent × (ℕ → ℤ))) (now : ℤ)
    (h : ((events.foldl (Timed.next srt) ⟨e₀, born⟩).eng.current.levels 0).length < 4 ∨
      (events.foldl (Timed.next srt) ⟨e₀, born⟩).windowAt now = 0 ∨
      (events.foldl (Timed.next srt) ⟨e₀, born⟩).OneClosedWindow now) :
    (events.foldl (Timed.next srt) ⟨e₀, born⟩).RespectsWindows srt now := by
  have htimeless := @timeless_run srt ⟨e₀, born⟩ (timeless_open hopen) events
  generalize events.foldl (Timed.next srt) ⟨e₀, born⟩ = s at h htimeless
  intro inputs hpick
  obtain ⟨hmin, ts, hts, hin⟩ := twcsPickInputs_window hpick
  rw [Config.twcs_minThreshold] at hmin
  rcases h with hfew | hepoch | ⟨w, hw, hall⟩
  · omega
  · -- nothing is picked: by the times they carry all tables are of the current window
    refine ⟨ts, hts, fun t ht => ?_⟩
    obtain ⟨hmem, hwindow⟩ := hin t ht
    rw [htimeless 0 t hmem, twcsWindowStart_zero] at hwindow
    exact absurd (hwindow.symm.trans hepoch.symm) hts
  · exact ⟨w, hw, fun t ht => hall t (hin t ht).1⟩

def hourly : Config := { compactionStyle := .timeWindow, timeWindowSize := 3600 * 1000000000 }

def flushAt (key : UInt8) (hour : ℤ) : List (TimedEvent × (ℕ → ℤ)) :=
  [(.engine (.write (.put [key] [1])), fun _ => 0), (.engine .rotate, fun _ => 0),
    (.engine .flush, fun _ => hour * (3600 * 1000000000))]

def busyHour : List (TimedEvent × (ℕ → ℤ)) :=
  flushAt 1 480000 ++ flushAt 2 480000 ++ flushAt 3 480000 ++ flushAt 4 480000

/-- An hour later all of them are selected, as they should be. -/
theorem busyHour_respected : ∃ e₀, openEngine hourly {} = .ok e₀ ∧
    ((busyHour.foldl (Timed.next .insertion) ⟨e₀, fun _ => 0⟩).eng.twcsInputs .insertion
      (480001 * (3600 * 1000000000))).map List.length = some 4 ∧
    (busyHour.foldl (Timed.next .insertion) ⟨e₀, fun _ => 0⟩).RespectsWindows .insertion
      (480001 * (3600 * 1000000000)) := by
  have h : ∃ e₀, openEngine hourly {} = .ok e₀ ∧
      ((busyHour.foldl (Timed.next .insertion) ⟨e₀, fun _ => 0⟩).eng.twcsInputs .insertion
        (480001 * (3600 * 1000000000))).map List.length = some 4 ∧
      480000 * (3600 * 1000000000) ≠ (busyHour.foldl (Timed.next .insertion)
        ⟨e₀, fun _ => 0⟩).windowAt (480001 * (3600 * 1000000000)) ∧
      ∀ t ∈ (busyHour.foldl (Timed.next .insertion) ⟨e₀, fun _ => 0⟩).eng.current.levels 0,
        (busyHour.foldl (Timed.next .insertion) ⟨e₀, fun _ => 0⟩).window t =
          480000 * (3600 * 1000000000) := by
    decide +kernel
  obtain ⟨e₀, hopen, hlen, hnow, hall⟩ := h
  exact ⟨e₀, hopen, hlen,
    twcs_respects_windows hopen .insertion _ busyHour _ (Or.inr (Or.inr ⟨_, hnow, hall⟩))⟩

def quietHours : List (TimedEvent × (ℕ → ℤ)) :=
  flushAt 1 480000 ++ flushAt 2 480001 ++ flushAt 3 480002 ++ flushAt 4 480003

/-- In the fourth hour all four tables are selected, the one just created included. -/
theorem quietHours_mixed : ∃ e₀, openEngine hourly {} = .ok e₀ ∧
    ¬ (quietHours.foldl (Timed.next .insertion) ⟨e₀, fun _ => 0⟩).RespectsWindows .insertion
      (480003 * (3600 * 1000000000)) := by
  have h : ∃ e₀, openEngine hourly {} = .ok e₀ ∧
      ∃ inputs ∈ (quietHours.foldl (Timed.next .insertion) ⟨e₀, fun _ => 0⟩).eng.twcsInputs
        .insertion (480003 * (3600 * 1000000000)), ∃ t ∈ inputs,
        (quietHours.foldl (Timed.next .insertion) ⟨e₀, fun _ => 0⟩).window t =
          (quietHours.foldl (Timed.next .insertion) ⟨e₀, fun _ => 0⟩).windowAt
            (480003 * (3600 * 1000000000)) := by
    decide +kernel
  obtain ⟨e₀, hopen, inputs, hin, t, ht, hnow⟩ := h
  refine ⟨e₀, hopen, fun hrespect => ?_⟩
  obtain ⟨w, hw, hall⟩ := hrespect inputs hin
  exact hw ((hall t ht).symm.trans hnow)

end LsmTree
