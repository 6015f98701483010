import LsmTree.Correct.Steps
import LsmTree.Property.ReadBack

/-!
# The engine refines a map

A run interleaves client operations with whole background steps and restarts.  After any run in
which nothing exceeds its field, `Get` and `ScanWithError` answer from the map that the submitted
writes leave behind (`run_refines`); a table whose filter has `2 ^ 32` bits stops the run by a panic
(`wideFilter_panics`).
-/

namespace LsmTree

open Versioned

/-- One step of a sequential run.  A restart is a crash, or a `Close` during which the flush worker
gets through some of its queue, followed by an `Open`. -/
inductive Event
  | write (op : WriteOp)
  | get (key : Bytes)
  | scan (start stop : Bytes) (limit : ℤ)
  | rotate
  | flush
  | compact (level : ℕ)
  | restart (cfg : Config) (closed : Option ℕ)
  deriving DecidableEq, Repr

/-- The engine when `Close` has rotated the memtable out and `n` flushes are done. -/
def LSMEngine.closing (e : LSMEngine) (n : ℕ) : LSMEngine :=
  (fun e : LSMEngine => e.flushNext {})^[n]
    (if 0 < e.memTable.approximateSize then e.rotateMemTable.1 else e)

def LSMEngine.leftBehind (e : LSMEngine) : Option ℕ → DataDir
  | none => e.dir
  | some n => e.close n

/-- Carry out a step.  Rotations happen only when there is something to rotate: that is what the
callers of `rotateMemTable` check, or have just inserted. -/
def LSMEngine.step (e : LSMEngine) : Event → Except OpenError LSMEngine
  | .write op => .ok (e.submit op).1
  | .get key => .ok (e.get key).2
  | .scan start stop limit => .ok (e.scanWithError start stop limit).2
  | .rotate => .ok (if 0 < e.memTable.approximateSize then e.rotateMemTable.1 else e)
  | .flush => .ok (e.flushNext {})
  | .compact level => .ok (e.compactLevel level (fun _ => .ok) (fun _ => .ok)).1
  | .restart cfg closed => openEngine cfg (e.leftBehind closed)

def LSMEngine.run (e : LSMEngine) : List Event → Except OpenError LSMEngine
  | [] => .ok e
  | ev :: evs =>
    match e.step ev with
    | .error err => .error err
    | .ok e => e.run evs

/-- Registering a table does not exceed `MaxOpenFiles` in this step. -/
def LSMEngine.Room (e : LSMEngine) : Event → Prop
  | .flush => e.flushQueue ≠ [] → e.tc.entries.length < e.tc.cap
  | .compact level => e.tc.entries.length + (e.levelPlan level).outputs.length ≤ e.tc.cap
  | .restart cfg closed => OpenRoom cfg.withDefaults (e.leftBehind closed) ∧
      ∀ n, closed = some n → ∀ i < n, (e.closing i).flushQueue ≠ [] →
        (e.closing i).tc.entries.length < (e.closing i).tc.cap
  | _ => True

instance (cfg : Config) (d : DataDir) : Decidable (OpenRoom cfg d) :=
  inferInstanceAs (Decidable (_ ≤ _))

instance (e : LSMEngine) : (ev : Event) → Decidable (e.Room ev)
  | .write _ | .get _ | .scan _ _ _ | .rotate => isTrue trivial
  | .flush => inferInstanceAs (Decidable (e.flushQueue ≠ [] → _))
  | .compact _ => inferInstanceAs (Decidable (_ ≤ _))
  | .restart cfg none =>
    decidable_of_iff (OpenRoom cfg.withDefaults (e.leftBehind none))
      ⟨fun h => ⟨h, fun n hn => by cases hn⟩, fun h => h.1⟩
  | .restart cfg (some n) =>
    decidable_of_iff (OpenRoom cfg.withDefaults (e.leftBehind (some n)) ∧
        ∀ i < n, (e.closing i).flushQueue ≠ [] →
          (e.closing i).tc.entries.length < (e.closing i).tc.cap)
      ⟨fun h => ⟨h.1, fun k hk => by cases hk; exact h.2⟩, fun h => ⟨h.1, h.2 n rfl⟩⟩

/-- What the client may do: keys and values are not empty, and every `Open` uses synced logs and the
same number of levels. -/
def Event.Allowed (maxLevel : ℕ) : Event → Prop
  | .write op => op.Nonempty
  | .restart cfg _ => cfg.syncWAL = true ∧ cfg.maxLevel = maxLevel
  | _ => True

instance (maxLevel : ℕ) : (ev : Event) → Decidable (ev.Allowed maxLevel)
  | .write op => inferInstanceAs (Decidable op.Nonempty)
  | .restart _ _ => inferInstanceAs (Decidable (_ ∧ _))
  | .get _ | .scan _ _ _ | .rotate | .flush | .compact _ => isTrue trivial

/-- A run all of whose steps are allowed and have room. -/
def LSMEngine.ValidRun (e : LSMEngine) : List Event → Prop
  | [] => True
  | ev :: evs => ev.Allowed e.cfg.maxLevel ∧ e.Room ev ∧ ∀ e', e.step ev = .ok e' → e'.ValidRun evs

instance decidableForallOk {ε α : Type} (x : Except ε α) (P : α → Prop) [DecidablePred P] :
    Decidable (∀ a, x = .ok a → P a) :=
  match x with
  | .error _ => isTrue (fun _ h => by cases h)
  | .ok a => decidable_of_iff (P a) ⟨fun h b hb => by cases hb; exact h, fun h => h a rfl⟩

instance decidableExistsOk {ε α : Type} (x : Except ε α) (P : α → Prop) [DecidablePred P] :
    Decidable (∃ a, x = .ok a ∧ P a) :=
  match x with
  | .error _ => isFalse (fun ⟨_, h, _⟩ => by cases h)
  | .ok a => decidable_of_iff (P a)
    ⟨fun h => ⟨a, rfl, h⟩, fun ⟨_, hb, h⟩ => by cases hb; exact h⟩

instance decidableEqError {ε α : Type} [DecidableEq ε] (x : Except ε α) (err : ε) :
    Decidable (x = .error err) :=
  match x with
  | .error err' => decidable_of_iff (err' = err) ⟨congrArg _, Except.error.inj⟩
  | .ok _ => isFalse (fun h => by cases h)

instance decidableValidRun : (e : LSMEngine) → (evs : List Event) → Decidable (e.ValidRun evs)
  | _, [] => isTrue trivial
  | e, ev :: evs =>
    haveI : DecidablePred (fun e' : LSMEngine => e'.ValidRun evs) :=
      fun e' => decidableValidRun e' evs
    inferInstanceAs (Decidable (ev.Allowed e.cfg.maxLevel ∧ e.Room ev ∧
      ∀ e', e.step ev = .ok e' → e'.ValidRun evs))

/-- The updates submitted in a run, in order; writes with too large a value are rejected. -/
def submitted (cfg : Config) : List Event → List (Bytes × Option Bytes)
  | [] => []
  | .write op :: evs =>
    (if op.fits cfg.maxValueSize then op.updates else []) ++ submitted cfg evs
  | .restart cfg' _ :: evs => submitted cfg'.withDefaults evs
  | _ :: evs => submitted cfg evs

variable {e e' : LSMEngine} {m : Bytes → Option Bytes}

theorem Good.closing (h : Good e m) {n : ℕ} (hroom : ∀ i < n, (e.closing i).flushQueue ≠ [] →
    (e.closing i).tc.entries.length < (e.closing i).tc.cap) :
    Good (e.closing n) m ∧ (e.closing n).cfg = e.cfg := by
  induction n with
  | zero =>
    unfold LSMEngine.closing
    split_ifs with hsize
    · exact ⟨h.rotate (e.memTable.nonempty hsize), (rotateMemTable_fields e).1⟩
    · exact ⟨h, rfl⟩
  | succ n ih =>
    obtain ⟨hgood, hcfg⟩ := ih (fun i hi => hroom i (hi.trans (Nat.lt_succ_self n)))
    have hstep : e.closing (n + 1) = (e.closing n).flushNext {} :=
      Function.iterate_succ_apply' _ _ _
    obtain ⟨h1, h2, -⟩ := hgood.flushNext (hroom n (Nat.lt_succ_self n))
    rw [hstep]
    exact ⟨h1, h2.trans hcfg⟩

theorem Good.close (h : Good e m) {n : ℕ} (hroom : ∀ i < n, (e.closing i).flushQueue ≠ [] →
    (e.closing i).tc.entries.length < (e.closing i).tc.cap) :
    DiskInv (e.close n) e.cfg.maxLevel m := by
  obtain ⟨hgood, hcfg⟩ := h.closing hroom
  have hdisk := (hgood.inv.touchLog (e.closing n).logNumber).disk
  have hclose : e.close n = ((e.closing n).exec (.appendLog (e.closing n).logNumber [])).dir := by
    rw [← hgood.inv.walBuf]
    rfl
  rw [hclose, ← hcfg]
  exact hdisk

theorem Good.leftBehind (h : Good e m) {closed : Option ℕ}
    (hroom : ∀ n, closed = some n → ∀ i < n, (e.closing i).flushQueue ≠ [] →
      (e.closing i).tc.entries.length < (e.closing i).tc.cap) :
    DiskInv (e.leftBehind closed) e.cfg.maxLevel m := by
  cases closed with
  | none => exact h.inv.disk
  | some n => exact h.close (hroom n rfl)

/-- **Opening a directory** gives an engine for its map. -/
theorem DiskInv.open_good {cfg : Config} {d : DataDir} (h : DiskInv d cfg.maxLevel m)
    (hsync : cfg.syncWAL = true) (hroom : OpenRoom cfg.withDefaults d) :
    ∃ e, LsmTree.openEngine cfg d = .ok e ∧ e.cfg = cfg.withDefaults ∧ Good e m := by
  obtain ⟨e, hopen, hinv, -, -, himm, hqueue, hbg, hcfg, -⟩ := h.openEngine hsync hroom
  refine ⟨e, hopen, hcfg, hinv, by rw [himm, hqueue], ?_, hbg⟩
  rw [himm]
  exact fun i hi => by cases hi

/-- Reads, and steps that the engine takes by itself. -/
def Event.background : Event → Bool
  | .write _ | .restart _ _ => false
  | _ => true

/-- **Background steps** keep the map. -/
theorem Good.background (h : Good e m) {ev : Event} (hev : ev.background = true)
    (hroom : e.Room ev) : ∃ e', e.step ev = .ok e' ∧ e'.cfg = e.cfg ∧ Good e' m := by
  cases ev with
  | write op => cases hev
  | restart cfg closed => cases hev
  | get key => exact ⟨_, rfl, by rw [(readOnly_get e key).eq], h.readOnly (readOnly_get e key)⟩
  | scan start stop limit =>
    have hr := readOnly_scan e start stop limit
    exact ⟨_, rfl, by rw [hr.eq], h.readOnly hr⟩
  | rotate =>
    by_cases hsize : 0 < e.memTable.approximateSize
    · refine ⟨e.rotateMemTable.1, ?_, (rotateMemTable_fields e).1,
        h.rotate (e.memTable.nonempty hsize)⟩
      simp [LSMEngine.step, hsize]
    · exact ⟨e, by simp [LSMEngine.step, hsize], rfl, h⟩
  | flush =>
    obtain ⟨h1, h2, -⟩ := h.flushNext hroom
    exact ⟨_, rfl, h2, h1⟩
  | compact level =>
    obtain ⟨h1, h2, -⟩ := h.compactLevel hroom (fun _ => .ok)
    exact ⟨_, rfl, h2, h1⟩

/-- **One step of a run.** -/
theorem Good.step (h : Good e m) {ev : Event} (hok : ev.Allowed e.cfg.maxLevel)
    (hroom : e.Room ev) : ∃ e', e.step ev = .ok e' ∧ e'.cfg.maxLevel = e.cfg.maxLevel ∧
      (∀ evs, submitted e.cfg (ev :: evs) = submitted e.cfg [ev] ++ submitted e'.cfg evs) ∧
      Good e' (applyUpdates (submitted e.cfg [ev]) m) := by
  cases ev with
  | write op =>
    obtain ⟨h1, h2, -⟩ := h.submit hok
    refine ⟨_, rfl, by rw [h2], fun evs => ?_, ?_⟩
    · rw [h2]
      simp [submitted]
    · have hset : applyUpdates (submitted e.cfg [.write op]) m =
          if op.fits e.cfg.maxValueSize then applyUpdates op.updates m else m := by
        simp only [submitted, List.append_nil]
        split_ifs <;> rfl
      rw [hset]
      exact h1
  | restart cfg closed =>
    have hdisk := h.leftBehind hroom.2
    rw [← hok.2] at hdisk
    obtain ⟨e', hopen, hcfg, hgood⟩ := hdisk.open_good hok.1 hroom.1
    refine ⟨e', hopen, ?_, fun evs => by rw [hcfg]; rfl, hgood⟩
    rw [hcfg]
    exact hok.2
  | get _ | scan _ _ _ | rotate | flush | compact _ =>
    obtain ⟨e', hstep, hcfg, hgood⟩ := h.background rfl hroom
    exact ⟨e', hstep, by rw [hcfg], fun evs => by rw [hcfg]; rfl, hgood⟩

/-- **A whole run.** -/
theorem Good.run (h : Good e m) {evs : List Event} (hvalid : e.ValidRun evs) :
    ∃ e', e.run evs = .ok e' ∧ Good e' (applyUpdates (submitted e.cfg evs) m) := by
  induction evs generalizing e m with
  | nil => exact ⟨e, rfl, h⟩
  | cons ev evs ih =>
    obtain ⟨hok, hroom, hrest⟩ := hvalid
    obtain ⟨e₁, hstep, -, hsub, h₁⟩ := h.step hok hroom
    obtain ⟨e', hrun, h'⟩ := ih h₁ (hrest e₁ hstep)
    refine ⟨e', ?_, ?_⟩
    · rw [LSMEngine.run, hstep]
      exact hrun
    · rw [hsub evs, applyUpdates_append]
      exact h'

theorem diskInv_empty {maxLevel : ℕ} (hmax : maxLevel ≤ maxLevels) :
    DiskInv {} maxLevel (fun _ => none) := by
  have hlog : ∀ id, logSet ({} : DataDir) id = ∅ := fun id => walVersions_nil
  have hwal : walSet ({} : DataDir) = ∅ := by
    ext x
    simp [walSet, hlog]
  have hlevels : ∀ i, (DataDir.version {}).levels i = [] := fun _ => rfl
  have hlevel : ∀ i, levelSet (DataDir.version {}) (DataDir.files {}) i = ∅ := fun i => by
    ext x
    simp [levelSet, hlevels]
  have hempty : union (walSet {} :: levelLayers (DataDir.version {}) (DataDir.files {})) =
      (∅ : Set Entry) := by
    ext x
    rw [union_cons, Set.mem_union, mem_union_levelLayers, hwal]
    simp [hlevel]
  refine ⟨⟨hmax, ⟨?_, ?_, List.Pairwise.nil, fun _ _ => List.Pairwise.nil, fun _ _ => rfl⟩, ?_, ?_,
    ?_, ?_⟩, ?_, rfl⟩
  · intro i t ht; cases ht
  · intro i j t ht; cases ht
  · rintro x ⟨A, hA, hx⟩
    rw [List.mem_singleton.1 hA, hwal] at hx
    cases hx
  · refine List.pairwise_of_forall_mem_list (fun A _ B hB x hx => ?_)
    have hx : x ∈ (∅ : Set Entry) := hempty ▸ ⟨B, hB, hx⟩
    cases hx
  · rw [List.cons_append, List.nil_append, hempty]
    exact fun x hx => by cases hx
  · rw [List.cons_append, List.nil_append, hempty]
    refine fun k => Or.inr ⟨?_, rfl⟩
    rintro ⟨x, hx, -⟩
    cases hx
  · rintro x ⟨i, hx⟩
    rw [hlevel] at hx
    cases hx

theorem openEngine_empty {cfg : Config} (hmax : cfg.maxLevel ≤ maxLevels)
    (hsync : cfg.syncWAL = true) :
    ∃ e, openEngine cfg {} = .ok e ∧ e.cfg = cfg.withDefaults ∧ Good e (fun _ => none) := by
  have hroom : OpenRoom cfg.withDefaults {} := by
    unfold OpenRoom
    have hno : ¬ oversized cfg.withDefaults {} := fun hc => hc.2 rfl
    rw [if_neg hno]
    exact Nat.zero_le _
  exact (diskInv_empty hmax).open_good hsync hroom

theorem run_good {cfg : Config} {evs : List Event} (hmax : cfg.maxLevel ≤ maxLevels)
    (hsync : cfg.syncWAL = true)
    (hvalid : ∀ e, openEngine cfg {} = .ok e → e.ValidRun evs) :
    ∃ e₀, openEngine cfg {} = .ok e₀ ∧ ∃ e, e₀.run evs = .ok e ∧
      Good e (lastUpdate (submitted cfg.withDefaults evs)) := by
  obtain ⟨e₀, hopen, hcfg, h₀⟩ := openEngine_empty hmax hsync
  obtain ⟨e, hrun, h⟩ := h₀.run (hvalid e₀ hopen)
  rw [hcfg, applyUpdates_eq_lastUpdate] at h
  exact ⟨e₀, hopen, e, hrun, h⟩

/-! ## Fixed-width fields -/

/-- The tables that the flush worker builds next, with the configuration of the builder. -/
def LSMEngine.flushBuilds (e : LSMEngine) : List (Config × SSTableMeta × SSTable) :=
  match e.flushQueue with
  | [] => []
  | imm :: _ => (flushTables e.cfg imm.table).map (Prod.mk e.cfg)

def LSMEngine.builds (e : LSMEngine) : Event → List (Config × SSTableMeta × SSTable)
  | .flush => e.flushBuilds
  | .compact level => (e.levelPlan level).outputs.map (Prod.mk e.cfg)
  | .restart cfg closed =>
    (List.range (closed.getD 0)).flatMap (fun i => (e.closing i).flushBuilds) ++
      (openTables cfg.withDefaults (e.leftBehind closed)).map (Prod.mk cfg.withDefaults)
  | .write _ | .get _ | .scan _ _ _ | .rotate => []

inductive Stop
  | panic (h : Table.Halt)
  | openFailed (err : OpenError)
  deriving DecidableEq, Repr

/-- Carry out a step, or panic in one of its builders. -/
def LSMEngine.checkedStep (e : LSMEngine) (ev : Event) : Except Stop LSMEngine := do
  ((e.builds ev).forM (fun b => checkTable b.1 b.2)).mapError Stop.panic
  (e.step ev).mapError Stop.openFailed

def LSMEngine.checkedRun (e : LSMEngine) (evs : List Event) : Except Stop LSMEngine :=
  evs.foldlM LSMEngine.checkedStep e

/-- The tables of a step fit, and so does the directory that a restart finds. -/
def LSMEngine.Fits (e : LSMEngine) (ev : Event) : Prop :=
  (∀ b ∈ e.builds ev, TableFits b.1 b.2) ∧
    match ev with
    | .restart _ closed => (e.leftBehind closed).Fits
    | _ => True

/-- The directory that a restart finds is read back from its bytes. -/
def LSMEngine.ReadsBack (crc : Bytes → UInt32) (e : LSMEngine) : Event → Prop
  | .restart _ closed => (e.leftBehind closed).ReadBack crc
  | _ => True

def LSMEngine.AlongRun (P : LSMEngine → Event → Prop) (e : LSMEngine) : List Event → Prop
  | [] => True
  | ev :: evs => P e ev ∧ ∀ e', e.step ev = .ok e' → e'.AlongRun P evs

instance (e : LSMEngine) : (ev : Event) → Decidable (e.Fits ev)
  | .restart _ _ => inferInstanceAs (Decidable (_ ∧ DataDir.Fits _))
  | .write _ | .get _ | .scan _ _ _ | .rotate | .flush | .compact _ =>
    inferInstanceAs (Decidable (_ ∧ True))

instance decidableAlongRun (P : LSMEngine → Event → Prop) [∀ e ev, Decidable (P e ev)] :
    (e : LSMEngine) → (evs : List Event) → Decidable (e.AlongRun P evs)
  | _, [] => isTrue trivial
  | e, ev :: evs =>
    haveI : DecidablePred (fun e' : LSMEngine => e'.AlongRun P evs) :=
      fun e' => decidableAlongRun P e' evs
    inferInstanceAs (Decidable (P e ev ∧ ∀ e', e.step ev = .ok e' → e'.AlongRun P evs))

theorem LSMEngine.AlongRun.mono {P Q : LSMEngine → Event → Prop} {evs : List Event}
    (h : e.AlongRun P evs) (hpq : ∀ e ev, P e ev → Q e ev) : e.AlongRun Q evs := by
  induction evs generalizing e with
  | nil => trivial
  | cons ev evs ih => exact ⟨hpq e ev h.1, fun e' hstep => ih (h.2 e' hstep)⟩

theorem forM_ok {ε α : Type} {f : α → Except ε PUnit} {xs : List α} (h : ∀ x ∈ xs, f x = .ok ⟨⟩) :
    xs.forM f = .ok ⟨⟩ := by
  induction xs with
  | nil => rfl
  | cons x xs ih =>
    obtain ⟨hx, hrest⟩ := List.forall_mem_cons.1 h
    rw [List.forM, hx]
    exact ih hrest

/-- **A run in which everything fits does not panic.** -/
theorem checkedRun_eq {evs : List Event} (hfits : e.AlongRun LSMEngine.Fits evs)
    (hrun : e.run evs = .ok e') : e.checkedRun evs = .ok e' := by
  induction evs generalizing e with
  | nil => exact congrArg Except.ok (Except.ok.inj hrun)
  | cons ev evs ih =>
    rw [LSMEngine.run] at hrun
    cases hstep : e.step ev with
    | error err =>
      rw [hstep] at hrun
      cases hrun
    | ok e₁ =>
      rw [hstep] at hrun
      have hchecked : e.checkedStep ev = .ok e₁ := by
        rw [LSMEngine.checkedStep, forM_ok fun b hb => (hfits.1.1 b hb).1, hstep]
        rfl
      rw [LSMEngine.checkedRun, List.foldlM_cons, hchecked]
      exact ih (hfits.2 e₁ hstep) hrun

/-- **Sequential refinement.** After any run of writes, reads, rotations, flushes, leveled
compactions and restarts that starts on a new directory and in which everything fits, `Get` returns
the last value written for the key, and a scan the live pairs of its range in order.  No builder has
panicked, and every restart has read back what was written. -/
theorem run_refines {cfg : Config} {evs : List Event} (hmax : cfg.maxLevel ≤ maxLevels)
    (hsync : cfg.syncWAL = true)
    (hvalid : ∀ e, openEngine cfg {} = .ok e → e.ValidRun evs)
    (hfits : ∀ e, openEngine cfg {} = .ok e → e.AlongRun LSMEngine.Fits evs)
    (crc : Bytes → UInt32) :
    ∃ e₀ e, openEngine cfg {} = .ok e₀ ∧ e₀.checkedRun evs = .ok e ∧
      e₀.AlongRun (LSMEngine.ReadsBack crc) evs ∧
      (∀ k, (e.get k).1 = lookupResult (lastUpdate (submitted cfg.withDefaults evs) k)) ∧
      ∀ start stop limit, IsScan (lastUpdate (submitted cfg.withDefaults evs)) start stop limit
        (e.scanWithError start stop limit).1 := by
  obtain ⟨e₀, hopen, e, hrun, h⟩ := run_good hmax hsync hvalid
  refine ⟨e₀, e, hopen, checkedRun_eq (hfits e₀ hopen) hrun, (hfits e₀ hopen).mono ?_,
    h.inv.readable.get, h.inv.readable.scanWithError⟩
  intro e ev hev
  cases ev with
  | restart cfg closed => exact hev.2.readBack crc
  | write _ | get _ | scan _ _ _ | rotate | flush | compact _ => trivial

/-- A run with a batch, a deletion, a compaction, a close and a crash. -/
def sampleRun : List Event :=
  [.write (.put [1] [10]), .write (.put [2] [20]), .rotate, .flush, .write (.delete [1]),
    .write (.write [⟨[3], [30], false⟩, ⟨[3], [31], false⟩]), .rotate, .flush, .compact 0,
    .scan [] [] 0, .restart {} (some 1), .write (.put [1] [11]), .restart {} none, .get [1]]

theorem sampleRun_refines : ∃ e₀ e, openEngine {} {} = .ok e₀ ∧ e₀.checkedRun sampleRun = .ok e ∧
    e₀.AlongRun (LSMEngine.ReadsBack Crc32.checksumIEEE) sampleRun ∧
    (∀ k, (e.get k).1 =
      lookupResult (lastUpdate (submitted (Config.withDefaults {}) sampleRun) k)) ∧
    ∀ start stop limit, IsScan (lastUpdate (submitted (Config.withDefaults {}) sampleRun))
      start stop limit (e.scanWithError start stop limit).1 :=
  run_refines (by decide) rfl (by decide +kernel) (by decide +kernel) _

/-- One key and `2 ^ 32` bits for it. -/
theorem wideFilter_panics : ∃ e, openEngine { bloomBitsPerKey := 2 ^ 32 } {} = .ok e ∧
    e.ValidRun [.write (.put [1] [10]), .rotate, .flush] ∧
    e.checkedRun [.write (.put [1] [10]), .rotate, .flush] =
      .error (.panic .divideByZero) :=
  by decide +kernel

end LsmTree
