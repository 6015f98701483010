import LsmTree.Lib.Run
import LsmTree.Correct.Member

/-!
# Replicas at the same index agree

Two members of a group apply the same log, each with its own engine, restarts and replays.  As long
as no write is taken and then reported as failed (in a write stall, or by a crash or an error before
the index is saved) and no flush fails, a member holds exactly the entries up to its applied index
between two calls of `Apply`, and so members at the same index agree (`replicas_agree`).
-/

namespace LsmTree

open KeyValue Run

variable {log : CommittedLog} {n : ℤ} {a : MapMember}

variable {s : AppliedState} {y : LogEntry} {cfg : Config}

/-! ### Maps that hold exactly the entries up to the index -/

theorem take_coveredBy (log : CommittedLog) (s : AppliedState) :
    log.entries.take (log.coveredBy s) = log.upTo s :=
  (List.prefix_iff_eq_take.1 (List.takeWhile_prefix _)).symm

theorem foldEntries_append (n : ℤ) (xs ys : List LogEntry) :
    foldEntries n (xs ++ ys) = applyAll (allUpdates n ys) (foldEntries n xs) := by
  unfold foldEntries
  rw [allUpdates_append, applyAll_append]

/-- The entries between the applied index and the position of Raft were rejected. -/
def CommittedLog.NothingBetween (log : CommittedLog) (n : ℤ) (s : AppliedState) (handed : ℕ) :
    Prop :=
  allUpdates n ((log.entries.take handed).drop (log.coveredBy s)) = []

/-- What a member holds, depending on where `Apply` is. -/
def MapMember.ExactAt (log : CommittedLog) (n : ℤ) (a : MapMember) : ApplyPc → Prop
  | .idle => a.stored = a.applied ∧ a.map = foldEntries n (log.upTo a.applied) ∧
      log.NothingBetween n a.applied a.handed
  | .written y => a.map = foldEntries n (log.entries.take a.handed) ∧
      ∃ i, a.handed = i + 1 ∧ log.entries[i]? = some y
  | .stored y => a.map = foldEntries n (log.entries.take a.handed) ∧
      (∃ i, a.handed = i + 1 ∧ log.entries[i]? = some y) ∧ a.stored = y.state

/-- The member holds exactly the entries up to the index, and so does its snapshot. -/
structure MapMember.Exact (log : CommittedLog) (n : ℤ) (a : MapMember) : Prop where
  now : a.ExactAt log n a.pc
  snap : ∀ s ∈ a.snap, s.map = foldEntries n (log.upTo s.applied) ∧
    log.NothingBetween n s.applied s.handed

/-- No write is taken and then reported as failed. -/
def MapMember.Steady (log : CommittedLog) (n : ℤ) (a : MapMember) : MapEvent → Prop
  | .apply ok => ok = false → ∀ y, log.entries[a.handed]? = some y →
      a.applied.lastAppliedIndex < y.index → y.updates n = []
  | .save ok => ok = true
  | .crash => ∀ y, a.pc ≠ .written y
  | _ => True

theorem CommittedLog.nothingBetween_of_le {handed : ℕ} (h : handed ≤ log.coveredBy s) :
    log.NothingBetween n s handed := by
  unfold CommittedLog.NothingBetween
  rw [List.drop_of_length_le ((List.length_take_le _ _).trans h)]
  rfl

theorem CommittedLog.NothingBetween.take_succ {i : ℕ} (h : log.NothingBetween n s i)
    (hle : log.coveredBy s ≤ i) (hy : log.entries[i]? = some y) :
    foldEntries n (log.entries.take (i + 1)) =
        applyAll (y.updates n) (foldEntries n (log.upTo s)) ∧
      (y.updates n = [] → log.NothingBetween n s (i + 1)) := by
  obtain ⟨hi, hget⟩ := List.getElem?_eq_some_iff.1 hy
  have hone : allUpdates n [y] = y.updates n := by simp [allUpdates]
  have hsucc : log.entries.take (i + 1) = log.entries.take i ++ [y] := by
    rw [List.take_succ_eq_append_getElem hi, hget]
  have hsplit : log.entries.take i =
      log.upTo s ++ (log.entries.take i).drop (log.coveredBy s) := by
    rw [← take_coveredBy, ← List.take_append_drop (log.coveredBy s) (log.entries.take i),
      List.take_take, min_eq_left hle, List.drop_append_of_le_length, List.drop_take_self,
      List.nil_append]
    rw [List.length_take]
    omega
  constructor
  · have hfold : foldEntries n (log.entries.take i) = foldEntries n (log.upTo s) := by
      rw [hsplit, foldEntries_append, show allUpdates n _ = [] from h]
      rfl
    rw [hsucc, foldEntries_append, hone, hfold]
  · intro hnil
    unfold CommittedLog.NothingBetween at h ⊢
    rw [hsucc, List.drop_append_of_le_length, allUpdates_append, h, hone, hnil]
    · rfl
    · rw [List.length_take]
      omega

theorem MapMember.Exact.apply (h : a.Exact log n) {ok : Bool} (hev : a.Steady log n (.apply ok)) :
    (a.next log n (.apply ok)).Exact log n := by
  obtain ⟨hnow, hsnap⟩ := h
  simp only [MapMember.next]
  cases ha : a.pc with
  | written y | stored y => exact ⟨hnow, hsnap⟩
  | idle =>
    cases hy : log.entries[a.handed]? with
    | none => exact ⟨hnow, hsnap⟩
    | some y =>
      rw [ha] at hnow
      obtain ⟨hst, hmap, hnone⟩ := hnow
      have hcov := log.lt_coveredBy hy a.applied
      simp only
      by_cases hle : y.index ≤ a.applied.lastAppliedIndex
      · rw [if_pos hle]
        exact ⟨⟨hst, hmap, log.nothingBetween_of_le (hcov.2 hle)⟩, hsnap⟩
      · rw [if_neg hle]
        have hge : log.coveredBy a.applied ≤ a.handed := not_lt.1 (fun hlt => hle (hcov.1 hlt))
        obtain ⟨hfold, hrej⟩ := hnone.take_succ hge hy
        rw [← hmap] at hfold
        cases ok with
        | true => exact ⟨⟨hfold.symm, a.handed, rfl, hy⟩, hsnap⟩
        | false =>
          have hnil := hev rfl y hy (not_le.1 hle)
          refine ⟨⟨hst, ?_, hrej hnil⟩, hsnap⟩
          change applyAll (y.updates n) a.map = _
          rw [hnil]
          exact hmap

/-- **One event.** -/
theorem MapMember.Exact.next (h : a.Exact log n) {ev : MapEvent} (hev : a.Steady log n ev) :
    (a.next log n ev).Exact log n := by
  obtain ⟨hnow, hsnap⟩ := h
  cases ev with
  | apply ok => exact MapMember.Exact.apply ⟨hnow, hsnap⟩ hev
  | save ok =>
    simp only [MapMember.next]
    cases ha : a.pc with
    | idle | stored y => exact ⟨hnow, hsnap⟩
    | written y =>
      rw [ha] at hnow
      rw [show ok = true from hev]
      exact ⟨⟨hnow.1, hnow.2, rfl⟩, hsnap⟩
  | update =>
    simp only [MapMember.next]
    cases ha : a.pc with
    | idle | written y => exact ⟨hnow, hsnap⟩
    | stored y =>
      rw [ha] at hnow
      obtain ⟨hmap, ⟨i, hi, hy⟩, hst⟩ := hnow
      have hcov : log.coveredBy y.state = a.handed := (log.coveredBy_state hy).trans hi.symm
      refine ⟨⟨hst, ?_, log.nothingBetween_of_le hcov.ge⟩, hsnap⟩
      change a.map = foldEntries n (log.upTo y.state)
      rw [← take_coveredBy, hcov]
      exact hmap
  | snapshot persisted =>
    simp only [MapMember.next]
    cases ha : a.pc with
    | written y | stored y => exact ⟨hnow, hsnap⟩
    | idle =>
      cases persisted with
      | false => exact ⟨hnow, hsnap⟩
      | true =>
        rw [ha] at hnow
        refine ⟨hnow, fun s hs => ?_⟩
        cases hs
        exact hnow.2
  | crash =>
    refine ⟨?_, hsnap⟩
    -- in memory the index is again the stored one, and the map holds the entries up to that
    have hmap : a.map = foldEntries n (log.upTo a.stored) := by
      cases ha : a.pc with
      | idle =>
        rw [ha] at hnow
        rw [hnow.1]
        exact hnow.2.1
      | written y => exact absurd ha (hev y)
      | stored y =>
        rw [ha] at hnow
        obtain ⟨hmap, ⟨i, hi, hy⟩, hst⟩ := hnow
        rw [hst, ← take_coveredBy, log.coveredBy_state hy, ← hi]
        exact hmap
    exact ⟨rfl, hmap, log.nothingBetween_of_le (Nat.zero_le _)⟩
  | restart =>
    simp only [MapMember.next]
    cases ha : a.snap with
    | none => exact ⟨hnow, fun s hs => by cases hs⟩
    | some s =>
      obtain ⟨hmap, hnone⟩ := hsnap s ha
      exact ⟨⟨rfl, hmap, hnone⟩, fun s' hs' => hsnap s' (ha.trans hs')⟩
  | other => exact ⟨hnow, hsnap⟩

theorem MapMember.exact_new (log : CommittedLog) (n : ℤ) : ({} : MapMember).Exact log n := by
  have hnil : log.upTo {} = [] := List.length_eq_zero_iff.1 log.coveredBy_zero
  refine ⟨⟨rfl, ?_, log.nothingBetween_of_le (Nat.zero_le _)⟩, fun s hs => by cases hs⟩
  rw [show ({} : MapMember).applied = {} from rfl, hnil]
  rfl

/-! ### Errors of the engine -/

def Member.stalls (log : CommittedLog) (x : Member) : Bool :=
  match log.entries[x.handed]? with
  | some y =>
    match y.data.op with
    | .ok op => decide (x.replica.applied.lastAppliedIndex < y.index) && x.replica.eng.stalls op
    | .error _ => false
  | none => false

def ApplyPc.isWritten : ApplyPc → Bool
  | .written _ => true
  | _ => false

/-- No entry is applied in a write stall, the index can be saved, and no crash falls between the
engine's write and the save. -/
def MemberState.Steady (cfg : Config) (log : CommittedLog) (s : MemberState) (ev : MemberEvent) :
    Prop :=
  s.Allowed cfg ev ∧
    match s, ev with
    | .up x, .apply => x.stalls log = false
    | .up _, .save ok => ok = true
    | .up x, .crash => x.pc.isWritten = false
    | _, _ => True

instance (cfg : Config) (log : CommittedLog) : (s : MemberState) → (ev : MemberEvent) →
    Decidable (s.Steady cfg log ev)
  | .up x, .apply => inferInstanceAs (Decidable (_ ∧ x.stalls log = false))
  | .up _, .save ok => inferInstanceAs (Decidable (_ ∧ ok = true))
  | .up x, .crash => inferInstanceAs (Decidable (_ ∧ x.pc.isWritten = false))
  | .up _, .update | .up _, .engine _ | .up _, .flushFails _ | .up _, .snapshot _ _
  | .up _, .restart | .closed _, _ | .down _, _ => inferInstanceAs (Decidable (_ ∧ True))

theorem Replica.updates_of_rejected {r : Replica} {m : Bytes → Option Bytes} (h : Good r.eng m)
    (hlt : r.applied.lastAppliedIndex < y.index)
    (hstall : ∀ op, y.data.op = .ok op → r.eng.stalls op = false)
    (hres : (r.applyEngine y).2.isNone = false) : y.updates r.eng.cfg.maxValueSize = [] := by
  unfold Replica.applyEngine at hres
  unfold LogEntry.updates Command.updates
  cases hvalid : y.data.validate with
  | error err => rfl
  | ok u =>
    rw [hvalid] at hres
    simp only at hres ⊢
    rw [if_neg (not_le.2 hlt)] at hres
    cases hop : y.data.op with
    | error name => rfl
    | ok op =>
      rw [hop] at hres
      simp only at hres ⊢
      cases hsub : r.eng.submit op with
      | mk e' res =>
        rw [hsub] at hres
        cases res with
        | ok u => cases hres
        | error err =>
          rw [LSMEngine.submit_error h.healthy hsub (hstall op hop)]
          rfl

theorem MemberState.Steady.map {s : MemberState} {ev : MemberEvent} (h : s.Steady cfg log ev)
    (hfor : s.For cfg a) : a.Steady log cfg.withDefaults.maxValueSize (s.mapEvent log ev) := by
  obtain ⟨-, h⟩ := h
  cases s with
  | closed d => exact hfor.elim
  | down d => cases ev <;> trivial
  | up x =>
    obtain ⟨-, hgood, hcfg, -, happ, hpc, hhanded, -⟩ := hfor
    cases ev with
    | apply =>
      intro hres y hy hlt
      rw [← hhanded] at hy
      rw [← happ] at hlt
      have hstall : x.stalls log = false := h
      unfold Member.stalls at hstall
      rw [hy] at hres hstall
      rw [← hcfg]
      refine Replica.updates_of_rejected hgood hlt (fun op hop => ?_) hres
      simpa [hop, hlt] using hstall
    | save ok => exact h
    | crash =>
      intro y hy
      have hno : x.pc.isWritten = false := h
      rw [hpc, hy] at hno
      cases hno
    | update | engine _ | flushFails _ | snapshot _ _ | restart => trivial

/-- **One member.** Between two calls of `Apply` it holds the entries up to its index. -/
theorem Member.exact_of_run {events : List MemberEvent} {x : Member} (hsync : cfg.syncWAL = true)
    (hmax : cfg.maxLevel ≤ maxLevels) (hlive : ∀ y ∈ log.entries, y.LiveValues)
    (hrun : Along (MemberState.next cfg log) (MemberState.Steady cfg log) (.down {}) events)
    (hx : events.foldl (MemberState.next cfg log) (.down {}) = .up x) (hidle : x.pc = .idle)
    (k : Bytes) : (x.replica.eng.get k).1 = lookupResult
      (foldEntries cfg.withDefaults.maxValueSize (log.upTo x.replica.applied) k) := by
  obtain ⟨a, hfor, hexact⟩ := hrun.invariant
    (fun s => ∃ a : MapMember, s.For cfg a ∧ a.Exact log cfg.withDefaults.maxValueSize)
    ⟨{}, MemberState.for_new hmax, MapMember.exact_new log _⟩
    (fun s ev h hok => by
      obtain ⟨a, hfor, hexact⟩ := h
      exact ⟨_, hfor.next hsync hlive hok.1, hexact.next (hok.map hfor)⟩)
  rw [hx] at hfor
  obtain ⟨-, hgood, -, -, happ, hpc, -, -⟩ := hfor
  have hnow := hexact.now
  rw [← hpc, hidle] at hnow
  rw [happ, ← hnow.2.1]
  exact hgood.inv.readable.get k

/-- The applied index and what a running member answers, between two calls of `Apply`. -/
def MemberState.idleGet (key : Bytes) : MemberState → Option (ℕ × Except EngineError Bytes)
  | .up ⟨r, .idle, _, _⟩ => some (r.applied.lastAppliedIndex, (r.eng.get key).1)
  | _ => none

theorem MemberState.idleGet_eq_some {s : MemberState} {key : Bytes} {i : ℕ}
    {v : Except EngineError Bytes} (h : s.idleGet key = some (i, v)) :
    ∃ x, s = .up x ∧ x.pc = .idle ∧ x.replica.applied.lastAppliedIndex = i ∧
      (x.replica.eng.get key).1 = v := by
  unfold MemberState.idleGet at h
  split at h
  · cases h
    exact ⟨_, rfl, rfl, rfl, rfl⟩
  · cases h

theorem CommittedLog.upTo_congr {t : AppliedState} (h : s.lastAppliedIndex = t.lastAppliedIndex) :
    log.upTo s = log.upTo t := by
  unfold CommittedLog.upTo
  rw [h]

/-- **Agreement.** Two members with the same limit for values that have applied the log up to the
same index, each with its own steps, restarts and replays, answer every read alike: with what the
entries up to the index leave behind. -/
theorem replicas_agree {log : CommittedLog} {cfg cfg' : Config} {events events' : List MemberEvent}
    (hsync : cfg.syncWAL = true) (hsync' : cfg'.syncWAL = true)
    (hmax : cfg.maxLevel ≤ maxLevels) (hmax' : cfg'.maxLevel ≤ maxLevels)
    (hsize : cfg.withDefaults.maxValueSize = cfg'.withDefaults.maxValueSize)
    (hlive : ∀ y ∈ log.entries, y.LiveValues)
    (hrun : Along (MemberState.next cfg log) (MemberState.Steady cfg log) (.down {}) events)
    (hrun' : Along (MemberState.next cfg' log) (MemberState.Steady cfg' log) (.down {}) events')
    (k : Bytes) (i : ℕ) (v v' : Except EngineError Bytes)
    (hv : (events.foldl (MemberState.next cfg log) (.down {})).idleGet k = some (i, v))
    (hv' : (events'.foldl (MemberState.next cfg' log) (.down {})).idleGet k = some (i, v')) :
    v = v' ∧ v = lookupResult (foldEntries cfg.withDefaults.maxValueSize
      (log.upTo { lastAppliedIndex := i }) k) := by
  obtain ⟨x, hx, hidle, hi, rfl⟩ := MemberState.idleGet_eq_some hv
  obtain ⟨x', hx', hidle', hi', rfl⟩ := MemberState.idleGet_eq_some hv'
  have h := Member.exact_of_run hsync hmax hlive hrun hx hidle k
  have h' := Member.exact_of_run hsync' hmax' hlive hrun' hx' hidle' k
  have hupTo : log.upTo x.replica.applied = log.upTo { lastAppliedIndex := i } :=
    CommittedLog.upTo_congr hi
  have hupTo' : log.upTo x'.replica.applied = log.upTo { lastAppliedIndex := i } :=
    CommittedLog.upTo_congr hi'
  rw [hupTo] at h
  rw [hupTo', ← hsize] at h'
  exact ⟨h.trans h'.symm, h⟩

def limitLog : CommittedLog where
  entries := [{ index := 1, data := { type := .put, key := [107], value := [49] } },
    { index := 2, data := { type := .put, key := [108], value := [50, 50, 50] } },
    { index := 4, data := { type := .put, key := [107], value := [51] } }]
  sorted := by decide
  positive := by decide

/-- A member with small memtables that flushes in time and takes a snapshot. -/
def flushingRun : List MemberEvent :=
  [.restart, .apply, .save true, .update, .engine .flush, .apply, .snapshot 1 true, .apply,
    .save true, .update]

/-- A member that crashes between the save and the update in memory, and replays. -/
def crashingRun : List MemberEvent :=
  [.restart, .apply, .save true, .crash, .restart, .apply, .apply, .apply, .save true, .crash,
    .restart, .apply]

theorem limitLog_agree : (Except.ok [51] : Except EngineError Bytes) = .ok [51] ∧
    .ok [51] = lookupResult (foldEntries 2 (limitLog.upTo { lastAppliedIndex := 4 }) [107]) :=
  @replicas_agree limitLog { memTableSize := 1, maxImmutableMemTables := 1, maxValueSize := 2 }
    { maxValueSize := 2 } flushingRun crashingRun rfl rfl (by decide) (by decide) rfl (by decide)
    (by decide +kernel) (by decide +kernel) [107] 4 (.ok [51]) (.ok [51])
    (by decide +kernel) (by decide +kernel)

def twoPuts : CommittedLog where
  entries := [{ index := 1, data := { type := .put, key := [107], value := [49] } },
    { index := 2, data := { type := .put, key := [108], value := [50] } }]
  sorted := by decide
  positive := by decide

/-- Every write fills the memtable, and only one may wait for its flush. -/
def tightConfig : Config := { memTableSize := 1, maxImmutableMemTables := 1 }

/-- The second put stalls on a member whose flush worker is late: its index stays behind, but the
value is there.  Another member at the same index does not have it. -/
theorem stalled_member_disagrees :
    (([.restart, .apply, .save true, .update, .apply] : List MemberEvent).foldl
      (MemberState.next tightConfig twoPuts) (.down {})).idleGet [108] = some (1, .ok [50]) ∧
    (([.restart, .apply, .save true, .update] : List MemberEvent).foldl
      (MemberState.next tightConfig twoPuts) (.down {})).idleGet [108] =
        some (1, .error .notFound) := by
  decide +kernel

end LsmTree
