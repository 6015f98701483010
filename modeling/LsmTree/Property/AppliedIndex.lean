import LsmTree.Lib.Run
import LsmTree.Correct.Member

/-!
# The applied index and the durable state

The engine's directory and `applied-state.json` are written one after the other, so after a crash
the engine may know more entries than the index says; carrying these out again does no harm.  With
synced logs it never knows less, and a member that has caught up holds the committed commands in
order (`caught_up_holds_log`).
-/

namespace LsmTree

open KeyValue Run

variable {log : CommittedLog} {n : ℤ} {m : Bytes → Option Bytes}

variable {p : ℕ}

/-! ### Where a map stands in the log -/

/-- Handing over the entries from position `p` on leads to the map of the log: when some more of
them are applied, the map is that of the entries so far. -/
def CommittedLog.Resumes (log : CommittedLog) (n : ℤ) (m : Bytes → Option Bytes) (p : ℕ) : Prop :=
  ∃ h, p ≤ h ∧ h ≤ log.entries.length ∧
    applyAll (allUpdates n ((log.entries.take h).drop p)) m = foldEntries n (log.entries.take h)

theorem CommittedLog.resumes_empty (log : CommittedLog) (n : ℤ) :
    log.Resumes n (fun _ => none) 0 := ⟨0, le_rfl, Nat.zero_le _, rfl⟩

theorem CommittedLog.Resumes.mono {q : ℕ} (h : log.Resumes n m p) (hq : q ≤ p) :
    log.Resumes n m q := by
  obtain ⟨t, hpt, hlen, hmap⟩ := h
  refine ⟨t, hq.trans hpt, hlen, ?_⟩
  set xs := log.entries.take t with hxs
  have hsplit : xs.drop q = (xs.take p).drop q ++ xs.drop p := by
    rw [← List.drop_append_of_le_length, List.take_append_drop]
    rw [List.length_take, hxs, List.length_take]
    omega
  have hall : allUpdates n xs =
      allUpdates n (xs.take q) ++ allUpdates n ((xs.take p).drop q) ++ allUpdates n
        (xs.drop p) := by
    rw [List.append_assoc, ← allUpdates_append, ← hsplit, ← allUpdates_append,
      List.take_append_drop]
  unfold foldEntries at hmap ⊢
  rw [hall] at hmap ⊢
  rw [hsplit, allUpdates_append]
  exact applyAll_again hmap

theorem CommittedLog.Resumes.apply {x : LogEntry} (h : log.Resumes n m p)
    (hx : log.entries[p]? = some x) : log.Resumes n (applyAll (x.updates n) m) (p + 1) := by
  obtain ⟨t, hpt, hlen, hmap⟩ := h
  have hp : p < log.entries.length := (List.getElem?_eq_some_iff.1 hx).1
  have hget : log.entries[p] = x := (List.getElem?_eq_some_iff.1 hx).2
  rcases hpt.eq_or_lt with rfl | hlt
  · -- nothing was ahead: the map is that of one more entry
    refine ⟨p + 1, le_rfl, hp, ?_⟩
    have hdrop : ∀ q, (log.entries.take q).drop q = [] := fun q => by
      rw [List.drop_eq_nil_iff, List.length_take]
      exact min_le_left _ _
    rw [hdrop] at hmap ⊢
    rw [List.take_succ_eq_append_getElem hp, hget]
    have hone : allUpdates n [x] = x.updates n := by simp [allUpdates]
    change _ = applyAll (allUpdates n (log.entries.take p ++ [x])) _
    have hmap : m = foldEntries n (log.entries.take p) := hmap
    rw [allUpdates_append, applyAll_append, hone, hmap]
    rfl
  · refine ⟨t, hlt, hlen, ?_⟩
    have hp' : p < (log.entries.take t).length := by
      rw [List.length_take]
      omega
    rw [List.drop_eq_getElem_cons hp', List.getElem_take, hget] at hmap
    rw [← hmap]
    change _ = applyAll (x.updates n ++ allUpdates n _) m
    rw [applyAll_append]

theorem CommittedLog.Resumes.complete (h : log.Resumes n m p) (hp : log.entries.length ≤ p) :
    m = foldEntries n log.entries := by
  obtain ⟨t, hpt, hlen, hmap⟩ := h
  rw [List.take_of_length_le (hp.trans hpt), List.drop_of_length_le hp] at hmap
  exact hmap


/-! ### Catching up -/

/-- Entries before this position were handed over, or will be skipped. -/
def MapMember.position (log : CommittedLog) (a : MapMember) : ℕ :=
  max a.handed (log.coveredBy a.applied)

/-- The entry in hand is the last one that was handed over. -/
def ApplyPc.Ok (log : CommittedLog) (handed : ℕ) (stored : AppliedState) : ApplyPc → Prop
  | .idle => True
  | .written y => ∃ i, handed = i + 1 ∧ log.entries[i]? = some y
  | .stored y => (∃ i, handed = i + 1 ∧ log.entries[i]? = some y) ∧ stored = y.state

/-- The rest of the log leads to the map of the whole log, also after a crash. -/
structure MapMember.Sound (log : CommittedLog) (n : ℤ) (a : MapMember) : Prop where
  resumes : log.Resumes n a.map (a.position log)
  stored : log.coveredBy a.stored ≤ a.position log
  pc : a.pc.Ok log a.handed a.stored
  snap : ∀ s ∈ a.snap, log.Resumes n s.map (max s.handed (log.coveredBy s.applied))

variable {a : MapMember}

theorem MapMember.Sound.apply (h : a.Sound log n) (ok : Bool) :
    (a.next log n (.apply ok)).Sound log n := by
  obtain ⟨hres, hst, hpc, hsnap⟩ := h
  simp only [MapMember.next]
  cases ha : a.pc with
  | written y | stored y => exact ⟨hres, hst, hpc, hsnap⟩
  | idle =>
    cases hy : log.entries[a.handed]? with
    | none => exact ⟨hres, hst, hpc, hsnap⟩
    | some y =>
      simp only
      have hcov := log.lt_coveredBy hy a.applied
      by_cases hle : y.index ≤ a.applied.lastAppliedIndex
      · -- a skipped entry is before the position already
        rw [if_pos hle]
        have hpos : max (a.handed + 1) (log.coveredBy a.applied) = a.position log := by
          have hlt := hcov.2 hle
          unfold MapMember.position
          omega
        refine ⟨?_, ?_, trivial, hsnap⟩
        · change log.Resumes n a.map (max _ _)
          rwa [hpos]
        · change _ ≤ max _ _
          rwa [hpos]
      · rw [if_neg hle]
        have hge : log.coveredBy a.applied ≤ a.handed := not_lt.1 (fun hlt => hle (hcov.1 hlt))
        have hpos : a.position log = a.handed := max_eq_left hge
        have hpos' : max (a.handed + 1) (log.coveredBy a.applied) = a.handed + 1 :=
          max_eq_left (hge.trans (Nat.le_succ _))
        rw [hpos] at hres hst
        refine ⟨?_, ?_, ?_, hsnap⟩
        · change log.Resumes n _ (max _ _)
          rw [hpos']
          exact hres.apply hy
        · change _ ≤ max _ _
          rw [hpos']
          exact hst.trans (Nat.le_succ _)
        · cases ok with
          | true => exact ⟨a.handed, rfl, hy⟩
          | false => trivial

/-- **One event.** -/
theorem MapMember.Sound.next (h : a.Sound log n) (ev : MapEvent) :
    (a.next log n ev).Sound log n := by
  obtain ⟨hres, hst, hpc, hsnap⟩ := h
  cases ev with
  | apply ok => exact MapMember.Sound.apply ⟨hres, hst, hpc, hsnap⟩ ok
  | save ok =>
    simp only [MapMember.next]
    cases ha : a.pc with
    | idle | stored y => exact ⟨hres, hst, hpc, hsnap⟩
    | written y =>
      rw [ha] at hpc
      cases ok with
      | false => exact ⟨hres, hst, trivial, hsnap⟩
      | true =>
        obtain ⟨i, hi, hy⟩ := hpc
        refine ⟨hres, ?_, ⟨⟨i, hi, hy⟩, rfl⟩, hsnap⟩
        change log.coveredBy y.state ≤ max a.handed _
        rw [log.coveredBy_state hy, ← hi]
        exact le_max_left _ _
  | update =>
    simp only [MapMember.next]
    cases ha : a.pc with
    | idle | written y => exact ⟨hres, hst, hpc, hsnap⟩
    | stored y =>
      rw [ha] at hpc
      obtain ⟨⟨i, hi, hy⟩, hstored⟩ := hpc
      have hpos : max a.handed (log.coveredBy y.state) = a.handed := by
        rw [log.coveredBy_state hy, ← hi, max_self]
      refine ⟨?_, ?_, trivial, hsnap⟩
      · change log.Resumes n a.map (max _ _)
        rw [hpos]
        exact hres.mono (le_max_left _ _)
      · change log.coveredBy a.stored ≤ max _ _
        rw [hpos, hstored, log.coveredBy_state hy, hi]
  | snapshot persisted =>
    simp only [MapMember.next]
    cases ha : a.pc with
    | written y | stored y => exact ⟨hres, hst, hpc, hsnap⟩
    | idle =>
      cases persisted with
      | false => exact ⟨hres, hst, hpc, hsnap⟩
      | true =>
        refine ⟨hres, hst, trivial, fun s hs => ?_⟩
        cases hs
        exact hres
  | crash =>
    have hpos : max 0 (log.coveredBy a.stored) = log.coveredBy a.stored :=
      max_eq_right (Nat.zero_le _)
    refine ⟨?_, le_max_right _ _, trivial, hsnap⟩
    change log.Resumes n a.map (max 0 (log.coveredBy a.stored))
    rw [hpos]
    exact hres.mono hst
  | restart =>
    simp only [MapMember.next]
    cases ha : a.snap with
    | none => exact ⟨hres, hst, hpc, fun s hs => by cases hs⟩
    | some s =>
      have hs := hsnap s ha
      exact ⟨hs, le_max_right _ _, trivial, fun s' hs' => hsnap s' (ha.trans hs')⟩
  | other => exact ⟨hres, hst, hpc, hsnap⟩

theorem MapMember.sound_new (log : CommittedLog) (n : ℤ) : ({} : MapMember).Sound log n := by
  have hpos : ({} : MapMember).position log = 0 := by
    change max 0 (log.coveredBy {}) = 0
    rw [log.coveredBy_zero, max_self]
  refine ⟨?_, ?_, trivial, fun s hs => by cases hs⟩
  · rw [hpos]
    exact log.resumes_empty n
  · rw [hpos]
    exact log.coveredBy_zero.le

/-- A running member that has caught up holds the committed commands in order.  A crashed one can be
started again, and none is left with a closed engine. -/
def MemberState.HoldsLog (cfg : Config) (log : CommittedLog) : MemberState → Prop
  | .up x => x.pc = .idle → x.handed = log.entries.length → ∀ k, (x.replica.eng.get k).1 =
      lookupResult (foldEntries cfg.withDefaults.maxValueSize log.entries k)
  | .closed _ => False
  | .down d => d.Room cfg → ∃ x, d.start cfg = .ok x

/-- The member stands for a map that the rest of the log completes. -/
def MemberState.OnTrack (cfg : Config) (log : CommittedLog) (s : MemberState) : Prop :=
  ∃ a : MapMember, s.For cfg a ∧ a.Sound log cfg.withDefaults.maxValueSize

section

variable {cfg : Config} {s : MemberState}

theorem MemberState.OnTrack.next (h : s.OnTrack cfg log) (hsync : cfg.syncWAL = true)
    (hlive : ∀ y ∈ log.entries, y.LiveValues) {ev : MemberEvent} (hok : s.Allowed cfg ev) :
    (s.next cfg log ev).OnTrack cfg log := by
  obtain ⟨a, hfor, hsound⟩ := h
  exact ⟨_, hfor.next hsync hlive hok, hsound.next _⟩

theorem MemberState.OnTrack.holdsLog (h : s.OnTrack cfg log) (hsync : cfg.syncWAL = true) :
    s.HoldsLog cfg log := by
  obtain ⟨a, hfor, hsound⟩ := h
  cases s with
  | up x =>
    intro _ hhanded k
    have hpos : log.entries.length ≤ a.position log := by
      rw [← hhanded, hfor.handed]
      exact le_max_left _ _
    rw [← hsound.resumes.complete hpos]
    exact hfor.good.inv.readable.get k
  | closed d => exact hfor
  | down d =>
    intro hroom
    obtain ⟨x, hstart, -⟩ := hfor.start hsync hroom log 0
    exact ⟨x, hstart⟩

/-- **Every state of a run.** -/
theorem MemberState.onTrack_run {events : List MemberEvent} (hsync : cfg.syncWAL = true)
    (hmax : cfg.maxLevel ≤ maxLevels) (hlive : ∀ y ∈ log.entries, y.LiveValues)
    (hrun : Along (MemberState.next cfg log) (MemberState.Allowed cfg) (.down {}) events) :
    (events.foldl (MemberState.next cfg log) (.down {})).OnTrack cfg log :=
  hrun.invariant (MemberState.OnTrack cfg log)
    ⟨{}, MemberState.for_new hmax, MapMember.sound_new log _⟩
    (fun _ _ h hok => h.next hsync hlive hok)

end

/-- **Crash and replay.** With synced logs, in every run of a member, with crashes between the steps
of `Apply`, snapshots, and restarts after which Raft hands the entries over again: once the member
has caught up, its engine holds what the committed commands leave behind in log order. -/
theorem caught_up_holds_log {cfg : Config} {log : CommittedLog} {events : List MemberEvent}
    (hsync : cfg.syncWAL = true) (hmax : cfg.maxLevel ≤ maxLevels)
    (hlive : ∀ y ∈ log.entries, y.LiveValues)
    (hrun : Along (MemberState.next cfg log) (MemberState.Allowed cfg) (.down {}) events) :
    (events.foldl (MemberState.next cfg log) (.down {})).HoldsLog cfg log :=
  (MemberState.onTrack_run hsync hmax hlive hrun).holdsLog hsync

def sampleLog : CommittedLog where
  entries := [{ index := 2, term := 1, data := { type := .put, key := [107], value := [49] } },
    { index := 3, term := 1, data := { type := .put, key := [107], value := [50] } },
    { index := 5, term := 2,
      data := { type := .writeBatch, entries := [⟨[107], [], true⟩, ⟨[108], [51], false⟩] } }]
  sorted := by decide
  positive := by decide

/-- A crash between the engine's write and the save, one after a snapshot, and the replays. -/
def replayRun : List MemberEvent :=
  [.restart, .apply, .save true, .update, .apply, .crash, .restart, .apply, .apply, .save true,
    .update, .snapshot 1 true, .apply, .save true, .crash, .restart, .apply, .save true, .update]

theorem replayRun_holds_log :
    (replayRun.foldl (MemberState.next {} sampleLog) (.down {})).HoldsLog {} sampleLog :=
  @caught_up_holds_log {} sampleLog replayRun rfl (by decide) (by decide) (by decide +kernel)

def MemberState.caughtUpGet (log : CommittedLog) (key : Bytes) :
    MemberState → Option (Except EngineError Bytes)
  | .up ⟨r, .idle, handed, _⟩ => if handed = log.entries.length then some
    (r.eng.get key).1 else none
  | _ => none

def oneLog : CommittedLog where
  entries := [{ index := 1, term := 1, data := { type := .put, key := [107], value := [49] } }]
  sorted := by decide
  positive := by decide

/-- The member crashes after `Apply` has returned, and has its only entry handed over again. -/
def forgetfulRun : List MemberEvent :=
  [.restart, .apply, .save true, .update, .crash, .restart, .apply]

/-- Without synced logs the write is gone with the buffer, and the entry is skipped. -/
theorem forgetfulRun_loses_put :
    Along (MemberState.next { syncWAL := false } oneLog)
      (MemberState.Allowed { syncWAL := false }) (.down {}) forgetfulRun ∧
    (forgetfulRun.foldl (MemberState.next { syncWAL := false } oneLog) (.down {})).caughtUpGet
      oneLog [107] = some (.error .notFound) ∧
    foldEntries (Config.withDefaults {}).maxValueSize oneLog.entries [107] = some [49] := by
  decide +kernel

end LsmTree
