import LsmTree.Correct.Replace
import LsmTree.Property.AppliedIndex

/-!
# A crash while a snapshot is installed

`Restore` replaces the engine's directory file by file, and `OpenRaftNode` opens the engine on that
directory before Raft can hand over the snapshot again.  The old manifest is the last of the old
files to go, so for a while it lists tables that are gone.  Only a node without tables survives a
crash at every point (`restore_crash_iff`).
-/

namespace LsmTree

open Run

variable {cfg : Config} {log : CommittedLog} {d : MemberDisk} {x : Member}

/-- The directories that a crash can leave while `Restore` replaces `old`, the directory of the
closed engine, by `new`: some files are removed or copied; the engine is being opened; or it is open
and has worked by itself for a while, but the index is not saved. -/
inductive RestoreCrash (cfg : Config) (old new : DataDir) : DataDir → Prop
  | replacing (done : ℕ) : RestoreCrash cfg old new (old.replaceUpTo new done)
  | opening (done : ℕ) : RestoreCrash cfg old new ((old.replaceAll new).halfOpened cfg done)
  | opened {e e' : LSMEngine} {evs : List Event}
      (hroom : OpenRoom cfg.withDefaults (old.replaceAll new))
      (hopen : openEngine cfg (old.replaceAll new) = .ok e)
      (hback : ∀ ev ∈ evs, ev.background = true) (hvalid : e.ValidRun evs)
      (hrun : e.run evs = .ok e') : RestoreCrash cfg old new e'.dir

/-- The member starts, and holds the committed commands whenever it has caught up. -/
def MemberDisk.Survives (cfg : Config) (log : CommittedLog) (d : MemberDisk) : Prop :=
  (∃ x, d.start cfg = .ok x) ∧
    ∀ events, Along (MemberState.next cfg log) (MemberState.Allowed cfg) (.down d) events →
      (events.foldl (MemberState.next cfg log) (.down d)).HoldsLog cfg log

/-! ### Starting with a snapshot -/

theorem MemberDisk.complete_of_start (h : d.start cfg = .ok x) : d.dir.Complete := by
  refine (@openEngine_ok_iff cfg d.dir).1 ?_
  unfold MemberDisk.start openReplica at h
  cases hopen : openEngine cfg d.dir with
  | error err =>
    rw [hopen] at h
    cases h
  | ok e => exact ⟨e, rfl⟩

theorem MemberDisk.start_of_complete {s : EngineSnapshot × ℕ} (h : d.dir.Complete)
    (hd : d.snap = some s) (hs : s.1.dir.Complete) : ∃ x, d.start cfg = .ok x := by
  obtain ⟨e, hopen⟩ := (@openEngine_ok_iff cfg d.dir).2 h
  obtain ⟨e', hopen'⟩ := (@openEngine_ok_iff cfg s.1.dir).2 hs
  obtain ⟨s, k⟩ := s
  unfold MemberDisk.start openReplica
  simp only [hopen, hd, EngineSnapshot.restore, hopen']
  exact ⟨_, rfl⟩

theorem MemberDisk.survives_of_complete {s : EngineSnapshot × ℕ} {t : MapSnapshot}
    (hsync : cfg.syncWAL = true) (hlive : ∀ y ∈ log.entries, y.LiveValues)
    (hfor : EngineSnapshot.For cfg s t) (hres : log.Resumes cfg.withDefaults.maxValueSize t.map
      (max t.handed (log.coveredBy t.applied)))
    (h : d.dir.Complete) (hd : d.snap = some s) : d.Survives cfg log := by
  obtain ⟨z, hz⟩ := @MemberDisk.start_of_complete cfg d s h hd hfor.dir.complete
  refine ⟨⟨z, hz⟩, fun events hrun => ?_⟩
  have hnew := MapMember.sound_new log cfg.withDefaults.maxValueSize
  have hsound : ({ snap := some t } : MapMember).Sound log cfg.withDefaults.maxValueSize :=
    ⟨hnew.resumes, hnew.stored, hnew.pc, fun u hu => by cases hu; exact hres⟩
  -- until it is started the member is as the crash left it
  have hinv := hrun.invariant (fun s => s = .down d ∨ s.OnTrack cfg log) (Or.inl rfl)
    (fun st ev hst hok => by
      rcases hst with rfl | hst
      · cases ev with
        | restart =>
          have hroom : d.Room cfg := hok
          obtain ⟨z', hstart, hz'⟩ := MemberDisk.start_snapshot (a := { snap := some t })
            ((@openEngine_ok_iff cfg d.dir).2 h) hd rfl hfor hsync (hroom.2 _ hd) log
            cfg.withDefaults.maxValueSize
          have hnext : (MemberState.down d).next cfg log .restart = .up z' := by
            simp only [MemberState.next, hstart]
          rw [hnext]
          exact Or.inr ⟨_, hz', hsound.next .restart⟩
        | _ => exact Or.inl rfl
      · exact Or.inr (hst.next hsync hlive hok))
  rcases hinv with hdown | htrack
  · rw [hdown]
    exact fun _ => ⟨z, hz⟩
  · exact htrack.holdsLog hsync

/-! ### The crash -/

theorem RestoreCrash.complete {old new dir : DataDir} {m : Bytes → Option Bytes}
    (h : RestoreCrash cfg old new dir) (hsync : cfg.syncWAL = true)
    (hnew : DiskInv new cfg.maxLevel m) (hold : old.torn = false ∧ old.version.tables = []) :
    dir.Complete := by
  have hall := hnew.replaceAll old
  cases h with
  | replacing done => exact (complete_replaceUpTo_iff hnew.complete).2 hold done
  | opening done => exact hall.complete.recoverOps.take done
  | opened hroom hopen hback hvalid hrun =>
    obtain ⟨e, hopen', -, hgood⟩ := hall.open_good hsync hroom
    rw [hopen] at hopen'
    cases hopen'
    obtain ⟨e', hrun', hgood'⟩ := hgood.run hvalid
    rw [hrun] at hrun'
    cases hrun'
    exact hgood'.inv.disk.complete

/-- **Crashes during a restore.** Let a member be restored from a snapshot that some member took in
a run of the same log.  It survives a crash at every point, if and only if the directory that it
closed its engine with has a manifest that can be read and lists no table. -/
theorem restore_crash_iff {events : List MemberEvent} {y : Member} {s : EngineSnapshot} {k : ℕ}
    (hsync : cfg.syncWAL = true) (hmax : cfg.maxLevel ≤ maxLevels)
    (hlive : ∀ z ∈ log.entries, z.LiveValues)
    (hrun : Along (MemberState.next cfg log) (MemberState.Allowed cfg) (.down {}) events)
    (hy : events.foldl (MemberState.next cfg log) (.down {}) = .up y)
    (hs : y.snap = some (s, k)) (x : Member) (drained : ℕ) :
    (∀ dir, RestoreCrash cfg (x.replica.eng.close drained) s.dir dir →
      (MemberDisk.mk dir x.replica.stored (some (s, k))).Survives cfg log) ↔
      (x.replica.eng.close drained).torn = false ∧
        (recoverVersion (x.replica.eng.close drained).edits).tables = [] := by
  have htrack := MemberState.onTrack_run hsync hmax hlive hrun
  rw [hy] at htrack
  obtain ⟨a, hfor, hsound⟩ := htrack
  have hsnap := hfor.snap
  rw [hs] at hsnap
  cases ha : a.snap with
  | none =>
    rw [ha] at hsnap
    cases hsnap
  | some t =>
    rw [ha] at hsnap
    have hst : EngineSnapshot.For cfg (s, k) t := Option.rel_some_some.1 hsnap
    constructor
    · intro hall
      refine (complete_replaceUpTo_iff hst.dir.complete).1 (fun done => ?_)
      obtain ⟨⟨z, hz⟩, -⟩ := hall _ (.replacing done)
      exact MemberDisk.complete_of_start hz
    · intro hold dir hdir
      exact MemberDisk.survives_of_complete hsync hlive hst (hsound.snap t ha)
        (hdir.complete hsync hst.dir hold) rfl

/-- A member applies its only entry and takes a snapshot. -/
def snapshotRun : List MemberEvent := [.restart, .apply, .save true, .update, .snapshot 0 true]

/-- Its entry is in the log; it survives. -/
theorem snapshotRun_survives : ∃ y s k,
    snapshotRun.foldl (MemberState.next {} oneLog) (.down {}) = .up y ∧ y.snap = some (s, k) ∧
    ∀ dir, RestoreCrash {} (y.replica.eng.close 0) s.dir dir →
      (MemberDisk.mk dir y.replica.stored (some (s, k))).Survives {} oneLog :=
  ⟨_, _, _, rfl, rfl, (@restore_crash_iff {} oneLog snapshotRun _ _ _ rfl (by decide) (by decide)
    (by decide +kernel) rfl rfl _ 0).2 ⟨rfl, rfl⟩⟩

instance decidableExistsUp (st : MemberState) (P : Member → Prop) [DecidablePred P] :
    Decidable (∃ y, st = .up y ∧ P y) :=
  match st with
  | .up x => decidable_of_iff (P x) ⟨fun h => ⟨x, rfl, h⟩, fun ⟨_, hy, h⟩ => by cases hy; exact h⟩
  | .closed _ | .down _ => isFalse (fun ⟨_, hy, _⟩ => by cases hy)

def flushedRun : List MemberEvent :=
  [.restart, .apply, .save true, .update, .engine .rotate, .engine .flush, .snapshot 0 true]

/-- The member is restored from its own snapshot, and crashes after the removal of the first file,
its table.  It cannot be started any more. -/
theorem flushedRun_lost :
    Along (MemberState.next {} oneLog) (MemberState.Allowed {}) (.down {}) flushedRun ∧
    ∃ y, flushedRun.foldl (MemberState.next {} oneLog) (.down {}) = .up y ∧ ∃ s ∈ y.snap,
      ∃ dir, RestoreCrash {} (y.replica.eng.close 0) s.1.dir dir ∧
        ¬ (MemberDisk.mk dir y.replica.stored (some s)).Survives {} oneLog := by
  have hstart : ∃ y, flushedRun.foldl (MemberState.next {} oneLog) (.down {}) = .up y ∧
      ∃ s ∈ y.snap, ∀ z, (MemberDisk.mk ((y.replica.eng.close 0).replaceUpTo s.1.dir 1)
        y.replica.stored (some s)).start {} = .ok z → False := by
    decide +kernel
  obtain ⟨y, hy, s, hs, hfail⟩ := hstart
  refine ⟨by decide +kernel, y, hy, s, hs, _, .replacing 1, fun hsurvives => ?_⟩
  obtain ⟨z, hz⟩ := hsurvives.1
  exact hfail z hz

end LsmTree
