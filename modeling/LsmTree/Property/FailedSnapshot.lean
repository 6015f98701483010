import LsmTree.Cluster.Install

/-!
# A snapshot that fails

`Snapshot` and `Restore` close the engine early and install a new one late.  Whatever fails in
between leaves the node with a closed engine, and a failing save leaves it with the snapshot's map
and the old index.  Only what fails before the engine is closed is harmless
(`failed_snapshot_serves_iff`).
-/

namespace LsmTree

variable {cfg : Config} {r r' : Replica} {disk : DataDir}

def SameMap (e e' : LSMEngine) : Prop := ∀ k, (e'.get k).1 = (e.get k).1

/-- The node serves what it served before: an open engine with the same map, and the same applied
state. -/
def FsmState.Serves (st : FsmState) (r : Replica) : Prop :=
  match st with
  | .serving r' => SameMap r.eng r'.eng ∧ r'.applied = r.applied
  | .closed _ _ => False

theorem serves_self (r : Replica) : (FsmState.serving r).Serves r := ⟨fun _ => rfl, rfl⟩

theorem not_serves_closed : ¬ (FsmState.closed r' disk).Serves r := id

/-- `Snapshot` fails before the engine is closed, or not at all. -/
def SnapshotHarmless (cfg : Config) (r : Replica) (drained : ℕ) (fails : Option SnapshotStep) :
    Prop :=
  fails = some .stage ∨ fails = none ∧ ∃ eng, openEngine cfg (r.eng.close drained) = .ok eng

/-- `Restore` fails before the engine is closed, or not at all; or only the save fails, and the
snapshot holds what the node held. -/
def RestoreHarmless (cfg : Config) (r : Replica) (s : EngineSnapshot) (drained : ℕ)
    (fails : Option RestoreStep) : Prop :=
  fails = some .stage ∨ fails = some .extract ∨
    ∃ eng, openEngine cfg ((r.eng.close drained).replaceAll s.dir) = .ok eng ∧
      (fails = none ∨ fails = some .save ∧ SameMap r.eng eng)

theorem snapshot_serves_iff (drained : ℕ) (fails : Option SnapshotStep) :
    ((raftSnapshot cfg r drained fails).2 = none →
      (raftSnapshot cfg r drained fails).1.Serves r) ↔ SnapshotHarmless cfg r drained fails := by
  unfold SnapshotHarmless
  rcases fails with _ | _ | _ | _ | done
  · rcases hopen : openEngine cfg (r.eng.close drained) with err | eng
    · have hres : raftSnapshot cfg r drained none = (.closed r (r.eng.close drained), none) := by
        simp only [raftSnapshot, hopen]
      rw [hres]
      exact ⟨fun h => absurd (h rfl) not_serves_closed, fun h => by simp at h⟩
    · have hres : (raftSnapshot cfg r drained none).2 ≠ none := by
        simp only [raftSnapshot, hopen]
        exact Option.some_ne_none _
      exact ⟨fun _ => Or.inr ⟨rfl, eng, rfl⟩, fun _ hc => absurd hc hres⟩
  · exact ⟨fun _ => Or.inl rfl, fun _ _ => serves_self r⟩
  · exact ⟨fun h => absurd (h rfl) not_serves_closed, fun h => by simp at h⟩
  · exact ⟨fun h => absurd (h rfl) not_serves_closed, fun h => by simp at h⟩
  · exact ⟨fun h => absurd (h rfl) not_serves_closed, fun h => by simp at h⟩

theorem restore_serves_iff (s : EngineSnapshot) (drained : ℕ) (fails : Option RestoreStep) :
    ((raftRestore cfg r s drained fails).2 = false →
      (raftRestore cfg r s drained fails).1.Serves r) ↔
      RestoreHarmless cfg r s drained fails := by
  unfold RestoreHarmless
  rcases fails with _ | _ | _ | _ | done | done | _
  · rcases hopen : openEngine cfg ((r.eng.close drained).replaceAll s.dir) with err | eng
    · have hres : raftRestore cfg r s drained none =
          (.closed r ((r.eng.close drained).replaceAll s.dir), false) := by
        simp only [raftRestore, hopen]
      rw [hres]
      exact ⟨fun h => absurd (h rfl) not_serves_closed, fun h => by simp at h⟩
    · have hres : (raftRestore cfg r s drained none).2 = true := by
        simp only [raftRestore, hopen]
      exact ⟨fun _ => Or.inr (Or.inr ⟨eng, rfl, Or.inl rfl⟩),
        fun _ hc => absurd (hc.symm.trans hres) Bool.false_ne_true⟩
  · exact ⟨fun _ => Or.inl rfl, fun _ _ => serves_self r⟩
  · exact ⟨fun _ => Or.inr (Or.inl rfl), fun _ _ => serves_self r⟩
  · exact ⟨fun h => absurd (h rfl) not_serves_closed, fun h => by simp at h⟩
  · exact ⟨fun h => absurd (h rfl) not_serves_closed, fun h => by simp at h⟩
  · exact ⟨fun h => absurd (h rfl) not_serves_closed, fun h => by simp at h⟩
  · -- the new engine is in place before the save
    rcases hopen : openEngine cfg ((r.eng.close drained).replaceAll s.dir) with err | eng
    · have hres : raftRestore cfg r s drained (some .save) =
          (.closed r ((r.eng.close drained).replaceAll s.dir), false) := by
        simp only [raftRestore, hopen]
      rw [hres]
      exact ⟨fun h => absurd (h rfl) not_serves_closed, fun h => by simp at h⟩
    · have hres : raftRestore cfg r s drained (some .save) =
          (.serving { r with eng := eng }, false) := by
        simp only [raftRestore, hopen]
      rw [hres]
      constructor
      · exact fun h => Or.inr (Or.inr ⟨eng, rfl, Or.inr ⟨rfl, (h rfl).1⟩⟩)
      · rintro (hc | hc | ⟨eng', heng, hc | ⟨-, hsame⟩⟩)
        · cases hc
        · cases hc
        · cases hc
        · cases heng
          exact fun _ => ⟨hsame, rfl⟩

/-- **Failed snapshots.** After an error of `Snapshot` or `Restore` the node serves what it served
before, if and only if the step that failed comes before the engine is closed, or it is the save
after a `Restore` that changed nothing. -/
theorem failed_snapshot_serves_iff (cfg : Config) (r : Replica) (drained : ℕ) :
    (∀ fails : Option SnapshotStep, ((raftSnapshot cfg r drained fails).2 = none →
      (raftSnapshot cfg r drained fails).1.Serves r) ↔ SnapshotHarmless cfg r drained fails) ∧
    ∀ (s : EngineSnapshot) (fails : Option RestoreStep),
      ((raftRestore cfg r s drained fails).2 = false →
        (raftRestore cfg r s drained fails).1.Serves r) ↔ RestoreHarmless cfg r s drained fails :=
  ⟨snapshot_serves_iff drained, fun s => restore_serves_iff s drained⟩

/-- A new node whose snapshot cannot be copied is left with a closed engine. -/
theorem failedCopy_closes : ∃ e, openEngine {} {} = .ok e ∧
    (raftSnapshot {} { eng := e } 0 (some .copy)).2 = none ∧
    ¬ (raftSnapshot {} { eng := e } 0 (some .copy)).1.Serves { eng := e } :=
  ⟨_, rfl, rfl, id⟩

end LsmTree
