import LsmTree.Correct.Eviction

/-!
# Leveled compaction under any configuration

`runLeveledCompaction` (`internal/engine/background.go`) with the accesses to the levels of the
version checked: the array has seven, and `none` says that an index is out of range.  `Open` checks
neither `MaxLevels` nor `LevelSizeMultiplier`, so the loop can run past the array, and the budgets,
which are powers of the multiplier as words, can wrap around.  `leveled_well_defined_iff` says
exactly when neither happens.
-/

namespace LsmTree

/-- `version.Levels[i]`. -/
def Version.level? (v : Version) (i : ℕ) : Option (List SSTableMeta) :=
  if i < maxLevels then some (v.levels i) else none

def Config.sizeMultiplier (c : Config) : ℕ :=
  if 0 < c.levelSizeMultiplier then c.levelSizeMultiplier.toNat else 10

def Config.levelMaxSize (c : Config) (level : ℕ) : UInt64 :=
  (List.range (level - 1)).foldl (fun size _ => size * UInt64.ofNat c.sizeMultiplier)
    (10 * 1024 * 1024)

def totalSize (tables : List SSTableMeta) : UInt64 :=
  tables.foldl (fun total m => total + UInt64.ofNat m.fileSize) 0

/-- `compactLevel` with its accesses to the version. -/
def LSMEngine.compactLevel? (e : LSMEngine) (level : ℕ) (res rb : ℕ → WriteResult) :
    Option LSMEngine := do
  if e.cfg.maxLevel ≤ level + 1 then return e
  let tables ← e.current.level? level
  if tables = [] then return e
  let _ ← e.current.level? (level + 1)
  return (e.compactLevel level res rb).1

/-- One round of the loop: compact a level that is over its budget. -/
def LSMEngine.visitLevel (e : LSMEngine) (level : ℕ) (res rb : ℕ → WriteResult) :
    Option LSMEngine := do
  let tables ← e.current.level? level
  if e.cfg.levelMaxSize level < totalSize tables then e.compactLevel? level res rb else return e

/-- Level 0, and then levels 1 to `n`. -/
def LSMEngine.visitLevels (e : LSMEngine) (res rb : ℕ → ℕ → WriteResult) : ℕ → Option LSMEngine
  | 0 => do
    let tables ← e.current.level? 0
    if e.cfg.level0FileNumCompactionTrigger ≤ tables.length then
      e.compactLevel? 0 (res 0) (rb 0)
    else return e
  | n + 1 => (e.visitLevels res rb n).bind fun e => e.visitLevel (n + 1) (res (n + 1)) (rb (n + 1))

/-- One run of the compactor; the last level in effect is not compacted.  `res level` and `rb level`
are the results of the writes of the compaction of that level. -/
def LSMEngine.runLeveledCompaction (e : LSMEngine) (res rb : ℕ → ℕ → WriteResult) :
    Option LSMEngine :=
  e.visitLevels res rb (e.cfg.maxLevel - 2)

/-! ## The configuration stays -/

section

variable {e e' : LSMEngine}

variable {level : ℕ}

theorem applyAll_cfg (edits : List VersionEdit) (e : LSMEngine) (res : ℕ → WriteResult) :
    (e.applyAll edits res).1.cfg = e.cfg := by
  induction edits generalizing e res with
  | nil => rfl
  | cons edit edits ih =>
    have hone : (e.apply edit (res 0)).1.cfg = e.cfg := rfl
    unfold LSMEngine.applyAll
    rcases h : e.apply edit (res 0) with ⟨e₁, ok⟩
    rw [h] at hone
    cases ok with
    | false => exact hone
    | true => exact (ih e₁ _).trans hone

theorem applyIgnore_cfg (edits : List VersionEdit) (e : LSMEngine) (res : ℕ → WriteResult) :
    (e.applyIgnore edits res).cfg = e.cfg := by
  induction edits generalizing e res with
  | nil => rfl
  | cons edit edits ih => exact ih (e.apply edit (res 0)).1 _

theorem compactLevel_cfg (e : LSMEngine) (level : ℕ) (res rb : ℕ → WriteResult) :
    (e.compactLevel level res rb).1.cfg = e.cfg := by
  unfold LSMEngine.compactLevel LSMEngine.executeCompaction
  simp only
  split_ifs
  · rfl
  generalize e.planCompaction _ _ = p
  have hstage : (e.stageOutputs p).cfg = e.cfg := by rw [stageOutputs_eq]
  have hall := applyAll_cfg p.commitEdits (e.stageOutputs p) res
  rcases h : (e.stageOutputs p).applyAll p.commitEdits res with ⟨e₁, ok⟩
  rw [h] at hall
  cases ok with
  | true =>
    simp only [dropTables_eq]
    exact hall.trans hstage
  | false =>
    simp only [LSMEngine.rollback, applyIgnore_cfg, dropTables_eq]
    exact hall.trans hstage

/-! ## The levels that are accessed -/

theorem totalSize_nil : totalSize [] = 0 := rfl

theorem compactLevel?_of_lt (h : level < 6) (res rb : ℕ → WriteResult) :
    ∃ e', e.compactLevel? level res rb = some e' ∧ e'.cfg = e.cfg := by
  have hlevel : e.current.level? level = some (e.current.levels level) :=
    if_pos (show level < 7 by omega)
  have hnext : e.current.level? (level + 1) = some (e.current.levels (level + 1)) :=
    if_pos (show level + 1 < 7 by omega)
  simp only [LSMEngine.compactLevel?, hlevel, hnext, Option.bind_eq_bind, Option.bind_some,
    Option.pure_def]
  split_ifs
  · exact ⟨e, rfl, rfl⟩
  · exact ⟨e, rfl, rfl⟩
  · exact ⟨_, rfl, compactLevel_cfg ..⟩

theorem visitLevel_of_lt {level : ℕ} (h : level < 6) (res rb : ℕ → WriteResult) :
    ∃ e', e.visitLevel level res rb = some e' ∧ e'.cfg = e.cfg := by
  have hlevel : e.current.level? level = some (e.current.levels level) :=
    if_pos (show level < 7 by omega)
  simp only [LSMEngine.visitLevel, hlevel, Option.bind_eq_bind, Option.bind_some, Option.pure_def]
  split_ifs
  · exact compactLevel?_of_lt h res rb
  · exact ⟨e, rfl, rfl⟩

theorem visitLevel_six (hmax : e.cfg.maxLevel = 8) (res rb : ℕ → WriteResult) :
    (∃ e', e.visitLevel 6 res rb = some e') ↔
      totalSize (e.current.levels 6) ≤ e.cfg.levelMaxSize 6 := by
  have hlevel : e.current.level? 6 = some (e.current.levels 6) := if_pos (show 6 < 7 by omega)
  have hnext : e.current.level? (6 + 1) = none := if_neg (show ¬ 7 < 7 by omega)
  have hin : ¬ e.cfg.maxLevel ≤ 6 + 1 := by omega
  simp only [LSMEngine.visitLevel, LSMEngine.compactLevel?, hlevel, hnext, if_neg hin,
    Option.bind_eq_bind, Option.bind_some, Option.bind_none, Option.pure_def]
  by_cases hover : e.cfg.levelMaxSize 6 < totalSize (e.current.levels 6)
  · have hne : e.current.levels 6 ≠ [] := by
      intro hnil
      rw [hnil, totalSize_nil] at hover
      exact absurd hover (UInt64.not_lt_zero)
    simp [hover, hne]
  · simp [hover, UInt64.not_lt.1 hover]

theorem visitLevel_of_ge (h : 7 ≤ level) (res rb : ℕ → WriteResult) :
    e.visitLevel level res rb = none := by
  have hlevel : e.current.level? level = none := if_neg (show ¬ level < 7 by omega)
  simp only [LSMEngine.visitLevel, hlevel, Option.bind_eq_bind, Option.bind_none]

theorem visitLevels_of_le {n : ℕ} (h : n ≤ 5) (e : LSMEngine) (res rb : ℕ → ℕ → WriteResult) :
    ∃ e', e.visitLevels res rb n = some e' ∧ e'.cfg = e.cfg := by
  induction n with
  | zero =>
    have hlevel : e.current.level? 0 = some (e.current.levels 0) := if_pos (show 0 < 7 by omega)
    simp only [LSMEngine.visitLevels, hlevel, Option.bind_eq_bind, Option.bind_some,
      Option.pure_def]
    split_ifs
    · exact compactLevel?_of_lt (Nat.succ_pos 5) _ _
    · exact ⟨e, rfl, rfl⟩
  | succ n ih =>
    obtain ⟨e₁, h₁, hcfg₁⟩ := ih (by omega)
    obtain ⟨e₂, h₂, hcfg₂⟩ := @visitLevel_of_lt e₁ (n + 1) (by omega) (res (n + 1)) (rb (n + 1))
    exact ⟨e₂, by rw [LSMEngine.visitLevels, h₁, Option.bind_some, h₂], hcfg₂.trans hcfg₁⟩

theorem visitLevels_of_ge {n : ℕ} (h : 7 ≤ n) (e : LSMEngine) (res rb : ℕ → ℕ → WriteResult) :
    e.visitLevels res rb n = none := by
  obtain ⟨n, rfl⟩ : ∃ k, n = k + 1 := ⟨n - 1, by omega⟩
  rw [LSMEngine.visitLevels]
  cases e.visitLevels res rb n with
  | none => rfl
  | some e₁ => exact visitLevel_of_ge h _ _

/-- Every level of the configuration exists, or there is one level too many and the last that exists
is within its budget when its turn comes. -/
def LSMEngine.LevelsExist (e : LSMEngine) (res rb : ℕ → ℕ → WriteResult) : Prop :=
  e.cfg.maxLevel ≤ 7 ∨ e.cfg.maxLevel = 8 ∧ ∀ e', e.visitLevels res rb 5 = some e' →
    totalSize (e'.current.levels 6) ≤ e.cfg.levelMaxSize 6

theorem runLeveledCompaction_some_iff (res rb : ℕ → ℕ → WriteResult) :
    (∃ e', e.runLeveledCompaction res rb = some e') ↔ e.LevelsExist res rb := by
  unfold LSMEngine.runLeveledCompaction LSMEngine.LevelsExist
  rcases Nat.lt_trichotomy e.cfg.maxLevel 8 with hlt | heq | hgt
  · obtain ⟨e', h, -⟩ := @visitLevels_of_le (e.cfg.maxLevel - 2) (by omega) e res rb
    exact ⟨fun _ => .inl (by omega), fun _ => ⟨e', h⟩⟩
  · obtain ⟨e₅, h, hcfg⟩ := visitLevels_of_le le_rfl e res rb
    have hsix := @visitLevel_six e₅ (by rw [hcfg, heq]) (res 6) (rb 6)
    rw [heq, show 8 - 2 = 5 + 1 from rfl, LSMEngine.visitLevels, h, Option.bind_some, hsix, hcfg]
    simp
  · rw [visitLevels_of_ge (by omega)]
    simp
    omega

/-! ## Budgets -/

theorem levelMaxSize_toNat (c : Config) (level : ℕ) : (c.levelMaxSize level).toNat =
    10485760 * c.sizeMultiplier ^ (level - 1) % 2 ^ 64 := by
  unfold Config.levelMaxSize
  induction level - 1 with
  | zero => rfl
  | succ n ih =>
    rw [List.range_succ, List.foldl_append, List.foldl_cons, List.foldl_nil, UInt64.toNat_mul, ih,
      UInt64.toNat_ofNat', ← Nat.mul_mod, Nat.pow_succ c.sizeMultiplier, Nat.mul_assoc]

/-- The budget of the level is not above that of the next one. -/
def Config.BudgetGrows (c : Config) (level : ℕ) : Prop :=
  10485760 * c.sizeMultiplier ^ (level - 1) % 2 ^ 64 ≤ 10485760 * c.sizeMultiplier ^ level % 2 ^ 64

theorem levelMaxSize_le_iff (c : Config) (level : ℕ) :
    c.levelMaxSize level ≤ c.levelMaxSize (level + 1) ↔ c.BudgetGrows level := by
  rw [UInt64.le_iff_toNat_le, levelMaxSize_toNat, levelMaxSize_toNat]
  rfl

-- A multiplier of `2 ^ 43` gives level 2 the budget 0.
example : ¬ ({ levelSizeMultiplier := 2 ^ 43 } : Config).levelMaxSize 1 ≤
    ({ levelSizeMultiplier := 2 ^ 43 } : Config).levelMaxSize 2 := by decide

/-- **When leveled compaction is well defined**: no level is accessed that does not exist and the
budgets of the levels that are visited grow, exactly if the configured levels exist and no power of
the multiplier wraps around to a smaller one. -/
theorem leveled_well_defined_iff (e : LSMEngine) (res rb : ℕ → ℕ → WriteResult) :
    ((∃ e', e.runLeveledCompaction res rb = some e') ∧
        ∀ level, 1 ≤ level → level < e.cfg.maxLevel - 1 →
          e.cfg.levelMaxSize level ≤ e.cfg.levelMaxSize (level + 1)) ↔
      e.LevelsExist res rb ∧
        ∀ level, 1 ≤ level → level < e.cfg.maxLevel - 1 → e.cfg.BudgetGrows level := by
  simp only [runLeveledCompaction_some_iff, levelMaxSize_le_iff]

/-- With nine levels configured, the compactor of an empty store indexes one that is not there. -/
theorem nineLevels_out_of_range : ∃ e, openEngine { maxLevels := 9 } {} = .ok e ∧
    ∀ res rb, e.runLeveledCompaction res rb = none := by
  refine ⟨_, rfl, fun res rb => ?_⟩
  exact visitLevels_of_ge (by decide) _ res rb


end

end LsmTree
