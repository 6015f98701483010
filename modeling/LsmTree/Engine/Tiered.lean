import LsmTree.Engine.Compaction

/-!
# Size-tiered and time-window compaction (`internal/compaction/stcs.go`, `twcs.go`)

`stcsPickInputs` sorts tables by size, groups them into buckets of similar size and takes the first
bucket with enough tables.  `twcsPickInputs` groups tables by the window they were created in and
looks for a bucket in the oldest window that has enough tables and is not the current one.
`runSTCSCompaction` and `runTWCSCompaction` (`internal/engine/background.go`) move what is picked
from level 0 to level 1.

`sort.Slice` may leave tables of one size in any order; a `SizeSort` is one way of doing it.
-/

namespace LsmTree

structure SizeSort where
  sort : List SSTableMeta → List SSTableMeta
  perm : ∀ ms, (sort ms).Perm ms
  sorted : ∀ ms, (sort ms).Pairwise (fun a b => a.fileSize ≤ b.fileSize)

theorem sorted_insertionSort_size (ms : List SSTableMeta) :
    (ms.insertionSort (fun a b => a.fileSize ≤ b.fileSize)).Pairwise
      (fun a b => a.fileSize ≤ b.fileSize) := by
  have : Std.Total (fun a b : SSTableMeta => a.fileSize ≤ b.fileSize) :=
    ⟨fun a b => Nat.le_total _ _⟩
  have : IsTrans SSTableMeta (fun a b => a.fileSize ≤ b.fileSize) := ⟨fun _ _ _ => Nat.le_trans⟩
  exact List.pairwise_insertionSort _ _

/-- What `sort.Slice` does to few tables. -/
def SizeSort.insertion : SizeSort where
  sort ms := ms.insertionSort (fun a b => a.fileSize ≤ b.fileSize)
  perm := List.perm_insertionSort _
  sorted := sorted_insertionSort_size

/-! ### Size-tiered compaction -/

structure STCSConfig where
  minThreshold : ℤ
  maxThreshold : ℤ
  bucketLow : Float
  bucketHigh : Float

def defaultSTCSConfig : STCSConfig := ⟨4, 32, 0.5, 1.5⟩

/-- Whether the size of a table is near the average of a bucket. -/
def STCSConfig.fits (cfg : STCSConfig) (current : List SSTableMeta) (m : SSTableMeta) : Bool :=
  let total : UInt64 := current.foldl (fun total c => total + UInt64.ofNat c.fileSize) 0
  let avg := total.toFloat / Float.ofNat current.length
  let lo := avg * cfg.bucketLow
  let hi := avg * cfg.bucketHigh
  let sz := (UInt64.ofNat m.fileSize).toFloat
  decide (lo ≤ sz) && decide (sz ≤ hi)

/-- The loop over the sorted tables, with the buckets that are done and the current one. -/
def stcsBucketLoop (cfg : STCSConfig) :
    List SSTableMeta → List (List SSTableMeta) → List SSTableMeta → List (List SSTableMeta)
  | [], buckets, [] => buckets
  | [], buckets, c :: cs => buckets ++ [c :: cs]
  | m :: ms, buckets, [] => stcsBucketLoop cfg ms buckets [m]
  | m :: ms, buckets, c :: cs =>
    if cfg.fits (c :: cs) m then stcsBucketLoop cfg ms buckets (c :: cs ++ [m])
    else stcsBucketLoop cfg ms (buckets ++ [c :: cs]) [m]

def stcsGroupBuckets (srt : SizeSort) (sstables : List SSTableMeta) (cfg : STCSConfig) :
    List (List SSTableMeta) :=
  stcsBucketLoop cfg (srt.sort sstables) [] []

/-- At most `maxThreshold` tables, if that is positive. -/
def capInputs (maxThreshold : ℤ) (ms : List SSTableMeta) : List SSTableMeta :=
  if 0 < maxThreshold ∧ maxThreshold < ms.length then ms.take maxThreshold.toNat else ms

/-- The tables of the first bucket with at least `minThreshold` of them. -/
def stcsPickInputs (srt : SizeSort) (sstables : List SSTableMeta) (cfg : STCSConfig) :
    Option (List SSTableMeta) :=
  if (sstables.length : ℤ) < cfg.minThreshold then none
  else ((stcsGroupBuckets srt sstables cfg).find?
    (fun bucket => cfg.minThreshold ≤ bucket.length)).map (capInputs cfg.maxThreshold)

/-! ### Time-window compaction -/

/-- The parameters of the time-window strategy; times are in nanoseconds. -/
structure TWCSConfig where
  windowSize : ℤ
  minThreshold : ℤ
  maxThreshold : ℤ

def defaultTWCSConfig : TWCSConfig := ⟨24 * 3600 * 1000000000, 4, 32⟩

/-- The start of the window of a time.  The division rounds towards zero. -/
def twcsWindowStart (nanos windowSize : ℤ) : ℤ :=
  let windowNanos := if windowSize ≤ 0 then 24 * 3600 * 1000000000 else windowSize
  nanos.tdiv windowNanos * windowNanos

def twcsGroupWindows (sstables : List SSTableMeta) (windowSize ts : ℤ) : List SSTableMeta :=
  sstables.filter (fun s => twcsWindowStart s.createdAt windowSize = ts)

def twcsWindowStarts (sstables : List SSTableMeta) (windowSize : ℤ) : List ℤ :=
  (sstables.map (fun s => twcsWindowStart s.createdAt windowSize)).dedup.insertionSort (· ≤ ·)

/-- What is picked in one window: a bucket, or everything if there is none. -/
def twcsPickWindow (srt : SizeSort) (files : List SSTableMeta) (cfg : TWCSConfig) :
    Option (List SSTableMeta) :=
  if (files.length : ℤ) < cfg.minThreshold then none
  else
    match stcsPickInputs srt files ⟨cfg.minThreshold, cfg.maxThreshold, 0.5, 1.5⟩ with
    | some inputs => some inputs
    | none => some (capInputs cfg.maxThreshold files)

/-- The tables of the oldest window that has enough of them and is not the current one. -/
def twcsPickInputs (srt : SizeSort) (sstables : List SSTableMeta) (cfg : TWCSConfig) (now : ℤ) :
    Option (List SSTableMeta) :=
  if (sstables.length : ℤ) < cfg.minThreshold then none
  else
    (twcsWindowStarts sstables cfg.windowSize).findSome? (fun ts =>
      if ts = twcsWindowStart now cfg.windowSize then none
      else twcsPickWindow srt (twcsGroupWindows sstables cfg.windowSize ts) cfg)

/-! ### The engine's calls -/

/-- Compact what was picked, if anything, into level 1. -/
def LSMEngine.compactPicked (e : LSMEngine) (inputs : Option (List SSTableMeta))
    (res rb : ℕ → WriteResult) : LSMEngine × Bool :=
  match inputs with
  | none => (e, true)
  | some inputs => e.executeCompaction inputs 1 res rb

/-- The tables that `runSTCSCompaction` selects. -/
def LSMEngine.stcsInputs (e : LSMEngine) (srt : SizeSort) : Option (List SSTableMeta) :=
  stcsPickInputs srt (e.current.levels 0) defaultSTCSConfig

def LSMEngine.runSTCSCompaction (e : LSMEngine) (srt : SizeSort) (res rb : ℕ → WriteResult) :
    LSMEngine × Bool :=
  e.compactPicked (e.stcsInputs srt) res rb

def Config.twcs (cfg : Config) : TWCSConfig :=
  if 0 < cfg.timeWindowSize then { defaultTWCSConfig with windowSize := cfg.timeWindowSize }
  else defaultTWCSConfig

/-- The tables that `runTWCSCompaction` selects. -/
def LSMEngine.twcsInputs (e : LSMEngine) (srt : SizeSort) (now : ℤ) : Option (List SSTableMeta) :=
  twcsPickInputs srt (e.current.levels 0) e.cfg.twcs now

def LSMEngine.runTWCSCompaction (e : LSMEngine) (srt : SizeSort) (now : ℤ)
    (res rb : ℕ → WriteResult) : LSMEngine × Bool :=
  e.compactPicked (e.twcsInputs srt now) res rb

/-! ### What is picked -/

variable {srt : SizeSort} {ms inputs : List SSTableMeta} {t : SSTableMeta}

theorem mem_capInputs {n : ℤ} (h : t ∈ capInputs n ms) : t ∈ ms := by
  unfold capInputs at h
  split_ifs at h
  · exact List.mem_of_mem_take h
  · exact h

variable {cfg : STCSConfig}

theorem mem_stcsBucketLoop {buckets : List (List SSTableMeta)} {current b : List SSTableMeta}
    (hb : b ∈ stcsBucketLoop cfg ms buckets current) (ht : t ∈ b) :
    t ∈ ms ∨ t ∈ current ∨ ∃ b' ∈ buckets, t ∈ b' := by
  induction ms generalizing buckets current with
  | nil =>
    cases current with
    | nil => exact Or.inr (Or.inr ⟨b, hb, ht⟩)
    | cons c cs =>
      rcases List.mem_append.1 hb with hb | hb
      · exact Or.inr (Or.inr ⟨b, hb, ht⟩)
      · rw [List.mem_singleton.1 hb] at ht
        exact Or.inr (Or.inl ht)
  | cons m ms ih =>
    cases current with
    | nil =>
      rcases ih hb with h | h | h
      · exact Or.inl (List.mem_cons_of_mem _ h)
      · rw [List.mem_singleton.1 h]
        exact Or.inl List.mem_cons_self
      · exact Or.inr (Or.inr h)
    | cons c cs =>
      rw [stcsBucketLoop] at hb
      split_ifs at hb
      · rcases ih hb with h | h | h
        · exact Or.inl (List.mem_cons_of_mem _ h)
        · rcases List.mem_append.1 h with h | h
          · exact Or.inr (Or.inl h)
          · rw [List.mem_singleton.1 h]
            exact Or.inl List.mem_cons_self
        · exact Or.inr (Or.inr h)
      · rcases ih hb with h | h | ⟨b', hb', h⟩
        · exact Or.inl (List.mem_cons_of_mem _ h)
        · rw [List.mem_singleton.1 h]
          exact Or.inl List.mem_cons_self
        · rcases List.mem_append.1 hb' with hb' | hb'
          · exact Or.inr (Or.inr ⟨b', hb', h⟩)
          · rw [List.mem_singleton.1 hb'] at h
            exact Or.inr (Or.inl h)

theorem mem_of_mem_stcsPickInputs (h : stcsPickInputs srt ms cfg = some inputs) (ht : t ∈ inputs) :
    t ∈ ms := by
  unfold stcsPickInputs at h
  split_ifs at h
  obtain ⟨b, hb, rfl⟩ := Option.map_eq_some_iff.1 h
  rcases mem_stcsBucketLoop (List.mem_of_find?_eq_some hb) (mem_capInputs ht) with h | h | h
  · exact (srt.perm ms).mem_iff.1 h
  · cases h
  · obtain ⟨b', hb', -⟩ := h
    cases hb'

theorem mem_of_mem_twcsPickWindow {cfg : TWCSConfig} (h : twcsPickWindow srt ms cfg = some inputs)
    (ht : t ∈ inputs) : t ∈ ms := by
  unfold twcsPickWindow at h
  split_ifs at h
  cases hpick : stcsPickInputs srt ms ⟨cfg.minThreshold, cfg.maxThreshold, 0.5, 1.5⟩ with
  | some picked =>
    rw [hpick] at h
    cases h
    exact mem_of_mem_stcsPickInputs hpick ht
  | none =>
    rw [hpick] at h
    cases h
    exact mem_capInputs ht

/-- **The picker.** By the creation times that the metadata carry, the tables picked are of one
window, and that is not the current one. -/
theorem twcsPickInputs_window {cfg : TWCSConfig} {now : ℤ}
    (h : twcsPickInputs srt ms cfg now = some inputs) :
    cfg.minThreshold ≤ ms.length ∧ ∃ ts, ts ≠ twcsWindowStart now cfg.windowSize ∧
      ∀ t ∈ inputs, t ∈ ms ∧ twcsWindowStart t.createdAt cfg.windowSize = ts := by
  unfold twcsPickInputs at h
  split_ifs at h with hlen
  obtain ⟨ts, -, hts⟩ := List.exists_of_findSome?_eq_some h
  split_ifs at hts with hcur
  refine ⟨not_lt.1 hlen, ts, hcur, fun t ht => ?_⟩
  obtain ⟨hmem, hwindow⟩ := List.mem_filter.1 (mem_of_mem_twcsPickWindow hts ht)
  exact ⟨hmem, of_decide_eq_true hwindow⟩

end LsmTree
