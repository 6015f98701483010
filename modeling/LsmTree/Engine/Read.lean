import LsmTree.Engine.State

/-!
# The read path (`LSMEngine.Get`, `ScanWithError`, `findLevelCandidate`)

`Get` asks the memtable, the immutable memtables newest first, the level-0 tables by falling file id
and then at most one table of each deeper level, and stops at the first that knows the key.
`ScanWithError` merges all sources by user key; for one key the source that `Get` would ask first
comes first.  Both reach tables through the cache and go on without a table that is not there.

What they return depends on the cache only through its readers (`probeTables_fst`,
`scanTables_fst`), and they leave the readers as they are.
-/

namespace LsmTree

def l0Desc (l0 : List SSTableMeta) : List SSTableMeta :=
  l0.insertionSort (fun a b => b.fileID ≤ a.fileID)

/-- The one table of a sorted level to look into: the last that does not start after the key, unless
it ends before it. -/
def findLevelCandidate (level : List SSTableMeta) (key : Bytes) : Option SSTableMeta :=
  let idx := BinarySearch.searchList (fun m => decide (key < m.firstKey)) level
  if idx = 0 then none
  else
    match level[idx - 1]? with
    | none => none
    | some c => if c.lastKey ≠ [] ∧ c.lastKey < key then none else some c

/-- The tables a lookup of the key visits, in order. -/
def Version.candidates (v : Version) (key : Bytes) : List SSTableMeta :=
  l0Desc (v.levels 0) ++
    (List.range' 1 (maxLevels - 1)).filterMap (fun i => findLevelCandidate (v.levels i) key)

/-- Look the key up in the tables in turn, pinning each reader.  Returns what was found, the cache,
and the pinned files. -/
def probeTables (key : Bytes) (readSeqNo : ℕ) :
    List SSTableMeta → TableCache →
      Except ReadError (Option (Option Bytes)) × TableCache × List ℕ
  | [], tc => (.ok none, tc, [])
  | m :: ms, tc =>
    match tc.get m.fileID with
    | none => probeTables key readSeqNo ms tc
    | some (t, tc) =>
      match t.get key readSeqNo with
      | .error err => (.error err, tc, [m.fileID])
      | .ok (some r) => (.ok (some r), tc, [m.fileID])
      | .ok none =>
        let (r, tc, pins) := probeTables key readSeqNo ms tc
        (r, tc, m.fileID :: pins)

def LSMEngine.memGet (e : LSMEngine) (key : Bytes) : Option (Option Bytes) :=
  (e.memTable :: e.immutables.reverse.map ImmutableMemtable.table).findSome? (fun t => t.get key)

/-- What `Get` returns for what was found. -/
def getResult : Except ReadError (Option (Option Bytes)) → Except EngineError Bytes
  | .ok (some (some v)) => .ok v
  | .ok (some none) => .error .notFound
  | .ok none => .error .notFound
  | .error err => .error (.read err)

def LSMEngine.get (e : LSMEngine) (key : Bytes) : Except EngineError Bytes × LSMEngine :=
  match e.memGet key with
  | some r => (getResult (.ok (some r)), e)
  | none =>
    let (r, tc, pins) := probeTables key e.seqNo (e.current.candidates key) e.tc
    (getResult r, { e with tc := pins.foldl TableCache.release tc })

/-! ### Scans -/

/-- An entry in the merge heap of a scan; of one user key the lowest priority wins. -/
structure ScanItem where
  userKey : Bytes
  value : Bytes
  deleted : Bool
  priority : ℕ
  seqNo : ℕ
  deriving DecidableEq, Repr

def scanLess (a b : ScanItem) : Bool :=
  if a.userKey ≠ b.userKey then decide (a.userKey < b.userKey) else decide (a.priority < b.priority)

/-- The heap item for an entry of the source with the given priority. -/
def Entry.scanItem (priority : ℕ) (e : Entry) : ScanItem :=
  ⟨e.key.userKey, e.value, decide (e.key.type = .deletion), priority, e.key.seqNo⟩

/-- What a source contributes: its entries from `start` on, up to the first not below `stop`. -/
def scanSource (start stop : Bytes) (priority : ℕ) (es : List Entry) : List ScanItem :=
  ((es.dropWhile (fun e => decide (start ≠ [] ∧ e.key.userKey < start))).takeWhile
    (fun e => !decide (stop ≠ [] ∧ stop ≤ e.key.userKey))).map (Entry.scanItem priority)

def tableOverlapsRange (firstKey lastKey start stop : Bytes) : Bool :=
  !decide (stop ≠ [] ∧ firstKey ≠ [] ∧ stop ≤ firstKey) &&
    !decide (start ≠ [] ∧ lastKey ≠ [] ∧ lastKey < start)

/-- The table sources; a table that is skipped still takes up a priority. -/
def scanTables (start stop : Bytes) :
    ℕ → List SSTableMeta → TableCache → List (List ScanItem) × TableCache × List ℕ
  | _, [], tc => ([], tc, [])
  | p, m :: ms, tc =>
    if tableOverlapsRange m.firstKey m.lastKey start stop then
      match tc.get m.fileID with
      | none => scanTables start stop (p + 1) ms tc
      | some (t, tc) =>
        let (ss, tc, pins) := scanTables start stop (p + 1) ms tc
        (scanSource start stop p t.iterate :: ss, tc, m.fileID :: pins)
    else scanTables start stop (p + 1) ms tc

def scanMems (start stop : Bytes) : ℕ → List MemTable → List (List ScanItem)
  | _, [] => []
  | p, t :: ts => scanSource start stop p t.entries :: scanMems start stop (p + 1) ts

/-- Remember the last user key.  Appending an empty key to the `nil` slice leaves it `nil`. -/
def nextLastKey (last : Option Bytes) (key : Bytes) : Option Bytes :=
  match last with
  | none => if key = [] then none else some key
  | some _ => some key

/-- The merge loop: keep the first item of each user key unless it is a tombstone, until the limit
(if positive) is reached. -/
def scanLoop (limit : ℤ) : List ScanItem → Option Bytes → List (Bytes × Bytes) →
    List (Bytes × Bytes)
  | [], _, results => results
  | top :: rest, last, results =>
    if 0 < limit ∧ limit ≤ results.length then results
    else if last = some top.userKey then scanLoop limit rest last results
    else
      scanLoop limit rest (nextLastKey last top.userKey)
        (if top.deleted then results else results ++ [(top.userKey, top.value)])

def Version.scanOrder (v : Version) : List SSTableMeta :=
  l0Desc (v.levels 0) ++ (List.range' 1 (maxLevels - 1)).flatMap v.levels

/-- Scan a key range `[start, stop)`; empty bounds and a limit that is not positive are unbounded.
The source's error result is always `nil`. -/
def LSMEngine.scanWithError (e : LSMEngine) (start stop : Bytes) (limit : ℤ) :
    List (Bytes × Bytes) × LSMEngine :=
  let mems := e.memTable :: e.immutables.reverse.map ImmutableMemtable.table
  let (ss, tc, pins) := scanTables start stop mems.length e.current.scanOrder e.tc
  let merged := KWayMerge.mergeAll scanLess (scanMems start stop 0 mems ++ ss)
  (scanLoop limit merged none [], { e with tc := pins.foldl TableCache.release tc })

/-! ### The cache seen through its readers -/

/-- The table lookups of `Get`, as a function of the available readers. -/
def probe (readers : ℕ → Option SSTable) (key : Bytes) (readSeqNo : ℕ) :
    List SSTableMeta → Except ReadError (Option (Option Bytes))
  | [] => .ok none
  | m :: ms =>
    match readers m.fileID with
    | none => probe readers key readSeqNo ms
    | some t =>
      match t.get key readSeqNo with
      | .error err => .error err
      | .ok (some r) => .ok (some r)
      | .ok none => probe readers key readSeqNo ms

theorem probeTables_fst (key : Bytes) (s : ℕ) (ms : List SSTableMeta) (tc : TableCache) :
    (probeTables key s ms tc).1 = probe tc.readerOf key s ms := by
  induction ms generalizing tc with
  | nil => rfl
  | cons m ms ih =>
    have hsome := tc.get_isSome m.fileID
    rw [probeTables, probe]
    cases hg : tc.get m.fileID with
    | none =>
      rw [hg] at hsome
      rw [← hsome]
      exact ih tc
    | some x =>
      obtain ⟨t, tc'⟩ := x
      rw [hg] at hsome
      rw [← hsome]
      simp only [Option.map_some]
      cases t.get key s with
      | error err => rfl
      | ok r =>
        cases r with
        | some r => rfl
        | none =>
          simp only
          rw [ih tc', TableCache.readerOf_get hg]

theorem probeTables_readerOf (key : Bytes) (s : ℕ) (ms : List SSTableMeta) (tc : TableCache) :
    (probeTables key s ms tc).2.1.readerOf = tc.readerOf := by
  induction ms generalizing tc with
  | nil => rfl
  | cons m ms ih =>
    rw [probeTables]
    cases hg : tc.get m.fileID with
    | none => exact ih tc
    | some x =>
      obtain ⟨t, tc'⟩ := x
      have hr := TableCache.readerOf_get hg
      simp only
      cases t.get key s with
      | error err => exact hr
      | ok r =>
        cases r with
        | some r => exact hr
        | none => exact (ih tc').trans hr

theorem foldl_release_readerOf (pins : List ℕ) (tc : TableCache) :
    (pins.foldl TableCache.release tc).readerOf = tc.readerOf := by
  induction pins generalizing tc with
  | nil => rfl
  | cons p ps ih => rw [List.foldl_cons, ih, TableCache.readerOf_release]

theorem tableOverlapsRange_of_mem {firstKey lastKey start stop k : Bytes} (hlo : firstKey ≤ k)
    (hhi : k ≤ lastKey) (hstart : start = [] ∨ start ≤ k) (hstop : stop = [] ∨ k < stop) :
    tableOverlapsRange firstKey lastKey start stop = true := by
  unfold tableOverlapsRange
  simp only [Bool.and_eq_true, Bool.not_eq_true', decide_eq_false_iff_not]
  refine ⟨fun hx => ?_, fun hx => ?_⟩
  · rcases hstop with hstop | hstop
    · exact hx.1 hstop
    · exact absurd (hstop.trans_le hx.2.2) (not_lt.2 hlo)
  · rcases hstart with hstart | hstart
    · exact hx.1 hstart
    · exact absurd (hhi.trans_lt (hx.2.2.trans_le hstart)) (lt_irrefl _)

/-- The table sources of a scan, as a function of the available readers. -/
def tableSources (readers : ℕ → Option SSTable) (start stop : Bytes) :
    ℕ → List SSTableMeta → List (List ScanItem)
  | _, [] => []
  | p, m :: ms =>
    if tableOverlapsRange m.firstKey m.lastKey start stop then
      match readers m.fileID with
      | none => tableSources readers start stop (p + 1) ms
      | some t => scanSource start stop p t.iterate :: tableSources readers start stop (p + 1) ms
    else tableSources readers start stop (p + 1) ms

theorem scanTables_fst (start stop : Bytes) (p : ℕ) (ms : List SSTableMeta) (tc : TableCache) :
    (scanTables start stop p ms tc).1 = tableSources tc.readerOf start stop p ms := by
  induction ms generalizing tc p with
  | nil => rfl
  | cons m ms ih =>
    have hsome := tc.get_isSome m.fileID
    rw [scanTables, tableSources]
    split_ifs
    · cases hg : tc.get m.fileID with
      | none =>
        rw [hg] at hsome
        rw [← hsome]
        exact ih (p + 1) tc
      | some x =>
        obtain ⟨t, tc'⟩ := x
        rw [hg] at hsome
        rw [← hsome]
        simp only [Option.map_some]
        rw [ih (p + 1) tc', TableCache.readerOf_get hg]
    · exact ih (p + 1) tc

theorem scanTables_readerOf (start stop : Bytes) (p : ℕ) (ms : List SSTableMeta)
    (tc : TableCache) : (scanTables start stop p ms tc).2.1.readerOf = tc.readerOf := by
  induction ms generalizing tc p with
  | nil => rfl
  | cons m ms ih =>
    rw [scanTables]
    split_ifs
    · cases hg : tc.get m.fileID with
      | none => exact ih (p + 1) tc
      | some x =>
        obtain ⟨t, tc'⟩ := x
        exact (ih (p + 1) tc').trans (TableCache.readerOf_get hg)
    · exact ih (p + 1) tc

theorem get_fst (e : LSMEngine) (key : Bytes) :
    (e.get key).1 = getResult (match e.memGet key with
      | some r => .ok (some r)
      | none => probe e.tc.readerOf key e.seqNo (e.current.candidates key)) := by
  unfold LSMEngine.get
  cases e.memGet key with
  | some r => rfl
  | none =>
    simp only
    rw [probeTables_fst]

theorem scanWithError_fst (e : LSMEngine) (start stop : Bytes) (limit : ℤ) :
    (e.scanWithError start stop limit).1 =
      scanLoop limit (KWayMerge.mergeAll scanLess
        (scanMems start stop 0 (e.memTable :: e.immutables.reverse.map ImmutableMemtable.table) ++
          tableSources e.tc.readerOf start stop (e.immutables.length + 1) e.current.scanOrder))
        none [] := by
  unfold LSMEngine.scanWithError
  simp only [List.length_cons, List.length_map, List.length_reverse]
  rw [scanTables_fst]

end LsmTree
