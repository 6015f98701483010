import LsmTree.Sstable.Reader

/-!
# The table cache (`internal/engine/table_cache.go`)

The cache of open table readers, as its LRU list with the most recently used entry first.  A reader
is registered once, when its file is written or found at start-up.  When the cache is full the least
recently used entry that nobody pins is dropped, and nothing ever opens that file again: `get` fails
for it from then on, and all callers go on without the table.

`readerOf` is all that lookups see of the cache; `readerOf_register` says what a registration does
to it as long as nothing is evicted.
-/

namespace LsmTree

variable {id : ℕ}

structure TcEntry where
  fileID : ℕ
  reader : SSTable
  refs : ℕ
  deriving DecidableEq, Repr

/-- The bounded cache of open readers, most recently used first. -/
structure TableCache where
  cap : ℕ
  entries : List TcEntry
  deriving DecidableEq, Repr

/-- An empty cache that holds at most `cap` readers. -/
def newTableCache (cap : ℤ) : TableCache := ⟨if cap ≤ 0 then 1000 else cap.toNat, []⟩

/-- Drop the least recently used entry that is not pinned, if there is one. -/
def evictLRU (entries : List TcEntry) : List TcEntry :=
  (entries.reverse.eraseP (fun x => x.refs = 0)).reverse

/-- Open a reader for a file and insert it; a file that is already registered stays as it is. -/
def TableCache.register (tc : TableCache) (fileID : ℕ) (reader : SSTable) : TableCache :=
  if tc.entries.any (fun x => x.fileID = fileID) then tc
  else
    { tc with
      entries := ⟨fileID, reader, 0⟩ ::
        (if tc.cap ≤ tc.entries.length then evictLRU tc.entries else tc.entries) }

def TableCache.readerOf (tc : TableCache) (fileID : ℕ) : Option SSTable :=
  (tc.entries.find? (fun x => x.fileID = fileID)).map TcEntry.reader

/-- The reader of a file, pinned and moved to the front. -/
def TableCache.get (tc : TableCache) (fileID : ℕ) : Option (SSTable × TableCache) :=
  match tc.entries.find? (fun x => x.fileID = fileID) with
  | none => none
  | some x =>
    some (x.reader,
      { tc with
        entries := { x with refs := x.refs + 1 } ::
          tc.entries.filter (fun y => y.fileID ≠ fileID) })

def TableCache.release (tc : TableCache) (fileID : ℕ) : TableCache :=
  { tc with
    entries := tc.entries.map
      (fun x => if x.fileID = fileID then { x with refs := x.refs - 1 } else x) }

def TableCache.unregister (tc : TableCache) (fileID : ℕ) : TableCache :=
  { tc with entries := tc.entries.filter (fun x => x.fileID ≠ fileID) }

/-! ### What lookups see -/

theorem find?_map_of_fileID {f : TcEntry → TcEntry} (hf : ∀ x, (f x).fileID = x.fileID)
    (l : List TcEntry) (id : ℕ) :
    (l.map f).find? (fun x => x.fileID = id) = (l.find? (fun x => x.fileID = id)).map f := by
  induction l with
  | nil => rfl
  | cons x l ih =>
    by_cases h : x.fileID = id
    · simp [hf, h]
    · simp [hf, h, ih]

theorem find?_filter_ne (l : List TcEntry) (id id' : ℕ) :
    (l.filter (fun x => x.fileID ≠ id)).find? (fun x => x.fileID = id') =
      if id' = id then none else l.find? (fun x => x.fileID = id') := by
  induction l with
  | nil => simp
  | cons x l ih =>
    by_cases hx : x.fileID = id
    · by_cases h : id' = id
      · simp [h]
      · simpa [hx, h, Ne.symm h] using ih
    · by_cases h : id' = id
      · subst h
        simp
      · by_cases hx' : x.fileID = id'
        · simp [h, hx']
        · simpa [hx, h, hx'] using ih

theorem TableCache.get_isSome (tc : TableCache) (id : ℕ) :
    (tc.get id).map Prod.fst = tc.readerOf id := by
  unfold TableCache.get TableCache.readerOf
  cases tc.entries.find? (fun x => x.fileID = id) <;> rfl

variable {tc : TableCache}

theorem TableCache.readerOf_get {tc' : TableCache} {t : SSTable} (h : tc.get id = some (t, tc')) :
    tc'.readerOf = tc.readerOf := by
  unfold TableCache.get at h
  split at h
  · cases h
  · rename_i x hx
    cases h
    have hid : x.fileID = id := by simpa using List.find?_some hx
    funext j
    unfold TableCache.readerOf
    by_cases hj : x.fileID = j
    · have : id = j := hid.symm.trans hj
      subst this
      simp [hid, hx]
    · have hj' : j ≠ id := fun hc => hj (hid.trans hc.symm)
      rw [List.find?_cons_of_neg (by simpa using hj), find?_filter_ne, if_neg hj']

@[simp] theorem TableCache.readerOf_release (tc : TableCache) (id : ℕ) :
    (tc.release id).readerOf = tc.readerOf := by
  funext j
  unfold TableCache.readerOf TableCache.release
  rw [find?_map_of_fileID (by intro x; split_ifs <;> rfl), Option.map_map]
  congr 1
  funext x
  simp only [Function.comp_apply]
  split_ifs <;> rfl

theorem TableCache.readerOf_unregister (tc : TableCache) (id j : ℕ) :
    (tc.unregister id).readerOf j = if j = id then none else tc.readerOf j := by
  unfold TableCache.readerOf TableCache.unregister
  rw [find?_filter_ne]
  split_ifs <;> rfl

theorem TableCache.readerOf_eq_none :
    tc.readerOf id = none ↔ ¬ tc.entries.any (fun x => x.fileID = id) = true := by
  simp [TableCache.readerOf, List.find?_eq_none]

theorem TableCache.readerOf_register {tc : TableCache} {id : ℕ} {t : SSTable}
    (hnew : tc.readerOf id = none) (hroom : tc.entries.length < tc.cap) (j : ℕ) :
    (tc.register id t).readerOf j = if j = id then some t else tc.readerOf j := by
  have hany := TableCache.readerOf_eq_none.1 hnew
  unfold TableCache.register
  rw [if_neg hany, if_neg (Nat.not_le.2 hroom)]
  unfold TableCache.readerOf
  by_cases hj : j = id
  · simp [hj]
  · rw [List.find?_cons_of_neg (by simpa using Ne.symm hj), if_neg hj]

theorem TableCache.register_length (t : SSTable) (hnew : tc.readerOf id = none)
    (hroom : tc.entries.length < tc.cap) :
    (tc.register id t).entries.length = tc.entries.length + 1 := by
  unfold TableCache.register
  rw [if_neg (TableCache.readerOf_eq_none.1 hnew), if_neg (not_le.2 hroom), List.length_cons]

theorem TableCache.register_length_le (tc : TableCache) (id : ℕ) (t : SSTable) :
    (tc.register id t).entries.length ≤ tc.entries.length + 1 := by
  unfold TableCache.register
  split_ifs
  · exact Nat.le_succ _
  · simp only [List.length_cons, evictLRU, List.length_reverse]
    exact Nat.succ_le_succ (List.length_eraseP_le.trans (List.length_reverse).le)
  · exact le_rfl

theorem TableCache.register_cap (tc : TableCache) (id : ℕ) (t : SSTable) :
    (tc.register id t).cap = tc.cap := by
  unfold TableCache.register
  split_ifs <;> rfl

end LsmTree
