import Mathlib.Data.List.Basic
import LsmTree.Sstable.Format

/-!
# The block cache (`internal/cache/lru.go`)

An LRU cache of data blocks, shared by all readers.  The entries lie on a heap; the list holds their
addresses, the most recently used first, and the index leads from keys to addresses.
-/

namespace LsmTree

structure CacheKey where
  fileID : ℕ
  level : ℕ
  offset : ℕ
  deriving DecidableEq, Repr

structure CacheEntry where
  key : CacheKey
  data : Bytes
  size : ℕ
  deriving DecidableEq, Repr

/-- The cache.  An address is a position on the heap. -/
structure BlockCache where
  capacity : ℤ
  used : ℤ := 0
  heap : List CacheEntry := []
  lru : List ℕ := []
  index : List (CacheKey × ℕ) := []
  hits : ℕ := 0
  misses : ℕ := 0
  deriving DecidableEq, Repr

def newBlockCache (capacity : ℤ) : BlockCache := { capacity := capacity }

def BlockCache.moveToFront (c : BlockCache) (a : ℕ) : BlockCache :=
  { c with lru := a :: c.lru.erase a }

def BlockCache.get (c : BlockCache) (key : CacheKey) : Option Bytes × BlockCache :=
  match c.index.lookup key with
  | some a => (c.heap[a]?.map CacheEntry.data, { c.moveToFront a with hits := c.hits + 1 })
  | none => (none, { c with misses := c.misses + 1 })

def BlockCache.evictBack (c : BlockCache) : BlockCache :=
  match c.lru.getLast? with
  | none => c
  | some a =>
    match c.heap[a]? with
    | none => { c with lru := c.lru.dropLast }
    | some e =>
      { c with
        lru := c.lru.dropLast
        index := c.index.filter fun p => p.1 ≠ e.key
        used := c.used - e.size }

/-- Make room for so many bytes; every round shortens the list. -/
def BlockCache.makeRoom (size : ℕ) : ℕ → BlockCache → BlockCache
  | 0, c => c
  | fuel + 1, c =>
    if c.capacity < c.used + size ∧ c.lru ≠ [] then makeRoom size fuel c.evictBack else c

def BlockCache.insert (c : BlockCache) (key : CacheKey) (data : Bytes) : BlockCache :=
  match c.index.lookup key with
  | some a =>
    match c.heap[a]? with
    | none => c
    | some old =>
      { c with
        heap := c.heap.set a { old with data := data, size := data.length }
        used := c.used - old.size + data.length }.moveToFront a
  | none =>
    let c := c.makeRoom data.length c.lru.length
    { c with
      heap := c.heap ++ [⟨key, data, data.length⟩]
      lru := c.heap.length :: c.lru
      index := (key, c.heap.length) :: c.index
      used := c.used + data.length }

theorem lookup_filter_ne (index : List (CacheKey × ℕ)) (key key' : CacheKey) :
    (index.filter fun p => p.1 ≠ key).lookup key' =
      if key' = key then none else index.lookup key' := by
  induction index with
  | nil => simp
  | cons p index ih =>
    obtain ⟨k, a⟩ := p
    by_cases hk : k = key
    · rw [List.filter_cons_of_neg (by simp [hk]), ih, List.lookup_cons]
      split_ifs with hkey
      · rfl
      · rw [beq_false_of_ne (by rwa [hk])]
    · rw [List.filter_cons_of_pos (by simp [hk]), List.lookup_cons, List.lookup_cons, ih]
      by_cases hkey : key' = k
      · simp [hkey, hk]
      · rw [beq_false_of_ne hkey]

end LsmTree
