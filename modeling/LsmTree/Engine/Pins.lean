import Mathlib.Data.List.AList
import Mathlib.Logic.Function.Basic
import LsmTree.Engine.TableCache

/-!
# The table cache under concurrent calls (`internal/engine/table_cache.go`)

In `TableCache` an entry is known by its file.  Here it is an object of its own, as in the source:
an entry that `unregister` has taken out of the map can still be pinned when its file is registered
again.  Each reader gets at most one entry, so an entry goes by the number of its reader.

One step is what a call does under the lock, or before or after it: `register` opens its reader
before it takes the lock, `release` and `unregister` close a reader after they gave the lock back.
-/

namespace LsmTree.Pins

/-- `tcEntry`.  `elem` tells whether the entry was given a place in the list. -/
structure TcEntry where
  fileID : ℕ := 0
  elem : Bool := false
  reader : SSTable := ⟨[], none⟩
  refs : ℤ := 0
  deleted : Bool := false

/-- The cache, with the number of readers that were opened and how often each was closed. -/
structure Cache where
  cap : ℕ
  entries : AList (fun _ : ℕ => ℕ) := ∅
  /-- The most recently used entry first. -/
  lruList : List ℕ := []
  entry : ℕ → TcEntry := fun _ => {}
  opened : ℕ := 0
  closes : ℕ → ℕ := fun _ => 0

def newCache (cap : ℤ) : Cache := { cap := if cap ≤ 0 then 1000 else cap.toNat }

def Cache.set (c : Cache) (r : ℕ) (x : TcEntry) : Cache :=
  { c with entry := Function.update c.entry r x }

/-- `reader.Close()`. -/
def Cache.close (c : Cache) (r : ℕ) : Cache :=
  { c with closes := Function.update c.closes r (c.closes r + 1) }

/-- `lruList.MoveToFront`, which leaves an element alone that is not in the list. -/
def Cache.moveToFront (c : Cache) (r : ℕ) : Cache :=
  if r ∈ c.lruList then { c with lruList := r :: c.lruList.erase r } else c

/-- Drop and close the least recently used entry that is not pinned, if there is one. -/
def Cache.evict (c : Cache) : Cache :=
  match c.lruList.reverse.find? (fun r => (c.entry r).refs = 0 && !(c.entry r).deleted) with
  | none => c
  | some r =>
    ({ c with
      lruList := c.lruList.erase r
      entries := c.entries.erase (c.entry r).fileID } : Cache).close r

/-- The part of `register` under the lock, for the opened reader `r`. -/
def Cache.register (c : Cache) (fileID : ℕ) (reader : SSTable) (r : ℕ) : Cache :=
  if fileID ∈ c.entries then c.close r
  else
    let c := if c.cap ≤ c.entries.keys.length then c.evict else c
    { c.set r { fileID := fileID, elem := true, reader := reader } with
      lruList := r :: c.lruList
      entries := c.entries.insert fileID r }

def Cache.get (c : Cache) (fileID : ℕ) : Option (ℕ × Cache) :=
  match c.entries.lookup fileID with
  | none => none
  | some r =>
    if (c.entry r).deleted then none
    else
      let c := c.set r { c.entry r with refs := (c.entry r).refs + 1 }
      some (r, if (c.entry r).elem then c.moveToFront r else c)

/-- The part of a release function under the lock, and whether it is going to close the reader. -/
def Cache.release (c : Cache) (r : ℕ) : Cache × Bool :=
  let x := { c.entry r with refs := (c.entry r).refs - 1 }
  (c.set r x, x.deleted && decide (x.refs = 0))

/-- The part of `unregister` under the lock, and the reader that it is going to close. -/
def Cache.unregister (c : Cache) (fileID : ℕ) : Cache × Option ℕ :=
  match c.entries.lookup fileID with
  | none => (c, none)
  | some r =>
    let x := c.entry r
    ({ c.set r { x with elem := false, deleted := true } with
        entries := c.entries.erase fileID
        lruList := if x.elem then c.lruList.erase r else c.lruList },
      if x.refs = 0 then some r else none)

/-- A `register` that has opened its reader. -/
structure Opening where
  fileID : ℕ
  reader : SSTable
  r : ℕ

structure Sys where
  cache : Cache
  opening : List Opening := []
  /-- The release functions that were not called yet, each by its entry. -/
  pins : List ℕ := []
  /-- The readers that a `release` or `unregister` is about to close. -/
  closing : List ℕ := []

inductive Act
  /-- `register` opens the reader. -/
  | open (fileID : ℕ) (reader : SSTable)
  /-- The `i`th `register` under way takes the lock. -/
  | register (i : ℕ)
  | get (fileID : ℕ)
  /-- The `i`th of the release functions is called. -/
  | release (i : ℕ)
  | unregister (fileID : ℕ)
  /-- The `i`th of the readers to be closed is closed. -/
  | close (i : ℕ)

def Sys.step (s : Sys) : Act → Sys
  | .open fileID reader =>
    { s with
      cache := { s.cache with opened := s.cache.opened + 1 }
      opening := ⟨fileID, reader, s.cache.opened⟩ :: s.opening }
  | .register i =>
    match s.opening[i]? with
    | none => s
    | some x =>
      { s with
        cache := s.cache.register x.fileID x.reader x.r
        opening := s.opening.eraseIdx i }
  | .get fileID =>
    match s.cache.get fileID with
    | none => s
    | some (r, c) => { s with cache := c, pins := r :: s.pins }
  | .release i =>
    match s.pins[i]? with
    | none => s
    | some r =>
      { s with
        cache := (s.cache.release r).1
        pins := s.pins.eraseIdx i
        closing := if (s.cache.release r).2 then r :: s.closing else s.closing }
  | .unregister fileID =>
    { s with
      cache := (s.cache.unregister fileID).1
      closing := (s.cache.unregister fileID).2.toList ++ s.closing }
  | .close i =>
    match s.closing[i]? with
    | none => s
    | some r => { s with cache := s.cache.close r, closing := s.closing.eraseIdx i }

/-- The state after a run of steps from an empty cache. -/
def run (cap : ℤ) (acts : List Act) : Sys := acts.foldl Sys.step { cache := newCache cap }

end LsmTree.Pins
