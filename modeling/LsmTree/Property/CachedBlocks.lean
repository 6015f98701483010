import LsmTree.Property.BlockCacheRuns
import LsmTree.Property.MappedRead

/-!
# Blocks through the cache (`loadBlock` in `internal/sstable/reader.go`)

A block is looked up in the cache that all readers share and read from the file only if it is not
there.  A cached block is a view into the mapping of the reader that loaded it, which `Close` takes
away.  As long as these readers stay open, `DecodeBlock` is given the bytes of the file, whatever
was loaded and evicted before.
-/

namespace LsmTree.Table

/-- A call of `loadBlock`: the reader, its table, and the block. -/
structure BlockLoad where
  reader : ℕ
  fileID : ℕ
  level : ℕ
  file : Bytes
  mmapData : Bytes
  handle : BlockHandle
  deriving DecidableEq

inductive ReaderStep
  | load (l : BlockLoad)
  | close (reader : ℕ)
  deriving DecidableEq

/-- The cache, the readers in whose mappings the cached blocks lie, and those that are closed. -/
structure SharedCache where
  cache : BlockCache
  owner : CacheKey → ℕ := fun _ => 0
  closed : List ℕ := []

variable {c : SharedCache} {l : BlockLoad} {loads : List BlockLoad} {steps : List ReaderStep}

def BlockLoad.cacheKey (l : BlockLoad) : CacheKey := ⟨l.fileID, l.level, l.handle.offset⟩

def BlockLoad.bytes (l : BlockLoad) : Except Halt (Except TableError Bytes) :=
  blockBytes l.file l.mmapData l.handle

/-- The bytes that are decoded, none if they are no longer mapped, and the cache afterwards.  Errors
are not cached. -/
def loadBlock (c : SharedCache) (l : BlockLoad) :
    Option (Except Halt (Except TableError Bytes)) × SharedCache :=
  match c.cache.get l.cacheKey with
  | (some data, cache) =>
    (if c.owner l.cacheKey ∈ c.closed then none else some (.ok (.ok data)),
      { c with cache := cache })
  | (none, cache) =>
    match l.bytes with
    | .ok (.ok data) =>
      (some (.ok (.ok data)),
        { c with
          cache := cache.insert l.cacheKey data
          owner := Function.update c.owner l.cacheKey l.reader })
    | err => (some err, { c with cache := cache })

def SharedCache.step (c : SharedCache) : ReaderStep → SharedCache
  | .load l => (loadBlock c l).2
  | .close reader => { c with closed := reader :: c.closed }

def afterSteps (capacity : ℤ) (steps : List ReaderStep) : SharedCache :=
  steps.foldl SharedCache.step { cache := newBlockCache capacity }

def loadsOf (steps : List ReaderStep) : List BlockLoad :=
  steps.filterMap fun
    | .load l => some l
    | .close _ => none

/-- Every resident block is what one of the loads has read, in the mapping of its reader. -/
structure FromSteps (steps : List ReaderStep) (c : SharedCache) : Prop where
  rep : c.cache.Rep
  blocks : ∀ e ∈ c.cache.entries, ∃ l ∈ loadsOf steps, l.cacheKey = e.key ∧
    l.reader = c.owner e.key ∧ l.bytes = .ok (.ok e.data)
  closed : ∀ r ∈ c.closed, .close r ∈ steps

theorem FromSteps.load (h : FromSteps steps c) (hl : l ∈ loadsOf steps) :
    FromSteps steps (loadBlock c l).2 := by
  obtain ⟨hrep, hblocks, hclosed⟩ := h
  have hget := hrep.get l.cacheKey
  unfold loadBlock
  generalize c.cache.get l.cacheKey = found at hget ⊢
  obtain ⟨data, cache⟩ := found
  obtain ⟨hrep', -, -, ⟨rfl, hkept : cache.entries = _⟩ | ⟨e, he, -, rfl, hkept⟩⟩ := hget
  · rw [← hkept] at hblocks
    dsimp only
    split
    · rename_i data hbytes
      obtain ⟨hrep'', -, ⟨kept, hentries, hsub⟩, -⟩ := BlockCache.Rep.insert hrep' l.cacheKey data
      refine ⟨hrep'', fun e he => ?_, hclosed⟩
      dsimp only
      rw [hentries] at he
      rcases List.mem_cons.1 he with rfl | he
      · exact ⟨l, hl, rfl, (Function.update_self l.cacheKey l.reader c.owner).symm, hbytes⟩
      · -- the other blocks have other keys
        obtain ⟨he, hne⟩ := List.mem_filter.1 (hsub.subset he)
        obtain ⟨a, ha, hkey, hreader, hdata⟩ := hblocks e he
        exact ⟨a, ha, hkey, by rw [Function.update_of_ne (by simpa using hne), hreader], hdata⟩
    · exact ⟨hrep', hblocks, hclosed⟩
  · refine ⟨hrep', fun x hx => ?_, hclosed⟩
    rcases List.mem_cons.1 (hkept ▸ hx) with rfl | hx
    · exact hblocks _ he
    · exact hblocks x (List.mem_of_mem_filter hx)

theorem FromSteps.afterSteps (capacity : ℤ) (steps : List ReaderStep) :
    FromSteps steps (afterSteps capacity steps) := by
  refine List.foldlRecOn (motive := FromSteps steps) steps _
    ⟨BlockCache.rep_new capacity, fun e he => (by cases he), nofun⟩ (fun c hc s hs => ?_)
  cases s with
  | load l => exact hc.load (List.mem_filterMap.2 ⟨_, hs, rfl⟩)
  | close r => exact ⟨hc.rep, hc.blocks, List.forall_mem_cons.2 ⟨hs, hc.closed⟩⟩

/-- **The cache is invisible.** After any steps of any readers, a load gives the bytes of the file,
or the error of reading them, if blocks with one cache key are the same and no reader that loaded
this one has been closed. -/
theorem loadBlock_transparent (capacity : ℤ) (steps : List ReaderStep) (l : BlockLoad)
    (hsame : ∀ a ∈ loadsOf steps, a.cacheKey = l.cacheKey → a.bytes = l.bytes)
    (hopen : ∀ a ∈ loadsOf steps, a.cacheKey = l.cacheKey → .close a.reader ∉ steps) :
    (loadBlock (afterSteps capacity steps) l).1 = some l.bytes := by
  obtain ⟨hrep, hblocks, hclosed⟩ := FromSteps.afterSteps capacity steps
  generalize afterSteps capacity steps = c at hrep hblocks hclosed
  have hget := hrep.get l.cacheKey
  unfold loadBlock
  generalize c.cache.get l.cacheKey = found at hget ⊢
  obtain ⟨data, cache⟩ := found
  obtain ⟨-, -, -, ⟨rfl, -⟩ | ⟨e, he, hkey, rfl, -⟩⟩ := hget
  · dsimp only
    split
    · rename_i hbytes
      rw [hbytes]
    · rfl
  · obtain ⟨a, ha, hakey, hreader, hbytes⟩ := hblocks e he
    have hmapped : c.owner l.cacheKey ∉ c.closed := by
      rw [← hkey, ← hreader]
      exact fun hc => hopen a ha (hakey.trans hkey) (hclosed _ hc)
    dsimp only
    rw [if_neg hmapped, ← hsame a ha (hakey.trans hkey), hbytes]

/-- A block is loaded again after another one has evicted it and the reader of that is closed. -/
theorem loadBlock_evicted :
    let a : BlockLoad := ⟨0, 1, 0, [1, 2, 3, 4], [1, 2, 3, 4], ⟨0, 2⟩⟩
    (loadBlock (afterSteps 3 [.load a, .load { a with reader := 1, handle := ⟨2, 2⟩ }, .close 1,
      .load a]) { a with reader := 2 }).1 = some (.ok (.ok [1, 2])) :=
  (loadBlock_transparent 3 _ _ (by decide) (by decide)).trans (by decide)

end LsmTree.Table
