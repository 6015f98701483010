import Mathlib.Algebra.BigOperators.Group.List.Basic
import Mathlib.Algebra.Ring.Int.Defs
import Mathlib.Data.List.Dedup
import LsmTree.BlockCache

/-!
# Runs of the block cache

What the index, the list and the byte count of the cache have to do with each other after any calls
(`BlockCache.Rep`).  Seen from outside the cache is the list of its entries, the most recently used
first: a lookup finds its key there and moves it to the front, an insertion puts an entry in front
and drops entries from the end.

So the resident keys are always the most recently used ones (`resident_keys_recent`), and a lookup
returns what was last inserted under its key.  The capacity is another matter: room is made for new
entries only, and an entry that is replaced by a larger one can fill the cache beyond its capacity
(`cache_runs`, `overgrown_cache`).
-/

namespace LsmTree

namespace BlockCache

variable {c : BlockCache}

variable {a : ℕ} {e : CacheEntry}

/-- The resident entries, the most recently used first. -/
def entries (c : BlockCache) : List CacheEntry := c.lru.filterMap (c.heap[·]?)

/-- The representation: the list has every resident address once, the index leads from exactly the
keys of the resident entries to their addresses, and the sizes add up. -/
structure Rep (c : BlockCache) : Prop where
  lru : c.lru.Nodup
  heap : ∀ a ∈ c.lru, a < c.heap.length
  keys : (c.index.map Prod.fst).Nodup
  index : ∀ key a, c.index.lookup key = some a ↔
    a ∈ c.lru ∧ (c.heap[a]?).map CacheEntry.key = some key
  size : ∀ e ∈ c.heap, e.size = e.data.length
  used : c.used = (c.entries.map fun e => (e.size : ℤ)).sum

theorem rep_new (capacity : ℤ) : (newBlockCache capacity).Rep := by
  constructor <;> simp [newBlockCache, entries]

theorem Rep.heap_get (h : c.Rep) (ha : a ∈ c.lru) : ∃ e, c.heap[a]? = some e :=
  ⟨_, List.getElem?_eq_getElem (h.heap a ha)⟩

theorem Rep.lookup (h : c.Rep) {key : CacheKey} {a : ℕ} (ha : c.index.lookup key = some a) :
    a ∈ c.lru ∧ ∃ e, c.heap[a]? = some e ∧ e.key = key := by
  obtain ⟨hmem, hkey⟩ := (h.index key a).1 ha
  exact ⟨hmem, Option.map_eq_some_iff.1 hkey⟩

theorem Rep.address_inj (h : c.Rep) {b : ℕ} {x : CacheEntry} (ha : a ∈ c.lru) (hb : b ∈ c.lru)
    (he : c.heap[a]? = some e) (hx : c.heap[b]? = some x) (hkey : e.key = x.key) : a = b := by
  have h1 := (h.index e.key a).2 ⟨ha, by rw [he]; rfl⟩
  have h2 := (h.index e.key b).2 ⟨hb, by rw [hx, hkey]; rfl⟩
  exact Option.some.inj (h1.symm.trans h2)

theorem mem_entries : e ∈ c.entries ↔ ∃ a ∈ c.lru, c.heap[a]? = some e :=
  List.mem_filterMap

theorem Rep.length_entries (h : c.Rep) : c.entries.length = c.lru.length := by
  rw [entries, List.length_filterMap_eq_countP, List.countP_eq_length]
  intro a ha
  obtain ⟨e, he⟩ := h.heap_get ha
  rw [he]
  rfl

theorem Rep.nodup_keys (h : c.Rep) : (c.entries.map CacheEntry.key).Nodup :=
  List.pairwise_map.2 (List.pairwise_filterMap.2 (h.lru.imp_of_mem
    fun ha hb hne _ he _ hx hkey => hne (h.address_inj ha hb he hx hkey)))

theorem Rep.mem_index (h : c.Rep) (key : CacheKey) :
    key ∈ c.index.map Prod.fst ↔ key ∈ c.entries.map CacheEntry.key := by
  constructor
  · intro hmem
    obtain ⟨p, hp, rfl⟩ := List.mem_map.1 hmem
    rcases hlook : c.index.lookup p.1 with _ | a
    · simpa using List.lookup_eq_none_iff.1 hlook p hp
    · obtain ⟨ha, e, he, hkey⟩ := h.lookup hlook
      exact List.mem_map.2 ⟨e, mem_entries.2 ⟨a, ha, he⟩, hkey⟩
  · intro hmem
    obtain ⟨e, he, rfl⟩ := List.mem_map.1 hmem
    obtain ⟨a, ha, hheap⟩ := mem_entries.1 he
    have hlook := (h.index e.key a).2 ⟨ha, by rw [hheap]; rfl⟩
    by_contra hno
    rw [List.lookup_eq_none_iff.2] at hlook
    · cases hlook
    · intro p hp
      simpa using fun hk : e.key = p.1 => hno (List.mem_map.2 ⟨p, hp, hk.symm⟩)

theorem Rep.find (h : c.Rep) (key : CacheKey) :
    c.entries.find? (fun e => e.key = key) = (c.index.lookup key).bind (c.heap[·]?) := by
  rcases hlook : c.index.lookup key with _ | a
  · rw [Option.bind_none, List.find?_eq_none]
    intro e he hkey
    obtain ⟨a, ha, hheap⟩ := mem_entries.1 he
    have := (h.index key a).2 ⟨ha, by rw [hheap]; simpa using hkey⟩
    rw [hlook] at this
    cases this
  · obtain ⟨ha, e, he, hkey⟩ := h.lookup hlook
    have hsome : (c.entries.find? fun e => e.key = key).isSome :=
      List.find?_isSome.2 ⟨e, mem_entries.2 ⟨a, ha, he⟩, by simpa using hkey⟩
    obtain ⟨x, hx⟩ := Option.isSome_iff_exists.1 hsome
    obtain ⟨b, hb, hxb⟩ := mem_entries.1 (List.mem_of_find?_eq_some hx)
    have hxkey : x.key = key := by simpa using List.find?_some hx
    obtain rfl := h.address_inj ha hb he hxb (hkey.trans hxkey.symm)
    rw [hx, Option.bind_some, hxb]

theorem Rep.entries_erase (h : c.Rep) {key : CacheKey} (ha : c.index.lookup key = some a) :
    (c.lru.erase a).filterMap (c.heap[·]?) = c.entries.filter (fun e => e.key ≠ key) := by
  obtain ⟨hmem, e, he, hkey⟩ := h.lookup ha
  rw [h.lru.erase_eq_filter, entries, List.filterMap_filter, List.filter_filterMap]
  refine List.filterMap_congr fun b hb => ?_
  obtain ⟨x, hx⟩ := h.heap_get hb
  by_cases hab : b = a
  · subst hab
    obtain rfl : e = x := Option.some.inj (he.symm.trans hx)
    simp [he, hkey, Option.filter]
  · have hne : x.key ≠ key := fun hxk => hab (h.address_inj hb hmem hx he (hxk.trans hkey.symm))
    simp [hab, hx, hne, Option.filter]

theorem Rep.refresh (h : c.Rep) {key : CacheKey} {a : ℕ} {old : CacheEntry}
    (ha : c.index.lookup key = some a) (hold : c.heap[a]? = some old) {new : CacheEntry}
    (hnew : new.key = key) (hsize : new.size = new.data.length) (hits : ℕ) :
    let c' : BlockCache := { c with
      heap := c.heap.set a new, lru := a :: c.lru.erase a
      used := c.used - old.size + new.size, hits := hits }
    c'.Rep ∧ c'.entries = new :: c.entries.filter (fun e => e.key ≠ key) := by
  intro c'
  obtain ⟨hmem, e, he, hkey⟩ := h.lookup ha
  obtain rfl : old = e := Option.some.inj (hold.symm.trans he)
  have hlt := h.heap a hmem
  have hperm : (a :: c.lru.erase a).Perm c.lru := (List.perm_cons_erase hmem).symm
  have hnot : a ∉ c.lru.erase a := h.lru.not_mem_erase
  have hentries : c'.entries = new :: c.entries.filter (fun e => e.key ≠ key) := by
    change (a :: c.lru.erase a).filterMap ((c.heap.set a new)[·]?) = _
    rw [List.filterMap_cons_some (List.getElem?_set_self hlt), ← h.entries_erase ha]
    congr 1
    refine List.filterMap_congr fun b hb => List.getElem?_set_ne ?_
    rintro rfl
    exact hnot hb
  refine ⟨⟨hperm.nodup_iff.2 h.lru, fun b hb => ?_, h.keys, fun k b => ?_, fun x hx => ?_, ?_⟩,
    hentries⟩
  · rw [List.length_set]
    exact h.heap b (hperm.mem_iff.1 hb)
  · have hkeys : ((c.heap.set a new)[b]?).map CacheEntry.key = (c.heap[b]?).map CacheEntry.key := by
      rw [List.getElem?_set]
      split_ifs with hab
      · subst hab
        rw [he]
        exact congrArg some (hnew.trans hkey.symm)
      · rfl
    change c.index.lookup k = some b ↔ b ∈ a :: c.lru.erase a ∧ _
    rw [hperm.mem_iff, hkeys]
    exact h.index k b
  · rcases List.mem_or_eq_of_mem_set hx with hx | rfl
    · exact h.size x hx
    · exact hsize
  · -- the entries of the other keys and the old entry make up the old sum
    have hsum : c.entries.Perm (old :: c.entries.filter (fun e => e.key ≠ key)) := by
      rw [← h.entries_erase ha, ← List.filterMap_cons_some he]
      exact (hperm.filterMap _).symm
    have hused := h.used
    rw [(hsum.map _).sum_eq, List.map_cons, List.sum_cons] at hused
    rw [hentries, List.map_cons, List.sum_cons]
    change c.used - old.size + new.size = new.size + _
    omega

/-- **A lookup** returns the data of the resident entry and moves it to the front. -/
theorem Rep.get (h : c.Rep) (key : CacheKey) :
    (c.get key).2.Rep ∧ (c.get key).2.capacity = c.capacity ∧ (c.get key).2.used = c.used ∧
      (((c.get key).1 = none ∧ (c.get key).2.entries = c.entries) ∨
        ∃ e ∈ c.entries, e.key = key ∧ (c.get key).1 = some e.data ∧
          (c.get key).2.entries = e :: c.entries.filter (fun e => e.key ≠ key)) := by
  unfold BlockCache.get
  rcases hlook : c.index.lookup key with _ | a
  · exact ⟨⟨h.lru, h.heap, h.keys, h.index, h.size, h.used⟩, rfl, rfl, Or.inl ⟨rfl, rfl⟩⟩
  · obtain ⟨hmem, e, he, hkey⟩ := h.lookup hlook
    obtain ⟨hrep, hentries⟩ :=
      h.refresh hlook he hkey (h.size e (List.mem_of_getElem? he)) (c.hits + 1)
    have hset : c.heap.set a e = c.heap := by
      obtain ⟨hlt, rfl⟩ := List.getElem?_eq_some_iff.1 he
      exact List.set_getElem_self hlt
    simp only [hset, sub_add_cancel] at hrep hentries
    exact ⟨hrep, rfl, rfl, Or.inr ⟨e, mem_entries.2 ⟨a, hmem, he⟩, hkey, by simp [he], hentries⟩⟩

theorem Rep.evictBack (h : c.Rep) (hne : c.lru ≠ []) :
    c.evictBack.Rep ∧ c.evictBack.entries = c.entries.dropLast ∧
      c.evictBack.lru = c.lru.dropLast ∧ c.evictBack.capacity = c.capacity := by
  obtain ⟨rest, a, hlru⟩ : ∃ rest a, c.lru = rest ++ [a] :=
    ⟨_, _, (List.dropLast_append_getLast hne).symm⟩
  have ha : a ∈ c.lru := by simp [hlru]
  obtain ⟨e, he⟩ := h.heap_get ha
  have hevict : c.evictBack = { c with
      lru := rest
      index := c.index.filter fun p => p.1 ≠ e.key
      used := c.used - e.size } := by
    unfold BlockCache.evictBack
    simp [hlru, he]
  have hentries : c.entries = rest.filterMap (c.heap[·]?) ++ [e] := by
    rw [entries, hlru, List.filterMap_append, List.filterMap_cons_some he]
    rfl
  have hsub : ∀ b ∈ rest, b ∈ c.lru ∧ b ≠ a := by
    have hnodup := h.lru
    rw [hlru, List.nodup_append] at hnodup
    exact fun b hb => ⟨by simp [hlru, hb], hnodup.2.2 b hb a (List.mem_singleton_self a)⟩
  rw [hevict]
  refine ⟨⟨?_, fun b hb => h.heap b (hsub b hb).1, ?_, fun key b => ?_, h.size, ?_⟩, ?_, ?_, rfl⟩
  · exact h.lru.sublist (by rw [hlru]; exact List.sublist_append_left _ _)
  · exact h.keys.sublist (List.filter_sublist.map _)
  · change (c.index.filter fun p => p.1 ≠ e.key).lookup key = some b ↔ b ∈ rest ∧ _
    rw [lookup_filter_ne]
    by_cases hkey : key = e.key
    · -- the entry that goes is the only one of its key
      rw [if_pos hkey]
      refine iff_of_false (by simp) fun hb => ?_
      obtain ⟨x, hx, hxk⟩ := Option.map_eq_some_iff.1 hb.2
      exact (hsub b hb.1).2 (h.address_inj (hsub b hb.1).1 ha hx he (hxk.trans hkey))
    · rw [if_neg hkey, h.index]
      refine and_congr_left fun hb => ⟨fun hmem => ?_, fun hb => (hsub b hb).1⟩
      rw [hlru, List.mem_append, List.mem_singleton] at hmem
      refine hmem.resolve_right ?_
      rintro rfl
      rw [he] at hb
      exact hkey (Option.some.inj hb).symm
  · have hused := h.used
    rw [hentries, List.map_append, List.sum_append] at hused
    change c.used - e.size = ((rest.filterMap (c.heap[·]?)).map _).sum
    simp only [List.map_cons, List.map_nil, List.sum_singleton] at hused
    omega
  · rw [hentries, List.dropLast_concat]
    rfl
  · rw [hlru, List.dropLast_concat]

theorem Rep.makeRoom (h : c.Rep) (size : ℕ) {fuel : ℕ} (hfuel : c.lru.length ≤ fuel) :
    (c.makeRoom size fuel).Rep ∧ (c.makeRoom size fuel).entries <+: c.entries ∧
      (c.makeRoom size fuel).capacity = c.capacity ∧
      (c.capacity < (c.makeRoom size fuel).used + size → (c.makeRoom size fuel).lru = []) := by
  induction fuel generalizing c with
  | zero =>
    exact ⟨h, List.prefix_rfl, rfl, fun _ => List.length_eq_zero_iff.1 (Nat.le_zero.1 hfuel)⟩
  | succ fuel ih =>
    rw [BlockCache.makeRoom]
    split_ifs with hroom
    · obtain ⟨hrep, hentries, hlru, hcap⟩ := h.evictBack hroom.2
      have hshort : c.evictBack.lru.length ≤ fuel := by
        rw [hlru, List.length_dropLast]
        omega
      obtain ⟨h1, h2, h3, h4⟩ := ih hrep hshort
      rw [hcap] at h3 h4
      exact ⟨h1, h2.trans (hentries ▸ List.dropLast_prefix _), h3, h4⟩
    · exact ⟨h, List.prefix_rfl, rfl, fun hfull => not_not.1 fun hne => hroom ⟨hfull, hne⟩⟩

/-- The call replaces a resident entry by one so large that the cache is filled beyond its
capacity, with other entries in it. -/
def Overgrows (c : BlockCache) (key : CacheKey) (data : Bytes) : Prop :=
  ∃ old ∈ c.entries, old.key = key ∧ 1 < c.entries.length ∧
    c.capacity < c.used - old.size + data.length

/-- The capacity is exceeded by a single entry at most. -/
def Bounded (c : BlockCache) : Prop := 1 < c.entries.length → c.used ≤ c.capacity

def pushFront (c : BlockCache) (key : CacheKey) (data : Bytes) : BlockCache :=
  { c with
    used := c.used + data.length
    heap := c.heap ++ [⟨key, data, data.length⟩]
    lru := c.heap.length :: c.lru
    index := (key, c.heap.length) :: c.index }

theorem Rep.pushFront_lookup (h : c.Rep) {key : CacheKey} (hnone : c.index.lookup key = none)
    (data : Bytes) (k : CacheKey) (b : ℕ) :
    (c.pushFront key data).index.lookup k = some b ↔
      b ∈ (c.pushFront key data).lru ∧
        ((c.pushFront key data).heap[b]?).map CacheEntry.key = some k := by
  change ((key, c.heap.length) :: c.index).lookup k = some b ↔ b ∈ c.heap.length :: c.lru ∧
    ((c.heap ++ [⟨key, data, data.length⟩])[b]?).map CacheEntry.key = some k
  rw [List.lookup_cons, List.mem_cons]
  by_cases hb : b = c.heap.length
  · subst hb
    rw [List.getElem?_concat_length]
    by_cases hk : k = key
    · simp [hk]
    · rw [beq_false_of_ne hk]
      refine iff_of_false (fun hlook => (h.heap _ (h.lookup hlook).1).ne rfl) ?_
      rintro ⟨-, hkey⟩
      exact hk (Option.some.inj hkey).symm
  · have hiff : (b = c.heap.length ∨ b ∈ c.lru) ∧
        ((c.heap ++ [⟨key, data, data.length⟩])[b]?).map CacheEntry.key = some k ↔
          c.index.lookup k = some b := by
      rw [h.index, or_iff_right hb]
      exact and_congr_right fun hmem => by rw [List.getElem?_append_left (h.heap b hmem)]
    rw [hiff]
    by_cases hk : k = key
    · subst hk
      simp [hnone, Ne.symm hb]
    · rw [beq_false_of_ne hk]

theorem Rep.pushFront (h : c.Rep) {key : CacheKey} (hnone : c.index.lookup key = none)
    (data : Bytes) : (c.pushFront key data).Rep ∧
      (c.pushFront key data).entries = ⟨key, data, data.length⟩ :: c.entries := by
  have hentries : (c.pushFront key data).entries = ⟨key, data, data.length⟩ :: c.entries := by
    change (c.heap.length :: c.lru).filterMap _ = _
    rw [BlockCache.pushFront, List.filterMap_cons_some List.getElem?_concat_length, entries]
    congr 1
    exact List.filterMap_congr fun b hb => List.getElem?_append_left (h.heap b hb)
  refine ⟨⟨List.nodup_cons.2 ⟨fun hmem => (h.heap _ hmem).ne rfl, h.lru⟩, ?_, ?_,
    h.pushFront_lookup hnone data, ?_, ?_⟩, hentries⟩
  · intro b hb
    change b < (c.heap ++ [_]).length
    rw [List.length_append, List.length_singleton]
    rcases List.mem_cons.1 hb with rfl | hb
    · exact Nat.lt_succ_self _
    · exact Nat.lt_succ_of_lt (h.heap b hb)
  · refine List.nodup_cons.2 ⟨fun hmem => ?_, h.keys⟩
    obtain ⟨p, hp, hpk⟩ := List.mem_map.1 hmem
    exact absurd hpk.symm (by simpa using List.lookup_eq_none_iff.1 hnone p hp)
  · intro e he
    rcases List.mem_append.1 he with he | he
    · exact h.size e he
    · rw [List.mem_singleton.1 he]
  · rw [hentries, List.map_cons, List.sum_cons, ← h.used]
    exact add_comm _ _

/-- What an insertion makes of the cache: the entry is in front of others that were there, and the
bound is kept unless the entry outgrows the one it replaces. -/
def Inserted (c : BlockCache) (key : CacheKey) (data : Bytes) (c' : BlockCache) : Prop :=
  c'.Rep ∧ c'.capacity = c.capacity ∧
    (∃ kept, c'.entries = ⟨key, data, data.length⟩ :: kept ∧
      kept <+: c.entries.filter (fun e => e.key ≠ key)) ∧
    (c'.Bounded ↔ ¬ c.Overgrows key data)

theorem Rep.insert_new (h : c.Rep) {key : CacheKey} (hlook : c.index.lookup key = none)
    (data : Bytes) :
    c.Inserted key data ((c.makeRoom data.length c.lru.length).pushFront key data) := by
  have hnew : ∀ e ∈ c.entries, e.key ≠ key := by
    have hfind := h.find key
    rw [hlook, Option.bind_none, List.find?_eq_none] at hfind
    simpa using hfind
  obtain ⟨hrep, hpre, hcap, hroom⟩ := h.makeRoom data.length (le_refl c.lru.length)
  generalize c.makeRoom data.length c.lru.length = c' at hrep hpre hcap hroom ⊢
  have hnone : c'.index.lookup key = none := by
    rw [Option.eq_none_iff_forall_ne_some]
    intro a ha
    obtain ⟨hmem, e, he, hkey⟩ := hrep.lookup ha
    exact hnew e (hpre.subset (mem_entries.2 ⟨a, hmem, he⟩)) hkey
  obtain ⟨hpush, hentries⟩ := hrep.pushFront hnone data
  refine ⟨hpush, hcap, ⟨_, hentries, ?_⟩, iff_of_true ?_ ?_⟩
  · rw [List.filter_eq_self.2 (by simpa using hnew)]
    exact hpre
  · intro hmany
    rw [hentries, List.length_cons, hrep.length_entries] at hmany
    change c'.used + data.length ≤ c'.capacity
    by_contra hfull
    rw [hroom (by omega)] at hmany
    simp at hmany
  · rintro ⟨old, hmem, hkey, -⟩
    exact hnew old hmem hkey

/-- **An insertion** puts the entry in front of others that were there. -/
theorem Rep.insert (h : c.Rep) (key : CacheKey) (data : Bytes) :
    c.Inserted key data (c.insert key data) := by
  unfold BlockCache.insert
  rcases hlook : c.index.lookup key with _ | a
  · exact h.insert_new hlook data
  · obtain ⟨hmem, old, hold, hkey⟩ := h.lookup hlook
    obtain ⟨hrep, hentries⟩ :=
      @Rep.refresh c h key a old hlook hold ⟨old.key, data, data.length⟩ hkey rfl c.hits
    have hresident : old ∈ c.entries := mem_entries.2 ⟨a, hmem, hold⟩
    have hcount := hrep.length_entries
    rw [List.length_cons, List.length_erase_of_mem hmem, ← h.length_entries,
      Nat.sub_add_cancel (List.length_pos_of_mem hresident)] at hcount
    simp only [hold]
    refine ⟨hrep, rfl, ⟨_, hentries.trans (by rw [hkey]), List.prefix_rfl⟩, ?_, ?_⟩
    · rintro hbound ⟨x, hx, hxk, hmany, hfull⟩
      obtain ⟨b, hb, hxb⟩ := mem_entries.1 hx
      obtain rfl := h.address_inj hb hmem hxb hold (hxk.trans hkey.symm)
      obtain rfl : old = x := Option.some.inj (hold.symm.trans hxb)
      exact absurd (hbound (hcount ▸ hmany)) (not_le.2 hfull)
    · intro hno hmany
      by_contra hfull
      exact hno ⟨old, hresident, hkey, hcount ▸ hmany, not_le.1 hfull⟩

end BlockCache

/-! ## Runs -/

inductive CacheCall
  | get (key : CacheKey)
  | insert (key : CacheKey) (data : Bytes)
  deriving DecidableEq, Repr

/-- The cache after some calls, the last of which comes first. -/
def cacheAfter (capacity : ℤ) : List CacheCall → BlockCache
  | [] => newBlockCache capacity
  | .get key :: calls => ((cacheAfter capacity calls).get key).2
  | .insert key data :: calls => (cacheAfter capacity calls).insert key data

/-- The keys that the calls have used, the most recently used first; a lookup that finds nothing
uses none. -/
def recency (capacity : ℤ) : List CacheCall → List CacheKey
  | [] => []
  | .get key :: calls =>
    if ((cacheAfter capacity calls).get key).1.isSome then
      key :: (recency capacity calls).filter (· ≠ key)
    else recency capacity calls
  | .insert key _ :: calls => key :: (recency capacity calls).filter (· ≠ key)

def lastInserted (key : CacheKey) : List CacheCall → Option Bytes
  | [] => none
  | .get _ :: calls => lastInserted key calls
  | .insert k data :: calls => if k = key then some data else lastInserted key calls

theorem cacheAfter_rep (capacity : ℤ) (calls : List CacheCall) :
    (cacheAfter capacity calls).Rep := by
  induction calls with
  | nil => exact BlockCache.rep_new capacity
  | cons call calls ih =>
    cases call with
    | get key => exact (ih.get key).1
    | insert key data => exact (ih.insert key data).1

theorem filter_key_map (es : List CacheEntry) (key : CacheKey) :
    (es.filter (fun e => e.key ≠ key)).map CacheEntry.key =
      (es.map CacheEntry.key).filter (· ≠ key) := by
  rw [List.filter_map]
  rfl

/-- **The resident keys are the most recently used ones**, in that order. -/
theorem resident_keys_recent (capacity : ℤ) (calls : List CacheCall) :
    (cacheAfter capacity calls).entries.map CacheEntry.key <+: recency capacity calls := by
  induction calls with
  | nil => exact List.prefix_rfl
  | cons call calls ih =>
    have hrep := cacheAfter_rep capacity calls
    cases call with
    | get key =>
      rw [cacheAfter, recency]
      obtain ⟨-, -, -, ⟨hmiss, hentries⟩ | ⟨e, -, hkey, hhit, hentries⟩⟩ := hrep.get key
      · rw [hmiss, hentries]
        exact ih
      · rw [hhit, hentries, List.map_cons, hkey, filter_key_map]
        exact List.cons_prefix_cons.2 ⟨rfl, ih.filter _⟩
    | insert key data =>
      rw [cacheAfter, recency]
      obtain ⟨-, -, ⟨kept, hentries, hkept⟩, -⟩ := hrep.insert key data
      rw [hentries, List.map_cons]
      refine List.cons_prefix_cons.2 ⟨rfl, (hkept.map _).trans ?_⟩
      rw [filter_key_map]
      exact ih.filter _

theorem resident_data_last (capacity : ℤ) (calls : List CacheCall) :
    ∀ e ∈ (cacheAfter capacity calls).entries, lastInserted e.key calls = some e.data := by
  induction calls with
  | nil => simp [cacheAfter, newBlockCache, BlockCache.entries]
  | cons call calls ih =>
    have hrep := cacheAfter_rep capacity calls
    intro e he
    cases call with
    | get key =>
      refine ih e ?_
      rw [cacheAfter] at he
      obtain ⟨-, -, -, ⟨-, hentries⟩ | ⟨x, hx, -, -, hentries⟩⟩ := hrep.get key
      · exact hentries ▸ he
      · rw [hentries] at he
        rcases List.mem_cons.1 he with rfl | he
        · exact hx
        · exact List.mem_of_mem_filter he
    | insert key data =>
      rw [cacheAfter] at he
      obtain ⟨-, -, ⟨kept, hentries, hkept⟩, -⟩ := hrep.insert key data
      rw [hentries] at he
      rw [lastInserted]
      rcases List.mem_cons.1 he with rfl | he
      · rw [if_pos rfl]
      · have hmem := List.mem_filter.1 (hkept.subset he)
        rw [if_neg fun hk => of_decide_eq_true hmem.2 hk.symm]
        exact ih e hmem.1

theorem cacheAfter_capacity (capacity : ℤ) (calls : List CacheCall) :
    (cacheAfter capacity calls).capacity = capacity := by
  induction calls with
  | nil => rfl
  | cons call calls ih =>
    have hrep := cacheAfter_rep capacity calls
    cases call with
    | get key => exact (hrep.get key).2.1.trans ih
    | insert key data => exact (hrep.insert key data).2.1.trans ih

theorem bounded_iff (capacity : ℤ) (calls : List CacheCall) :
    (∀ past, past <:+ calls → (cacheAfter capacity past).Bounded) ↔
      ∀ key data past, .insert key data :: past <:+ calls →
        ¬ (cacheAfter capacity past).Overgrows key data := by
  constructor
  · intro h key data past hpast
    exact ((cacheAfter_rep capacity past).insert key data).2.2.2.1 (h _ hpast)
  · intro h past hpast
    induction past with
    | nil => exact fun hmany => by simp [cacheAfter, newBlockCache, BlockCache.entries] at hmany
    | cons call past ih =>
      have hrep := cacheAfter_rep capacity past
      have hbound := ih ((List.suffix_cons _ _).trans hpast)
      cases call with
      | insert key data => exact (hrep.insert key data).2.2.2.2 (h key data past hpast)
      | get key =>
        -- a lookup moves an entry at most
        obtain ⟨hrep', hcap, hused, hcases⟩ := hrep.get key
        intro hmany
        rw [cacheAfter] at hmany ⊢
        rw [hcap, hused]
        refine hbound (hmany.trans_le ?_)
        rcases hcases with ⟨-, hentries⟩ | ⟨e, he, hkey, -, hentries⟩
        · rw [hentries]
        · rw [hentries, List.length_cons]
          refine List.length_filter_lt_length_iff_exists.2 ⟨e, he, ?_⟩
          simp [hkey]

/-- **The block cache under any calls**: index and list hold the same keys once each, the byte count
is the sum of the sizes, a lookup returns what was last inserted or nothing, and the resident keys
are the most recently used ones.  The capacity is kept exactly when no entry is replaced by one that
does not fit beside the others. -/
theorem cache_runs (capacity : ℤ) (calls : List CacheCall) :
    let c := cacheAfter capacity calls
    (c.index.map Prod.fst).Perm (c.entries.map CacheEntry.key) ∧
      (c.entries.map CacheEntry.key).Nodup ∧ c.entries.length = c.lru.length ∧
      c.used = (c.entries.map fun e => (e.data.length : ℤ)).sum ∧
      (∀ key data, (c.get key).1 = some data → lastInserted key calls = some data) ∧
      c.entries.map CacheEntry.key <+: recency capacity calls ∧
      ((∀ past, past <:+ calls → 1 < (cacheAfter capacity past).entries.length →
          (cacheAfter capacity past).used ≤ capacity) ↔
        ∀ key data past, .insert key data :: past <:+ calls →
          ¬ (cacheAfter capacity past).Overgrows key data) := by
  intro c
  have hrep := cacheAfter_rep capacity calls
  refine ⟨?_, hrep.nodup_keys, hrep.length_entries, ?_, fun key data hget => ?_,
    resident_keys_recent capacity calls, ?_⟩
  · exact (List.perm_ext_iff_of_nodup hrep.keys hrep.nodup_keys).2 hrep.mem_index
  · rw [hrep.used]
    congr 1
    refine List.map_congr_left fun e he => ?_
    obtain ⟨a, -, ha⟩ := BlockCache.mem_entries.1 he
    rw [hrep.size e (List.mem_of_getElem? ha)]
  · obtain ⟨-, -, -, ⟨hmiss, -⟩ | ⟨e, he, rfl, hhit, -⟩⟩ := hrep.get key
    · rw [hmiss] at hget
      cases hget
    · rw [hhit] at hget
      cases hget
      exact resident_data_last capacity calls e he
  · rw [← bounded_iff]
    simp only [BlockCache.Bounded, cacheAfter_capacity]

/-- **An overgrown cache**: in a cache of ten bytes, one of two entries of five bytes is replaced by
ten bytes. -/
theorem overgrown_cache :
    let c := cacheAfter 10 [.insert ⟨1, 0, 0⟩ (List.replicate 10 0),
      .insert ⟨2, 0, 0⟩ (List.replicate 5 0), .insert ⟨1, 0, 0⟩ (List.replicate 5 0)]
    c.entries.length = 2 ∧ c.used = 15 ∧ c.capacity = 10 := by decide

end LsmTree
