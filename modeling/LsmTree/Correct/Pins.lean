import Mathlib.Data.List.Count
import Mathlib.Data.List.Find
import LsmTree.Engine.Pins

/-!
# The account of each reader of the table cache

Every opened reader is at one place: in the LRU list, with a `register` that has not inserted it
yet, unregistered but pinned, with a call that is about to close it, or closed.  `Sound` says so of
one reader, by how often it occurs at each place, and every step keeps it for all readers
(`Inv.step`): a step changes the numbers of one reader or two and leaves those of all others.
-/

namespace LsmTree.Pins

variable {l : List ℕ} {f i x : ℕ}

/-- The account of one reader, which occurs `lru` times in the list, `opening` times with a call of
`register`, `closing` times with a call that is about to close it and `pins` times with a caller of
`get`; `x` is its entry and `named` holds of the files that the map has it for. -/
structure Sound (opened : Prop) [Decidable opened] (lru opening closing pins closes : ℕ)
    (x : TcEntry) (named : ℕ → Prop) : Prop where
  places : lru + opening + closing + (if x.deleted = true ∧ 0 < pins then 1 else 0) + closes =
    if opened then 1 else 0
  refs : x.refs = pins
  pinned : 0 < pins → 0 < lru ∨ x.deleted = true
  listed : 0 < lru → named x.fileID ∧ x.deleted = false ∧ x.elem = true
  mapped : ∀ f, named f → 0 < lru ∧ x.fileID = f
  deleted : x.deleted = true → opened ∧ opening = 0

def Inv (s : Sys) : Prop :=
  ∀ r, Sound (r < s.cache.opened) (s.cache.lruList.count r) ((s.opening.map Opening.r).count r)
    (s.closing.count r) (s.pins.count r) (s.cache.closes r) (s.cache.entry r)
    (fun f => s.cache.entries.lookup f = some r)

variable {s : Sys} {r : ℕ}

theorem inv_new (cap : ℤ) : Inv { cache := newCache cap } := by
  intro r
  constructor
  case places => rfl
  case refs => rfl
  case pinned => exact fun h => absurd h (lt_irrefl 0)
  case listed => exact fun h => absurd h (lt_irrefl 0)
  case mapped => intro f h; cases h
  case deleted => intro h; cases h

/-! ### Counting -/

theorem count_eraseIdx (h : l[i]? = some x) (r : ℕ) :
    l.count r = (l.eraseIdx i).count r + if x = r then 1 else 0 := by
  obtain ⟨hi, hx⟩ := List.getElem?_eq_some_iff.1 h
  have hperm := List.getElem_cons_eraseIdx_perm hi
  rw [hx] at hperm
  rw [← hperm.count_eq r, List.count_cons]
  simp

theorem count_eraseIdx_self (h : l[i]? = some x) : l.count x = (l.eraseIdx i).count x + 1 := by
  rw [count_eraseIdx h x, if_pos rfl]

theorem count_eraseIdx_of_ne (h : l[i]? = some x) (hr : r ≠ x) :
    l.count r = (l.eraseIdx i).count r := by
  rw [count_eraseIdx h r, if_neg (Ne.symm hr), Nat.add_zero]

theorem map_eraseIdx_r (l : List Opening) (i : ℕ) :
    (l.eraseIdx i).map Opening.r = (l.map Opening.r).eraseIdx i := (List.eraseIdx_map ..).symm

theorem count_cons_erase (hr : 0 < l.count r) (q : ℕ) : (r :: l.erase r).count q = l.count q :=
  ((List.perm_cons_erase (List.count_pos_iff.1 hr)).count_eq q).symm

/-! ### The steps of `register` -/

theorem Inv.open (h : Inv s) (f : ℕ) (t : SSTable) : Inv (s.step (.open f t)) := by
  intro r
  have hr := h r
  change Sound (r < s.cache.opened + 1) (s.cache.lruList.count r)
    ((s.cache.opened :: s.opening.map Opening.r).count r) (s.closing.count r) (s.pins.count r)
    (s.cache.closes r) (s.cache.entry r) (fun f => s.cache.entries.lookup f = some r)
  rw [List.count_cons]
  constructor
  case places =>
    have := hr.places
    simp only [beq_iff_eq]
    split_ifs at this ⊢ <;> omega
  case refs => exact hr.refs
  case pinned => exact hr.pinned
  case listed => exact hr.listed
  case mapped => exact hr.mapped
  case deleted =>
    intro hd
    obtain ⟨hlt, hzero⟩ := hr.deleted hd
    refine ⟨Nat.lt_succ_of_lt hlt, ?_⟩
    rw [hzero, if_neg]
    simpa using hlt.ne'

theorem lookup_erase_iff (h : Inv s) (hl : 0 < s.cache.lruList.count r) {q : ℕ} (hq : q ≠ r)
    (f : ℕ) : (s.cache.entries.erase (s.cache.entry r).fileID).lookup f = some q ↔
      s.cache.entries.lookup f = some q := by
  by_cases hf : f = (s.cache.entry r).fileID
  · rw [hf, AList.lookup_erase, ((h r).listed hl).1]
    exact iff_of_false (fun hc => by cases hc) fun hc => hq (Option.some.inj hc).symm
  · rw [AList.lookup_erase_ne hf]

theorem evict_eq (c : Cache) : c.evict = c ∨ ∃ r ∈ c.lruList, (c.entry r).refs = 0 ∧
    c.evict = { c with
      lruList := c.lruList.erase r
      entries := c.entries.erase (c.entry r).fileID
      closes := Function.update c.closes r (c.closes r + 1) } := by
  unfold Cache.evict
  split
  · exact Or.inl rfl
  · rename_i r hr
    have hok := List.find?_some hr
    rw [Bool.and_eq_true, decide_eq_true_eq] at hok
    exact Or.inr ⟨r, List.mem_reverse.1 (List.mem_of_find?_eq_some hr), hok.1, rfl⟩

theorem Inv.evict (h : Inv s) : Inv { s with cache := s.cache.evict } := by
  rcases evict_eq s.cache with heq | ⟨r, hl, hrefs, heq⟩
  · rw [heq]
    exact h
  rw [heq]
  have hpos := List.count_pos_iff.2 hl
  intro q
  have hq := h q
  change Sound (q < s.cache.opened) ((s.cache.lruList.erase r).count q)
    ((s.opening.map Opening.r).count q) (s.closing.count q) (s.pins.count q)
    (Function.update s.cache.closes r (s.cache.closes r + 1) q) (s.cache.entry q)
    (fun f => (s.cache.entries.erase (s.cache.entry r).fileID).lookup f = some q)
  by_cases hrq : q = r
  · subst hrq
    have hone : s.cache.lruList.count q = 1 := by
      have := hq.places
      split_ifs at this <;> omega
    have hzero : s.pins.count q = 0 := by
      rw [hq.refs, Int.natCast_eq_zero] at hrefs
      exact hrefs
    have hnamed : ∀ f, ¬ (s.cache.entries.erase (s.cache.entry q).fileID).lookup f = some q := by
      intro f hf
      by_cases hfq : f = (s.cache.entry q).fileID
      · rw [hfq, AList.lookup_erase] at hf
        cases hf
      · rw [AList.lookup_erase_ne hfq] at hf
        exact hfq (hq.mapped f hf).2.symm
    rw [Function.update_self, List.count_erase_self, hone]
    have hplaces := hq.places
    rw [hone] at hplaces
    exact ⟨by omega, hq.refs, fun hp => by omega, fun hp => by omega,
      fun f hf => absurd hf (hnamed f), hq.deleted⟩
  · rw [Function.update_of_ne hrq, List.count_erase_of_ne hrq]
    simp only [lookup_erase_iff h hpos hrq]
    exact hq

theorem evict_lookup_of_none {c : Cache} (hf : c.entries.lookup f = none) :
    c.evict.entries.lookup f = none := by
  rcases evict_eq c with heq | ⟨r, -, -, heq⟩
  · rw [heq, hf]
  · rw [heq]
    change (c.entries.erase (c.entry r).fileID).lookup f = none
    by_cases hfr : f = (c.entry r).fileID
    · rw [hfr, AList.lookup_erase]
    · rw [AList.lookup_erase_ne hfr, hf]

theorem Inv.discard (h : Inv s) {x : Opening} (hx : s.opening[i]? = some x) :
    Inv { s with cache := s.cache.close x.r, opening := s.opening.eraseIdx i } := by
  have hmap : (s.opening.map Opening.r)[i]? = some x.r := by rw [List.getElem?_map, hx]; rfl
  intro q
  have hq := h q
  change Sound (q < s.cache.opened) (s.cache.lruList.count q)
    (((s.opening.eraseIdx i).map Opening.r).count q) (s.closing.count q) (s.pins.count q)
    (Function.update s.cache.closes x.r (s.cache.closes x.r + 1) q) (s.cache.entry q)
    (fun f => s.cache.entries.lookup f = some q)
  rw [map_eraseIdx_r]
  by_cases hxq : q = x.r
  · subst hxq
    rw [Function.update_self]
    rw [count_eraseIdx_self hmap] at hq
    refine ⟨?_, hq.refs, hq.pinned, hq.listed, hq.mapped, fun hd => absurd (hq.deleted hd).2
      (Nat.succ_ne_zero _)⟩
    have := hq.places
    omega
  · rw [Function.update_of_ne hxq, ← count_eraseIdx_of_ne hmap hxq]
    exact hq

theorem Inv.insert (h : Inv s) {i : ℕ} {x : Opening} (hx : s.opening[i]? = some x)
    (hnew : s.cache.entries.lookup x.fileID = none) :
    Inv { s with
      cache := { s.cache.set x.r { fileID := x.fileID, elem := true, reader := x.reader } with
        lruList := x.r :: s.cache.lruList
        entries := s.cache.entries.insert x.fileID x.r }
      opening := s.opening.eraseIdx i } := by
  have hmap : (s.opening.map Opening.r)[i]? = some x.r := by rw [List.getElem?_map, hx]; rfl
  intro q
  have hq := h q
  change Sound (q < s.cache.opened) ((x.r :: s.cache.lruList).count q)
    (((s.opening.eraseIdx i).map Opening.r).count q) (s.closing.count q) (s.pins.count q)
    (s.cache.closes q) (Function.update s.cache.entry x.r
      { fileID := x.fileID, elem := true, reader := x.reader } q)
    (fun f => (s.cache.entries.insert x.fileID x.r).lookup f = some q)
  rw [map_eraseIdx_r]
  by_cases hxq : q = x.r
  · subst hxq
    rw [count_eraseIdx_self hmap] at hq
    -- the reader was at no other place
    have hlive : (s.cache.entry x.r).deleted ≠ true :=
      fun hd => (Nat.succ_ne_zero _) (hq.deleted hd).2
    have hplaces := hq.places
    rw [if_neg (fun hd => hlive hd.1)] at hplaces
    have hlru : s.cache.lruList.count x.r = 0 := by split_ifs at hplaces <;> omega
    have hpins : s.pins.count x.r = 0 := by
      rcases Nat.eq_zero_or_pos (s.pins.count x.r) with hzero | hpos
      · exact hzero
      · rcases hq.pinned hpos with hl | hd
        · omega
        · exact absurd hd hlive
    rw [Function.update_self, List.count_cons_self, hlru, hpins]
    constructor
    case places =>
      rw [if_neg (fun hd => absurd hd.2 (lt_irrefl 0))]
      omega
    case refs => rfl
    case pinned => exact fun hp => absurd hp (lt_irrefl 0)
    case listed => exact fun _ => ⟨AList.lookup_insert _, rfl, rfl⟩
    case mapped =>
      intro f hf
      by_cases hfx : f = x.fileID
      · exact ⟨Nat.one_pos, hfx.symm⟩
      · rw [AList.lookup_insert_ne hfx] at hf
        have := (hq.mapped f hf).1
        omega
    case deleted => intro hd; cases hd
  · have hnamed : ∀ f, (s.cache.entries.insert x.fileID x.r).lookup f = some q ↔
        s.cache.entries.lookup f = some q := by
      intro f
      by_cases hfx : f = x.fileID
      · rw [hfx, AList.lookup_insert, hnew]
        exact iff_of_false (fun hc => hxq (Option.some.inj hc).symm) fun hc => by cases hc
      · rw [AList.lookup_insert_ne hfx]
    rw [Function.update_of_ne hxq, List.count_cons_of_ne (Ne.symm hxq),
      ← count_eraseIdx_of_ne hmap hxq]
    simp only [hnamed]
    exact hq

theorem Inv.register (h : Inv s) (i : ℕ) : Inv (s.step (.register i)) := by
  cases hx : s.opening[i]? with
  | none =>
    simp only [Sys.step, hx]
    exact h
  | some x =>
    simp only [Sys.step, hx, Cache.register]
    by_cases hdup : x.fileID ∈ s.cache.entries
    · rw [if_pos hdup]
      exact h.discard hx
    · rw [if_neg hdup]
      have hnew := AList.lookup_eq_none.2 hdup
      split_ifs
      · exact h.evict.insert hx (evict_lookup_of_none hnew)
      · exact h.insert hx hnew

/-! ### The steps of `get`, `release` and `unregister` -/

theorem Inv.of_lookup (h : Inv s) (hf : s.cache.entries.lookup f = some r) :
    0 < s.cache.lruList.count r ∧ (s.cache.entry r).fileID = f ∧
      (s.cache.entry r).deleted = false ∧ (s.cache.entry r).elem = true := by
  obtain ⟨hl, hid⟩ := (h r).mapped f hf
  exact ⟨hl, hid, ((h r).listed hl).2⟩

theorem get_eq (h : Inv s) (hf : s.cache.entries.lookup f = some r) :
    s.cache.get f = some (r, { s.cache with
      entry := Function.update s.cache.entry r
        { s.cache.entry r with refs := (s.cache.entry r).refs + 1 }
      lruList := r :: s.cache.lruList.erase r }) := by
  obtain ⟨hl, -, hdel, helem⟩ := h.of_lookup hf
  have hmem : r ∈ s.cache.lruList := List.count_pos_iff.1 hl
  simp [Cache.get, hf, hdel, Cache.set, helem, Cache.moveToFront, hmem]

theorem Inv.get (h : Inv s) (f : ℕ) : Inv (s.step (.get f)) := by
  cases hf : s.cache.entries.lookup f with
  | none =>
    simp only [Sys.step, Cache.get, hf]
    exact h
  | some r =>
    obtain ⟨hl, -, hdel, -⟩ := h.of_lookup hf
    simp only [Sys.step, get_eq h hf]
    intro q
    have hq := h q
    change Sound (q < s.cache.opened) ((r :: s.cache.lruList.erase r).count q)
      ((s.opening.map Opening.r).count q) (s.closing.count q) ((r :: s.pins).count q)
      (s.cache.closes q) (Function.update s.cache.entry r
        { s.cache.entry r with refs := (s.cache.entry r).refs + 1 } q)
      (fun f => s.cache.entries.lookup f = some q)
    rw [count_cons_erase hl]
    by_cases hrq : q = r
    · subst hrq
      rw [Function.update_self, List.count_cons_self]
      refine ⟨?_, ?_, fun _ => Or.inl hl, hq.listed, hq.mapped, hq.deleted⟩
      · have := hq.places
        simp only [hdel, Bool.false_eq_true, false_and, if_false] at this ⊢
        exact this
      · have := hq.refs
        simp only
        omega
    · rw [Function.update_of_ne hrq, List.count_cons_of_ne (Ne.symm hrq)]
      exact hq

theorem Inv.release (h : Inv s) (i : ℕ) : Inv (s.step (.release i)) := by
  cases hi : s.pins[i]? with
  | none =>
    simp only [Sys.step, hi]
    exact h
  | some r =>
    simp only [Sys.step, hi, Cache.release]
    intro q
    have hq := h q
    change Sound (q < s.cache.opened) (s.cache.lruList.count q)
      ((s.opening.map Opening.r).count q) ((if ((s.cache.entry r).deleted &&
        decide ((s.cache.entry r).refs - 1 = 0)) = true then r :: s.closing else s.closing).count q)
      ((s.pins.eraseIdx i).count q) (s.cache.closes q) (Function.update s.cache.entry r
        { s.cache.entry r with refs := (s.cache.entry r).refs - 1 } q)
      (fun f => s.cache.entries.lookup f = some q)
    by_cases hrq : q = r
    · subst hrq
      rw [count_eraseIdx_self hi] at hq
      have hrefs := hq.refs
      have hplaces := hq.places
      rw [Function.update_self]
      refine ⟨?_, ?_, fun hp => hq.pinned (Nat.succ_pos _), hq.listed, hq.mapped, hq.deleted⟩
      · cases hdel : (s.cache.entry q).deleted with
        | false =>
          rw [hdel] at hplaces
          simpa using hplaces
        | true =>
          rw [if_pos ⟨hdel, Nat.succ_pos _⟩] at hplaces
          simp only [Bool.true_and, decide_eq_true_eq, true_and]
          -- the last release is the one that closes the reader
          by_cases hlast : (s.pins.eraseIdx i).count q = 0
          · rw [if_pos (by omega), List.count_cons_self, if_neg (by omega)]
            omega
          · rw [if_neg (by omega), if_pos (by omega)]
            exact hplaces
      · simp only
        omega
    · rw [Function.update_of_ne hrq, ← count_eraseIdx_of_ne hi hrq]
      split_ifs
      · rw [List.count_cons_of_ne (Ne.symm hrq)]
        exact hq
      · exact hq

theorem Inv.unregister (h : Inv s) (f : ℕ) : Inv (s.step (.unregister f)) := by
  cases hf : s.cache.entries.lookup f with
  | none =>
    simp only [Sys.step, Cache.unregister, hf]
    exact h
  | some r =>
    obtain ⟨hl, hid, hdel, helem⟩ := h.of_lookup hf
    simp only [Sys.step, Cache.unregister, hf, helem, if_true]
    intro q
    have hq := h q
    change Sound (q < s.cache.opened) ((s.cache.lruList.erase r).count q)
      ((s.opening.map Opening.r).count q) (((if (s.cache.entry r).refs = 0 then some r
        else none).toList ++ s.closing).count q) (s.pins.count q) (s.cache.closes q)
      (Function.update s.cache.entry r { s.cache.entry r with elem := false, deleted := true } q)
      (fun g => (s.cache.entries.erase f).lookup g = some q)
    rw [List.count_append]
    by_cases hrq : q = r
    · subst hrq
      have hplaces := hq.places
      have hrefs := hq.refs
      rw [hdel, if_neg (fun hc => by cases hc.1)] at hplaces
      have hopened : q < s.cache.opened := by
        by_contra hc
        rw [if_neg hc] at hplaces
        omega
      rw [if_pos hopened] at hplaces
      rw [Function.update_self, List.count_erase_self]
      refine ⟨?_, hrefs, fun _ => Or.inr rfl, fun hp => by omega, ?_, fun _ => ⟨hopened, by omega⟩⟩
      · rw [if_pos hopened]
        by_cases hzero : (s.cache.entry q).refs = 0
        · rw [if_pos hzero, if_neg (by omega), Option.toList_some, List.count_singleton_self]
          omega
        · rw [if_neg hzero, if_pos ⟨rfl, by omega⟩, Option.toList_none, List.count_nil]
          omega
      · intro g hg
        by_cases hgf : g = f
        · rw [hgf, AList.lookup_erase] at hg
          cases hg
        · rw [AList.lookup_erase_ne hgf] at hg
          exact absurd ((hq.mapped g hg).2.symm.trans hid) hgf
    · have hempty : (if (s.cache.entry r).refs = 0 then some r else none).toList.count q = 0 := by
        split_ifs
        · exact List.count_eq_zero.2 fun hc => hrq (List.mem_singleton.1 hc)
        · rfl
      subst hid
      rw [Function.update_of_ne hrq, List.count_erase_of_ne hrq, hempty, Nat.zero_add]
      simp only [lookup_erase_iff h hl hrq]
      exact hq

theorem Inv.close (h : Inv s) (i : ℕ) : Inv (s.step (.close i)) := by
  cases hi : s.closing[i]? with
  | none =>
    simp only [Sys.step, hi]
    exact h
  | some r =>
    simp only [Sys.step, hi, Cache.close]
    intro q
    have hq := h q
    change Sound (q < s.cache.opened) (s.cache.lruList.count q)
      ((s.opening.map Opening.r).count q) ((s.closing.eraseIdx i).count q) (s.pins.count q)
      (Function.update s.cache.closes r (s.cache.closes r + 1) q) (s.cache.entry q)
      (fun f => s.cache.entries.lookup f = some q)
    by_cases hrq : q = r
    · subst hrq
      rw [count_eraseIdx_self hi] at hq
      rw [Function.update_self]
      refine ⟨?_, hq.refs, hq.pinned, hq.listed, hq.mapped, hq.deleted⟩
      have := hq.places
      omega
    · rw [Function.update_of_ne hrq, ← count_eraseIdx_of_ne hi hrq]
      exact hq

theorem Inv.step (h : Inv s) : (a : Act) → Inv (s.step a)
  | .open f t => h.open f t
  | .register i => h.register i
  | .get f => h.get f
  | .release i => h.release i
  | .unregister f => h.unregister f
  | .close i => h.close i

theorem Inv.foldl (h : Inv s) (acts : List Act) : Inv (acts.foldl Sys.step s) := by
  induction acts generalizing s with
  | nil => exact h
  | cons a acts ih => exact ih (h.step a)

theorem inv_run (cap : ℤ) (acts : List Act) : Inv (run cap acts) := (inv_new cap).foldl acts

end LsmTree.Pins
