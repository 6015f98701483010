import LsmTree.Correct.Pins

/-!
# Pinned readers of the table cache

From the accounts of the readers (`Inv`) along every run of `register`, `get`, `release` and
`unregister`: a reader is closed at most once and only when nobody pins it, and the open readers
are those in the map, those that are unregistered but pinned, and those that a call which has not
completed holds (`readers_pinned`).
-/

namespace LsmTree.Pins

variable {s : Sys} {r : ℕ}

/-! ### What an account says -/

section account

variable {opened : Prop} [Decidable opened] {lru opening closing pins closes : ℕ} {x : TcEntry}
  {named : ℕ → Prop} (h : Sound opened lru opening closing pins closes x named)

include h

theorem Sound.pins_eq_zero (hpos : 0 < opening + closing + closes) : pins = 0 := by
  by_contra hne
  have hplaces := h.places
  rcases h.pinned (Nat.pos_of_ne_zero hne) with hl | hd
  · split_ifs at hplaces <;> omega
  · rw [if_pos ⟨hd, Nat.pos_of_ne_zero hne⟩] at hplaces
    split_ifs at hplaces <;> omega

theorem Sound.closes_le : closes ≤ 1 := by
  have hplaces := h.places
  split_ifs at hplaces <;> omega

theorem Sound.open_of_pinned (hpins : 0 < pins) : opened ∧ closes = 0 := by
  have hzero : ¬ 0 < opening + closing + closes := fun hc => hpins.ne' (h.pins_eq_zero hc)
  refine ⟨?_, by omega⟩
  by_contra hc
  have hplaces := h.places
  rw [if_neg hc] at hplaces
  rcases h.pinned hpins with hl | hd
  · omega
  · exact hc (h.deleted hd).1

theorem Sound.open_iff : (opened ∧ closes = 0) ↔
    (∃ f, named f) ∨ (x.deleted = true ∧ 0 < pins) ∨ 0 < opening ∨ 0 < closing := by
  have hplaces := h.places
  have hnamed : (∃ f, named f) ↔ 0 < lru := by
    constructor
    · rintro ⟨f, hf⟩
      exact (h.mapped f hf).1
    · exact fun hl => ⟨_, (h.listed hl).1⟩
  rw [hnamed]
  by_cases hdet : x.deleted = true ∧ 0 < pins
  · rw [if_pos hdet] at hplaces
    refine iff_of_true ⟨(h.deleted hdet.1).1, ?_⟩ (Or.inr (Or.inl hdet))
    split_ifs at hplaces <;> omega
  · rw [if_neg hdet] at hplaces
    simp only [hdet, false_or]
    constructor
    · rintro ⟨ho, hc⟩
      rw [if_pos ho] at hplaces
      omega
    · intro hpos
      have ho : opened := by
        by_contra hc
        rw [if_neg hc] at hplaces
        omega
      rw [if_pos ho] at hplaces
      exact ⟨ho, by omega⟩

theorem Sound.closed_of_deleted (hd : x.deleted = true) (hp : pins = 0) (hc : closing = 0) :
    closes = 1 := by
  have hplaces := h.places
  obtain ⟨ho, hzero⟩ := h.deleted hd
  have hl : lru = 0 := by
    by_contra hl
    have := (h.listed (Nat.pos_of_ne_zero hl)).2.1
    rw [hd] at this
    cases this
  rw [if_neg (by omega), if_pos ho] at hplaces
  omega

end account

theorem Inv.refs_of_closes (h : Inv s) {a : Act}
    (hc : (s.step a).cache.closes r ≠ s.cache.closes r) : (s.cache.entry r).refs = 0 := by
  have hfree : 0 < (s.opening.map Opening.r).count r + s.closing.count r + s.cache.closes r →
      (s.cache.entry r).refs = 0 := fun hpos => by
    rw [(h r).refs, (h r).pins_eq_zero hpos]
    rfl
  cases a with
  | «open» f t => exact absurd rfl hc
  | get f =>
    simp only [Sys.step] at hc
    cases hf : s.cache.entries.lookup f with
    | none => simp [Cache.get, hf] at hc
    | some q => simp [get_eq h hf] at hc
  | release i =>
    simp only [Sys.step] at hc
    cases hi : s.pins[i]? <;> simp [hi, Cache.release, Cache.set] at hc
  | unregister f =>
    simp only [Sys.step, Cache.unregister] at hc
    cases hf : s.cache.entries.lookup f <;> simp [hf, Cache.set] at hc
  | close i =>
    simp only [Sys.step] at hc
    cases hi : s.closing[i]? with
    | none => simp [hi] at hc
    | some q =>
      simp only [hi, Cache.close] at hc
      obtain rfl : r = q := by
        by_contra hne
        exact hc (Function.update_of_ne hne _ _)
      have := List.count_pos_iff.2 (List.mem_of_getElem? hi)
      exact hfree (by omega)
  | register i =>
    simp only [Sys.step] at hc
    cases hx : s.opening[i]? with
    | none => simp [hx] at hc
    | some x =>
      simp only [hx, Cache.register] at hc
      split_ifs at hc
      · obtain rfl : r = x.r := by
          by_contra hne
          exact hc (Function.update_of_ne hne _ _)
        have := List.count_pos_iff.2
          (List.mem_map_of_mem (f := Opening.r) (List.mem_of_getElem? hx))
        exact hfree (by omega)
      · change s.cache.evict.closes r ≠ s.cache.closes r at hc
        rcases evict_eq s.cache with heq | ⟨q, -, hrefs, heq⟩
        · rw [heq] at hc
          exact absurd rfl hc
        · rw [heq] at hc
          obtain rfl : r = q := by
            by_contra hne
            exact hc (Function.update_of_ne hne _ _)
          exact hrefs
      · exact absurd rfl hc

theorem Inv.deleted_step (h : Inv s) (hd : (s.cache.entry r).deleted = true) (a : Act) :
    ((s.step a).cache.entry r).deleted = true := by
  cases a with
  | «open» f t => exact hd
  | close i =>
    simp only [Sys.step]
    cases s.closing[i]? <;> exact hd
  | get f =>
    simp only [Sys.step]
    cases hf : s.cache.entries.lookup f with
    | none =>
      simp only [Cache.get, hf]
      exact hd
    | some q =>
      simp only [get_eq h hf, Function.update_apply]
      split_ifs with hq
      · rw [← hq]
        exact hd
      · exact hd
  | release i =>
    simp only [Sys.step]
    cases s.pins[i]? with
    | none => exact hd
    | some q =>
      simp only [Cache.release, Cache.set, Function.update_apply]
      split_ifs with hq
      · rw [← hq]
        exact hd
      · exact hd
  | unregister f =>
    simp only [Sys.step, Cache.unregister]
    cases s.cache.entries.lookup f with
    | none => exact hd
    | some q =>
      simp only [Cache.set, Function.update_apply]
      split_ifs
      · rfl
      · exact hd
  | register i =>
    simp only [Sys.step]
    cases hx : s.opening[i]? with
    | none => exact hd
    | some x =>
      have hne : r ≠ x.r := by
        rintro rfl
        exact (List.count_pos_iff.2 (List.mem_map_of_mem (List.mem_of_getElem? hx))).ne'
          ((h x.r).deleted hd).2
      have hevict : (s.cache.evict.entry r).deleted = true := by
        rcases evict_eq s.cache with heq | ⟨q, -, -, heq⟩ <;> rw [heq] <;> exact hd
      simp only [Cache.register]
      split_ifs
      · exact hd
      · simp only [Cache.set, Function.update_of_ne hne]
        exact hevict
      · simp only [Cache.set, Function.update_of_ne hne]
        exact hd

theorem Inv.deleted_foldl (h : Inv s) (hd : (s.cache.entry r).deleted = true) (acts : List Act) :
    ((acts.foldl Sys.step s).cache.entry r).deleted = true := by
  induction acts generalizing s with
  | nil => exact hd
  | cons a acts ih => exact ih (h.step a) (h.deleted_step hd a)

def Sys.IsOpen (s : Sys) (r : ℕ) : Prop := r < s.cache.opened ∧ s.cache.closes r = 0

def Sys.InMap (s : Sys) (r : ℕ) : Prop := ∃ f, s.cache.entries.lookup f = some r

/-- A call that has not completed yet holds the reader: it has opened it and not yet inserted it,
or it is about to close it. -/
def Sys.Busy (s : Sys) (r : ℕ) : Prop := r ∈ s.opening.map Opening.r ∨ r ∈ s.closing

/-- **Readers are closed once, and not while they are pinned.** -/
theorem readers_pinned (cap : ℤ) (acts : List Act) :
    (∀ a r, (run cap (acts ++ [a])).cache.closes r ≠ (run cap acts).cache.closes r →
      ((run cap acts).cache.entry r).refs = 0) ∧
    (∀ r, (run cap acts).cache.closes r ≤ 1) ∧
    (∀ r, ((run cap acts).cache.entry r).refs = (run cap acts).pins.count r ∧
      (r ∈ (run cap acts).pins → (run cap acts).IsOpen r)) ∧
    (∀ f r acts', (run cap acts).cache.entries.lookup f = some r →
      r ∉ (run cap (acts ++ .unregister f :: acts')).pins →
      ¬ (run cap (acts ++ .unregister f :: acts')).Busy r →
      (run cap (acts ++ .unregister f :: acts')).cache.closes r = 1) ∧
    ∀ r, (run cap acts).IsOpen r ↔ (run cap acts).InMap r ∨
      (((run cap acts).cache.entry r).deleted = true ∧ r ∈ (run cap acts).pins) ∨
        (run cap acts).Busy r := by
  have h := inv_run cap acts
  have happend : ∀ acts', run cap (acts ++ acts') = acts'.foldl Sys.step (run cap acts) :=
    fun acts' => List.foldl_append
  refine ⟨fun a r hc => ?_, fun r => (h r).closes_le, fun r => ⟨(h r).refs, fun hp => ?_⟩,
    fun f r acts' hf hp hb => ?_, fun r => ?_⟩
  · rw [happend] at hc
    exact h.refs_of_closes hc
  · exact (h r).open_of_pinned (List.count_pos_iff.2 hp)
  · rw [happend] at hp hb ⊢
    have hdel : (((run cap acts).step (.unregister f)).cache.entry r).deleted = true := by
      simp only [Sys.step, Cache.unregister, hf, Cache.set, Function.update_self]
    have hstep := h.step (.unregister f)
    rw [Sys.Busy, not_or] at hb
    exact ((hstep.foldl acts') r).closed_of_deleted (hstep.deleted_foldl hdel acts')
      (List.count_eq_zero.2 hp) (List.count_eq_zero.2 hb.2)
  · have := (h r).open_iff
    simp only [List.count_pos_iff] at this
    exact this

end LsmTree.Pins
