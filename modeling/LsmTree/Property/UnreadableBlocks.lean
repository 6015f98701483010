import LsmTree.Correct.Eviction
import LsmTree.Lib.Segments
import LsmTree.Property.Refinement

/-!
# Scans over unreadable blocks

The iterator of a table steps over a block that cannot be loaded, and the sources of a scan have no
way to report it: `ScanWithError` never returns an error.  So a scan returns what it would return
with all blocks readable exactly if it overlooks no key: for each key it gets to, the newest version
is readable, or the next readable one says the same (`scan_eq_iff`).
-/

namespace LsmTree.Unreadable

open KWayMerge Segments

variable {start stop : Bytes} {limit : ℤ}

variable {k : Bytes} {L : List (List Entry)} {α : Type*}

/-! ### What a scan shows of a key -/

/-- The values of a key that a scan returns, given what the versions of the key say, in the order of
the sources: the first version decides.  The empty key is not recognised when it comes again, so
that each of its live versions is returned. -/
def shown (k : Bytes) (ps : List (Option Bytes)) : List Bytes :=
  if k = [] then ps.reduceOption else ps.head?.join.toList

theorem shown_length_le (hk : k ≠ []) (ps : List (Option Bytes)) : (shown k ps).length ≤ 1 := by
  unfold shown
  rw [if_neg hk]
  cases ps.head?.join <;> simp

@[simp] theorem shown_nil (k : Bytes) : shown k [] = [] := by
  unfold shown
  split_ifs <;> rfl

theorem shown_empty_cons (p : Option Bytes) (ps : List (Option Bytes)) :
    shown [] (p :: ps) = p.toList ++ shown [] ps := by
  cases p <;> rfl

theorem shown_cons (hk : k ≠ []) (p : Option Bytes) (ps : List (Option Bytes)) :
    shown k (p :: ps) = p.toList := by
  unfold shown
  rw [if_neg hk]
  rfl

/-- The first elements up to the limit, all of them if it is not positive. -/
def upTo {α : Type*} (limit : ℤ) (l : List α) : List α :=
  if 0 < limit then l.take limit.toNat else l

theorem scanLoop_eq (limit : ℤ) (M : List ScanItem) :
    scanLoop limit M none [] = upTo limit (liveFirsts M none) := by
  unfold upTo
  split_ifs with hl
  · rw [scanLoop_limited hl M none [] (by simpa using hl.le)]
    simp
  · rw [scanLoop_unlimited hl]
    rfl

theorem liveFirsts_sublist (M : List ScanItem) (last : Option Bytes) :
    (liveFirsts M last).Sublist (M.map (fun x => (x.userKey, x.value))) := by
  induction M generalizing last with
  | nil => exact List.Sublist.refl _
  | cons x xs ih =>
    rw [liveFirsts, List.map_cons]
    split_ifs
    · exact (ih _).cons _
    · exact (ih _).cons _
    · exact (ih _).cons_cons _

/-- The last key seen is not above what is left, and is not the empty one. -/
def Passed (last : Option Bytes) (M : List ScanItem) : Prop :=
  ∀ l, last = some l → l ≠ [] ∧ ∀ x ∈ M, l ≤ x.userKey

theorem atKey_liveFirsts {M : List ScanItem} {last : Option Bytes}
    (hM : Ascending ScanItem.userKey M) (hlast : Passed last M) (k : Bytes) :
    atKey Prod.fst (liveFirsts M last) k = if last = some k then [] else
      (shown k ((atKey ScanItem.userKey M k).map ScanItem.payload)).map (fun v => (k, v)) := by
  induction M generalizing last with
  | nil => simp [liveFirsts, atKey]
  | cons x xs ih =>
    have htail : Passed last xs := fun l hl =>
      ⟨(hlast l hl).1, fun y hy => (hlast l hl).2 y (List.mem_cons_of_mem x hy)⟩
    rw [liveFirsts, atKey_cons x xs k]
    by_cases hseen : last = some x.userKey
    · -- another version of the last key
      rw [if_pos hseen, ih hM.tail htail]
      by_cases hk : last = some k
      · rw [if_pos hk, if_pos hk]
      · have hne : x.userKey ≠ k := fun hc => hk (hseen.trans (congrArg some hc))
        rw [if_neg hk, if_neg hk, if_neg hne]
    rw [if_neg hseen]
    have hlive : ∀ rest, atKey Prod.fst
        (if x.deleted then rest else (x.userKey, x.value) :: rest) k =
          (if x.userKey = k then x.payload.toList.map (fun v => (k, v)) else []) ++
            atKey Prod.fst rest k := by
      intro rest
      unfold ScanItem.payload
      split_ifs with hd hk hk
      · rfl
      · rfl
      · rw [atKey_cons, if_pos hk, hk]
        rfl
      · rw [atKey_cons, if_neg hk]
        rfl
    rw [hlive]
    by_cases hempty : x.userKey = []
    · -- the empty key comes first, and is not remembered
      obtain rfl : last = none := by
        cases last with
        | none => rfl
        | some l =>
          obtain ⟨hl, hle⟩ := hlast l rfl
          have hle := hle x List.mem_cons_self
          rw [hempty] at hle
          cases l with
          | nil => exact absurd rfl hl
          | cons a l => exact absurd (List.nil_lt_cons a l) (not_lt.2 hle)
      have hnext : nextLastKey none x.userKey = none := by
        rw [hempty]
        rfl
      have hnew : (none : Option Bytes) ≠ some k := (Option.some_ne_none k).symm
      rw [hnext, ih hM.tail htail, if_neg hnew, if_neg hnew]
      split_ifs with hk
      · obtain rfl : k = [] := hk.symm.trans hempty
        rw [List.map_cons, shown_empty_cons, List.map_append]
      · rfl
    · rw [nextLastKey_of_ne hempty, ih hM.tail fun l hl => by
        cases hl
        exact ⟨hempty, fun y hy => hM.head_le (List.mem_cons_of_mem x hy)⟩]
      by_cases hk : x.userKey = k
      · subst hk
        rw [if_pos rfl, if_pos rfl, if_pos rfl, if_neg hseen, List.map_cons, shown_cons hempty,
          List.append_nil]
      · rw [if_neg hk, if_neg (fun hc => hk (Option.some.inj hc)), if_neg hk, List.nil_append]
        by_cases hlk : last = some k
        · -- a key that was passed does not come back
          have hlt : k < x.userKey :=
            lt_of_le_of_ne ((hlast k hlk).2 x List.mem_cons_self) (Ne.symm hk)
          have hnone : atKey ScanItem.userKey xs k = [] := atKey_eq_nil fun y hy =>
            (hlt.trans_le (hM.head_le (List.mem_cons_of_mem x hy))).ne'
          rw [if_pos hlk, hnone, List.map_nil, shown_nil, List.map_nil]
        · rw [if_neg hlk]

/-! ### The items of one key in the merge -/

def keyVersions (L : List (List Entry)) (k : Bytes) : List Entry :=
  L.flatMap (fun es => es.filter (fun x => decide (x.key.userKey = k)))

theorem atKey_scanSource {p : ℕ} {es : List Entry} (hs : SortedEntries es) (k : Bytes) :
    (atKey ScanItem.userKey (scanSource start stop p es) k).map ScanItem.payload =
      if InRange start stop k then
        (es.filter (fun x => decide (x.key.userKey = k))).map Entry.payload else [] := by
  by_cases hr : InRange start stop k
  · rw [if_pos hr, scanSource_eq hs]
    unfold atKey
    have hpay : ScanItem.payload ∘ Entry.scanItem p = Entry.payload :=
      funext (Entry.scanItem_payload p)
    rw [List.filter_map, List.map_map, List.filter_filter, hpay]
    congr 1
    refine List.filter_congr fun x _ => ?_
    by_cases hk : x.key.userKey = k
    · simp [Entry.scanItem, hk, hr]
    · simp [Entry.scanItem, hk]
  · rw [if_neg hr, atKey_eq_nil, List.map_nil]
    intro x hx hk
    obtain ⟨y, -, hin, rfl⟩ := (mem_scanSource hs).1 hx
    exact hr (hk ▸ hin)

theorem atKey_allSources {p : ℕ} (hs : ∀ es ∈ L, SortedEntries es) (k : Bytes) :
    (atKey ScanItem.userKey (allSources start stop p L).flatten k).map ScanItem.payload =
      if InRange start stop k then (keyVersions L k).map Entry.payload else [] := by
  induction L generalizing p with
  | nil => simp [allSources, atKey, keyVersions]
  | cons es L ih =>
    have ih := @ih (p + 1) fun es hes => hs es (List.mem_cons_of_mem _ hes)
    have hes := @atKey_scanSource start stop p es (hs es List.mem_cons_self) k
    unfold atKey at ih hes ⊢
    rw [allSources, List.flatten_cons, List.filter_append, List.map_append, hes, ih]
    split_ifs
    · rw [← List.map_append]
      rfl
    · rfl

theorem allSources_sorted {p : ℕ} (hs : ∀ es ∈ L, SortedEntries es) (k : Bytes) :
    Sorted scanLess' (atKey ScanItem.userKey (allSources start stop p L).flatten k) := by
  induction L generalizing p with
  | nil => exact List.Pairwise.nil
  | cons es L ih =>
    have hs' : ∀ es ∈ L, SortedEntries es := fun es hes => hs es (List.mem_cons_of_mem _ hes)
    have ih := @ih (p + 1) hs'
    unfold Sorted atKey at ih ⊢
    rw [allSources, List.flatten_cons, List.filter_append]
    refine List.pairwise_append.2 ⟨List.Pairwise.sublist List.filter_sublist
      (scanSource_sorted (hs es List.mem_cons_self)), ih, fun a ha b hb => ?_⟩
    -- a later source has a higher priority number
    obtain ⟨ha, hak⟩ := mem_atKey.1 ha
    obtain ⟨hb, hbk⟩ := mem_atKey.1 hb
    obtain ⟨x, -, -, rfl⟩ := (mem_scanSource (hs es List.mem_cons_self)).1 ha
    obtain ⟨s, hs'', hb⟩ := List.mem_flatten.1 hb
    have hp := allSources_priority hs' hs'' hb
    exact scanLess'_eq_false.2 (Or.inr ⟨hbk.trans hak.symm, Or.inl hp⟩)

section Merge

variable {L : List (List Entry)} {ss : List (List ScanItem)}

theorem item_unique (hs : ∀ es ∈ L, SortedEntries es) {a b : ScanItem}
    (ha : a ∈ (allSources start stop 0 L).flatten) (hb : b ∈ (allSources start stop 0 L).flatten)
    (hk : a.userKey = b.userKey) (hp : a.priority = b.priority) (hq : a.seqNo = b.seqNo) :
    a = b := by
  obtain ⟨s, hsa, ha⟩ := List.mem_flatten.1 ha
  obtain ⟨t, htb, hb⟩ := List.mem_flatten.1 hb
  obtain ⟨pre, es, post, hL, rfl⟩ := mem_allSources.1 hsa
  obtain ⟨pre', es', post', hL', rfl⟩ := mem_allSources.1 htb
  obtain ⟨x, hx, -, rfl⟩ := (mem_scanSource (hs es (by simp [hL]))).1 ha
  obtain ⟨y, hy, -, rfl⟩ := (mem_scanSource (hs es' (by simp [hL']))).1 hb
  have hlen : pre.length = pre'.length := by simpa [Entry.scanItem] using hp
  obtain ⟨-, hcons⟩ := List.append_inj (hL.symm.trans hL') hlen
  cases hcons
  have hxy : x = y := (hs es (by simp [hL])).agrees x hx y hy hk hq
  rw [hxy, hlen]

/-- **The items of a key in the merge** are those of the sources, one source after the other. -/
theorem atKey_merged (hsrc : SourcesOf start stop 0 L ss)
    (hflat : ss.flatten = (allSources start stop 0 L).flatten) (hs : ∀ es ∈ L, SortedEntries es)
    (k : Bytes) : atKey ScanItem.userKey (mergeAll scanLess ss) k =
      atKey ScanItem.userKey (allSources start stop 0 L).flatten k := by
  have hperm : (atKey ScanItem.userKey (mergeAll scanLess ss) k).Perm
      (atKey ScanItem.userKey (allSources start stop 0 L).flatten k) := by
    rw [← hflat]
    exact (mergeAll_perm scanLess ss).filter _
  refine hperm.eq_of_pairwise (fun a b ha hb hab hba => ?_)
    (List.Pairwise.sublist List.filter_sublist (merged_sorted hsrc hs)) (allSources_sorted hs k)
  obtain ⟨ha, hak⟩ := mem_atKey.1 (hperm.mem_iff.1 ha)
  obtain ⟨hb, hbk⟩ := mem_atKey.1 hb
  have hk : a.userKey = b.userKey := hak.trans hbk.symm
  rcases scanLess'_eq_false.1 hab with hlt | ⟨-, hab⟩
  · exact absurd (hk ▸ hlt) (lt_irrefl _)
  rcases scanLess'_eq_false.1 hba with hlt | ⟨-, hba⟩
  · exact absurd (hk ▸ hlt) (lt_irrefl _)
  exact item_unique hs ha hb hk (by omega) (by omega)

/-- **The pairs of a key that a scan returns.** -/
theorem atKey_scan (hsrc : SourcesOf start stop 0 L ss)
    (hflat : ss.flatten = (allSources start stop 0 L).flatten) (hs : ∀ es ∈ L, SortedEntries es)
    (k : Bytes) : atKey Prod.fst (liveFirsts (mergeAll scanLess ss) none) k =
      if InRange start stop k then
        (shown k ((keyVersions L k).map Entry.payload)).map (fun v => (k, v)) else [] := by
  have hM : Ascending ScanItem.userKey (mergeAll scanLess ss) :=
    (merged_sorted hsrc hs).imp fun {a b} hab => by
      rcases scanLess'_eq_false.1 hab with hlt | heq
      · exact hlt.le
      · exact heq.1.symm.le
  rw [atKey_liveFirsts hM (fun l hl => by cases hl), atKey_merged hsrc hflat hs,
    atKey_allSources hs, if_neg nofun]
  split_ifs
  · rfl
  · rw [shown_nil, List.map_nil]

theorem ascending_scan (hsrc : SourcesOf start stop 0 L ss) (hs : ∀ es ∈ L, SortedEntries es) :
    Ascending Prod.fst (liveFirsts (mergeAll scanLess ss) none) := by
  refine List.Pairwise.sublist (liveFirsts_sublist _ _) (List.pairwise_map.2 ?_)
  refine (merged_sorted hsrc hs).imp fun {a b} hab => ?_
  rcases scanLess'_eq_false.1 hab with hlt | heq
  · exact hlt.le
  · exact heq.1.symm.le

end Merge

/-! ### Scans with and without some of the entries

The entries of each source are marked with whether they can be read. -/

/-- The marked versions of a key, in the order of the sources. -/
def versions (A : List (List (Entry × Bool))) (k : Bytes) : List (Entry × Bool) :=
  A.flatMap (fun es => es.filter (fun x => decide (x.1.key.userKey = k)))

/-- How many pairs with keys below `k` a scan of all entries returns. -/
def pairsBelow (start stop : Bytes) (A : List (List (Entry × Bool))) (k : Bytes) : ℕ :=
  ∑ j ∈ (A.flatten.map (fun x => x.1.key.userKey)).toFinset.filter
    (fun j => InRange start stop j ∧ j < k),
      (shown j ((versions A j).map (fun x => x.1.payload))).length

/-- The scan overlooks a key: its first version cannot be read, and the next one that can, if there
is one, says something else.  Of the empty key each live version counts. -/
def Overlooked (limit : ℤ) (k : Bytes) (vs : List (Entry × Bool)) : Prop :=
  if k = [] then
    upTo limit (((vs.filter Prod.snd).map (fun x => x.1.payload)).reduceOption) ≠
      upTo limit ((vs.map (fun x => x.1.payload)).reduceOption)
  else ∃ x, vs.head? = some (x, false) ∧
    (vs.find? Prod.snd).bind (fun y => y.1.payload) ≠ x.payload

theorem not_overlooked_iff {vs : List (Entry × Bool)} (hk : k ≠ []) :
    ¬ Overlooked limit k vs ↔ shown k (vs.map (fun x => x.1.payload)) =
      shown k ((vs.filter Prod.snd).map (fun x => x.1.payload)) := by
  unfold Overlooked shown
  rw [if_neg hk, if_neg hk, if_neg hk, List.head?_map, List.head?_map, List.head?_filter]
  rcases vs with _ | ⟨⟨x, _ | _⟩, vs⟩
  · simp
  · simp only [List.head?_cons, Option.some.injEq, Prod.mk.injEq, and_true, exists_eq_left', ne_eq,
      not_not, Option.map_some]
    cases ((x, false) :: vs).find? Prod.snd with
    | none => cases x.payload <;> simp
    | some y =>
      simp only [Option.bind_some, Option.map_some, Option.join_some]
      rw [eq_comm]
      cases x.payload <;> cases y.1.payload <;> simp
  · simp

theorem keyVersions_all (A : List (List (Entry × Bool))) (k : Bytes) :
    (keyVersions (A.map (fun es => es.map Prod.fst)) k).map Entry.payload =
      (versions A k).map (fun x => x.1.payload) := by
  unfold keyVersions versions
  rw [List.flatMap_map, List.map_flatMap, List.map_flatMap]
  congr 1
  funext es
  rw [List.filter_map, List.map_map]
  rfl

theorem keyVersions_readable (A : List (List (Entry × Bool))) (k : Bytes) :
    (keyVersions (A.map (fun es => (es.filter Prod.snd).map Prod.fst)) k).map Entry.payload =
      ((versions A k).filter Prod.snd).map (fun x => x.1.payload) := by
  unfold keyVersions versions
  rw [List.flatMap_map, List.map_flatMap, List.filter_flatMap, List.map_flatMap]
  congr 1
  funext es
  rw [List.filter_map, List.map_map, List.filter_filter, List.filter_filter]
  simp only [Function.comp_def, Bool.and_comm]

/-! ### Two scans -/

theorem upTo_eq_iff {l l' : List (Bytes × Bytes)} (h : Ascending Prod.fst l)
    (h' : Ascending Prod.fst l') : upTo limit l = upTo limit l' ↔
      ∀ k, (0 < limit → ((below Prod.fst l k).length : ℤ) < limit) →
        upTo (limit - (below Prod.fst l k).length) (atKey Prod.fst l k) =
          upTo (limit - (below Prod.fst l k).length) (atKey Prod.fst l' k) := by
  by_cases hl : 0 < limit
  · unfold upTo
    rw [if_pos hl, if_pos hl, take_eq_take_iff h h']
    refine forall_congr' fun k => ?_
    rw [forall_prop_of_true hl]
    have hlt : (below Prod.fst l k).length < limit.toNat ↔
        ((below Prod.fst l k).length : ℤ) < limit := by omega
    rw [hlt]
    refine forall_congr' fun hc => ?_
    rw [if_pos (by omega), if_pos (by omega),
      show (limit - ((below Prod.fst l k).length : ℤ)).toNat =
        limit.toNat - (below Prod.fst l k).length by omega]
  · unfold upTo
    rw [if_neg hl, if_neg hl, eq_iff_atKey h h']
    refine forall_congr' fun k => ?_
    rw [forall_prop_of_true (fun hc => absurd hc hl), if_neg (by omega), if_neg (by omega)]

theorem upTo_map {β : Type*} (limit : ℤ) (f : α → β) (l : List α) :
    upTo limit (l.map f) = (upTo limit l).map f := by
  unfold upTo
  split_ifs
  · rw [List.map_take]
  · rfl

theorem upTo_eq_self {l : List α} (h : 0 < limit → (l.length : ℤ) ≤ limit) : upTo limit l = l := by
  unfold upTo
  split_ifs with hl
  · exact List.take_of_length_le (by have := h hl; omega)
  · rfl

section Marked

variable {A : List (List (Entry × Bool))} {ss ss' : List (List ScanItem)}

theorem length_below_scan (hsrc : SourcesOf start stop 0 (A.map (fun es => es.map Prod.fst)) ss)
    (hflat : ss.flatten = (allSources start stop 0 (A.map (fun es => es.map Prod.fst))).flatten)
    (hs : ∀ es ∈ A, SortedEntries (es.map Prod.fst)) (k : Bytes) :
    (below Prod.fst (liveFirsts (mergeAll scanLess ss) none) k).length =
      pairsBelow start stop A k := by
  have hs' : ∀ es ∈ A.map (fun es => es.map Prod.fst), SortedEntries es := fun es hes => by
    obtain ⟨x, hx, rfl⟩ := List.mem_map.1 hes
    exact hs x hx
  rw [@length_below _ _ _ _ _ ((A.flatten.map (fun x => x.1.key.userKey)).toFinset.filter
    (fun j => InRange start stop j)) fun a ha => ?_]
  · unfold pairsBelow
    rw [Finset.filter_filter]
    refine Finset.sum_congr (Finset.ext fun j => by simp only [Finset.mem_filter]) fun j hj => ?_
    rw [atKey_scan hsrc hflat hs', if_pos (Finset.mem_filter.1 hj).2.1, List.length_map,
      keyVersions_all]
  · -- a pair of the result comes from an item, and this from an entry of a source
    obtain ⟨x, hx, rfl⟩ := List.mem_map.1 ((liveFirsts_sublist _ _).subset ha)
    obtain ⟨pre, es, post, hL, y, hy, hin, rfl⟩ := (mem_merged hsrc hs').1 hx
    obtain ⟨es, hes, rfl⟩ := List.mem_map.1 (show es ∈ A.map _ by rw [hL]; simp)
    obtain ⟨z, hz, rfl⟩ := List.mem_map.1 hy
    refine Finset.mem_filter.2 ⟨List.mem_toFinset.2 (List.mem_map.2 ⟨z, ?_, rfl⟩), hin⟩
    exact List.mem_flatten.2 ⟨es, hes, hz⟩

/-- **Scans with and without the unreadable entries.** -/
theorem scanLoop_eq_iff
    (hsrc : SourcesOf start stop 0 (A.map (fun es => es.map Prod.fst)) ss)
    (hflat : ss.flatten = (allSources start stop 0 (A.map (fun es => es.map Prod.fst))).flatten)
    (hsrc' : SourcesOf start stop 0 (A.map (fun es => (es.filter Prod.snd).map Prod.fst)) ss')
    (hflat' : ss'.flatten =
      (allSources start stop 0 (A.map (fun es => (es.filter Prod.snd).map Prod.fst))).flatten)
    (hs : ∀ es ∈ A, SortedEntries (es.map Prod.fst)) :
    scanLoop limit (mergeAll scanLess ss') none [] = scanLoop limit (mergeAll scanLess ss) none [] ↔
      ∀ k, InRange start stop k → (0 < limit → (pairsBelow start stop A k : ℤ) < limit) →
        ¬ Overlooked limit k (versions A k) := by
  have h1 : ∀ es ∈ A.map (fun es => es.map Prod.fst), SortedEntries es := fun es hes => by
    obtain ⟨x, hx, rfl⟩ := List.mem_map.1 hes
    exact hs x hx
  have h2 : ∀ es ∈ A.map (fun es => (es.filter Prod.snd).map Prod.fst), SortedEntries es :=
    fun es hes => by
      obtain ⟨x, hx, rfl⟩ := List.mem_map.1 hes
      exact (hs x hx).sublist (List.filter_sublist.map Prod.fst)
  rw [scanLoop_eq, scanLoop_eq, eq_comm, upTo_eq_iff (ascending_scan hsrc h1)
    (ascending_scan hsrc' h2)]
  refine forall_congr' fun k => ?_
  rw [length_below_scan hsrc hflat hs, atKey_scan hsrc hflat h1, atKey_scan hsrc' hflat' h2,
    keyVersions_all, keyVersions_readable]
  by_cases hr : InRange start stop k
  · rw [if_pos hr, if_pos hr, forall_prop_of_true hr, upTo_map, upTo_map]
    refine forall_congr' fun hreach => ?_
    rw [(List.map_injective_iff.2 fun v w hvw => (Prod.mk.inj hvw).2).eq_iff]
    by_cases hk : k = []
    · -- nothing is below the empty key
      subst hk
      have hzero : pairsBelow start stop A [] = 0 := by
        unfold pairsBelow
        refine Finset.sum_eq_zero fun j hj => absurd (Finset.mem_filter.1 hj).2.2 ?_
        exact List.not_lt_nil j
      rw [hzero, show limit - ((0 : ℕ) : ℤ) = limit by omega]
      simp only [Overlooked, shown, if_true, ne_eq, not_not]
      exact eq_comm
    · have hself : ∀ ps, upTo (limit - pairsBelow start stop A k) (shown k ps) = shown k ps :=
        fun ps => upTo_eq_self fun hpos => by
          have := shown_length_le hk ps
          omega
      rw [hself, hself, not_overlooked_iff hk]
  · rw [if_neg hr, if_neg hr]
    exact iff_of_true (fun _ => rfl) (fun hc => absurd hc hr)

end Marked

/-! ### Blocks that cannot be loaded -/

/-- The table whose blocks load as given, by position. -/
def withLoads (ok : ℕ → Bool) (t : SSTable) : SSTable :=
  { t with blocks := t.blocks.mapIdx (fun i b => { b with loads := ok i }) }

/-- The entries of a table, marked with whether their block loads. -/
def marked (ok : ℕ → Bool) (t : SSTable) : List (Entry × Bool) :=
  (t.blocks.mapIdx (fun i b => b.entries.map (fun x => (x, ok i)))).flatten

theorem iterate_withLoads (ok : ℕ → Bool) (t : SSTable) :
    (withLoads ok t).iterate = ((marked ok t).filter Prod.snd).map Prod.fst := by
  unfold SSTable.iterate withLoads marked
  generalize t.blocks = bs
  induction bs generalizing ok with
  | nil => rfl
  | cons b bs ih =>
    have ih := ih (fun i => ok (i + 1))
    simp only [List.mapIdx_cons, List.flatten_cons, List.filter_append, List.map_append,
      List.filter_cons] at ih ⊢
    rw [← ih]
    cases hok : ok 0 <;> simp [List.filter_map, Function.comp_def]

theorem marked_fst (ok : ℕ → Bool) (t : SSTable) : (marked ok t).map Prod.fst = t.entries := by
  unfold marked SSTable.entries
  generalize t.blocks = bs
  induction bs generalizing ok with
  | nil => rfl
  | cons b bs ih =>
    have ih := ih (fun i => ok (i + 1))
    simp only [List.mapIdx_cons, List.flatten_cons, List.map_append, List.flatMap_cons] at ih ⊢
    rw [ih]
    simp [Function.comp_def]

theorem iterate_allLoad (t : SSTable) : (withLoads (fun _ => true) t).iterate = t.entries := by
  unfold SSTable.iterate withLoads SSTable.entries
  generalize t.blocks = bs
  induction bs with
  | nil => rfl
  | cons b bs ih =>
    simp only [List.mapIdx_cons, List.filter_cons, List.flatMap_cons, if_true] at ih ⊢
    rw [ih]

/-- The engine whose readers load their blocks as given, by file and position. -/
def setLoads (ok : ℕ → ℕ → Bool) (e : LSMEngine) : LSMEngine :=
  { e with tc := { e.tc with
      entries := e.tc.entries.map
        (fun x => { x with reader := withLoads (ok x.fileID) x.reader }) } }

variable {e : LSMEngine} {ok : ℕ → ℕ → Bool}

theorem readerOf_setLoads (ok : ℕ → ℕ → Bool) (e : LSMEngine) (id : ℕ) :
    (setLoads ok e).tc.readerOf id = (e.tc.readerOf id).map (withLoads (ok id)) := by
  unfold setLoads TableCache.readerOf
  simp only [List.find?_map, Function.comp_def, Option.map_map]
  cases hf : e.tc.entries.find? (fun x => decide (x.fileID = id)) with
  | none => rfl
  | some x =>
    have hid : x.fileID = id := by simpa using List.find?_some hf
    simp [hid]

def sourceEntries (readers : ℕ → Option SSTable) (start stop : Bytes) (t : SSTableMeta) :
    List Entry :=
  if tableOverlapsRange t.firstKey t.lastKey start stop then
    ((readers t.fileID).map SSTable.iterate).getD [] else []

theorem tableSources_sources (readers : ℕ → Option SSTable) (start stop : Bytes) (p : ℕ)
    (ms : List SSTableMeta) :
    SourcesOf start stop p (ms.map (sourceEntries readers start stop))
        (tableSources readers start stop p ms) ∧
      (tableSources readers start stop p ms).flatten =
        (allSources start stop p (ms.map (sourceEntries readers start stop))).flatten := by
  induction ms generalizing p with
  | nil => exact ⟨.all _ _ _ _, rfl⟩
  | cons t ms ih =>
    obtain ⟨⟨hsub, hcov⟩, hflat⟩ := ih (p + 1)
    -- a table that is skipped has an empty source
    have hskip : SourcesOf start stop p ([] :: ms.map (sourceEntries readers start stop))
        (tableSources readers start stop (p + 1) ms) := by
      refine ⟨hsub.cons _, fun s hs hne => ?_⟩
      rcases List.mem_cons.1 hs with rfl | hs
      · exact absurd rfl hne
      · exact hcov s hs hne
    rw [List.map_cons, tableSources, sourceEntries]
    split_ifs
    · cases readers t.fileID with
      | none => exact ⟨hskip, hflat⟩
      | some r =>
        refine ⟨⟨hsub.cons_cons _, fun s hs hne => ?_⟩, ?_⟩
        · rcases List.mem_cons.1 hs with rfl | hs
          · exact List.mem_cons_self
          · exact List.mem_cons_of_mem _ (hcov s hs hne)
        · simp only [allSources, List.flatten_cons, hflat, Option.map_some, Option.getD_some]
    · exact ⟨hskip, hflat⟩

/-- The sources of a scan with their entries marked. -/
def sources (ok : ℕ → ℕ → Bool) (e : LSMEngine) (start stop : Bytes) : List (List (Entry × Bool)) :=
  e.mems.map (fun t => t.entries.map (fun x => (x, true))) ++
    e.current.scanOrder.map (fun t =>
      if tableOverlapsRange t.firstKey t.lastKey start stop then
        ((e.tc.readerOf t.fileID).map (marked (ok t.fileID))).getD [] else [])

/-- The tables that the engine reads hold their entries in order. -/
def SortedReaders (e : LSMEngine) : Prop :=
  ∀ t ∈ e.current.scanOrder, ∀ r, e.tc.readerOf t.fileID = some r → SortedEntries r.entries

theorem SortedReaders.of_shape {maxLevel : ℕ} (h : TablesShape e.current e.files maxLevel)
    (hr : e.ReadersRight) : SortedReaders e := by
  intro t ht r hread
  obtain ⟨i, -, hti⟩ := mem_scanOrder.1 ht
  obtain ⟨f, hf, hok⟩ := h.table hti
  have hfr : e.files t.fileID = some r := hr i t hti r hread
  rw [hf] at hfr
  cases hfr
  exact hok.sorted

theorem sources_sorted (h : SortedReaders e) :
    ∀ es ∈ sources ok e start stop, SortedEntries (es.map Prod.fst) := by
  intro es hes
  rcases List.mem_append.1 hes with hes | hes
  · obtain ⟨t, -, rfl⟩ := List.mem_map.1 hes
    rw [List.map_map]
    exact (List.map_id t.entries).symm ▸ t.sorted
  · obtain ⟨t, ht, rfl⟩ := List.mem_map.1 hes
    split_ifs
    · cases hr : e.tc.readerOf t.fileID with
      | none => exact List.Pairwise.nil
      | some r =>
        rw [Option.map_some, Option.getD_some, marked_fst]
        exact h t ht r hr
    · exact List.Pairwise.nil

theorem sources_fst (ok : ℕ → ℕ → Bool) (e : LSMEngine) :
    (sources ok e start stop).map (fun es => es.map Prod.fst) = e.mems.map MemTable.entries ++
      e.current.scanOrder.map
        (sourceEntries (setLoads (fun _ _ => true) e).tc.readerOf start stop) := by
  unfold sources
  rw [List.map_append, List.map_map, List.map_map]
  congr 1
  · refine List.map_congr_left fun t _ => ?_
    simp [Function.comp_def]
  · refine List.map_congr_left fun t _ => ?_
    rw [Function.comp_apply, sourceEntries, readerOf_setLoads]
    split_ifs
    · cases e.tc.readerOf t.fileID with
      | none => rfl
      | some r => exact (marked_fst _ r).trans (iterate_allLoad r).symm
    · rfl

theorem sources_readable (ok : ℕ → ℕ → Bool) (e : LSMEngine) :
    (sources ok e start stop).map (fun es => (es.filter Prod.snd).map Prod.fst) =
      e.mems.map MemTable.entries ++
        e.current.scanOrder.map (sourceEntries (setLoads ok e).tc.readerOf start stop) := by
  unfold sources
  rw [List.map_append, List.map_map, List.map_map]
  congr 1
  · refine List.map_congr_left fun t _ => ?_
    simp [Function.comp_def, List.filter_map]
  · refine List.map_congr_left fun t _ => ?_
    rw [Function.comp_apply, sourceEntries, readerOf_setLoads]
    split_ifs
    · cases e.tc.readerOf t.fileID with
      | none => rfl
      | some r => exact (iterate_withLoads _ r).symm
    · rfl

theorem scan_sources (ok : ℕ → ℕ → Bool) (e : LSMEngine) {L : List (List Entry)}
    (hL : L = e.mems.map MemTable.entries ++
      e.current.scanOrder.map (sourceEntries (setLoads ok e).tc.readerOf start stop)) :
    ∃ ss, SourcesOf start stop 0 L ss ∧ ss.flatten = (allSources start stop 0 L).flatten ∧
      ((setLoads ok e).scanWithError start stop limit).1 =
        scanLoop limit (mergeAll scanLess ss) none [] := by
  subst hL
  obtain ⟨hsrc, hflat⟩ := tableSources_sources (setLoads ok e).tc.readerOf start stop
    (0 + (e.mems.map MemTable.entries).length) e.current.scanOrder
  refine ⟨_, (SourcesOf.all start stop 0 _).append hsrc, ?_, ?_⟩
  · rw [allSources_append, List.flatten_append, List.flatten_append, hflat]
  · rw [scanWithError_eq, scanResult, scanMems_eq, Nat.zero_add, List.length_map]
    rfl

/-- **Unreadable blocks.** A scan returns what it would return with all blocks readable exactly if
it overlooks none of the keys that it gets to. -/
theorem scan_eq_iff (h : SortedReaders e) :
    ((setLoads ok e).scanWithError start stop limit).1 =
        ((setLoads (fun _ _ => true) e).scanWithError start stop limit).1 ↔
      ∀ k, InRange start stop k →
        (0 < limit → (pairsBelow start stop (sources ok e start stop) k : ℤ) < limit) →
        ¬ Overlooked limit k (versions (sources ok e start stop) k) := by
  obtain ⟨ss, hsrc, hflat, hscan⟩ := @scan_sources start stop limit (fun _ _ => true) e _
    (sources_fst ok e)
  obtain ⟨ss', hsrc', hflat', hscan'⟩ := @scan_sources start stop limit ok e _
    (sources_readable ok e)
  rw [hscan, hscan']
  exact scanLoop_eq_iff hsrc hflat hsrc' hflat' (sources_sorted h)

def flushedPut (e : LSMEngine) : LSMEngine :=
  ((e.submit (.put [1] [10])).1.rotateMemTable.1).flushNext {}

theorem flushedPut_good : ∃ e m, openEngine {} {} = .ok e ∧ Good (flushedPut e) m := by
  obtain ⟨e, hopen, -, hgood⟩ := @openEngine_empty {} (by decide) rfl
  have hput := (hgood.submit (show (WriteOp.put [1] [10]).Nonempty by decide)).1
  have hrun : ∀ e, openEngine {} {} = .ok e →
      (e.submit (.put [1] [10])).1.memTable.entries ≠ [] ∧
      (e.submit (.put [1] [10])).1.rotateMemTable.1.tc.entries.length <
        (e.submit (.put [1] [10])).1.rotateMemTable.1.tc.cap := by
    decide +kernel
  obtain ⟨hne, hroom⟩ := hrun e hopen
  exact ⟨e, _, hopen, ((hput.rotate hne).flushNext fun _ => hroom).1⟩

theorem SortedReaders.of_good {m : Bytes → Option Bytes} (h : Good e m) : SortedReaders e :=
  .of_shape h.inv.layered.tables.shape fun i t ht _ hf =>
    (h.inv.books.readers i t ht).symm.trans hf

/-- A block whose only key has a newer version in the memtable may be lost. -/
theorem covered_scan_eq : ∃ e, openEngine {} {} = .ok e ∧
    ((setLoads (fun _ _ => false) ((flushedPut e).submit (.put [1] [11])).1).scanWithError
        [] [] 0).1 =
      ((setLoads (fun _ _ => true) ((flushedPut e).submit (.put [1] [11])).1).scanWithError
        [] [] 0).1 := by
  obtain ⟨e, m, hopen, hgood⟩ := flushedPut_good
  have hnext := (hgood.submit (show (WriteOp.put [1] [11]).Nonempty by decide)).1
  refine ⟨e, hopen, (scan_eq_iff (.of_good hnext)).2 fun k _ _ => ?_⟩
  have hsrc : ∀ e, openEngine {} {} = .ok e →
      sources (fun _ _ => false) ((flushedPut e).submit (.put [1] [11])).1 [] [] =
        [[(⟨⟨[1], 2, .value⟩, [11]⟩, true)], [(⟨⟨[1], 1, .value⟩, [10]⟩, false)]] := by
    decide +kernel
  rw [hsrc e hopen]
  by_cases hk : k = [1]
  · subst hk
    simp [Overlooked, versions]
  · simp [Overlooked, versions, Ne.symm hk]

/-- A block that holds the only version of a key is stepped over, and nobody is told. -/
theorem lostBlock_unreported : ¬ ∀ e ok start stop limit, SortedReaders e →
    ((setLoads ok e).scanWithError start stop limit).1 =
      ((setLoads (fun _ _ => true) e).scanWithError start stop limit).1 := by
  intro h
  obtain ⟨e, m, hopen, hgood⟩ := flushedPut_good
  have hrun : ∀ e, openEngine {} {} = .ok e →
      ((setLoads (fun _ _ => false) (flushedPut e)).scanWithError [] [] 0).1 = [] ∧
      ((setLoads (fun _ _ => true) (flushedPut e)).scanWithError [] [] 0).1 = [([1], [10])] := by
    decide +kernel
  have heq := h (flushedPut e) (fun _ _ => false) [] [] 0 (.of_good hgood)
  rw [(hrun e hopen).1, (hrun e hopen).2] at heq
  cases heq

end LsmTree.Unreadable
