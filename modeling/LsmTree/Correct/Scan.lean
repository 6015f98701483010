import LsmTree.Correct.Read

/-!
# Scans return the represented map

The merge heap of a scan is sorted by user key and source; within one source newer versions of a key
come first.  So the first item of a key is the newest version in the first source that has one,
which is what a lookup would return (`firstItem_merged`), and the scan returns the live pairs of the
range in ascending order, cut off at the limit (`Readable.scanWithError`).
-/

namespace LsmTree

open Versioned KWayMerge

variable {α : Type*} {k start stop : Bytes} {p : ℕ} {es : List Entry} {x : ScanItem}
  {L : List (List Entry)} {M s xs : List ScanItem} {limit : ℤ} {last : Option Bytes}

def InRange (start stop k : Bytes) : Prop := (start = [] ∨ start ≤ k) ∧ (stop = [] ∨ k < stop)

instance (start stop k : Bytes) : Decidable (InRange start stop k) :=
  inferInstanceAs (Decidable (_ ∧ _))

/-- What a scan of the map `m` returns: its live pairs in the range by ascending key, at most
`limit` of them if `limit` is positive. -/
def IsScan (m : Bytes → Option Bytes) (start stop : Bytes) (limit : ℤ)
    (r : List (Bytes × Bytes)) : Prop :=
  ∃ L : List (Bytes × Bytes), L.Pairwise (fun a b => a.1 < b.1) ∧
    (∀ k v, (k, v) ∈ L ↔ InRange start stop k ∧ m k = some v) ∧
    r = if 0 < limit then L.take limit.toNat else L

theorem IsScan.unique {m : Bytes → Option Bytes} {r r' : List (Bytes × Bytes)}
    (h : IsScan m start stop limit r) (h' : IsScan m start stop limit r') : r = r' := by
  obtain ⟨L, hL, hmem, rfl⟩ := h
  obtain ⟨L', hL', hmem', rfl⟩ := h'
  have hnodup : ∀ l : List (Bytes × Bytes), l.Pairwise (fun a b => a.1 < b.1) → l.Nodup :=
    fun l hl => hl.imp (fun hlt heq => hlt.ne (congrArg Prod.fst heq))
  have hperm : L.Perm L' := (List.perm_ext_iff_of_nodup (hnodup L hL) (hnodup L' hL')).2
    (fun x => (hmem x.1 x.2).trans (hmem' x.1 x.2).symm)
  rw [hperm.eq_of_pairwise (fun a b _ _ hab hba => absurd hba hab.asymm) hL hL']

/-! ### One source -/

theorem dropWhile_eq_filter {p : α → Bool} {l : List α}
    (h : l.Pairwise (fun a b => p b = true → p a = true)) :
    l.dropWhile p = l.filter (fun a => !p a) := by
  induction l with
  | nil => rfl
  | cons a l ih =>
    obtain ⟨ha, hl⟩ := List.pairwise_cons.1 h
    by_cases hp : p a = true
    · simp [hp, ih hl]
    · have hall : ∀ b ∈ l, p b = false :=
        fun b hb => Bool.eq_false_iff.2 (fun hc => hp (ha b hb hc))
      have : l.filter (fun a => !p a) = l := List.filter_eq_self.2 (fun b hb => by simp [hall b hb])
      simp [hp, this]

theorem takeWhile_eq_filter {p : α → Bool} {l : List α}
    (h : l.Pairwise (fun a b => p b = true → p a = true)) : l.takeWhile p = l.filter p := by
  induction l with
  | nil => rfl
  | cons a l ih =>
    obtain ⟨ha, hl⟩ := List.pairwise_cons.1 h
    by_cases hp : p a = true
    · simp [hp, ih hl]
    · have hnone : l.filter p = [] :=
        List.filter_eq_nil_iff.2 (fun b hb hc => hp (ha b hb hc))
      simp [hp, hnone]

theorem scanSource_eq (hs : SortedEntries es) :
    scanSource start stop p es =
      (es.filter (fun e => decide (InRange start stop e.key.userKey))).map (Entry.scanItem p) := by
  have hle : es.Pairwise (fun a b => a.key.userKey ≤ b.key.userKey) :=
    hs.imp InternalKey.less_userKey_le
  unfold scanSource
  rw [dropWhile_eq_filter, takeWhile_eq_filter, List.filter_filter]
  · congr 2
    funext e
    rw [Bool.eq_iff_iff, decide_eq_true_iff]
    simp only [Bool.and_eq_true, Bool.not_eq_true', decide_eq_false_iff_not, InRange, not_and,
      not_le, not_lt]
    by_cases h1 : start = [] <;> by_cases h2 : stop = [] <;> simp [h1, h2, and_comm]
  · refine (hle.sublist List.filter_sublist).imp (fun {a b} hab hb => ?_)
    simp only [Bool.not_eq_true', decide_eq_false_iff_not, not_and, not_le] at hb ⊢
    exact fun hne => hab.trans_lt (hb hne)
  · refine hle.imp (fun {a b} hab hb => ?_)
    simp only [decide_eq_true_eq] at hb ⊢
    exact ⟨hb.1, hab.trans_lt hb.2⟩

theorem mem_scanSource (hs : SortedEntries es) : x ∈ scanSource start stop p es ↔
      ∃ e ∈ es, InRange start stop e.key.userKey ∧ x = e.scanItem p := by
  rw [scanSource_eq hs]
  simp only [List.mem_map, List.mem_filter, decide_eq_true_eq]
  constructor
  · rintro ⟨e, ⟨he, hr⟩, rfl⟩
    exact ⟨e, he, hr, rfl⟩
  · rintro ⟨e, he, hr, rfl⟩
    exact ⟨e, ⟨he, hr⟩, rfl⟩

/-- The scan order refined by age within one source. -/
def scanLess' (a b : ScanItem) : Bool :=
  if a.userKey ≠ b.userKey then decide (a.userKey < b.userKey)
  else if a.priority ≠ b.priority then decide (a.priority < b.priority)
  else decide (b.seqNo < a.seqNo)

theorem scanLess'_eq_false {a b : ScanItem} : scanLess' a b = false ↔
    b.userKey < a.userKey ∨ (a.userKey = b.userKey ∧
      (b.priority < a.priority ∨ (a.priority = b.priority ∧ a.seqNo ≤ b.seqNo))) := by
  unfold scanLess'
  split_ifs with h1 h2
  · simp only [decide_eq_false_iff_not, not_lt]
    exact ⟨fun h => Or.inl (lt_of_le_of_ne h (Ne.symm h1)),
      fun h => (h.resolve_right (fun hc => h1 hc.1)).le⟩
  · have he : a.userKey = b.userKey := not_not.1 h1
    simp only [decide_eq_false_iff_not, not_lt, he, lt_irrefl, false_or, true_and]
    omega
  · have he : a.userKey = b.userKey := not_not.1 h1
    have hp : a.priority = b.priority := not_not.1 h2
    simp only [decide_eq_false_iff_not, not_lt, he, lt_irrefl, false_or, true_and, hp]

theorem scanLess'_strictWeak : StrictWeak scanLess' where
  asymm a b h := by
    by_contra hc
    have h2 : scanLess' b a = true := by simpa using hc
    have h1 : ¬ scanLess' a b = false := by simp [h]
    have h3 : ¬ scanLess' b a = false := by simp [h2]
    rw [scanLess'_eq_false] at h1 h3
    rcases lt_trichotomy a.userKey b.userKey with hlt | heq | hgt
    · exact h3 (Or.inl hlt)
    · rw [not_or, not_and] at h1 h3
      have e1 := h1.2 heq
      have e3 := h3.2 heq.symm
      omega
    · exact h1 (Or.inl hgt)
  negTrans a b c h1 h2 := by
    rw [scanLess'_eq_false] at *
    rcases h1 with h1 | ⟨e1, h1⟩ <;> rcases h2 with h2 | ⟨e2, h2⟩
    · exact Or.inl (h1.trans h2)
    · exact Or.inl (e2 ▸ h1)
    · exact Or.inl (e1 ▸ h2)
    · exact Or.inr ⟨e2.trans e1, by omega⟩

theorem scanSource_sorted (hs : SortedEntries es) :
    Sorted scanLess' (scanSource start stop p es) := by
  rw [scanSource_eq hs]
  unfold Sorted
  rw [List.pairwise_map]
  refine (List.Pairwise.sublist List.filter_sublist hs).imp (fun {a b} hab => ?_)
  rw [scanLess'_eq_false]
  rcases InternalKey.less_iff.1 hab with h | ⟨h1, h2⟩
  · exact Or.inl h
  · exact Or.inr ⟨h1.symm, Or.inr ⟨rfl, h2.le⟩⟩

/-! ### All sources -/

/-- A source for each list of entries, with priorities counted from `p`. -/
def allSources (start stop : Bytes) : ℕ → List (List Entry) → List (List ScanItem)
  | _, [] => []
  | p, es :: L => scanSource start stop p es :: allSources start stop (p + 1) L

theorem allSources_append (start stop : Bytes) (p : ℕ) (L L' : List (List Entry)) :
    allSources start stop p (L ++ L') =
      allSources start stop p L ++ allSources start stop (p + L.length) L' := by
  induction L generalizing p with
  | nil => rfl
  | cons es L ih =>
    simp only [List.cons_append, allSources, ih, List.length_cons]
    rw [show p + 1 + L.length = p + (L.length + 1) by omega]

theorem mem_allSources : s ∈ allSources start stop p L ↔
      ∃ pre es post, L = pre ++ es :: post ∧ s = scanSource start stop (p + pre.length) es := by
  induction L generalizing p with
  | nil => simp [allSources]
  | cons a L ih =>
    rw [allSources, List.mem_cons, ih]
    constructor
    · rintro (rfl | ⟨pre, es, post, rfl, rfl⟩)
      · exact ⟨[], a, L, rfl, rfl⟩
      · refine ⟨a :: pre, es, post, rfl, ?_⟩
        rw [List.length_cons, show p + 1 + pre.length = p + (pre.length + 1) by omega]
    · rintro ⟨pre, es, post, hL, rfl⟩
      cases pre with
      | nil => cases hL; exact Or.inl rfl
      | cons b pre =>
        cases hL
        refine Or.inr ⟨pre, es, post, rfl, ?_⟩
        rw [List.length_cons, show p + 1 + pre.length = p + (pre.length + 1) by omega]

theorem allSources_priority (hs : ∀ es ∈ L, SortedEntries es) (h : s ∈ allSources start stop p L)
    (hx : x ∈ s) : p ≤ x.priority := by
  obtain ⟨pre, es, post, rfl, rfl⟩ := mem_allSources.1 h
  obtain ⟨e, -, -, rfl⟩ := (mem_scanSource (hs es (by simp))).1 hx
  exact Nat.le_add_right _ _

theorem allSources_agreeAcross (hs : ∀ es ∈ L, SortedEntries es) :
    AgreeAcross scanLess scanLess' (allSources start stop p L) := by
  induction L generalizing p with
  | nil => exact List.Pairwise.nil
  | cons es L ih =>
    have hs' : ∀ es ∈ L, SortedEntries es := fun x hx => hs x (List.mem_cons_of_mem es hx)
    refine List.pairwise_cons.2 ⟨fun t ht a ha b hb => ?_, ih hs'⟩
    obtain ⟨e, -, -, rfl⟩ := (mem_scanSource (hs es List.mem_cons_self)).1 ha
    have hb := allSources_priority hs' ht hb
    have hne : b.priority ≠ (e.scanItem p).priority := by change b.priority ≠ p; omega
    unfold scanLess scanLess'
    rw [if_pos hne]

/-- The sources of a scan: those of the layers, except that sources with nothing to contribute may
be missing. -/
structure SourcesOf (start stop : Bytes) (p : ℕ) (L : List (List Entry))
    (ss : List (List ScanItem)) : Prop where
  sub : ss.Sublist (allSources start stop p L)
  covers : ∀ s ∈ allSources start stop p L, s ≠ [] → s ∈ ss

theorem SourcesOf.all (start stop : Bytes) (p : ℕ) (L : List (List Entry)) :
    SourcesOf start stop p L (allSources start stop p L) := ⟨List.Sublist.refl _, fun _ h _ => h⟩

theorem SourcesOf.append {L' : List (List Entry)} {ss ss' : List (List ScanItem)}
    (h : SourcesOf start stop p L ss) (h' : SourcesOf start stop (p + L.length) L' ss') :
    SourcesOf start stop p (L ++ L') (ss ++ ss') := by
  constructor
  · rw [allSources_append]
    exact h.sub.append h'.sub
  · intro s hs hne
    rw [allSources_append] at hs
    rcases List.mem_append.1 hs with hs | hs
    · exact List.mem_append_left _ (h.covers s hs hne)
    · exact List.mem_append_right _ (h'.covers s hs hne)

/-- The first item of a key among the merged sources. -/
def firstItem (M : List ScanItem) (k : Bytes) : Option ScanItem :=
  M.find? (fun x => decide (x.userKey = k))

def ScanItem.payload (x : ScanItem) : Option Bytes := if x.deleted then none else some x.value

theorem Entry.scanItem_payload (p : ℕ) (e : Entry) : (e.scanItem p).payload = e.payload := by
  unfold ScanItem.payload Entry.scanItem Entry.payload
  cases e.key.type <;> rfl

section Merged

variable {start stop : Bytes} {L : List (List Entry)} {ss : List (List ScanItem)}

variable {x : ScanItem} {k : Bytes}

theorem merged_sorted (h : SourcesOf start stop 0 L ss) (hs : ∀ es ∈ L, SortedEntries es) :
    Sorted scanLess' (mergeAll scanLess ss) := by
  rw [mergeAll_congr (List.Pairwise.sublist h.sub (allSources_agreeAcross hs))]
  refine mergeAll_sorted scanLess'_strictWeak (fun s hss => ?_)
  obtain ⟨pre, es, post, rfl, rfl⟩ := mem_allSources.1 (h.sub.subset hss)
  exact scanSource_sorted (hs es (by simp))

theorem mem_merged (h : SourcesOf start stop 0 L ss) (hs : ∀ es ∈ L, SortedEntries es) :
    x ∈ mergeAll scanLess ss ↔ ∃ pre es post, L = pre ++ es :: post ∧
      ∃ e ∈ es, InRange start stop e.key.userKey ∧ x = e.scanItem pre.length := by
  rw [mem_mergeAll]
  constructor
  · rintro ⟨s, hss, hx⟩
    obtain ⟨pre, es, post, hL, rfl⟩ := mem_allSources.1 (h.sub.subset hss)
    rw [Nat.zero_add] at hx
    exact ⟨pre, es, post, hL, (mem_scanSource (hs es (by simp [hL]))).1 hx⟩
  · rintro ⟨pre, es, post, hL, he⟩
    have hx : x ∈ scanSource start stop pre.length es :=
      (mem_scanSource (hs es (by simp [hL]))).2 he
    refine ⟨_, h.covers _ (mem_allSources.2 ⟨pre, es, post, hL, rfl⟩) ?_, by simpa using hx⟩
    rw [Nat.zero_add]
    exact List.ne_nil_of_mem hx

theorem firstItem_le (h : SourcesOf start stop 0 L ss) (hs : ∀ es ∈ L, SortedEntries es)
    (hx : firstItem (mergeAll scanLess ss) k = some x) :
    x ∈ mergeAll scanLess ss ∧ x.userKey = k ∧
      ∀ y ∈ mergeAll scanLess ss, y.userKey = k → scanLess' y x = false := by
  have hsorted := merged_sorted h hs
  obtain ⟨hxk, as, bs, hM, has⟩ := List.find?_eq_some_iff_append.1 hx
  have hxk : x.userKey = k := of_decide_eq_true hxk
  rw [hM] at hsorted ⊢
  refine ⟨by simp, hxk, fun y hy hyk => ?_⟩
  rcases List.mem_append.1 hy with hy | hy
  · have := has y hy
    simp [hyk] at this
  · exact le_of_mem_sorted scanLess'_strictWeak (List.pairwise_append.1 hsorted).2.1 hy

/-- **The first item of a key is what the layered lookup finds.** -/
theorem firstItem_merged (h : SourcesOf start stop 0 L ss) (hs : ∀ es ∈ L, SortedEntries es)
    (hk : InRange start stop k) :
    (firstItem (mergeAll scanLess ss) k).map ScanItem.payload =
      firstHit (L.map (fun es k => (firstVersion es k).map Entry.payload)) k := by
  cases hf : firstItem (mergeAll scanLess ss) k with
  | none =>
    -- no layer has a version of the key, or it would be among the items
    symm
    rw [Option.map_none, firstHit, List.findSome?_eq_none_iff]
    intro g hg
    obtain ⟨es, hes, rfl⟩ := List.mem_map.1 hg
    rw [Option.map_eq_none_iff, firstVersion_none]
    rintro e he rfl
    obtain ⟨pre, post, hL⟩ := List.append_of_mem hes
    have hx := (mem_merged h hs).2 ⟨pre, es, post, hL, e, he, hk, rfl⟩
    have := List.find?_eq_none.1 hf _ hx
    simp [Entry.scanItem] at this
  | some x =>
    obtain ⟨hx, hxk, hmin⟩ := firstItem_le h hs hf
    obtain ⟨pre, es, post, hL, e, he, -, rfl⟩ := (mem_merged h hs).1 hx
    have hek : e.key.userKey = k := hxk
    have hes : SortedEntries es := hs es (by simp [hL])
    -- nothing in an earlier source
    have hpre : ∀ es' ∈ pre, firstVersion es' k = none := by
      intro es' hes'
      rw [firstVersion_none]
      intro e' he' hek'
      obtain ⟨a, b, rfl⟩ := List.append_of_mem hes'
      have hy := (mem_merged h hs).2 ⟨a, es', b ++ es :: post, by simp [hL], e', he',
        by rw [hek']; exact hk, rfl⟩
      rcases scanLess'_eq_false.1 (hmin _ hy hek') with hc | ⟨-, hc⟩
      · simp only [Entry.scanItem, hek, hek'] at hc
        exact absurd hc (lt_irrefl _)
      · simp only [Entry.scanItem, List.length_append, List.length_cons] at hc
        omega
    -- and nothing newer in its own
    have hnew : IsNewest {x | x ∈ es} k e := by
      refine ⟨he, hek, fun e' he' hek' => ?_⟩
      have hek' : e'.key.userKey = k := hek'
      have hy := (mem_merged h hs).2 ⟨pre, es, post, hL, e', he', by rw [hek']; exact hk, rfl⟩
      rcases scanLess'_eq_false.1 (hmin _ hy hek') with hc | ⟨-, hc⟩
      · simp only [Entry.scanItem, hek, hek'] at hc
        exact absurd hc (lt_irrefl _)
      · simp only [Entry.scanItem] at hc
        change e'.key.seqNo ≤ e.key.seqNo
        omega
    have hfirst : firstVersion es k = some e := by
      cases hv : firstVersion es k with
      | none => exact absurd hek (firstVersion_none.1 hv e he)
      | some e' =>
        rw [(firstVersion_isNewest hes hv).unique hes.agrees hnew]
    rw [Option.map_some, Entry.scanItem_payload]
    symm
    have hnone : (pre.map (fun es k => (firstVersion es k).map Entry.payload)).findSome?
        (fun get => get k) = none := by
      rw [List.findSome?_eq_none_iff]
      intro g hg
      obtain ⟨es', hes', rfl⟩ := List.mem_map.1 hg
      simp only [hpre es' hes', Option.map_none]
    rw [firstHit, hL, List.map_append, List.findSome?_append, hnone]
    simp only [List.map_cons, List.findSome?_cons, hfirst, Option.map_some, Option.none_or]

end Merged

/-! ### The merge loop -/

def liveFirsts : List ScanItem → Option Bytes → List (Bytes × Bytes)
  | [], _ => []
  | x :: xs, last =>
    if last = some x.userKey then liveFirsts xs last
    else if x.deleted then liveFirsts xs (nextLastKey last x.userKey)
    else (x.userKey, x.value) :: liveFirsts xs (nextLastKey last x.userKey)

theorem scanLoop_unlimited (hl : ¬ 0 < limit) (M : List ScanItem) (last : Option Bytes)
    (res : List (Bytes × Bytes)) : scanLoop limit M last res = res ++ liveFirsts M last := by
  induction M generalizing last res with
  | nil => simp [scanLoop, liveFirsts]
  | cons x xs ih =>
    rw [scanLoop, if_neg (fun hc => hl hc.1), liveFirsts]
    split_ifs
    · exact ih last res
    · exact ih _ res
    · rw [ih, List.append_assoc]; rfl

theorem scanLoop_limited (hl : 0 < limit) (M : List ScanItem) (last : Option Bytes)
    (res : List (Bytes × Bytes)) (hres : (res.length : ℤ) ≤ limit) :
    scanLoop limit M last res =
      res ++ (liveFirsts M last).take (limit.toNat - res.length) := by
  induction M generalizing last res with
  | nil => simp [scanLoop, liveFirsts]
  | cons x xs ih =>
    rw [scanLoop, liveFirsts]
    by_cases hfull : limit ≤ res.length
    · rw [if_pos ⟨hl, hfull⟩, show limit.toNat - res.length = 0 by omega]
      simp
    · rw [if_neg (fun hc => hfull hc.2)]
      split_ifs
      · exact ih last res hres
      · exact ih _ res hres
      · rw [ih _ _ (by simp only [List.length_append, List.length_singleton]; push_cast; omega),
          show limit.toNat - res.length = (limit.toNat - (res.length + 1)) + 1 by omega]
        simp

/-- The stream is by user key, no key is empty, and none is below the last one seen. -/
structure StreamOk (M : List ScanItem) (last : Option Bytes) : Prop where
  sorted : M.Pairwise (fun a b => a.userKey ≤ b.userKey)
  nonempty : ∀ x ∈ M, x.userKey ≠ []
  ge : ∀ l, last = some l → ∀ x ∈ M, l ≤ x.userKey

theorem StreamOk.tail (h : StreamOk (x :: xs) last) : StreamOk xs last :=
  ⟨(List.pairwise_cons.1 h.sorted).2, fun y hy => h.nonempty y (List.mem_cons_of_mem x hy),
    fun l hl y hy => h.ge l hl y (List.mem_cons_of_mem x hy)⟩

theorem StreamOk.next (h : StreamOk (x :: xs) last) : StreamOk xs (some x.userKey) :=
  ⟨(List.pairwise_cons.1 h.sorted).2, fun y hy => h.nonempty y (List.mem_cons_of_mem x hy),
    fun l hl y hy => by cases hl; exact (List.pairwise_cons.1 h.sorted).1 y hy⟩

theorem nextLastKey_of_ne (hk : k ≠ []) : nextLastKey last k = some k := by
  cases last <;> simp [nextLastKey, hk]

theorem mem_liveFirsts (h : StreamOk M last) {v : Bytes} : (k, v) ∈ liveFirsts M last ↔
      last ≠ some k ∧ ∃ x, firstItem M k = some x ∧ x.payload = some v := by
  induction M generalizing last with
  | nil => simp [liveFirsts, firstItem]
  | cons x xs ih =>
    have hne := h.nonempty x List.mem_cons_self
    rw [liveFirsts, nextLastKey_of_ne hne]
    by_cases hk : x.userKey = k
    · -- the first item of this very key
      subst hk
      have hfirst : firstItem (x :: xs) x.userKey = some x := by simp [firstItem]
      rw [hfirst]
      split_ifs with h1 h2
      · rw [ih h.tail]
        simp [h1]
      · rw [ih h.next]
        simp [ScanItem.payload, h2]
      · have hp : x.payload = some v ↔ v = x.value := by
          simp [ScanItem.payload, h2, eq_comm]
        rw [List.mem_cons, ih h.next]
        simp [h1, hp]
    · have hskip : firstItem (x :: xs) k = firstItem xs k := by
        unfold firstItem
        rw [List.find?_cons_of_neg (by simpa using hk)]
      rw [hskip]
      -- a key that was passed does not come back
      have hback : last = some k → firstItem xs k = none := by
        intro hl
        refine List.find?_eq_none.2 (fun y hy hc => ?_)
        have hyk : y.userKey = k := of_decide_eq_true hc
        have h1 := h.ge k hl x List.mem_cons_self
        have h2 := (List.pairwise_cons.1 h.sorted).1 y hy
        rw [hyk] at h2
        exact hk (le_antisymm h2 h1)
      have hkeep : (∃ y, firstItem xs k = some y ∧ y.payload = some v) → ¬ last = some k := by
        rintro ⟨y, hy, -⟩ hl
        rw [hback hl] at hy
        cases hy
      split_ifs with h1 h2
      · exact ih h.tail
      · rw [ih h.next]
        simp only [ne_eq, Option.some.injEq, hk, not_false_eq_true, true_and]
        exact (and_iff_right_of_imp hkeep).symm
      · rw [List.mem_cons, ih h.next]
        simp only [Prod.mk.injEq, Ne.symm hk, false_and, false_or, ne_eq, Option.some.injEq, hk,
          not_false_eq_true, true_and]
        exact (and_iff_right_of_imp hkeep).symm

theorem liveFirsts_gt {l : Bytes} (h : StreamOk M (some l)) :
    ∀ p ∈ liveFirsts M (some l), l < p.1 := by
  rintro ⟨k, v⟩ hp
  obtain ⟨hne, x, hx, -⟩ := (mem_liveFirsts h).1 hp
  have hxk : x.userKey = k := by simpa using List.find?_some hx
  have hle := h.ge l rfl x (List.mem_of_find?_eq_some hx)
  rw [hxk] at hle
  exact lt_of_le_of_ne hle (fun hc => hne (by rw [hc]))

theorem liveFirsts_sorted (h : StreamOk M last) :
    (liveFirsts M last).Pairwise (fun a b => a.1 < b.1) := by
  induction M generalizing last with
  | nil => exact List.Pairwise.nil
  | cons x xs ih =>
    rw [liveFirsts, nextLastKey_of_ne (h.nonempty x List.mem_cons_self)]
    split_ifs
    · exact ih h.tail
    · exact ih h.next
    · exact List.pairwise_cons.2 ⟨liveFirsts_gt h.next, ih h.next⟩

/-! ### Sources of memtables and tables -/

theorem scanMems_eq (start stop : Bytes) (p : ℕ) (ts : List MemTable) :
    scanMems start stop p ts = allSources start stop p (ts.map MemTable.entries) := by
  induction ts generalizing p with
  | nil => rfl
  | cons t ts ih => simp [scanMems, allSources, ih]

def fileEntries (files : ℕ → Option SSTable) (m : SSTableMeta) : List Entry :=
  ((files m.fileID).map SSTable.entries).getD []

theorem tableSources_of {files readers : ℕ → Option SSTable} {ms : List SSTableMeta}
    (h : ∀ m ∈ ms, readers m.fileID = files m.fileID ∧ ∃ t, files m.fileID = some t ∧
      TableShape m t) :
    SourcesOf start stop p (ms.map (fileEntries files)) (tableSources readers start stop p ms) := by
  induction ms generalizing p with
  | nil => exact ⟨List.Sublist.refl _, fun s hs _ => by cases hs⟩
  | cons m ms ih =>
    obtain ⟨hr, t, ht, hok⟩ := h m List.mem_cons_self
    have ih := @ih (p + 1) (fun x hx => h x (List.mem_cons_of_mem m hx))
    have hentries : fileEntries files m = t.entries := by simp [fileEntries, ht]
    rw [List.map_cons, tableSources, hr, ht, hentries]
    simp only [hok.built.iterate_eq]
    split_ifs with hov
    · exact ⟨ih.sub.cons_cons _, fun s hs hne => by
        rcases List.mem_cons.1 hs with rfl | hs
        · exact List.mem_cons_self
        · exact List.mem_cons_of_mem _ (ih.covers s hs hne)⟩
    · refine ⟨ih.sub.cons _, fun s hs hne => ?_⟩
      rcases List.mem_cons.1 hs with rfl | hs
      · -- a table outside the range has nothing to contribute
        exfalso
        apply hne
        rw [scanSource_eq hok.sorted, List.map_eq_nil_iff, List.filter_eq_nil_iff]
        intro e he hc
        obtain ⟨h1, h2⟩ := of_decide_eq_true hc
        obtain ⟨hlo, hhi⟩ := hok.range he
        exact hov (tableOverlapsRange_of_mem hlo hhi h1 h2)
      · exact ih.covers s hs hne

/-- The entries of memtables and then of tables, table by table. -/
def layerEntries (ts : List MemTable) (v : Version) (files : ℕ → Option SSTable) :
    List (List Entry) :=
  ts.map MemTable.entries ++ v.scanOrder.map (fileEntries files)

section Layers

variable {ts : List MemTable} {v : Version} {files readers : ℕ → Option SSTable}
  {m : Bytes → Option Bytes} {start stop : Bytes}

theorem layerEntries_ok
    (h : ∀ i, ∀ t ∈ v.levels i, ∃ s, files t.fileID = some s ∧ TableShape t s)
    (hkeys : ∀ t ∈ ts, ∀ x ∈ t.entries, x.key.userKey ≠ []) :
    ∀ es ∈ layerEntries ts v files, SortedEntries es ∧ ∀ x ∈ es, x.key.userKey ≠ [] := by
  intro es hes
  rcases List.mem_append.1 hes with hes | hes
  · obtain ⟨t, ht, rfl⟩ := List.mem_map.1 hes
    exact ⟨t.sorted, hkeys t ht⟩
  · obtain ⟨t, ht, rfl⟩ := List.mem_map.1 hes
    obtain ⟨i, -, hti⟩ := mem_scanOrder.1 ht
    obtain ⟨s, hs, hok⟩ := h i t hti
    have : fileEntries files t = s.entries := by simp [fileEntries, hs]
    rw [this]
    exact ⟨hok.sorted, hok.keys⟩

theorem layerGets_eq (ts : List MemTable) (v : Version) (files : ℕ → Option SSTable) (k : Bytes) :
    firstHit (layerGets ts v files) k =
      firstHit ((layerEntries ts v files).map (fun es k => (firstVersion es k).map Entry.payload))
        k := by
  unfold layerGets layerEntries firstHit
  rw [List.map_append, List.map_map, List.map_map]
  simp only [List.findSome?_append, List.findSome?_map]
  congr 1
  · congr 1
    funext t
    exact t.get_eq k
  · congr 1
    funext t
    simp only [Function.comp_apply, tableGet, fileEntries]
    cases files t.fileID <;> rfl

def scanResult (ts : List MemTable) (v : Version) (readers : ℕ → Option SSTable)
    (start stop : Bytes) (limit : ℤ) : List (Bytes × Bytes) :=
  scanLoop limit (mergeAll scanLess (scanMems start stop 0 ts ++
    tableSources readers start stop ts.length v.scanOrder)) none []

/-- **A scan returns the pairs that layered lookups find in the range.** -/
theorem scanResult_isScan
    (h : ∀ i, ∀ t ∈ v.levels i, ∃ s, files t.fileID = some s ∧ TableShape t s)
    (hkeys : ∀ t ∈ ts, ∀ x ∈ t.entries, x.key.userKey ≠ [])
    (hreaders : ∀ i, ∀ t ∈ v.levels i, readers t.fileID = files t.fileID)
    (hm : ∀ k, InRange start stop k → (firstHit (layerGets ts v files) k).getD none = m k)
    (limit : ℤ) : IsScan m start stop limit (scanResult ts v readers start stop limit) := by
  have hok := layerEntries_ok h hkeys
  have hsorted : ∀ es ∈ layerEntries ts v files, SortedEntries es := fun es hes => (hok es hes).1
  have hsrc : SourcesOf start stop 0 (layerEntries ts v files)
      (scanMems start stop 0 ts ++ tableSources readers start stop ts.length v.scanOrder) := by
    rw [scanMems_eq]
    refine (SourcesOf.all start stop 0 _).append ?_
    have hlen : 0 + (ts.map MemTable.entries).length = ts.length := by simp
    rw [hlen]
    refine tableSources_of (fun t ht => ?_)
    obtain ⟨i, -, hti⟩ := mem_scanOrder.1 ht
    exact ⟨hreaders i t hti, h i t hti⟩
  unfold scanResult
  set M := mergeAll scanLess (scanMems start stop 0 ts ++
    tableSources readers start stop ts.length v.scanOrder) with hM
  have hstream : StreamOk M none := by
    refine ⟨(merged_sorted hsrc hsorted).imp (fun {a b} hab => ?_), fun x hx => ?_, by simp⟩
    · rcases scanLess'_eq_false.1 hab with hlt | heq
      · exact hlt.le
      · exact heq.1.symm.le
    · obtain ⟨pre, es, post, hL, y, hy, -, rfl⟩ := (mem_merged hsrc hsorted).1 hx
      exact (hok es (by simp [hL])).2 y hy
  refine ⟨liveFirsts M none, liveFirsts_sorted hstream, fun k v => ?_, ?_⟩
  · rw [mem_liveFirsts hstream]
    simp only [ne_eq, reduceCtorEq, not_false_eq_true, true_and]
    constructor
    · rintro ⟨x, hx, hp⟩
      obtain ⟨hxM, hxk, -⟩ := firstItem_le hsrc hsorted hx
      obtain ⟨pre, es, post, -, y, -, hr, rfl⟩ := (mem_merged hsrc hsorted).1 hxM
      have hr : InRange start stop k := hxk ▸ hr
      refine ⟨hr, ?_⟩
      rw [← hm k hr, layerGets_eq, ← firstItem_merged hsrc hsorted hr, ← hM, hx, Option.map_some,
        hp]
      rfl
    · rintro ⟨hr, hv⟩
      have hmeaning := hm k hr
      rw [layerGets_eq, ← firstItem_merged hsrc hsorted hr, ← hM, hv] at hmeaning
      cases hx : firstItem M k with
      | none => rw [hx] at hmeaning; cases hmeaning
      | some x =>
        rw [hx, Option.map_some, Option.getD_some] at hmeaning
        exact ⟨x, rfl, hmeaning⟩
  · split_ifs with hl
    · rw [scanLoop_limited hl M none [] (by simpa using hl.le)]
      simp
    · rw [scanLoop_unlimited hl]
      rfl

end Layers

/-! ### Scans of the engine -/

theorem scanWithError_eq (e : LSMEngine) (start stop : Bytes) (limit : ℤ) :
    (e.scanWithError start stop limit).1 =
      scanResult e.mems e.current e.tc.readerOf start stop limit := by
  rw [scanWithError_fst, scanResult]
  simp only [LSMEngine.mems, List.length_cons, List.length_map, List.length_reverse]

/-- **A scan returns the live pairs of the represented map.** -/
theorem Readable.scanWithError {e : LSMEngine} {m : Bytes → Option Bytes} (h : Readable e m)
    (start stop : Bytes) (limit : ℤ) :
    IsScan m start stop limit (e.scanWithError start stop limit).1 := by
  rw [scanWithError_eq]
  refine scanResult_isScan (fun _ _ => h.tables.shape.table) (fun t ht x hx => ?_) h.readers
    (fun k _ => LayeredShape.firstHit h.toLayered.shape k) limit
  exact (h.mem_ok x ⟨_, List.mem_map_of_mem ht, hx⟩).key

end LsmTree
