import LsmTree.Engine.Compaction
import LsmTree.Correct.Tables

/-!
# What a compaction writes

The merged stream of the inputs is sorted with newer versions first, so the first entry of each user
key is the newest of all inputs.  `kept` are the entries the merge loop keeps; the outputs hold
exactly these, in order (`planCompaction_ok`), cut into well-formed tables with new file ids.
For each key they thin out the inputs (`kept_thins`).

Inputs that have no reader, or blocks that cannot be loaded, are missing from the stream without any
error; `mem_mergedStream` says what is in it.
-/

namespace LsmTree

open Versioned KWayMerge

variable {readers : ℕ → Option SSTable} {inputs : List SSTableMeta} {e x : Entry} {es : List Entry}
  {prev : Option Bytes} {b : Bool} {k : Bytes} {level lo : ℕ} {st : CompactState}

/-! ### The merged stream -/

/-- The heap sources of a compaction, as a function of the available readers. -/
def inputSources (readers : ℕ → Option SSTable) : ℕ → List SSTableMeta → List (List MergeEntry)
  | _, [] => []
  | i, m :: ms =>
    match readers m.fileID with
    | none => inputSources readers (i + 1) ms
    | some t => t.iterate.map (fun e => ⟨e, i⟩) :: inputSources readers (i + 1) ms

theorem openInputs_fst (i : ℕ) (ms : List SSTableMeta) (tc : TableCache) :
    (openInputs i ms tc).1 = inputSources tc.readerOf i ms := by
  induction ms generalizing i tc with
  | nil => rfl
  | cons m ms ih =>
    have hsome := tc.get_isSome m.fileID
    rw [openInputs, inputSources]
    cases hg : tc.get m.fileID with
    | none =>
      rw [hg] at hsome
      rw [← hsome]
      exact ih (i + 1) tc
    | some x =>
      obtain ⟨t, tc'⟩ := x
      rw [hg] at hsome
      rw [← hsome]
      simp only [Option.map_some]
      rw [ih (i + 1) tc', TableCache.readerOf_get hg]

theorem openInputs_readerOf (i : ℕ) (ms : List SSTableMeta) (tc : TableCache) :
    (openInputs i ms tc).2.1.readerOf = tc.readerOf := by
  induction ms generalizing i tc with
  | nil => rfl
  | cons m ms ih =>
    rw [openInputs]
    cases hg : tc.get m.fileID with
    | none => exact ih (i + 1) tc
    | some x =>
      obtain ⟨t, tc'⟩ := x
      exact (ih (i + 1) tc').trans (TableCache.readerOf_get hg)

def mergedStream (readers : ℕ → Option SSTable) (inputs : List SSTableMeta) : List Entry :=
  (mergeAll mergeLess (inputSources readers 0 inputs)).map MergeEntry.entry

theorem mergeLess_eq_false {a b : MergeEntry} : mergeLess a b = false ↔
    b.entry.key.userKey < a.entry.key.userKey ∨
      (a.entry.key.userKey = b.entry.key.userKey ∧
        (a.entry.key.seqNo < b.entry.key.seqNo ∨
          (a.entry.key.seqNo = b.entry.key.seqNo ∧ b.idx ≤ a.idx))) := by
  unfold mergeLess
  split_ifs with h1 h2
  · simp only [false_iff]
    rintro (h | ⟨h, h'⟩) <;> rcases InternalKey.less_iff.1 h1 with h3 | ⟨h3, h4⟩
    · exact absurd (h.trans h3) (lt_irrefl _)
    · exact absurd h3.symm h.ne
    · exact absurd h h3.ne
    · omega
  · simp only [true_iff]
    rcases InternalKey.less_iff.1 h2 with h3 | ⟨h3, h4⟩
    · exact Or.inl h3
    · exact Or.inr ⟨h3.symm, Or.inl h4⟩
  · rw [Bool.not_eq_true, InternalKey.less_eq_false_iff] at h1 h2
    simp only [decide_eq_false_iff_not, not_lt]
    rcases h1 with h1 | ⟨h1, h1'⟩ <;> rcases h2 with h2 | ⟨h2, h2'⟩
    · exact absurd (h1.trans h2) (lt_irrefl _)
    · exact absurd h2 h1.ne
    · exact absurd h1 h2.ne
    · have hs : a.entry.key.seqNo = b.entry.key.seqNo := le_antisymm h1' h2'
      simp [h1, hs]

theorem mergeLess_strictWeak : StrictWeak mergeLess where
  asymm a b h := by
    by_contra hc
    have h1 : ¬ mergeLess a b = false := by simp [h]
    rw [mergeLess_eq_false] at h1 hc
    rcases lt_trichotomy a.entry.key.userKey b.entry.key.userKey with hlt | heq | hgt
    · exact hc (Or.inl hlt)
    · rw [not_or, not_and] at h1 hc
      have e1 := h1.2 heq
      have e2 := hc.2 heq.symm
      omega
    · exact h1 (Or.inl hgt)
  negTrans a b c h1 h2 := by
    rw [mergeLess_eq_false] at *
    rcases h1 with h1 | ⟨e1, h1⟩ <;> rcases h2 with h2 | ⟨e2, h2⟩
    · exact Or.inl (h1.trans h2)
    · exact Or.inl (e2 ▸ h1)
    · exact Or.inl (e1 ▸ h2)
    · exact Or.inr ⟨e2.trans e1, by omega⟩

theorem mem_inputSources {i : ℕ} {ms : List SSTableMeta} {s : List MergeEntry}
    (h : s ∈ inputSources readers i ms) :
    ∃ m ∈ ms, ∃ t j, readers m.fileID = some t ∧ s = t.iterate.map (fun e => ⟨e, j⟩) := by
  induction ms generalizing i with
  | nil => cases h
  | cons m ms ih =>
    rw [inputSources] at h
    cases hr : readers m.fileID with
    | none =>
      rw [hr] at h
      obtain ⟨m', hm', t, j, h1, h2⟩ := ih h
      exact ⟨m', List.mem_cons_of_mem m hm', t, j, h1, h2⟩
    | some t =>
      rw [hr] at h
      rcases List.mem_cons.1 h with rfl | h
      · exact ⟨m, List.mem_cons_self, t, i, hr, rfl⟩
      · obtain ⟨m', hm', t, j, h1, h2⟩ := ih h
        exact ⟨m', List.mem_cons_of_mem m hm', t, j, h1, h2⟩

theorem inputSources_of_mem {readers : ℕ → Option SSTable} {i : ℕ} {ms : List SSTableMeta}
    {m : SSTableMeta} {t : SSTable} (hm : m ∈ ms) (ht : readers m.fileID = some t) :
    ∃ j, t.iterate.map (fun e => (⟨e, j⟩ : MergeEntry)) ∈ inputSources readers i ms := by
  induction ms generalizing i with
  | nil => cases hm
  | cons a ms ih =>
    rw [inputSources]
    rcases List.mem_cons.1 hm with rfl | hm
    · rw [ht]
      exact ⟨i, List.mem_cons_self⟩
    · obtain ⟨j, hj⟩ := @ih (i + 1) hm
      refine ⟨j, ?_⟩
      cases readers a.fileID with
      | none => exact hj
      | some t' => exact List.mem_cons_of_mem _ hj

theorem mem_mergedStream :
    e ∈ mergedStream readers inputs ↔
      ∃ m ∈ inputs, ∃ t, readers m.fileID = some t ∧ e ∈ t.iterate := by
  unfold mergedStream
  rw [List.mem_map]
  constructor
  · rintro ⟨x, hx, rfl⟩
    obtain ⟨s, hs, hxs⟩ := mem_mergeAll.1 hx
    obtain ⟨m, hm, t, j, ht, rfl⟩ := mem_inputSources hs
    obtain ⟨e, he, rfl⟩ := List.mem_map.1 hxs
    exact ⟨m, hm, t, ht, he⟩
  · rintro ⟨m, hm, t, ht, he⟩
    obtain ⟨j, hj⟩ := @inputSources_of_mem readers 0 inputs m t hm ht
    exact ⟨⟨e, j⟩, mem_mergeAll.2 ⟨_, hj, List.mem_map.2 ⟨e, he, rfl⟩⟩, rfl⟩

/-- Entries in the order of internal keys, equal ones allowed. -/
def StreamSorted (es : List Entry) : Prop := es.Pairwise (fun a b => b.key.less a.key = false)

theorem mergedStream_sorted
    (h : ∀ m ∈ inputs, ∀ t, readers m.fileID = some t → SortedEntries t.iterate) :
    StreamSorted (mergedStream readers inputs) := by
  have hs : Sorted mergeLess (mergeAll mergeLess (inputSources readers 0 inputs)) := by
    refine mergeAll_sorted mergeLess_strictWeak (fun s hs => ?_)
    obtain ⟨m, hm, t, j, ht, rfl⟩ := mem_inputSources hs
    unfold Sorted
    rw [List.pairwise_map]
    refine (h m hm t ht).imp (fun {a b} hab => mergeLess_eq_false.2 ?_)
    rcases InternalKey.less_iff.1 hab with hlt | ⟨heq, hlt⟩
    · exact Or.inl hlt
    · exact Or.inr ⟨heq.symm, Or.inl hlt⟩
  unfold StreamSorted mergedStream
  rw [List.pairwise_map]
  refine hs.imp (fun {a b} hab => InternalKey.less_eq_false_iff.2 ?_)
  rcases mergeLess_eq_false.1 hab with hlt | ⟨heq, h'⟩
  · exact Or.inl hlt
  · exact Or.inr ⟨heq, by omega⟩

/-! ### The entries that are kept -/

/-- The first entry of each user key, without tombstones at the bottom level. -/
def kept (isBottomLevel : Bool) : List Entry → Option Bytes → List Entry
  | [], _ => []
  | e :: es, prev =>
    if prev = some e.key.userKey then kept isBottomLevel es prev
    else if e.key.type = .deletion ∧ isBottomLevel then
      kept isBottomLevel es (nextLastKey prev e.key.userKey)
    else e :: kept isBottomLevel es (nextLastKey prev e.key.userKey)

/-- What the merge loop relies on: the stream is sorted, no key is empty, and none is below the
previous one. -/
structure StreamFrom (es : List Entry) (prev : Option Bytes) : Prop where
  sorted : StreamSorted es
  nonempty : ∀ e ∈ es, e.key.userKey ≠ []
  ge : ∀ p, prev = some p → ∀ e ∈ es, p ≤ e.key.userKey

theorem StreamFrom.tail (h : StreamFrom (e :: es) prev) : StreamFrom es prev :=
  ⟨(List.pairwise_cons.1 h.sorted).2, fun x hx => h.nonempty x (List.mem_cons_of_mem e hx),
    fun p hp x hx => h.ge p hp x (List.mem_cons_of_mem e hx)⟩

theorem StreamFrom.head_le (h : StreamFrom (e :: es) prev) (hx : x ∈ es) :
    e.key.userKey < x.key.userKey ∨
      (x.key.userKey = e.key.userKey ∧ x.key.seqNo ≤ e.key.seqNo) :=
  InternalKey.less_eq_false_iff.1 ((List.pairwise_cons.1 h.sorted).1 x hx)

theorem StreamFrom.next (h : StreamFrom (e :: es) prev) :
    StreamFrom es (nextLastKey prev e.key.userKey) := by
  have hne := h.nonempty e List.mem_cons_self
  have hnext : nextLastKey prev e.key.userKey = some e.key.userKey := by
    cases prev <;> simp [nextLastKey, hne]
  rw [hnext]
  refine ⟨h.tail.sorted, h.tail.nonempty, fun p hp x hx => ?_⟩
  cases hp
  rcases h.head_le hx with hlt | ⟨heq, -⟩
  · exact hlt.le
  · exact heq.symm.le

theorem StreamFrom.next_eq (h : StreamFrom (e :: es) prev) :
    nextLastKey prev e.key.userKey = some e.key.userKey := by
  have hne := h.nonempty e List.mem_cons_self
  cases prev <;> simp [nextLastKey, hne]

theorem mem_kept (h : StreamFrom es prev) : x ∈ kept b es prev ↔ prev ≠ some x.key.userKey ∧
      firstVersion es x.key.userKey = some x ∧ ¬ (x.key.type = .deletion ∧ b = true) := by
  induction es generalizing prev with
  | nil => simp [kept, firstVersion]
  | cons e es ih =>
    rw [kept, h.next_eq]
    by_cases hk : e.key.userKey = x.key.userKey
    · have hfirst : firstVersion (e :: es) x.key.userKey = some e := by simp [firstVersion, hk]
      rw [hfirst]
      have ih' := ih h.next
      rw [h.next_eq] at ih'
      split_ifs with h1 h2
      · rw [ih h.tail, h1, hk]
        simp
      · rw [ih', hk]
        simp only [ne_eq, not_true_eq_false, false_and, false_iff]
        rintro ⟨-, hex, hx⟩
        cases hex
        exact hx h2
      · rw [List.mem_cons, ih', hk]
        simp only [ne_eq, not_true_eq_false, false_and, or_false, Option.some.injEq]
        constructor
        · rintro rfl
          exact ⟨h1, rfl, h2⟩
        · rintro ⟨-, rfl, -⟩
          rfl
    · have hskip : firstVersion (e :: es) x.key.userKey = firstVersion es x.key.userKey := by
        unfold firstVersion
        rw [List.find?_cons_of_neg (by simpa using hk)]
      rw [hskip]
      -- a key that was passed does not come back
      have hback : firstVersion es x.key.userKey = some x → prev ≠ some x.key.userKey := by
        intro hf hp
        have hxmem : x ∈ es := List.mem_of_find?_eq_some hf
        have h1 := h.ge _ hp e List.mem_cons_self
        rcases h.head_le hxmem with h2 | ⟨h2, -⟩
        · exact absurd (h1.trans_lt h2) (lt_irrefl _)
        · exact hk h2.symm
      have ih' := ih h.next
      rw [h.next_eq] at ih'
      have hne : (some e.key.userKey : Option Bytes) ≠ some x.key.userKey := by simpa using hk
      split_ifs with h1 h2
      · exact ih h.tail
      · rw [ih']
        exact and_congr_left fun h => iff_of_true hne (hback h.1)
      · have hxe : x ≠ e := fun hc => hk (by rw [hc])
        rw [List.mem_cons, ih']
        simp only [hxe, false_or]
        exact and_congr_left fun h => iff_of_true hne (hback h.1)

theorem kept_gt {p : Bytes} (h : StreamFrom es (some p)) :
    ∀ x ∈ kept b es (some p), p < x.key.userKey := by
  intro x hx
  obtain ⟨hne, hf, -⟩ := (mem_kept h).1 hx
  exact lt_of_le_of_ne (h.ge p rfl x (List.mem_of_find?_eq_some hf))
    (fun hc => hne (by rw [hc]))

theorem kept_sorted (h : StreamFrom es prev) :
    (kept b es prev).Pairwise (fun x y => x.key.userKey < y.key.userKey) := by
  induction es generalizing prev with
  | nil => exact List.Pairwise.nil
  | cons e es ih =>
    have hnext := h.next
    rw [kept]
    rw [h.next_eq] at hnext ⊢
    split_ifs
    · exact ih h.tail
    · exact ih hnext
    · exact List.pairwise_cons.2 ⟨kept_gt hnext, ih hnext⟩

theorem firstVersion_stream_newest (h : StreamSorted es) (hx : firstVersion es k = some x) :
    IsNewest {e | e ∈ es} k x := by
  obtain ⟨hk, as, bs, hes, has⟩ := List.find?_eq_some_iff_append.1 hx
  have hk : x.key.userKey = k := of_decide_eq_true hk
  subst hes
  refine ⟨by simp, hk, fun y hy hyk => ?_⟩
  have hyk : y.key.userKey = k := hyk
  rcases List.mem_append.1 hy with hy | hy
  · have := has y hy
    simp [hyk] at this
  · rcases List.mem_cons.1 hy with rfl | hy
    · exact le_rfl
    · have hxy := (List.pairwise_cons.1 (List.pairwise_append.1 h).2.1).1 y hy
      rcases InternalKey.less_eq_false_iff.1 hxy with hlt | ⟨-, hle⟩
      · rw [hk, hyk] at hlt
        exact absurd hlt (lt_irrefl _)
      · exact hle

/-- **For each key the kept entries thin out the stream.** -/
theorem kept_thins (h : StreamFrom es none) (ha : Agrees {e | e ∈ es}) (k : Bytes) :
    Thins {e | e ∈ es} {e | e ∈ kept b es none} k where
  newest := by
    rintro x hx rfl
    exact firstVersion_stream_newest h.sorted ((mem_kept h).1 hx).2.1
  keeps := by
    intro e he
    have hek : e.key.userKey = k := he.2.1
    obtain ⟨x, hx⟩ : ∃ x, firstVersion es k = some x := by
      cases hv : firstVersion es k with
      | none => exact absurd hek (firstVersion_none.1 hv e he.1)
      | some x => exact ⟨x, rfl⟩
    have hxe : x = e := (firstVersion_stream_newest h.sorted hx).unique ha he
    subst hxe
    by_cases hd : x.key.type = .deletion ∧ b = true
    · refine Or.inr ⟨?_, ?_⟩
      · change x.payload = none
        unfold Entry.payload
        rw [hd.1]
      · rintro ⟨y, hy, hyk⟩
        obtain ⟨-, hy, hyd⟩ := (mem_kept h).1 hy
        have hyk : y.key.userKey = k := hyk
        rw [hyk, hx] at hy
        cases hy
        exact hyd hd
    · exact Or.inl ((mem_kept h).2 ⟨by simp, hek.symm ▸ hx, hd⟩)

theorem kept_holds (h : StreamFrom es none) (hk : Holds {e | e ∈ es} k) :
    Holds {e | e ∈ kept b es none} k ∨ b = true := by
  obtain ⟨e, he, hek⟩ := hk
  cases hv : firstVersion es k with
  | none => exact absurd hek (firstVersion_none.1 hv e he)
  | some x =>
    have hxk : x.key.userKey = k := by simpa using List.find?_some hv
    by_cases hd : x.key.type = .deletion ∧ b = true
    · exact Or.inr hd.2
    · exact Or.inl ⟨x, (mem_kept h).2 ⟨by simp, by rw [hxk]; exact hv, hd⟩, hxk⟩

/-! ### The output files -/

/-- A finished output: a table with entries, at its level, with a new file id and the key range its
metadata says. -/
structure OutOk (level lo hi : ℕ) (o : SSTableMeta × SSTable) : Prop where
  built : o.2.Built o.2.entries
  nonempty : o.2.entries ≠ []
  level_eq : o.1.level = level
  created : o.1.createdAt = 0
  id_gt : lo < o.1.fileID
  id_le : o.1.fileID ≤ hi
  first : ∃ x, o.2.entries.head? = some x ∧ o.1.firstKey = x.key.userKey
  last : ∃ y, o.2.entries.getLast? = some y ∧ o.1.lastKey = y.key.userKey

theorem OutOk.mono {hi hi' : ℕ} {o : SSTableMeta × SSTable} (h : OutOk level lo hi o)
    (hle : hi ≤ hi') : OutOk level lo hi' o :=
  { h with id_le := h.id_le.trans hle }

theorem outOk_finish {b : SSTableBuilder} (h : b.Inv) (hne : b.all ≠ []) (hlo : lo < b.fileID) :
    OutOk b.level lo b.fileID b.finish := by
  have hbuilt := finish_built h
  have hentries : b.finish.2.entries = b.all := hbuilt.entries_eq
  obtain ⟨x, hx⟩ : ∃ x, b.all.head? = some x := by
    cases hc : b.all with
    | nil => exact absurd hc hne
    | cons x l => exact ⟨x, rfl⟩
  obtain ⟨y, hy⟩ : ∃ y, b.all.getLast? = some y := by
    cases hc : b.all.getLast? with
    | none => exact absurd (List.getLast?_eq_none_iff.1 hc) hne
    | some y => exact ⟨y, rfl⟩
  obtain ⟨h1, h2⟩ := finish_range h hx hy
  exact {
    built := by rw [hentries]; exact hbuilt
    nonempty := by rw [hentries]; exact hne
    level_eq := finish_level b
    created := rfl
    id_gt := by rw [finish_fileID]; exact hlo
    id_le := (finish_fileID b).le
    first := ⟨x, by rw [hentries]; exact hx, h1⟩
    last := ⟨y, by rw [hentries]; exact hy, h2⟩ }

def CompactState.written (st : CompactState) : List Entry :=
  st.outputs.flatMap (fun o => o.2.entries) ++ st.builder.all

structure CompactState.Inv (st : CompactState) (level lo : ℕ) : Prop where
  builder : st.builder.Inv
  builder_level : st.builder.level = level
  builder_id : st.builder.fileID = st.nextFileID
  lo_lt : lo < st.nextFileID
  outs : ∀ o ∈ st.outputs, OutOk level lo (st.nextFileID - 1) o
  ids : st.outputs.Pairwise (fun a b => a.1.fileID < b.1.fileID)

theorem newOutput_inv (cfg : Config) {next : ℕ} {outs : List (SSTableMeta × SSTable)}
    (hlo : lo ≤ next) (houts : ∀ o ∈ outs, OutOk level lo next o)
    (hids : outs.Pairwise (fun a b => a.1.fileID < b.1.fileID)) :
    (newOutput cfg level next outs).Inv level lo where
  builder := newSSTableBuilder_inv _ _ _ _
  builder_level := rfl
  builder_id := rfl
  lo_lt := Nat.lt_succ_of_le hlo
  outs := houts
  ids := hids

theorem newOutput_written (cfg : Config) (level next : ℕ)
    (outs : List (SSTableMeta × SSTable)) :
    (newOutput cfg level next outs).written = outs.flatMap (fun o => o.2.entries) := by
  simp [CompactState.written, newOutput]

theorem CompactState.Inv.numEntries (h : st.Inv level lo) :
    ¬ 0 < st.builder.numEntries → st.builder.all = [] := by
  intro hn
  rw [h.builder.numEntries_eq] at hn
  exact List.length_eq_zero_iff.1 (by omega)

theorem CompactState.Inv.finishOutput (h : st.Inv level lo) :
    (∀ o ∈ st.finishOutput, OutOk level lo st.nextFileID o) ∧
      st.finishOutput.Pairwise (fun a b => a.1.fileID < b.1.fileID) ∧
      st.finishOutput.flatMap (fun o => o.2.entries) = st.written := by
  have hle : st.nextFileID - 1 ≤ st.nextFileID := Nat.sub_le _ _
  unfold CompactState.finishOutput
  split_ifs with hn
  · have hne : st.builder.all ≠ [] := by
      intro hc
      rw [h.builder.numEntries_eq, hc] at hn
      exact absurd hn (lt_irrefl _)
    have hlo : lo < st.builder.fileID := by rw [h.builder_id]; exact h.lo_lt
    have hfin := outOk_finish h.builder hne hlo
    rw [h.builder_level, h.builder_id] at hfin
    refine ⟨?_, ?_, ?_⟩
    · intro o ho
      rcases List.mem_append.1 ho with ho | ho
      · exact (h.outs o ho).mono hle
      · rw [List.mem_singleton.1 ho]
        exact hfin
    · refine List.pairwise_append.2 ⟨h.ids, List.pairwise_singleton _ _, ?_⟩
      intro a ha b hb
      rw [List.mem_singleton.1 hb, finish_fileID, h.builder_id]
      have := (h.outs a ha).id_le
      have := h.lo_lt
      omega
    · rw [List.flatMap_append, CompactState.written]
      simp [(finish_built h.builder).entries_eq]
  · refine ⟨fun o ho => (h.outs o ho).mono hle, h.ids, ?_⟩
    rw [CompactState.written, h.numEntries hn, List.append_nil]

theorem CompactState.Inv.addEntry (h : st.Inv level lo) (cfg : Config) (e : Entry) :
    let st' := if cfg.sstMaxSize ≤ st.builder.approxSize then
        newOutput cfg level st.nextFileID st.finishOutput else st
    ({ st' with builder := st'.builder.add e } : CompactState).Inv level lo ∧
      ({ st' with builder := st'.builder.add e } : CompactState).written = st.written ++ [e] ∧
      st.nextFileID ≤ st'.nextFileID := by
  have hadd : ∀ s : CompactState, s.Inv level lo →
      ({ s with builder := s.builder.add e } : CompactState).Inv level lo ∧
        ({ s with builder := s.builder.add e } : CompactState).written = s.written ++ [e] :=
    fun s hs => ⟨⟨hs.builder.add e, (add_level _ _).trans hs.builder_level,
      (add_fileID _ _).trans hs.builder_id, hs.lo_lt, hs.outs, hs.ids⟩,
      by simp [CompactState.written]⟩
  intro st'
  by_cases hroll : cfg.sstMaxSize ≤ st.builder.approxSize
  · obtain ⟨h1, h2, h3⟩ := h.finishOutput
    have hst' : st' = newOutput cfg level st.nextFileID st.finishOutput := if_pos hroll
    rw [hst']
    obtain ⟨h4, h5⟩ := hadd _ (newOutput_inv cfg h.lo_lt.le h1 h2)
    exact ⟨h4, by rw [h5, newOutput_written, h3], Nat.le_succ _⟩
  · have hst' : st' = st := if_neg hroll
    rw [hst']
    exact ⟨(hadd st h).1, (hadd st h).2, le_rfl⟩

theorem CompactState.Inv.compactLoop (h : st.Inv level lo) (cfg : Config) (b : Bool)
    (es : List Entry) (prev : Option Bytes) :
    (compactLoop cfg level b es prev st).Inv level lo ∧
      (compactLoop cfg level b es prev st).written = st.written ++ kept b es prev ∧
      st.nextFileID ≤ (compactLoop cfg level b es prev st).nextFileID := by
  induction es generalizing prev st with
  | nil => exact ⟨h, by simp [LsmTree.compactLoop, kept], le_rfl⟩
  | cons e es ih =>
    rw [LsmTree.compactLoop, kept]
    split_ifs
    · exact ih h prev
    · exact ih h _
    all_goals
      obtain ⟨h1, h2, h3⟩ := h.addEntry cfg e
      simp only [*, if_true, if_false] at h1 h2 h3
      obtain ⟨h4, h5, h6⟩ := ih h1 (nextLastKey prev e.key.userKey)
      exact ⟨h4, by rw [h5, h2, List.append_assoc]; rfl, h3.trans h6⟩

/-- What a plan is: its inputs in heap order, and outputs that hold what the merge keeps. -/
structure PlanOk (e : LSMEngine) (inputs : List SSTableMeta) (level : ℕ)
    (p : CompactionPlan) : Prop where
  inputs_eq : p.inputs = inputs.insertionSort inputLe
  outs : ∀ o ∈ p.outputs, OutOk level e.nextFileID p.nextFileID o
  ids : p.outputs.Pairwise (fun a b => a.1.fileID < b.1.fileID)
  entries : p.outputs.flatMap (fun o => o.2.entries) =
    kept (decide (level + 1 = e.cfg.maxLevel)) (mergedStream e.tc.readerOf p.inputs) none
  next_ge : e.nextFileID ≤ p.nextFileID
  last_gt : e.nextFileID < p.lastFile
  last_le : p.lastFile ≤ p.nextFileID
  readers : p.tc.readerOf = e.tc.readerOf

/-- **The outputs of a compaction hold exactly the kept entries of its inputs.** -/
theorem planCompaction_ok (e : LSMEngine) (inputs : List SSTableMeta) (level : ℕ) :
    PlanOk e inputs level (e.planCompaction inputs level) := by
  have hinit : (newOutput e.cfg level e.nextFileID []).Inv level e.nextFileID :=
    newOutput_inv e.cfg le_rfl (by simp) List.Pairwise.nil
  obtain ⟨h1, h2, h3⟩ := hinit.compactLoop e.cfg (decide (level + 1 = e.cfg.maxLevel))
    (mergedStream e.tc.readerOf (inputs.insertionSort inputLe)) none
  obtain ⟨h4, h5, h6⟩ := h1.finishOutput
  rw [newOutput_written, List.flatMap_nil, List.nil_append] at h2
  have hstream : (mergeAll mergeLess
      (openInputs 0 (inputs.insertionSort inputLe) e.tc).1).map MergeEntry.entry =
      mergedStream e.tc.readerOf (inputs.insertionSort inputLe) := by
    rw [openInputs_fst]; rfl
  have hnext : e.nextFileID < (newOutput e.cfg level e.nextFileID []).nextFileID :=
    Nat.lt_succ_self _
  refine ⟨rfl, ?_, ?_, ?_, ?_, ?_, ?_, ?_⟩ <;> simp only [LSMEngine.planCompaction, hstream]
  · exact h4
  · exact h5
  · rw [h6, h2]
  · exact hnext.le.trans h3
  · rw [h1.builder_id]; exact hnext.trans_le h3
  · rw [h1.builder_id]
  · rw [foldl_release_readerOf, openInputs_readerOf]

end LsmTree
