import LsmTree.Sstable.Reader

/-!
# Lookups in a table at a snapshot

A lookup scans one block: the first whose last user key is not below the wanted one.  The versions
of a key may go on in the next blocks.  The lookup is right exactly when the newest version that the
snapshot sees, if there is one, lies in that first block (`snapshotLookup_iff`).
-/

namespace LsmTree

variable {es : List Entry} {k : Bytes} {s : ℕ} {e : Entry} {b : DataBlock}

def builtFrom (fileID level : ℕ) (blockSize bitsPerKey : ℤ) (es : List Entry) : SSTable :=
  (es.foldl SSTableBuilder.add (newSSTableBuilder fileID level blockSize bitsPerKey)).finish.2

theorem builtFrom_built (fileID level : ℕ) (blockSize bitsPerKey : ℤ) (es : List Entry) :
    (builtFrom fileID level blockSize bitsPerKey es).Built es := by
  have h := finish_built ((newSSTableBuilder_inv fileID level blockSize bitsPerKey).foldl_add es)
  rwa [foldl_add_all, newSSTableBuilder_all, List.nil_append] at h

/-- The newest version of the key among those up to the read sequence number. -/
def NewestUpTo (es : List Entry) (k : Bytes) (s : ℕ) (e : Entry) : Prop :=
  e ∈ es ∧ e.key.userKey = k ∧ e.key.seqNo ≤ s ∧
    ∀ x ∈ es, x.key.userKey = k → x.key.seqNo ≤ s → x.key.seqNo ≤ e.key.seqNo

/-- What a lookup has to return: found if and only if there is a version that the snapshot sees, and
then what the newest of them says. -/
def SnapshotLookup (t : SSTable) (es : List Entry) (k : Bytes) (s : ℕ) : Prop :=
  ∃ found, t.get k s = .ok found ∧
    (found.isSome = true ↔ ∃ e ∈ es, e.key.userKey = k ∧ e.key.seqNo ≤ s) ∧
    ∀ e, NewestUpTo es k s e → found = some e.payload

/-- The newest version that the snapshot sees lies in the first block that does not end below the
key. -/
def InFirstBlock (t : SSTable) (k : Bytes) (s : ℕ) : Prop :=
  ∀ e, NewestUpTo t.entries k s e → ∃ b, FirstReaching k t.blocks b ∧ e ∈ b.entries

/-! ## The newest version -/

theorem newestUpTo_of_firstVersion (hs : SortedEntries es)
    (h : firstVersion (visible s es) k = some e) : NewestUpTo es k s e := by
  obtain ⟨hmem, hk, hmax⟩ := firstVersion_isNewest (hs.sublist List.filter_sublist) h
  obtain ⟨he, hseq⟩ := mem_visible.1 hmem
  exact ⟨he, hk, hseq, fun x hx hxk hxs => hmax x (mem_visible.2 ⟨hx, hxs⟩) hxk⟩

theorem firstVersion_of_newestUpTo (hs : SortedEntries es) (h : NewestUpTo es k s e) :
    firstVersion (visible s es) k = some e := by
  obtain ⟨he, hk, hseq, hmax⟩ := h
  induction es with
  | nil => cases he
  | cons a es ih =>
    obtain ⟨ha, hes⟩ := List.pairwise_cons.1 hs
    rcases List.mem_cons.1 he with rfl | he
    · simp [visible, firstVersion, hseq, hk]
    · -- an older version of the key cannot come first
      have hskip : ¬ (a.key.userKey = k ∧ a.key.seqNo ≤ s) := by
        rintro ⟨hak, has⟩
        rcases InternalKey.less_iff.1 (ha e he) with hlt | ⟨-, hlt⟩
        · exact hlt.ne (hak.trans hk.symm)
        · exact absurd (hmax a List.mem_cons_self hak has) (not_le.2 hlt)
      have ih := ih hes he fun x hx => hmax x (List.mem_cons_of_mem a hx)
      by_cases has : a.key.seqNo ≤ s
      · have hak : a.key.userKey ≠ k := fun hc => hskip ⟨hc, has⟩
        simpa [visible, firstVersion, has, hak] using ih
      · simpa [visible, has] using ih

/-! ## The scanned block -/

theorem FirstReaching.unique {bs : List DataBlock} {b' : DataBlock} (h : FirstReaching k bs b)
    (h' : FirstReaching k bs b') : b = b' := by
  have hfind : ∀ {x}, FirstReaching k bs x →
      bs.find? (fun b => decide (k ≤ b.lastKey.userKey)) = some x := by
    rintro x ⟨pre, post, rfl, hpre, hx⟩
    rw [List.find?_append, List.find?_eq_none.2 fun y hy => by simpa using hpre y hy,
      List.find?_cons_of_pos (by simpa using hx)]
    rfl
  exact Option.some.inj ((hfind h).symm.trans (hfind h'))

theorem SSTable.Built.firstVersion_of_reaching {t : SSTable} (h : t.Built es)
    (hs : SortedEntries es) (hb : FirstReaching k t.blocks b)
    (he : firstVersion (visible s b.entries) k = some e) :
    firstVersion (visible s es) k = some e := by
  obtain ⟨l, r, rfl, -, hl, -⟩ := h.split_at hs hb
  have habs : ∀ x ∈ visible s l, x.key.userKey ≠ k := fun x hx => (hl x (mem_visible.1 hx).1).ne
  unfold visible at habs he ⊢
  rw [List.filter_append, firstVersion_append_of_absent habs, List.filter_append]
  exact firstVersion_append_of_some he

/-- **A lookup at a snapshot is right exactly when the newest version that the snapshot sees lies in
the first block that does not end below the key.** -/
theorem snapshotLookup_iff (fileID level : ℕ) (blockSize bitsPerKey : ℤ) (es : List Entry)
    (hs : SortedEntries es) (hlive : LiveNonempty es) (k : Bytes) (s : ℕ) :
    SnapshotLookup (builtFrom fileID level blockSize bitsPerKey es) es k s ↔
      InFirstBlock (builtFrom fileID level blockSize bitsPerKey es) k s := by
  have hbuilt := builtFrom_built fileID level blockSize bitsPerKey es
  generalize builtFrom fileID level blockSize bitsPerKey es = t at hbuilt ⊢
  unfold SnapshotLookup InFirstBlock
  rw [hbuilt.entries_eq]
  rcases hbuilt.get_scan hs k s with ⟨hget, habs⟩ | ⟨b, hb, hget⟩
  · -- no version at all
    have hnone : ∀ e, ¬ NewestUpTo es k s e := fun e he => habs e he.1 he.2.1
    refine ⟨fun _ e he => absurd he (hnone e), fun _ => ⟨none, hget, ?_, ?_⟩⟩
    · simpa using fun e he hk => absurd hk (habs e he)
    · exact fun e he => absurd he (hnone e)
  obtain ⟨-, -, -, hsb, -⟩ := hbuilt.split_at hs hb
  rw [scanBlock_eq hsb] at hget
  cases hv : firstVersion (visible s b.entries) k with
  | some e =>
    -- the block has the version, and the condition holds
    have hfirst := hbuilt.firstVersion_of_reaching hs hb hv
    have hmem : e ∈ b.entries := (mem_visible.1 (List.mem_of_find?_eq_some hv)).1
    have hnew := newestUpTo_of_firstVersion hs hfirst
    have honly : ∀ x, NewestUpTo es k s x → x = e := fun x hx =>
      Option.some.inj ((firstVersion_of_newestUpTo hs hx).symm.trans hfirst)
    rw [hv] at hget
    refine ⟨fun _ x hx => ⟨b, hb, by rw [honly x hx]; exact hmem⟩, fun _ => ⟨_, hget, ?_, ?_⟩⟩
    · exact ⟨fun _ => ⟨e, hnew.1, hnew.2.1, hnew.2.2.1⟩, fun _ => rfl⟩
    · intro x hx
      rw [honly x hx, Option.map_some, Entry.found_eq_payload (hlive e hnew.1)]
  | none =>
    -- the scan finds nothing, so there must be nothing to find
    rw [hv] at hget
    constructor
    · rintro ⟨found, hfound, -, hval⟩ x hx
      rw [hget] at hfound
      cases hfound
      cases hval x hx
    · intro hcond
      have hnone : ∀ x, ¬ NewestUpTo es k s x := by
        intro x hx
        obtain ⟨b', hb', hxb⟩ := hcond x hx
        obtain rfl := hb.unique hb'
        exact firstVersion_none.1 hv x (mem_visible.2 ⟨hxb, hx.2.2.1⟩) hx.2.1
      refine ⟨none, hget, ?_, fun x hx => absurd hx (hnone x)⟩
      refine ⟨nofun, ?_⟩
      rintro ⟨x, hx, hxk, hxs⟩
      cases hfirst : firstVersion (visible s es) k with
      | some y => exact absurd (newestUpTo_of_firstVersion hs hfirst) (hnone y)
      | none => exact absurd hxk (firstVersion_none.1 hfirst x (mem_visible.2 ⟨hx, hxs⟩))

def twoVersions : List Entry := [⟨⟨[107], 2, .value⟩, [50]⟩, ⟨⟨[107], 1, .value⟩, [49]⟩]

theorem twoVersions_sorted : SortedEntries twoVersions := by
  unfold twoVersions SortedEntries
  decide

theorem twoVersions_live : LiveNonempty twoVersions := by
  unfold twoVersions LiveNonempty
  decide

/-- In one block both are found. -/
theorem twoVersions_lookup :
    SnapshotLookup (builtFrom 1 0 4096 10 twoVersions) twoVersions [107] 1 := by
  refine (snapshotLookup_iff 1 0 4096 10 twoVersions twoVersions_sorted twoVersions_live [107] 1).2
    ?_
  intro e he
  have hblocks : (builtFrom 1 0 4096 10 twoVersions).blocks =
      [⟨⟨[107], 1, .value⟩, twoVersions, true⟩] := by decide +kernel
  refine ⟨⟨⟨[107], 1, .value⟩, twoVersions, true⟩, ⟨[], [], hblocks, nofun, ?_⟩, ?_⟩
  · exact le_rfl
  · have hmem := he.1
    unfold SSTable.entries at hmem
    rw [hblocks] at hmem
    simpa using hmem

/-- **With each in a block of its own, the older one is not found.** -/
theorem twoVersions_not_found :
    (builtFrom 1 0 1 10 twoVersions).get [107] 1 = .ok none ∧
      ¬ SnapshotLookup (builtFrom 1 0 1 10 twoVersions) twoVersions [107] 1 := by
  have hget : (builtFrom 1 0 1 10 twoVersions).get [107] 1 = .ok none := by decide +kernel
  refine ⟨hget, ?_⟩
  rintro ⟨found, hfound, hiff, -⟩
  rw [hget] at hfound
  cases hfound
  exact absurd (hiff.2 ⟨⟨⟨[107], 1, .value⟩, [49]⟩, by decide, rfl, le_rfl⟩) (by decide)

end LsmTree
