import Mathlib.Tactic.Tauto
import LsmTree.Sstable.Builder

/-!
# Reading tables (`internal/sstable/reader.go`)

A point lookup consults the Bloom filter, finds in the index the first block whose last user key is
not below the wanted one, and scans that single block.  An iterator walks through all blocks and
silently steps over those that cannot be loaded.

On a table built from sorted entries a lookup whose snapshot covers all versions of the key finds
the newest of them (`get_of_le`).
-/

namespace LsmTree

variable {es l m : List Entry} {k : Bytes} {e : Entry} {s : ℕ} {t : SSTable}

/-- `loadBlock` failed. -/
inductive ReadError
  | badBlock
  deriving DecidableEq, Repr

/-- A copied value slice: copying an empty slice gives `nil`. -/
def goValue (v : Bytes) : Option Bytes := if v = [] then none else some v

/-- What `SSTableReader.Get` returns for the entry it finds: `nil` for a tombstone. -/
def Entry.found (e : Entry) : Option Bytes :=
  match e.key.type with
  | .deletion => none
  | .value => goValue e.value

/-- The scan of `SSTableReader.Get` within one block. -/
def scanBlock (userKey : Bytes) (readSeqNo : ℕ) : List Entry → Option (Option Bytes)
  | [] => none
  | e :: es =>
    if userKey < e.key.userKey then none
    else if e.key.userKey = userKey ∧ e.key.seqNo ≤ readSeqNo then some e.found
    else scanBlock userKey readSeqNo es

/-- The block that could contain the key: the first whose last user key is not below it. -/
def SSTable.findDataBlock (t : SSTable) (userKey : Bytes) : Option DataBlock :=
  t.blocks.find? (fun b => decide (userKey ≤ b.lastKey.userKey))

def SSTable.mayContain (t : SSTable) (userKey : Bytes) : Bool :=
  match t.filter with
  | none => true
  | some f => f.mayContain userKey

/-- Look up a key at a read sequence number: `none` is not found, `some none` a tombstone. -/
def SSTable.get (t : SSTable) (userKey : Bytes) (readSeqNo : ℕ) :
    Except ReadError (Option (Option Bytes)) :=
  if t.mayContain userKey = false then .ok none
  else
    match t.findDataBlock userKey with
    | none => .ok none
    | some b => if b.loads then .ok (scanBlock userKey readSeqNo b.entries) else .error .badBlock

/-- What `SSTableIterator` yields from `SeekToFirst` on. -/
def SSTable.iterate (t : SSTable) : List Entry :=
  (t.blocks.filter DataBlock.loads).flatMap DataBlock.entries

/-! ### Lookups in built tables -/

def firstVersion (es : List Entry) (k : Bytes) : Option Entry :=
  es.find? (fun e => decide (e.key.userKey = k))

theorem firstVersion_none : firstVersion es k = none ↔ ∀ e ∈ es, e.key.userKey ≠ k := by
  simp [firstVersion]

theorem firstVersion_append_of_absent (h : ∀ e ∈ l, e.key.userKey ≠ k) :
    firstVersion (l ++ m) k = firstVersion m k := by
  unfold firstVersion
  rw [List.find?_append, show l.find? (fun e => decide (e.key.userKey = k)) = none from
    firstVersion_none.2 h]
  rfl

theorem firstVersion_append_of_some (h : firstVersion l k = some e) :
    firstVersion (l ++ m) k = some e := by
  unfold firstVersion at *
  rw [List.find?_append, h]
  rfl

theorem firstVersion_isNewest (hs : SortedEntries es) (h : firstVersion es k = some e) :
    Versioned.IsNewest {x | x ∈ es} k e := by
  induction es with
  | nil => cases h
  | cons a es ih =>
    obtain ⟨ha, hes⟩ := List.pairwise_cons.1 hs
    unfold firstVersion at h
    rw [List.find?_cons] at h
    split at h
    · rename_i hk
      have hk : a.key.userKey = k := of_decide_eq_true hk
      obtain rfl : a = e := Option.some.inj h
      refine ⟨List.mem_cons_self, hk, ?_⟩
      intro x hx hxk
      rcases List.mem_cons.1 hx with rfl | hx
      · exact le_rfl
      · rcases InternalKey.less_iff.1 (ha x hx) with hlt | ⟨-, hlt⟩
        · exact absurd (hk.trans hxk.symm) hlt.ne
        · exact hlt.le
    · rename_i hk
      obtain ⟨he, hek, hmax⟩ := ih hes h
      refine ⟨List.mem_cons_of_mem a he, hek, ?_⟩
      intro x hx hxk
      rcases List.mem_cons.1 hx with rfl | hx
      · exact absurd hxk (of_decide_eq_false hk)
      · exact hmax x hx hxk

def visible (s : ℕ) (es : List Entry) : List Entry := es.filter fun e => decide (e.key.seqNo ≤ s)

theorem mem_visible : e ∈ visible s es ↔ e ∈ es ∧ e.key.seqNo ≤ s := by
  simp [visible]

theorem scanBlock_eq (hs : SortedEntries es) (k : Bytes) (s : ℕ) :
    scanBlock k s es = (firstVersion (visible s es) k).map Entry.found := by
  induction es with
  | nil => rfl
  | cons a es ih =>
    have ih := ih (List.pairwise_cons.1 hs).2
    simp only [scanBlock]
    split_ifs with h1 h2
    · have habs : ∀ e ∈ visible s (a :: es), e.key.userKey ≠ k := fun e he =>
        (h1.trans_le (hs.userKey_le (mem_visible.1 he).1)).ne'
      rw [firstVersion_none.2 habs]
      rfl
    · simp [visible, firstVersion, h2.1, h2.2]
    · rw [ih]
      by_cases hseq : a.key.seqNo ≤ s
      · have hk : a.key.userKey ≠ k := fun hc => h2 ⟨hc, hseq⟩
        simp [visible, firstVersion, hseq, hk]
      · simp [visible, hseq]

theorem firstVersion_visible (h : ∀ e ∈ es, e.key.userKey = k → e.key.seqNo ≤ s) :
    firstVersion (visible s es) k = firstVersion es k := by
  unfold firstVersion visible
  rw [List.find?_filter]
  induction es with
  | nil => rfl
  | cons a es ih =>
    obtain ⟨ha, hes⟩ := List.forall_mem_cons.1 h
    rw [List.find?_cons, List.find?_cons, ih hes]
    by_cases hk : a.key.userKey = k
    · simp [hk, ha hk]
    · simp [hk]

theorem scanBlock_of_le (hs : SortedEntries es)
    (h : ∀ e ∈ es, e.key.userKey = k → e.key.seqNo ≤ s) :
    scanBlock k s es = (firstVersion es k).map Entry.found := by
  rw [scanBlock_eq hs, firstVersion_visible h]

theorem findDataBlock_split (bs : List DataBlock) (k : Bytes) :
    (∃ pre b post, bs = pre ++ b :: post ∧
      bs.find? (fun b => decide (k ≤ b.lastKey.userKey)) = some b ∧
      k ≤ b.lastKey.userKey ∧ ∀ x ∈ pre, x.lastKey.userKey < k) ∨
    (bs.find? (fun b => decide (k ≤ b.lastKey.userKey)) = none ∧
      ∀ x ∈ bs, x.lastKey.userKey < k) := by
  induction bs with
  | nil => exact Or.inr ⟨rfl, fun x hx => by cases hx⟩
  | cons a bs ih =>
    by_cases ha : k ≤ a.lastKey.userKey
    · exact Or.inl ⟨[], a, bs, rfl, by simp [ha], ha, fun x hx => by cases hx⟩
    · have ha' : a.lastKey.userKey < k := not_le.1 ha
      rcases ih with ⟨pre, b, post, rfl, hf, hb, hpre⟩ | ⟨hf, hall⟩
      · refine Or.inl ⟨a :: pre, b, post, rfl, ?_, hb, ?_⟩
        · rw [List.find?_cons_of_neg (by simpa using ha)]
          exact hf
        · intro x hx
          rcases List.mem_cons.1 hx with rfl | hx
          · exact ha'
          · exact hpre x hx
      · refine Or.inr ⟨?_, ?_⟩
        · rw [List.find?_cons_of_neg (by simpa using ha)]
          exact hf
        · intro x hx
          rcases List.mem_cons.1 hx with rfl | hx
          · exact ha'
          · exact hall x hx

theorem SortedEntries.sublist (h : SortedEntries m) (hs : l.Sublist m) :
    SortedEntries l := List.Pairwise.sublist hs h

theorem SortedEntries.userKey_le_getLast (hs : SortedEntries es) (he : es.getLast? = some e) :
    ∀ x ∈ es, x.key.userKey ≤ e.key.userKey := by
  obtain ⟨l, rfl⟩ := List.getLast?_eq_some_iff.1 he
  intro x hx
  rcases List.mem_append.1 hx with hx | hx
  · exact InternalKey.less_userKey_le
      ((List.pairwise_append.1 hs).2.2 x hx e (List.mem_singleton_self e))
  · rw [List.mem_singleton.1 hx]

theorem absent_of_blocks {bs : List DataBlock} (hok : ∀ b ∈ bs, b.Ok)
    (hs : SortedEntries (bs.flatMap DataBlock.entries)) (hlt : ∀ b ∈ bs, b.lastKey.userKey < k) :
    ∀ e ∈ bs.flatMap DataBlock.entries, e.key.userKey < k := by
  intro e he
  obtain ⟨b, hb, heb⟩ := List.mem_flatMap.1 he
  obtain ⟨-, l, hl, hkey⟩ := hok b hb
  have hsub : SortedEntries b.entries := by
    obtain ⟨pre, post, rfl⟩ := List.append_of_mem hb
    refine hs.sublist ?_
    rw [List.flatMap_append, List.flatMap_cons]
    exact (List.sublist_append_left _ _).trans (List.sublist_append_right _ _)
  calc e.key.userKey ≤ l.key.userKey := hsub.userKey_le_getLast hl e heb
    _ = b.lastKey.userKey := by rw [hkey]
    _ < k := hlt b hb

theorem SSTable.Built.mayContain (h : t.Built es) (he : e ∈ es) :
    t.mayContain e.key.userKey = true := by
  unfold SSTable.mayContain
  split
  · rfl
  · rename_i f hf
    exact h.filter_eq f hf e he

/-- The block is the first one that does not end below the key. -/
def FirstReaching (k : Bytes) (bs : List DataBlock) (b : DataBlock) : Prop :=
  ∃ pre post, bs = pre ++ b :: post ∧ (∀ x ∈ pre, x.lastKey.userKey < k) ∧ k ≤ b.lastKey.userKey

theorem SSTable.Built.get_scan (h : t.Built es) (hs : SortedEntries es) (k : Bytes) (s : ℕ) :
    (t.get k s = .ok none ∧ ∀ e ∈ es, e.key.userKey ≠ k) ∨
      ∃ b, FirstReaching k t.blocks b ∧ t.get k s = .ok (scanBlock k s b.entries) := by
  obtain ⟨rfl, hok, -⟩ := id h
  by_cases hm : t.mayContain k = false
  · refine Or.inl ⟨by simp [SSTable.get, hm], ?_⟩
    rintro e he rfl
    rw [h.mayContain he] at hm
    cases hm
  · have hget : t.get k s = match t.blocks.find? (fun b => decide (k ≤ b.lastKey.userKey)) with
        | none => .ok none
        | some b => if b.loads then .ok (scanBlock k s b.entries) else .error .badBlock := by
      rw [SSTable.get, if_neg hm]; rfl
    rcases findDataBlock_split t.blocks k with
      ⟨pre, b, post, hbs, hf, hb, hpre⟩ | ⟨hf, hall⟩
    · have hload : b.loads = true := (hok b (by rw [hbs]; simp)).1
      rw [hf] at hget
      simp only [hload, if_true] at hget
      exact Or.inr ⟨b, ⟨pre, post, hbs, hpre, hb⟩, hget⟩
    · rw [hf] at hget
      exact Or.inl ⟨hget, fun e he => (absent_of_blocks hok hs hall e he).ne⟩

theorem SSTable.Built.split_at (h : t.Built es) (hs : SortedEntries es) {b : DataBlock}
    (hb : FirstReaching k t.blocks b) :
    ∃ l r, es = l ++ (b.entries ++ r) ∧ SortedEntries b.entries ∧
      (∀ e ∈ l, e.key.userKey < k) ∧
      ∃ x ∈ b.entries, k ≤ x.key.userKey ∧ ∀ e ∈ r, x.key.userKey ≤ e.key.userKey := by
  obtain ⟨rfl, hok, -⟩ := id h
  obtain ⟨pre, post, hbs, hpre, hkb⟩ := hb
  obtain ⟨-, l, hl, hkey⟩ := hok b (by rw [hbs]; simp)
  have hsplit : t.entries =
      pre.flatMap DataBlock.entries ++ (b.entries ++ post.flatMap DataBlock.entries) := by
    rw [SSTable.entries, hbs, List.flatMap_append, List.flatMap_cons]
  rw [hsplit] at hs
  obtain ⟨hs1, hs2, -⟩ := List.pairwise_append.1 hs
  obtain ⟨hsb, -, hcross⟩ := List.pairwise_append.1 hs2
  have hlmem : l ∈ b.entries := List.mem_of_getLast? hl
  refine ⟨_, _, hsplit, hsb, absent_of_blocks (fun x hx => hok x (by rw [hbs]; simp [hx])) hs1 hpre,
    l, hlmem, by rw [← hkey]; exact hkb, fun e he => ?_⟩
  exact InternalKey.less_userKey_le (hcross l hlmem e he)

theorem SSTable.Built.get_cases (h : t.Built es) (hs : SortedEntries es) (k : Bytes) (s : ℕ) :
    (t.get k s = .ok none ∧ firstVersion es k = none) ∨
    ∃ b, (∀ e ∈ b, e ∈ es) ∧ SortedEntries b ∧ t.get k s = .ok (scanBlock k s b) ∧
      firstVersion es k = firstVersion b k := by
  rcases h.get_scan hs k s with ⟨hget, habs⟩ | ⟨b, hb, hget⟩
  · exact Or.inl ⟨hget, firstVersion_none.2 habs⟩
  obtain ⟨l, r, rfl, hsb, hl, x, hx, hkx, hr⟩ := h.split_at hs hb
  refine Or.inr ⟨b.entries, fun e he => by simp [he], hsb, hget, ?_⟩
  rw [firstVersion_append_of_absent fun e he => (hl e he).ne]
  cases hv : firstVersion b.entries k with
  | some e => exact firstVersion_append_of_some hv
  | none =>
    -- the block ends above the key, and later blocks do not begin below its end
    rw [firstVersion_append_of_absent (firstVersion_none.1 hv), firstVersion_none]
    rintro e he rfl
    exact firstVersion_none.1 hv x hx (le_antisymm (hr e he) hkx)

theorem SSTable.Built.get_of_le (h : t.Built es) (hs : SortedEntries es)
    (hle : ∀ e ∈ es, e.key.userKey = k → e.key.seqNo ≤ s) :
    t.get k s = .ok ((firstVersion es k).map Entry.found) := by
  rcases h.get_cases hs k s with ⟨hg, hv⟩ | ⟨b, hb, hbs, hg, hv⟩
  · rw [hg, hv]; rfl
  · rw [hg, hv, scanBlock_of_le hbs (fun e he => hle e (hb e he))]

theorem SSTable.Built.iterate_eq (h : t.Built es) : t.iterate = es := by
  have hfilter : t.blocks.filter DataBlock.loads = t.blocks :=
    List.filter_eq_self.2 (fun b hb => (h.blocks_ok b hb).1)
  rw [SSTable.iterate, hfilter]
  exact h.entries_eq

def LiveNonempty (es : List Entry) : Prop := ∀ e ∈ es, e.key.type = .value → e.value ≠ []

theorem Entry.found_eq (e : Entry) : e.found = e.payload.bind goValue := by
  unfold Entry.found Entry.payload
  cases e.key.type <;> rfl

theorem Entry.found_eq_payload (h : e.key.type = .value → e.value ≠ []) : e.found = e.payload := by
  unfold Entry.found Entry.payload goValue
  cases ht : e.key.type with
  | deletion => rfl
  | value => simp [h ht]

end LsmTree
