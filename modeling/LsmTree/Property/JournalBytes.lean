import LsmTree.Correct.Coordinator
import LsmTree.Property.CrossShardCrash

/-!
# Journal records and the bytes they can carry

Keys and values are byte strings, but a journal record keeps them as JSON strings, where every byte
that is not UTF-8 becomes the replacement character.  The replacement is longer than what it
replaces, so a string survives exactly if it is UTF-8 (`jsonString_eq_iff`), and a record exactly
if all its keys and values are (`record_survives_iff`).
-/

namespace LsmTree

open KeyValue

variable {r : TxJournalEntry}

variable {s : TxJournalStore}

/-! ### Strings -/

theorem length_jsonChars {n : ℕ} {s : Bytes} (hn : s.length ≤ n) :
    s.length ≤ (jsonChars n s).length ∧
      ((jsonChars n s).length = s.length → validChars n s = true) := by
  induction n generalizing s with
  | zero =>
    rw [List.length_eq_zero_iff.1 (Nat.le_zero.1 hn)]
    exact ⟨le_rfl, fun _ => rfl⟩
  | succ n ih =>
    cases s with
    | nil => exact ⟨le_rfl, fun _ => rfl⟩
    | cons b rest =>
      rw [List.length_cons] at hn
      rw [jsonChars, validChars]
      by_cases hrune : runeLen (b :: rest) = 0
      · -- one byte becomes three
        have hle := (ih (s := rest) (by omega)).1
        rw [if_pos hrune, List.length_append, List.length_cons]
        change rest.length + 1 ≤ 3 + _ ∧ (3 + _ = rest.length + 1 → _)
        exact ⟨by omega, fun hc => by omega⟩
      · have hsplit := congrArg List.length
          (List.take_append_drop (runeLen (b :: rest)) (b :: rest))
        rw [List.length_append] at hsplit
        have hlen : ((b :: rest).drop (runeLen (b :: rest))).length ≤ n := by
          rw [List.length_drop, List.length_cons]
          omega
        obtain ⟨hle, hvalid⟩ := ih hlen
        rw [if_neg hrune, List.length_append]
        refine ⟨by omega, fun hc => ?_⟩
        rw [hvalid (by omega), Bool.and_true]
        exact bne_iff_ne.2 hrune

/-- **A string survives JSON exactly if it is UTF-8.** -/
theorem jsonString_eq_iff (s : Bytes) : jsonString s = s ↔ validUTF8 s = true :=
  ⟨fun h => (length_jsonChars le_rfl).2 (congrArg List.length h), jsonString_of_valid⟩

/-! ### Records -/

def TxJournalEntry.UTF8 (r : TxJournalEntry) : Prop :=
  ∀ i ∈ r.preImages, validUTF8 i.key = true ∧ validUTF8 i.value = true

theorem stored_eq_iff : r.stored = r ↔ r.UTF8 := by
  constructor
  · intro h i hi
    have himages : r.preImages.map
        (fun i => { i with key := jsonString i.key, value := jsonString i.value }) =
          r.preImages.map id := by
      rw [List.map_id]
      exact congrArg TxJournalEntry.preImages h
    have himage : ({ i with key := jsonString i.key, value := jsonString i.value } : TxPreImage) =
        i := List.map_inj_left.1 himages i hi
    exact ⟨(jsonString_eq_iff i.key).1 (congrArg TxPreImage.key himage),
      (jsonString_eq_iff i.value).1 (congrArg TxPreImage.value himage)⟩
  · exact stored_of_valid

/-- An id that `newTxID` returns: ASCII text. -/
def IsTxID (id : Bytes) : Prop := ∃ digits, id = newTxID digits ∧ ∀ b ∈ digits, b < 0x80

theorem IsTxID.ne_nil {id : Bytes} (h : IsTxID id) : id ≠ [] := by
  obtain ⟨digits, rfl, -⟩ := h
  exact List.cons_ne_nil _ _

/-! ### Journals -/

/-- A journal of pending records, each in the file of its id. -/
structure TxJournalStore.Pending (s : TxJournalStore) : Prop where
  uncommitted : ∀ id, s.lookup (.committed id) = none
  named : ∀ {id r}, s.lookup (.pending id) = some r → r.id = id

theorem loadListed_present {pending : List Bytes}
    (h : ∀ id ∈ pending, s.lookup (.pending id) ≠ none) (out : List TxJournalEntry) :
    ∃ rs, (loadListed (pending.map JournalFile.pending) s out).2 = some rs := by
  induction pending generalizing out with
  | nil => exact ⟨out, rfl⟩
  | cons id pending ih =>
    rw [List.map_cons, loadListed]
    cases hl : s.lookup (.pending id) with
    | none => exact absurd hl (h id List.mem_cons_self)
    | some r₀ => exact ih (fun j hj => h j (List.mem_cons_of_mem _ hj)) _

theorem loadAll_pending_ok (h : ∀ id, s.lookup (.committed id) = none) :
    ∃ rs, s.loadAll.2 = some rs := by
  obtain ⟨committed, pending, hsplit⟩ := listing_split s
  have hmem : ∀ f, f ∈ committed.map JournalFile.committed ++ pending.map JournalFile.pending →
      s.lookup f ≠ none := by
    intro f hf
    rw [← hsplit, (List.perm_insertionSort _ _).mem_iff, ← AList.mem_keys] at hf
    rwa [Ne, AList.lookup_eq_none, not_not]
  have hnil : committed = [] := List.eq_nil_iff_forall_not_mem.2 (fun id hid =>
    hmem (.committed id) (List.mem_append_left _ (List.mem_map_of_mem hid)) (h id))
  unfold TxJournalStore.loadAll
  rw [hsplit, hnil]
  exact loadListed_present (fun id hid =>
    hmem (.pending id) (List.mem_append_right _ (List.mem_map_of_mem hid))) []

theorem loadAll_save (hs : s.Pending) (hid : r.id ≠ []) (hc : r.committed = false) :
    ∃ rs, (s.save r).loadAll.2 = some rs ∧ ∀ q, q.id = r.id → (q ∈ rs ↔ q = r.stored) := by
  have hfile : r.file = .pending r.id := if_neg (by simp [hc])
  have hsave : s.save r = s.insert (.pending r.id) r.stored := by
    unfold TxJournalStore.save
    rw [hfile]
  have hcommitted : ∀ id, (s.save r).lookup (.committed id) = none := by
    intro id
    rw [hsave, AList.lookup_insert_ne (fun hne => by cases hne)]
    exact hs.uncommitted id
  obtain ⟨-, hpending, hmem⟩ := loadAll_spec (s.save r)
  obtain ⟨rs, hrs⟩ := loadAll_pending_ok hcommitted
  have hlookup : ∀ id, (s.save r).loadAll.1.lookup (.pending id) =
      (s.save r).lookup (.pending id) := fun id =>
    (hpending id).trans (if_pos (hcommitted id))
  have hown : (s.save r).lookup (.pending r.id) = some r.stored := by
    rw [hsave]
    exact AList.lookup_insert _
  refine ⟨rs, hrs, fun q hq => ?_⟩
  rw [hmem rs hrs q]
  constructor
  · rintro ⟨-, id, hl⟩
    rw [hlookup] at hl
    rcases eq_or_ne id r.id with rfl | hne
    · exact (Option.some.inj (hown.symm.trans hl)).symm
    · rw [hsave, AList.lookup_insert_ne (fun hc => hne (JournalFile.pending.inj hc))] at hl
      exact absurd ((hs.named hl).symm.trans hq) hne
  · rintro rfl
    exact ⟨hid, r.id, (hlookup r.id).trans hown⟩

theorem recover_saved {n : ShardedNode} (hid : r.id ≠ []) (hc : r.committed = false)
    (hj : n.journal = TxJournalStore.save ∅ r) :
    n.recoverTransactions (fun _ => true) = ({ n with
      shards := undoShards r.stored r.stored.shardIDs.reverse n.shards, journal := ∅ }, true) := by
  have honly : TxJournalStore.save ∅ r = TxJournalStore.only r.stored := by
    unfold TxJournalStore.save TxJournalStore.only
    rw [show r.file = .pending r.id from if_neg (by simp [hc])]
    rfl
  exact recover_pending hid hc (hj.trans honly)

/-- **Records survive exactly if they are UTF-8.** `LoadAll` returns the record that was saved, from
every journal, and recovery writes its keys and values back, if and only if they are all UTF-8. -/
theorem record_survives_iff (r : TxJournalEntry) (hid : IsTxID r.id) (hc : r.committed = false) :
    ((∀ s : TxJournalStore, s.Pending → ∃ rs, (s.save r).loadAll.2 = some rs ∧ r ∈ rs) ∧
      ∀ n : ShardedNode, n.journal = TxJournalStore.save ∅ r →
        n.recoverTransactions (fun _ => true) =
          ({ n with shards := undoShards r r.shardIDs.reverse n.shards, journal := ∅ }, true)) ↔
    r.UTF8 := by
  rw [← stored_eq_iff]
  constructor
  · rintro ⟨hload, -⟩
    have hempty : TxJournalStore.Pending ∅ :=
      ⟨fun _ => AList.lookup_empty _, fun h => by rw [AList.lookup_empty] at h; cases h⟩
    obtain ⟨rs, hrs, hr⟩ := hload ∅ hempty
    obtain ⟨rs', hrs', hmem⟩ := loadAll_save hempty hid.ne_nil hc
    rw [Option.some.inj (hrs.symm.trans hrs')] at hr
    exact ((hmem r rfl).1 hr).symm
  · intro hstored
    refine ⟨fun s hs => ?_, fun n hj => ?_⟩
    · obtain ⟨rs, hrs, hmem⟩ := loadAll_save hs hid.ne_nil hc
      exact ⟨rs, hrs, (hmem r rfl).2 hstored.symm⟩
    · have hrec := recover_saved hid.ne_nil hc hj
      rwa [hstored] at hrec

def oneImage (key : Bytes) : TxJournalEntry :=
  { id := newTxID [49], preImages := [⟨0, key, true, [1]⟩] }

theorem oneImage_isTxID (key : Bytes) : IsTxID (oneImage key).id := by
  refine ⟨[49], rfl, fun b hb => ?_⟩
  rw [List.mem_singleton.1 hb]
  decide

theorem ascii_survives : IsTxID (oneImage [107]).id ∧ (oneImage [107]).committed = false ∧
    ∀ s : TxJournalStore, s.Pending →
      ∃ rs, (s.save (oneImage [107])).loadAll.2 = some rs ∧ oneImage [107] ∈ rs := by
  have hutf8 : (oneImage [107]).UTF8 := by
    intro i hi
    rw [List.mem_singleton.1 hi]
    decide
  exact ⟨oneImage_isTxID _, rfl,
    ((record_survives_iff _ (oneImage_isTxID _) rfl).2 hutf8).1⟩

/-- The key `0xFF` comes back as the replacement character, and recovery restores that key. -/
theorem byteFF_lost :
    IsTxID (oneImage [0xFF]).id ∧ (oneImage [0xFF]).committed = false ∧
    (TxJournalStore.save ∅ (oneImage [0xFF])).loadAll.2 = some [oneImage [0xEF, 0xBF, 0xBD]] ∧
    oneImage [0xFF] ∉ [oneImage [0xEF, 0xBF, 0xBD]] :=
  ⟨oneImage_isTxID _, rfl, by decide, by decide⟩

end LsmTree
