import Mathlib.Data.List.Dedup
import LsmTree.Property.CrossShardAtomic

/-!
# Cross-shard batches and crashes

The durable steps of a cross-shard batch are the record that is written as pending, the writes of
the shards, the record that is written as committed, and the removal of the two files.  A crash
after any of them leaves a journal and shards from which the next start recovers, with one
exception: while both files are there, `LoadAll` removes the pending one together with the committed
one and then fails to read it (`crash_recovers_iff`).
-/

namespace LsmTree

open KeyValue

variable {committed : TxJournalEntry}

/-- The durable steps of `writeCrossShardBatch`. -/
inductive TxStep
  | savePending
  | writeShard (id : ℕ) (batch : List BatchEntry)
  | saveCommitted
  | removePending
  | removeCommitted

def TxStep.apply (r : TxJournalEntry) (n : ShardedNode) : TxStep → ShardedNode
  | .savePending => { n with journal := n.journal.save r }
  | .writeShard id batch => { n with shards := LsmTree.writeShard n.shards id batch }
  | .saveCommitted => { n with journal := n.journal.save { r with committed := true } }
  | .removePending => { n with journal := n.journal.erase (.pending r.id) }
  | .removeCommitted => { n with journal := n.journal.erase (.committed r.id) }

def ShardBatches.steps (batches : ShardBatches) : List TxStep :=
  .savePending :: batches.list.map (fun x => .writeShard x.1 x.2) ++
    [.saveCommitted, .removePending, .removeCommitted]

/-- The cluster after the first steps of a transaction. -/
def ShardedNode.crashAfter (n : ShardedNode) (txID : Bytes) (batches : ShardBatches) (c : ℕ) :
    ShardedNode :=
  (batches.steps.take c).foldl
    (TxStep.apply (prepareCrossShardTransaction n.shards txID batches)) n

variable {n : ShardedNode} {txID : Bytes} {batches : ShardBatches} {r : TxJournalEntry}

/-! ### The states in which a crash leaves the cluster -/

theorem foldl_writes (l : List (ℕ × List BatchEntry)) (n : ShardedNode) :
    (l.map (fun x => TxStep.writeShard x.1 x.2)).foldl (TxStep.apply r) n =
      { n with shards := writeAll l n.shards } := by
  induction l generalizing n with
  | nil => rfl
  | cons x l ih =>
    rw [List.map_cons, List.foldl_cons, ih]
    rfl

theorem crashAfter_early {c : ℕ} (h : c ≤ batches.list.length) :
    n.crashAfter txID batches (c + 1) =
      { n with
        shards := writeAll (batches.list.take c) n.shards
        journal := n.journal.save (prepareCrossShardTransaction n.shards txID batches) } := by
  unfold ShardedNode.crashAfter ShardBatches.steps
  rw [List.cons_append, List.take_succ_cons, List.take_append_of_le_length (by simpa using h),
    ← List.map_take, List.foldl_cons, foldl_writes]
  rfl

theorem crashAfter_late (c : ℕ) :
    n.crashAfter txID batches (batches.list.length + 1 + c) =
      ([TxStep.saveCommitted, .removePending, .removeCommitted].take c).foldl
        (TxStep.apply (prepareCrossShardTransaction n.shards txID batches))
        { n with
          shards := writeAll batches.list n.shards
          journal := n.journal.save (prepareCrossShardTransaction n.shards txID batches) } := by
  unfold ShardedNode.crashAfter ShardBatches.steps
  rw [List.cons_append, show batches.list.length + 1 + c = (batches.list.length + c) + 1 by omega,
    List.take_succ_cons, List.take_append, List.length_map, Nat.add_sub_cancel_left,
    List.take_of_length_le (by simp), List.foldl_cons, List.foldl_append, foldl_writes]
  rfl

theorem crashAfter_steps (n : ShardedNode) (txID : Bytes) (batches : ShardBatches) :
    n.crashAfter txID batches batches.steps.length =
      (n.writeCrossShardBatch txID batches {}).1 := by
  have hlen : batches.steps.length = batches.list.length + 1 + 3 := by
    simp [ShardBatches.steps]
  rw [hlen, crashAfter_late, writeCrossShardBatch_accepted (fun x _ => rfl)]
  rfl

/-! ### What recovery makes of them -/

theorem stored_of_valid (h : ∀ i ∈ r.preImages, validUTF8 i.key = true ∧ validUTF8 i.value = true) :
    r.stored = r := by
  have himages : r.preImages.map
      (fun i => { i with key := jsonString i.key, value := jsonString i.value }) = r.preImages := by
    refine (List.map_congr_left (fun i hi => ?_)).trans (List.map_id _)
    rw [jsonString_of_valid (h i hi).1, jsonString_of_valid (h i hi).2]
    rfl
  unfold TxJournalEntry.stored
  rw [himages]

def TxJournalStore.only (r : TxJournalEntry) : TxJournalStore := AList.insert (.pending r.id) r ∅

theorem loadAll_pending (hid : r.id ≠ []) :
    (TxJournalStore.only r).loadAll = (TxJournalStore.only r, some [r]) := by
  have hkeys : (TxJournalStore.only r).keys = [.pending r.id] := rfl
  have hlookup : (TxJournalStore.only r).lookup (.pending r.id) = some r := AList.lookup_insert _
  unfold TxJournalStore.loadAll
  rw [hkeys, List.insertionSort_cons, List.insertionSort_nil, List.orderedInsert_nil, loadListed,
    hlookup]
  dsimp only
  rw [if_neg hid]
  rfl

theorem erase_single (f : JournalFile) (r : TxJournalEntry) :
    (AList.insert f r ∅ : TxJournalStore).erase f = ∅ :=
  AList.ext (List.kerase_cons_eq rfl)

theorem delete_pending : (TxJournalStore.only r).delete r.id = ∅ := by
  unfold TxJournalStore.delete TxJournalStore.only
  rw [erase_single]
  rfl

theorem recover_pending (hid : r.id ≠ []) (hc : r.committed = false)
    (hj : n.journal = TxJournalStore.only r) :
    n.recoverTransactions (fun _ => true) =
      ({ n with shards := undoShards r r.shardIDs.reverse n.shards, journal := ∅ }, true) := by
  have hnodup : r.shardIDs.reverse.Nodup := by
    unfold TxJournalEntry.shardIDs
    rw [List.reverse_reverse]
    exact List.nodup_dedup _
  unfold ShardedNode.recoverTransactions
  rw [hj, loadAll_pending hid]
  dsimp only
  rw [recoverRecords, if_neg (by simp [hc]), rollback_ok hnodup (fun _ _ => rfl)]
  dsimp only
  rw [recoverRecords, delete_pending]

theorem contents_undo_all {c : ℕ} (shards : ℕ → Shard) :
    let r := prepareCrossShardTransaction shards txID batches
    contents (undoShards r r.shardIDs.reverse (writeAll (batches.list.take c) shards)) =
      contents shards := by
  intro r
  funext id
  rw [contents_undone (List.take_append_drop c batches.list).symm]
  split_ifs with hmem
  · rfl
  · -- a shard without old values has no keys in the batch
    funext k
    refine contents_writeAll_of_not_mem (batches.sorted.sublist (List.take_sublist _ _))
      (fun b hb hk => hmem ?_)
    unfold TxJournalEntry.shardIDs
    rw [List.reverse_reverse, List.mem_dedup, List.mem_reverse, List.mem_map]
    exact ⟨_, mem_preImages.2 ⟨(id, b), List.mem_of_mem_take hb, k, hk, rfl⟩,
      (preImage_fields shards id k).1⟩

theorem saveCommitted_journal (hj : n.journal = TxJournalStore.only r) :
    (TxStep.apply r n .saveCommitted).journal = AList.insert (.committed r.id)
      { r with committed := true }.stored (TxJournalStore.only r) := by
  rw [← hj]
  rfl

theorem removePending_journal (hj : n.journal = TxJournalStore.only r) :
    (TxStep.apply r (TxStep.apply r n .saveCommitted) .removePending).journal =
      AList.insert (.committed r.id) { r with committed := true }.stored ∅ := by
  change (TxStep.apply r n .saveCommitted).journal.erase (.pending r.id) = _
  rw [saveCommitted_journal hj]
  refine AList.ext ?_
  change List.kerase (JournalFile.pending r.id) (AList.insert (JournalFile.committed r.id)
    { r with committed := true }.stored (TxJournalStore.only r)).entries = _
  simp [TxJournalStore.only, AList.insert, List.kinsert, List.kerase]

theorem removeCommitted_journal (hj : n.journal = TxJournalStore.only r) :
    (TxStep.apply r
      (TxStep.apply r (TxStep.apply r n .saveCommitted) .removePending) .removeCommitted).journal =
        ∅ := by
  change (TxStep.apply r (TxStep.apply r n .saveCommitted) .removePending).journal.erase
    (.committed r.id) = _
  rw [removePending_journal hj, erase_single]

theorem recover_both
    (hj : n.journal = AList.insert (.committed r.id) committed (TxJournalStore.only r)) :
    (n.recoverTransactions (fun _ => true)).2 = false := by
  have hkeys : n.journal.keys = [.committed r.id, .pending r.id] := by
    rw [hj, AList.keys_insert, show (TxJournalStore.only r).keys = [.pending r.id] from rfl,
      List.erase_of_not_mem (by simp)]
  have hload : n.journal.loadAll.2 = none := by
    have hsort : [JournalFile.committed r.id, .pending r.id].insertionSort
        (fun a b => a.nameLe b) = [.committed r.id, .pending r.id] := rfl
    unfold TxJournalStore.loadAll
    -- the pending file goes with the committed one
    rw [hkeys, hsort, loadListed, loadListed, AList.lookup_erase_ne (by simp), AList.lookup_erase]
  unfold ShardedNode.recoverTransactions
  cases hl : n.journal.loadAll with
  | mk s records =>
    rw [hl] at hload
    cases hload
    rfl

theorem recover_committed (hj : n.journal = AList.insert (.committed r.id) committed ∅) :
    n.recoverTransactions (fun _ => true) = ({ n with journal := ∅ }, true) := by
  have hload : n.journal.loadAll = (∅, some []) := by
    unfold TxJournalStore.loadAll
    rw [hj, show (AList.insert (.committed r.id) committed ∅ : TxJournalStore).keys =
      [.committed r.id] from rfl, List.insertionSort_cons, List.insertionSort_nil,
      List.orderedInsert_nil, loadListed, loadListed, AList.erase_erase, erase_single]
    rfl
  unfold ShardedNode.recoverTransactions
  rw [hload]
  rfl

theorem recover_empty (hj : n.journal = ∅) :
    n.recoverTransactions (fun _ => true) = ({ n with journal := ∅ }, true) := by
  unfold ShardedNode.recoverTransactions
  rw [hj]
  rfl

/-! ### Atomicity -/

/-- Recovery works, clears the journal and leaves the shards with the old values or with the new
ones; with the new ones if they are to be kept. -/
def RecoversTo (n : ShardedNode) (old new : ℕ → Bytes → Option Bytes) (keep : Prop) : Prop :=
  (n.recoverTransactions (fun _ => true)).2 = true ∧
  (n.recoverTransactions (fun _ => true)).1.journal = ∅ ∧
  (contents (n.recoverTransactions (fun _ => true)).1.shards = old ∨
    contents (n.recoverTransactions (fun _ => true)).1.shards = new) ∧
  (keep → contents (n.recoverTransactions (fun _ => true)).1.shards = new)

/-- **When a crash is survived.** With valid text in the batch and in the values it replaces and no
other transaction in the journal, the next start recovers from a crash after any number of the
durable steps, exactly if this was not between the steps that write the committed record and that
remove the pending one. -/
theorem crash_recovers_iff (n : ShardedNode) (digits : Bytes) (batches : ShardBatches) (c : ℕ)
    (hjournal : n.journal = ∅)
    (hkeys : ∀ x ∈ batches.list, ∀ b ∈ x.2, validUTF8 b.key = true)
    (hvalues : ∀ x ∈ batches.list, ∀ b ∈ x.2, ∀ v, contents n.shards x.1 b.key = some v →
      validUTF8 v = true) :
    RecoversTo (n.crashAfter (newTxID digits) batches c) (contents n.shards)
      (contents (writeAll batches.list n.shards)) (batches.list.length + 2 ≤ c) ↔
    c ≠ batches.list.length + 2 := by
  have hstored : (prepareCrossShardTransaction n.shards (newTxID digits) batches).stored =
      prepareCrossShardTransaction n.shards (newTxID digits) batches := by
    refine stored_of_valid (fun i hi => ?_)
    obtain ⟨x, hx, k, hk, rfl⟩ := mem_preImages.1 hi
    obtain ⟨b, hb, rfl⟩ := List.mem_map.1 hk
    refine ⟨by rw [(preImage_fields _ _ _).2.1]; exact hkeys x hx b hb, ?_⟩
    unfold preImage
    cases hv : (n.shards x.1).lookup b.key with
    | none => rfl
    | some v => exact hvalues x hx b hb v hv
  have hsave : TxJournalStore.save ∅
    (prepareCrossShardTransaction n.shards (newTxID digits) batches) =
      TxJournalStore.only (prepareCrossShardTransaction n.shards (newTxID digits) batches) := by
    unfold TxJournalStore.save
    rw [hstored]
    rfl
  have hlate : ∀ {n' : ShardedNode}, n'.recoverTransactions (fun _ => true) =
      ({ n' with journal := ∅ }, true) → n'.shards = writeAll batches.list n.shards →
      RecoversTo n' (contents n.shards) (contents (writeAll batches.list n.shards))
        (batches.list.length + 2 ≤ c) := by
    intro n' hrec hshards
    unfold RecoversTo
    rw [hrec]
    dsimp only
    rw [hshards]
    exact ⟨rfl, rfl, Or.inr rfl, fun _ => rfl⟩
  -- before the journal, before the commit, and then one case for each of the last steps
  rcases Nat.eq_zero_or_pos c with rfl | hpos
  · refine iff_of_true ?_ (by omega)
    unfold RecoversTo
    rw [show n.crashAfter (newTxID digits) batches 0 = n from rfl, recover_empty hjournal]
    exact ⟨rfl, rfl, Or.inl rfl, fun h => by omega⟩
  · by_cases hearly : c ≤ batches.list.length + 1
    · refine iff_of_true ?_ (by omega)
      obtain ⟨d, rfl⟩ : ∃ d, c = d + 1 := ⟨c - 1, by omega⟩
      unfold RecoversTo
      rw [crashAfter_early (by omega), hjournal, hsave,
        recover_pending (List.cons_ne_nil _ _) rfl rfl]
      exact ⟨rfl, rfl, Or.inl (contents_undo_all n.shards), fun h => by omega⟩
    · obtain ⟨d, rfl⟩ : ∃ d, c = batches.list.length + 1 + (d + 1) :=
        ⟨c - batches.list.length - 2, by omega⟩
      rw [crashAfter_late, hjournal, hsave]
      rcases d with _ | _ | d
      · refine iff_of_false (fun h => ?_) (fun h => h rfl)
        cases h.1.symm.trans (recover_both (saveCommitted_journal rfl))
      · exact iff_of_true (hlate (recover_committed (removePending_journal rfl)) rfl) (by omega)
      · rw [List.take_of_length_le (by change 3 ≤ d + 1 + 1 + 1; omega)]
        exact iff_of_true (hlate (recover_empty (removeCommitted_journal rfl)) rfl) (by omega)

def twoBatches : ShardBatches :=
  ⟨[(0, [⟨[107], [49], false⟩]), (1, [⟨[108], [50], false⟩])], by decide⟩

theorem twoBatches_valid : (∀ x ∈ twoBatches.list, ∀ b ∈ x.2, validUTF8 b.key = true) ∧
    ∀ x ∈ twoBatches.list, ∀ b ∈ x.2, ∀ v, contents threeShards.shards x.1 b.key = some v →
      validUTF8 v = true := by
  refine ⟨by decide, fun x _ b _ v hv => ?_⟩
  cases hv

theorem twoBatches_crash_iff :
    RecoversTo (threeShards.crashAfter (newTxID [49]) twoBatches 2) (contents threeShards.shards)
      (contents (writeAll twoBatches.list threeShards.shards)) (twoBatches.list.length + 2 ≤ 2) ↔
    2 ≠ twoBatches.list.length + 2 :=
  crash_recovers_iff threeShards [49] twoBatches 2 rfl twoBatches_valid.1 twoBatches_valid.2

/-- Right after the committed record is written the next start fails. -/
theorem twoBatches_crash_fails :
    ¬ RecoversTo (threeShards.crashAfter (newTxID [49]) twoBatches 4) (contents threeShards.shards)
      (contents (writeAll twoBatches.list threeShards.shards))
      (twoBatches.list.length + 2 ≤ 4) := by
  rintro ⟨hok, -⟩
  have hfails : ((threeShards.crashAfter (newTxID [49]) twoBatches 4).recoverTransactions
      (fun _ => true)).2 = false := by decide +kernel
  rw [hfails] at hok
  cases hok

end LsmTree
