import Mathlib.Data.List.Sort
import LsmTree.Cluster.Coordinator
import LsmTree.Correct.CrossShard

/-!
# A coordinator and its journal

`LoadAll` removes the files of the committed transactions and returns the other pending records
(`loadAll_spec`).  The steps of a coordinator that nobody interrupts make up `writeCrossShardBatch`
(`alone_writeCrossShardBatch`).
-/

namespace LsmTree

open KeyValue

variable {r : TxJournalEntry}

theorem nameLe_total (a b : JournalFile) : a.nameLe b = true ∨ b.nameLe a = true := by
  cases a <;> cases b <;> simp only [JournalFile.nameLe, decide_eq_true_eq]
  · exact le_total _ _
  · exact Or.inl trivial
  · exact Or.inr trivial
  · exact le_total _ _

theorem nameLe_trans {a b c : JournalFile} (h : a.nameLe b = true) (h' : b.nameLe c = true) :
    a.nameLe c = true := by
  cases a with
  | committed i =>
    cases c with
    | pending => rfl
    | committed k =>
      cases b with
      | committed j => exact decide_eq_true ((of_decide_eq_true h).trans (of_decide_eq_true h'))
      | pending j => cases h'
  | pending i =>
    cases b with
    | committed j => cases h
    | pending j =>
      cases c with
      | committed => cases h'
      | pending k => exact decide_eq_true ((of_decide_eq_true h).trans (of_decide_eq_true h'))

theorem listing_split (s : TxJournalStore) : ∃ committed pending : List Bytes,
    s.keys.insertionSort (fun a b => a.nameLe b) =
      committed.map JournalFile.committed ++ pending.map JournalFile.pending := by
  have : Std.Total (fun a b : JournalFile => a.nameLe b = true) := ⟨nameLe_total⟩
  have : IsTrans JournalFile (fun a b => a.nameLe b = true) := ⟨fun _ _ _ => nameLe_trans⟩
  have hsorted := List.pairwise_insertionSort (fun a b : JournalFile => a.nameLe b = true) s.keys
  generalize s.keys.insertionSort (fun a b => a.nameLe b) = l at hsorted
  induction l with
  | nil => exact ⟨[], [], rfl⟩
  | cons f l ih =>
    obtain ⟨hf, hl⟩ := List.pairwise_cons.1 hsorted
    obtain ⟨committed, pending, rfl⟩ := ih hl
    cases f with
    | committed id => exact ⟨id :: committed, pending, rfl⟩
    | pending id =>
      -- no committed file comes after a pending one
      cases committed with
      | nil => exact ⟨[], id :: pending, rfl⟩
      | cons j committed =>
        have := hf (.committed j) (by simp)
        cases this

def TxJournalStore.deleteAll (s : TxJournalStore) (ids : List Bytes) : TxJournalStore :=
  ids.foldl TxJournalStore.delete s

theorem lookup_deleteAll (ids : List Bytes) (s : TxJournalStore) (j : Bytes) :
    (s.deleteAll ids).lookup (.pending j) = (if j ∈ ids then none else s.lookup (.pending j)) ∧
      (s.deleteAll ids).lookup (.committed j) =
        if j ∈ ids then none else s.lookup (.committed j) := by
  induction ids generalizing s with
  | nil => exact ⟨rfl, rfl⟩
  | cons id ids ih =>
    obtain ⟨hp, hc⟩ := ih (s.delete id)
    change ((s.delete id).deleteAll ids).lookup (.pending j) = _ ∧
      ((s.delete id).deleteAll ids).lookup (.committed j) = _
    rw [hp, hc]
    by_cases hj : j = id
    · subst hj
      obtain ⟨h1, h2⟩ := lookup_delete_self s j
      rw [h1, h2]
      simp
    · obtain ⟨h1, h2⟩ := lookup_delete_of_ne s hj
      rw [h1, h2]
      simp [hj]

theorem loadListed_committed (committed : List Bytes) (files : List JournalFile)
    (s : TxJournalStore) (out : List TxJournalEntry) :
    loadListed (committed.map JournalFile.committed ++ files) s out =
      loadListed files (s.deleteAll committed) out := by
  induction committed generalizing s with
  | nil => rfl
  | cons id committed ih =>
    rw [List.map_cons, List.cons_append, loadListed]
    exact ih (s.delete id)

theorem loadListed_pending (pending : List Bytes) (s : TxJournalStore) (out : List TxJournalEntry) :
    (loadListed (pending.map JournalFile.pending) s out).1 = s ∧
      ∀ rs, (loadListed (pending.map JournalFile.pending) s out).2 = some rs → ∀ r, r ∈ rs ↔
        r ∈ out ∨ r.id ≠ [] ∧ ∃ id ∈ pending, s.lookup (.pending id) = some r := by
  induction pending generalizing out with
  | nil =>
    refine ⟨rfl, fun rs hrs r => ?_⟩
    cases hrs
    simp
  | cons id pending ih =>
    rw [List.map_cons, loadListed]
    cases hl : s.lookup (.pending id) with
    | none => exact ⟨rfl, fun rs hrs => by cases hrs⟩
    | some r₀ =>
      dsimp only
      refine ⟨(ih _).1, fun rs hrs r => ?_⟩
      rw [(ih _).2 rs hrs r]
      split_ifs with hid
      · constructor
        · rintro (h | ⟨h, j, hj, hr⟩)
          · exact Or.inl h
          · exact Or.inr ⟨h, j, List.mem_cons_of_mem _ hj, hr⟩
        · rintro (h | ⟨h, j, hj, hr⟩)
          · exact Or.inl h
          · rcases List.mem_cons.1 hj with rfl | hj
            · rw [hl] at hr
              cases hr
              exact absurd hid h
            · exact Or.inr ⟨h, j, hj, hr⟩
      · rw [List.mem_append, List.mem_singleton]
        constructor
        · rintro ((h | rfl) | ⟨h, j, hj, hr⟩)
          · exact Or.inl h
          · exact Or.inr ⟨hid, id, List.mem_cons_self, hl⟩
          · exact Or.inr ⟨h, j, List.mem_cons_of_mem _ hj, hr⟩
        · rintro (h | ⟨h, j, hj, hr⟩)
          · exact Or.inl (Or.inl h)
          · rcases List.mem_cons.1 hj with rfl | hj
            · rw [hl] at hr
              cases hr
              exact Or.inl (Or.inr rfl)
            · exact Or.inr ⟨h, j, hj, hr⟩

/-- **What `LoadAll` leaves and what it returns.** The committed transactions lose their files; what
is returned are the other pending records. -/
theorem loadAll_spec (s : TxJournalStore) :
    (∀ id, s.loadAll.1.lookup (.committed id) = none) ∧
    (∀ id, s.loadAll.1.lookup (.pending id) =
      if s.lookup (.committed id) = none then s.lookup (.pending id) else none) ∧
    ∀ rs, s.loadAll.2 = some rs → ∀ r, r ∈ rs ↔
      r.id ≠ [] ∧ ∃ id, s.loadAll.1.lookup (.pending id) = some r := by
  obtain ⟨committed, pending, hsplit⟩ := listing_split s
  have hmem : ∀ f, f ∈ s.keys ↔
      f ∈ committed.map JournalFile.committed ++ pending.map JournalFile.pending := by
    intro f
    rw [← hsplit, (List.perm_insertionSort _ _).mem_iff]
  have hcommitted : ∀ id, id ∈ committed ↔ s.lookup (.committed id) ≠ none := by
    intro id
    rw [Ne, AList.lookup_eq_none, not_not, AList.mem_keys, hmem]
    simp
  have hpending : ∀ id, id ∈ pending ↔ s.lookup (.pending id) ≠ none := by
    intro id
    rw [Ne, AList.lookup_eq_none, not_not, AList.mem_keys, hmem]
    simp
  have hload : s.loadAll = loadListed (pending.map JournalFile.pending) (s.deleteAll committed)
      [] := by
    unfold TxJournalStore.loadAll
    rw [hsplit, loadListed_committed]
  obtain ⟨hfirst, hsecond⟩ := loadListed_pending pending (s.deleteAll committed) []
  rw [hload, hfirst]
  refine ⟨fun id => ?_, fun id => ?_, fun rs hrs r => ?_⟩
  · rw [(lookup_deleteAll committed s id).2]
    split_ifs with h
    · rfl
    · exact not_not.1 (fun hc => h ((hcommitted id).2 hc))
  · rw [(lookup_deleteAll committed s id).1]
    by_cases h : s.lookup (.committed id) = none
    · rw [if_pos h, if_neg (fun hc => (hcommitted id).1 hc h)]
    · rw [if_neg h, if_pos ((hcommitted id).2 h)]
  · rw [hsecond rs hrs r]
    constructor
    · rintro (h | ⟨h, id, -, hr⟩)
      · cases h
      · exact ⟨h, id, hr⟩
    · rintro ⟨h, id, hr⟩
      refine Or.inr ⟨h, id, (hpending id).2 ?_, hr⟩
      rw [(lookup_deleteAll committed s id).1] at hr
      split_ifs at hr
      rw [hr]
      simp

/-! ### One coordinator alone -/

/-- The result of the next step of a transaction with the given outcome. -/
def TxOutcome.result (out : TxOutcome) : CoordinatorPc → Bool
  | .read _ _ (_ :: _) _ => out.read
  | .read _ _ [] _ => out.savePending
  | .write _ ((id, _) :: _) _ => out.write id
  | .write _ [] _ => out.saveCommitted
  | .undo _ (id :: _) => out.undo id
  | .removePending _ _ => out.removePending
  | .removeCommitted _ _ => out.removeCommitted
  | _ => true

inductive Alone (out : TxOutcome) : (ℕ → Shard) → Coordinator → (ℕ → Shard) → Coordinator → Prop
  | refl {shards : ℕ → Shard} {c : Coordinator} : Alone out shards c shards c
  | step {shards shards₁ shards' : ℕ → Shard} {c c₁ c' : Coordinator} {eff : CoordinatorEffect}
      (hnext : c.next shards (out.result c.pc) = (shards₁, c₁, eff))
      (h : Alone out shards₁ c₁ shards' c') : Alone out shards c shards' c'

variable {out : TxOutcome} {shards shards' : ℕ → Shard} {c' : Coordinator} {j : TxJournalStore}
  {txID : Bytes} {batches : ShardBatches}

theorem alone_read (hread : out.read = true) {todo images}
    (h : Alone out shards ⟨.read txID batches []
      (images ++ todo.map (fun x => preImage shards x.1 x.2)), j⟩ shards' c') :
    Alone out shards ⟨.read txID batches todo images, j⟩ shards' c' := by
  induction todo generalizing images with
  | nil => simpa using h
  | cons x todo ih => exact .step (if_pos hread) (ih (by simpa using h))

theorem alone_undo {ids}
    (h : Alone out (rollbackCrossShardTransaction out.undo r ids shards).1
      ⟨.removePending r false, j⟩ shards' c') :
    Alone out shards ⟨.undo r ids, j⟩ shards' c' := by
  induction ids generalizing shards with
  | nil => exact .step rfl h
  | cons id ids ih =>
    rw [rollbackCrossShardTransaction] at h
    by_cases hnil : r.undoBatch id = []
    · rw [if_pos hnil] at h
      exact .step (if_pos hnil) (ih h)
    rw [if_neg hnil] at h
    by_cases hundo : out.undo id = true
    · rw [if_pos hundo] at h
      exact .step ((if_neg hnil).trans (if_pos hundo)) (ih h)
    · rw [if_neg hundo] at h
      exact .step ((if_neg hnil).trans (if_neg hundo)) h

theorem alone_write {todo applied}
    (hok : ∀ s, applyCrossShardTransaction out.write out.undo r todo applied shards = (s, .ok ()) →
      ∀ all, Alone out s ⟨.write r [] all, j⟩ shards' c')
    (herr : ∀ s err, applyCrossShardTransaction out.write out.undo r todo applied shards =
      (s, .error err) → Alone out s ⟨.removePending r false, j⟩ shards' c') :
    Alone out shards ⟨.write r todo applied, j⟩ shards' c' := by
  induction todo generalizing applied shards with
  | nil => exact hok shards rfl applied
  | cons x todo ih =>
    rw [applyCrossShardTransaction] at hok herr
    by_cases hwrite : out.write x.1 = true
    · rw [if_pos hwrite] at hok herr
      exact .step (if_pos hwrite) (ih hok herr)
    · rw [if_neg hwrite] at herr
      exact .step (if_neg hwrite) (alone_undo (herr _ _ rfl))

theorem alone_remove {ack : Bool} : Alone out shards ⟨.removePending r ack, j⟩ shards
    ⟨.idle, (j.tryDelete r.id out.removePending out.removeCommitted).1⟩ := by
  unfold TxJournalStore.tryDelete
  split_ifs with hpending hcommitted
  · exact .step (if_pos hpending) (.step (if_pos hcommitted) .refl)
  · exact .step (if_pos hpending) (.step (if_neg hcommitted) .refl)
  · exact .step (if_neg hpending) .refl

/-- **A coordinator alone** does to the shards and to its journal what `writeCrossShardBatch`
does. -/
theorem alone_writeCrossShardBatch (n : ShardedNode) (hkeys : batches.keys ≠ []) :
    Alone out n.shards ⟨.read txID batches batches.keys [], n.journal⟩
      (n.writeCrossShardBatch txID batches out).1.shards
      ⟨.idle, (n.writeCrossShardBatch txID batches out).1.journal⟩ := by
  unfold ShardedNode.writeCrossShardBatch
  cases hread : out.read with
  | false =>
    cases hlist : batches.keys with
    | nil => exact absurd hlist hkeys
    | cons x todo => exact .step (if_neg (by simp [TxOutcome.result, hread])) .refl
  | true =>
    refine alone_read hread ?_
    have himages : [] ++ batches.keys.map (fun x => preImage n.shards x.1 x.2) =
        (prepareCrossShardTransaction n.shards txID batches).preImages := by
      simp [ShardBatches.keys, prepareCrossShardTransaction, List.map_flatMap, Function.comp_def]
    rw [himages]
    cases hsave : out.savePending with
    | false => exact .step (if_neg (by simp [TxOutcome.result, hsave])) .refl
    | true =>
      refine .step (if_pos hsave) (alone_write (fun s hs all => ?_) (fun s err hs => ?_))
      · have hs' : applyCrossShardTransaction out.write out.undo
            (prepareCrossShardTransaction n.shards txID batches) batches.list [] n.shards =
              (s, .ok ()) := hs
        simp only [hs', Bool.true_eq_false, if_false]
        cases hcommit : out.saveCommitted with
        | false => exact .step (if_neg (by simp [TxOutcome.result, hcommit])) alone_remove
        | true => exact .step (if_pos hcommit) alone_remove
      · have hs' : applyCrossShardTransaction out.write out.undo
            (prepareCrossShardTransaction n.shards txID batches) batches.list [] n.shards =
              (s, .error err) := hs
        simp only [hs', Bool.true_eq_false, if_false]
        exact alone_remove

end LsmTree
