import LsmTree.Correct.Routes

/-!
# Cross-shard batches under failures of shards

When a shard refuses its part of a batch, the parts written before are undone, last one first.  The
undoing stops at the first shard that refuses that as well, and the journal record is removed all
the same.  So a failed batch leaves all shards as they were exactly if each shard that is not undone
had nothing to change (`failed_batch_undone_iff`).
-/

namespace LsmTree

open KeyValue

variable {n : ShardedNode} {txID : Bytes} {write undo : ℕ → Bool}

variable {id : ℕ} {batches : ShardBatches} {post pre : List (ℕ × List BatchEntry)}
  {b : List BatchEntry}

/-- If a shard refuses its batch, then of the shards written before it those that are not taken
back, because they or a later one refuse that, are not changed by their batches. -/
def UndoneOrIdle (shards : ℕ → Shard) (batches : ShardBatches) (write undo : ℕ → Bool) : Prop :=
  ∀ pre id b post, batches.list = pre ++ (id, b) :: post → (∀ x ∈ pre, write x.1 = true) →
    write id = false → ∀ x ∈ pre, (∃ y ∈ pre, x.1 ≤ y.1 ∧ undo y.1 = false) →
      applyAll (x.2.map BatchEntry.update) (contents shards x.1) = contents shards x.1

theorem addEntry_nonempty {b : BatchEntry} {l : List (ℕ × List BatchEntry)}
    (h : ∀ x ∈ l, x.2 ≠ []) : ∀ x ∈ addEntry id b l, x.2 ≠ [] := by
  induction l with
  | nil =>
    intro x hx
    rw [List.mem_singleton.1 hx]
    exact List.cons_ne_nil _ _
  | cons y l ih =>
    obtain ⟨j, bs⟩ := y
    have ih := ih (fun x hx => h x (List.mem_cons_of_mem _ hx))
    intro x hx
    rw [addEntry] at hx
    split_ifs at hx
    · rcases List.mem_cons.1 hx with rfl | hx
      · exact List.cons_ne_nil _ _
      · exact h x hx
    · rcases List.mem_cons.1 hx with rfl | hx
      · simp
      · exact h x (List.mem_cons_of_mem _ hx)
    · rcases List.mem_cons.1 hx with rfl | hx
      · exact h _ List.mem_cons_self
      · exact ih x hx

theorem shardBatches_nonempty {batch : List (BatchEntry × Bool)} {acc : ShardBatches}
    (hacc : ∀ x ∈ acc.list, x.2 ≠ []) (h : n.shardBatches batch acc = .ok batches) :
    ∀ x ∈ batches.list, x.2 ≠ [] := by
  induction batch generalizing acc with
  | nil =>
    cases h
    exact hacc
  | cons x batch ih =>
    obtain ⟨b, up⟩ := x
    rw [ShardedNode.shardBatches] at h
    split_ifs at h
    cases hr : n.routeForKey up b.key with
    | none =>
      rw [hr] at h
      cases h
    | some r =>
      rw [hr] at h
      refine ih (fun x hx => ?_) h
      split_ifs at hx
      · exact addEntry_nonempty (addEntry_nonempty hacc) x hx
      · exact addEntry_nonempty hacc x hx

theorem undoBatch_ne_nil {shards : ℕ → Shard} {x : ℕ × List BatchEntry} (hx : x ∈ batches.list)
    (hne : x.2 ≠ []) : (prepareCrossShardTransaction shards txID batches).undoBatch x.1 ≠ [] := by
  obtain ⟨b, hb⟩ := List.exists_mem_of_ne_nil x.2 hne
  have hmem : (b.key, contents shards x.1 b.key) ∈
      ((prepareCrossShardTransaction shards txID batches).undoBatch x.1).map BatchEntry.update :=
    mem_undoBatch.2 ⟨x.2, hx, List.mem_map_of_mem hb, rfl⟩
  intro hc
  rw [hc] at hmem
  cases hmem

theorem contents_failed_iff (hlist : batches.list = pre ++ (id, b) :: post)
    (hne : ∀ x ∈ batches.list, x.2 ≠ []) (shards : ℕ → Shard) :
    contents (rollbackCrossShardTransaction undo
      (prepareCrossShardTransaction shards txID batches) (pre.map Prod.fst).reverse
      (writeAll pre shards)).1 = contents shards ↔
    ∀ x ∈ pre, (∃ y ∈ pre, x.1 ≤ y.1 ∧ undo y.1 = false) →
      applyAll (x.2.map BatchEntry.update) (contents shards x.1) = contents shards x.1 := by
  have hsorted : pre.Pairwise (fun a b => a.1 < b.1) :=
    (List.pairwise_append.1 (hlist ▸ batches.sorted)).1
  have hnodup : ((pre.map Prod.fst).reverse).Nodup := by
    rw [List.nodup_reverse, List.nodup_iff_pairwise_ne, List.pairwise_map]
    exact hsorted.imp (fun h => h.ne)
  have hwritten : ∀ x ∈ pre, contents (writeAll pre shards) x.1 =
      applyAll (x.2.map BatchEntry.update) (contents shards x.1) := by
    intro x hx
    funext k
    unfold contents
    rw [writeAll_of_mem hsorted hx]
    exact congrFun (Store.lookup_write _ _) k
  rcases forall_or_first_failure undo (pre.map Prod.fst).reverse with
    hall | ⟨good, bad, rest, hsplit, hgood, hbad⟩
  · rw [rollback_ok hnodup hall]
    refine iff_of_true ?_ ?_
    · funext j
      rw [contents_undone hlist]
      split_ifs with hj
      · rfl
      · rw [List.mem_reverse] at hj
        funext k
        unfold contents
        rw [writeAll_of_not_mem hj]
    · rintro x - ⟨y, hy, -, hu⟩
      rw [hall y.1 (List.mem_reverse.2 (List.mem_map_of_mem hy))] at hu
      cases hu
  · have hmem : ∀ j, j ∈ (pre.map Prod.fst).reverse ↔ j ∈ good ∨ j = bad ∨ j ∈ rest := fun j => by
      rw [hsplit, List.mem_append, List.mem_cons]
    obtain ⟨z, hz, rfl⟩ : ∃ z ∈ pre, z.1 = bad :=
      List.mem_map.1 (List.mem_reverse.1 ((hmem bad).2 (Or.inr (Or.inl rfl))))
    have hdesc : (good ++ z.1 :: rest).Pairwise (fun a b => b < a) := by
      rw [← hsplit, List.pairwise_reverse, List.pairwise_map]
      exact hsorted
    obtain ⟨-, htail, hcross⟩ := List.pairwise_append.1 hdesc
    rw [hsplit] at hnodup ⊢
    rw [rollback_fail (List.nodup_append.1 hnodup).1 hgood hbad
      (undoBatch_ne_nil (hlist ▸ List.mem_append_left _ hz)
        (hne z (hlist ▸ List.mem_append_left _ hz)))]
    -- the shards not undone are those up to the last one that refuses
    have hleft : ∀ x ∈ pre, x.1 ∉ good ↔ ∃ y ∈ pre, x.1 ≤ y.1 ∧ undo y.1 = false := by
      intro x hx
      constructor
      · intro hno
        refine ⟨z, hz, ?_, hbad⟩
        rcases ((hmem x.1).1 (List.mem_reverse.2 (List.mem_map_of_mem hx))).resolve_left hno with
          heq | hr
        · exact heq.le
        · exact ((List.pairwise_cons.1 htail).1 x.1 hr).le
      · rintro ⟨y, hy, hle, hu⟩ hin
        have hyz : y.1 ≤ z.1 := by
          rcases (hmem y.1).1 (List.mem_reverse.2 (List.mem_map_of_mem hy)) with hg | heq | hr
          · rw [hgood y.1 hg] at hu
            cases hu
          · exact heq.le
          · exact ((List.pairwise_cons.1 htail).1 y.1 hr).le
        have := hcross x.1 hin z.1 List.mem_cons_self
        omega
    constructor
    · intro h x hx hstuck
      have hno := (hleft x hx).2 hstuck
      have := congrFun h x.1
      rw [contents_undone hlist, if_neg hno, hwritten x hx] at this
      exact this
    · intro h
      funext j
      rw [contents_undone hlist]
      split_ifs with hj
      · rfl
      · by_cases hjp : j ∈ pre.map Prod.fst
        · obtain ⟨x, hx, rfl⟩ := List.mem_map.1 hjp
          rw [hwritten x hx]
          exact h x hx ((hleft x hx).1 hj)
        · funext k
          unfold contents
          rw [writeAll_of_not_mem hjp]

/-- Every shard holds what it held before, or the record of the transaction is still pending and
recovery takes every shard back there. -/
def Restored (n n' : ShardedNode) (txID : Bytes) : Prop :=
  contents n'.shards = contents n.shards ∨
    (∃ r, n'.journal.lookup (.pending txID) = some r) ∧
      contents (n'.recoverTransactions (fun _ => true)).1.shards = contents n.shards

theorem writeCrossShardBatch_accepted (h : ∀ x ∈ batches.list, write x.1 = true) :
    let record := prepareCrossShardTransaction n.shards txID batches
    n.writeCrossShardBatch txID batches { write := write, undo := undo } =
      ({ n with
          shards := writeAll batches.list n.shards
          journal := ((n.journal.save record).save { record with committed := true }).delete txID },
        .ok ()) := by
  simp only [ShardedNode.writeCrossShardBatch, applyCrossShardTransaction_ok h, Bool.true_eq_false,
    if_false]
  rfl

theorem writeCrossShardBatch_refused (hlist : batches.list = pre ++ (id, b) :: post)
    (hpre : ∀ x ∈ pre, write x.1 = true) (hid : write id = false) :
    let record := prepareCrossShardTransaction n.shards txID batches
    let s := rollbackCrossShardTransaction undo record (pre.map Prod.fst).reverse
      (writeAll pre n.shards)
    n.writeCrossShardBatch txID batches { write := write, undo := undo } =
      ({ n with shards := s.1, journal := (n.journal.save record).delete txID },
        .error (if s.2 then .write else .rollback)) := by
  have happly : applyCrossShardTransaction write undo
      (prepareCrossShardTransaction n.shards txID batches) (pre ++ (id, b) :: post) [] n.shards =
      _ :=
    applyCrossShardTransaction_fail hpre hid [] n.shards
  rw [← hlist, List.append_nil] at happly
  simp only [ShardedNode.writeCrossShardBatch, happly, Bool.true_eq_false, if_false]
  rfl

theorem writeCrossShardBatch_restored_iff (hne : ∀ x ∈ batches.list, x.2 ≠ []) :
    (∀ n' err, n.writeCrossShardBatch txID batches { write := write, undo := undo } =
      (n', .error err) → Restored n n' txID) ↔ UndoneOrIdle n.shards batches write undo := by
  constructor
  · intro h pre id b post hlist hpre hid
    rcases h _ _ (writeCrossShardBatch_refused hlist hpre hid) with heq | ⟨⟨r, hr⟩, -⟩
    · exact (contents_failed_iff hlist hne n.shards).1 heq
    · -- the record is gone
      rw [(lookup_delete_self _ _).1] at hr
      cases hr
  · intro h n' err hw
    rcases forall_or_first_failure (fun x : ℕ × List BatchEntry => write x.1) batches.list with
      hall | ⟨pre, ⟨id, b⟩, post, hlist, hpre, hid⟩
    · rw [writeCrossShardBatch_accepted hall] at hw
      cases hw
    · rw [writeCrossShardBatch_refused hlist hpre hid] at hw
      cases hw
      exact Or.inl ((contents_failed_iff hlist hne n.shards).2 (h pre id b post hlist hpre hid))

/-- **When a failed write is all or nothing.** Whatever the results of the writes and of the undoing
of each shard, a write that returns an error leaves every shard as it was, or a record from which it
can be restored, exactly if the shards that are not taken back had nothing to change. -/
theorem failed_batch_undone_iff (n : ShardedNode) (txID : Bytes) (batch : List (BatchEntry × Bool))
    (write undo : ℕ → Bool) :
    (∀ n' err, n.write txID batch { write := write, undo := undo } = (n', .error err) →
      Restored n n' txID) ↔
    ∀ batches, n.shardBatches batch ⟨[], List.Pairwise.nil⟩ = .ok batches →
      UndoneOrIdle n.shards batches write undo := by
  by_cases hbatch : batch = []
  · subst hbatch
    refine iff_of_true (fun n' err hw => ?_) (fun batches hb => ?_)
    · cases hw
    · cases hb
      intro pre id b post hlist
      simp at hlist
  unfold ShardedNode.write
  rw [if_neg hbatch]
  cases hb : n.shardBatches batch ⟨[], List.Pairwise.nil⟩ with
  | error err =>
    refine iff_of_true (fun n' err' hw => ?_) (fun batches hc => ?_)
    · cases hw
      exact Or.inl rfl
    · cases hc
  | ok batches =>
    have hne : ∀ x ∈ batches.list, x.2 ≠ [] :=
      shardBatches_nonempty (fun x hx => by cases hx) hb
    have hforall : (∀ batches', Except.ok (ε := ClusterError) batches = .ok batches' →
        UndoneOrIdle n.shards batches' write undo) ↔ UndoneOrIdle n.shards batches write undo :=
      ⟨fun h => h batches rfl, fun h batches' he => by cases he; exact h⟩
    rw [hforall]
    dsimp only
    split
    · rename_i id b hlist
      refine iff_of_true (fun n' err hw => ?_) ?_
      · split_ifs at hw
        · cases hw
        · cases hw
          exact Or.inl rfl
      · -- nothing stands before the only shard
        intro pre id' b' post hsplit _ _ x hx
        rw [hlist] at hsplit
        cases pre with
        | nil => cases hx
        | cons y pre =>
          have := congrArg List.length hsplit
          simp at this
    · exact writeCrossShardBatch_restored_iff hne

def threeShards : ShardedNode := { shardCount := 3, routingSlots := 3, shards := fun _ => ∅ }

def threeKeys : List (BatchEntry × Bool) :=
  [(⟨[0], [10], false⟩, true), (⟨[1], [11], false⟩, true), (⟨[3], [12], false⟩, true)]

/-- The last shard refuses its part, the middle one is undone, and the first one, which refuses
that, keeps the new value.  No record remains. -/
theorem threeShards_half_undone :
    (threeShards.write [7] threeKeys { write := (· != 2), undo := (· != 0) }).2 = .error .rollback ∧
      ¬ Restored threeShards
        (threeShards.write [7] threeKeys { write := (· != 2), undo := (· != 0) }).1 [7] := by
  refine ⟨by decide +kernel, ?_⟩
  rintro (h | ⟨⟨r, hr⟩, -⟩)
  · have hnew : contents (threeShards.write [7] threeKeys
        { write := (· != 2), undo := (· != 0) }).1.shards 0 [0] = some [10] := by decide +kernel
    rw [h] at hnew
    cases hnew
  · have hnone : (threeShards.write [7] threeKeys
        { write := (· != 2), undo := (· != 0) }).1.journal.lookup (.pending [7]) = none := by
      decide +kernel
    rw [hnone] at hr
    cases hr

end LsmTree
