import LsmTree.Cluster.Sharded

/-!
# What a cross-shard transaction does to the shards

Writing shard by shard leaves each shard with its own batch written (`writeAll_of_mem`).  The record
of a transaction holds the old value of every key that its batches mention, so that the undo batch
of a shard takes it back to where it was, whether the shard had been written or not
(`undo_restores`).
-/

namespace LsmTree

open KeyValue

variable {shards : ℕ → Shard} {id : ℕ} {batch : List BatchEntry}
  {l : List (ℕ × List BatchEntry)} {r : TxJournalEntry} {write undo : ℕ → Bool}

variable {post pre : List (ℕ × List BatchEntry)} {shards' : ℕ → Shard} {ids : List ℕ}
  {k txID : Bytes} {acc batches : ShardBatches} {n n' : ShardedNode} {out : TxOutcome}

def contents (shards : ℕ → Shard) (id : ℕ) (key : Bytes) : Option Bytes := (shards id).lookup key

theorem contents_writeShard (shards : ℕ → Shard) (id : ℕ) (batch : List BatchEntry) :
    contents (writeShard shards id batch) = Function.update (contents shards) id
      (applyAll (batch.map BatchEntry.update) (contents shards id)) := by
  funext j
  unfold contents writeShard
  by_cases hj : j = id
  · subst hj
    rw [Function.update_self, Function.update_self]
    exact Store.lookup_write _ _
  · rw [Function.update_of_ne hj, Function.update_of_ne hj]

theorem contents_writeShard_of_not_mem (h : k ∉ batch.map BatchEntry.key) (j : ℕ) :
    contents (writeShard shards j batch) id k = contents shards id k := by
  rw [contents_writeShard]
  by_cases hid : id = j
  · subst hid
    rw [Function.update_self]
    refine applyAll_of_not_mem ?_ _
    rwa [List.map_map]
  · rw [Function.update_of_ne hid]

/-! ### Writing -/

def writeAll (l : List (ℕ × List BatchEntry)) (shards : ℕ → Shard) : ℕ → Shard :=
  l.foldl (fun s x => writeShard s x.1 x.2) shards

theorem writeAll_of_not_mem (h : id ∉ l.map Prod.fst) (shards : ℕ → Shard) :
    writeAll l shards id = shards id := by
  induction l generalizing shards with
  | nil => rfl
  | cons x l ih =>
    rw [List.map_cons, List.mem_cons, not_or] at h
    have hrest := ih h.2 (writeShard shards x.1 x.2)
    rw [show writeShard shards x.1 x.2 id = shards id from Function.update_of_ne h.1 _ _] at hrest
    exact hrest

theorem writeAll_of_mem (hs : l.Pairwise (fun a b => a.1 < b.1)) (h : (id, batch) ∈ l)
    (shards : ℕ → Shard) : writeAll l shards id = (shards id).writeBatch batch := by
  induction l generalizing shards with
  | nil => cases h
  | cons x l ih =>
    obtain ⟨hx, hl⟩ := List.pairwise_cons.1 hs
    change writeAll l (writeShard shards x.1 x.2) id = _
    rcases List.mem_cons.1 h with rfl | h
    · rw [writeAll_of_not_mem (fun hc => ?_), writeShard, Function.update_self]
      obtain ⟨y, hy, hid⟩ := List.mem_map.1 hc
      have : id < y.1 := hx y hy
      omega
    · have hne : id ≠ x.1 := (hx _ h).ne'
      rw [ih hl h, writeShard, Function.update_of_ne hne]

theorem applyCrossShardTransaction_ok (h : ∀ x ∈ l, write x.1 = true) (applied : List ℕ)
    (shards : ℕ → Shard) :
    applyCrossShardTransaction write undo r l applied shards = (writeAll l shards, .ok ()) := by
  induction l generalizing applied shards with
  | nil => rfl
  | cons x l ih =>
    obtain ⟨id, batch⟩ := x
    rw [applyCrossShardTransaction, if_pos (h _ List.mem_cons_self)]
    exact ih (fun y hy => h y (List.mem_cons_of_mem _ hy)) _ _

theorem applyCrossShardTransaction_fail (h : ∀ x ∈ pre, write x.1 = true) (hid : write id = false)
    (applied : List ℕ) (shards : ℕ → Shard) :
    applyCrossShardTransaction write undo r (pre ++ (id, batch) :: post) applied shards =
      let s := rollbackCrossShardTransaction undo r ((pre.map Prod.fst).reverse ++ applied)
        (writeAll pre shards)
      (s.1, .error (if s.2 then .write else .rollback)) := by
  induction pre generalizing applied shards with
  | nil =>
    rw [List.nil_append, applyCrossShardTransaction, if_neg (by simp [hid])]
    rfl
  | cons x pre ih =>
    obtain ⟨j, b⟩ := x
    rw [List.cons_append, applyCrossShardTransaction, if_pos (h _ List.mem_cons_self),
      ih (fun y hy => h y (List.mem_cons_of_mem _ hy))]
    rw [List.map_cons, List.reverse_cons, List.append_assoc, List.singleton_append]
    rfl

theorem forall_or_first_failure {α : Type*} (p : α → Bool) (l : List α) :
    (∀ x ∈ l, p x = true) ∨
      ∃ pre x post, l = pre ++ x :: post ∧ (∀ y ∈ pre, p y = true) ∧ p x = false := by
  induction l with
  | nil => exact Or.inl (fun x hx => by cases hx)
  | cons a l ih =>
    cases ha : p a with
    | false => exact Or.inr ⟨[], a, l, rfl, (fun y hy => by cases hy), ha⟩
    | true =>
      rcases ih with h | ⟨pre, x, post, rfl, hpre, hx⟩
      · exact Or.inl (fun x hx => by
          rcases List.mem_cons.1 hx with rfl | hx
          · exact ha
          · exact h x hx)
      · refine Or.inr ⟨a :: pre, x, post, rfl, fun y hy => ?_, hx⟩
        rcases List.mem_cons.1 hy with rfl | hy
        · exact ha
        · exact hpre y hy

theorem applyCrossShardTransaction_isOk {applied : List ℕ}
    (h : applyCrossShardTransaction write undo r l applied shards = (shards', .ok ())) :
    (∀ x ∈ l, write x.1 = true) ∧ shards' = writeAll l shards := by
  rcases forall_or_first_failure (fun x : ℕ × List BatchEntry => write x.1) l with
    hall | ⟨pre, ⟨id, b⟩, post, rfl, hpre, hid⟩
  · rw [applyCrossShardTransaction_ok hall] at h
    cases h
    exact ⟨hall, rfl⟩
  · rw [applyCrossShardTransaction_fail hpre hid] at h
    cases h

/-! ### Undoing -/

theorem rollback_nil (undo : ℕ → Bool) (r : TxJournalEntry) (shards : ℕ → Shard) :
    rollbackCrossShardTransaction undo r [] shards = (shards, true) := rfl

theorem rollback_append {ids' : List ℕ}
    (h : rollbackCrossShardTransaction undo r ids shards = (shards', true)) :
    rollbackCrossShardTransaction undo r (ids ++ ids') shards =
      rollbackCrossShardTransaction undo r ids' shards' := by
  induction ids generalizing shards with
  | nil => cases h; rfl
  | cons id ids ih =>
    rw [List.cons_append, rollbackCrossShardTransaction]
    rw [rollbackCrossShardTransaction] at h
    split_ifs at h ⊢ with h1 h2
    · exact ih h
    · exact ih h
    · cases h

def undoShards (r : TxJournalEntry) (ids : List ℕ) (shards : ℕ → Shard) : ℕ → Shard :=
  fun id => if id ∈ ids then (shards id).writeBatch (r.undoBatch id) else shards id

theorem rollback_ok (hnd : ids.Nodup) (h : ∀ id ∈ ids, undo id = true) (shards : ℕ → Shard) :
    rollbackCrossShardTransaction undo r ids shards = (undoShards r ids shards, true) := by
  induction ids generalizing shards with
  | nil =>
    rw [rollback_nil]
    congr 1
  | cons id ids ih =>
    obtain ⟨hid, hnd⟩ := List.nodup_cons.1 hnd
    have ih := ih hnd (fun j hj => h j (List.mem_cons_of_mem id hj))
    -- writing an empty undo batch is the same as leaving the shard alone
    have hstep : rollbackCrossShardTransaction undo r (id :: ids) shards =
        rollbackCrossShardTransaction undo r ids (writeShard shards id (r.undoBatch id)) := by
      rw [rollbackCrossShardTransaction]
      split_ifs with h1 h2
      · rw [h1]
        congr 1
        exact (Function.update_eq_self id shards).symm
      · rfl
      · exact absurd (h id List.mem_cons_self) h2
    rw [hstep, ih]
    congr 1
    funext j
    unfold undoShards writeShard
    by_cases hj : j = id
    · subst hj
      rw [if_neg hid, if_pos List.mem_cons_self, Function.update_self]
    · rw [Function.update_of_ne hj]
      simp only [List.mem_cons, hj, false_or]

theorem rollback_fail {good rest : List ℕ} {bad : ℕ} (hnd : good.Nodup)
    (h : ∀ id ∈ good, undo id = true) (hbad : undo bad = false) (hne : r.undoBatch bad ≠ [])
    (shards : ℕ → Shard) :
    rollbackCrossShardTransaction undo r (good ++ bad :: rest) shards =
      (undoShards r good shards, false) := by
  rw [rollback_append (rollback_ok hnd h shards), rollbackCrossShardTransaction, if_neg hne,
    if_neg (by simp [hbad])]

theorem mem_firstKeys {seen : List Bytes} {bs : List BatchEntry} :
    k ∈ firstKeys seen bs ↔ k ∈ bs.map BatchEntry.key ∧ k ∉ seen := by
  induction bs generalizing seen with
  | nil => simp [firstKeys]
  | cons b bs ih =>
    rw [firstKeys]
    split_ifs with hb
    · rw [ih, List.map_cons, List.mem_cons]
      constructor
      · exact fun h => ⟨Or.inr h.1, h.2⟩
      · rintro ⟨rfl | h, hno⟩
        · exact absurd hb hno
        · exact ⟨h, hno⟩
    · rw [List.mem_cons, ih, List.map_cons, List.mem_cons, List.mem_cons, not_or]
      constructor
      · rintro (rfl | ⟨h1, h2, h3⟩)
        · exact ⟨Or.inl rfl, hb⟩
        · exact ⟨Or.inr h1, h3⟩
      · rintro ⟨rfl | h1, h2⟩
        · exact Or.inl rfl
        · by_cases hk : k = b.key
          · exact Or.inl hk
          · exact Or.inr ⟨h1, hk, h2⟩

theorem mem_preImages {i : TxPreImage} :
    i ∈ (prepareCrossShardTransaction shards txID batches).preImages ↔
      ∃ x ∈ batches.list, ∃ k ∈ x.2.map BatchEntry.key, i = preImage shards x.1 k := by
  simp only [prepareCrossShardTransaction, List.mem_flatMap, List.mem_map, mem_firstKeys,
    List.not_mem_nil, not_false_eq_true, and_true]
  constructor
  · rintro ⟨x, hx, k, hk, rfl⟩
    exact ⟨x, hx, k, hk, rfl⟩
  · rintro ⟨x, hx, k, hk, rfl⟩
    exact ⟨x, hx, k, hk, rfl⟩

theorem preImage_fields (shards : ℕ → Shard) (id : ℕ) (k : Bytes) :
    (preImage shards id k).shard = id ∧ (preImage shards id k).key = k ∧
      (preImage shards id k).restore.update = (k, contents shards id k) := by
  unfold preImage contents TxPreImage.restore BatchEntry.update
  cases (shards id).lookup k <;> exact ⟨rfl, rfl, rfl⟩

theorem mem_undoBatch {u : Bytes × Option Bytes} :
    u ∈ ((prepareCrossShardTransaction shards txID batches).undoBatch id).map BatchEntry.update ↔
      ∃ b, (id, b) ∈ batches.list ∧ u.1 ∈ b.map BatchEntry.key ∧ u.2 = contents shards id u.1 := by
  simp only [TxJournalEntry.undoBatch, List.mem_map, List.mem_filter, List.mem_reverse,
    decide_eq_true_eq, mem_preImages]
  constructor
  · rintro ⟨-, ⟨-, ⟨⟨⟨j, b⟩, hx, k, hk, rfl⟩, hid⟩, rfl⟩, rfl⟩
    obtain ⟨h1, -, h3⟩ := preImage_fields shards j k
    have hj : j = id := h1.symm.trans hid
    subst hj
    rw [h3]
    exact ⟨b, hx, hk, rfl⟩
  · rintro ⟨b, hb, hk, hu⟩
    obtain ⟨h1, -, h3⟩ := preImage_fields shards id u.1
    refine ⟨_, ⟨_, ⟨⟨_, hb, u.1, hk, rfl⟩, h1⟩, rfl⟩, ?_⟩
    rw [h3, ← hu]

/-- **The undo batch of a shard takes it back**, if only keys of the transaction have changed. -/
theorem undo_restores
    (hm : ∀ k, (∀ b, (id, b) ∈ batches.list → k ∉ b.map BatchEntry.key) →
      contents shards' id k = contents shards id k) :
    applyAll (((prepareCrossShardTransaction shards txID batches).undoBatch id).map
      BatchEntry.update)
      (contents shards' id) = contents shards id := by
  refine applyAll_restore (fun u hu => ?_) (fun k hk => hm k (fun b hb hkb => hk ?_))
  · obtain ⟨b, -, -, h⟩ := mem_undoBatch.1 hu
    exact h
  · exact List.mem_map.2 ⟨(k, contents shards id k), mem_undoBatch.2 ⟨b, hb, hkb, rfl⟩, rfl⟩

theorem contents_undoShards (r : TxJournalEntry) (ids : List ℕ) (shards : ℕ → Shard) (id : ℕ) :
    contents (undoShards r ids shards) id = if id ∈ ids then
      applyAll ((r.undoBatch id).map BatchEntry.update) (contents shards id)
    else contents shards id := by
  unfold undoShards
  by_cases h : id ∈ ids
  · rw [if_pos h]
    funext k
    rw [contents]
    simp only [if_pos h]
    exact congrFun (Store.lookup_write _ _) k
  · rw [if_neg h]
    funext k
    unfold contents
    simp only [if_neg h]

theorem contents_writeAll_of_not_mem (hs : l.Pairwise (fun a b => a.1 < b.1))
    (h : ∀ b, (id, b) ∈ l → k ∉ b.map BatchEntry.key) :
    contents (writeAll l shards) id k = contents shards id k := by
  by_cases hid : id ∈ l.map Prod.fst
  · obtain ⟨⟨j, b⟩, hx, rfl⟩ := List.mem_map.1 hid
    unfold contents
    rw [writeAll_of_mem hs hx]
    have hwrite := congrFun (Store.lookup_write (shards j) (b.map BatchEntry.update)) k
    refine Eq.trans hwrite (applyAll_of_not_mem ?_ _)
    rw [List.map_map]
    exact h b hx
  · unfold contents
    rw [writeAll_of_not_mem hid]

theorem contents_undone (hpre : batches.list = pre ++ post) (good : List ℕ) (id : ℕ) :
    contents (undoShards (prepareCrossShardTransaction shards txID batches) good
      (writeAll pre shards)) id =
      if id ∈ good then contents shards id else contents (writeAll pre shards) id := by
  rw [contents_undoShards]
  by_cases h : id ∈ good
  · rw [if_pos h, if_pos h]
    refine undo_restores (fun k hk => contents_writeAll_of_not_mem ?_ (fun b hb => hk b ?_))
    · exact (List.pairwise_append.1 (hpre ▸ batches.sorted)).1
    · rw [hpre]
      exact List.mem_append_left post hb
  · rw [if_neg h, if_neg h]

theorem lookup_delete_self (s : TxJournalStore) (id : Bytes) :
    (s.delete id).lookup (.pending id) = none ∧ (s.delete id).lookup (.committed id) = none := by
  unfold TxJournalStore.delete
  exact ⟨by rw [AList.lookup_erase_ne (by simp), AList.lookup_erase], AList.lookup_erase _ _⟩

theorem lookup_delete_of_ne (s : TxJournalStore) {id j : Bytes} (h : j ≠ id) :
    (s.delete id).lookup (.pending j) = s.lookup (.pending j) ∧
      (s.delete id).lookup (.committed j) = s.lookup (.committed j) := by
  unfold TxJournalStore.delete
  refine ⟨?_, ?_⟩
  · rw [AList.lookup_erase_ne (by simp), AList.lookup_erase_ne (by simpa using h)]
  · rw [AList.lookup_erase_ne (by simpa using h), AList.lookup_erase_ne (by simp)]

/-! ### Acknowledged writes -/

theorem writeCrossShardBatch_ok (h : n.writeCrossShardBatch txID batches out = (n', .ok ())) :
    ∃ journal, n' = { n with shards := writeAll batches.list n.shards, journal := journal } := by
  unfold ShardedNode.writeCrossShardBatch at h
  by_cases hread : out.read = false
  · rw [if_pos hread] at h
    cases h
  by_cases hpend : out.savePending = false
  · rw [if_neg hread] at h
    dsimp only at h
    rw [if_pos hpend] at h
    cases h
  rw [if_neg hread] at h
  dsimp only at h
  rw [if_neg hpend] at h
  split at h
  · cases h
  · rename_i shards happly
    obtain ⟨-, rfl⟩ := applyCrossShardTransaction_isOk happly
    split_ifs at h
    · cases h
    · cases h
      exact ⟨_, rfl⟩
    · cases h

/-- **An acknowledged write has reached every shard it is routed to.** -/
theorem write_ok {batch : List (BatchEntry × Bool)} (hne : batch ≠ [])
    (h : n.write txID batch out = (n', .ok ())) :
    ∃ batches journal, n.shardBatches batch ⟨[], List.Pairwise.nil⟩ = .ok batches ∧
      n' = { n with shards := writeAll batches.list n.shards, journal := journal } := by
  unfold ShardedNode.write at h
  rw [if_neg hne] at h
  cases hb : n.shardBatches batch ⟨[], List.Pairwise.nil⟩ with
  | error err =>
    rw [hb] at h
    cases h
  | ok batches =>
    rw [hb] at h
    dsimp only at h
    split at h
    · rename_i id b hlist
      split_ifs at h
      · cases h
        exact ⟨batches, n.journal, rfl, by rw [hlist]; rfl⟩
      · cases h
    · obtain ⟨journal, rfl⟩ := writeCrossShardBatch_ok h
      exact ⟨batches, journal, rfl, rfl⟩

/-! ### Which operations a shard gets -/

def batchOf (l : List (ℕ × List BatchEntry)) (id : ℕ) : List BatchEntry :=
  match l.find? (fun x => x.1 = id) with
  | none => []
  | some x => x.2

theorem batchOf_cons (j : ℕ) (bs : List BatchEntry) (l : List (ℕ × List BatchEntry)) (id : ℕ) :
    batchOf ((j, bs) :: l) id = if j = id then bs else batchOf l id := by
  unfold batchOf
  by_cases h : j = id
  · rw [List.find?_cons_of_pos (by simpa using h), if_pos h]
  · rw [List.find?_cons_of_neg (by simpa using h), if_neg h]

theorem batchOf_of_mem (hs : l.Pairwise (fun a b => a.1 < b.1)) (h : (id, batch) ∈ l) :
    batchOf l id = batch := by
  induction l with
  | nil => cases h
  | cons x l ih =>
    rw [batchOf_cons]
    rcases List.mem_cons.1 h with rfl | h
    · rw [if_pos rfl]
    · rw [if_neg (List.rel_of_pairwise_cons hs h).ne, ih hs.of_cons h]

theorem batchOf_of_lt (h : ∀ x ∈ l, id < x.1) : batchOf l id = [] := by
  unfold batchOf
  have : l.find? (fun x => x.1 = id) = none := by
    rw [List.find?_eq_none]
    intro x hx hid
    have := h x hx
    have := of_decide_eq_true hid
    omega
  rw [this]

theorem batchOf_addEntry (hs : l.Pairwise (fun a b => a.1 < b.1)) (id : ℕ) (b : BatchEntry)
    (j : ℕ) :
    batchOf (addEntry id b l) j = batchOf l j ++ if j = id then [b] else [] := by
  induction l with
  | nil =>
    rw [addEntry, batchOf_cons]
    by_cases h : id = j
    · simp [h, batchOf]
    · simp [h, Ne.symm h, batchOf]
  | cons x l ih =>
    obtain ⟨i, bs⟩ := x
    obtain ⟨hx, hl⟩ := List.pairwise_cons.1 hs
    rw [addEntry]
    rcases lt_trichotomy id i with hlt | rfl | hlt
    · rw [if_pos hlt, batchOf_cons id]
      by_cases hj : j = id
      · subst hj
        have hnew : batchOf ((i, bs) :: l) j = [] := batchOf_of_lt (fun x hxl => by
          rcases List.mem_cons.1 hxl with rfl | hxl
          · exact hlt
          · exact hlt.trans (hx x hxl))
        rw [if_pos rfl, if_pos rfl, hnew, List.nil_append]
      · rw [if_neg (Ne.symm hj), if_neg hj, List.append_nil]
    · rw [if_neg (lt_irrefl id), if_pos rfl, batchOf_cons, batchOf_cons]
      by_cases hj : j = id
      · rw [if_pos hj.symm, if_pos hj.symm, if_pos hj]
      · rw [if_neg (Ne.symm hj), if_neg (Ne.symm hj), if_neg hj, List.append_nil]
    · rw [if_neg hlt.not_gt, if_neg hlt.ne', batchOf_cons, batchOf_cons, ih hl]
      by_cases hj : i = j
      · rw [if_pos hj, if_pos hj, if_neg (hj ▸ hlt.ne), List.append_nil]
      · rw [if_neg hj, if_neg hj]

theorem contents_writeAll (hs : l.Pairwise (fun a b => a.1 < b.1)) (shards : ℕ → Shard) (id : ℕ) :
    contents (writeAll l shards) id =
      applyAll ((batchOf l id).map BatchEntry.update) (contents shards id) := by
  unfold batchOf
  cases hf : l.find? (fun x => x.1 = id) with
  | none =>
    have hno : id ∉ l.map Prod.fst := by
      rintro hc
      obtain ⟨x, hx, rfl⟩ := List.mem_map.1 hc
      exact absurd (decide_eq_true rfl) (List.find?_eq_none.1 hf x hx)
    funext k
    unfold contents
    rw [writeAll_of_not_mem hno]
    rfl
  | some x =>
    obtain ⟨j, b⟩ := x
    have hj : j = id := by simpa using List.find?_some hf
    subst hj
    funext k
    unfold contents
    rw [writeAll_of_mem hs (List.mem_of_find?_eq_some hf)]
    exact congrFun (Store.lookup_write _ _) k

def Route.writes (r : Route) : List ℕ :=
  if r.migrating ∧ r.secondary ≠ r.primary then [r.primary, r.secondary] else [r.primary]

def ShardedNode.sends (n : ShardedNode) (id : ℕ) (x : BatchEntry × Bool) : Bool :=
  (n.routeForKey x.2 x.1.key).any (fun r => decide (id ∈ r.writes))

/-- **Each shard gets the operations that are routed to it, in order.** -/
theorem shardBatches_spec {batch : List (BatchEntry × Bool)}
    (h : n.shardBatches batch acc = .ok batches) (id : ℕ) :
    batchOf batches.list id = batchOf acc.list id ++ (batch.filter (n.sends id)).map Prod.fst := by
  induction batch generalizing acc with
  | nil =>
    cases h
    rw [List.filter_nil, List.map_nil, List.append_nil]
  | cons x batch ih =>
    obtain ⟨b, up⟩ := x
    rw [ShardedNode.shardBatches] at h
    split_ifs at h
    cases hr : n.routeForKey up b.key with
    | none =>
      rw [hr] at h
      cases h
    | some r =>
      rw [hr] at h
      dsimp only at h
      have hsends : n.sends id (b, up) = decide (id ∈ r.writes) := by
        unfold ShardedNode.sends
        rw [hr]
        rfl
      rw [ih h, List.filter_cons, hsends]
      unfold Route.writes
      split_ifs with hm hin hin
      · change batchOf (addEntry _ b (addEntry _ b acc.list)) id ++ _ = _
        rw [batchOf_addEntry (pairwise_addEntry acc.sorted), batchOf_addEntry acc.sorted]
        have hin := of_decide_eq_true hin
        rw [List.mem_cons, List.mem_singleton] at hin
        rcases hin with rfl | rfl
        · rw [if_pos rfl, if_neg (Ne.symm hm.2)]
          simp
        · rw [if_neg hm.2, if_pos rfl]
          simp
      · change batchOf (addEntry _ b (addEntry _ b acc.list)) id ++ _ = _
        rw [batchOf_addEntry (pairwise_addEntry acc.sorted), batchOf_addEntry acc.sorted]
        simp only [List.mem_cons, List.not_mem_nil, or_false, decide_eq_true_eq, not_or] at hin
        rw [if_neg hin.1, if_neg hin.2, List.append_nil, List.append_nil]
      · change batchOf (addEntry _ b acc.list) id ++ _ = _
        have hin : id = r.primary := by simpa using hin
        rw [batchOf_addEntry acc.sorted, if_pos hin, List.map_cons, List.append_assoc]
        rfl
      · change batchOf (addEntry _ b acc.list) id ++ _ = _
        have hin : id ≠ r.primary := by simpa using hin
        rw [batchOf_addEntry acc.sorted, if_neg hin, List.append_nil]

theorem shardBatches_reserved {batch : List (BatchEntry × Bool)}
    (h : n.shardBatches batch acc = .ok batches) :
    ∀ x ∈ batch, isReservedClusterKey x.1.key = false := by
  induction batch generalizing acc with
  | nil => exact fun x hx => by cases hx
  | cons x batch ih =>
    obtain ⟨b, up⟩ := x
    rw [ShardedNode.shardBatches] at h
    split_ifs at h with hres
    intro y hy
    rcases List.mem_cons.1 hy with rfl | hy
    · simpa using hres
    · cases hr : n.routeForKey up b.key with
      | none =>
        rw [hr] at h
        cases h
      | some r =>
        rw [hr] at h
        exact ih h y hy

/-- **What an acknowledged write does to each shard.** -/
theorem write_ok_contents {batch : List (BatchEntry × Bool)}
    (h : n.write txID batch out = (n', .ok ())) :
    (∃ shards journal, n' = { n with shards := shards, journal := journal }) ∧
      (∀ x ∈ batch, isReservedClusterKey x.1.key = false) ∧
      ∀ id, contents n'.shards id =
        applyAll (((batch.filter (n.sends id)).map Prod.fst).map BatchEntry.update)
          (contents n.shards id) := by
  by_cases hne : batch = []
  · subst hne
    cases h
    exact ⟨⟨n.shards, n.journal, rfl⟩, (fun x hx => by cases hx), fun id => rfl⟩
  · obtain ⟨batches, journal, hb, rfl⟩ := write_ok hne h
    refine ⟨⟨_, _, rfl⟩, shardBatches_reserved hb, fun id => ?_⟩
    rw [contents_writeAll batches.sorted, shardBatches_spec hb]
    rfl

theorem writeCrossShardBatch_frame (n : ShardedNode) (txID : Bytes) (batches : ShardBatches)
    (out : TxOutcome) : ∃ shards journal, (n.writeCrossShardBatch txID batches out).1 =
      { n with shards := shards, journal := journal } := by
  unfold ShardedNode.writeCrossShardBatch
  split
  · exact ⟨n.shards, n.journal, rfl⟩
  · dsimp only
    split
    · exact ⟨n.shards, n.journal, rfl⟩
    · split
      · exact ⟨_, _, rfl⟩
      · split
        · exact ⟨_, _, rfl⟩
        · exact ⟨_, _, rfl⟩

theorem write_frame (n : ShardedNode) (txID : Bytes) (batch : List (BatchEntry × Bool))
    (out : TxOutcome) : ∃ shards journal, (n.write txID batch out).1 =
      { n with shards := shards, journal := journal } := by
  unfold ShardedNode.write
  split
  · exact ⟨n.shards, n.journal, rfl⟩
  · split
    · exact ⟨n.shards, n.journal, rfl⟩
    · split
      · split
        · exact ⟨_, n.journal, rfl⟩
        · exact ⟨n.shards, n.journal, rfl⟩
      · exact writeCrossShardBatch_frame n txID _ out

/-! ### Keys that a write does not touch -/

theorem contents_rollback_of_not_mem (h : ∀ j, k ∉ (r.undoBatch j).map BatchEntry.key) :
    contents (rollbackCrossShardTransaction undo r ids shards).1 id k = contents shards id k := by
  induction ids generalizing shards with
  | nil => rfl
  | cons j ids ih =>
    rw [rollbackCrossShardTransaction]
    split_ifs
    · exact ih
    · exact ih.trans (contents_writeShard_of_not_mem (h j) j)
    · rfl

theorem contents_apply_of_not_mem (hl : ∀ x ∈ l, k ∉ x.2.map BatchEntry.key)
    (h : ∀ j, k ∉ (r.undoBatch j).map BatchEntry.key) :
    contents (applyCrossShardTransaction write undo r l ids shards).1 id k =
      contents shards id k := by
  induction l generalizing ids shards with
  | nil => rfl
  | cons x l ih =>
    obtain ⟨hx, hl⟩ := List.forall_mem_cons.1 hl
    rw [applyCrossShardTransaction]
    split_ifs
    · exact (ih hl).trans (contents_writeShard_of_not_mem hx x.1)
    · exact contents_rollback_of_not_mem h

theorem contents_writeCrossShardBatch_of_not_mem
    (h : ∀ x ∈ batches.list, k ∉ x.2.map BatchEntry.key) :
    contents (n.writeCrossShardBatch txID batches out).1.shards id k = contents n.shards id k := by
  have happly : contents (applyCrossShardTransaction out.write out.undo
      (prepareCrossShardTransaction n.shards txID batches) batches.list [] n.shards).1 id k =
      contents n.shards id k := by
    refine contents_apply_of_not_mem h (fun j hk => ?_)
    -- the old values are noted only for keys of the batches
    obtain ⟨b, hb, rfl⟩ := List.mem_map.1 hk
    obtain ⟨c, hc, hmem, -⟩ := mem_undoBatch.1 (List.mem_map_of_mem hb)
    exact h _ hc hmem
  unfold ShardedNode.writeCrossShardBatch
  split
  · rfl
  · dsimp only
    split
    · rfl
    · generalize applyCrossShardTransaction out.write out.undo _ batches.list [] n.shards = res
        at happly
      obtain ⟨shards, _ | _⟩ := res
      · exact happly
      · dsimp only
        split <;> exact happly

/-- **No write touches a reserved key**, whatever fails. -/
theorem write_reserved (n : ShardedNode) (txID : Bytes) (batch : List (BatchEntry × Bool))
    (out : TxOutcome) (id : ℕ) (hk : isReservedClusterKey k = true) :
    contents (n.write txID batch out).1.shards id k = contents n.shards id k := by
  unfold ShardedNode.write
  split
  · rfl
  · cases hb : n.shardBatches batch ⟨[], List.Pairwise.nil⟩ with
    | error err => rfl
    | ok batches =>
      have hfree : ∀ x ∈ batches.list, k ∉ x.2.map BatchEntry.key := by
        intro x hx hmem
        have hspec := shardBatches_spec hb x.1
        rw [batchOf_of_mem batches.sorted hx] at hspec
        rw [hspec] at hmem
        simp only [batchOf, List.find?_nil, List.nil_append, List.mem_map, List.mem_filter] at hmem
        obtain ⟨-, ⟨y, ⟨hy, -⟩, rfl⟩, rfl⟩ := hmem
        exact absurd hk (by rw [shardBatches_reserved hb y hy]; simp)
      dsimp only
      split
      · rename_i j b hlist
        split
        · exact contents_writeShard_of_not_mem (hfree (j, b) (by rw [hlist]; simp)) j
        · rfl
      · exact contents_writeCrossShardBatch_of_not_mem hfree

end LsmTree
