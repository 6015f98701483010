import LsmTree.Correct.Recover

/-!
# Registering, whatever the cache holds

Registering a reader may evict another one.  Of the readers it can only be said that each was there
before or belongs to a file of the directory (`registerFiles_spec`, `openEngine_eq`).  What a
compaction does to the directory does not depend on that (`stageOutputs_eq`, `dropTables_eq`).
-/

namespace LsmTree

variable {e : LSMEngine} {tc : TableCache} {f : SSTable}

/-! ### Readers -/

theorem TableCache.Unique.readerOf_eq_some (h : tc.Unique) {j : ℕ} :
    tc.readerOf j = some f ↔ ∃ x ∈ tc.entries, x.fileID = j ∧ x.reader = f := by
  unfold TableCache.Unique at h
  unfold TableCache.readerOf
  constructor
  · intro hr
    obtain ⟨x, hx, hf⟩ := Option.map_eq_some_iff.1 hr
    exact ⟨x, List.mem_of_find?_eq_some hx, by simpa using List.find?_some hx, hf⟩
  · rintro ⟨x, hx, rfl, rfl⟩
    obtain ⟨y, hy⟩ : ∃ y, tc.entries.find? (fun y => y.fileID = x.fileID) = some y := by
      rw [← Option.isSome_iff_exists, List.find?_isSome]
      exact ⟨x, hx, by simp⟩
    have hid : y.fileID = x.fileID := by simpa using List.find?_some hy
    have hyx : y = x := List.inj_on_of_nodup_map h (List.mem_of_find?_eq_some hy) hx hid
    rw [hy, hyx]
    rfl

theorem TableCache.Unique.of_register (h : tc.Unique) {id j : ℕ} {t : SSTable}
    (hr : (tc.register id t).readerOf j = some f) : (j = id ∧ f = t) ∨ tc.readerOf j = some f := by
  obtain ⟨x, hx, rfl, rfl⟩ := (h.register id t).readerOf_eq_some.1 hr
  have hold : ∀ y ∈ tc.entries, tc.readerOf y.fileID = some y.reader := fun y hy =>
    h.readerOf_eq_some.2 ⟨y, hy, rfl, rfl⟩
  unfold TableCache.register at hx
  split_ifs at hx with hany hfull
  · exact Or.inr (hold x hx)
  · rcases List.mem_cons.1 hx with rfl | hx
    · exact Or.inl ⟨rfl, rfl⟩
    · refine Or.inr (hold x ?_)
      rw [evictLRU, List.mem_reverse] at hx
      exact List.mem_reverse.1 (List.mem_of_mem_eraseP hx)
  · rcases List.mem_cons.1 hx with rfl | hx
    · exact Or.inl ⟨rfl, rfl⟩
    · exact Or.inr (hold x hx)

def registerFiles (ssts : Files SSTable) (ids : List ℕ) (tc : TableCache) : TableCache :=
  ids.foldl (fun tc id =>
    match ssts.lookup id with
    | some t => tc.register id t
    | none => tc) tc

theorem registerFiles_spec {ssts : Files SSTable} (ids : List ℕ) {tc : TableCache} (h : tc.Unique) :
    (registerFiles ssts ids tc).Unique ∧ ∀ j f, (registerFiles ssts ids tc).readerOf j = some f →
      (j ∈ ids ∧ ssts.lookup j = some f) ∨ tc.readerOf j = some f := by
  induction ids generalizing tc with
  | nil => exact ⟨h, fun _ _ => Or.inr⟩
  | cons id ids ih =>
    rw [registerFiles, List.foldl_cons]
    cases hf : ssts.lookup id with
    | none =>
      obtain ⟨h1, h2⟩ := ih h
      exact ⟨h1, fun j f hj => (h2 j f hj).imp_left (And.imp_left (List.mem_cons_of_mem id))⟩
    | some t =>
      obtain ⟨h1, h2⟩ := ih (h.register id t)
      refine ⟨h1, fun j f hj => ?_⟩
      rcases h2 j f hj with ⟨hj, hjf⟩ | hj
      · exact Or.inl ⟨List.mem_cons_of_mem id hj, hjf⟩
      · rcases h.of_register hj with ⟨rfl, rfl⟩ | hj
        · exact Or.inl ⟨List.mem_cons_self, hf⟩
        · exact Or.inr hj

theorem registerAll_eq {ssts : Files SSTable} {ms : List SSTableMeta} {tc' : TableCache}
    (h : registerAll ssts ms tc = .ok tc') :
    tc' = registerFiles ssts (ms.map SSTableMeta.fileID) tc ∧
      ∀ m ∈ ms, ssts.lookup m.fileID ≠ none := by
  induction ms generalizing tc with
  | nil =>
    cases h
    exact ⟨rfl, fun m hm => by cases hm⟩
  | cons m ms ih =>
    rw [registerAll] at h
    cases hf : ssts.lookup m.fileID with
    | none =>
      rw [hf] at h
      cases h
    | some t =>
      rw [hf] at h
      obtain ⟨rfl, hall⟩ := ih h
      refine ⟨?_, List.forall_mem_cons.2 ⟨by rw [hf]; exact Option.some_ne_none t, hall⟩⟩
      rw [List.map_cons, registerFiles, registerFiles, List.foldl_cons, hf]

theorem openEngine_eq {cfg : Config} {d : DataDir} (hopen : openEngine cfg d = .ok e) :
    ∃ tc, tc.Unique ∧ (∀ id f, tc.readerOf id = some f → d.ssts.lookup id = some f) ∧
      e = ((recoveredEngine cfg.withDefaults d tc).shrink.recordLog d.version.logNumber).exec
        (.appendLog ((recoveredEngine cfg.withDefaults d tc).shrink.recordLog
          d.version.logNumber).logNumber []) := by
  obtain ⟨-, tc, hreg, rfl⟩ := openEngine_ok hopen
  have hreaders := @registerFiles_spec d.ssts
    ((recoverVersion d.edits).tables.map SSTableMeta.fileID)
    (newTableCache cfg.withDefaults.maxOpenFiles) List.nodup_nil
  rw [← (registerAll_eq hreg).1] at hreaders
  exact ⟨tc, hreaders.1, fun id f hf => (hreaders.2 id f hf).elim And.right
    (fun hc => by cases hc), rfl⟩

/-! ### The durable steps of a compaction -/

def CompactionPlan.writeOps (p : CompactionPlan) : List DiskOp :=
  p.outputs.map (fun o => .writeTable o.1.fileID o.2) ++
    if p.outputs.any (fun o => o.1.fileID = p.lastFile) then []
    else [.writeTable p.lastFile ⟨[], none⟩]

theorem foldl_exec_eq {α : Type} (op : α → DiskOp) (l : List α) (e : LSMEngine) :
    l.foldl (fun e a => e.exec (op a)) e = { e with dir := e.dir.execAll (l.map op) } := by
  induction l generalizing e with
  | nil => rfl
  | cons a l ih => exact ih (e.exec (op a))

theorem foldl_register_eq (outs : List (SSTableMeta × SSTable)) (e : LSMEngine) :
    outs.foldl (fun e o => e.register o.1.fileID) e = { e with
      tc := registerFiles e.dir.ssts (outs.map (fun o => o.1.fileID)) e.tc } := by
  induction outs generalizing e with
  | nil => rfl
  | cons o outs ih =>
    rw [List.foldl_cons, ih, List.map_cons, registerFiles, registerFiles, List.foldl_cons]
    unfold LSMEngine.register
    cases e.dir.ssts.lookup o.1.fileID <;> rfl

theorem stageOutputs_eq (e : LSMEngine) (p : CompactionPlan) : e.stageOutputs p = { e with
    nextFileID := p.nextFileID
    dir := e.dir.execAll p.writeOps
    tc := registerFiles (e.dir.execAll p.writeOps).ssts (p.outputs.map (fun o => o.1.fileID))
      p.tc } := by
  unfold LSMEngine.stageOutputs CompactionPlan.writeOps
  simp only
  rw [foldl_exec_eq (fun o : SSTableMeta × SSTable => DiskOp.writeTable o.1.fileID o.2)]
  split_ifs
  · rw [foldl_register_eq, List.append_nil]
  · rw [foldl_register_eq, execAll_append]
    rfl

theorem dropTables_eq (ids : List ℕ) (e : LSMEngine) : e.dropTables ids = { e with
    dir := e.dir.execAll (ids.map DiskOp.removeTable)
    tc := ids.foldl TableCache.unregister e.tc } := by
  induction ids generalizing e with
  | nil => rfl
  | cons id ids ih =>
    exact ih (({ e with tc := e.tc.unregister id } : LSMEngine).exec (.removeTable id))

end LsmTree
