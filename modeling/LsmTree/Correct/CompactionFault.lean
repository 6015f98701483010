import LsmTree.Engine.CompactionFault
import LsmTree.Correct.Eviction

/-!
# The output files of a compaction in which calls may fail

`Merging.Books` says which files a merge under way has created and which of them are outputs; the
merge loop keeps the books (`Merging.Books.mergeLoop`).  A file to which nothing was added is left
behind when the merge goes on to the next one or ends.  If no call fails, the compaction is the one
without faults (`executeCompactionWith_smooth`).
-/

namespace LsmTree

variable {o : CompactionFaults} {m m' : Merging} {f : MergeFailed} {l : ℕ}

variable {id : ℕ} {e : LSMEngine} {exit : CompactionExit} {outputs : List (SSTableMeta × SSTable)}
  {created : List ℕ} {p : Prop} {b : Bool} {xs : List Entry} {prev : Option Bytes}

/-! ### Pins -/

theorem openInputs_pins (i : ℕ) (ms : List SSTableMeta) (tc : TableCache) :
    (openInputs i ms tc).2.2 =
      (ms.map SSTableMeta.fileID).filter (fun id => (tc.readerOf id).isSome) := by
  induction ms generalizing i tc with
  | nil => rfl
  | cons x ms ih =>
    have hsome := tc.get_isSome x.fileID
    rw [openInputs, List.map_cons, List.filter_cons]
    cases hg : tc.get x.fileID with
    | none =>
      rw [hg] at hsome
      rw [← hsome, if_neg (by simp)]
      exact ih (i + 1) tc
    | some y =>
      obtain ⟨t, tc'⟩ := y
      rw [hg] at hsome
      rw [← hsome, if_pos (by simp)]
      simp only
      rw [ih (i + 1) tc', TableCache.readerOf_get hg]

theorem openInputs_sources_of_nil (i : ℕ) (ms : List SSTableMeta) (tc : TableCache)
    (h : (openInputs i ms tc).2.2 = []) : (openInputs i ms tc).1 = [] := by
  induction ms generalizing i tc with
  | nil => rfl
  | cons x ms ih =>
    rw [openInputs] at h ⊢
    cases hg : tc.get x.fileID with
    | none =>
      rw [hg] at h
      exact ih (i + 1) tc h
    | some y =>
      rw [hg] at h
      cases h

/-! ### The merge loop -/

/-- The output files of a merge under way: all are on disk, and the current one is the newest. -/
structure Merging.Books (m : Merging) : Prop where
  last : m.builder.fileID = m.e.nextFileID
  created_le : ∀ id ∈ m.created, id ≤ m.builder.fileID
  current : m.builder.fileID ∈ m.created
  onDisk : ∀ id ∈ m.created, m.e.dir.ssts.lookup id ≠ none
  outputs : ∀ x ∈ m.outputs, x.1.fileID ∈ m.created ∧ x.1.fileID < m.builder.fileID
  fresh : m.builder.numEntries = 0 → m.builder.approxSize = 0

/-- All files are outputs, but for the current one. -/
def Merging.Tidy (m : Merging) : Prop :=
  ∀ id ∈ m.created, id ∈ m.outputs.map (fun x => x.1.fileID) ∨ id = m.builder.fileID

def Merging.Littered (m : Merging) : Prop :=
  ∃ id ∈ m.created, id ∉ m.outputs.map (fun x => x.1.fileID) ∧ id < m.builder.fileID

theorem lookup_writeTable_ne_none {d : DataDir} {j : ℕ} {t : SSTable}
    (h : j = id ∨ d.ssts.lookup j ≠ none) : (d.exec (.writeTable id t)).ssts.lookup j ≠ none := by
  rw [exec_writeTable_ssts]
  split_ifs with hj
  · exact Option.some_ne_none t
  · exact h.resolve_left hj

theorem createOutput_ok (h : createOutput o l exit e outputs created = .ok m') : m' =
      { e := ({ e with nextFileID := e.nextFileID + 1 } : LSMEngine).exec
          (.writeTable (e.nextFileID + 1) ⟨[], none⟩)
        builder := newSSTableBuilder (e.nextFileID + 1) l e.cfg.blockSize e.cfg.bloomBitsPerKey
        outputs := outputs
        created := created ++ [e.nextFileID + 1] } := by
  unfold createOutput at h
  simp only at h
  split_ifs at h
  cases h
  rfl

theorem createOutput_books (h : createOutput o l exit e outputs created = .ok m')
    (hle : ∀ id ∈ created, id ≤ e.nextFileID) (hdisk : ∀ id ∈ created, e.dir.ssts.lookup id ≠ none)
    (houts : ∀ x ∈ outputs, x.1.fileID ∈ created) : m'.Books := by
  rw [createOutput_ok h]
  constructor
  case last => rfl
  case created_le =>
    intro id hid
    rcases List.mem_append.1 hid with hid | hid
    · exact Nat.le_succ_of_le (hle id hid)
    · exact (List.mem_singleton.1 hid).le
  case current => exact List.mem_append_right _ (List.mem_singleton_self _)
  case onDisk =>
    intro id hid
    refine lookup_writeTable_ne_none ?_
    rcases List.mem_append.1 hid with hid | hid
    · exact Or.inr (hdisk id hid)
    · exact Or.inl (List.mem_singleton.1 hid)
  case outputs =>
    intro x hx
    exact ⟨List.mem_append_left _ (houts x hx), Nat.lt_succ_of_le (hle _ (houts x hx))⟩
  case fresh => exact fun _ => rfl

theorem finishOutput_ok (h : m.finishOutput o = .ok (e, outputs)) :
    (0 < m.builder.numEntries ∧ outputs = m.outputs ++ [m.builder.finish] ∧
      e = m.e.exec (.writeTable m.builder.fileID m.builder.finish.2)) ∨
    (m.builder.numEntries = 0 ∧ outputs = m.outputs ∧ e = m.e) := by
  unfold Merging.finishOutput at h
  split_ifs at h with hn
  · cases h
    exact Or.inl ⟨hn, rfl, rfl⟩
  · cases h
    exact Or.inr ⟨Nat.eq_zero_of_not_pos hn, rfl, rfl⟩

theorem Merging.Books.finishOutput (h : m.Books) (hf : m.finishOutput o = .ok (e, outputs)) :
    e.cfg = m.e.cfg ∧ e.nextFileID = m.e.nextFileID ∧ e.tc = m.e.tc ∧
      (∀ id ∈ m.created, e.dir.ssts.lookup id ≠ none) ∧ ∀ x ∈ outputs, x.1.fileID ∈ m.created := by
  rcases finishOutput_ok hf with ⟨-, rfl, rfl⟩ | ⟨-, rfl, rfl⟩
  · refine ⟨rfl, rfl, rfl, fun id hid => lookup_writeTable_ne_none (Or.inr (h.onDisk id hid)), ?_⟩
    intro x hx
    rcases List.mem_append.1 hx with hx | hx
    · exact (h.outputs x hx).1
    · rw [List.mem_singleton.1 hx, finish_fileID]
      exact h.current
  · exact ⟨rfl, rfl, rfl, h.onDisk, fun x hx => (h.outputs x hx).1⟩

theorem mem_outputs_iff (hf : m.finishOutput o = .ok (e, outputs)) :
    id ∈ outputs.map (fun x => x.1.fileID) ↔ id ∈ m.outputs.map (fun x => x.1.fileID) ∨
      (0 < m.builder.numEntries ∧ id = m.builder.fileID) := by
  rcases finishOutput_ok hf with ⟨hn, rfl, -⟩ | ⟨hn, rfl, -⟩
  · simp [hn]
  · simp [hn]

theorem not_mem_outputs (h : m.Books) : m.builder.fileID ∉ m.outputs.map (fun x => x.1.fileID) := by
  intro hc
  obtain ⟨x, hx, heq⟩ := List.mem_map.1 hc
  exact absurd heq (h.outputs x hx).2.ne

theorem Merging.Books.newFile (h : m.Books) (hr : m.newFile o l = .ok m') :
    m'.Books ∧ m'.e.cfg = m.e.cfg ∧ m'.builder.numEntries = 0 ∧
      (0 < m.builder.numEntries → m.Tidy → m'.Tidy) ∧ (m.Littered → m'.Littered) ∧
        (m.builder.numEntries = 0 → m'.Littered) := by
  unfold Merging.newFile at hr
  cases hf : m.finishOutput o with
  | error f => rw [hf] at hr; cases hr
  | ok y =>
    obtain ⟨e, outputs⟩ := y
    rw [hf] at hr
    obtain ⟨hcfg, hnext, -, hdisk, houts⟩ := h.finishOutput hf
    have hle : ∀ id ∈ m.created, id ≤ e.nextFileID := fun id hid => by
      rw [hnext, ← h.last]
      exact h.created_le id hid
    have hb := createOutput_books hr hle hdisk houts
    obtain rfl := createOutput_ok hr
    refine ⟨hb, hcfg, rfl, fun hn ht id hid => ?_, ?_, fun hn => ?_⟩
    · rcases List.mem_append.1 hid with hid | hid
      · refine Or.inl ((mem_outputs_iff hf).2 ?_)
        exact (ht id hid).imp_right fun heq => ⟨hn, heq⟩
      · exact Or.inr (List.mem_singleton.1 hid)
    · rintro ⟨id, hid, hno, hlt⟩
      refine ⟨id, List.mem_append_left _ hid, fun hc => ?_, Nat.lt_succ_of_le (hle id hid)⟩
      rcases (mem_outputs_iff hf).1 hc with hc | ⟨-, hc⟩
      · exact hno hc
      · exact absurd hc hlt.ne
    · refine ⟨m.builder.fileID, List.mem_append_left _ h.current, fun hc => ?_,
        Nat.lt_succ_of_le (hle _ h.current)⟩
      rcases (mem_outputs_iff hf).1 hc with hc | ⟨hpos, -⟩
      · exact not_mem_outputs h hc
      · exact absurd hpos (by omega)

theorem add_numEntries (b : SSTableBuilder) (x : Entry) :
    (b.add x).numEntries = b.numEntries + 1 := by
  unfold SSTableBuilder.add
  simp only
  split_ifs <;> rfl

theorem Merging.Books.add (h : m.Books) (x : Entry) :
    ({ m with builder := m.builder.add x } : Merging).Books where
  last := (add_fileID _ _).trans h.last
  created_le id hid := (h.created_le id hid).trans (add_fileID _ _).ge
  current := by
    rw [add_fileID]
    exact h.current
  onDisk := h.onDisk
  outputs y hy := by
    rw [add_fileID]
    exact h.outputs y hy
  fresh hn := by
    rw [add_numEntries] at hn
    exact absurd hn (Nat.succ_ne_zero _)

/-- What the merge loop does to the output files, where `max` is the size at which it goes on to
the next file. -/
structure Merging.Advance (m m' : Merging) (written : Prop) : Prop where
  books : m'.Books
  cfg : m'.e.cfg = m.e.cfg
  entries : 0 < m'.builder.numEntries ↔ 0 < m.builder.numEntries ∨ written
  tidy : 0 < m.e.cfg.sstMaxSize → m.Tidy → m'.Tidy
  littered : m.Littered → m'.Littered
  empty : m.e.cfg.sstMaxSize = 0 → m.builder.numEntries = 0 → written → m'.Littered

theorem Merging.Books.roll (h : m.Books) (hr : m.roll o l = .ok m') (x : Entry) :
    m.Advance { m' with builder := m'.builder.add x } True := by
  have hid := add_fileID m'.builder x
  have hn := add_numEntries m'.builder x
  unfold Merging.roll at hr
  split_ifs at hr with hfull
  · obtain ⟨hb, hcfg, -, htidy, hlit, hempty⟩ := h.newFile hr
    refine ⟨hb.add x, hcfg, ?_, fun hmax ht id hid' => ?_, fun hl => ?_, fun _ hzero _ => ?_⟩
    · simp only [hn, or_true, iff_true]
      exact Nat.succ_pos _
    · have hpos : 0 < m.builder.numEntries := by
        by_contra hzero
        have := h.fresh (Nat.eq_zero_of_not_pos hzero)
        omega
      simp only [hid]
      exact htidy hpos ht id hid'
    · obtain ⟨id, h1, h2, h3⟩ := hlit hl
      exact ⟨id, h1, h2, h3.trans_le hid.ge⟩
    · obtain ⟨id, h1, h2, h3⟩ := hempty hzero
      exact ⟨id, h1, h2, h3.trans_le hid.ge⟩
  · cases hr
    refine ⟨h.add x, rfl, ?_, fun _ ht id hid' => ?_, fun hl => ?_, fun hmax => ?_⟩
    · simp only [hn, or_true, iff_true]
      exact Nat.succ_pos _
    · simp only [hid]
      exact ht id hid'
    · obtain ⟨id, h1, h2, h3⟩ := hl
      exact ⟨id, h1, h2, h3.trans_le hid.ge⟩
    · exact absurd (hmax.le.trans (Nat.zero_le _)) hfull

theorem Merging.Advance.refl (h : m.Books) : m.Advance m False :=
  ⟨h, rfl, by simp, fun _ ht => ht, id, fun _ _ hc => hc.elim⟩

theorem Merging.Advance.trans {m₁ m₂ : Merging} (h : m.Advance m₁ True) (h' : m₁.Advance m₂ p) :
    m.Advance m₂ True where
  books := h'.books
  cfg := h'.cfg.trans h.cfg
  entries := by
    rw [h'.entries, h.entries]
    simp
  tidy hmax ht := h'.tidy (by rw [h.cfg]; exact hmax) (h.tidy hmax ht)
  littered hl := h'.littered (h.littered hl)
  empty hmax hzero _ := h'.littered (h.empty hmax hzero trivial)

theorem Merging.Advance.congr {q : Prop} (h : m.Advance m' p) (hpq : p ↔ q) :
    m.Advance m' q := propext hpq ▸ h

/-- **The output files after the merge loop.** -/
theorem Merging.Books.mergeLoop (h : m.Books) (hr : mergeLoop o l b xs prev m = .ok m') :
    m.Advance m' (kept b xs prev ≠ []) := by
  induction xs generalizing prev m with
  | nil =>
    cases hr
    exact (Merging.Advance.refl h).congr (by simp [kept])
  | cons x xs ih =>
    rw [LsmTree.mergeLoop] at hr
    rw [kept]
    by_cases hdup : prev = some x.key.userKey
    · rw [if_pos hdup] at hr ⊢
      exact ih h hr
    rw [if_neg hdup] at hr ⊢
    by_cases hdel : x.key.type = .deletion ∧ b
    · simp only [if_pos hdel] at hr ⊢
      exact ih h hr
    simp only [if_neg hdel] at hr ⊢
    cases hroll : m.roll o l with
    | error f => rw [hroll] at hr; cases hr
    | ok m₁ =>
      simp only [hroll] at hr
      split_ifs at hr
      have hstep := h.roll hroll x
      exact (hstep.trans (ih hstep.books hr)).congr (by simp)

theorem createOutput_error (h : createOutput o l exit e outputs created = .error f) :
    f.exit = exit ∧ f.created = created := by
  unfold createOutput at h
  simp only at h
  split_ifs at h
  cases h
  exact ⟨rfl, rfl⟩

theorem finishOutput_error (h : m.finishOutput o = .error f) : f = ⟨.finish, m.e, m.created⟩ := by
  unfold Merging.finishOutput at h
  split_ifs at h
  cases h
  rfl

theorem roll_error (h : m.roll o l = .error f) : f.exit = .create ∨ f.exit = .finish := by
  unfold Merging.roll Merging.newFile at h
  split_ifs at h
  cases hf : m.finishOutput o with
  | error f' =>
    rw [hf] at h
    cases h
    exact Or.inr (by rw [finishOutput_error hf])
  | ok y =>
    rw [hf] at h
    exact Or.inl (createOutput_error h).1

theorem mergeLoop_error (hr : mergeLoop o l b xs prev m = .error f) :
    xs ≠ [] ∧ (f.exit = .create ∨ f.exit = .add ∨ f.exit = .finish) := by
  induction xs generalizing prev m with
  | nil => cases hr
  | cons x xs ih =>
    refine ⟨List.cons_ne_nil _ _, ?_⟩
    rw [LsmTree.mergeLoop] at hr
    by_cases hdup : prev = some x.key.userKey
    · rw [if_pos hdup] at hr
      exact (ih hr).2
    rw [if_neg hdup] at hr
    by_cases hdel : x.key.type = .deletion ∧ b
    · simp only [if_pos hdel] at hr
      exact (ih hr).2
    simp only [if_neg hdel] at hr
    cases hroll : m.roll o l with
    | error f' =>
      simp only [hroll] at hr
      cases hr
      exact (roll_error hroll).imp_right Or.inr
    | ok m₁ =>
      simp only [hroll] at hr
      split_ifs at hr
      · exact (ih hr).2
      · cases hr
        exact Or.inr (Or.inl rfl)

/-! ### After the merge loop -/

theorem foldl_unregister_readerOf (ids : List ℕ) (e : LSMEngine) (h : id ∈ ids) :
    (ids.foldl (fun e id => ({ e with tc := e.tc.unregister id } : LSMEngine)) e).tc.readerOf id =
      none := by
  have hgone : ∀ (ids : List ℕ) (e : LSMEngine), e.tc.readerOf id = none →
      (ids.foldl (fun e id => ({ e with tc := e.tc.unregister id } : LSMEngine)) e).tc.readerOf id =
        none := by
    intro ids
    induction ids with
    | nil => exact fun e he => he
    | cons j ids ih =>
      intro e he
      refine ih _ ?_
      change (e.tc.unregister j).readerOf id = none
      rw [TableCache.readerOf_unregister]
      split_ifs
      · rfl
      · exact he
  induction ids generalizing e with
  | nil => cases h
  | cons j ids ih =>
    by_cases hmem : id ∈ ids
    · exact ih _ hmem
    · obtain rfl : id = j := (List.mem_cons.1 h).resolve_right hmem
      refine hgone ids _ ?_
      change (e.tc.unregister id).readerOf id = none
      rw [TableCache.readerOf_unregister, if_pos rfl]

theorem foldl_unregister_dir (ids : List ℕ) (e : LSMEngine) :
    (ids.foldl (fun e id => ({ e with tc := e.tc.unregister id } : LSMEngine)) e).dir = e.dir := by
  induction ids generalizing e with
  | nil => rfl
  | cons j ids ih => exact ih _

theorem registerOutputs_spec (done ids : List ℕ) (e : LSMEngine) :
    (registerOutputs o done ids e).1.dir = e.dir ∧
      ((registerOutputs o done ids e).2.2 = true →
        (registerOutputs o done ids e).2.1 = done ++ ids) ∧
      ((registerOutputs o done ids e).2.2 = false → ids ≠ [] ∧
        ∀ id ∈ (registerOutputs o done ids e).2.1,
          (registerOutputs o done ids e).1.tc.readerOf id = none) := by
  induction ids generalizing done e with
  | nil => exact ⟨rfl, fun _ => (List.append_nil _).symm, fun h => by cases h⟩
  | cons id ids ih =>
    rw [registerOutputs]
    split_ifs
    · obtain ⟨hdir, hok, hbad⟩ := ih (done ++ [id]) (e.register id)
      refine ⟨hdir.trans ?_, fun h => ?_, fun h => ⟨List.cons_ne_nil _ _, (hbad h).2⟩⟩
      · unfold LSMEngine.register
        split <;> rfl
      · rw [hok h, List.append_assoc]
        rfl
    · refine ⟨foldl_unregister_dir done e, ?_, ?_⟩
      · intro h
        cases h
      · exact fun _ => ⟨List.cons_ne_nil _ _, fun j hj => foldl_unregister_readerOf done e hj⟩

theorem applyAll_frame (edits : List VersionEdit) (res : ℕ → WriteResult) (e : LSMEngine) :
    (e.applyAll edits res).1.dir.ssts = e.dir.ssts ∧ (e.applyAll edits res).1.tc = e.tc := by
  induction edits generalizing e res with
  | nil => exact ⟨rfl, rfl⟩
  | cons edit edits ih =>
    rw [LSMEngine.applyAll]
    cases hr : e.apply edit (res 0) with
    | mk e' ok =>
      have he' : e' = (e.apply edit (res 0)).1 := by rw [hr]
      cases ok with
      | false =>
        rw [he']
        exact ⟨rfl, rfl⟩
      | true =>
        obtain ⟨h1, h2⟩ := ih (fun i => res (i + 1)) e'
        refine ⟨h1.trans ?_, h2.trans ?_⟩ <;> rw [he'] <;> rfl

theorem applyIgnore_frame (edits : List VersionEdit) (res : ℕ → WriteResult) (e : LSMEngine) :
    (e.applyIgnore edits res).dir.ssts = e.dir.ssts ∧ (e.applyIgnore edits res).tc = e.tc := by
  induction edits generalizing e res with
  | nil => exact ⟨rfl, rfl⟩
  | cons edit edits ih => exact ih (fun i => res (i + 1)) (e.apply edit (res 0)).1

theorem rollback_frame (e : LSMEngine) (p : CompactionPlan) (res : ℕ → WriteResult) (j : ℕ) :
    (e.rollback p l res).dir.ssts.lookup j =
        (if j ∈ p.outputs.map (fun x => x.1.fileID) then none else e.dir.ssts.lookup j) ∧
      (j ∈ p.outputs.map (fun x => x.1.fileID) → (e.rollback p l res).tc.readerOf j = none) := by
  unfold LSMEngine.rollback
  obtain ⟨hs, ht⟩ := applyIgnore_frame (p.outputs.map (fun o => deleteEdit l o.1.fileID)) res
    (e.dropTables (p.outputs.map (fun o => o.1.fileID)))
  obtain ⟨ssts, tc, heq, -, hssts, htc⟩ := dropTables_spec (p.outputs.map (fun o => o.1.fileID)) e
  rw [hs, ht, heq]
  refine ⟨hssts j, fun hj => ?_⟩
  change tc.readerOf j = none
  rw [htc, if_pos hj]

/-! ### Where only the manifest fails -/

structure CompactionFaults.Smooth (o : CompactionFaults) : Prop where
  create : ∀ id, o.create id = true
  add : ∀ id i, o.add id i = true
  finish : ∀ id, o.finish id = true
  register : ∀ id, o.register id = true

def withOutputs (d : DataDir) (outputs : List (SSTableMeta × SSTable)) : DataDir :=
  d.execAll (outputs.map (fun x => .writeTable x.1.fileID x.2))

/-- The merge is where the planned one is: besides the outputs it has written the current file,
empty yet. -/
structure Merging.Follows (m : Merging) (e : LSMEngine) (st : CompactState) : Prop where
  engine : m.e = { e with
    nextFileID := st.nextFileID
    dir := (withOutputs e.dir st.outputs).exec (.writeTable st.builder.fileID ⟨[], none⟩) }
  builder : m.builder = st.builder
  outputs : m.outputs = st.outputs
  books : m.Books

variable {st : CompactState}

theorem Merging.Follows.finishOutput (h : m.Follows e st) (hs : o.Smooth) :
    m.finishOutput o = .ok (if 0 < st.builder.numEntries then
      { e with nextFileID := st.nextFileID, dir := withOutputs e.dir st.finishOutput } else m.e,
      st.finishOutput) := by
  unfold Merging.finishOutput CompactState.finishOutput
  rw [h.builder, h.outputs, hs.finish, if_pos rfl]
  split_ifs
  · have htwice : ((withOutputs e.dir st.outputs).exec
        (.writeTable st.builder.fileID ⟨[], none⟩)).exec
          (.writeTable st.builder.fileID st.builder.finish.2) =
        withOutputs e.dir (st.outputs ++ [st.builder.finish]) := by
      unfold withOutputs
      rw [List.map_append, execAll_append]
      change _ = DataDir.exec _ (.writeTable st.builder.finish.1.fileID st.builder.finish.2)
      rw [finish_fileID]
      simp only [DataDir.exec, AList.insert_insert]
    rw [h.engine, ← htwice]
    rfl
  · rfl

theorem Merging.Follows.roll (h : m.Follows e st) (hs : o.Smooth) (hpos : 0 < e.cfg.sstMaxSize) :
    ∃ m', m.roll o l = .ok m' ∧ m'.Follows e (if e.cfg.sstMaxSize ≤ st.builder.approxSize then
      newOutput e.cfg l st.nextFileID st.finishOutput else st) := by
  have hcfg : m.e.cfg = e.cfg := by rw [h.engine]
  unfold Merging.roll
  rw [hcfg, h.builder]
  split_ifs with hfull
  · have hentries : 0 < st.builder.numEntries := by
      by_contra hzero
      have := h.books.fresh (by rw [h.builder]; omega)
      rw [h.builder] at this
      omega
    have hfinish := h.finishOutput hs
    rw [if_pos hentries] at hfinish
    have hnew : m.newFile o l = createOutput o l .create
        { e with nextFileID := st.nextFileID, dir := withOutputs e.dir st.finishOutput }
        st.finishOutput m.created := by
      rw [Merging.newFile, hfinish]
    have hcreate : ∃ m', m.newFile o l = .ok m' := by
      rw [hnew, createOutput]
      simp only [hs.create, if_true]
      exact ⟨_, rfl⟩
    obtain ⟨m', hm'⟩ := hcreate
    have heq := createOutput_ok (hnew ▸ hm')
    refine ⟨m', hm', ?_, ?_, ?_, (h.books.newFile hm').1⟩
    all_goals
      rw [heq]
      rfl
  · exact ⟨m, rfl, h⟩

theorem Merging.Follows.mergeLoop (h : m.Follows e st) (hs : o.Smooth)
    (hpos : 0 < e.cfg.sstMaxSize) : ∃ m', mergeLoop o l b xs prev m = .ok m' ∧
      m'.Follows e (compactLoop e.cfg l b xs prev st) := by
  induction xs generalizing prev m st with
  | nil => exact ⟨m, rfl, h⟩
  | cons x xs ih =>
    rw [LsmTree.mergeLoop, compactLoop]
    by_cases hdup : prev = some x.key.userKey
    · rw [if_pos hdup, if_pos hdup]
      exact ih h
    rw [if_neg hdup, if_neg hdup]
    by_cases hdel : x.key.type = .deletion ∧ b
    · simp only [if_pos hdel]
      exact ih h
    obtain ⟨m₁, hroll, h₁⟩ := @Merging.Follows.roll o m l e st h hs hpos
    simp only [if_neg hdel, hroll, hs.add, Bool.true_or, if_true]
    refine ih ⟨?_, ?_, h₁.outputs, h₁.books.add x⟩
    · rw [h₁.engine, add_fileID]
    · rw [h₁.builder]

theorem registerOutputs_smooth (hs : o.Smooth) (done ids : List ℕ) (e : LSMEngine) :
    registerOutputs o done ids e = (ids.foldl LSMEngine.register e, done ++ ids, true) := by
  induction ids generalizing done e with
  | nil => simp [registerOutputs]
  | cons id ids ih => simp [registerOutputs, hs.register, ih]

theorem Merging.Follows.staged (h : m.Follows e st) (hs : o.Smooth) {p : CompactionPlan}
    (houts : p.outputs = st.finishOutput) (hlast : p.lastFile = st.builder.fileID) :
    m.finishOutput o = .ok ({ e with
      nextFileID := st.nextFileID, dir := e.dir.execAll p.writeOps }, p.outputs) := by
  rw [h.finishOutput hs, houts]
  congr 2
  unfold CompactionPlan.writeOps
  rw [houts, hlast, CompactState.finishOutput]
  split_ifs with hn hany hany
  · rw [List.append_nil]
    rfl
  · exact absurd (by simp [finish_fileID]) hany
  · -- the current file is none of the outputs
    refine absurd ?_ (not_mem_outputs h.books)
    rw [h.builder, h.outputs]
    simpa using hany
  · rw [h.engine, execAll_append]
    rfl

theorem Merging.Follows.commit {tc : TableCache} (h : m.Follows { e with tc := tc } st)
    (hs : o.Smooth) (inputs : List SSTableMeta) (pins : List ℕ) {p : CompactionPlan}
    (hp : p = ⟨inputs, st.finishOutput, st.builder.fileID, st.nextFileID,
      pins.foldl TableCache.release tc⟩) :
    ((m.commit o inputs l pins).e, decide ((m.commit o inputs l pins).exit = .success)) =
      match (e.stageOutputs p).applyAll p.commitEdits o.apply with
      | (e, true) => (e.dropTables (p.inputs.map SSTableMeta.fileID), true)
      | (e, false) => (e.rollback p l o.rollback, false) := by
  have hreleased : Merging.Follows { m with e := { m.e with
      tc := pins.foldl TableCache.release m.e.tc } } { e with tc := p.tc } st := by
    refine ⟨?_, h.builder, h.outputs, ⟨h.books.last, h.books.created_le, h.books.current,
      h.books.onDisk, h.books.outputs, h.books.fresh⟩⟩
    rw [h.engine, hp]
  have hfinish := @Merging.Follows.staged o _ _ st hreleased hs p (by rw [hp]) (by rw [hp])
  have hregister := registerOutputs_smooth hs [] (p.outputs.map (fun x => x.1.fileID))
    { e with tc := p.tc, nextFileID := st.nextFileID, dir := e.dir.execAll p.writeOps }
  rw [List.foldl_map, foldl_register_eq] at hregister
  have hstage : e.stageOutputs p = _ := stageOutputs_eq e p
  have hplan : CompactionPlan.mk inputs p.outputs m.builder.fileID st.nextFileID p.tc = p := by
    rw [h.builder, hp]
  have hnext : p.nextFileID = st.nextFileID := by rw [hp]
  have hin : p.inputs = inputs := by rw [hp]
  rw [hnext] at hstage
  unfold Merging.commit
  simp only [hfinish, hplan, hregister, hstage, hin]
  generalize LSMEngine.applyAll _ p.commitEdits o.apply = applied
  obtain ⟨e', ok⟩ := applied
  cases ok <;> rfl

/-- **Without other failures** a compaction is the one whose outcome depends on the manifest
alone. -/
theorem executeCompactionWith_smooth (hs : o.Smooth) (hpos : 0 < e.cfg.sstMaxSize)
    (inputs : List SSTableMeta) :
    ((e.executeCompactionWith inputs l o).e,
        decide ((e.executeCompactionWith inputs l o).exit = .success)) =
      e.executeCompaction inputs l o.apply o.rollback := by
  generalize hp : e.planCompaction inputs l = p
  unfold LSMEngine.executeCompactionWith LSMEngine.executeCompaction
  dsimp only
  set opened := openInputs 0 (inputs.insertionSort inputLe) e.tc with hopened
  obtain ⟨m₀, hm₀⟩ : ∃ m₀, createOutput o l .createFirst { e with tc := opened.2.1 } [] [] =
      .ok m₀ := by
    simp only [createOutput, hs.create, if_true]
    exact ⟨_, rfl⟩
  have h₀ : m₀.Follows { e with tc := opened.2.1 } (newOutput e.cfg l e.nextFileID []) := by
    refine ⟨?_, ?_, ?_, createOutput_books hm₀ ?_ ?_ ?_⟩
    any_goals exact fun _ hx => absurd hx List.not_mem_nil
    all_goals
      rw [createOutput_ok hm₀]
      rfl
  obtain ⟨m, hloop, h⟩ := @Merging.Follows.mergeLoop o m₀ l _ (decide (l + 1 = e.cfg.maxLevel))
    ((KWayMerge.mergeAll mergeLess opened.1).map MergeEntry.entry) none _ h₀ hs hpos
  simp only [← hopened, hm₀, hloop, hp]
  exact h.commit hs _ opened.2.2 hp.symm

end LsmTree
