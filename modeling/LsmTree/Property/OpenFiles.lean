import LsmTree.Correct.Listing

/-!
# Reads and the limit on open files

`MaxOpenFiles` bounds the table cache.  Two engines that go through the same steps under different
limits stay equal but for their caches, and the caches keep the same readers (`SameReaders`), as
long as neither has to evict one; so they answer all reads alike (`reads_eq_of_room`).  An evicted
reader is never opened again, and its table is missing from all later reads (`twoTables_differ`).
-/

namespace LsmTree

variable {evs : List Event}

/-! ### Engines that differ in their caches -/

def LSMEngine.withCache (e : LSMEngine) (n : ℤ) (tc : TableCache) : LSMEngine :=
  { e with cfg := { e.cfg with maxOpenFiles := n }, tc := tc }

structure TableCache.Same (tc tc' : TableCache) : Prop where
  readers : tc'.readerOf = tc.readerOf
  left : tc.Unique
  right : tc'.Unique

/-- Two engines that are equal but for their limits and caches, which have the same readers. -/
def SameReaders (e e' : LSMEngine) : Prop := ∃ n tc, e' = e.withCache n tc ∧ e.tc.Same tc

/-- A step that neither looks at the cache nor changes it. -/
def CacheBlind (f : LSMEngine → LSMEngine) : Prop :=
  ∀ e n tc, f (e.withCache n tc) = (f e).withCache n tc

variable {e e' : LSMEngine} {f g : LSMEngine → LSMEngine} {tc tc' : TableCache}

theorem CacheBlind.tc_eq (hf : CacheBlind f) (e : LSMEngine) : (f e).tc = e.tc := by
  have h := congrArg LSMEngine.tc (hf e e.cfg.maxOpenFiles e.tc)
  exact h

theorem CacheBlind.comp (hg : CacheBlind g) (hf : CacheBlind f) : CacheBlind (fun e => g (f e)) :=
  fun e n tc => (congrArg g (hf e n tc)).trans (hg (f e) n tc)

theorem SameReaders.map (h : SameReaders e e') (hf : CacheBlind f) : SameReaders (f e) (f e') := by
  obtain ⟨n, tc, rfl, htc⟩ := h
  refine ⟨n, tc, hf e n tc, ?_⟩
  rw [hf.tc_eq]
  exact htc

theorem SameReaders.unique (h : SameReaders e e') : e.tc.Unique ∧ e'.tc.Unique := by
  obtain ⟨n, tc, rfl, htc⟩ := h
  exact ⟨htc.left, htc.right⟩

theorem cacheBlind_exec (op : DiskOp) : CacheBlind (fun e => e.exec op) := fun _ _ _ => rfl

theorem cacheBlind_apply (edit : VersionEdit) (res : WriteResult) :
    CacheBlind (fun e => (e.apply edit res).1) := fun _ _ _ => rfl

theorem cacheBlind_rotate : CacheBlind (fun e => e.rotateMemTable.1) := by
  intro e n tc
  have hready : (e.withCache n tc).rotateReady = e.rotateReady := rfl
  simp only [LSMEngine.rotateMemTable, hready]
  cases e.rotateReady <;> rfl

theorem cacheBlind_rotateIfFull : CacheBlind (fun e => e.rotateIfFull.1) := by
  intro e n tc
  have hfull : (e.withCache n tc).memTable = e.memTable := rfl
  simp only [LSMEngine.rotateIfFull, hfull]
  split_ifs
  · exact cacheBlind_rotate e n tc
  · rfl

theorem accept_withCache (e : LSMEngine) (n : ℤ) (tc : TableCache) (op : WriteOp) :
    (e.withCache n tc).accept op = ((e.accept op).1.withCache n tc, (e.accept op).2) := by
  have hcfg : (e.withCache n tc).cfg.maxValueSize = e.cfg.maxValueSize := rfl
  have hbg : (e.withCache n tc).bgError = e.bgError := rfl
  have hseq : (e.withCache n tc).seqNo = e.seqNo := rfl
  cases op with
  | put key value =>
    simp only [LSMEngine.accept, hcfg, hbg]
    split_ifs <;> rfl
  | delete key =>
    simp only [LSMEngine.accept, hbg]
    split_ifs <;> rfl
  | write batch =>
    simp only [LSMEngine.accept, hcfg, hbg, hseq]
    split_ifs
    · rfl
    · rfl
    · rcases stampBatch e.cfg.maxValueSize e.seqNo batch with ⟨s, _ | ws⟩ <;> rfl

theorem cacheBlind_submit (op : WriteOp) : CacheBlind (fun e => (e.submit op).1) := by
  intro e n tc
  simp only [LSMEngine.submit, accept_withCache]
  rcases e.accept op with ⟨e₁, err | ws⟩
  · rfl
  · cases ws with
    | nil => rfl
    | cons w ws =>
      have hlog : ((e₁.withCache n tc).logWrite (w :: ws)).insertEntries (w :: ws) =
          ((e₁.logWrite (w :: ws)).insertEntries (w :: ws)).withCache n tc := by
        have hsync : (e₁.withCache n tc).cfg.syncWAL = e₁.cfg.syncWAL := rfl
        simp only [LSMEngine.logWrite, hsync]
        split_ifs <;> rfl
      simp only [hlog]
      exact cacheBlind_rotateIfFull _ n tc

/-! ### Registering and dropping readers -/

theorem TableCache.Same.register (h : tc.Same tc') (hroom : tc.entries.length < tc.cap)
    (hroom' : tc'.entries.length < tc'.cap) (id : ℕ) (t : SSTable) :
    (tc.register id t).Same (tc'.register id t) := by
  refine ⟨?_, h.left.register id t, h.right.register id t⟩
  by_cases hnew : tc.readerOf id = none
  · have hnew' : tc'.readerOf id = none := by rw [h.readers]; exact hnew
    funext j
    rw [readerOf_register hnew hroom, readerOf_register hnew' hroom', h.readers]
  · have hold : ∀ {c : TableCache}, c.readerOf id ≠ none → c.register id t = c := by
      intro c hc
      rw [Ne, readerOf_eq_none, not_not] at hc
      exact if_pos hc
    rw [hold hnew, hold (by rw [h.readers]; exact hnew)]
    exact h.readers

theorem TableCache.Same.unregister (h : tc.Same tc') (id : ℕ) :
    (tc.unregister id).Same (tc'.unregister id) := by
  refine ⟨?_, h.left.unregister id, h.right.unregister id⟩
  funext j
  rw [readerOf_unregister, readerOf_unregister, h.readers]

theorem register_withCache (e : LSMEngine) (n : ℤ) (tc : TableCache) (id : ℕ) :
    (e.withCache n tc).register id =
      e.withCache n (match e.dir.ssts.lookup id with
        | some t => tc.register id t
        | none => tc) := by
  have hdir : (e.withCache n tc).dir = e.dir := rfl
  simp only [LSMEngine.register, hdir]
  cases e.dir.ssts.lookup id <;> rfl

theorem SameReaders.register (h : SameReaders e e') (hroom : e.tc.entries.length < e.tc.cap)
    (hroom' : e'.tc.entries.length < e'.tc.cap) (id : ℕ) :
    SameReaders (e.register id) (e'.register id) := by
  obtain ⟨n, tc, rfl, htc⟩ := h
  rw [register_withCache]
  unfold LSMEngine.register
  cases e.dir.ssts.lookup id with
  | none => exact ⟨n, tc, rfl, htc⟩
  | some t => exact ⟨n, tc.register id t, rfl, htc.register hroom hroom' id t⟩

theorem register_length_le (e : LSMEngine) (id : ℕ) :
    (e.register id).tc.entries.length ≤ e.tc.entries.length + 1 ∧
      (e.register id).tc.cap = e.tc.cap := by
  unfold LSMEngine.register
  cases e.dir.ssts.lookup id with
  | none => exact ⟨Nat.le_succ _, rfl⟩
  | some t => exact ⟨e.tc.register_length_le id t, e.tc.register_cap id t⟩

theorem SameReaders.foldl_register {outs : List (SSTableMeta × SSTable)} (h : SameReaders e e')
    (hroom : e.tc.entries.length + outs.length ≤ e.tc.cap)
    (hroom' : e'.tc.entries.length + outs.length ≤ e'.tc.cap) :
    SameReaders (outs.foldl (fun e o => e.register o.1.fileID) e)
      (outs.foldl (fun e o => e.register o.1.fileID) e') := by
  induction outs generalizing e e' with
  | nil => exact h
  | cons o outs ih =>
    rw [List.length_cons] at hroom hroom'
    obtain ⟨h1, h2⟩ := register_length_le e o.1.fileID
    obtain ⟨h1', h2'⟩ := register_length_le e' o.1.fileID
    refine ih (h.register (by omega) (by omega) _) ?_ ?_
    · change (e.register o.1.fileID).tc.entries.length + _ ≤ (e.register o.1.fileID).tc.cap
      omega
    · change (e'.register o.1.fileID).tc.entries.length + _ ≤ (e'.register o.1.fileID).tc.cap
      omega

theorem SameReaders.dropTables (h : SameReaders e e') (ids : List ℕ) :
    SameReaders (e.dropTables ids) (e'.dropTables ids) := by
  unfold LSMEngine.dropTables
  induction ids generalizing e e' with
  | nil => exact h
  | cons id ids ih =>
    refine ih ?_
    obtain ⟨n, tc, rfl, htc⟩ := h
    exact ⟨n, tc.unregister id, rfl, htc.unregister id⟩

/-! ### Flushes -/

theorem cacheBlind_flushBuild (imm : ImmutableMemtable) :
    CacheBlind (fun e => (e.flushBuild imm).1) := fun _ _ _ => rfl

theorem cacheBlind_removeImmutable (imm : ImmutableMemtable) :
    CacheBlind (fun e => e.removeImmutable imm) := fun _ _ _ => rfl

theorem cacheBlind_flushSeqNo (res : WriteResult) : CacheBlind (fun e => e.flushSeqNo res) :=
  fun _ _ _ => rfl

theorem SameReaders.flushAdd (h : SameReaders e e') (hroom : e.tc.entries.length < e.tc.cap)
    (hroom' : e'.tc.entries.length < e'.tc.cap) (m : SSTableMeta) (res : WriteResult) :
    SameReaders (e.flushAdd m res).1 (e'.flushAdd m res).1 ∧
      (e'.flushAdd m res).2 = (e.flushAdd m res).2 := by
  have hreg := h.register hroom hroom' m.fileID
  refine ⟨hreg.map (cacheBlind_apply _ _), ?_⟩
  obtain ⟨n, tc, heq, -⟩ := hreg
  unfold LSMEngine.flushAdd
  rw [heq]
  rfl

/-- **Flushing a memtable.** -/
theorem SameReaders.flush (h : SameReaders e e') (hroom : e.tc.entries.length < e.tc.cap)
    (hroom' : e'.tc.entries.length < e'.tc.cap) (imm : ImmutableMemtable) :
    SameReaders (e.flush imm {}).1 (e'.flush imm {}).1 ∧
      (e'.flush imm {}).2 = (e.flush imm {}).2 := by
  unfold LSMEngine.flush
  simp only [reduceCtorEq, if_false, if_true, FlushOutcome.addRes]
  split_ifs
  · have hid : CacheBlind (fun e => e.newFileID.1) := fun _ _ _ => rfl
    exact ⟨(h.map hid).map (cacheBlind_removeImmutable imm), rfl⟩
  · have hbuild := h.map (cacheBlind_flushBuild imm)
    have hmeta : (e'.flushBuild imm).2 = (e.flushBuild imm).2 := by
      obtain ⟨n, tc, rfl, -⟩ := h
      rfl
    obtain ⟨hadd, hok⟩ := hbuild.flushAdd
      (by rw [(cacheBlind_flushBuild imm).tc_eq]; exact hroom)
      (by rw [(cacheBlind_flushBuild imm).tc_eq]; exact hroom') (e.flushBuild imm).2 .ok
    rw [hmeta]
    obtain ⟨e₁, ok, he₁⟩ : ∃ e₁ ok, (e.flushBuild imm).1.flushAdd (e.flushBuild imm).2 .ok =
        (e₁, ok) := ⟨_, _, rfl⟩
    obtain ⟨e₁', ok', he₁'⟩ : ∃ e₁ ok, (e'.flushBuild imm).1.flushAdd (e.flushBuild imm).2 .ok =
        (e₁, ok) := ⟨_, _, rfl⟩
    simp only [he₁, he₁'] at hadd hok ⊢
    subst hok
    cases ok' with
    | false => exact ⟨hadd.dropTables [(e.flushBuild imm).2.fileID], rfl⟩
    | true =>
      exact ⟨((hadd.map (cacheBlind_flushSeqNo .ok)).map (cacheBlind_removeImmutable imm)).map
        (cacheBlind_exec _), rfl⟩

theorem SameReaders.flushNext (h : SameReaders e e')
    (hroom : e.flushQueue ≠ [] → e.tc.entries.length < e.tc.cap)
    (hroom' : e'.flushQueue ≠ [] → e'.tc.entries.length < e'.tc.cap) :
    SameReaders (e.flushNext {}) (e'.flushNext {}) := by
  have hqueue : e'.flushQueue = e.flushQueue := by
    obtain ⟨n, tc, rfl, -⟩ := h
    rfl
  unfold LSMEngine.flushNext
  rw [hqueue] at hroom' ⊢
  cases hq : e.flushQueue with
  | nil => exact h
  | cons imm rest =>
    have hne : e.flushQueue ≠ [] := by rw [hq]; exact List.cons_ne_nil _ _
    have hpop : CacheBlind (fun e => { e with flushQueue := rest }) := fun _ _ _ => rfl
    obtain ⟨hflush, hok⟩ := (h.map hpop).flush (hroom hne) (hroom' hne) imm
    obtain ⟨e₁, ok, he₁⟩ : ∃ e₁ ok, ({ e with flushQueue := rest } : LSMEngine).flush imm {} =
        (e₁, ok) := ⟨_, _, rfl⟩
    obtain ⟨e₁', ok', he₁'⟩ : ∃ e₁ ok, ({ e' with flushQueue := rest } : LSMEngine).flush imm {} =
        (e₁, ok) := ⟨_, _, rfl⟩
    simp only [he₁, he₁'] at hflush hok ⊢
    subst hok
    cases ok' with
    | true => exact hflush
    | false =>
      have hpoison : CacheBlind (fun e => { e with bgError := true }) := fun _ _ _ => rfl
      exact (hflush.map hpoison).map (cacheBlind_removeImmutable imm)

/-! ### Compactions -/

theorem compactLoop_maxOpenFiles (cfg : Config) (n : ℤ) (level : ℕ) (bottom : Bool)
    (es : List Entry) (prev : Option Bytes) (st : CompactState) :
    compactLoop { cfg with maxOpenFiles := n } level bottom es prev st =
      compactLoop cfg level bottom es prev st := by
  induction es generalizing prev st with
  | nil => rfl
  | cons x es ih =>
    simp only [compactLoop, ih]
    rfl

theorem SameReaders.planCompaction (h : SameReaders e e') (inputs : List SSTableMeta)
    (level : ℕ) :
    ∃ tc, e'.planCompaction inputs level = { e.planCompaction inputs level with tc := tc } ∧
      (e.planCompaction inputs level).tc.Same tc := by
  refine ⟨(e'.planCompaction inputs level).tc, ?_, ?_, ?_, ?_⟩
  · obtain ⟨n, tc, rfl, htc⟩ := h
    have hsources : (openInputs 0 (inputs.insertionSort inputLe) tc).1 =
        (openInputs 0 (inputs.insertionSort inputLe) e.tc).1 := by
      rw [openInputs_fst, openInputs_fst, htc.readers]
    simp only [LSMEngine.planCompaction, LSMEngine.withCache, hsources, compactLoop_maxOpenFiles]
    rfl
  · obtain ⟨n, tc, rfl, htc⟩ := h
    simp only [LSMEngine.planCompaction, LSMEngine.withCache, foldl_release_readerOf,
      openInputs_readerOf]
    exact htc.readers
  · exact (planCompaction_unique h.unique.1 inputs level).1
  · exact (planCompaction_unique h.unique.2 inputs level).1

theorem cacheBlind_writeOutputs (p : CompactionPlan) : CacheBlind (fun e =>
    let e := p.outputs.foldl (fun e o => e.exec (.writeTable o.1.fileID o.2)) e
    if p.outputs.any (fun o => o.1.fileID = p.lastFile) then e
    else e.exec (.writeTable p.lastFile ⟨[], none⟩)) := by
  have hfold : ∀ outs : List (SSTableMeta × SSTable), CacheBlind (fun e =>
      outs.foldl (fun e o => e.exec (.writeTable o.1.fileID o.2)) e) := by
    intro outs
    induction outs with
    | nil => exact fun _ _ _ => rfl
    | cons o outs ih => exact ih.comp (cacheBlind_exec _)
  intro e n tc
  simp only [hfold p.outputs e n tc]
  split_ifs <;> rfl

theorem SameReaders.stageOutputs (h : SameReaders e e') {p : CompactionPlan} (htc : p.tc.Same tc)
    (hroom : p.tc.entries.length + p.outputs.length ≤ p.tc.cap)
    (hroom' : tc.entries.length + p.outputs.length ≤ tc.cap) :
    SameReaders (e.stageOutputs p) (e'.stageOutputs { p with tc := tc }) := by
  obtain ⟨n, tc₀, rfl, -⟩ := h
  have hstart : SameReaders { e with nextFileID := p.nextFileID, tc := p.tc }
      { e.withCache n tc₀ with nextFileID := p.nextFileID, tc := tc } := ⟨n, tc, rfl, htc⟩
  have hwritten := hstart.map (cacheBlind_writeOutputs p)
  refine hwritten.foldl_register ?_ ?_
  · rw [(cacheBlind_writeOutputs p).tc_eq]
    exact hroom
  · rw [(cacheBlind_writeOutputs p).tc_eq]
    exact hroom'

theorem applyAll_withCache (edits : List VersionEdit) (res : ℕ → WriteResult) (e : LSMEngine)
    (n : ℤ) (tc : TableCache) : (e.withCache n tc).applyAll edits res =
      ((e.applyAll edits res).1.withCache n tc, (e.applyAll edits res).2) := by
  induction edits generalizing e res with
  | nil => rfl
  | cons edit edits ih =>
    obtain ⟨e₁, ok, he₁⟩ : ∃ e₁ ok, e.apply edit (res 0) = (e₁, ok) := ⟨_, _, rfl⟩
    have hc : (e.withCache n tc).apply edit (res 0) = (e₁.withCache n tc, ok) := by
      have h1 : e₁ = (e.apply edit (res 0)).1 := by rw [he₁]
      have h2 : ok = (e.apply edit (res 0)).2 := by rw [he₁]
      rw [h1, h2]
      rfl
    simp only [LSMEngine.applyAll, he₁, hc]
    cases ok with
    | false => rfl
    | true => exact ih _ _

theorem cacheBlind_applyIgnore (edits : List VersionEdit) (res : ℕ → WriteResult) :
    CacheBlind (fun e => e.applyIgnore edits res) := by
  induction edits generalizing res with
  | nil => exact fun _ _ _ => rfl
  | cons edit edits ih => exact (ih _).comp (cacheBlind_apply edit (res 0))

theorem SameReaders.commit (h : SameReaders e e') (p : CompactionPlan) (tc : TableCache)
    (level : ℕ) (res rb : ℕ → WriteResult) :
    SameReaders
      (match e.applyAll p.commitEdits res with
        | (e, true) => (e.dropTables (p.inputs.map SSTableMeta.fileID), true)
        | (e, false) => (e.rollback p level rb, false)).1
      (match e'.applyAll p.commitEdits res with
        | (e, true) => (e.dropTables (p.inputs.map SSTableMeta.fileID), true)
        | (e, false) => (e.rollback { p with tc := tc } level rb, false)).1 := by
  have hblind : CacheBlind (fun e => (e.applyAll p.commitEdits res).1) := fun e n tc =>
    congrArg Prod.fst (applyAll_withCache p.commitEdits res e n tc)
  have hcommit := h.map hblind
  have hok : (e'.applyAll p.commitEdits res).2 = (e.applyAll p.commitEdits res).2 := by
    obtain ⟨n, tc, rfl, -⟩ := h
    rw [applyAll_withCache]
  obtain ⟨e₁, ok, he₁⟩ : ∃ e₁ ok, e.applyAll p.commitEdits res = (e₁, ok) := ⟨_, _, rfl⟩
  obtain ⟨e₁', ok', he₁'⟩ : ∃ e₁ ok, e'.applyAll p.commitEdits res = (e₁, ok) := ⟨_, _, rfl⟩
  simp only [he₁, he₁'] at hcommit hok ⊢
  subst hok
  cases ok' with
  | true => exact hcommit.dropTables _
  | false => exact (hcommit.dropTables _).map (cacheBlind_applyIgnore _ _)

/-- **Compacting a level.** -/
theorem SameReaders.compactLevel (h : SameReaders e e') {level : ℕ}
    (hroom : e.tc.entries.length + (e.levelPlan level).outputs.length ≤ e.tc.cap)
    (hroom' : e'.tc.entries.length + (e'.levelPlan level).outputs.length ≤ e'.tc.cap)
    (res rb : ℕ → WriteResult) :
    SameReaders (e.compactLevel level res rb).1 (e'.compactLevel level res rb).1 := by
  have hinputs : leveledInputs e'.current e'.cfg.maxLevel level =
      leveledInputs e.current e.cfg.maxLevel level := by
    obtain ⟨n, tc, rfl, -⟩ := h
    rfl
  unfold LSMEngine.compactLevel
  unfold LSMEngine.levelPlan at hroom hroom'
  rw [hinputs] at hroom' ⊢
  generalize leveledInputs e.current e.cfg.maxLevel level = inputs at hroom hroom'
  simp only
  split_ifs
  · exact h
  · obtain ⟨tc, hplan, htc⟩ := h.planCompaction inputs (level + 1)
    obtain ⟨-, hlen, hcap⟩ := planCompaction_unique h.unique.1 inputs (level + 1)
    obtain ⟨-, hlen', hcap'⟩ := planCompaction_unique h.unique.2 inputs (level + 1)
    rw [hplan] at hroom' hlen' hcap'
    have hstage := h.stageOutputs htc (by rw [hlen, hcap]; exact hroom)
      (by rw [hlen', hcap']; exact hroom')
    unfold LSMEngine.executeCompaction
    rw [hplan]
    exact hstage.commit (e.planCompaction inputs (level + 1)) tc (level + 1) res rb

/-! ### Reads -/

theorem SameReaders.readOnly (h : SameReaders e e') {r r' : LSMEngine} (hr : ReadOnly e r)
    (hr' : ReadOnly e' r') : SameReaders r r' := by
  obtain ⟨n, tc, rfl, htc⟩ := h
  refine ⟨n, r'.tc, ?_, ?_, hr.unique htc.left, hr'.unique htc.right⟩
  · rw [hr.eq, hr'.eq]
    rfl
  · exact hr'.readers.trans (htc.readers.trans hr.readers.symm)

theorem SameReaders.get (h : SameReaders e e') (key : Bytes) : (e'.get key).1 = (e.get key).1 := by
  obtain ⟨n, tc, rfl, htc⟩ := h
  have hmem : (e.withCache n tc).memGet key = e.memGet key := rfl
  rw [get_fst, get_fst, hmem]
  cases e.memGet key with
  | some r => rfl
  | none =>
    exact congrArg (fun r => getResult (probe r key e.seqNo (e.current.candidates key)))
      htc.readers

theorem SameReaders.scanWithError (h : SameReaders e e') (start stop : Bytes) (limit : ℤ) :
    (e'.scanWithError start stop limit).1 = (e.scanWithError start stop limit).1 := by
  obtain ⟨n, tc, rfl, htc⟩ := h
  rw [scanWithError_fst, scanWithError_fst]
  change scanLoop _ (KWayMerge.mergeAll _ (_ ++ tableSources tc.readerOf _ _ _ _)) _ _ = _
  rw [htc.readers]
  rfl

/-! ### Opening -/

theorem TableCache.Same.registerAll {ssts : Files SSTable} {ms : List SSTableMeta}
    (h : tc.Same tc') (hroom : tc.entries.length + ms.length ≤ tc.cap)
    (hroom' : tc'.entries.length + ms.length ≤ tc'.cap) :
    (∃ err, LsmTree.registerAll ssts ms tc = .error err ∧
        LsmTree.registerAll ssts ms tc' = .error err) ∨
      ∃ t t', LsmTree.registerAll ssts ms tc = .ok t ∧ LsmTree.registerAll ssts ms tc' = .ok t' ∧
        t.Same t' ∧ (t.entries.length ≤ tc.entries.length + ms.length ∧ t.cap = tc.cap) ∧
        t'.entries.length ≤ tc'.entries.length + ms.length ∧ t'.cap = tc'.cap := by
  induction ms generalizing tc tc' with
  | nil => exact Or.inr ⟨tc, tc', rfl, rfl, h, ⟨le_rfl, rfl⟩, le_rfl, rfl⟩
  | cons m ms ih =>
    rw [List.length_cons] at hroom hroom'
    simp only [LsmTree.registerAll]
    cases ssts.lookup m.fileID with
    | none => exact Or.inl ⟨_, rfl, rfl⟩
    | some t =>
      have hlen := tc.register_length_le m.fileID t
      have hlen' := tc'.register_length_le m.fileID t
      have hcap := tc.register_cap m.fileID t
      have hcap' := tc'.register_cap m.fileID t
      rcases ih (h.register (by omega) (by omega) m.fileID t) (by omega) (by omega) with
        herr | ⟨t₁, t₁', h1, h2, h3, ⟨h4, h5⟩, h6, h7⟩
      · exact Or.inl herr
      · simp only [List.length_cons]
        exact Or.inr ⟨t₁, t₁', h1, h2, h3, ⟨by omega, by omega⟩, by omega, by omega⟩

theorem SameReaders.shrink (h : SameReaders e e')
    (hroom : e.cfg.memTableSize < e.memTable.approximateSize → e.memTable.entries ≠ [] →
      e.tc.entries.length < e.tc.cap ∧ e'.tc.entries.length < e'.tc.cap) :
    SameReaders e.shrink e'.shrink := by
  have hcfg : e'.cfg.memTableSize = e.cfg.memTableSize := by
    obtain ⟨n, tc, rfl, -⟩ := h
    rfl
  have hmem : e'.memTable = e.memTable := by
    obtain ⟨n, tc, rfl, -⟩ := h
    rfl
  have hlog : e'.logNumber = e.logNumber := by
    obtain ⟨n, tc, rfl, -⟩ := h
    rfl
  unfold LSMEngine.shrink LSMEngine.recoverFlushOversizedMemtable
  rw [hcfg, hmem, hlog]
  split_ifs with hsize hempty
  · have hid : CacheBlind (fun e => e.newFileID.1) := fun _ _ _ => rfl
    exact h.map hid
  · obtain ⟨h1, h2⟩ := hroom hsize hempty
    have hbuild := h.map (cacheBlind_flushBuild ⟨e.memTable, e.logNumber⟩)
    have hmeta : (e'.flushBuild ⟨e.memTable, e.logNumber⟩).2 =
        (e.flushBuild ⟨e.memTable, e.logNumber⟩).2 := by
      obtain ⟨n, tc, rfl, -⟩ := h
      rfl
    simp only [hmeta]
    have hnew : CacheBlind (fun x => { x with memTable := newMemTable e.cfg.memTableSize }) :=
      fun _ _ _ => rfl
    exact (hbuild.flushAdd (by rw [(cacheBlind_flushBuild _).tc_eq]; exact h1)
      (by rw [(cacheBlind_flushBuild _).tc_eq]; exact h2) _ .ok).1.map hnew
  · exact h

theorem cacheBlind_recordLog (n : ℕ) : CacheBlind (fun e => e.recordLog n) := by
  intro e k tc
  have hlog : (e.withCache k tc).logNumber = e.logNumber := rfl
  simp only [LSMEngine.recordLog, hlog]
  split_ifs <;> rfl

/-- **Opening a directory** under two limits that both leave room for all tables. -/
theorem sameReaders_open {cfg : Config} {n : ℤ} {d : DataDir} (hroom : OpenRoom cfg.withDefaults d)
    (hroom' : OpenRoom (Config.withDefaults { cfg with maxOpenFiles := n }) d) :
    (∃ err, openEngine cfg d = .error err ∧
        openEngine { cfg with maxOpenFiles := n } d = .error err) ∨
      ∃ e e', openEngine cfg d = .ok e ∧ openEngine { cfg with maxOpenFiles := n } d = .ok e' ∧
        SameReaders e e' := by
  have hover : oversized (Config.withDefaults { cfg with maxOpenFiles := n }) d ↔
      oversized cfg.withDefaults d := Iff.rfl
  have hempty : (newTableCache cfg.withDefaults.maxOpenFiles).Same
      (newTableCache (Config.withDefaults { cfg with maxOpenFiles := n }).maxOpenFiles) :=
    ⟨rfl, List.nodup_nil, List.nodup_nil⟩
  have htables : (recoverVersion d.edits).tables = d.version.tables := rfl
  unfold OpenRoom at hroom hroom'
  have hzero : ∀ cap, (newTableCache cap).entries.length = 0 := fun _ => rfl
  unfold openEngine
  by_cases htorn : d.torn = true
  · exact Or.inl ⟨.manifest, if_pos htorn, if_pos htorn⟩
  simp only [if_neg htorn]
  rcases @TableCache.Same.registerAll _ _ d.ssts (recoverVersion d.edits).tables hempty
    (by rw [htables, hzero]; omega) (by rw [htables, hzero]; omega) with
    ⟨err, h1, h2⟩ | ⟨t, t', h1, h2, hsame, ⟨hl, hc⟩, hl', hc'⟩
  · left
    exact ⟨err, by simp only [h1], by simp only [h2]⟩
  · right
    simp only [h1, h2]
    refine ⟨_, _, rfl, rfl, ?_⟩
    have hrec : SameReaders (recoveredEngine cfg.withDefaults d t)
        (recoveredEngine (Config.withDefaults { cfg with maxOpenFiles := n }) d t') :=
      ⟨_, t', rfl, hsame⟩
    have hshrink := hrec.shrink (fun hsize hne => by
      have hov : oversized cfg.withDefaults d := ⟨hsize, hne⟩
      rw [if_pos hov] at hroom
      rw [if_pos (hover.2 hov)] at hroom'
      rw [htables, hzero] at hl hl'
      exact ⟨by change t.entries.length < t.cap; omega,
        by change t'.entries.length < t'.cap; omega⟩)
    have hexec : CacheBlind (fun e => e.exec (.appendLog e.logNumber [])) := fun _ _ _ => rfl
    exact (hshrink.map (cacheBlind_recordLog _)).map hexec

/-! ### Runs -/

inductive Answer
  | get (result : Except EngineError Bytes)
  | scan (result : List (Bytes × Bytes))
  | failed (err : OpenError)
  deriving DecidableEq, Repr

def LSMEngine.answer (e : LSMEngine) : Event → List Answer
  | .get key => [.get (e.get key).1]
  | .scan start stop limit => [.scan (e.scanWithError start stop limit).1]
  | _ => []

/-- The results of all reads of a run, which ends with a restart that fails. -/
def LSMEngine.reads (e : LSMEngine) : List Event → List Answer
  | [] => []
  | ev :: evs =>
    e.answer ev ++
      match e.step ev with
      | .ok e' => e'.reads evs
      | .error err => [.failed err]

def Event.withMaxOpenFiles (n : ℤ) : Event → Event
  | .restart cfg closed => .restart { cfg with maxOpenFiles := n } closed
  | ev => ev

def LSMEngine.RoomyRun (e : LSMEngine) : List Event → Prop
  | [] => True
  | ev :: evs => e.Room ev ∧ ∀ e', e.step ev = .ok e' → e'.RoomyRun evs

instance decidableRoomyRun : (e : LSMEngine) → (evs : List Event) → Decidable (e.RoomyRun evs)
  | _, [] => isTrue trivial
  | e, ev :: evs =>
    haveI : DecidablePred (fun e' : LSMEngine => e'.RoomyRun evs) :=
      fun e' => decidableRoomyRun e' evs
    inferInstanceAs (Decidable (e.Room ev ∧ ∀ e', e.step ev = .ok e' → e'.RoomyRun evs))

theorem SameReaders.closing (h : SameReaders e e') {n : ℕ}
    (hroom : ∀ i < n, (e.closing i).flushQueue ≠ [] →
      (e.closing i).tc.entries.length < (e.closing i).tc.cap)
    (hroom' : ∀ i < n, (e'.closing i).flushQueue ≠ [] →
      (e'.closing i).tc.entries.length < (e'.closing i).tc.cap) :
    SameReaders (e.closing n) (e'.closing n) := by
  induction n with
  | zero =>
    have hmem : e'.memTable = e.memTable := by
      obtain ⟨n, tc, rfl, -⟩ := h
      rfl
    simp only [LSMEngine.closing, Function.iterate_zero, id_eq, hmem]
    split_ifs
    · exact h.map cacheBlind_rotate
    · exact h
  | succ n ih =>
    have hstep : ∀ e : LSMEngine, e.closing (n + 1) = (e.closing n).flushNext {} := fun e =>
      Function.iterate_succ_apply' _ _ _
    rw [hstep, hstep]
    exact (ih (fun i hi => hroom i (hi.trans (Nat.lt_succ_self n)))
      (fun i hi => hroom' i (hi.trans (Nat.lt_succ_self n)))).flushNext
        (hroom n (Nat.lt_succ_self n)) (hroom' n (Nat.lt_succ_self n))

theorem SameReaders.leftBehind (h : SameReaders e e') {closed : Option ℕ}
    (hroom : ∀ n, closed = some n → ∀ i < n, (e.closing i).flushQueue ≠ [] →
      (e.closing i).tc.entries.length < (e.closing i).tc.cap)
    (hroom' : ∀ n, closed = some n → ∀ i < n, (e'.closing i).flushQueue ≠ [] →
      (e'.closing i).tc.entries.length < (e'.closing i).tc.cap) :
    e'.leftBehind closed = e.leftBehind closed := by
  cases closed with
  | none =>
    obtain ⟨n, tc, rfl, -⟩ := h
    rfl
  | some n =>
    obtain ⟨k, tc, heq, -⟩ := h.closing (hroom n rfl) (hroom' n rfl)
    have hclose : ∀ e : LSMEngine, e.leftBehind (some n) =
        ((e.closing n).exec (.appendLog (e.closing n).logNumber (e.closing n).walBuf)).dir :=
      fun _ => rfl
    rw [hclose, hclose, heq]
    rfl

/-- **One step of two runs.** -/
theorem SameReaders.step (h : SameReaders e e') {n : ℤ} {ev : Event} (hroom : e.Room ev)
    (hroom' : e'.Room (ev.withMaxOpenFiles n)) :
    e'.answer (ev.withMaxOpenFiles n) = e.answer ev ∧
      ((∃ err, e.step ev = .error err ∧ e'.step (ev.withMaxOpenFiles n) = .error err) ∨
        ∃ r r', e.step ev = .ok r ∧ e'.step (ev.withMaxOpenFiles n) = .ok r' ∧
          SameReaders r r') := by
  cases ev with
  | write op => exact ⟨rfl, Or.inr ⟨_, _, rfl, rfl, h.map (cacheBlind_submit op)⟩⟩
  | get key =>
    exact ⟨congrArg (fun r => [Answer.get r]) (h.get key),
      Or.inr ⟨_, _, rfl, rfl, h.readOnly (readOnly_get e key) (readOnly_get e' key)⟩⟩
  | scan start stop limit =>
    exact ⟨congrArg (fun r => [Answer.scan r]) (h.scanWithError start stop limit),
      Or.inr ⟨_, _, rfl, rfl, h.readOnly (readOnly_scan e start stop limit)
        (readOnly_scan e' start stop limit)⟩⟩
  | rotate =>
    have hmem : e'.memTable = e.memTable := by
      obtain ⟨n, tc, rfl, -⟩ := h
      rfl
    refine ⟨rfl, Or.inr ⟨_, _, rfl, rfl, ?_⟩⟩
    rw [hmem]
    split_ifs
    · exact h.map cacheBlind_rotate
    · exact h
  | flush => exact ⟨rfl, Or.inr ⟨_, _, rfl, rfl, h.flushNext hroom hroom'⟩⟩
  | compact level =>
    exact ⟨rfl, Or.inr ⟨_, _, rfl, rfl, h.compactLevel hroom hroom' (fun _ => .ok) (fun _ => .ok)⟩⟩
  | restart cfg closed =>
    refine ⟨rfl, ?_⟩
    have hdir := h.leftBehind hroom.2 hroom'.2
    have hopen := @sameReaders_open cfg n (e.leftBehind closed) hroom.1 (hdir ▸ hroom'.1)
    rw [← hdir] at hopen
    simp only [LSMEngine.step, Event.withMaxOpenFiles]
    rw [← hdir]
    exact hopen

theorem SameReaders.reads (h : SameReaders e e') {n : ℤ} (hroom : e.RoomyRun evs)
    (hroom' : e'.RoomyRun (evs.map (Event.withMaxOpenFiles n))) :
    e'.reads (evs.map (Event.withMaxOpenFiles n)) = e.reads evs := by
  induction evs generalizing e e' with
  | nil => rfl
  | cons ev evs ih =>
    obtain ⟨hans, hstep⟩ := h.step hroom.1 hroom'.1
    rw [List.map_cons, LSMEngine.reads, LSMEngine.reads, hans]
    rcases hstep with ⟨err, h1, h2⟩ | ⟨r, r', h1, h2, hsame⟩
    · rw [h1, h2]
    · rw [h1, h2]
      simp only
      rw [ih hsame (hroom.2 r h1) (hroom'.2 r' h2)]

theorem Listing.run (h : Listing e) (hroom : e.RoomyRun evs) (hlevels : ∀ ev ∈ evs, ev.FewLevels)
    {pre : List Event} (hpre : pre <+: evs) (hrun : e.run pre = .ok e') : Listing e' := by
  induction pre generalizing e evs with
  | nil =>
    cases hrun
    exact h
  | cons ev pre ih =>
    obtain ⟨rest, rfl⟩ := hpre
    rw [LSMEngine.run] at hrun
    cases hstep : e.step ev with
    | error err =>
      rw [hstep] at hrun
      cases hrun
    | ok e₁ =>
      rw [hstep] at hrun
      exact ih (h.step hroom.1 (hlevels ev List.mem_cons_self) hstep) (hroom.2 e₁ hstep)
        (fun x hx => hlevels x (List.mem_cons_of_mem ev hx)) (List.prefix_append pre rest) hrun

/-- The results of all reads of a run on a new directory. -/
def readsFrom (cfg : Config) (evs : List Event) : List Answer :=
  match openEngine cfg {} with
  | .ok e => e.reads evs
  | .error err => [.failed err]

/-- In a run on a new directory nothing is evicted. -/
def RoomyFrom (cfg : Config) (evs : List Event) : Prop :=
  ∀ e, openEngine cfg {} = .ok e → e.RoomyRun evs

instance (cfg : Config) (evs : List Event) : Decidable (RoomyFrom cfg evs) :=
  inferInstanceAs (Decidable (∀ e, openEngine cfg {} = .ok e → e.RoomyRun evs))

/-- Throughout a run on a new directory `tableCache.get` finds every listed table. -/
def ListedFound (cfg : Config) (evs : List Event) : Prop :=
  ∀ e₀ e pre, pre <+: evs → openEngine cfg {} = .ok e₀ → e₀.run pre = .ok e →
    ∀ i, ∀ t ∈ e.current.levels i, e.tc.get t.fileID ≠ none

theorem openRoom_empty (cfg : Config) : OpenRoom cfg {} := by
  have hno : ¬ oversized cfg {} := fun hc => hc.2 rfl
  unfold OpenRoom
  rw [if_neg hno]
  exact Nat.zero_le _

/-- **Reads do not depend on `MaxOpenFiles`**, and every listed table is found, while the cache has
room for the tables that the steps register. -/
theorem reads_eq_of_room {cfg : Config} {n : ℤ} {evs : List Event} (hroom : RoomyFrom cfg evs)
    (hroom' : RoomyFrom { cfg with maxOpenFiles := n } (evs.map (Event.withMaxOpenFiles n))) :
    readsFrom { cfg with maxOpenFiles := n } (evs.map (Event.withMaxOpenFiles n)) =
        readsFrom cfg evs ∧
      (cfg.maxLevel ≤ maxLevels → (∀ ev ∈ evs, ev.FewLevels) → ListedFound cfg evs) := by
  constructor
  · unfold readsFrom
    rcases @sameReaders_open cfg n {} (openRoom_empty _) (openRoom_empty _) with
      ⟨err, h1, h2⟩ | ⟨e, e', h1, h2, hsame⟩
    · rw [h1, h2]
    · rw [h1, h2]
      exact hsame.reads (hroom e h1) (hroom' e' h2)
  · intro hmax hlevels e₀ e pre hpre hopen hrun i t ht
    have hnum : (recoverVersion ({} : DataDir).edits).Numbered :=
      ⟨fun i t ht => (List.not_mem_nil ht).elim, fun i j t ht => (List.not_mem_nil ht).elim,
        fun _ _ => rfl⟩
    have hlist := (listing_open hnum hmax (openRoom_empty _) hopen).run (hroom e₀ hopen) hlevels
      hpre hrun
    intro hc
    have hsome := e.tc.get_isSome t.fileID
    rw [hc] at hsome
    exact hlist.readers i t ht hsome.symm

/-- Two flushes, a read of the first key, a compaction and a restart. -/
def twoTables : List Event :=
  [.write (.put [1] [10]), .rotate, .flush, .write (.put [2] [20]), .rotate, .flush, .get [1],
    .scan [] [] 0, .compact 0, .restart {} none, .get [1]]

theorem twoTables_reads_eq :
    readsFrom { maxOpenFiles := 3 } (twoTables.map (Event.withMaxOpenFiles 3)) =
        readsFrom {} twoTables ∧
      (Config.maxLevel {} ≤ maxLevels → (∀ ev ∈ twoTables, ev.FewLevels) →
        ListedFound {} twoTables) :=
  @reads_eq_of_room {} 3 twoTables (by decide +kernel) (by decide +kernel)

/-- With room for one table only, the second flush evicts the reader of the first table, which the
manifest goes on listing: reads miss it. -/
theorem twoTables_differ :
    readsFrom { maxOpenFiles := 1 } (twoTables.map (Event.withMaxOpenFiles 1)) ≠
        readsFrom { maxOpenFiles := 3 } (twoTables.map (Event.withMaxOpenFiles 3)) ∧
      ¬ ListedFound { maxOpenFiles := 1 } (twoTables.map (Event.withMaxOpenFiles 1)) := by
  refine ⟨by decide +kernel, fun h => ?_⟩
  have hlost : ∃ e₀, openEngine { maxOpenFiles := 1 } {} = .ok e₀ ∧
      ∃ e, e₀.run (twoTables.take 6) = .ok e ∧
        ∃ t ∈ e.current.levels 0, e.tc.get t.fileID = none := by decide +kernel
  obtain ⟨e₀, hopen, e, hrun, t, ht, hnone⟩ := hlost
  have hpre : twoTables.take 6 <+: twoTables.map (Event.withMaxOpenFiles 1) := by decide
  exact h e₀ e _ hpre hopen hrun 0 t ht hnone

end LsmTree
