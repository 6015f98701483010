import LsmTree.Cluster.Install
import LsmTree.Correct.Eviction

/-!
# Directories between two states

An `Open` succeeds if and only if the manifest has no torn record and every table that it lists is
there (`openEngine_ok_iff`).  While `replaceEngineDirContents` works, the manifest is the last file
to be removed and the last to be copied, since the names of all other files begin with a digit
(`entries_eq`).
-/

namespace LsmTree

variable {cfg : Config} {d src : DataDir} {f : DirFile} {id n : ℕ}

variable {files : List DirFile} {maxLevel : ℕ} {m : Bytes → Option Bytes} {v : Version}
  {edit : VersionEdit} {t : SSTableMeta} {ops : List DiskOp} {P : DataDir → Prop}

/-! ### Names -/

theorem decimal_lt {b : UInt8} (h : b ∈ decimal n) : b < 77 := by
  obtain ⟨c, hc, rfl⟩ := List.mem_map.1 h
  have hdigit := Nat.isDigit_of_mem_toDigits (by decide) (by decide) hc
  have hle : c.toNat ≤ 57 := by
    simp only [Char.isDigit, ge_iff_le, Bool.and_eq_true, decide_eq_true_eq] at hdigit
    exact UInt32.le_iff_toNat_le.1 hdigit.2
  rw [UInt8.lt_iff_toNat_lt, UInt8.toNat_ofNat', Nat.mod_eq_of_lt (by omega)]
  exact lt_of_le_of_lt hle (by decide)

theorem sixDigits_cons (n : ℕ) : ∃ b rest, sixDigits n = b :: rest ∧ b < 77 := by
  have hall : ∀ b ∈ sixDigits n, b < 77 := by
    intro b hb
    rcases List.mem_append.1 hb with hb | hb
    · rw [List.eq_of_mem_replicate hb]
      decide
    · exact decimal_lt hb
  have hne : sixDigits n ≠ [] := by
    unfold sixDigits decimal
    simp [Nat.toDigits_ne_nil]
  obtain ⟨b, rest, hcons⟩ := List.exists_cons_of_ne_nil hne
  exact ⟨b, rest, hcons, hall b (hcons ▸ List.mem_cons_self)⟩

theorem name_lt_manifest (hf : f ≠ .manifest) : f.name < DirFile.manifest.name := by
  have hdigits : ∀ n (s : Bytes), sixDigits n ++ s < DirFile.manifest.name := by
    intro n s
    obtain ⟨b, rest, hcons, hb⟩ := sixDigits_cons n
    rw [hcons]
    exact List.Lex.rel hb
  cases f with
  | table id => exact hdigits id _
  | log id => exact hdigits id _
  | manifest => exact absurd rfl hf

/-- **The manifest is the last file.** -/
theorem entries_eq (d : DataDir) : ∃ files, d.entries = files ++ [.manifest] ∧
    .manifest ∉ files ∧ (∀ id, .table id ∈ files ↔ d.ssts.lookup id ≠ none) ∧
    ∀ id, .log id ∈ files ↔ d.logs.lookup id ≠ none := by
  set numbered := d.ssts.keys.map DirFile.table ++ d.logs.keys.map DirFile.log with hnumbered
  have hperm : d.entries.Perm (numbered ++ [.manifest]) := List.perm_insertionSort _ _
  have hsorted : d.entries.Pairwise (fun a b => a.name ≤ b.name) := by
    have : Std.Total (fun a b : DirFile => a.name ≤ b.name) := ⟨fun a b => le_total _ _⟩
    have : IsTrans DirFile (fun a b => a.name ≤ b.name) := ⟨fun _ _ _ => le_trans⟩
    exact List.pairwise_insertionSort _ _
  have hnot : DirFile.manifest ∉ numbered := by
    intro hc
    rcases List.mem_append.1 hc with hc | hc <;> obtain ⟨id, -, hid⟩ := List.mem_map.1 hc <;>
      cases hid
  obtain ⟨files, rest, hsplit⟩ := List.append_of_mem (hperm.mem_iff.2 (List.mem_append_right _
    (List.mem_singleton.2 rfl)))
  rw [hsplit] at hperm hsorted
  have hrest : (files ++ rest).Perm numbered := by
    have h1 := List.perm_middle.symm.trans hperm
    exact (h1.trans (@List.perm_append_comm _ numbered _)).cons_inv
  have hnil : rest = [] := by
    refine List.eq_nil_iff_forall_not_mem.2 (fun g hg => ?_)
    have hle := List.rel_of_pairwise_cons (List.pairwise_append.1 hsorted).2.1 hg
    have hg' : g ≠ .manifest := fun hc =>
      hnot (hrest.mem_iff.1 (List.mem_append_right _ (hc ▸ hg)))
    exact absurd hle (not_le.2 (name_lt_manifest hg'))
  rw [hnil, List.append_nil] at hrest
  refine ⟨files, by rw [hsplit, hnil], fun hc => hnot (hrest.mem_iff.1 hc), fun id => ?_,
    fun id => ?_⟩ <;>
    rw [hrest.mem_iff, Ne, AList.lookup_eq_none, not_not, AList.mem_keys, hnumbered] <;>
    simp

/-! ### When an `Open` succeeds -/

/-- The manifest has no torn record, and every table that it lists is there. -/
def DataDir.Complete (d : DataDir) : Prop :=
  d.torn = false ∧ ∀ t ∈ d.version.tables, d.ssts.lookup t.fileID ≠ none

theorem registerAll_of_present {ssts : Files SSTable} {ms : List SSTableMeta}
    (h : ∀ t ∈ ms, ssts.lookup t.fileID ≠ none) (tc : TableCache) :
    ∃ tc', registerAll ssts ms tc = .ok tc' := by
  induction ms generalizing tc with
  | nil => exact ⟨tc, rfl⟩
  | cons t ms ih =>
    obtain ⟨f, hf⟩ := Option.ne_none_iff_exists'.1 (h t List.mem_cons_self)
    rw [registerAll, hf]
    exact ih (fun u hu => h u (List.mem_cons_of_mem _ hu)) _

/-- **An `Open` succeeds** exactly if the manifest can be read and no listed table is missing. -/
theorem openEngine_ok_iff : (∃ e, openEngine cfg d = .ok e) ↔ d.Complete := by
  constructor
  · rintro ⟨e, he⟩
    obtain ⟨htorn, tc, hreg, -⟩ := openEngine_ok he
    exact ⟨htorn, (registerAll_eq hreg).2⟩
  · rintro ⟨htorn, h⟩
    obtain ⟨tc, hreg⟩ := registerAll_of_present h (newTableCache cfg.withDefaults.maxOpenFiles)
    exact ⟨_, openEngine_of_registered htorn hreg⟩

theorem complete_of_no_tables (htorn : d.torn = false) (h : d.version.tables = []) :
    d.Complete := by
  refine ⟨htorn, fun t ht => ?_⟩
  rw [h] at ht
  cases ht

/-! ### Along a replacement -/

theorem foldl_fileOp_manifest {ops : List FileOp} (hremove : .remove .manifest ∉ ops)
    (hcopy : .copy .manifest ∉ ops) (d : DataDir) :
    (ops.foldl src.fileOp d).edits = d.edits ∧ (ops.foldl src.fileOp d).torn = d.torn := by
  induction ops generalizing d with
  | nil => exact ⟨rfl, rfl⟩
  | cons op ops ih =>
    have hop : (src.fileOp d op).edits = d.edits ∧ (src.fileOp d op).torn = d.torn := by
      rcases op with (id | id | _) | (id | id | _)
      · exact ⟨rfl, rfl⟩
      · exact ⟨rfl, rfl⟩
      · exact absurd List.mem_cons_self hremove
      · simp only [DataDir.fileOp]
        cases src.ssts.lookup id <;> exact ⟨rfl, rfl⟩
      · exact ⟨rfl, rfl⟩
      · exact absurd List.mem_cons_self hcopy
    obtain ⟨hedits, htorn⟩ := ih (fun hc => hremove (List.mem_cons_of_mem _ hc))
      (fun hc => hcopy (List.mem_cons_of_mem _ hc)) (src.fileOp d op)
    exact ⟨hedits.trans hop.1, htorn.trans hop.2⟩

theorem foldl_remove_manifest {files : List DirFile} (h : .manifest ∉ files) (d : DataDir) :
    ((files.map FileOp.remove).foldl src.fileOp d).edits = d.edits ∧
      ((files.map FileOp.remove).foldl src.fileOp d).torn = d.torn :=
  foldl_fileOp_manifest (by simpa using h) (by simp) d

theorem foldl_copy_manifest (h : .manifest ∉ files) (d : DataDir) :
    ((files.map FileOp.copy).foldl src.fileOp d).edits = d.edits ∧
      ((files.map FileOp.copy).foldl src.fileOp d).torn = d.torn :=
  foldl_fileOp_manifest (by simp) (by simpa using h) d

theorem foldl_establishes {α β : Type*} {f : β → α → β} {P : β → Prop} {a : α} {l : List α} {b : β}
    (ha : ∀ b, P (f b a)) (hkeep : ∀ b x, P b → P (f b x)) (h : a ∈ l ∨ P b) :
    P (l.foldl f b) := by
  induction l generalizing b with
  | nil => exact h.resolve_left List.not_mem_nil
  | cons x l ih =>
    refine ih ?_
    rcases h with h | h
    · rcases List.mem_cons.1 h with rfl | h
      · exact Or.inr (ha b)
      · exact Or.inl h
    · exact Or.inr (hkeep b x h)

theorem foldl_remove_lookup (h : .table id ∈ files ∨ d.ssts.lookup id = none) :
    ((files.map FileOp.remove).foldl src.fileOp d).ssts.lookup id = none := by
  rw [List.foldl_map]
  refine foldl_establishes (P := fun d : DataDir => d.ssts.lookup id = none)
    (fun d => AList.lookup_erase _ _) (fun d g hnone => ?_) h
  cases g with
  | table j =>
    by_cases hj : id = j
    · exact hj ▸ AList.lookup_erase _ _
    · exact (AList.lookup_erase_ne hj).trans hnone
  | log j | manifest => exact hnone

theorem foldl_copy_lookup {t : SSTable} (ht : src.ssts.lookup id = some t)
    (h : .table id ∈ files ∨ d.ssts.lookup id = some t) :
    ((files.map FileOp.copy).foldl src.fileOp d).ssts.lookup id = some t := by
  have hcopy : ∀ d, (src.fileOp d (.copy (.table id))).ssts.lookup id = some t := by
    intro d
    simp only [DataDir.fileOp, ht]
    exact AList.lookup_insert _
  rw [List.foldl_map]
  refine foldl_establishes (P := fun d : DataDir => d.ssts.lookup id = some t) hcopy
    (fun d g hsome => ?_) h
  cases g with
  | table j =>
    by_cases hj : id = j
    · exact hj ▸ hcopy d
    · simp only [DataDir.fileOp]
      cases src.ssts.lookup j with
      | none => exact hsome
      | some u => exact (AList.lookup_insert_ne hj).trans hsome
  | log j | manifest => exact hsome

theorem foldl_remove_log (h : .log id ∈ files ∨ d.logs.lookup id = none) :
    ((files.map FileOp.remove).foldl src.fileOp d).logs.lookup id = none := by
  rw [List.foldl_map]
  refine foldl_establishes (P := fun d : DataDir => d.logs.lookup id = none)
    (fun d => AList.lookup_erase _ _) (fun d g hnone => ?_) h
  cases g with
  | log j =>
    by_cases hj : id = j
    · exact hj ▸ AList.lookup_erase _ _
    · exact (AList.lookup_erase_ne hj).trans hnone
  | table j | manifest => exact hnone

theorem foldl_copy_log (h : .log id ∈ files ∨ d.log id = src.log id) :
    ((files.map FileOp.copy).foldl src.fileOp d).log id = src.log id := by
  have hcopy : ∀ d, (src.fileOp d (.copy (.log id))).log id = src.log id := fun d => by
    simp [DataDir.fileOp, DataDir.log]
  rw [List.foldl_map]
  refine foldl_establishes (P := fun d : DataDir => d.log id = src.log id) hcopy
    (fun d g hlog => ?_) h
  cases g with
  | table j =>
    simp only [DataDir.fileOp]
    cases src.ssts.lookup j <;> exact hlog
  | log j =>
    by_cases hj : id = j
    · exact hj ▸ hcopy d
    · rw [← hlog]
      simp [DataDir.fileOp, DataDir.log, hj]
  | manifest => exact hlog

theorem replaceOps_eq {removed copied : List DirFile} (hd : d.entries = removed ++ [.manifest])
    (hs : src.entries = copied ++ [.manifest]) :
    replaceOps d src = removed.map FileOp.remove ++
      (.remove .manifest :: (copied.map FileOp.copy ++ [.copy .manifest])) := by
  unfold replaceOps
  rw [hd, hs, List.map_append, List.map_append, List.append_assoc]
  rfl

/-- **While a directory is replaced.** If its manifest can be read and lists no table, every
intermediate directory can be opened; if it lists one, the directory with nothing left but the
manifest cannot. -/
theorem complete_replaceUpTo_iff (hsrc : src.Complete) :
    (∀ done, (d.replaceUpTo src done).Complete) ↔ d.torn = false ∧ d.version.tables = [] := by
  obtain ⟨removed, hd, hremoved, hin, -⟩ := entries_eq d
  obtain ⟨copied, hs, hcopied, hin', -⟩ := entries_eq src
  have hops := replaceOps_eq hd hs
  constructor
  · intro hall
    have hdir : d.replaceUpTo src removed.length =
        (removed.map FileOp.remove).foldl src.fileOp d := by
      unfold DataDir.replaceUpTo
      rw [hops, List.take_append_of_le_length (by simp), List.take_of_length_le (by simp)]
    have hlast := hall removed.length
    rw [hdir] at hlast
    obtain ⟨hedits, htorn⟩ := @foldl_remove_manifest src _ hremoved d
    refine ⟨htorn ▸ hlast.1, List.eq_nil_iff_forall_not_mem.2 (fun t ht => ?_)⟩
    refine hlast.2 t ?_ (foldl_remove_lookup ?_)
    · change t ∈ (recoverVersion _).tables
      rw [hedits]
      exact ht
    · by_cases hl : d.ssts.lookup t.fileID = none
      · exact Or.inr hl
      · exact Or.inl ((hin t.fileID).2 hl)
  · rintro ⟨huntorn, hnone⟩ done
    unfold DataDir.replaceUpTo
    rw [hops]
    rcases le_or_gt done removed.length with hle | hgt
    · -- only files that do not matter are gone
      rw [List.take_append_of_le_length (by simpa using hle), ← List.map_take]
      obtain ⟨hedits, htorn⟩ := @foldl_remove_manifest src (removed.take done)
        (fun hc => hremoved (List.mem_of_mem_take hc)) d
      apply complete_of_no_tables (htorn.trans huntorn)
      change (recoverVersion _).tables = []
      rw [hedits]
      exact hnone
    obtain ⟨more, rfl⟩ : ∃ more, done = removed.length + (more + 1) :=
      ⟨done - removed.length - 1, by omega⟩
    have hlen : (removed.map FileOp.remove).length = removed.length := List.length_map _
    rw [← hlen, List.take_length_add_append, List.take_succ_cons, List.foldl_append,
      List.foldl_cons]
    set empty := src.fileOp ((removed.map FileOp.remove).foldl src.fileOp d) (.remove .manifest)
      with hempty
    rcases le_or_gt more copied.length with hle | hgt
    · -- the manifest is not there yet: the tables are orphans
      rw [List.take_append_of_le_length (by simpa using hle), ← List.map_take]
      obtain ⟨hedits, htorn⟩ := @foldl_copy_manifest src (copied.take more)
        (fun hc => hcopied (List.mem_of_mem_take hc)) empty
      apply complete_of_no_tables htorn
      change (recoverVersion _).tables = []
      rw [hedits]
      rfl
    · rw [List.take_of_length_le (by simp; omega), List.foldl_append]
      refine ⟨hsrc.1, fun t ht => ?_⟩
      obtain ⟨f, hf⟩ := Option.ne_none_iff_exists'.1 (hsrc.2 t ht)
      have hlast := foldl_copy_lookup (d := empty) hf (Or.inl ((hin' t.fileID).2 (hsrc.2 t ht)))
      exact hlast ▸ Option.some_ne_none f

/-- **After a replacement** the directory stands for what the other one stands for. -/
theorem DiskInv.replaceAll (h : DiskInv src maxLevel m) (d : DataDir) :
    DiskInv (d.replaceAll src) maxLevel m := by
  obtain ⟨removed, hd, hremoved, -, hlogs⟩ := entries_eq d
  obtain ⟨copied, hs, hcopied, htables, hlogs'⟩ := entries_eq src
  set empty := src.fileOp ((removed.map FileOp.remove).foldl src.fileOp d) (.remove .manifest)
    with hempty
  have hdir : d.replaceAll src =
      { (copied.map FileOp.copy).foldl src.fileOp empty with
        edits := src.edits, torn := src.torn } := by
    unfold DataDir.replaceAll DataDir.replaceUpTo
    rw [List.take_length, replaceOps_eq hd hs, List.foldl_append, List.foldl_cons,
      List.foldl_append]
    rfl
  have hlog : ∀ id, (d.replaceAll src).log id = src.log id := by
    intro id
    rw [hdir]
    refine foldl_copy_log ((em _).imp_right (fun hnot => ?_))
    have hsrc : src.logs.lookup id = none := not_not.1 (fun hc => hnot ((hlogs' id).2 hc))
    have hgone : empty.logs.lookup id = none := by
      refine foldl_remove_log ?_
      exact (em _).imp_right (fun hnot => not_not.1 (fun hc => hnot ((hlogs id).2 hc)))
    unfold DataDir.log
    rw [hsrc, hgone]
  refine h.congr ?_ ?_ ?_ ?_ (by rw [hdir])
  · unfold walSet logSet
    simp only [hlog]
  · rw [hdir]
    rfl
  · rw [hdir]
    exact le_rfl
  · intro i t ht
    obtain ⟨-, f, hf, -⟩ := h.tables.ok i t ht
    rw [hdir, hf]
    exact foldl_copy_lookup hf (Or.inl ((htables t.fileID).2 (fun hc => by
      rw [show src.ssts.lookup t.fileID = some f from hf] at hc
      cases hc)))

theorem DiskInv.complete (h : DiskInv d maxLevel m) : d.Complete := by
  refine ⟨h.untorn, fun t ht => ?_⟩
  obtain ⟨i, -, ht⟩ := List.mem_flatMap.1 ht
  obtain ⟨-, f, hf, -⟩ := h.tables.ok i t ht
  exact fun hc => by
    rw [show d.ssts.lookup t.fileID = some f from hf] at hc
    cases hc

/-! ### Along an `Open` -/

/-- A durable step that leaves no listed table missing. -/
def DiskOp.Safe (d : DataDir) : DiskOp → Prop
  | .writeTable _ _ | .appendLog _ _ | .removeLog _ => True
  | .removeTable id => ∀ t ∈ d.version.tables, t.fileID ≠ id
  | .appendEdit edit => edit.type = .addSSTable → d.ssts.lookup edit.fileID ≠ none

theorem mem_tables_recoverEdit (h : t ∈ (v.recoverEdit edit).tables) :
    t ∈ v.tables ∨ edit.type = .addSSTable ∧ t.fileID = edit.fileID := by
  obtain ⟨i, hi, ht⟩ := List.mem_flatMap.1 h
  have hkeep : t ∈ v.levels i → t ∈ v.tables := fun hv => List.mem_flatMap.2 ⟨i, hi, hv⟩
  have ht : t ∈ (v.applyEdit edit).levels i := ht
  unfold Version.applyEdit at ht
  cases htype : edit.type with
  | addSSTable =>
    rw [htype] at ht
    simp only [Function.update_apply] at ht
    split_ifs at ht with hlevel
    · rw [mem_sortLevel, List.mem_append, List.mem_singleton] at ht
      rcases ht with ht | rfl
      · exact Or.inl (hkeep (hlevel ▸ ht))
      · exact Or.inr ⟨rfl, rfl⟩
    · exact Or.inl (hkeep ht)
  | deleteSSTable =>
    rw [htype] at ht
    simp only [Function.update_apply] at ht
    split_ifs at ht with hlevel
    · rw [mem_sortLevel] at ht
      exact Or.inl (hkeep (hlevel ▸ List.mem_of_mem_filter ht))
    · exact Or.inl (hkeep ht)
  | logNumber | nextFileID | maxSeqNo =>
    rw [htype] at ht
    exact Or.inl (hkeep ht)

theorem DataDir.Complete.exec {op : DiskOp} (h : d.Complete) (hop : op.Safe d) :
    (d.exec op).Complete := by
  refine ⟨by cases op <;> exact h.1, fun t ht => ?_⟩
  replace h := h.2
  cases op with
  | writeTable id f =>
    rw [exec_writeTable_ssts]
    split_ifs
    · exact Option.some_ne_none f
    · exact h t ht
  | removeTable id =>
    rw [exec_removeTable_ssts, if_neg (hop t ht)]
    exact h t ht
  | appendLog id records => exact h t ht
  | removeLog id => exact h t ht
  | appendEdit edit =>
    change d.ssts.lookup t.fileID ≠ none
    change t ∈ (recoverVersion (d.edits ++ [edit])).tables at ht
    rw [recoverVersion_append] at ht
    rcases mem_tables_recoverEdit ht with ht | ⟨hadd, hid⟩
    · exact h t ht
    · rw [hid]
      exact hop hadd

theorem DataDir.Complete.throughout (h : d.Complete)
    (hops : ∀ op ∈ ops, op.Safe d ∧ (∀ edit, op ≠ .appendEdit edit)) :
    Throughout DataDir.Complete d ops := by
  induction ops generalizing d with
  | nil => exact h
  | cons op ops ih =>
    obtain ⟨hsafe, hedit⟩ := hops op List.mem_cons_self
    have hversion : (d.exec op).version = d.version := by
      cases op with
      | appendEdit edit => exact absurd rfl (hedit edit)
      | writeTable | removeTable | appendLog | removeLog => rfl
    refine ⟨h, ih (h.exec hsafe) (fun op' hop' => ?_)⟩
    obtain ⟨hsafe', hedit'⟩ := hops op' (List.mem_cons_of_mem _ hop')
    refine ⟨?_, hedit'⟩
    cases op' with
    | appendEdit edit => exact absurd rfl (hedit' edit)
    | removeTable id =>
      change ∀ t ∈ (d.exec op).version.tables, t.fileID ≠ id
      rw [hversion]
      exact hsafe'
    | writeTable | appendLog | removeLog => trivial

theorem DataDir.Complete.addTable (h : d.Complete) (hid : edit.fileID = id) (f : SSTable) :
    Throughout DataDir.Complete d [.writeTable id f, .appendEdit edit] := by
  have hwrite : (d.exec (.writeTable id f)).Complete := h.exec trivial
  refine ⟨h, hwrite, hwrite.exec (fun _ => ?_)⟩
  rw [exec_writeTable_ssts, if_pos hid]
  exact Option.some_ne_none f

theorem DataDir.Complete.step {op : DiskOp} (h : d.Complete) (hop : op.Safe d) :
    Throughout DataDir.Complete d [op] := ⟨h, h.exec hop⟩

theorem Throughout.andThen {ops' : List DiskOp} (h : Throughout P d ops)
    (h' : P (d.execAll ops) → Throughout P (d.execAll ops) ops') :
    Throughout P d (ops ++ ops') := h.append (h' h.last)

theorem Throughout.ite {c : Prop} [Decidable c] (h : P d) (hops : Throughout P d ops) :
    Throughout P d (if c then ops else []) := by
  split_ifs
  · exact hops
  · exact h

theorem ne_of_not_hasFile (h : v.hasFile id = false) (ht : t ∈ v.tables) : t.fileID ≠ id := by
  intro hid
  obtain ⟨i, hi, ht⟩ := List.mem_flatMap.1 ht
  have hany : v.hasFile id = true :=
    List.any_eq_true.2 ⟨i, hi, List.any_eq_true.2 ⟨t, ht, decide_eq_true hid⟩⟩
  rw [h] at hany
  cases hany

/-- **An `Open` that is interrupted.** -/
theorem DataDir.Complete.recoverOps (h : d.Complete) :
    Throughout DataDir.Complete d (recoverOps cfg d) := by
  have hclean : Throughout DataDir.Complete d (cleanOps cfg.withDefaults d) := by
    refine h.throughout (fun op hop => ?_)
    rcases List.mem_append.1 hop with hop | hop
    · obtain ⟨id, hid, rfl⟩ := List.mem_map.1 hop
      have hfile := (List.mem_filter.1 hid).2
      rw [Bool.not_eq_true'] at hfile
      exact ⟨fun t ht => ne_of_not_hasFile hfile ht, fun edit hc => by cases hc⟩
    · unfold foldLogOps at hop
      split_ifs at hop
      · cases hop
      · rcases List.mem_cons.1 hop with rfl | hop
        · exact ⟨trivial, fun edit hc => by cases hc⟩
        · rcases List.mem_append.1 hop with hop | hop <;>
            obtain ⟨x, -, rfl⟩ := List.mem_map.1 hop <;>
            exact ⟨trivial, fun edit hc => by cases hc⟩
  refine hclean.andThen (fun hd => Throughout.andThen (Throughout.andThen ?_ (fun hd => ?_))
    (fun hd => hd.step trivial))
  · exact Throughout.ite hd (hd.addTable (buildTable_fields _ _ _).1 _)
  · exact Throughout.ite hd (hd.step (fun hc => by cases hc))

end LsmTree
