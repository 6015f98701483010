import LsmTree.Lib.Run
import LsmTree.Correct.Coordinator

/-!
# Rollbacks and the writes of others

Several nodes work on the same shards, each with its own lock and journal.  A rollback puts back
what its transaction read at the beginning, without a look at what has happened since.  It erases
nobody's acknowledged write as long as no other node works on a key of a transaction before the
transaction has returned, or after a crash its record is gone (`rollback_erases_nothing`).
-/

namespace LsmTree

open KeyValue Run

variable {c' : Coordinator} {pc : CoordinatorPc} {r : TxJournalEntry} {id txID : Bytes}
  {batches : ShardBatches} {images : List TxPreImage} {ack ok : Bool} {e : CoordinatorEvent}
  {todo : List (ℕ × Bytes)} {x : ℕ × Bytes}

/-- The nodes and the shards.  The rest is for the statement: the time, when a write of a key was
last acknowledged, when the transactions began, and whether a rollback has overwritten a key of
which a write was acknowledged since its transaction began. -/
structure Nodes where
  shards : ℕ → Shard
  procs : ℕ → Coordinator
  clock : ℕ := 0
  lastAck : ℕ × Bytes → ℕ := fun _ => 0
  beganAt : ℕ → Bytes → ℕ := fun _ _ => 0
  erased : Bool := false

def Nodes.next (s : Nodes) (e : ℕ × CoordinatorEvent) : Nodes :=
  let x := (s.procs e.1).handle s.shards e.2
  { shards := x.1
    procs := Function.update s.procs e.1 x.2.1
    clock := s.clock + 1
    lastAck := match x.2.2 with
      | .acknowledged keys => fun y => if y ∈ keys then s.clock + 1 else s.lastAck y
      | _ => s.lastAck
    beganAt := match x.2.2 with
      | .began txID => Function.update s.beganAt e.1 (Function.update (s.beganAt e.1) txID s.clock)
      | _ => s.beganAt
    erased := match x.2.2 with
      | .undone r id => s.erased ||
        (r.undoBatch id).any (fun b => decide (s.beganAt e.1 r.id < s.lastAck (id, b.key)))
      | _ => s.erased }

/-! ### What a node may still undo -/

def CoordinatorPc.keys : CoordinatorPc → List (ℕ × Bytes)
  | .read _ batches _ _ => batches.keys
  | .write r _ _ | .undo r _ | .removePending r _ | .removeCommitted r _ => r.keys
  | _ => []

def CoordinatorPc.Holds (r : TxJournalEntry) : CoordinatorPc → Prop
  | .write r' _ _ | .undo r' _ => r = r'
  | .recover rs _ => r ∈ rs
  | _ => False

def TxJournalStore.Left (s : TxJournalStore) (id : Bytes) (r : TxJournalEntry) : Prop :=
  s.lookup (.pending id) = some r ∧ s.lookup (.committed id) = none

/-- The records that a node may undo now or after a crash. -/
def Coordinator.MayUndo (c : Coordinator) (r : TxJournalEntry) : Prop :=
  c.pc.Holds r ∨ ∃ id, c.journal.Left id r

def Coordinator.Opens (c : Coordinator) (x : ℕ × Bytes) : Prop :=
  x ∈ c.pc.keys ∨ ∃ r, c.MayUndo r ∧ x ∈ r.keys

/-- No other node has an open transaction with a key of a new call; a file that is to be removed
after a failure is removed. -/
def Nodes.Allowed (s : Nodes) (e : ℕ × CoordinatorEvent) : Prop :=
  match e.2 with
  | .begin _ batches => ∀ x ∈ batches.keys, validUTF8 x.2 = true ∧
      ∀ q, q ≠ e.1 → ¬ (s.procs q).Opens x
  | .single id batch => ∀ b ∈ batch, ∀ q, q ≠ e.1 → ¬ (s.procs q).Opens (id, b.key)
  | .step ok => ∀ r, (s.procs e.1).pc = .removePending r false → ok = true
  | .crash | .restart => True

def CoordinatorPc.MayLeave (id : Bytes) (r : TxJournalEntry) : CoordinatorPc → Prop
  | .idle | .read _ _ _ _ | .removePending _ true | .removeCommitted _ _ => False
  | .write r' _ _ | .undo r' _ | .removePending r' false => id = r'.id
  | .recover rs _ => r ∈ rs
  | .down => True

/-- What is known of the values that a node is reading, and of the file it removes next. -/
def Coordinator.Busy (c : Coordinator) : Prop :=
  match c.pc with
  | .read txID batches todo images => txID ≠ [] ∧ (∀ x ∈ todo, x ∈ batches.keys) ∧
    (∀ i ∈ images, (i.shard, i.key) ∈ batches.keys) ∧ ∀ x ∈ batches.keys, validUTF8 x.2 = true
  | .removeCommitted r _ => c.journal.lookup (.pending r.id) = none
  | _ => True

structure Coordinator.Ok (c : Coordinator) : Prop where
  names : ∀ id r, c.journal.lookup (.pending id) = some r → r.id = id ∧ id ≠ []
  left : ∀ id r, c.journal.Left id r → c.pc.MayLeave id r
  busy : c.Busy

def Coordinator.Saves (c : Coordinator) (r : TxJournalEntry) : Prop :=
  ∃ txID batches images, c.pc = .read txID batches [] images ∧ r.id = txID ∧
    ∀ x ∈ r.keys, x ∈ batches.keys

/-- What one event does to a node; a call brings its keys. -/
structure Coordinator.Sound (c c' : Coordinator) (e : CoordinatorEffect)
    (brought : List (ℕ × Bytes)) : Prop where
  ok : c'.Ok
  undo : ∀ r, c'.MayUndo r → c.MayUndo r ∨ c.Saves r
  keys : ∀ x ∈ c'.pc.keys, c.Opens x ∨ x ∈ brought
  acked : ∀ l, e = .acknowledged l → (∀ r, ¬ c'.MayUndo r) ∧ c'.pc.keys = [] ∧
    ∀ x ∈ l, c.Opens x ∨ x ∈ brought
  undone : ∀ r id, e = .undone r id → c.MayUndo r

variable {c : Coordinator} {shards : ℕ → Shard} {brought : List (ℕ × Bytes)}

/-! ### One node -/

theorem Coordinator.Sound.quiet (hok : c'.Ok) (hundo : ∀ r, c'.MayUndo r → c.MayUndo r ∨ c.Saves r)
    (hkeys : ∀ x ∈ c'.pc.keys, c.Opens x ∨ x ∈ brought) {e : CoordinatorEffect}
    (he : (∀ l, e ≠ .acknowledged l) ∧ ∀ r id, e ≠ .undone r id) : c.Sound c' e brought :=
  ⟨hok, hundo, hkeys, fun l hl => absurd hl (he.1 l), fun r id hr => absurd hr (he.2 r id)⟩

theorem quiet_none : (∀ l, CoordinatorEffect.none ≠ .acknowledged l) ∧
    ∀ r id, CoordinatorEffect.none ≠ .undone r id := by
  refine ⟨fun l h => ?_, fun r id h => ?_⟩
  · cases h
  · cases h

theorem Coordinator.Sound.move (h : c.Ok) (hleft : ∀ id r, c.pc.MayLeave id r → pc.MayLeave id r)
    (hbusy : Coordinator.Busy { c with pc := pc }) (hholds : ∀ r, pc.Holds r → c.MayUndo r)
    (hkeys : ∀ x ∈ pc.keys, x ∈ c.pc.keys) : c.Sound { c with pc := pc } .none brought := by
  refine Coordinator.Sound.quiet ⟨?_, ?_, ?_⟩ ?_ ?_ quiet_none
  · exact h.names
  · exact fun id r hl => hleft id r (h.left id r hl)
  · exact hbusy
  · exact fun r hr => Or.inl (hr.elim (hholds r) Or.inr)
  · exact fun x hx => Or.inl (Or.inl (hkeys x hx))

theorem Coordinator.Ok.sound_refl (h : c.Ok) : c.Sound c .none brought :=
  Coordinator.Sound.quiet h (fun _ hr => Or.inl hr) (fun _ hx => Or.inl (Or.inl hx)) quiet_none

theorem stored_keys (h : ∀ x ∈ r.keys, validUTF8 x.2 = true) : r.stored.keys = r.keys := by
  unfold TxJournalEntry.keys TxJournalEntry.stored
  rw [List.map_map]
  refine List.map_congr_left (fun i hi => ?_)
  have := h (i.shard, i.key) (List.mem_map.2 ⟨i, hi, rfl⟩)
  simp only [Function.comp_apply]
  rw [jsonString_of_valid this]

theorem Coordinator.Ok.sound_save (h : c.Ok) (hpc : c.pc = .read txID batches [] images) :
    c.Sound ⟨.write { id := txID, preImages := images } batches.list [],
      c.journal.save { id := txID, preImages := images }⟩ .none brought := by
  have hbusy := h.busy
  unfold Coordinator.Busy at hbusy
  rw [hpc] at hbusy
  obtain ⟨hid, -, himages, hvalid⟩ := hbusy
  have hkeys : ∀ x ∈ TxJournalEntry.keys { id := txID, preImages := images }, x ∈ batches.keys := by
    intro x hx
    obtain ⟨i, hi, rfl⟩ := List.mem_map.1 hx
    exact himages i hi
  have hnone : ∀ id r, ¬ c.journal.Left id r := by
    intro id r hl
    have := h.left id r hl
    rwa [hpc] at this
  -- the only record that is left is the new one
  have hleft : ∀ id r, (c.journal.save { id := txID, preImages := images }).Left id r →
      id = txID ∧ r = TxJournalEntry.stored { id := txID, preImages := images } := by
    rintro id r ⟨hp, hcm⟩
    change (AList.insert (.pending txID) _ c.journal).lookup (.pending id) = some r at hp
    change (AList.insert (.pending txID) _ c.journal).lookup (.committed id) = none at hcm
    rw [AList.lookup_insert_ne (by simp)] at hcm
    by_cases hj : id = txID
    · subst hj
      rw [AList.lookup_insert] at hp
      exact ⟨rfl, (Option.some.inj hp).symm⟩
    · rw [AList.lookup_insert_ne (by simpa using hj)] at hp
      exact absurd ⟨hp, hcm⟩ (hnone id r)
  refine Coordinator.Sound.quiet ⟨fun id r hp => ?_, ?_, ?_⟩
    (fun r hr => Or.inr ⟨txID, batches, images, hpc, ?_⟩)
    (fun x hx => Or.inl (Or.inl ?_)) quiet_none
  · change (AList.insert (.pending txID) _ c.journal).lookup (.pending id) = some r at hp
    by_cases hj : id = txID
    · subst hj
      rw [AList.lookup_insert] at hp
      cases hp
      exact ⟨rfl, hid⟩
    · rw [AList.lookup_insert_ne (by simpa using hj)] at hp
      exact h.names id r hp
  · exact fun id r hl => (hleft id r hl).1
  · trivial
  · rcases hr with rfl | ⟨id, hl⟩
    · exact ⟨rfl, hkeys⟩
    · obtain ⟨-, rfl⟩ := hleft id r hl
      refine ⟨rfl, fun x hx => hkeys x ?_⟩
      rwa [stored_keys (fun y hy => hvalid y (hkeys y hy))] at hx
  · rw [hpc]
    exact hkeys x hx

theorem Coordinator.Ok.sound_commit {applied : List ℕ} (h : c.Ok)
    (hpc : c.pc = .write r [] applied) :
    c.Sound ⟨.removePending r true, c.journal.save { r with committed := true }⟩ .none brought := by
  have hpending : ∀ id, (c.journal.save { r with committed := true }).lookup (.pending id) =
      c.journal.lookup (.pending id) :=
        fun id => AList.lookup_insert_ne (by simp [TxJournalEntry.file])
  have hleft : ∀ id r', ¬ (c.journal.save { r with committed := true }).Left id r' := by
    rintro id r' ⟨hp, hcm⟩
    rw [hpending] at hp
    change (AList.insert (.committed r.id) _ c.journal).lookup (.committed id) = none at hcm
    by_cases hj : id = r.id
    · subst hj
      rw [AList.lookup_insert] at hcm
      cases hcm
    · rw [AList.lookup_insert_ne (by simpa using hj)] at hcm
      have := h.left id r' ⟨hp, hcm⟩
      rw [hpc] at this
      exact hj this
  refine Coordinator.Sound.quiet ⟨?_, ?_, ?_⟩ (fun r' hr => ?_) (fun x hx => ?_) quiet_none
  · exact fun id r' hp => h.names id r' (hpending id ▸ hp)
  · exact fun id r' hl => absurd hl (hleft id r')
  · trivial
  · rcases hr with hr | ⟨id, hl⟩
    · exact hr.elim
    · exact absurd hl (hleft id r')
  · refine Or.inl (Or.inl ?_)
    rw [hpc]
    exact hx

theorem Coordinator.Ok.sound_removePending (h : c.Ok) (hpc : c.pc = .removePending r ack) :
    c.Sound ⟨.removeCommitted r ack, c.journal.erase (.pending r.id)⟩ .none brought := by
  have hsub : ∀ id r', (c.journal.erase (.pending r.id)).lookup (.pending id) = some r' →
      id ≠ r.id ∧ c.journal.lookup (.pending id) = some r' := by
    intro id r' hp
    by_cases hj : id = r.id
    · subst hj
      rw [AList.lookup_erase] at hp
      cases hp
    · rw [AList.lookup_erase_ne (by simpa using hj)] at hp
      exact ⟨hj, hp⟩
  have hleft : ∀ id r', ¬ TxJournalStore.Left (c.journal.erase (.pending r.id)) id r' := by
    rintro id r' ⟨hp, hcm⟩
    obtain ⟨hj, hp⟩ := hsub id r' hp
    rw [AList.lookup_erase_ne (by simp)] at hcm
    have := h.left id r' ⟨hp, hcm⟩
    rw [hpc] at this
    cases ack with
    | true => exact this
    | false => exact hj this
  refine Coordinator.Sound.quiet ⟨?_, ?_, ?_⟩ (fun r' hr => ?_) (fun x hx => ?_) quiet_none
  · exact fun id r' hp => h.names id r' (hsub id r' hp).2
  · exact fun id r' hl => absurd hl (hleft id r')
  · exact AList.lookup_erase _ _
  · rcases hr with hr | ⟨id, hl⟩
    · exact hr.elim
    · exact absurd hl (hleft id r')
  · refine Or.inl (Or.inl ?_)
    rw [hpc]
    exact hx

theorem Coordinator.Ok.sound_removeCommitted (h : c.Ok) (hpc : c.pc = .removeCommitted r ack) :
    c.Sound ⟨.idle, c.journal.erase (.committed r.id)⟩
      (if ack then .acknowledged r.keys else .none) brought := by
  have hbusy := h.busy
  unfold Coordinator.Busy at hbusy
  rw [hpc] at hbusy
  have hpending : ∀ id, AList.lookup (.pending id) (c.journal.erase (.committed r.id)) =
      c.journal.lookup (.pending id) := fun id => AList.lookup_erase_ne (by simp)
  have hleft : ∀ id r', ¬ TxJournalStore.Left (c.journal.erase (.committed r.id)) id r' := by
    rintro id r' ⟨hp, hcm⟩
    rw [hpending] at hp
    by_cases hj : id = r.id
    · subst hj
      rw [hbusy] at hp
      cases hp
    · rw [AList.lookup_erase_ne (by simpa using hj)] at hcm
      have := h.left id r' ⟨hp, hcm⟩
      rwa [hpc] at this
  have hundo : ∀ r', ¬ Coordinator.MayUndo ⟨.idle, c.journal.erase (.committed r.id)⟩ r' := by
    rintro r' (hr | ⟨id, hl⟩)
    · exact hr
    · exact hleft id r' hl
  refine ⟨⟨?_, ?_, ?_⟩, fun r' hr => absurd hr (hundo r'), fun x hx => ?_, fun l hl => ?_,
    fun r' id hr => ?_⟩
  · exact fun id r' hp => h.names id r' (hpending id ▸ hp)
  · exact fun id r' hl => absurd hl (hleft id r')
  · trivial
  · cases hx
  · split_ifs at hl
    cases hl
    refine ⟨hundo, rfl, fun x hx => Or.inl (Or.inl ?_)⟩
    rw [hpc]
    exact hx
  · split_ifs at hr

theorem Coordinator.Ok.sound_recovered {rs : List TxJournalEntry} {ids : List ℕ} (h : c.Ok)
    (hpc : c.pc = .recover (r :: rs) ids) :
    c.Sound ⟨.recoverNext rs, c.journal.delete r.id⟩ .none brought := by
  have hsub : ∀ id r', (c.journal.delete r.id).lookup (.pending id) = some r' →
      id ≠ r.id ∧ c.journal.lookup (.pending id) = some r' := by
    intro id r' hp
    by_cases hj : id = r.id
    · subst hj
      rw [(lookup_delete_self _ _).1] at hp
      cases hp
    · rw [(lookup_delete_of_ne _ hj).1] at hp
      exact ⟨hj, hp⟩
  have hleft : ∀ id r', (c.journal.delete r.id).Left id r' → c.journal.Left id r' ∧ r' ∈ rs := by
    rintro id r' ⟨hp, hcm⟩
    obtain ⟨hj, hold⟩ := hsub id r' hp
    rw [(lookup_delete_of_ne _ hj).2] at hcm
    have hmem := h.left id r' ⟨hold, hcm⟩
    rw [hpc] at hmem
    refine ⟨⟨hold, hcm⟩, (List.mem_cons.1 hmem).resolve_left ?_⟩
    rintro rfl
    exact hj (h.names id _ hold).1.symm
  have hholds : ∀ r', (CoordinatorPc.recoverNext rs).Holds r' ↔ r' ∈ rs := by
    intro r'
    cases rs <;> rfl
  have hkeys : (CoordinatorPc.recoverNext rs).keys = [] := by
    cases rs <;> rfl
  refine Coordinator.Sound.quiet ⟨?_, ?_, ?_⟩ (fun r' hr => Or.inl ?_) (fun x hx => ?_) quiet_none
  · exact fun id r' hp => h.names id r' (hsub id r' hp).2
  · intro id r' hl
    have hmem := (hleft id r' hl).2
    cases rs with
    | nil => exact hmem
    | cons r₁ rs => exact hmem
  · unfold Coordinator.Busy
    cases rs <;> trivial
  · rcases hr with hr | ⟨id, hl⟩
    · refine Or.inl ?_
      rw [hpc]
      exact List.mem_cons_of_mem _ ((hholds r').1 hr)
    · exact Or.inr ⟨id, (hleft id r' hl).1⟩
  · rw [hkeys] at hx
    cases hx

theorem Coordinator.Ok.sound_restart (h : c.Ok) (hpc : c.pc = .down) :
    c.Sound (c.handle shards .restart).2.1 .none brought := by
  obtain ⟨hcommitted, hpending, hrecords⟩ := loadAll_spec c.journal
  have hnames : ∀ id r, c.journal.loadAll.1.lookup (.pending id) = some r → r.id = id ∧
      id ≠ [] := by
    intro id r hp
    rw [hpending] at hp
    split_ifs at hp
    exact h.names id r hp
  have hleft : ∀ id r, c.journal.loadAll.1.lookup (.pending id) = some r → c.journal.Left id r := by
    intro id r hp
    rw [hpending] at hp
    split_ifs at hp with hcm
    exact ⟨hp, hcm⟩
  unfold Coordinator.handle
  rw [hpc]
  dsimp only
  rcases hload : c.journal.loadAll with ⟨s, _ | rs⟩
  · rw [hload] at hnames hleft
    refine Coordinator.Sound.quiet ⟨?_, ?_, ?_⟩ (fun r hr => Or.inl ?_) (fun x hx => ?_) quiet_none
    · exact hnames
    · exact fun id r _ => trivial
    · trivial
    · rcases hr with hr | ⟨id, hl⟩
      · exact hr.elim
      · exact Or.inr ⟨id, hleft id r hl.1⟩
    · cases hx
  · have hmem := hrecords rs (by rw [hload])
    rw [hload] at hnames hleft hmem
    have hholds : ∀ r, (CoordinatorPc.recoverNext rs).Holds r ↔ r ∈ rs := by
      intro r
      cases rs <;> rfl
    have hleave : ∀ id r, (CoordinatorPc.recoverNext rs).MayLeave id r ↔ r ∈ rs := by
      intro id r
      cases rs <;> rfl
    refine Coordinator.Sound.quiet ⟨?_, ?_, ?_⟩ (fun r hr => Or.inl (Or.inr ?_)) (fun x hx => ?_)
      quiet_none
    · exact hnames
    · intro id r hl
      obtain ⟨hid, hne⟩ := hnames id r hl.1
      exact (hleave id r).2 ((hmem r).2 ⟨hid ▸ hne, id, hl.1⟩)
    · unfold Coordinator.Busy
      cases rs <;> trivial
    · rcases hr with hr | ⟨id, hl⟩
      · obtain ⟨-, id, hid⟩ := (hmem r).1 ((hholds r).1 hr)
        exact ⟨id, hleft id r hid⟩
      · exact ⟨id, hleft id r hl.1⟩
    · cases rs <;> cases hx

theorem Coordinator.Ok.sound_idle (h : c.Ok) (hleft : ∀ id r, ¬ c.pc.MayLeave id r) :
    c.Sound ⟨.idle, c.journal⟩ .none brought := by
  refine Coordinator.Sound.move h hleft ?_ (fun r hr => hr.elim) (fun x hx => ?_)
  · trivial
  · cases hx

theorem Coordinator.Ok.sound_down (h : c.Ok) : c.Sound ⟨.down, c.journal⟩ .none brought := by
  refine Coordinator.Sound.move h (fun _ _ _ => trivial) ?_ (fun r hr => hr.elim) (fun x hx => ?_)
  · trivial
  · cases hx

theorem Coordinator.Sound.undoing {id : ℕ} (h : c.Sound { c with pc := pc } .none brought)
    (hr : c.MayUndo r) : c.Sound { c with pc := pc } (.undone r id) brought := by
  refine ⟨h.ok, h.undo, h.keys, fun l hl => ?_, fun r' id' he => ?_⟩
  · cases hl
  · cases he
    exact hr

theorem Coordinator.Ok.sound_within (h : c.Ok)
    (hc : (∀ id r', c.pc.MayLeave id r' → id = r.id) ∧ c.pc.Holds r ∧ c.pc.keys = r.keys)
    (hpc : (∀ r', pc.MayLeave r.id r') ∧ (∀ r', pc.Holds r' → r' = r) ∧ pc.keys = r.keys)
    (hbusy : Coordinator.Busy ⟨pc, c.journal⟩) : c.Sound ⟨pc, c.journal⟩ .none brought := by
  refine Coordinator.Sound.move h (fun id r' hl => ?_) hbusy (fun r' hr => Or.inl ?_)
    (fun x hx => ?_)
  · rw [hc.1 id r' hl]
    exact hpc.1 r'
  · rw [hpc.2.1 r' hr]
    exact hc.2.1
  · rw [hc.2.2, ← hpc.2.2]
    exact hx

theorem Coordinator.Ok.sound_read (h : c.Ok) {batches todo images}
    (hpc : c.pc = .read txID batches todo images) :
    c.Sound (c.next shards ok).2.1 (c.next shards ok).2.2 brought := by
  have hbusy := h.busy
  unfold Coordinator.Busy at hbusy
  unfold Coordinator.next
  rw [hpc] at hbusy ⊢
  obtain ⟨hid, htodo, himages, hvalid⟩ := hbusy
  have hidle : c.Sound ⟨.idle, c.journal⟩ .none brought :=
    h.sound_idle (fun id r hl => by rwa [hpc] at hl)
  cases todo with
  | nil =>
    cases ok with
    | true => exact h.sound_save hpc
    | false => exact hidle
  | cons x todo =>
    cases ok with
    | false => exact hidle
    | true =>
      refine Coordinator.Sound.move h (fun id r hl => ?_) ?_ (fun r hr => hr.elim) (fun y hy => ?_)
      · rwa [hpc] at hl
      · refine ⟨hid, fun y hy => htodo y (List.mem_cons_of_mem _ hy), fun i hi => ?_, hvalid⟩
        rcases List.mem_append.1 hi with hi | hi
        · exact himages i hi
        · rw [List.mem_singleton.1 hi]
          obtain ⟨h1, h2, -⟩ := preImage_fields shards x.1 x.2
          rw [h1, h2]
          exact htodo x List.mem_cons_self
      · rw [hpc]
        exact hy

theorem Coordinator.Ok.sound_write (h : c.Ok) {todo applied}
    (hpc : c.pc = .write r todo applied) :
    c.Sound (c.next shards ok).2.1 (c.next shards ok).2.2 brought := by
  have hc : (∀ id r', c.pc.MayLeave id r' → id = r.id) ∧ c.pc.Holds r ∧ c.pc.keys = r.keys := by
    rw [hpc]
    exact ⟨fun _ _ h => h, rfl, rfl⟩
  have hundo : ∀ ids, c.Sound ⟨.undo r ids, c.journal⟩ .none brought := fun ids =>
    h.sound_within hc ⟨fun _ => rfl, fun _ h => h, rfl⟩ trivial
  have hwrite : ∀ todo applied, c.Sound ⟨.write r todo applied, c.journal⟩ .none brought :=
    fun _ _ => h.sound_within hc ⟨fun _ => rfl, fun _ h => h, rfl⟩ trivial
  unfold Coordinator.next
  rw [hpc]
  cases todo with
  | nil =>
    cases ok with
    | true => exact h.sound_commit hpc
    | false => exact h.sound_within hc ⟨fun _ => rfl, fun _ h => h.elim, rfl⟩ trivial
  | cons x todo =>
    cases ok with
    | true => exact hwrite _ _
    | false => exact hundo _

theorem Coordinator.Ok.sound_undo (h : c.Ok) {ids} (hpc : c.pc = .undo r ids) :
    c.Sound (c.next shards ok).2.1 (c.next shards ok).2.2 brought := by
  have hc : (∀ id r', c.pc.MayLeave id r' → id = r.id) ∧ c.pc.Holds r ∧ c.pc.keys = r.keys := by
    rw [hpc]
    exact ⟨fun _ _ h => h, rfl, rfl⟩
  have hdone : c.Sound ⟨.removePending r false, c.journal⟩ .none brought :=
    h.sound_within hc ⟨fun _ => rfl, fun _ h => h.elim, rfl⟩ trivial
  unfold Coordinator.next
  rw [hpc]
  cases ids with
  | nil => exact hdone
  | cons id ids =>
    have hnext : c.Sound ⟨.undo r ids, c.journal⟩ .none brought :=
      h.sound_within hc ⟨fun _ => rfl, fun _ h => h, rfl⟩ trivial
    dsimp only
    split_ifs
    · exact hnext
    · exact hnext.undoing (Or.inl hc.2.1)
    · exact hdone

theorem Coordinator.Ok.sound_recover (h : c.Ok) {rs ids} (hpc : c.pc = .recover rs ids) :
    c.Sound (c.next shards ok).2.1 (c.next shards ok).2.2 brought := by
  unfold Coordinator.next
  rw [hpc]
  cases rs with
  | nil => exact h.sound_idle (fun id r hl => by rw [hpc] at hl; cases hl)
  | cons r rs =>
    have hdone : c.Sound (if ok then ⟨.recoverNext rs, c.journal.delete r.id⟩
        else ⟨.down, c.journal⟩) .none brought := by
      split_ifs
      · exact h.sound_recovered hpc
      · exact h.sound_down
    dsimp only
    by_cases hc : r.committed = true
    · rw [if_pos hc]
      exact hdone
    · rw [if_neg hc]
      cases ids with
      | nil => exact hdone
      | cons id ids =>
        have hnext : c.Sound ⟨.recover (r :: rs) ids, c.journal⟩ .none brought := by
          refine Coordinator.Sound.move h (fun id r' hl => ?_) ?_ (fun r' hr => Or.inl ?_)
            (fun x hx => ?_)
          · rwa [hpc] at hl
          · trivial
          · rwa [hpc]
          · cases hx
        have hholds : c.MayUndo r := by
          refine Or.inl ?_
          rw [hpc]
          exact List.mem_cons_self
        dsimp only
        split_ifs
        · exact hnext
        · exact hnext.undoing hholds
        · exact h.sound_down

/-- **Every step of a node.** -/
theorem Coordinator.Ok.sound_next (h : c.Ok)
    (hallow : ∀ r, c.pc = .removePending r false → ok = true) :
    c.Sound (c.next shards ok).2.1 (c.next shards ok).2.2 brought := by
  cases hpc : c.pc with
  | idle | down =>
    unfold Coordinator.next
    rw [hpc]
    exact h.sound_refl
  | read txID batches todo images => exact h.sound_read hpc
  | write r todo applied => exact h.sound_write hpc
  | undo r ids => exact h.sound_undo hpc
  | recover rs ids => exact h.sound_recover hpc
  | removePending r ack =>
    unfold Coordinator.next
    rw [hpc]
    cases ok with
    | true => exact h.sound_removePending hpc
    | false =>
      cases ack with
      | false => exact absurd (hallow r hpc) Bool.false_ne_true
      | true => exact h.sound_idle (fun id r hl => by rwa [hpc] at hl)
  | removeCommitted r ack =>
    unfold Coordinator.next
    rw [hpc]
    cases ok with
    | true => exact h.sound_removeCommitted hpc
    | false => exact h.sound_idle (fun id r hl => by rwa [hpc] at hl)

def CoordinatorEvent.keys : CoordinatorEvent → List (ℕ × Bytes)
  | .begin _ batches => batches.keys
  | .single id batch => batch.map (fun b => (id, b.key))
  | _ => []

/-- **Every event at a node.** -/
theorem Coordinator.Ok.sound_handle (h : c.Ok)
    (hvalid : ∀ digits batches, e = .begin digits batches →
      ∀ x ∈ batches.keys, validUTF8 x.2 = true)
    (hallow : ∀ ok r, e = .step ok → c.pc = .removePending r false → ok = true) :
    c.Sound (c.handle shards e).2.1 (c.handle shards e).2.2 e.keys := by
  cases e with
  | begin digits batches =>
    unfold Coordinator.handle
    cases hpc : c.pc with
    | idle =>
      refine Coordinator.Sound.quiet ⟨?_, ?_, ?_⟩ (fun r hr => Or.inl ?_) (fun x hx => Or.inr hx)
        ⟨fun l hl => ?_, fun r id hr => ?_⟩
      · exact h.names
      · intro id r hl
        have := h.left id r hl
        rwa [hpc] at this
      · exact ⟨List.cons_ne_nil _ _, fun x hx => hx, fun i hi => (by cases hi), hvalid _ _ rfl⟩
      · rcases hr with hr | hr
        · exact hr.elim
        · exact Or.inr hr
      · cases hl
      · cases hr
    | _ => exact h.sound_refl
  | single id batch =>
    unfold Coordinator.handle
    cases hpc : c.pc with
    | idle =>
      have hundo : ∀ r, ¬ c.MayUndo r := by
        rintro r (hr | ⟨id, hl⟩)
        · rwa [hpc] at hr
        · have := h.left id r hl
          rwa [hpc] at this
      refine ⟨h, fun r hr => Or.inl hr, fun x hx => Or.inl (Or.inl hx), fun l hl => ?_,
        fun r id hr => ?_⟩
      · cases hl
        refine ⟨hundo, ?_, fun x hx => Or.inr hx⟩
        change c.pc.keys = []
        rw [hpc]
        rfl
      · cases hr
    | _ => exact h.sound_refl
  | step ok => exact h.sound_next (fun r hr => hallow ok r rfl hr)
  | crash => exact h.sound_down
  | restart =>
    cases hpc : c.pc with
    | down =>
      have hnone : (c.handle shards .restart).2.2 = .none := by
        unfold Coordinator.handle
        rw [hpc]
        dsimp only
        rcases c.journal.loadAll with ⟨s, _ | rs⟩ <;> rfl
      rw [hnone]
      exact h.sound_restart hpc
    | _ =>
      unfold Coordinator.handle
      rw [hpc]
      exact h.sound_refl

theorem next_reading (h : (c.next shards ok).2.1.pc = .read txID batches todo images) :
    ∃ todo images, c.pc = .read txID batches todo images := by
  unfold Coordinator.next at h
  cases hpc : c.pc with
  | read txID' batches' todo' images' =>
    rw [hpc] at h
    cases todo' with
    | nil =>
      dsimp only at h
      split_ifs at h
    | cons x todo' =>
      dsimp only at h
      split_ifs at h
      cases h
      exact ⟨_, _, rfl⟩
  | idle => rw [hpc] at h; rw [hpc] at h; cases h
  | down => rw [hpc] at h; rw [hpc] at h; cases h
  | write r todo' applied =>
    rw [hpc] at h
    cases todo' <;> dsimp only at h <;> split_ifs at h
  | undo r ids =>
    rw [hpc] at h
    cases ids <;> dsimp only at h
    · cases h
    · split_ifs at h
  | removePending r ack =>
    rw [hpc] at h
    dsimp only at h
    split_ifs at h
  | removeCommitted r ack =>
    rw [hpc] at h
    dsimp only at h
    split_ifs at h
  | recover rs ids =>
    have hnext : ∀ rs, CoordinatorPc.recoverNext rs ≠ .read txID batches todo images := by
      intro rs hc
      cases rs <;> cases hc
    rw [hpc] at h
    cases rs with
    | nil => cases h
    | cons r rs =>
      cases ids <;> dsimp only at h <;> split_ifs at h
      all_goals exact absurd h (hnext rs)

theorem handle_reading (h : (c.handle shards e).2.1.pc = .read txID batches todo images) :
    (∃ todo images, c.pc = .read txID batches todo images) ∨
      (c.handle shards e).2.2 = .began txID := by
  cases e with
  | begin digits batches' =>
    unfold Coordinator.handle at h ⊢
    cases hpc : c.pc with
    | idle =>
      rw [hpc] at h
      cases h
      exact Or.inr rfl
    | read => rw [hpc] at h; rw [hpc] at h; exact Or.inl ⟨_, _, h⟩
    | _ => rw [hpc] at h; rw [hpc] at h; cases h
  | single id batch =>
    refine Or.inl ⟨todo, images, ?_⟩
    unfold Coordinator.handle at h
    dsimp only at h
    split at h <;> exact h
  | step ok => exact Or.inl (next_reading h)
  | crash => cases h
  | restart =>
    unfold Coordinator.handle at h
    cases hpc : c.pc with
    | down =>
      rw [hpc] at h
      dsimp only at h
      rcases hload : c.journal.loadAll with ⟨s, _ | rs⟩
      · rw [hload] at h
        cases h
      · rw [hload] at h
        cases rs <;> cases h
    | read => rw [hpc] at h; rw [hpc] at h; exact Or.inl ⟨_, _, h⟩
    | _ => rw [hpc] at h; rw [hpc] at h; cases h

/-! ### All nodes -/

/-- A key of a transaction that a node has begun and may still undo. -/
def Coordinator.Tracks (c : Coordinator) (id : Bytes) (x : ℕ × Bytes) : Prop :=
  (∃ r, c.MayUndo r ∧ r.id = id ∧ x ∈ r.keys) ∨
    ∃ batches todo images, c.pc = .read id batches todo images ∧ x ∈ batches.keys

theorem Coordinator.Tracks.opens (h : c.Tracks id x) : c.Opens x := by
  rcases h with ⟨r, hr, -, hx⟩ | ⟨batches, todo, images, hpc, hx⟩
  · exact Or.inr ⟨r, hr, hx⟩
  · refine Or.inl ?_
    rw [hpc]
    exact hx

theorem Coordinator.Sound.opens {e : CoordinatorEffect} (h : c.Sound c' e brought)
    (hx : c'.Opens x) : c.Opens x ∨ x ∈ brought := by
  rcases hx with hx | ⟨r, hr, hx⟩
  · exact h.keys x hx
  · rcases h.undo r hr with hr | ⟨txID, batches, images, hpc, -, hkeys⟩
    · exact Or.inl (Or.inr ⟨r, hr, hx⟩)
    · refine Or.inl (Or.inl ?_)
      rw [hpc]
      exact hkeys x hx

theorem tracks_handle (h : c.Sound (c.handle shards e).2.1 (c.handle shards e).2.2 brought)
    (hx : (c.handle shards e).2.1.Tracks id x) :
    c.Tracks id x ∨ (c.handle shards e).2.2 = .began id := by
  rcases hx with ⟨r, hr, hid, hx⟩ | ⟨batches, todo, images, hpc, hx⟩
  · rcases h.undo r hr with hr | ⟨txID, batches, images, hpc, hid', hkeys⟩
    · exact Or.inl (Or.inl ⟨r, hr, hid, hx⟩)
    · refine Or.inl (Or.inr ⟨batches, [], images, ?_, hkeys x hx⟩)
      rw [hpc, ← hid, hid']
  · rcases handle_reading hpc with ⟨todo', images', hpc'⟩ | hbegan
    · exact Or.inl (Or.inr ⟨batches, todo', images', hpc', hx⟩)
    · exact Or.inr hbegan

theorem mem_keys_of_undoBatch {id : ℕ} {b : BatchEntry} (hb : b ∈ r.undoBatch id) :
    (id, b.key) ∈ r.keys := by
  unfold TxJournalEntry.undoBatch at hb
  obtain ⟨i, hi, rfl⟩ := List.mem_map.1 hb
  obtain ⟨hmem, hid⟩ := List.mem_filter.1 hi
  have hkey : i.restore.key = i.key := by
    unfold TxPreImage.restore
    split_ifs <;> rfl
  rw [hkey, ← of_decide_eq_true hid]
  exact List.mem_map.2 ⟨i, List.mem_reverse.1 hmem, rfl⟩

/-- The invariant: open transactions of different nodes have no common key, and no write of a key of
an open transaction was acknowledged since it began. -/
structure Nodes.Inv (s : Nodes) : Prop where
  ok : ∀ p, (s.procs p).Ok
  apart : ∀ p q x, p ≠ q → (s.procs p).Opens x → ¬ (s.procs q).Opens x
  since : ∀ p id x, (s.procs p).Tracks id x → s.lastAck x ≤ s.beganAt p id
  past : ∀ x, s.lastAck x ≤ s.clock
  kept : s.erased = false

variable {s : Nodes}

variable {p q : ℕ} {ev : CoordinatorEvent}

theorem Nodes.Inv.sound (h : s.Inv) (hok : s.Allowed (p, ev)) :
    (s.procs p).Sound ((s.procs p).handle s.shards ev).2.1 ((s.procs p).handle s.shards ev).2.2
      ev.keys := by
  refine (h.ok p).sound_handle ?_ ?_
  · rintro digits batches rfl x hx
    exact (hok x hx).1
  · rintro ok r rfl hpc
    exact hok r hpc

theorem Nodes.Allowed.others (hok : s.Allowed (p, ev)) {x : ℕ × Bytes} (hx : x ∈ ev.keys)
    (hq : q ≠ p) : ¬ (s.procs q).Opens x := by
  cases ev with
  | begin digits batches => exact (hok x hx).2 q hq
  | single id batch =>
    obtain ⟨b, hb, rfl⟩ := List.mem_map.1 hx
    exact hok b hb q hq
  | _ => cases hx

theorem Nodes.next_self : (s.next (p, ev)).procs p = ((s.procs p).handle s.shards ev).2.1 :=
  Function.update_self _ _ _

theorem Nodes.next_other (hq : q ≠ p) : (s.next (p, ev)).procs q = s.procs q :=
  Function.update_of_ne hq _ _

theorem Nodes.Inv.apart_next (h : s.Inv) (hok : s.Allowed (p, ev)) {x : ℕ × Bytes} (hq : q ≠ p)
    (hx : ((s.next (p, ev)).procs p).Opens x) : ¬ ((s.next (p, ev)).procs q).Opens x := by
  rw [Nodes.next_self] at hx
  rw [Nodes.next_other hq]
  rcases (h.sound hok).opens hx with hx | hx
  · exact h.apart p q x hq.symm hx
  · exact hok.others hx hq

theorem Nodes.Inv.since_self (h : s.Inv) (hok : s.Allowed (p, ev)) {x : ℕ × Bytes}
    (hx : ((s.next (p, ev)).procs p).Tracks id x) :
    (s.next (p, ev)).lastAck x ≤ (s.next (p, ev)).beganAt p id := by
  have hsound := h.sound hok
  rw [Nodes.next_self] at hx
  have hold := tracks_handle hsound hx
  unfold Nodes.next
  dsimp only
  cases heff : ((s.procs p).handle s.shards ev).2.2 with
  | acknowledged l =>
    -- a node that has just acknowledged a batch has nothing open
    obtain ⟨hundo, hkeys, -⟩ := hsound.acked l heff
    rcases hx with ⟨r, hr, -⟩ | ⟨batches, todo, images, hpc, hx⟩
    · exact absurd hr (hundo r)
    · rw [hpc] at hkeys
      change batches.keys = [] at hkeys
      rw [hkeys] at hx
      cases hx
  | began txID =>
    rw [heff] at hold
    dsimp only
    rw [Function.update_self]
    by_cases hid : id = txID
    · rw [hid, Function.update_self]
      exact h.past x
    · rw [Function.update_of_ne hid]
      refine h.since p id x (hold.resolve_right (fun hc => hid ?_))
      cases hc
      rfl
  | none => exact h.since p id x (hold.resolve_right (fun hc => by rw [heff] at hc; cases hc))
  | undone r j => exact h.since p id x (hold.resolve_right (fun hc => by rw [heff] at hc; cases hc))

theorem Nodes.Inv.since_other (h : s.Inv) (hok : s.Allowed (p, ev)) {x : ℕ × Bytes} (hq : q ≠ p)
    (hx : ((s.next (p, ev)).procs q).Tracks id x) :
    (s.next (p, ev)).lastAck x ≤ (s.next (p, ev)).beganAt q id := by
  rw [Nodes.next_other hq] at hx
  have hlast := h.since q id x hx
  unfold Nodes.next
  dsimp only
  cases heff : ((s.procs p).handle s.shards ev).2.2 with
  | acknowledged l =>
    dsimp only
    rw [if_neg]
    · exact hlast
    · intro hxl
      rcases ((h.sound hok).acked l heff).2.2 x hxl with hx' | hx'
      · exact h.apart p q x (Ne.symm hq) hx' hx.opens
      · exact hok.others hx' hq hx.opens
  | began txID =>
    dsimp only
    rw [Function.update_of_ne hq]
    exact hlast
  | none => exact hlast
  | undone r j => exact hlast

/-- **Every event at every node.** -/
theorem Nodes.Inv.next (h : s.Inv) {e : ℕ × CoordinatorEvent} (hok : s.Allowed e) :
    (s.next e).Inv := by
  obtain ⟨p, ev⟩ := e
  refine ⟨fun q => ?_, fun q q' x hne hx hx' => ?_, fun q id x hx => ?_, fun x => ?_, ?_⟩
  · by_cases hq : q = p
    · rw [hq, Nodes.next_self]
      exact (h.sound hok).ok
    · rw [Nodes.next_other hq]
      exact h.ok q
  · by_cases hq : q = p
    · subst hq
      exact h.apart_next hok hne.symm hx hx'
    · by_cases hq' : q' = p
      · subst hq'
        exact h.apart_next hok hne hx' hx
      · rw [Nodes.next_other hq] at hx
        rw [Nodes.next_other hq'] at hx'
        exact h.apart q q' x hne hx hx'
  · by_cases hq : q = p
    · subst hq
      exact h.since_self hok hx
    · exact h.since_other hok hq hx
  · have hpast := h.past x
    unfold Nodes.next
    dsimp only
    cases ((s.procs p).handle s.shards ev).2.2 with
    | acknowledged l =>
      dsimp only
      split_ifs <;> omega
    | _ => exact Nat.le_succ_of_le hpast
  · unfold Nodes.next
    dsimp only
    split
    · rename_i r id heff
      rw [h.kept, Bool.false_or, List.any_eq_false]
      intro b hb
      rw [decide_eq_true_eq, not_lt]
      exact h.since p r.id _
        (Or.inl ⟨r, (h.sound hok).undone r id heff, rfl, mem_keys_of_undoBatch hb⟩)
    · exact h.kept

def newNodes (shards : ℕ → Shard) : Nodes := { shards := shards, procs := fun _ => {} }

theorem not_opens_new (x : ℕ × Bytes) : ¬ Coordinator.Opens {} x := by
  rintro (hx | ⟨r, hr | ⟨id, hl, -⟩, -⟩)
  · cases hx
  · exact hr
  · cases hl

theorem newNodes_inv (shards : ℕ → Shard) : (newNodes shards).Inv := by
  refine ⟨fun p => ⟨?_, ?_, trivial⟩, fun p q x _ hx => absurd hx (not_opens_new x),
    fun p id x hx => absurd hx.opens (not_opens_new x), fun x => le_rfl, rfl⟩
  · intro id r hp
    cases hp
  · rintro id r ⟨hp, -⟩
    cases hp

/-- **When rollbacks leave the writes of others alone.** In every run of any number of nodes in
which no call has a key in common with an open transaction of another node and no file stays behind
after a failure, no rollback, live or after a crash, overwrites a key of which a write was
acknowledged since its transaction began. -/
theorem rollback_erases_nothing {shards : ℕ → Shard} {events : List (ℕ × CoordinatorEvent)}
    (hrun : Along Nodes.next Nodes.Allowed (newNodes shards) events) :
    (events.foldl Nodes.next (newNodes shards)).erased = false :=
  (hrun.invariant Nodes.Inv (newNodes_inv shards) (fun _ _ h hok => h.next hok)).kept

/-! ### One node alone -/

/-- Whether a node removes the files of a transaction that failed. -/
def CoordinatorPc.clears : CoordinatorPc → Bool
  | .removePending _ false => true
  | _ => false

/-- What is asked of a node that has the shards to itself. -/
def Nodes.AllowedAlone (p : ℕ) (s : Nodes) (e : ℕ × CoordinatorEvent) : Prop :=
  e.1 = p ∧
    match e.2 with
    | .begin _ batches => ∀ x ∈ batches.keys, validUTF8 x.2 = true
    | .step ok => (s.procs e.1).pc.clears = true → ok = true
    | _ => True

instance decidableAllowedAlone (p : ℕ) (s : Nodes) : (e : ℕ × CoordinatorEvent) →
    Decidable (s.AllowedAlone p e)
  | (q, .begin _ batches) =>
    inferInstanceAs (Decidable (q = p ∧ ∀ x ∈ batches.keys, validUTF8 x.2 = true))
  | (q, .step ok) =>
    inferInstanceAs (Decidable (q = p ∧ ((s.procs q).pc.clears = true → ok = true)))
  | (q, .single _ _) | (q, .crash) | (q, .restart) => inferInstanceAs (Decidable (q = p ∧ True))

theorem along_alone {p : ℕ} {events : List (ℕ × CoordinatorEvent)}
    (hs : ∀ q, q ≠ p → s.procs q = {}) (h : Along Nodes.next (Nodes.AllowedAlone p) s events) :
    Along Nodes.next Nodes.Allowed s events := by
  induction events generalizing s with
  | nil => trivial
  | cons e events ih =>
    obtain ⟨q, ev⟩ := e
    obtain ⟨⟨rfl, hev⟩, hrest⟩ := h
    have hothers : ∀ x q', q' ≠ q → ¬ (s.procs q').Opens x := by
      intro x q' hq
      rw [hs q' hq]
      exact not_opens_new x
    refine ⟨?_, ih (fun q' hq => ?_) hrest⟩
    · cases ev with
      | begin digits batches => exact fun x hx => ⟨hev x hx, fun q' hq => hothers x q' hq⟩
      | single id batch => exact fun b _ q' hq => hothers _ q' hq
      | step ok =>
        intro r hpc
        refine hev ?_
        rw [hpc]
        rfl
      | crash => trivial
      | restart => trivial
    · change Function.update s.procs q _ q' = {}
      rw [Function.update_of_ne hq]
      exact hs q' hq

theorem sorted_pairBatches : ([(0, [⟨[107], [49], false⟩]), (1, [⟨[108], [50], false⟩])] :
    List (ℕ × List BatchEntry)).Pairwise (fun a b => a.1 < b.1) := by decide

def pairBatches : ShardBatches :=
  ⟨[(0, [⟨[107], [49], false⟩]), (1, [⟨[108], [50], false⟩])], sorted_pairBatches⟩

/-- The second shard refuses its part, and the node crashes during the rollback and recovers. -/
def aloneRun : List (ℕ × CoordinatorEvent) :=
  [(0, .single 0 [⟨[107], [48], false⟩]), (0, .begin [49] pairBatches), (0, .step true),
    (0, .step true), (0, .step true), (0, .step true), (0, .step false), (0, .crash), (0, .restart),
    (0, .step true), (0, .step true), (0, .step true), (0, .step true),
    (0, .single 0 [⟨[107], [51], false⟩])]

theorem aloneRun_erases_nothing :
    (aloneRun.foldl Nodes.next (newNodes (fun _ => ∅))).erased = false :=
  rollback_erases_nothing (along_alone (fun _ _ => rfl)
    (by decide +kernel : Along Nodes.next (Nodes.AllowedAlone 0) (newNodes (fun _ => ∅)) aloneRun))

/-- A node has read the old values and written the first shard when another node writes there. -/
def sharedRun : List (ℕ × CoordinatorEvent) :=
  [(0, .begin [49] pairBatches), (0, .step true), (0, .step true), (0, .step true), (0, .step true),
    (1, .single 0 [⟨[107], [51], false⟩])]

/-- Then the second shard refuses its part, and the first one is taken back. -/
def sharedRollback : List (ℕ × CoordinatorEvent) := sharedRun ++ [(0, .step false), (0, .step true)]

/-- The write is acknowledged, and then the rollback of the other node deletes it. -/
theorem sharedRun_erases :
    contents (sharedRun.foldl Nodes.next (newNodes (fun _ => ∅))).shards 0 [107] = some [51] ∧
    (sharedRollback.foldl Nodes.next (newNodes (fun _ => ∅))).erased = true ∧
    contents (sharedRollback.foldl Nodes.next (newNodes (fun _ => ∅))).shards 0 [107] = none := by
  decide +kernel

end LsmTree
