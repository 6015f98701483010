import LsmTree.Lib.KeyValue
import LsmTree.Cluster.Replica
import LsmTree.Property.Refinement

/-!
# Members of a Raft group

A member applies the committed entries one after another, takes snapshots, and crashes between any
two steps of `Apply`.  After a restart Raft hands the entries over again, from the start or from its
last snapshot, and `Apply` skips those at or below the stored index.

`MapMember` is the same with a map in the place of the engine.  With synced logs a member behaves
like it (`MemberState.For.next`).
-/

namespace LsmTree

open KeyValue

variable {i : ℕ}

/-! ### The committed log -/

/-- The committed commands.  Indices grow, but other entries of the Raft log lie between them. -/
structure CommittedLog where
  entries : List LogEntry
  sorted : entries.Pairwise (fun x y => x.index < y.index)
  positive : ∀ x ∈ entries, 0 < x.index

/-- The updates of a command.  One that `Apply` rejects has none. -/
def Command.updates (maxValueSize : ℤ) (c : Command) : List (Bytes × Option Bytes) :=
  match c.validate, c.op with
  | .ok (), .ok op => if op.fits maxValueSize then op.updates else []
  | _, _ => []

def LogEntry.updates (maxValueSize : ℤ) (x : LogEntry) : List (Bytes × Option Bytes) :=
  x.data.updates maxValueSize

def LogEntry.LiveValues (x : LogEntry) : Prop :=
  ∀ op, x.data.op = .ok op → ∀ u ∈ op.updates, u.2 ≠ some []

instance (x : LogEntry) : Decidable x.LiveValues := decidableForallOk _ _

def allUpdates (maxValueSize : ℤ) (xs : List LogEntry) : List (Bytes × Option Bytes) :=
  xs.flatMap (LogEntry.updates maxValueSize)

theorem allUpdates_append (n : ℤ) (xs ys : List LogEntry) :
    allUpdates n (xs ++ ys) = allUpdates n xs ++ allUpdates n ys := List.flatMap_append

def foldEntries (maxValueSize : ℤ) (xs : List LogEntry) : Bytes → Option Bytes :=
  applyAll (allUpdates maxValueSize xs) (fun _ => none)

def CommittedLog.upTo (log : CommittedLog) (a : AppliedState) : List LogEntry :=
  log.entries.takeWhile (fun x => x.index ≤ a.lastAppliedIndex)

def CommittedLog.coveredBy (log : CommittedLog) (a : AppliedState) : ℕ := (log.upTo a).length

variable {log : CommittedLog} {n : ℤ} {m : Bytes → Option Bytes}

theorem lt_length_takeWhile {xs : List LogEntry} (h : xs.Pairwise (fun x y => x.index < y.index))
    {x : LogEntry} (hx : xs[i]? = some x) (a : ℕ) :
    i < (xs.takeWhile (fun x => x.index ≤ a)).length ↔ x.index ≤ a := by
  induction xs generalizing i with
  | nil => cases hx
  | cons z xs ih =>
    obtain ⟨hz, hxs⟩ := List.pairwise_cons.1 h
    cases i with
    | zero =>
      cases hx
      by_cases hle : x.index ≤ a <;> simp [hle]
    | succ i =>
      have hx : xs[i]? = some x := hx
      by_cases hle : z.index ≤ a
      · rw [List.takeWhile_cons_of_pos (by simpa using hle), List.length_cons,
          Nat.succ_lt_succ_iff]
        exact ih hxs hx
      · have hlt := hz x (List.mem_of_getElem? hx)
        rw [List.takeWhile_cons_of_neg (by simpa using hle)]
        simp only [List.length_nil, Nat.not_lt_zero, false_iff]
        omega

theorem CommittedLog.lt_coveredBy {x : LogEntry} (hx : log.entries[i]? = some x)
    (a : AppliedState) : i < log.coveredBy a ↔ x.index ≤ a.lastAppliedIndex :=
  lt_length_takeWhile log.sorted hx a.lastAppliedIndex

theorem CommittedLog.coveredBy_le (log : CommittedLog) (a : AppliedState) :
    log.coveredBy a ≤ log.entries.length := (List.takeWhile_sublist _).length_le

theorem CommittedLog.coveredBy_state {x : LogEntry} (hx : log.entries[i]? = some x) :
    log.coveredBy x.state = i + 1 := by
  refine le_antisymm (not_lt.1 (fun hlt => ?_)) ((log.lt_coveredBy hx x.state).2 le_rfl)
  have hlen := hlt.trans_le (log.coveredBy_le x.state)
  have hy := List.getElem?_eq_getElem hlen
  have hle := (log.lt_coveredBy hy x.state).1 hlt
  have hi : i < log.entries.length := (Nat.lt_succ_self i).trans hlen
  have hlt' := List.pairwise_iff_getElem.1 log.sorted i (i + 1) hi hlen (Nat.lt_succ_self i)
  rw [List.getElem?_eq_getElem hi] at hx
  cases hx
  exact absurd hle (not_le.2 hlt')

theorem CommittedLog.coveredBy_zero (log : CommittedLog) : log.coveredBy {} = 0 := by
  by_contra hne
  have hlen := (Nat.pos_of_ne_zero hne).trans_le (log.coveredBy_le {})
  have hle := (log.lt_coveredBy (List.getElem?_eq_getElem hlen) {}).1 (Nat.pos_of_ne_zero hne)
  exact absurd hle (not_le.2 (log.positive _ (List.getElem_mem hlen)))

/-! ### Members of a Raft group -/

/-- Where a call of `Apply` is: the engine's write done, the index stored. -/
inductive ApplyPc
  | idle
  | written (y : LogEntry)
  | stored (y : LogEntry)

/-- A running member.  Raft has handed over the first `handed` entries, or counts them as handed
over because it restored a snapshot; `snap` is its latest snapshot with the position it was taken
at. -/
structure Member where
  replica : Replica
  pc : ApplyPc := .idle
  handed : ℕ := 0
  snap : Option (EngineSnapshot × ℕ) := none

structure MemberDisk where
  dir : DataDir := {}
  stored : AppliedState := {}
  snap : Option (EngineSnapshot × ℕ) := none

/-- A member is running, or crashed; or a snapshot has closed its engine and could not open it
again. -/
inductive MemberState
  | up (x : Member)
  | closed (d : MemberDisk)
  | down (d : MemberDisk)

/-- What happens at a member: the steps of `Apply`, steps of the engine by itself, a flush that
fails, snapshots (which may fail to be persisted), crashes and restarts. -/
inductive MemberEvent
  | apply
  | save (ok : Bool)
  | update
  | engine (ev : Event)
  | flushFails (fault : FlushFault)
  | snapshot (drained : ℕ) (persisted : Bool)
  | crash
  | restart

def Member.disk (x : Member) : MemberDisk := ⟨x.replica.eng.dir, x.replica.stored, x.snap⟩

/-- `OpenRaftNode`: open the engine, load the index, and let Raft restore its latest snapshot. -/
def MemberDisk.start (cfg : Config) (d : MemberDisk) : Except OpenError Member :=
  match openReplica cfg d.dir d.stored with
  | .error err => .error err
  | .ok r =>
    match d.snap with
    | none => .ok { replica := r }
    | some (s, k) =>
      match s.restore cfg with
      | .error err => .error err
      | .ok r => .ok { replica := r, handed := k, snap := some (s, k) }

/-- One event at a running member.  Raft calls `Apply` and `Snapshot` one at a time. -/
def Member.next (cfg : Config) (log : CommittedLog) (x : Member) : MemberEvent → MemberState
  | .apply =>
    match x.pc, log.entries[x.handed]? with
    | .idle, some y =>
      match x.replica.applyEngine y with
      | (r, some _) => .up { x with replica := r, handed := x.handed + 1 }
      | (r, none) => .up { x with replica := r, handed := x.handed + 1, pc := .written y }
    | _, _ => .up x
  | .save ok =>
    match x.pc with
    | .written y =>
      match x.replica.saveApplied y ok with
      | (r, some _) => .up { x with replica := r, pc := .idle }
      | (r, none) => .up { x with replica := r, pc := .stored y }
    | _ => .up x
  | .update =>
    match x.pc with
    | .stored y => .up { x with replica := x.replica.setApplied y, pc := .idle }
    | _ => .up x
  | .engine ev =>
    match x.replica.eng.step ev with
    | .ok e => .up { x with replica := { x.replica with eng := e } }
    | .error _ => .up x
  | .flushFails fault =>
    .up { x with replica.eng := x.replica.eng.flushNext { fault := some fault } }
  | .snapshot drained persisted =>
    match x.pc with
    | .idle =>
      match x.replica.snapshot cfg drained with
      | .error _ => .closed ⟨x.replica.eng.close drained, x.replica.stored, x.snap⟩
      | .ok (r, s) =>
        .up { x with replica := r, snap := if persisted then some (s, x.handed) else x.snap }
    | _ => .up x
  | .crash => .down x.disk
  | .restart => .up x

def MemberState.next (cfg : Config) (log : CommittedLog) : MemberState → MemberEvent → MemberState
  | .up x, ev => x.next cfg log ev
  | .closed d, .crash => .down d
  | .down d, .restart =>
    match d.start cfg with
    | .ok x => .up x
    | .error _ => .down d
  | s, _ => s

/-- The tables that a start registers fit into the cache. -/
def MemberDisk.Room (cfg : Config) (d : MemberDisk) : Prop :=
  OpenRoom cfg.withDefaults d.dir ∧ ∀ s ∈ d.snap, OpenRoom cfg.withDefaults s.1.dir

/-- The engine never registers more tables than `MaxOpenFiles`, and no flush fails. -/
def MemberState.Allowed (cfg : Config) : MemberState → MemberEvent → Prop
  | .up x, .engine ev => ev.background = true ∧ x.replica.eng.Room ev
  | .up x, .flushFails _ => x.replica.eng.flushQueue = []
  | .up x, .snapshot drained _ => x.replica.eng.Room (.restart cfg (some drained))
  | .down d, .restart => d.Room cfg
  | _, _ => True

instance (cfg : Config) (d : MemberDisk) : Decidable (d.Room cfg) :=
  inferInstanceAs (Decidable (_ ∧ ∀ s ∈ d.snap, OpenRoom cfg.withDefaults s.1.dir))

instance (cfg : Config) : (s : MemberState) → (ev : MemberEvent) → Decidable (s.Allowed cfg ev)
  | .up _, .engine _ => inferInstanceAs (Decidable (_ ∧ _))
  | .up x, .flushFails _ =>
    decidable_of_iff (x.replica.eng.flushQueue.isEmpty = true) List.isEmpty_iff
  | .up x, .snapshot drained _ =>
    inferInstanceAs (Decidable (x.replica.eng.Room (.restart cfg (some drained))))
  | .down d, .restart => inferInstanceAs (Decidable (d.Room cfg))
  | .up _, .apply | .up _, .save _ | .up _, .update | .up _, .crash | .up _, .restart
  | .closed _, _ | .down _, .apply | .down _, .save _ | .down _, .update | .down _, .engine _
  | .down _, .flushFails _ | .down _, .snapshot _ _ | .down _, .crash => isTrue trivial

/-! ### The same with a map in the place of the engine -/

/-- A snapshot of a map, how far it was applied, and the position it was taken at. -/
structure MapSnapshot where
  map : Bytes → Option Bytes
  applied : AppliedState
  handed : ℕ

/-- A member, with the map that its engine stands for. -/
structure MapMember where
  running : Bool := false
  map : Bytes → Option Bytes := fun _ => none
  stored : AppliedState := {}
  applied : AppliedState := {}
  pc : ApplyPc := .idle
  handed : ℕ := 0
  snap : Option MapSnapshot := none

/-- What happens at a member; `apply` says whether the engine's write returned no error. -/
inductive MapEvent
  | apply (ok : Bool)
  | save (ok : Bool)
  | update
  | snapshot (persisted : Bool)
  | crash
  | restart
  | other

def MapMember.next (log : CommittedLog) (n : ℤ) (a : MapMember) : MapEvent → MapMember
  | .apply ok =>
    match a.pc, log.entries[a.handed]? with
    | .idle, some y =>
      if y.index ≤ a.applied.lastAppliedIndex then { a with handed := a.handed + 1 }
      else
        { a with
          map := applyAll (y.updates n) a.map
          handed := a.handed + 1
          pc := if ok then .written y else .idle }
    | _, _ => a
  | .save ok =>
    match a.pc with
    | .written y =>
      if ok then { a with stored := y.state, pc := .stored y } else { a with pc := .idle }
    | _ => a
  | .update =>
    match a.pc with
    | .stored y => { a with applied := y.state, pc := .idle }
    | _ => a
  | .snapshot persisted =>
    match a.pc with
    | .idle => if persisted then { a with snap := some ⟨a.map, a.applied, a.handed⟩ } else a
    | _ => a
  | .crash => { a with running := false, applied := a.stored, pc := .idle, handed := 0 }
  | .restart =>
    match a.snap with
    | none => { a with running := true }
    | some s =>
      { a with
        running := true
        map := s.map
        stored := s.applied
        applied := s.applied
        pc := .idle
        handed := s.handed }
  | .other => a

def Member.mapEvent (log : CommittedLog) (x : Member) : MemberEvent → MapEvent
  | .apply => .apply (match log.entries[x.handed]? with
      | some y => (x.replica.applyEngine y).2.isNone
      | none => false)
  | .save ok => .save ok
  | .update => .update
  | .snapshot _ persisted => .snapshot persisted
  | .crash => .crash
  | .engine _ | .flushFails _ | .restart => .other

def MemberState.mapEvent (log : CommittedLog) : MemberState → MemberEvent → MapEvent
  | .up x, ev => x.mapEvent log ev
  | .down _, .restart => .restart
  | _, _ => .other

structure EngineSnapshot.For (cfg : Config) (s : EngineSnapshot × ℕ) (t : MapSnapshot) : Prop where
  dir : DiskInv s.1.dir cfg.maxLevel t.map
  applied : s.1.applied = t.applied
  handed : s.2 = t.handed

structure Member.For (cfg : Config) (x : Member) (a : MapMember) : Prop where
  running : a.running = true
  good : Good x.replica.eng a.map
  cfg_eq : x.replica.eng.cfg = cfg.withDefaults
  stored : x.replica.stored = a.stored
  applied : x.replica.applied = a.applied
  pc : x.pc = a.pc
  handed : x.handed = a.handed
  snap : Option.Rel (EngineSnapshot.For cfg) x.snap a.snap

structure MemberDisk.For (cfg : Config) (d : MemberDisk) (a : MapMember) : Prop where
  running : a.running = false
  dir : DiskInv d.dir cfg.maxLevel a.map
  stored : d.stored = a.stored
  applied : d.stored = a.applied
  pc : a.pc = .idle
  handed : a.handed = 0
  snap : Option.Rel (EngineSnapshot.For cfg) d.snap a.snap

/-- A member stands for one with a map.  It is never left with a closed engine. -/
def MemberState.For (cfg : Config) : MemberState → MapMember → Prop
  | .up x, a => x.For cfg a
  | .closed _, _ => False
  | .down d, a => d.For cfg a

variable {cfg : Config} {x : Member} {d : MemberDisk} {s : MemberState} {a : MapMember}

theorem applyUpdates_eq_applyAll (us : List (Bytes × Option Bytes)) (m : Bytes → Option Bytes) :
    applyUpdates us m = applyAll us m := rfl

/-- **`Apply` and the engine.**  The map gets the updates of an entry that is not skipped, whether
or not the write returns an error. -/
theorem Replica.applyEngine_map {r : Replica} (h : Good r.eng m) {y : LogEntry}
    (hlive : y.LiveValues) :
    Good (r.applyEngine y).1.eng (if y.index ≤ r.applied.lastAppliedIndex then m
        else applyAll (y.updates r.eng.cfg.maxValueSize) m) ∧
      (r.applyEngine y).1.eng.cfg = r.eng.cfg ∧ (r.applyEngine y).1.stored = r.stored ∧
      (r.applyEngine y).1.applied = r.applied ∧
      (y.index ≤ r.applied.lastAppliedIndex → (r.applyEngine y).2.isNone = false) := by
  unfold Replica.applyEngine LogEntry.updates Command.updates
  cases hvalid : y.data.validate with
  | error err => exact ⟨by split_ifs <;> exact h, rfl, rfl, rfl, fun _ => rfl⟩
  | ok u =>
    simp only
    by_cases hle : y.index ≤ r.applied.lastAppliedIndex
    · rw [if_pos hle, if_pos hle]
      exact ⟨h, rfl, rfl, rfl, fun _ => rfl⟩
    · rw [if_neg hle, if_neg hle]
      cases hop : y.data.op with
      | error name => exact ⟨h, rfl, rfl, rfl, fun hc => absurd hc hle⟩
      | ok op =>
        have hne : op.Nonempty :=
          fun u hu => ⟨Command.key_ne_nil hvalid hop u hu, hlive op hop u hu⟩
        obtain ⟨hgood, hcfg, -⟩ := h.submit hne
        rw [applyUpdates_eq_applyAll] at hgood
        have hmap : applyAll (if op.fits r.eng.cfg.maxValueSize = true then op.updates else []) m =
            if op.fits r.eng.cfg.maxValueSize = true then applyAll op.updates m else m := by
          split_ifs <;> rfl
        simp only
        rw [hmap]
        cases hsub : r.eng.submit op with
        | mk eng res =>
          rw [hsub] at hgood hcfg
          cases res <;> exact ⟨hgood, hcfg, rfl, rfl, fun hc => absurd hc hle⟩

theorem MemberDisk.start_snapshot {s : EngineSnapshot × ℕ} {t : MapSnapshot}
    (hopen : ∃ e, openEngine cfg d.dir = .ok e) (hd : d.snap = some s) (ha : a.snap = some t)
    (h : EngineSnapshot.For cfg s t) (hsync : cfg.syncWAL = true)
    (hroom : OpenRoom cfg.withDefaults s.1.dir) (log : CommittedLog) (n : ℤ) :
    ∃ x, d.start cfg = .ok x ∧ x.For cfg (a.next log n .restart) := by
  obtain ⟨s, k⟩ := s
  obtain ⟨e, hopen⟩ := hopen
  have hsnap : Option.Rel (EngineSnapshot.For cfg) (some (s, k)) a.snap := by
    rw [ha]
    exact .some h
  obtain ⟨hdir, happ, hk⟩ := h
  obtain ⟨e', hopen', hcfg', hgood'⟩ := DiskInv.open_good hdir hsync hroom
  unfold MemberDisk.start openReplica
  simp only [hopen, hd, EngineSnapshot.restore, hopen']
  refine ⟨_, rfl, ?_⟩
  simp only [MapMember.next, ha]
  exact ⟨rfl, hgood', hcfg', happ, happ, rfl, hk, ha ▸ hsnap⟩

/-- **Starting.** -/
theorem MemberDisk.For.start (h : d.For cfg a) (hsync : cfg.syncWAL = true) (hroom : d.Room cfg)
    (log : CommittedLog) (n : ℤ) :
    ∃ x, d.start cfg = .ok x ∧ x.For cfg (a.next log n .restart) := by
  obtain ⟨e, hopen, hcfg, hgood⟩ := h.dir.open_good hsync hroom.1
  have hsnap := h.snap
  cases hd : d.snap with
  | none =>
    rw [hd] at hsnap
    cases ha : a.snap with
    | some t =>
      rw [ha] at hsnap
      cases hsnap
    | none =>
      unfold MemberDisk.start openReplica
      simp only [hopen, hd]
      refine ⟨_, rfl, ?_⟩
      simp only [MapMember.next, ha]
      exact ⟨rfl, hgood, hcfg, h.stored, h.applied, h.pc.symm, h.handed.symm, .none⟩
  | some s =>
    rw [hd] at hsnap
    cases ha : a.snap with
    | none =>
      rw [ha] at hsnap
      cases hsnap
    | some t =>
      rw [ha] at hsnap
      exact MemberDisk.start_snapshot ⟨e, hopen⟩ hd ha (Option.rel_some_some.1 hsnap) hsync
        (hroom.2 _ hd) log n

variable {ev : MemberEvent}

theorem Member.For.next (h : x.For cfg a) (hsync : cfg.syncWAL = true)
    (hlive : ∀ y ∈ log.entries, y.LiveValues) (hok : (MemberState.up x).Allowed cfg ev) :
    (x.next cfg log ev).For cfg
      (a.next log cfg.withDefaults.maxValueSize (x.mapEvent log ev)) := by
  obtain ⟨hrun, hgood, hcfg, hst, happ, hpc, hhanded, hsnap⟩ := h
  cases ev with
  | apply =>
    simp only [Member.next, Member.mapEvent, MapMember.next]
    rw [← hpc, ← hhanded]
    cases hxpc : x.pc with
    | written y | stored y => exact ⟨hrun, hgood, hcfg, hst, happ, hpc, hhanded, hsnap⟩
    | idle =>
      cases hy : log.entries[x.handed]? with
      | none => exact ⟨hrun, hgood, hcfg, hst, happ, hpc, hhanded, hsnap⟩
      | some y =>
        obtain ⟨hg, hc, hs, ha, hskip⟩ :=
          Replica.applyEngine_map hgood (hlive y (List.mem_of_getElem? hy))
        rw [hcfg] at hg hc
        rw [happ] at hg ha hskip
        rw [hst] at hs
        obtain ⟨r, res, hres⟩ : ∃ r res, x.replica.applyEngine y = (r, res) := ⟨_, _, rfl⟩
        simp only [hres] at hg hc hs ha hskip ⊢
        by_cases hle : y.index ≤ a.applied.lastAppliedIndex
        · rw [if_pos hle] at hg ⊢
          have hskip := hskip hle
          cases res with
          | none => cases hskip
          | some res => exact ⟨hrun, hg, hc, hs, ha, rfl, rfl, hsnap⟩
        · rw [if_neg hle] at hg ⊢
          cases res with
          | none => exact ⟨hrun, hg, hc, hs, ha, rfl, rfl, hsnap⟩
          | some res => exact ⟨hrun, hg, hc, hs, ha, rfl, rfl, hsnap⟩
  | save ok =>
    simp only [Member.next, Member.mapEvent, MapMember.next, Replica.saveApplied]
    rw [← hpc]
    cases hxpc : x.pc with
    | idle | stored y => exact ⟨hrun, hgood, hcfg, hst, happ, hpc, hhanded, hsnap⟩
    | written y =>
      cases ok with
      | true => exact ⟨hrun, hgood, hcfg, rfl, happ, rfl, hhanded, hsnap⟩
      | false => exact ⟨hrun, hgood, hcfg, hst, happ, rfl, hhanded, hsnap⟩
  | update =>
    simp only [Member.next, Member.mapEvent, MapMember.next]
    rw [← hpc]
    cases hxpc : x.pc with
    | idle | written y => exact ⟨hrun, hgood, hcfg, hst, happ, hpc, hhanded, hsnap⟩
    | stored y => exact ⟨hrun, hgood, hcfg, hst, rfl, rfl, hhanded, hsnap⟩
  | engine ev =>
    obtain ⟨e', hstep, hcfg', hgood'⟩ := hgood.background hok.1 hok.2
    simp only [Member.next, Member.mapEvent, MapMember.next, hstep]
    exact ⟨hrun, hgood', hcfg'.trans hcfg, hst, happ, hpc, hhanded, hsnap⟩
  | flushFails fault =>
    have hnext : x.replica.eng.flushNext { fault := some fault } = x.replica.eng := by
      unfold LSMEngine.flushNext
      rw [show x.replica.eng.flushQueue = [] from hok]
    simp only [Member.next, Member.mapEvent, MapMember.next, hnext]
    exact ⟨hrun, hgood, hcfg, hst, happ, hpc, hhanded, hsnap⟩
  | snapshot drained persisted =>
    have hdisk := hgood.leftBehind hok.2
    rw [hcfg] at hdisk
    have hdisk : DiskInv (x.replica.eng.close drained) cfg.maxLevel a.map := hdisk
    obtain ⟨e', hopen, hcfg', hgood'⟩ := hdisk.open_good hsync hok.1
    simp only [Member.next, Member.mapEvent, MapMember.next, Replica.snapshot, hopen]
    rw [← hpc]
    cases hxpc : x.pc with
    | written y | stored y => exact ⟨hrun, hgood, hcfg, hst, happ, hpc, hhanded, hsnap⟩
    | idle =>
      cases persisted with
      | false => exact ⟨hrun, hgood', hcfg', hst, happ, hxpc.symm.trans hpc, hhanded, hsnap⟩
      | true =>
        exact ⟨hrun, hgood', hcfg', hst, happ, rfl, hhanded, .some ⟨hdisk, happ, hhanded⟩⟩
  | crash =>
    have hdisk := hgood.inv.disk
    rw [hcfg] at hdisk
    exact ⟨rfl, hdisk, hst, hst, rfl, rfl, hsnap⟩
  | restart => exact ⟨hrun, hgood, hcfg, hst, happ, hpc, hhanded, hsnap⟩

/-- **Simulation.** With synced logs and room for its tables, a member behaves like one with a
map. -/
theorem MemberState.For.next (h : s.For cfg a) (hsync : cfg.syncWAL = true)
    (hlive : ∀ y ∈ log.entries, y.LiveValues) (hok : s.Allowed cfg ev) :
    (s.next cfg log ev).For cfg
      (a.next log cfg.withDefaults.maxValueSize (s.mapEvent log ev)) := by
  cases s with
  | up x => exact Member.For.next h hsync hlive hok
  | closed d => exact h.elim
  | down d =>
    cases ev with
    | restart =>
      obtain ⟨x, hstart, hx⟩ := MemberDisk.For.start h hsync hok log cfg.withDefaults.maxValueSize
      change MemberState.For cfg (match d.start cfg with | .ok x => .up x | .error _ => .down d) _
      rw [hstart]
      exact hx
    | _ => exact h

theorem MemberState.for_new (hmax : cfg.maxLevel ≤ maxLevels) :
    (MemberState.down {}).For cfg {} := ⟨rfl, diskInv_empty hmax, rfl, rfl, rfl, rfl, .none⟩

end LsmTree
