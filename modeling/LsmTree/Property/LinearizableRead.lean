import LsmTree.Lib.Run
import LsmTree.Cluster.RaftGroup
import LsmTree.Correct.Member

/-!
# Linearizable reads see the acknowledged writes

`linearizableRead` verifies that the node is still the leader, but not how far it has applied the
log that it was elected with.  A leader that has caught up with the entries committed before its
election serves every write that was acknowledged when the read began (`linearizable_read_current`).
-/

namespace LsmTree

open Run

variable {updates : Command → List (Bytes × Option Bytes)} {g : Group}

/-- The value is that of the committed log at a point after the given positions. -/
def Group.Reflects (updates : Command → List (Bytes × Option Bytes)) (g : Group) (acked : List ℕ)
    (key : Bytes) (value : Option Bytes) : Prop :=
  ∃ m, m ≤ g.log.length ∧ (∀ i ∈ acked, i < m) ∧
    value = committedMap updates (g.log.take m) key

instance (g : Group) (acked : List ℕ) (key : Bytes) (value : Option Bytes) :
    Decidable (g.Reflects updates acked key value) :=
  inferInstanceAs (Decidable (∃ m ≤ g.log.length, (∀ i ∈ acked, i < m) ∧
    value = committedMap updates (g.log.take m) key))

def Group.ReaderOk (updates : Command → List (Bytes × Option Bytes)) (g : Group) : Prop :=
  match g.reader.pc with
  | .idle => True
  | .begun => ∀ i ∈ g.reader.acked, i ∈ g.acked
  | .verified => ∀ i ∈ g.reader.acked, i < g.applied g.reader.node
  | .done value => g.Reflects updates g.reader.acked g.reader.key value

/-- The leader has committed the entries since its election itself, and it has applied those among
them that were acknowledged. -/
structure Group.Ok (updates : Command → List (Bytes × Option Bytes)) (g : Group) : Prop where
  base : g.base ≤ g.log.length
  applied : ∀ p, g.applied p ≤ g.log.length
  own : ∀ p, g.leader = some p → ∀ i x, g.base ≤ i → g.log[i]? = some x → x.leader = p
  acked : ∀ i ∈ g.acked, i < g.log.length
  caught : ∀ p, g.leader = some p → ∀ i ∈ g.acked, g.base ≤ i → i < g.applied p
  reader : g.ReaderOk updates

/-- The barrier that `linearizableRead` leaves out: a leader that is verified has applied what was
committed when it was elected. -/
def Group.Barrier (g : Group) : GroupEvent → Prop
  | .readVerify => g.leader = some g.reader.node → g.base ≤ g.applied g.reader.node
  | _ => True

instance (g : Group) : (ev : GroupEvent) → Decidable (g.Barrier ev)
  | .readVerify => inferInstanceAs (Decidable (_ → _))
  | .elect _ | .stepDown _ | .crash _ _ | .commit _ | .apply _ | .call _ _ _ | .submit _ _ | .ack _
  | .fail _ | .forward _ _ | .giveUp _ | .readBegin _ _ | .readGet => isTrue trivial

theorem Group.ReaderOk.mono {g' : Group} (h : g.ReaderOk updates) (hreader : g'.reader = g.reader)
    (hacked : g.acked ⊆ g'.acked) (happ : ∀ p, g.applied p ≤ g'.applied p)
    (hlog : g.log <+: g'.log) : g'.ReaderOk updates := by
  unfold Group.ReaderOk at h ⊢
  rw [hreader]
  cases hpc : g.reader.pc with
  | idle => trivial
  | begun =>
    rw [hpc] at h
    exact fun i hi => hacked (h i hi)
  | verified =>
    rw [hpc] at h
    exact fun i hi => (h i hi).trans_le (happ _)
  | done value =>
    rw [hpc] at h
    obtain ⟨m, hm, hbefore, hvalue⟩ := h
    refine ⟨m, hm.trans hlog.length_le, hbefore, ?_⟩
    obtain ⟨rest, hrest⟩ := hlog
    rw [hvalue, ← hrest, List.take_append_of_le_length hm]

theorem Group.Ok.demote (h : g.Ok updates) (p : ℕ) : (g.demote p).Ok updates := by
  obtain ⟨hbase, happ, hown, hacked, hcaught, hreader⟩ := h
  have hleader : ∀ q, (g.demote p).leader = some q → g.leader = some q := by
    intro q hq
    change (if g.leader = some p then none else g.leader) = some q at hq
    split_ifs at hq
    exact hq
  exact ⟨hbase, happ, fun q hq => hown q (hleader q hq), hacked,
    fun q hq => hcaught q (hleader q hq), hreader⟩

theorem Group.Ok.crash (h : g.Ok updates) (p kept : ℕ) :
    (g.next updates (.crash p kept)).Ok updates := by
  have ⟨hbase, happ, hown, hacked, hcaught, hreader⟩ := h
  have hd := h.demote p
  have hle : ∀ q, Function.update g.applied p (min kept (g.applied p)) q ≤ g.applied q := by
    intro q
    by_cases hq : q = p
    · subst hq
      rw [Function.update_self]
      exact min_le_right _ _
    · rw [Function.update_of_ne hq]
  refine ⟨hd.base, fun q => (hle q).trans (happ q), hd.own, hd.acked, fun q hq i hi hib => ?_, ?_⟩
  · -- the new leader is not the one that crashed
    have hne : q ≠ p := by
      rintro rfl
      change (if g.leader = some q then none else g.leader) = some q at hq
      split_ifs at hq with hc
      exact hc hq
    change i < Function.update g.applied p _ q
    rw [Function.update_of_ne hne]
    exact hd.caught q hq i hi hib
  · change Group.ReaderOk updates { g.demote p with
      applied := Function.update g.applied p (min kept (g.applied p))
      reader := if g.reader.node = p then {} else g.reader }
    by_cases hnode : g.reader.node = p
    · rw [if_pos hnode]
      trivial
    · rw [if_neg hnode]
      unfold Group.ReaderOk at hreader ⊢
      change match g.reader.pc with
        | .idle => True
        | .begun => ∀ i ∈ g.reader.acked, i ∈ g.acked
        | .verified => ∀ i ∈ g.reader.acked,
          i < Function.update g.applied p (min kept (g.applied p)) g.reader.node
        | .done value => g.Reflects updates g.reader.acked g.reader.key value
      rw [Function.update_of_ne hnode]
      exact hreader

theorem Group.Ok.commit (h : g.Ok updates) (j : ℕ) :
    (g.next updates (.commit j)).Ok updates := by
  have ⟨hbase, happ, hown, hacked, hcaught, hreader⟩ := h
  simp only [Group.next]
  cases hl : g.leader with
  | none => exact h
  | some p =>
    cases hj : g.pending[j]? with
    | none => exact h
    | some x =>
      have hlen : (g.log ++ [(⟨x, p⟩ : Committed)]).length = g.log.length + 1 := by simp
      refine ⟨?_, fun q => ?_, fun q hq i y hi hy => ?_, fun i hi => ?_, ?_, ?_⟩
      · exact hbase.trans (hlen ▸ Nat.le_succ _)
      · exact (happ q).trans (hlen ▸ Nat.le_succ _)
      · cases hq
        rcases lt_or_ge i g.log.length with hlt | hge
        · rw [List.getElem?_append_left hlt] at hy
          exact hown p hl i y hi hy
        · rw [List.getElem?_append_right hge, List.getElem?_singleton] at hy
          split_ifs at hy
          cases hy
          rfl
      · exact (hacked i hi).trans_le (hlen ▸ Nat.le_succ _)
      · exact fun q hq => hcaught q (hl.trans hq)
      · exact hreader.mono rfl (fun _ hi => hi) (fun _ => le_rfl) (List.prefix_append _ _)

theorem Group.Ok.apply (h : g.Ok updates) (p : ℕ) :
    (g.next updates (.apply p)).Ok updates := by
  have ⟨hbase, happ, hown, hacked, hcaught, hreader⟩ := h
  simp only [Group.next]
  by_cases hlt : g.applied p < g.log.length
  · rw [if_pos hlt]
    have hle : ∀ q, g.applied q ≤ Function.update g.applied p (g.applied p + 1) q := by
      intro q
      by_cases hq : q = p
      · subst hq
        rw [Function.update_self]
        exact Nat.le_succ _
      · rw [Function.update_of_ne hq]
    refine ⟨hbase, fun q => ?_, hown, hacked,
      fun q hq i hi hib => (hcaught q hq i hi hib).trans_le (hle q),
      hreader.mono rfl (fun _ hi => hi) hle (List.prefix_refl _)⟩
    change Function.update g.applied p (g.applied p + 1) q ≤ g.log.length
    by_cases hq : q = p
    · subst hq
      rw [Function.update_self]
      exact hlt
    · rw [Function.update_of_ne hq]
      exact happ q
  · rw [if_neg hlt]
    exact h

theorem Group.Ok.ack (h : g.Ok updates) (c : ℕ) :
    (g.next updates (.ack c)).Ok updates := by
  have ⟨hbase, happ, hown, hacked, hcaught, hreader⟩ := h
  simp only [Group.next]
  split
  · rename_i node _
    split
    · rename_i i hi
      by_cases hlt : i < g.applied node
      · rw [if_pos hlt]
        -- the entry was committed by the node itself
        obtain ⟨hlen, hx⟩ := List.findIdx?_eq_some_iff_getElem.1 hi
        have hnode : g.log[i].leader = node := (of_decide_eq_true hx.1).2.2
        refine ⟨hbase, happ, hown, fun k hk => ?_, fun q hq k hk hkb => ?_, ?_⟩
        · rcases List.mem_cons.1 hk with rfl | hk
          · exact hlen
          · exact hacked k hk
        · rcases List.mem_cons.1 hk with rfl | hk
          · have hq' := hown q hq k _ hkb (List.getElem?_eq_getElem hlen)
            rw [hnode] at hq'
            subst hq'
            exact hlt
          · exact hcaught q hq k hk hkb
        · exact hreader.mono rfl (List.subset_cons_self _ _) (fun _ => le_rfl)
            (List.prefix_refl _)
      · rw [if_neg hlt]
        exact h
    · exact h
  · exact h

theorem Group.Ok.readVerify (h : g.Ok updates) (hev : g.Barrier .readVerify) :
    (g.next updates .readVerify).Ok updates := by
  have ⟨hbase, happ, hown, hacked, hcaught, hreader⟩ := h
  simp only [Group.next]
  cases hpc : g.reader.pc with
  | idle | verified | done v => exact h
  | begun =>
    unfold Group.ReaderOk at hreader
    rw [hpc] at hreader
    simp only
    split_ifs with hread
    · refine ⟨hbase, happ, hown, hacked, hcaught, fun i hi => ?_⟩
      have hl : g.leader = some g.reader.node := by
        unfold linearizableRead at hread
        rw [Bool.and_eq_true] at hread
        exact of_decide_eq_true hread.2
      rcases lt_or_ge i g.base with hlt | hge
      · exact hlt.trans_le (hev hl)
      · exact hcaught _ hl i (hreader i hi) hge
    · exact ⟨hbase, happ, hown, hacked, hcaught, trivial⟩

/-- **One event.** -/
theorem Group.Ok.next (h : g.Ok updates) {ev : GroupEvent} (hev : g.Barrier ev) :
    (g.next updates ev).Ok updates := by
  have ⟨hbase, happ, hown, hacked, hcaught, hreader⟩ := h
  cases ev with
  | elect p =>
    refine ⟨le_rfl, happ, fun q _ i x hi hx => ?_, hacked, fun q _ i hi hle => ?_, hreader⟩
    · have hlt := (List.getElem?_eq_some_iff.1 hx).1
      exact absurd hlt (not_lt.2 hi)
    · exact absurd (hacked i hi) (not_lt.2 hle)
  | stepDown p => exact h.demote p
  | crash p kept => exact h.crash p kept
  | commit j => exact h.commit j
  | apply p => exact h.apply p
  | ack c => exact h.ack c
  | readBegin node key => exact ⟨hbase, happ, hown, hacked, hcaught, fun _ hi => hi⟩
  | readVerify => exact h.readVerify hev
  | readGet =>
    simp only [Group.next]
    cases hpc : g.reader.pc with
    | idle | begun | done v => exact h
    | verified =>
      unfold Group.ReaderOk at hreader
      rw [hpc] at hreader
      exact ⟨hbase, happ, hown, hacked, hcaught, _, happ _, hreader, rfl⟩
  | submit c enqueued =>
    simp only [Group.next]
    split
    · split
      · exact ⟨hbase, happ, hown, hacked, hcaught, hreader⟩
      · split_ifs <;> exact ⟨hbase, happ, hown, hacked, hcaught, hreader⟩
    · exact ⟨hbase, happ, hown, hacked, hcaught, hreader⟩
  | call c node cmd | fail c | forward c node | giveUp c =>
    simp only [Group.next]
    split <;> exact ⟨hbase, happ, hown, hacked, hcaught, hreader⟩

theorem Group.ok_new : ({} : Group).Ok updates :=
  ⟨le_rfl, fun _ => le_rfl, fun p hp => (by cases hp), fun i hi => (by cases hi),
    fun p hp => (by cases hp), trivial⟩

/-- **Linearizable reads.** In every run of a group, with any leaders, crashes and pace of the
replicas, in which a leader is verified only when it has applied what was committed before its
election: a linearizable read served locally returns the value of its key at a point of the
committed log after every write that was acknowledged when the read began. -/
theorem linearizable_read_current {events : List GroupEvent}
    (hrun : Along (Group.next updates) Group.Barrier {} events) (value : Option Bytes)
    (hdone : (events.foldl (Group.next updates) {}).reader.pc = .done value) :
    (events.foldl (Group.next updates) {}).Reflects updates
      (events.foldl (Group.next updates) {}).reader.acked
      (events.foldl (Group.next updates) {}).reader.key value := by
  have hok := hrun.invariant (Group.Ok updates) Group.ok_new (fun _ _ h hev => h.next hev)
  have hreader := hok.reader
  unfold Group.ReaderOk at hreader
  rw [hdone] at hreader
  exact hreader

/-- A leader commits and acknowledges a write, and another one is elected. -/
def failover : List GroupEvent :=
  [.elect 0, .call 0 0 { type := .put, key := [107], value := [49] }, .submit 0 true, .commit 0,
    .apply 0, .ack 0, .elect 1]

/-- A read on the new leader when it has applied the write. -/
def currentRead : List GroupEvent :=
  failover ++ [.apply 1, .readBegin 1 [107], .readVerify, .readGet]

theorem currentRead_reflects : (currentRead.foldl (Group.next (Command.updates 1024)) {}).Reflects
    (Command.updates 1024) (currentRead.foldl (Group.next (Command.updates 1024)) {}).reader.acked
    (currentRead.foldl (Group.next (Command.updates 1024)) {}).reader.key (some [49]) :=
  linearizable_read_current (by decide +kernel) _ (by decide +kernel)

def staleRead : List GroupEvent := failover ++ [.readBegin 1 [107], .readVerify, .readGet]

/-- The new leader is verified, and answers without the acknowledged write. -/
theorem staleRead_misses :
    (staleRead.foldl (Group.next (Command.updates 1024)) {}).reader.acked = [0] ∧
    (staleRead.foldl (Group.next (Command.updates 1024)) {}).reader.pc = .done none ∧
    ¬ (staleRead.foldl (Group.next (Command.updates 1024)) {}).Reflects (Command.updates 1024) [0]
      [107] none := by
  decide +kernel

end LsmTree
