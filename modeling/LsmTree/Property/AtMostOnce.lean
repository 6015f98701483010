import LsmTree.Lib.Run
import LsmTree.Cluster.RaftGroup
import LsmTree.Correct.Member

/-!
# Writes take effect at most once

When `submit` fails a call forwards its mutation, whether or not Raft has taken the first copy.  A
call has at most one committed entry as long as no copy is committed that its call has given up
(`call_commits_once`).
-/

namespace LsmTree

open Run

variable {updates : Command → List (Bytes × Option Bytes)} {g : Group}

variable {x : Proposal}

def Proposal.copy (x : Proposal) : ℕ × ℕ := (x.call, x.attempt)

def Group.copies (g : Group) : List Proposal := g.log.map Committed.proposal ++ g.pending

def CallPc.isWaiting : CallPc → Bool
  | .waiting _ => true
  | _ => false

def Group.WaitsFor (g : Group) (x : Proposal) : Prop :=
  (g.calls x.call).pc.isWaiting = true ∧ (g.calls x.call).attempt = x.attempt

instance (g : Group) (x : Proposal) : Decidable (g.WaitsFor x) :=
  inferInstanceAs (Decidable (_ ∧ _))

/-- Copies are numbered, and a committed one is that which its call waits for or has returned
with. -/
structure Group.Once (g : Group) : Prop where
  calls : (g.log.map (fun x => x.proposal.call)).Nodup
  copies : (g.copies.map Proposal.copy).Nodup
  attempt : ∀ x ∈ g.copies, x.attempt ≤ (g.calls x.call).attempt
  settled : ∀ x ∈ g.log, g.WaitsFor x.proposal ∨ (g.calls x.proposal.call).pc = .done true

/-- No copy is committed that its call has given up, and no call gives up after its copy is
committed. -/
def Group.Clear (g : Group) : GroupEvent → Prop
  | .commit j => ∀ x ∈ g.pending[j]?, g.WaitsFor x
  | .fail c => ∀ x ∈ g.log, x.proposal.call ≠ c
  | _ => True

instance (g : Group) : (ev : GroupEvent) → Decidable (g.Clear ev)
  | .commit j => inferInstanceAs (Decidable (∀ x ∈ g.pending[j]?, g.WaitsFor x))
  | .fail c => inferInstanceAs (Decidable (∀ x ∈ g.log, x.proposal.call ≠ c))
  | .elect _ | .stepDown _ | .crash _ _ | .apply _ | .call _ _ _ | .submit _ _ | .ack _
  | .forward _ _ | .giveUp _ | .readBegin _ _ | .readVerify | .readGet => isTrue trivial

theorem Group.Once.no_entry (h : g.Once) {c : ℕ} (hwait : (g.calls c).pc.isWaiting = false)
    (hdone : (g.calls c).pc ≠ .done true) : ∀ x ∈ g.log, x.proposal.call ≠ c := by
  rintro x hx rfl
  rcases h.settled x hx with hw | hd
  · rw [hw.1] at hwait
    cases hwait
  · exact hdone hd

theorem Group.Once.setCall (h : g.Once) {c : ℕ} (hno : ∀ x ∈ g.log, x.proposal.call ≠ c)
    {new : Call} (hatt : (g.calls c).attempt ≤ new.attempt) :
    ({ g with calls := Function.update g.calls c new } : Group).Once := by
  refine ⟨h.calls, h.copies, fun x hx => ?_, fun x hx => ?_⟩
  · have hle := h.attempt x hx
    change x.attempt ≤ (Function.update g.calls c new x.call).attempt
    by_cases hc : x.call = c
    · rw [hc, Function.update_self]
      rw [hc] at hle
      exact hle.trans hatt
    · rw [Function.update_of_ne hc]
      exact hle
  · simp only [Group.WaitsFor]
    rw [Function.update_of_ne (hno x hx)]
    exact h.settled x hx

theorem Group.Once.propose (h : g.Once) (hnew : ∀ y ∈ g.copies, y.copy ≠ x.copy)
    (hatt : x.attempt ≤ (g.calls x.call).attempt) :
    ({ g with pending := g.pending ++ [x] } : Group).Once := by
  have hcopies : ({ g with pending := g.pending ++ [x] } : Group).copies = g.copies ++ [x] :=
    (List.append_assoc _ _ _).symm
  refine ⟨h.calls, ?_, fun y hy => ?_, h.settled⟩
  · rw [hcopies, List.map_append, List.nodup_append]
    refine ⟨h.copies, List.nodup_singleton _, fun u hu z hz => ?_⟩
    obtain ⟨y, hy, rfl⟩ := List.mem_map.1 hu
    rw [List.map_singleton, List.mem_singleton] at hz
    rw [hz]
    exact hnew y hy
  · rw [hcopies] at hy
    rcases List.mem_append.1 hy with hy | hy
    · exact h.attempt y hy
    · rw [List.mem_singleton.1 hy]
      exact hatt

theorem Group.Once.commit (h : g.Once) {j p : ℕ} (hx : g.pending[j]? = some x)
    (hwait : g.WaitsFor x) :
    ({ g with log := g.log ++ [⟨x, p⟩], pending := g.pending.eraseIdx j } : Group).Once := by
  set g' : Group := { g with log := g.log ++ [⟨x, p⟩], pending := g.pending.eraseIdx j } with hg'
  obtain ⟨hj, hget⟩ := List.getElem?_eq_some_iff.1 hx
  have hperm : g'.copies.Perm g.copies := by
    change (List.map _ (g.log ++ [(⟨x, p⟩ : Committed)]) ++ g.pending.eraseIdx j).Perm _
    rw [List.map_append, List.append_assoc]
    have := List.getElem_cons_eraseIdx_perm hj
    rw [hget] at this
    exact this.append_left _
  have hfirst : ∀ y ∈ g.log, y.proposal.call ≠ x.call := by
    -- an entry of the same call would be the copy that it waits for
    intro y hy hcall
    rcases h.settled y hy with hw | hd
    · have hsame : y.proposal.copy = x.copy := by
        unfold Proposal.copy
        rw [hcall, ← hwait.2, ← hw.2, hcall]
      have hnodup := h.copies
      rw [Group.copies, List.map_append, List.nodup_append] at hnodup
      exact hnodup.2.2 _ (List.mem_map_of_mem (List.mem_map_of_mem hy)) _
        (List.mem_map_of_mem (List.mem_of_getElem? hx)) hsame
    · rw [hcall] at hd
      have := hwait.1
      rw [hd] at this
      cases this
  refine ⟨?_, (hperm.map _).nodup_iff.2 h.copies, fun y hy => h.attempt y (hperm.subset hy),
    fun y hy => ?_⟩
  · change (List.map _ (g.log ++ [(⟨x, p⟩ : Committed)])).Nodup
    rw [List.map_append, List.nodup_append]
    refine ⟨h.calls, List.nodup_singleton _, fun c hc d hd => ?_⟩
    obtain ⟨y, hy, rfl⟩ := List.mem_map.1 hc
    rw [List.map_singleton, List.mem_singleton] at hd
    rw [hd]
    exact hfirst y hy
  · rcases List.mem_append.1 hy with hy | hy
    · exact h.settled y hy
    · rw [List.mem_singleton.1 hy]
      exact Or.inl hwait

theorem Group.Once.ack (h : g.Once) (c : ℕ) : (g.setCall c (.done true)).Once := by
  refine ⟨h.calls, h.copies, fun x hx => ?_, fun x hx => ?_⟩
  · have hle := h.attempt x hx
    change x.attempt ≤ (Function.update g.calls c _ x.call).attempt
    by_cases hc : x.call = c
    · rw [hc, Function.update_self]
      rw [hc] at hle
      exact hle
    · rw [Function.update_of_ne hc]
      exact hle
  · simp only [Group.WaitsFor, Group.setCall]
    by_cases hc : x.proposal.call = c
    · rw [hc, Function.update_self]
      exact Or.inr rfl
    · rw [Function.update_of_ne hc]
      exact h.settled x hx

/-- **One event.** -/
theorem Group.Once.next (h : g.Once) {ev : GroupEvent} (hev : g.Clear ev) :
    (g.next updates ev).Once := by
  have hsame : ∀ g' : Group, g'.log = g.log → g'.pending = g.pending → g'.calls = g.calls →
      g'.Once := by
    rintro g' h1 h2 h3
    obtain ⟨hc, hcop, hatt, hset⟩ := h
    unfold Group.copies at hcop hatt
    unfold Group.WaitsFor at hset
    rw [← h1, ← h2] at hcop hatt
    rw [← h1] at hc hset
    rw [← h3] at hatt hset
    exact ⟨hc, hcop, hatt, hset⟩
  cases ev with
  | elect p | stepDown p | crash p kept | readBegin node key => exact hsame _ rfl rfl rfl
  | apply p =>
    simp only [Group.next]
    split_ifs <;> exact hsame _ rfl rfl rfl
  | readVerify =>
    simp only [Group.next]
    split
    · split_ifs <;> exact hsame _ rfl rfl rfl
    · exact h
  | readGet =>
    simp only [Group.next]
    split <;> exact hsame _ rfl rfl rfl
  | commit j =>
    simp only [Group.next]
    split
    · rename_i p x _ hx
      exact h.commit hx (hev x hx)
    · exact h
  | call c node cmd =>
    simp only [Group.next]
    split
    · rename_i hpc
      exact h.setCall (h.no_entry (by rw [hpc]; rfl) (by rw [hpc]; exact CallPc.noConfusion)) le_rfl
    · exact h
  | submit c enqueued =>
    simp only [Group.next]
    split
    · rename_i node hpc
      have hno := h.no_entry (c := c) (by rw [hpc]; rfl) (by rw [hpc]; exact CallPc.noConfusion)
      split
      · exact h.setCall hno le_rfl
      · split_ifs
        · refine (h.setCall hno (Nat.le_succ _)).propose (fun y hy hcopy => ?_) ?_
          · -- copies of this call so far have smaller numbers
            have hle := h.attempt y hy
            obtain ⟨hcall, hatt⟩ := Prod.mk.inj hcopy
            change y.call = c at hcall
            change y.attempt = (g.calls c).attempt + 1 at hatt
            rw [hcall] at hle
            omega
          · change _ ≤ (Function.update g.calls c _ c).attempt
            rw [Function.update_self]
        · exact h.setCall hno le_rfl
    · exact h
  | ack c =>
    simp only [Group.next]
    split
    · split
      · split_ifs
        · have hack := h.ack c
          exact ⟨hack.calls, hack.copies, hack.attempt, hack.settled⟩
        · exact h
      · exact h
    · exact h
  | fail c =>
    simp only [Group.next]
    split
    · exact h.setCall hev le_rfl
    · exact h
  | forward c node | giveUp c =>
    simp only [Group.next]
    split
    · rename_i hpc
      exact h.setCall (h.no_entry (by rw [hpc]; rfl) (by rw [hpc]; exact CallPc.noConfusion)) le_rfl
    · exact h

theorem Group.once_new : ({} : Group).Once :=
  ⟨List.nodup_nil, List.nodup_nil, fun x hx => (by cases hx), fun x hx => (by cases hx)⟩

/-- **At most once.** In every run of a group in which no copy of a mutation is committed that its
call has given up, no call has two committed entries. -/
theorem call_commits_once {events : List GroupEvent}
    (hrun : Along (Group.next updates) Group.Clear {} events) :
    ((events.foldl (Group.next updates) {}).log.map (fun x => x.proposal.call)).Nodup :=
  (hrun.invariant Group.Once Group.once_new (fun _ _ h hev => h.next hev)).calls

/-- A call on a follower that is forwarded to the leader, and one whose proposal is lost with its
leader and that succeeds on the next one. -/
def forwardedRun : List GroupEvent :=
  [.elect 0, .call 0 1 { type := .put, key := [107], value := [49] }, .submit 0 true, .forward 0 0,
    .submit 0 true, .commit 0, .apply 0, .ack 0,
    .call 1 0 { type := .delete, key := [107] }, .submit 1 true, .elect 1, .stepDown 0, .fail 1,
    .forward 1 1, .submit 1 true, .commit 1, .apply 1, .apply 1, .ack 1]

theorem forwardedRun_commits_once :
    ((forwardedRun.foldl (Group.next (Command.updates 1024)) {}).log.map
      (fun x => x.proposal.call)).Nodup :=
  call_commits_once (by decide +kernel)

/-- A leader loses its leadership when its proposal is committed already; while the call forwards
the mutation, another write of the key is acknowledged. -/
def repeatedRun : List GroupEvent :=
  [.elect 0, .call 0 0 { type := .put, key := [107], value := [49] }, .submit 0 true, .commit 0,
    .stepDown 0, .fail 0, .elect 1,
    .call 1 1 { type := .put, key := [107], value := [50] }, .submit 1 true, .commit 0, .apply 1,
    .apply 1, .ack 1, .forward 0 1, .submit 0 true, .commit 0]

/-- The first write takes effect twice, the second time over the acknowledged one. -/
theorem repeatedRun_commits_twice :
    (repeatedRun.foldl (Group.next (Command.updates 1024)) {}).acked = [1] ∧
    (repeatedRun.foldl (Group.next (Command.updates 1024)) {}).log.map
      (fun x => x.proposal.call) = [0, 1, 0] ∧
    (List.range 4).map (fun m => committedMap (Command.updates 1024)
      ((repeatedRun.foldl (Group.next (Command.updates 1024)) {}).log.take m) [107]) =
        [none, some [49], some [50], some [49]] := by
  decide +kernel

end LsmTree
