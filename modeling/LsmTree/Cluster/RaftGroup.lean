import Mathlib.Logic.Function.Basic
import LsmTree.Lib.KeyValue
import LsmTree.Cluster.Replica

/-!
# Clients of a Raft group (`RaftNode.Put`, `Delete`, `Write`, `submit`, `linearizableRead`)

A write is submitted on the node that the client calls.  `submit` checks that the node is the leader
and hands the command to Raft; if it returns an error, for whatever reason, the call forwards the
same mutation to the leader it knows, where it is submitted again.  A linearizable read is served
locally once the node has verified that it is still the leader.

Raft itself is taken as it is documented.  A leader is elected by a quorum, and its log holds all
committed entries; a stale leader does not know of its successor.  A proposal may be committed at
any later time or never, whatever its proposer is told.  A future succeeds only if its node
committed the entry as the leader and has applied it.  Every node applies the committed entries in
order, at its own pace, and starts over from an earlier point after a crash.
-/

namespace LsmTree

inductive RaftState
  | follower
  | candidate
  | leader
  | shutdown
  deriving DecidableEq, Repr

/-- Why `submit` fails before Raft is asked. -/
inductive SubmitError
  | notLeader
  | command (err : CommandError)
  deriving DecidableEq, Repr

def requireLeader (state : RaftState) : Except SubmitError Unit :=
  if state = .leader then .ok () else .error .notLeader

/-- `submit` up to `raft.Apply`: the check and the encoding. -/
def submitCheck (state : RaftState) (cmd : Command) : Except SubmitError Unit :=
  match requireLeader state with
  | .error err => .error err
  | .ok () =>
    match cmd.validate with
    | .error err => .error (.command err)
    | .ok () => .ok ()

/-- `linearizableRead`: the node takes itself for the leader, and `VerifyLeader` succeeds. -/
def linearizableRead (state : RaftState) (verifyLeader : Bool) : Bool :=
  decide (state = .leader) && verifyLeader

/-- A copy of a client's mutation that `raft.Apply` has taken on a node. -/
structure Proposal where
  call : ℕ
  attempt : ℕ
  node : ℕ
  cmd : Command
  deriving DecidableEq, Repr

/-- A committed entry, with the leader that committed it. -/
structure Committed where
  proposal : Proposal
  leader : ℕ
  deriving DecidableEq, Repr

/-- Where a call is: about to submit on a node, waiting there for Raft, about to forward after an
error, or done. -/
inductive CallPc
  | idle
  | submit (node : ℕ)
  | waiting (node : ℕ)
  | forward
  | done (ok : Bool)
  deriving DecidableEq, Repr

/-- A call of `Put`, `Delete` or `Write`, and how many copies of its command Raft has taken. -/
structure Call where
  pc : CallPc := .idle
  attempt : ℕ := 0
  cmd : Command := { type := .delete }

inductive ReadPc
  | idle
  | begun
  | verified
  | done (value : Option Bytes)
  deriving DecidableEq, Repr

/-- A read on a node.  For the statement it notes the positions of the writes that were acknowledged
when it began. -/
structure Reader where
  pc : ReadPc := .idle
  node : ℕ := 0
  key : Bytes := []
  acked : List ℕ := []

/-- A Raft group and its clients.  `leader` is the one that a quorum follows, `base` the number of
entries committed when it was elected. -/
structure Group where
  states : ℕ → RaftState := fun _ => .follower
  leader : Option ℕ := none
  base : ℕ := 0
  log : List Committed := []
  pending : List Proposal := []
  applied : ℕ → ℕ := fun _ => 0
  calls : ℕ → Call := fun _ => {}
  acked : List ℕ := []
  reader : Reader := {}

/-- What happens in the group.  Errors before Raft takes the command are `submit` with `false`, all
later ones (leadership lost, context expired, an error of `Apply`) are `fail`. -/
inductive GroupEvent
  | elect (p : ℕ)
  | stepDown (p : ℕ)
  | crash (p kept : ℕ)
  | commit (j : ℕ)
  | apply (p : ℕ)
  | call (c node : ℕ) (cmd : Command)
  | submit (c : ℕ) (enqueued : Bool)
  | ack (c : ℕ)
  | fail (c : ℕ)
  | forward (c node : ℕ)
  | giveUp (c : ℕ)
  | readBegin (node : ℕ) (key : Bytes)
  | readVerify
  | readGet

def committedMap (updates : Command → List (Bytes × Option Bytes)) (xs : List Committed) :
    Bytes → Option Bytes :=
  KeyValue.applyAll (xs.flatMap (fun x => updates x.proposal.cmd)) (fun _ => none)

def Group.setCall (g : Group) (c : ℕ) (pc : CallPc) : Group :=
  { g with calls := Function.update g.calls c { g.calls c with pc := pc } }

def Group.demote (g : Group) (p : ℕ) : Group :=
  { g with
    states := Function.update g.states p .follower
    leader := if g.leader = some p then none else g.leader }

/-- The position of the entry that a waiting call is told about. -/
def Group.position (g : Group) (c node : ℕ) : Option ℕ :=
  g.log.findIdx? (fun x => x.proposal.call = c ∧ x.proposal.attempt = (g.calls c).attempt ∧
    x.leader = node)

def Group.next (updates : Command → List (Bytes × Option Bytes)) (g : Group) : GroupEvent → Group
  | .elect p =>
    { g with states := Function.update g.states p .leader, leader := some p, base := g.log.length }
  | .stepDown p => g.demote p
  | .crash p kept =>
    { g.demote p with
      applied := Function.update g.applied p (min kept (g.applied p))
      reader := if g.reader.node = p then {} else g.reader }
  | .commit j =>
    match g.leader, g.pending[j]? with
    | some p, some x => { g with log := g.log ++ [⟨x, p⟩], pending := g.pending.eraseIdx j }
    | _, _ => g
  | .apply p =>
    if g.applied p < g.log.length then
      { g with applied := Function.update g.applied p (g.applied p + 1) }
    else g
  | .call c node cmd =>
    match (g.calls c).pc with
    | .idle =>
      { g with
        calls := Function.update g.calls c { g.calls c with pc := .submit node, cmd := cmd } }
    | _ => g
  | .submit c enqueued =>
    match (g.calls c).pc with
    | .submit node =>
      match submitCheck (g.states node) (g.calls c).cmd with
      | .error _ => g.setCall c .forward
      | .ok () =>
        if enqueued then
          { g with
            pending := g.pending ++ [⟨c, (g.calls c).attempt + 1, node, (g.calls c).cmd⟩]
            calls := Function.update g.calls c
              { g.calls c with pc := .waiting node, attempt := (g.calls c).attempt + 1 } }
        else g.setCall c .forward
    | _ => g
  | .ack c =>
    match (g.calls c).pc with
    | .waiting node =>
      match g.position c node with
      | some i =>
        if i < g.applied node then { g.setCall c (.done true) with acked := i :: g.acked } else g
      | none => g
    | _ => g
  | .fail c =>
    match (g.calls c).pc with
    | .waiting _ => g.setCall c .forward
    | _ => g
  | .forward c node =>
    match (g.calls c).pc with
    | .forward => g.setCall c (.submit node)
    | _ => g
  | .giveUp c =>
    match (g.calls c).pc with
    | .forward => g.setCall c (.done false)
    | _ => g
  | .readBegin node key =>
    { g with reader := { pc := .begun, node := node, key := key, acked := g.acked } }
  | .readVerify =>
    match g.reader.pc with
    | .begun =>
      if linearizableRead (g.states g.reader.node) (g.leader = some g.reader.node) then
        { g with reader := { g.reader with pc := .verified } }
      else { g with reader := {} }
    | _ => g
  | .readGet =>
    match g.reader.pc with
    | .verified =>
      -- the engine holds the entries that its node has applied
      { g with
        reader := { g.reader with
          pc := .done (committedMap updates (g.log.take (g.applied g.reader.node)) g.reader.key) } }
    | _ => g

end LsmTree
