import LsmTree.Cluster.Membership

/-!
# Membership changes are not all-or-nothing

`ShardedNode.AddPeer` and `RemovePeer` change one shard after the other and return at the first
error; the shards before it keep their new members, and so may the shard that failed.  The change is
all-or-nothing exactly if no shard up to the first failure has its peers changed, client addresses
included (`membership_atomic_iff`).
-/

namespace LsmTree

open EachUntil

variable {n : ShardedMembers} {s : ShardMember} {o : ShardOutcome} {outs : ℕ → ShardOutcome}

variable {m : RaftMembers} {servers : Servers} {registry : Bytes → Option Peer} {id : Bytes}
  {target : Option Peer}

def RaftMembers.entry (m : RaftMembers) (id : Bytes) (target : Option Peer) :
    Option (Bytes × Bytes) :=
  target.map (fun peer => (peer.rpcAddress, m.shown id peer.clientAddress))

/-- The peers of a shard with one of them added, given other addresses, or removed. -/
def ShardMember.withPeer (s : ShardMember) (id : Bytes) (target : Option Peer) : PeerSet :=
  match s with
  | .standalone => fun _ => none
  | .raft m => Function.update m.peers id (m.entry id target)

/-- After an error all peers are as before, with their addresses; otherwise each shard's peers have
changed in that peer, and in nothing else. -/
def AllOrNothing (n : ShardedMembers) (r : ShardedMembers × Except PeerError Unit)
    (id : ℕ → Bytes) (target : ℕ → Option Peer) : Prop :=
  match r.2 with
  | .error _ => r.1.peerSets = n.peerSets ∧ r.1.peers = n.peers
  | .ok () => r.1.peerSets = n.shards.mapIdx (fun i s => s.withPeer (id i) (target i))

/-! ### When a shard fails and when its members change -/

/-- A change that the shard refuses for no reason of the request. -/
structure ShardOutcome.Succeeds (o : ShardOutcome) : Prop where
  leader : o.leader = true
  raft : o.raft = .ok
  saved : o.saved = true

/-- The shard's call fails: there is no Raft group, the request is blank, or one of the steps
fails. -/
def ShardMember.Fails (s : ShardMember) (o : ShardOutcome) (blank : Bool) : Prop :=
  match s with
  | .standalone => True
  | .raft _ => blank = true ∨ ¬ o.Succeeds

/-- The Raft change is made and the peer was not as wanted.  Without an error of Raft the registry
follows, so that the client address counts too. -/
def RaftMembers.Moved (m : RaftMembers) (id : Bytes) (target : Option Peer) : RaftResult → Prop
  | .failed false => False
  | .failed true => m.servers id ≠ target.map Peer.rpcAddress
  | .ok => m.peers id ≠ m.entry id target

/-- The peers are changed: the request gets to Raft, and the peer is not already as wanted. -/
def ShardMember.Moves (s : ShardMember) (o : ShardOutcome) (blank : Bool) (id : Bytes)
    (target : Option Peer) : Prop :=
  match s with
  | .standalone => False
  | .raft m => blank = false ∧ o.leader = true ∧ m.Moved id target o.raft

/-- Up to the first shard that fails, no shard has its peers changed. -/
def ShardedMembers.StillUntilFailure (n : ShardedMembers) (outs : ℕ → ShardOutcome)
    (blank : ℕ → Bool) (id : ℕ → Bytes) (target : ℕ → Option Peer) : Prop :=
  ∀ i, (∃ s : ShardMember, n.shards[i]? = some s ∧ s.Fails (outs i) (blank i)) →
    (∀ j < i, ¬ ∃ s : ShardMember, n.shards[j]? = some s ∧ s.Fails (outs j) (blank j)) →
    ∀ j ≤ i, ¬ ∃ s : ShardMember, n.shards[j]? = some s ∧ s.Moves (outs j) (blank j) (id j)
      (target j)

theorem change_error_iff : (m.change o servers registry).2 ≠ .ok () ↔ ¬ o.Succeeds := by
  obtain ⟨leader, raft, saved⟩ := o
  unfold RaftMembers.change
  refine not_congr ⟨fun h => ?_, fun h => ?_⟩
  · cases leader with
    | false => cases h
    | true =>
      rcases raft with _ | _ | _
      · cases saved with
        | false => cases h
        | true => exact ⟨rfl, rfl, rfl⟩
      · cases h
      · cases h
  · cases h.leader
    cases h.raft
    cases h.saved
    rfl

theorem peers_update (m : RaftMembers) (id : Bytes) (address : Option Bytes) :
    ({ m with servers := Function.update m.servers id address } : RaftMembers).peers =
      Function.update m.peers id (address.map (fun a =>
        (a, m.shown id (((m.registry id).map Peer.clientAddress).getD [])))) := by
  funext x
  rcases eq_or_ne x id with rfl | hne
  · simp [RaftMembers.peers, RaftMembers.shown]
  · simp [RaftMembers.peers, RaftMembers.shown, Function.update_of_ne hne]

theorem peers_set (m : RaftMembers) (id : Bytes) (target : Option Peer) :
    ({ m with servers := Function.update m.servers id (target.map Peer.rpcAddress),
              registry := Function.update m.registry id target } : RaftMembers).peers =
      Function.update m.peers id (m.entry id target) := by
  funext x
  rcases eq_or_ne x id with rfl | hne
  · cases target <;> simp [RaftMembers.peers, RaftMembers.shown, RaftMembers.entry]
  · simp [RaftMembers.peers, RaftMembers.shown, Function.update_of_ne hne]

def RaftMembers.set (m : RaftMembers) (o : ShardOutcome) (id : Bytes) (target : Option Peer) :
    RaftMembers × Except PeerError Unit :=
  m.change o (Function.update m.servers id (target.map Peer.rpcAddress))
    (Function.update m.registry id target)

theorem update_ne_iff {α β : Type*} [DecidableEq α] (f : α → β) (a : α) (b : β) :
    Function.update f a b ≠ f ↔ f a ≠ b := by
  rw [Ne, Function.update_eq_self_iff, eq_comm]

theorem set_peers_iff :
    (m.set o id target).1.peers ≠ m.peers ↔ o.leader = true ∧ m.Moved id target o.raft := by
  obtain ⟨leader, raft, saved⟩ := o
  unfold RaftMembers.set RaftMembers.change
  cases leader with
  | false => simp
  | true =>
    rcases raft with _ | _ | _
    · simp only [Bool.true_eq_false, if_false, peers_set, update_ne_iff, RaftMembers.Moved,
        true_and]
    · simp [RaftMembers.Moved]
    · simp only [Bool.true_eq_false, if_false, peers_update, update_ne_iff, RaftMembers.Moved,
        true_and]
      -- both addresses are shown with the client address that the registry has now
      exact (Option.map_injective (fun a b h => congrArg Prod.fst h)).ne_iff

/-- The two membership changes of a shard, as far as success and the peers go. -/
structure IsChange (f : ShardMember × Except PeerError Unit) (s : ShardMember) (o : ShardOutcome)
    (blank : Bool) (id : Bytes) (target : Option Peer) : Prop where
  fails : f.2 ≠ .ok () ↔ s.Fails o blank
  moves : f.1.peers ≠ s.peers ↔ s.Moves o blank id target
  done : f.2 = .ok () → f.1.peers = s.withPeer id target

theorem set_done (h : (m.set o id target).2 = .ok ()) :
    (m.set o id target).1.peers = Function.update m.peers id (m.entry id target) := by
  have hok : o.Succeeds := by
    by_contra hc
    exact change_error_iff.2 hc h
  unfold RaftMembers.set RaftMembers.change
  rw [hok.leader, hok.raft]
  exact peers_set m id target

theorem isChange_raft {r : RaftMembers × Except PeerError Unit} {blank : Bool}
    (hr : r = if blank = true then (m, .error .required) else m.set o id target) :
    IsChange (.raft r.1, r.2) (.raft m) o blank id target := by
  cases blank with
  | true =>
    cases hr
    exact ⟨⟨fun _ => Or.inl rfl, fun _ hc => by cases hc⟩,
      ⟨fun hc => absurd rfl hc, fun hc => by cases hc.1⟩, fun hc => by cases hc⟩
  | false =>
    cases hr
    refine ⟨change_error_iff.trans ⟨Or.inr, fun h => h.resolve_left Bool.false_ne_true⟩,
      set_peers_iff.trans ⟨fun h => ⟨rfl, h⟩, fun h => h.2⟩, set_done⟩

theorem isChange_standalone {err : PeerError} {blank : Bool} :
    IsChange (.standalone, .error err) .standalone o blank id target :=
  ⟨⟨fun _ => trivial, fun _ hc => by cases hc⟩,
    ⟨fun hc => absurd rfl hc, fun hc => hc.elim⟩, fun hc => by cases hc⟩

theorem isChange_addPeer (s : ShardMember) (o : ShardOutcome) (peer : Peer) :
    IsChange (s.addPeer o peer) s o (isBlank peer.nodeID || isBlank peer.rpcAddress) peer.nodeID
      (some peer) := by
  cases s with
  | standalone => exact isChange_standalone
  | raft m => exact isChange_raft rfl

theorem isChange_removePeer (s : ShardMember) (o : ShardOutcome) (nodeID : Bytes) :
    IsChange (s.removePeer o nodeID) s o (isBlank nodeID) nodeID none := by
  cases s with
  | standalone => exact isChange_standalone
  | raft m => exact isChange_raft rfl

/-! ### The loop over the shards -/

section Loop

variable {f : ℕ → ShardMember → ShardMember × Except PeerError Unit} {blank : ℕ → Bool}
  {id : ℕ → Bytes} {target : ℕ → Option Peer}

theorem stillUntilFailure_iff
    (hf : ∀ i s, IsChange (f i s) s (outs i) (blank i) (id i) (target i)) :
    EachUntil.StillUntilFailure f ShardMember.peers 0 n.shards ↔
      n.StillUntilFailure outs blank id target := by
  unfold EachUntil.StillUntilFailure ShardedMembers.StillUntilFailure FailsAt MovesAt
  simp only [Nat.zero_add, (hf _ _).fails, (hf _ _).moves]

theorem peerSets_of_ok (hf : ∀ i s, IsChange (f i s) s (outs i) (blank i) (id i) (target i))
    (h : (eachUntil f 0 n.shards).2 = .ok ()) :
    (eachUntil f 0 n.shards).1.map ShardMember.peers =
      n.shards.mapIdx (fun i s => s.withPeer (id i) (target i)) := by
  rw [eachUntil_ok h]
  refine List.ext_getElem? (fun i => ?_)
  rw [List.getElem?_map, List.getElem?_mapIdx, List.getElem?_mapIdx]
  cases hi : n.shards[i]? with
  | none => rfl
  | some s =>
    have hok : (f (0 + i) s).2 = .ok () := by
      by_contra hc
      exact not_failsAt_of_ok h i ⟨s, hi, hc⟩
    rw [Nat.zero_add] at hok
    simp only [Option.map_some, Nat.zero_add, (hf i s).done hok]

/-- **A change of all shards.** -/
theorem allOrNothing_iff (hf : ∀ i s, IsChange (f i s) s (outs i) (blank i) (id i) (target i))
    (peers : List Peer) :
    AllOrNothing n (n.finish (eachUntil f 0 n.shards) peers) id target ↔
      n.StillUntilFailure outs blank id target := by
  rw [← stillUntilFailure_iff hf]
  rcases hloop : eachUntil f 0 n.shards with ⟨shards, err | _⟩
  · have herror := eachUntil_error_iff (v := ShardMember.peers) (congrArg Prod.snd hloop)
    rw [hloop] at herror
    exact (and_iff_left rfl).trans herror
  · have hok := peerSets_of_ok hf (congrArg Prod.snd hloop)
    rw [hloop] at hok
    exact iff_of_true hok
      (fun i hi => absurd hi (not_failsAt_of_ok (congrArg Prod.snd hloop) i))

end Loop

/-- **Membership changes.** Adding or removing a peer is all-or-nothing, for whatever happens at the
shards, if and only if no shard up to the first one that fails has its peers changed: each of them
refuses before Raft is asked, loses the change, or has the peer as wanted already, with its client
address. -/
theorem membership_atomic_iff (n : ShardedMembers) (lib : AddressLib) (outs : ℕ → ShardOutcome) :
    (∀ peer : Peer, AllOrNothing n (n.addPeer lib outs peer) (deriveShardNodeID peer.nodeID)
        (fun i => some (deriveShardPeer lib peer i n.stride)) ↔
      n.StillUntilFailure outs
        (fun i => isBlank (deriveShardNodeID peer.nodeID i) ||
          isBlank (deriveShardAddress lib peer.rpcAddress i n.stride))
        (deriveShardNodeID peer.nodeID)
        (fun i => some (deriveShardPeer lib peer i n.stride))) ∧
    ∀ nodeID : Bytes, AllOrNothing n (n.removePeer outs nodeID) (deriveShardNodeID nodeID)
        (fun _ => none) ↔
      n.StillUntilFailure outs (fun i => isBlank (deriveShardNodeID nodeID i))
        (deriveShardNodeID nodeID) (fun _ => none) := by
  refine ⟨fun peer => allOrNothing_iff (fun i s => ?_) _,
    fun nodeID => allOrNothing_iff (fun i s => ?_) _⟩
  · exact isChange_addPeer s (outs i) (deriveShardPeer lib peer i n.stride)
  · exact isChange_removePeer s (outs i) (deriveShardNodeID nodeID i)

/-! ### A change that stops half way -/

def twoGroups : ShardedMembers where
  shards :=
    [.raft { servers := fun _ => none, registry := fun _ => none },
     .raft { servers := fun _ => none, registry := fun _ => none }]
  peers := []
  stride := 0

def noPorts : AddressLib := ⟨fun _ => none, fun host _ => host, fun _ => none, fun _ => []⟩

def secondFails (i : ℕ) : ShardOutcome := if i = 1 then { leader := false } else {}

def newPeer : Peer := { nodeID := [110], rpcAddress := [97] }

/-- **Half a change.** The second shard refuses, the first one keeps the new peer. -/
theorem secondGroup_fails :
    (twoGroups.addPeer noPorts secondFails newPeer).2 = .error .notLeader ∧
    ¬ AllOrNothing twoGroups (twoGroups.addPeer noPorts secondFails newPeer)
      (deriveShardNodeID newPeer.nodeID)
      (fun i => some (deriveShardPeer noPorts newPeer i twoGroups.stride)) := by
  refine ⟨rfl, fun h => ?_⟩
  have hfirst := congrArg (fun l => (l.head?.bind (fun peers =>
    peers (deriveShardNodeID newPeer.nodeID 0)))) h.1
  cases hfirst

end LsmTree
