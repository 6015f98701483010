import LsmTree.Cluster.Journal
import LsmTree.Lib.EachUntil
import Mathlib.Logic.Function.Basic

/-!
# Membership changes (`AddPeer`, `RemovePeer` in `internal/cluster/raft_node.go` and `sharded.go`)

A sharded node changes its membership shard by shard: each shard is a Raft group of its own, in
which the peer has an identity of its own.  A shard's change can fail before its Raft configuration
changes, without it being known whether it changed, or after it, when the registry of client
addresses cannot be saved.  What happens at each shard is an argument.

The functions of `net` and `strconv` on addresses are parameters (`AddressLib`).
-/

namespace LsmTree

/-! ### Identities -/

structure Peer where
  nodeID : Bytes
  rpcAddress : Bytes := []
  clientAddress : Bytes := []
  suffrage : Bytes := []
  deriving DecidableEq, Repr

/-- `net.SplitHostPort`, `net.JoinHostPort`, `strconv.Atoi` and `strconv.Itoa`. -/
structure AddressLib where
  splitHostPort : Bytes → Option (Bytes × Bytes)
  joinHostPort : Bytes → Bytes → Bytes
  atoi : Bytes → Option ℤ
  itoa : ℤ → Bytes

def decimal (n : ℕ) : Bytes := (Nat.toDigits 10 n).map (fun c => UInt8.ofNat c.toNat)

/-- `shardName`: the text "shard-" and the number, with at least two digits. -/
def shardName (shard : ℕ) : Bytes :=
  [115, 104, 97, 114, 100, 45] ++ (if shard < 10 then [48] else []) ++ decimal shard

/-- The identity of a node in a shard: a dash and the shard's name are appended. -/
def deriveShardNodeID (nodeID : Bytes) (shard : ℕ) : Bytes := nodeID ++ [45] ++ shardName shard

/-- The address of a node in a shard: the port is moved by a multiple of the stride. -/
def deriveShardAddress (lib : AddressLib) (addr : Bytes) (shard : ℕ) (stride : ℤ) : Bytes :=
  if addr = [] ∨ stride ≤ 0 then addr
  else
    match lib.splitHostPort addr with
    | none => addr
    | some (host, portStr) =>
      match lib.atoi portStr with
      | none => addr
      | some port => lib.joinHostPort host (lib.itoa (port + shard * stride))

def deriveShardPeer (lib : AddressLib) (peer : Peer) (shard : ℕ) (stride : ℤ) : Peer where
  nodeID := deriveShardNodeID peer.nodeID shard
  rpcAddress := deriveShardAddress lib peer.rpcAddress shard stride
  clientAddress := peer.clientAddress
  suffrage := peer.suffrage

/-! ### Blank strings -/

/-- `unicode.IsSpace`, on the bytes of one character. -/
def isSpace : Bytes → Bool
  | [b] => b = 0x20 || (0x09 ≤ b && b ≤ 0x0D)
  | [b₀, b₁] => b₀ = 0xC2 && (b₁ = 0x85 || b₁ = 0xA0)
  | [b₀, b₁, b₂] =>
    (b₀ = 0xE1 && b₁ = 0x9A && b₂ = 0x80) ||
    (b₀ = 0xE2 && b₁ = 0x80 && ((0x80 ≤ b₂ && b₂ ≤ 0x8A) || b₂ = 0xA8 || b₂ = 0xA9 || b₂ = 0xAF)) ||
    (b₀ = 0xE2 && b₁ = 0x81 && b₂ = 0x9F) || (b₀ = 0xE3 && b₁ = 0x80 && b₂ = 0x80)
  | _ => false

/-- The next `n` characters, as far as there are any, are white space. -/
def blankChars : ℕ → Bytes → Bool
  | 0, _ => true
  | _ + 1, [] => true
  | n + 1, b :: rest =>
    isSpace ((b :: rest).take (runeLen (b :: rest))) &&
      blankChars n ((b :: rest).drop (runeLen (b :: rest)))

/-- `strings.TrimSpace` leaves nothing of the string. -/
def isBlank (s : Bytes) : Bool := blankChars s.length s

/-! ### One shard -/

/-- What `AddPeer` and `RemovePeer` return. -/
inductive PeerError
  | required
  | notLeader
  | raft
  | store
  | unsupported
  deriving DecidableEq, Repr

/-- How a Raft change ends; the change of an error may have been made. -/
inductive RaftResult
  | ok
  | failed (changed : Bool)
  deriving DecidableEq, Repr

/-- What happens at a shard: whether it is the leader, how the Raft change ends, and whether the
registry can be saved. -/
structure ShardOutcome where
  leader : Bool := true
  raft : RaftResult := .ok
  saved : Bool := true
  deriving DecidableEq, Repr

/-- The members of a Raft group: the addresses of its servers, by id. -/
abbrev Servers := Bytes → Option Bytes

/-- The peers of a Raft group as they are reported: RPC address and client address, by id. -/
abbrev PeerSet := Bytes → Option (Bytes × Bytes)

/-- The part of a `RaftNode` that membership changes touch and `Peers` reads; the last two are
fields of its `cfg`. -/
structure RaftMembers where
  servers : Servers
  registry : Bytes → Option Peer
  nodeID : Bytes := []
  clientAddress : Bytes := []

/-- The client address that `Peers` reports for an id: its own where the registry has none. -/
def RaftMembers.shown (m : RaftMembers) (id known : Bytes) : Bytes :=
  if id = m.nodeID ∧ known = [] then m.clientAddress else known

/-- `RaftNode.Peers`: the servers of the Raft configuration, with the client addresses of the
registry.  `GetConfiguration` returns no error. -/
def RaftMembers.peers (m : RaftMembers) : PeerSet := fun id =>
  (m.servers id).map (fun address =>
    (address, m.shown id (((m.registry id).map Peer.clientAddress).getD [])))

/-- `raft.AddVoter`: add a server, or give it a new address. -/
def Servers.addVoter (servers : Servers) (id address : Bytes) : Servers :=
  Function.update servers id (some address)

/-- `raft.RemoveServer`. -/
def Servers.removeServer (servers : Servers) (id : Bytes) : Servers :=
  Function.update servers id none

def RaftMembers.change (m : RaftMembers) (o : ShardOutcome) (servers : Servers)
    (registry : Bytes → Option Peer) : RaftMembers × Except PeerError Unit :=
  if o.leader = false then (m, .error .notLeader)
  else
    match o.raft with
    | .failed false => (m, .error .raft)
    | .failed true => ({ m with servers := servers }, .error .raft)
    | .ok => ({ m with servers, registry }, if o.saved then .ok () else .error .store)

/-- `RaftNode.AddPeer`. -/
def RaftMembers.addPeer (m : RaftMembers) (o : ShardOutcome) (peer : Peer) :
    RaftMembers × Except PeerError Unit :=
  if isBlank peer.nodeID || isBlank peer.rpcAddress then (m, .error .required)
  else m.change o (m.servers.addVoter peer.nodeID peer.rpcAddress)
    (Function.update m.registry peer.nodeID (some peer))

/-- `RaftNode.RemovePeer`. -/
def RaftMembers.removePeer (m : RaftMembers) (o : ShardOutcome) (nodeID : Bytes) :
    RaftMembers × Except PeerError Unit :=
  if isBlank nodeID then (m, .error .required)
  else m.change o (m.servers.removeServer nodeID) (Function.update m.registry nodeID none)

/-- A shard of a sharded node: without clustering it has no members. -/
inductive ShardMember
  | standalone
  | raft (m : RaftMembers)

def ShardMember.peers : ShardMember → PeerSet
  | .standalone => fun _ => none
  | .raft m => m.peers

/-- `Node.AddPeer`. -/
def ShardMember.addPeer (s : ShardMember) (o : ShardOutcome) (peer : Peer) :
    ShardMember × Except PeerError Unit :=
  match s with
  | .standalone => (.standalone, .error .unsupported)
  | .raft m => (.raft (m.addPeer o peer).1, (m.addPeer o peer).2)

/-- `Node.RemovePeer`. -/
def ShardMember.removePeer (s : ShardMember) (o : ShardOutcome) (nodeID : Bytes) :
    ShardMember × Except PeerError Unit :=
  match s with
  | .standalone => (.standalone, .error .unsupported)
  | .raft m => (.raft (m.removePeer o nodeID).1, (m.removePeer o nodeID).2)

/-! ### The sharded node -/

/-- The part of a `ShardedNode` that membership changes touch: its shards, `cfg.Peers` and
`cfg.ShardPortStride`. -/
structure ShardedMembers where
  shards : List ShardMember
  peers : List Peer
  stride : ℤ

def ShardedMembers.peerSets (n : ShardedMembers) : List PeerSet := n.shards.map ShardMember.peers

/-- The end of a membership change: `cfg.Peers` follows if there was no error. -/
def ShardedMembers.finish (n : ShardedMembers) (r : List ShardMember × Except PeerError Unit)
    (peers : List Peer) : ShardedMembers × Except PeerError Unit :=
  match r with
  | (shards, .error err) => ({ n with shards := shards }, .error err)
  | (shards, .ok ()) => ({ n with shards := shards, peers := peers }, .ok ())

/-- `ShardedNode.AddPeer`. -/
def ShardedMembers.addPeer (n : ShardedMembers) (lib : AddressLib) (outs : ℕ → ShardOutcome)
    (peer : Peer) : ShardedMembers × Except PeerError Unit :=
  n.finish (EachUntil.eachUntil
    (fun i s => s.addPeer (outs i) (deriveShardPeer lib peer i n.stride)) 0 n.shards)
    (n.peers ++ [peer])

/-- `ShardedNode.RemovePeer`. -/
def ShardedMembers.removePeer (n : ShardedMembers) (outs : ℕ → ShardOutcome) (nodeID : Bytes) :
    ShardedMembers × Except PeerError Unit :=
  n.finish (EachUntil.eachUntil
    (fun i s => s.removePeer (outs i) (deriveShardNodeID nodeID i)) 0 n.shards)
    (n.peers.filter (fun p => p.nodeID != nodeID))

end LsmTree
