import LsmTree.Cluster.Membership
import Mathlib.Data.List.DropRight
import Mathlib.Data.List.Infix

/-!
# Forwarded writes (`forwardJSON` in `internal/cluster/raft_node.go`)

A node whose `submit` fails sends the write to the client address of the leader, as far as it knows
it.  The node that gets it does the same.  If it fails there too and that node is not the leader, it
answers with a conflict that names the leader, and the sender turns to that address if it is a known
one.

* `ForwardNode`: what forwarding reads of a node;
* `World`: what answers at which address: a node, something with an answer of its own, or a redirect
  (307 or 308), which the HTTP client follows with the same request, nine times at most;
* `World.forwardJSON`: the call, with the number of HTTP requests that it causes.

`strings.TrimSpace` is a parameter (`TrimSpace`).  What a node knows of the leader and what becomes
of its `submit` stay the same during a call.
-/

namespace LsmTree

def httpScheme : Bytes := [104, 116, 116, 112, 58, 47, 47]

/-- `strings.TrimSpace`.  A second call changes nothing, neither does one after a scheme is put
before what is left. -/
structure TrimSpace where
  trim : Bytes → Bytes
  trim_nil : trim [] = []
  trim_trim : ∀ s, trim (trim s) = trim s
  trim_http : ∀ s, trim s ≠ [] → trim (httpScheme ++ trim s) = httpScheme ++ trim s

/-- `strings.TrimRight` of slashes. -/
def trimSlashes (s : Bytes) : Bytes := s.rdropWhile (· = 47)

def normalizeClientAddress (ts : TrimSpace) (addr : Bytes) : Bytes :=
  if ts.trim addr = [] then []
  else if [58, 47, 47] <:+: ts.trim addr then ts.trim addr
  else httpScheme ++ ts.trim addr

/-- Why `submit` fails. -/
inductive LocalFailure
  | notLeader
  | other
  deriving DecidableEq, Repr

/-- What forwarding reads of a node: its addresses, the registry in the order in which a range over
the map visits it, what `raft.LeaderWithID` returns, and how `submit` fails. -/
structure ForwardNode where
  nodeID : Bytes
  clientAddress : Bytes := []
  advertiseAddress : Bytes := []
  bindAddress : Bytes := []
  peerRegistry : List Peer := []
  leaderID : Bytes := []
  leaderRPC : Bytes := []
  submit : Option LocalFailure := none
  deriving DecidableEq, Repr

section

variable (ts : TrimSpace) (n : ForwardNode)

def ForwardNode.resolveClientAddress (leaderID leaderRPC : Bytes) : Bytes :=
  if leaderID = [] ∧ leaderRPC = [] then []
  else if leaderID = n.nodeID ∨ leaderRPC = n.advertiseAddress ∨ leaderRPC = n.bindAddress then
    normalizeClientAddress ts n.clientAddress
  else
    match n.peerRegistry.find? (fun peer =>
        (peer.nodeID = leaderID || peer.rpcAddress = leaderRPC) && peer.clientAddress ≠ []) with
    | some peer => normalizeClientAddress ts peer.clientAddress
    | none => normalizeClientAddress ts leaderRPC

def ForwardNode.leaderAddress : Bytes := n.resolveClientAddress ts n.leaderID n.leaderRPC

/-- The addresses that a node may forward to: its own and those of its peers. -/
def ForwardNode.knownAddresses : List Bytes :=
  (n.clientAddress :: n.advertiseAddress :: n.bindAddress ::
    n.peerRegistry.flatMap (fun peer => [peer.clientAddress, peer.rpcAddress])).map
      (fun candidate => trimSlashes (normalizeClientAddress ts candidate))

def ForwardNode.isKnownPeer (addr : Bytes) : Bool :=
  trimSlashes (ts.trim addr) ≠ [] && trimSlashes (ts.trim addr) ∈ n.knownAddresses ts

/-- The target of `forwardWriteJSON`, if the leader's address is known. -/
def ForwardNode.forwardTarget : Option Bytes :=
  if ts.trim (n.leaderAddress ts) = [] then none
  else if n.isKnownPeer ts (ts.trim (n.leaderAddress ts)) then some (ts.trim (n.leaderAddress ts))
  else none

/-- The answer to a request: success, a conflict (409) that names a leader, another failure, or no
answer at all. -/
inductive Reply
  | ok
  | conflict (leaderAddress : Bytes)
  | failed
  | unreachable
  deriving DecidableEq, Repr

/-- `writeNodeError`: the answer of a node that could neither submit nor forward the write. -/
def ForwardNode.errorReply : LocalFailure → Reply
  | .notLeader => .conflict (n.leaderAddress ts)
  | .other => .failed

/-- Where `forwardJSON` turns to after an answer. -/
def ForwardNode.redirect (targetBase : Bytes) : Reply → Option Bytes
  | .conflict leader =>
    if leader ≠ [] ∧ leader ≠ targetBase ∧ n.isKnownPeer ts leader then some leader else none
  | .ok | .failed | .unreachable => none

end

inductive Host
  | node (n : ForwardNode)
  | peer (r : Reply)
  deriving DecidableEq, Repr

/-- What is at an address: a host, or a redirect to another address. -/
inductive Endpoint
  | host (h : Host)
  | moved (location : Bytes)
  deriving DecidableEq, Repr

structure World where
  hosts : List (Bytes × Endpoint)

/-- `client.Do` on a request to the target: the number of redirects it follows, so many at most, and
the host it reaches in the end.  One redirect more is an error. -/
def World.follow (w : World) : ℕ → Bytes → ℕ × Option Host
  | 0, targetBase =>
    match w.hosts.lookup (trimSlashes targetBase) with
    | none => (0, none)
    | some (.host h) => (0, some h)
    | some (.moved _) => (0, some (.peer .failed))
  | more + 1, targetBase =>
    match w.hosts.lookup (trimSlashes targetBase) with
    | none => (0, none)
    | some (.host h) => (0, some h)
    | some (.moved location) =>
      let (k, h) := w.follow more location
      (k + 1, h)

/-- The host that a request to the target reaches. -/
def World.host (w : World) (targetBase : Bytes) : Option Host := (w.follow 9 targetBase).2

/-- The requests that the client sends on its own on the way. -/
def World.redirects (w : World) (targetBase : Bytes) : ℕ := (w.follow 9 targetBase).1

/-- The answer of a node once its own forwarding has returned: success, or the given one. -/
def forwardedReply (r : Reply) (res : ℕ × Option Bool) : ℕ × Option Reply :=
  (res.1, res.2.map (fun ok => if ok then .ok else r))

/-- The answer to a request, with the number of requests that the host sends on its part.  Nothing
is returned if its own forwarding `fwd` does not return. -/
def World.answer (ts : TrimSpace) (w : World) (fwd : ForwardNode → Bytes → ℕ × Option Bool)
    (targetBase : Bytes) : ℕ × Option Reply :=
  match w.host targetBase with
  | none => (0, some .unreachable)
  | some (.peer r) => (0, some r)
  | some (.node m) =>
    match m.submit with
    | none => (0, some .ok)
    | some err =>
      match m.forwardTarget ts with
      | none => (0, some (m.errorReply ts err))
      | some target => forwardedReply (m.errorReply ts err) (fwd m target)

/-- `forwardJSON`: the number of requests up to a depth of `fuel`, and whether the call succeeds, if
it returns within this depth. -/
def World.forwardJSON (ts : TrimSpace) (w : World) : ℕ → ForwardNode → Bytes → ℕ × Option Bool
  | 0, _, _ => (0, none)
  | fuel + 1, n, targetBase =>
    match w.answer ts (w.forwardJSON ts fuel) targetBase with
    | (k, none) => (k + 1 + w.redirects targetBase, none)
    | (k, some r) =>
      match n.redirect ts targetBase r with
      | none => (k + 1 + w.redirects targetBase, some (decide (r = .ok)))
      | some leader =>
        let (k', res) := w.forwardJSON ts fuel n leader
        (k + 1 + w.redirects targetBase + k', res)

def World.write (ts : TrimSpace) (w : World) (fuel : ℕ) (n : ForwardNode) : ℕ × Option Bool :=
  match n.submit with
  | none => (0, some true)
  | some _ =>
    match n.forwardTarget ts with
    | none => (0, some false)
    | some target => w.forwardJSON ts fuel n target

end LsmTree
