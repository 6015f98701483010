import LsmTree.Property.ForwardingEnds

/-!
# Where requests go

The HTTP requests that a read or a write at a node causes the node to send, for any answers that it
gets: those of the forwarding helpers (`forwardRead`, `forwardJSON` in
`internal/cluster/raft_node.go`), those of the gateway (`maybeForwardRead` in `gateway/rest.go`),
and those that the HTTP clients send on their own to follow a redirect.

The helpers ask `isKnownPeer` before each request.  The gateway does not, and neither client has a
`CheckRedirect`.  So all requests go to known peers exactly if the redirects that are followed and
the leader that the gateway turns to are known (`requests_known_iff`).
-/

namespace LsmTree

/-- What comes back on a request: a redirect (3xx) to the address of a location, or an answer. -/
inductive HttpAnswer
  | moved (location : Bytes)
  | reply (r : Reply)
  deriving DecidableEq, Repr

inductive HttpRequest
  | helper (base : Bytes)
  | gateway (base : Bytes)
  | followed (base : Bytes)
  deriving DecidableEq, Repr

def HttpRequest.base : HttpRequest → Bytes
  | .helper base | .gateway base | .followed base => base

/-- What became of a call of the HTTP client: the requests, the answer in the end, and the answers
that were not used up. -/
structure HttpCall where
  requests : List HttpRequest
  reply : Reply
  rest : List HttpAnswer

def follow : ℕ → List HttpAnswer → HttpCall
  | _, [] => ⟨[], .unreachable, []⟩
  | _, .reply r :: rest => ⟨[], r, rest⟩
  | 0, .moved _ :: rest => ⟨[], .failed, rest⟩
  | k + 1, .moved location :: rest =>
    let call := follow k rest
    { call with requests := .followed location :: call.requests }

section

variable (ts : TrimSpace) (valid : Bytes → Bool) (n : ForwardNode)

/-- `http.NewRequest`, which fails on an invalid URL, and `client.Do`, which sends up to ten
requests. -/
def httpDo (first : HttpRequest) (answers : List HttpAnswer) : HttpCall :=
  if valid first.base then
    let call := follow 9 answers
    { call with requests := first :: call.requests }
  else ⟨[], .failed, answers⟩

/-- `forwardJSON`, up to so many calls of the client. -/
def ForwardNode.jsonRequests : ℕ → Bytes → List HttpAnswer → List HttpRequest
  | 0, _, _ => []
  | fuel + 1, targetBase, answers =>
    let call := httpDo valid (.helper targetBase) answers
    match n.redirect ts targetBase call.reply with
    | none => call.requests
    | some leader => call.requests ++ jsonRequests fuel leader call.rest

def ForwardNode.writeRequests (fuel : ℕ) (answers : List HttpAnswer) : List HttpRequest :=
  match n.submit, n.forwardTarget ts with
  | some _, some target => n.jsonRequests ts valid fuel target answers
  | _, _ => []

def ForwardNode.forwardRead (answers : List HttpAnswer) : HttpCall :=
  match n.forwardTarget ts with
  | some target => httpDo valid (.helper target) answers
  | none => ⟨[], .failed, answers⟩

/-- `maybeForwardRead`, on the error that the node returned. -/
def ForwardNode.maybeForwardRead (err : LocalFailure) (forwarded : Bool)
    (answers : List HttpAnswer) : List HttpRequest :=
  if err = .notLeader ∧ forwarded = false ∧ ts.trim (n.leaderAddress ts) ≠ [] then
    (httpDo valid (.gateway (ts.trim (n.leaderAddress ts))) answers).requests
  else []

/-- The requests that a linearizable read causes, where `submit` says whether the node is the leader
and `forwarded` whether the request has the header `X-LSM-Forwarded`.  The gateway forwards a read
that the node could neither serve nor forward. -/
def ForwardNode.readRequests (forwarded : Bool) (answers : List HttpAnswer) : List HttpRequest :=
  match n.submit with
  | none => []
  | some err =>
    let call := n.forwardRead ts valid answers
    if call.reply = .ok then call.requests
    else call.requests ++ n.maybeForwardRead ts valid err forwarded call.rest

end

variable {ts : TrimSpace} {n : ForwardNode} {t t' : Bytes} {r : Reply} {fuel : ℕ}
  {valid : Bytes → Bool} {answers : List HttpAnswer} {req : HttpRequest}

/-- A request for which there is a reason: an answer that redirects there, or a known peer. -/
def ForwardNode.Accounts (ts : TrimSpace) (n : ForwardNode) (answers : List HttpAnswer) :
    HttpRequest → Prop
  | .followed location => .moved location ∈ answers
  | .helper base | .gateway base => n.isKnownPeer ts base = true

theorem ForwardNode.Accounts.mono {answers' : List HttpAnswer} (h : n.Accounts ts answers req)
    (hsub : answers ⊆ answers') : n.Accounts ts answers' req := by
  cases req with
  | followed location => exact hsub h
  | helper base | gateway base => exact h

theorem follow_accounts {k : ℕ} : (follow k answers).rest ⊆ answers ∧
    ∀ req ∈ (follow k answers).requests, n.Accounts ts answers req := by
  induction answers generalizing k with
  | nil =>
    rw [follow]
    exact ⟨List.Subset.refl _, fun _ h => absurd h List.not_mem_nil⟩
  | cons a rest ih =>
    have hsub := List.subset_cons_self a rest
    cases a with
    | reply r =>
      rw [follow]
      exact ⟨hsub, fun _ h => absurd h List.not_mem_nil⟩
    | moved location =>
      cases k with
      | zero => exact ⟨hsub, fun _ h => absurd h List.not_mem_nil⟩
      | succ k =>
        obtain ⟨hrest, hreqs⟩ := @ih k
        refine ⟨fun x hx => hsub (hrest hx), fun req h => ?_⟩
        rcases List.mem_cons.1 h with rfl | h
        · exact List.mem_cons_self
        · exact (hreqs req h).mono hsub

theorem httpDo_accounts {first : HttpRequest}
    (hfirst : valid first.base = true → n.Accounts ts answers first) :
    (httpDo valid first answers).rest ⊆ answers ∧
      ∀ req ∈ (httpDo valid first answers).requests, n.Accounts ts answers req := by
  obtain ⟨hrest, hreqs⟩ := @follow_accounts ts n answers 9
  unfold httpDo
  split_ifs with hvalid
  · exact ⟨hrest, List.forall_mem_cons.2 ⟨hfirst hvalid, hreqs⟩⟩
  · exact ⟨List.Subset.refl _, fun _ h => absurd h List.not_mem_nil⟩

/-! ## The helpers -/

theorem forwardTarget_known (h : n.forwardTarget ts = some t) : n.isKnownPeer ts t = true := by
  unfold ForwardNode.forwardTarget at h
  split_ifs at h with hnil hknown
  rwa [← Option.some.inj h]

theorem redirect_known (h : n.redirect ts t r = some t') : n.isKnownPeer ts t' = true := by
  cases r with
  | conflict leader =>
    simp only [ForwardNode.redirect] at h
    split_ifs at h with htest
    rw [← Option.some.inj h]
    exact htest.2.2
  | ok | failed | unreachable => cases h

theorem jsonRequests_accounts (ht : n.isKnownPeer ts t = true)
    (h : req ∈ n.jsonRequests ts valid fuel t answers) : n.Accounts ts answers req := by
  induction fuel generalizing t answers with
  | zero => exact absurd h List.not_mem_nil
  | succ fuel ih =>
    obtain ⟨hrest, hreqs⟩ := @httpDo_accounts ts n valid answers (.helper t) fun _ => ht
    simp only [ForwardNode.jsonRequests] at h
    cases hred : n.redirect ts t (httpDo valid (.helper t) answers).reply with
    | none =>
      rw [hred] at h
      exact hreqs req h
    | some leader =>
      rw [hred] at h
      exact (List.mem_append.1 h).elim (hreqs req)
        (fun h => (ih (redirect_known hred) h).mono hrest)

theorem writeRequests_accounts (h : req ∈ n.writeRequests ts valid fuel answers) :
    n.Accounts ts answers req := by
  unfold ForwardNode.writeRequests at h
  split at h
  · rename_i htarget
    exact jsonRequests_accounts (forwardTarget_known htarget) h
  · exact absurd h List.not_mem_nil

theorem forwardRead_accounts : (n.forwardRead ts valid answers).rest ⊆ answers ∧
    ∀ req ∈ (n.forwardRead ts valid answers).requests, n.Accounts ts answers req := by
  unfold ForwardNode.forwardRead
  cases htarget : n.forwardTarget ts with
  | none => exact ⟨List.Subset.refl _, fun _ h => absurd h List.not_mem_nil⟩
  | some target => exact httpDo_accounts fun _ => forwardTarget_known htarget

/-! ## The gateway -/

/-- Would the gateway of the node send reads to an unknown address? -/
def ForwardNode.GatewayKnown (ts : TrimSpace) (valid : Bytes → Bool) (n : ForwardNode)
    (forwarded : Bool) : Prop :=
  n.submit = some .notLeader → forwarded = false → n.leaderAddress ts ≠ [] →
    valid (n.leaderAddress ts) = true → n.isKnownPeer ts (n.leaderAddress ts) = true

theorem readRequests_accounts {forwarded : Bool}
    (h : req ∈ n.readRequests ts valid forwarded answers) :
    n.Accounts ts answers req ∨ req = .gateway (n.leaderAddress ts) ∧
      (n.GatewayKnown ts valid forwarded → n.Accounts ts answers req) := by
  obtain ⟨hrest, hreqs⟩ := @forwardRead_accounts ts n valid answers
  unfold ForwardNode.readRequests at h
  cases hsubmit : n.submit with
  | none =>
    rw [hsubmit] at h
    exact absurd h List.not_mem_nil
  | some err =>
    simp only [hsubmit] at h
    split_ifs at h
    · exact .inl (hreqs req h)
    rcases List.mem_append.1 h with h | hgateway
    · exact .inl (hreqs req h)
    rw [ForwardNode.maybeForwardRead, trim_leaderAddress] at hgateway
    split_ifs at hgateway with htest
    · obtain ⟨rfl, hfirst, hne⟩ := htest
      unfold httpDo at hgateway
      split_ifs at hgateway with hvalid
      · rcases List.mem_cons.1 hgateway with rfl | hmem
        · exact .inr ⟨rfl, fun hgate => hgate hsubmit hfirst hne hvalid⟩
        · exact .inl ((follow_accounts.2 req hmem).mono hrest)
      · exact absurd hgateway List.not_mem_nil
    · exact absurd hgateway List.not_mem_nil

theorem gateway_mem_readRequests (hsubmit : n.submit = some .notLeader)
    (hne : n.leaderAddress ts ≠ []) (hvalid : valid (n.leaderAddress ts) = true)
    (hunknown : n.isKnownPeer ts (n.leaderAddress ts) = false) (answers : List HttpAnswer) :
    .gateway (n.leaderAddress ts) ∈ n.readRequests ts valid false answers := by
  have htarget : n.forwardTarget ts = none := by
    simp [ForwardNode.forwardTarget, trim_leaderAddress, hunknown]
  simp [ForwardNode.readRequests, ForwardNode.forwardRead, ForwardNode.maybeForwardRead, httpDo,
    hsubmit, htarget, trim_leaderAddress, hne, HttpRequest.base, hvalid]

/-- **When all requests go to known peers**: a write's exactly if the redirects that are followed
lead to known peers, and a read's exactly if, besides, the gateway does not turn to an unknown
leader.  The redirects that are followed are among the answers. -/
theorem requests_known_iff (ts : TrimSpace) (valid : Bytes → Bool) (n : ForwardNode)
    (answers : List HttpAnswer) :
    (∀ fuel, (∀ req ∈ n.writeRequests ts valid fuel answers, n.isKnownPeer ts req.base = true) ↔
      ∀ location, .followed location ∈ n.writeRequests ts valid fuel answers →
        n.isKnownPeer ts location = true) ∧
    (∀ forwarded,
      (∀ req ∈ n.readRequests ts valid forwarded answers, n.isKnownPeer ts req.base = true) ↔
        n.GatewayKnown ts valid forwarded ∧
          ∀ location, .followed location ∈ n.readRequests ts valid forwarded answers →
            n.isKnownPeer ts location = true) ∧
    ∀ location fuel forwarded,
      .followed location ∈ n.writeRequests ts valid fuel answers ∨
        .followed location ∈ n.readRequests ts valid forwarded answers →
      .moved location ∈ answers := by
  refine ⟨fun fuel => ⟨fun hall location hmem => hall _ hmem, fun hfollowed req hreq => ?_⟩,
    fun forwarded => ⟨fun hall => ⟨?_, fun location hmem => hall _ hmem⟩, ?_⟩,
    fun location fuel forwarded h => h.elim writeRequests_accounts fun h => ?_⟩
  · cases req with
    | followed location => exact hfollowed location hreq
    | helper base | gateway base => exact writeRequests_accounts hreq
  · rintro hsubmit rfl hne hvalid
    by_contra hunknown
    exact hunknown (hall _ (gateway_mem_readRequests hsubmit hne hvalid
      (Bool.eq_false_iff.2 hunknown) answers))
  · rintro ⟨hgate, hfollowed⟩ req hreq
    have hreason : n.Accounts ts answers req :=
      (readRequests_accounts hreq).elim id (fun h => h.2 hgate)
    cases req with
    | followed location => exact hfollowed location hreq
    | helper base | gateway base => exact hreason
  · exact (readRequests_accounts h).elim id (fun h => by cases h.1)

/-- A follower that has only itself in its registry and whose leader is at "x". -/
def strangerNode : ForwardNode where
  nodeID := [110]
  clientAddress := [99]
  advertiseAddress := [97]
  peerRegistry := [⟨[110], [97], [99], []⟩]
  leaderID := [108]
  leaderRPC := [120]
  submit := some .notLeader

/-- The read goes to the leader, which is not a known peer. -/
theorem strangerNode_forwards :
    strangerNode.readRequests asciiSpace (fun _ => true) false [] =
        [.gateway (httpScheme ++ [120])] ∧
      strangerNode.isKnownPeer asciiSpace (httpScheme ++ [120]) = false := by
  constructor <;> decide +kernel

end LsmTree
