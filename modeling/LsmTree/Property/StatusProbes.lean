import LsmTree.Lib.RWMutex

/-!
# Status probes of a sharded node and its lock

What each call of a `ShardedNode` does with `n.mu`.  `Status` and `HealthStatus` hold the lock for
reading and call `Shards` and `Peers`, which take it again; `LeaderAddress` calls `Shards` without
it, for the reason the source gives there.  A writer that comes between the two acquisitions waits
for the probe, and the probe for the writer.
-/

namespace LsmTree.ShardedLock

open RWMutex

/-- The calls of a `ShardedNode` that take its lock and are modelled here. -/
inductive Call
  | shards
  | peers
  | leaderAddress
  | status
  | healthStatus
  | write
  | addPeer
  | removePeer
  | close
  deriving DecidableEq, Repr

/-- `Shards` reads under the lock. -/
def shardsOps : List Op := [.rlock, .runlock]

/-- `Peers` reads under the lock. -/
def peersOps : List Op := [.rlock, .runlock]

def Call.ops : Call → List Op
  | .shards => shardsOps
  | .peers => peersOps
  | .leaderAddress => shardsOps
  | .status => .rlock :: (shardsOps ++ peersOps ++ [.runlock])
  | .healthStatus => .rlock :: (shardsOps ++ [.runlock])
  | .write => [.lock, .unlock]
  | .addPeer => [.lock, .unlock]
  | .removePeer => [.lock, .unlock]
  -- once for the rebalancer's stop channel, and once for the shards
  | .close => [.lock, .unlock, .lock, .unlock]

def Call.Probes (c : Call) : Prop := c = .status ∨ c = .healthStatus

def Call.Writes (c : Call) : Prop :=
  c = .write ∨ c = .addPeer ∨ c = .removePeer ∨ c = .close

instance (c : Call) : Decidable c.Probes :=
  inferInstanceAs (Decidable (c = .status ∨ c = .healthStatus))

instance (c : Call) : Decidable c.Writes :=
  inferInstanceAs (Decidable (c = .write ∨ c = .addPeer ∨ c = .removePeer ∨ c = .close))

def start (calls : List Call) : Mutex := { threads := calls.map (fun c => { rest := c.ops }) }

variable {c : Call}

theorem nests_ops (h : ¬ c.Probes) : nests 0 c.ops = false := by
  cases c <;> first | rfl | exact absurd (by decide) h

theorem not_mem_lock_ops (h : ¬ c.Writes) : Op.lock ∉ c.ops := by
  cases c <;> first | decide | exact absurd (by decide) h

theorem ops_of_probes (h : c.Probes) : ∃ rest, c.ops = .rlock :: .rlock :: rest := by
  rcases h with rfl | rfl <;> exact ⟨_, rfl⟩

theorem ops_of_writes (h : c.Writes) : ∃ rest, c.ops = .lock :: rest := by
  rcases h with rfl | rfl | rfl | rfl <;> exact ⟨_, rfl⟩

/-- **The deadlock.** The probe takes its first read lock, the writer comes, the probe asks for the
second one; from there on neither ever goes on. -/
theorem probe_stuck {calls : List Call} {i k : ℕ} {p w : Call} (hp : calls[i]? = some p)
    (hw : calls[k]? = some w) (hprobes : p.Probes) (hwrites : w.Writes) (acts : List ℕ) :
    Stuck (((start calls).run [i, k, i]).run acts) i k := by
  have hne : i ≠ k := by
    rintro rfl
    have hpw : p = w := Option.some.inj (hp.symm.trans hw)
    rcases hprobes with rfl | rfl <;> exact absurd (hpw ▸ hwrites) (by decide)
  obtain ⟨rest, hops⟩ := ops_of_probes hprobes
  obtain ⟨rest', hops'⟩ := ops_of_writes hwrites
  have hi : (start calls).threads[i]? = some ⟨.rlock :: .rlock :: rest, 0, false⟩ := by
    simp [start, hp, hops]
  have hk : (start calls).threads[k]? = some ⟨.lock :: rest', 0, false⟩ := by
    simp [start, hw, hops']
  exact (stuck_of_nested hne rfl hi hk).run acts

/-! ### The condition -/

/-- **Probes and writers.** No run of the calls leads to a probe that holds the lock and waits for
it again behind a writer, if and only if there is no probe among the calls or no writer. -/
theorem probes_safe_iff (calls : List Call) :
    (∀ acts : List ℕ, ¬ ((start calls).run acts).Recursive) ↔
      (∀ c ∈ calls, ¬ c.Probes) ∨ (∀ c ∈ calls, ¬ c.Writes) := by
  constructor
  · intro hsafe
    by_contra hboth
    push Not at hboth
    obtain ⟨⟨p, hp, hprobes⟩, w, hw, hwrites⟩ := hboth
    obtain ⟨i, hi⟩ := List.mem_iff_getElem?.1 hp
    obtain ⟨k, hk⟩ := List.mem_iff_getElem?.1 hw
    exact hsafe [i, k, i] (probe_stuck hi hk hprobes hwrites []).recursive
  · intro hcalls acts
    refine not_recursive (hcalls.imp (fun h t ht => ?_) (fun h t ht => ?_)) acts
    all_goals obtain ⟨c, hc, rfl⟩ := List.mem_map.1 ht
    · exact nests_ops (h c hc)
    · exact not_mem_lock_ops (h c hc)

/-- One status probe and one write are enough. -/
theorem status_write_deadlock : ((start [.status, .write]).run [0, 1, 0]).Recursive := by decide

end LsmTree.ShardedLock
