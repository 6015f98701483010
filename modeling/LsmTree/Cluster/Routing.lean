import Mathlib.Algebra.Group.Nat.Defs
import LsmTree.Sstable.Format

/-!
# Slots and routing plans (`internal/cluster/routing.go`)

A key is hashed to a slot, and the routing plan says which shard owns the slot and, while the slot
is being moved, which shard it is moved to.  The plan is kept as JSON under a reserved key; its
version and time stamp, which nothing reads, are left out here.
-/

namespace LsmTree

variable {shardCount : ℕ}

/-- The 32-bit FNV-1a hash (`hash/fnv`). -/
def fnv32a (key : Bytes) : UInt32 :=
  key.foldl (fun h b => (h ^^^ b.toUInt32) * 16777619) 2166136261

def defaultRoutingSlots : ℤ := 256

/-- `routingReservedPrefix`, the text "__lsm_cluster__/". -/
def routingReservedPrefix : Bytes :=
  [95, 95, 108, 115, 109, 95, 99, 108, 117, 115, 116, 101, 114, 95, 95, 47]

def isReservedClusterKey (key : Bytes) : Bool :=
  decide (0 < key.length) && (decide (routingReservedPrefix.length ≤ key.length) &&
    decide (key.take routingReservedPrefix.length = routingReservedPrefix))

structure RoutingSlot where
  owner : ℤ := 0
  migrating : Bool := false
  target : ℤ := 0
  deriving DecidableEq, Repr

structure RoutingPlan where
  slotCount : ℤ
  shardCount : ℤ
  slots : List RoutingSlot
  deriving DecidableEq, Repr

/-- The plan of a new cluster: the slots are dealt out in turn. -/
def newRoutingPlan (shardCount slotCount : ℤ) : RoutingPlan :=
  let shardCount := if shardCount ≤ 0 then 1 else shardCount
  let slotCount := if slotCount ≤ 0 then defaultRoutingSlots else slotCount
  { slotCount := slotCount
    shardCount := shardCount
    slots := (List.range slotCount.toNat).map
      (fun slot : ℕ => { owner := (slot : ℤ) % shardCount }) }

def RoutingPlan.load (p : RoutingPlan) : Option RoutingPlan :=
  if p.slotCount ≤ 0 then none
  else if (p.slots.length : ℤ) ≠ p.slotCount then none
  else some p

/-- Repair one slot: owner and target have to be shards. -/
def RoutingSlot.normalize (shardCount : ℤ) (i : ℕ) (s : RoutingSlot) : RoutingSlot :=
  let owner := if s.owner < 0 ∨ shardCount ≤ s.owner then (i : ℤ) % shardCount else s.owner
  { s with
    owner := owner
    target := if s.target < 0 ∨ shardCount ≤ s.target then owner else s.target }

def RoutingPlan.normalize (shardCount : ℤ) (p : RoutingPlan) : RoutingPlan :=
  if shardCount ≤ 0 then p
  else
    let slotCount := if p.slotCount ≤ 0 then defaultRoutingSlots else p.slotCount
    let slots :=
      if (p.slots.length : ℤ) ≠ slotCount then
        p.slots.take slotCount.toNat ++ List.replicate (slotCount.toNat - p.slots.length)
          ({} : RoutingSlot)
      else p.slots
    { slotCount := slotCount
      shardCount := shardCount
      slots := slots.mapIdx (RoutingSlot.normalize shardCount) }

/-- The slot of a key; the slot count is cut to 32 bits. -/
def RoutingPlan.slotForKey (p : RoutingPlan) (key : Bytes) : ℕ :=
  if p.slotCount ≤ 0 then 0 else (fnv32a key).toNat % (p.slotCount.toNat % 2 ^ 32)

/-- Owner and target of a key's slot, and whether it is being moved. -/
def RoutingPlan.routeForKey (p : RoutingPlan) (key : Bytes) : ℤ × ℤ × Bool :=
  match p.slots[p.slotForKey key]? with
  | none => (0, 0, false)
  | some a =>
    let shardCount := if 0 < p.shardCount then p.shardCount else 1
    let owner := if a.owner < 0 then 0 else a.owner
    let owner := if shardCount ≤ owner then owner % shardCount else owner
    if a.migrating then
      let target := if a.target < 0 then owner else a.target
      let target := if shardCount ≤ target then target % shardCount else target
      (owner, target, true)
    else (owner, owner, false)

def RoutingPlan.ownerForSlot (p : RoutingPlan) (slot : ℕ) : ℤ × ℤ × Bool :=
  match p.slots[slot]? with
  | none => (0, 0, false)
  | some a => if a.migrating then (a.owner, a.target, true) else (a.owner, a.owner, false)

def RoutingPlan.setSlot (p : RoutingPlan) (slot : ℕ) (a : RoutingSlot) : RoutingPlan :=
  { p with slots := p.slots.set slot a }

/-! ### Plans fitted to the shards -/

/-- Every slot there is has an owner and a target among the shards. -/
structure RoutingPlan.Fits (p : RoutingPlan) (shardCount : ℕ) : Prop where
  slotCount_pos : 0 < p.slotCount
  length : (p.slots.length : ℤ) = p.slotCount
  shardCount_eq : p.shardCount = shardCount
  owner : ∀ a ∈ p.slots, 0 ≤ a.owner ∧ a.owner < shardCount
  target : ∀ a ∈ p.slots, 0 ≤ a.target ∧ a.target < shardCount

theorem RoutingSlot.normalize_of_range {shardCount : ℤ} {s : RoutingSlot}
    (ho : 0 ≤ s.owner ∧ s.owner < shardCount) (ht : 0 ≤ s.target ∧ s.target < shardCount) (i : ℕ) :
    s.normalize shardCount i = s := by
  unfold RoutingSlot.normalize
  rw [if_neg (by omega)]
  dsimp only
  rw [if_neg (by omega)]

theorem RoutingSlot.normalize_range {shardCount : ℤ} (h : 0 < shardCount) (i : ℕ)
    (s : RoutingSlot) : (0 ≤ (s.normalize shardCount i).owner ∧
      (s.normalize shardCount i).owner < shardCount) ∧
    0 ≤ (s.normalize shardCount i).target ∧ (s.normalize shardCount i).target < shardCount := by
  have hmod := Int.emod_nonneg (i : ℤ) h.ne'
  have hlt := Int.emod_lt_of_pos (i : ℤ) h
  unfold RoutingSlot.normalize
  refine ⟨?_, ?_⟩ <;> dsimp only <;> split_ifs <;> omega

variable {p : RoutingPlan}

/-- **A loaded plan fits.** -/
theorem RoutingPlan.fits_normalize (h : 0 < shardCount) :
    (p.normalize shardCount).Fits shardCount := by
  have hpos : (0 : ℤ) < shardCount := by omega
  have hmem : ∀ a ∈ (p.normalize shardCount).slots,
      ∃ i s, a = RoutingSlot.normalize shardCount i s := by
    intro a ha
    unfold RoutingPlan.normalize at ha
    rw [if_neg (not_le.2 hpos)] at ha
    obtain ⟨i, hi, rfl⟩ := List.mem_mapIdx.1 ha
    exact ⟨i, _, rfl⟩
  refine ⟨?_, ?_, ?_, fun a ha => ?_, fun a ha => ?_⟩
  · unfold RoutingPlan.normalize
    rw [if_neg (not_le.2 hpos)]
    dsimp only
    split_ifs with hc
    · decide
    · omega
  · unfold RoutingPlan.normalize
    rw [if_neg (not_le.2 hpos)]
    dsimp only
    rw [List.length_mapIdx]
    have hslots : 0 < (if p.slotCount ≤ 0 then defaultRoutingSlots else p.slotCount) := by
      split_ifs with hc
      · decide
      · omega
    generalize (if p.slotCount ≤ 0 then defaultRoutingSlots else p.slotCount) = c at *
    by_cases hlen : (p.slots.length : ℤ) ≠ c
    · rw [if_pos hlen, List.length_append, List.length_take, List.length_replicate]
      omega
    · rw [if_neg hlen]
      omega
  · unfold RoutingPlan.normalize
    rw [if_neg (not_le.2 hpos)]
  · obtain ⟨i, s, rfl⟩ := hmem a ha
    exact (RoutingSlot.normalize_range hpos i s).1
  · obtain ⟨i, s, rfl⟩ := hmem a ha
    exact (RoutingSlot.normalize_range hpos i s).2

theorem newRoutingPlan_fits {slotCount : ℤ} (h : 0 < shardCount) (hs : 0 < slotCount) :
    (newRoutingPlan shardCount slotCount).Fits shardCount := by
  have hpos : (0 : ℤ) < shardCount := by omega
  unfold newRoutingPlan
  rw [if_neg (not_le.2 hpos), if_neg (not_le.2 hs)]
  refine ⟨hs, ?_, rfl, fun a ha => ?_, fun a ha => ?_⟩
  · dsimp only
    rw [List.length_map, List.length_range]
    omega
  · obtain ⟨i, -, rfl⟩ := List.mem_map.1 ha
    exact ⟨Int.emod_nonneg _ hpos.ne', Int.emod_lt_of_pos _ hpos⟩
  · obtain ⟨i, -, rfl⟩ := List.mem_map.1 ha
    exact ⟨le_rfl, hpos⟩

theorem RoutingPlan.Fits.exists_slot (h : p.Fits shardCount) (key : Bytes) :
    ∃ a, p.slots[p.slotForKey key]? = some a := by
  have hlt : p.slotForKey key < p.slots.length := by
    have hlen := h.length
    have hpos := h.slotCount_pos
    have hhash : (fnv32a key).toNat < 2 ^ 32 := (fnv32a key).toNat_lt
    unfold RoutingPlan.slotForKey
    rw [if_neg (not_le.2 hpos)]
    by_cases hz : p.slotCount.toNat % 2 ^ 32 = 0
    · rw [hz, Nat.mod_zero]
      omega
    · have := Nat.mod_lt (fnv32a key).toNat (Nat.pos_of_ne_zero hz)
      omega
  exact ⟨_, List.getElem?_eq_getElem hlt⟩

theorem RoutingPlan.Fits.normalize_eq (h : p.Fits shardCount) (hpos : 0 < shardCount) :
    p.normalize shardCount = p := by
  have hslots : p.slots.mapIdx (RoutingSlot.normalize shardCount) = p.slots := by
    refine List.ext_getElem? (fun i => ?_)
    rw [List.getElem?_mapIdx]
    cases hs : p.slots[i]? with
    | none => rfl
    | some a =>
      have ha := List.mem_of_getElem? hs
      rw [Option.map_some, RoutingSlot.normalize_of_range (h.owner a ha) (h.target a ha)]
  unfold RoutingPlan.normalize
  rw [if_neg (by omega), if_neg (not_le.2 h.slotCount_pos)]
  dsimp only
  rw [if_neg (not_not.2 h.length), hslots, ← h.shardCount_eq]

theorem RoutingPlan.Fits.load_eq (h : p.Fits shardCount) : p.load = some p := by
  unfold RoutingPlan.load
  rw [if_neg (not_le.2 h.slotCount_pos), if_neg (not_not.2 h.length)]

variable {a : RoutingSlot}

theorem RoutingPlan.Fits.routeForKey_eq (h : p.Fits shardCount) {key : Bytes}
    (ha : p.slots[p.slotForKey key]? = some a) :
    p.routeForKey key = (a.owner, if a.migrating then a.target else a.owner, a.migrating) := by
  have hmem := List.mem_of_getElem? ha
  have ho := h.owner a hmem
  have ht := h.target a hmem
  have hc := h.shardCount_eq
  unfold RoutingPlan.routeForKey
  rw [ha]
  dsimp only
  rw [if_pos (by omega : 0 < p.shardCount), if_neg (not_lt.2 ho.1),
    if_neg (by omega : ¬ p.shardCount ≤ a.owner)]
  cases a.migrating with
  | true =>
    rw [if_pos rfl, if_neg (not_lt.2 ht.1), if_neg (by omega : ¬ p.shardCount ≤ a.target)]
    rfl
  | false => rfl

theorem RoutingPlan.Fits.setSlot (h : p.Fits shardCount) (ho : 0 ≤ a.owner ∧ a.owner < shardCount)
    (ht : 0 ≤ a.target ∧ a.target < shardCount) (slot : ℕ) :
    (p.setSlot slot a).Fits shardCount := by
  refine ⟨h.slotCount_pos, ?_, h.shardCount_eq, fun b hb => ?_, fun b hb => ?_⟩
  · change ((p.slots.set slot a).length : ℤ) = p.slotCount
    rw [List.length_set, h.length]
  · rcases List.mem_or_eq_of_mem_set hb with hb | rfl
    · exact h.owner b hb
    · exact ho
  · rcases List.mem_or_eq_of_mem_set hb with hb | rfl
    · exact h.target b hb
    · exact ht

end LsmTree
