import Mathlib.Data.List.AList
import Mathlib.Data.List.Induction
import Mathlib.Tactic.Common

/-!
# Key-value maps under lists of updates

An update sets a key to a value or removes it.  A list of updates is carried out in order, so that
for each key its last update counts (`applyAll_eq`).  Hence one can start over from an earlier point
(`applyAll_again`), and a list that restores every key it mentions undoes whatever was done to these
keys (`applyAll_restore`).

`Store` is a map with finitely many keys, whose contents can be listed.
-/

namespace KeyValue

variable {K V : Type} [DecidableEq K]

def applyAll (us : List (K × Option V)) (m : K → Option V) : K → Option V :=
  us.foldl (fun m u => Function.update m u.1 u.2) m

def lastOf (us : List (K × Option V)) (k : K) : Option (Option V) :=
  (us.reverse.find? (fun u => u.1 = k)).map Prod.snd

@[simp] theorem applyAll_nil (m : K → Option V) : applyAll [] m = m := rfl

@[simp] theorem applyAll_cons (u : K × Option V) (us : List (K × Option V)) (m : K → Option V) :
    applyAll (u :: us) m = applyAll us (Function.update m u.1 u.2) := rfl

theorem applyAll_append (us vs : List (K × Option V)) (m : K → Option V) :
    applyAll (us ++ vs) m = applyAll vs (applyAll us m) := List.foldl_append

theorem lastOf_append_singleton (us : List (K × Option V)) (u : K × Option V) (k : K) :
    lastOf (us ++ [u]) k = if u.1 = k then some u.2 else lastOf us k := by
  unfold lastOf
  rw [List.reverse_append, List.reverse_singleton, List.singleton_append]
  by_cases hk : u.1 = k
  · rw [List.find?_cons_of_pos (by simpa using hk), if_pos hk, Option.map_some]
  · rw [List.find?_cons_of_neg (by simpa using hk), if_neg hk]

/-- **The last update of a key counts**; a key without one keeps its value. -/
theorem applyAll_eq (us : List (K × Option V)) (m : K → Option V) (k : K) :
    applyAll us m k = (lastOf us k).getD (m k) := by
  induction us using List.reverseRecOn with
  | nil => rfl
  | append_singleton us u ih =>
    rw [applyAll_append, applyAll_cons, applyAll_nil, lastOf_append_singleton]
    by_cases hk : u.1 = k
    · subst hk
      simp
    · rw [Function.update_of_ne (Ne.symm hk), ih, if_neg hk]

variable {us : List (K × Option V)} {k : K}

theorem lastOf_eq_none : lastOf us k = none ↔ k ∉ us.map Prod.fst := by
  unfold lastOf
  rw [Option.map_eq_none_iff, List.find?_eq_none, List.mem_map]
  constructor
  · rintro h ⟨u, hu, hk⟩
    exact absurd (decide_eq_true hk) (h u (List.mem_reverse.2 hu))
  · exact fun h u hu hk => h ⟨u, List.mem_reverse.1 hu, of_decide_eq_true hk⟩

theorem lastOf_mem {r : Option V} (h : lastOf us k = some r) : (k, r) ∈ us := by
  unfold lastOf at h
  obtain ⟨u, hu, rfl⟩ := Option.map_eq_some_iff.1 h
  have hk : u.1 = k := by simpa using List.find?_some hu
  have hmem := List.mem_reverse.1 (List.mem_of_find?_eq_some hu)
  rw [← hk]
  exact hmem

theorem applyAll_of_not_mem (h : k ∉ us.map Prod.fst) (m : K → Option V) :
    applyAll us m k = m k := by
  rw [applyAll_eq, lastOf_eq_none.2 h, Option.getD_none]

theorem applyAll_of_mem (h : k ∈ us.map Prod.fst) (m m' : K → Option V) :
    applyAll us m k = applyAll us m' k := by
  rw [applyAll_eq, applyAll_eq]
  cases hl : lastOf us k with
  | none => exact absurd h (lastOf_eq_none.1 hl)
  | some r => rfl

variable {p : K × Option V → Bool}

theorem lastOf_filter (h : ∀ u ∈ us, u.1 = k → p u = true) :
    lastOf (us.filter p) k = lastOf us k := by
  induction us using List.reverseRecOn with
  | nil => rfl
  | append_singleton us u ih =>
    have ih := ih (fun w hw => h w (List.mem_append_left _ hw))
    rw [List.filter_append, lastOf_append_singleton]
    by_cases hk : u.1 = k
    · rw [List.filter_cons_of_pos (h u (by simp) hk), List.filter_nil, lastOf_append_singleton]
      rw [if_pos hk, if_pos hk]
    · rw [if_neg hk, ← ih]
      cases hp : p u with
      | true =>
        rw [List.filter_cons_of_pos hp, List.filter_nil, lastOf_append_singleton, if_neg hk]
      | false => rw [List.filter_cons_of_neg (by simp [hp]), List.filter_nil, List.append_nil]

theorem applyAll_filter (h : ∀ u ∈ us, u.1 = k → p u = true) (m : K → Option V) :
    applyAll (us.filter p) m k = applyAll us m k := by
  rw [applyAll_eq, applyAll_eq, lastOf_filter h]

variable {m : K → Option V}

theorem applyAll_values (h : ∀ u ∈ us, u.2 = m u.1) (hk : k ∈ us.map Prod.fst) (m' : K → Option V) :
    applyAll us m' k = m k := by
  rw [applyAll_eq]
  cases hl : lastOf us k with
  | none => exact absurd hk (lastOf_eq_none.1 hl)
  | some r => exact h (k, r) (lastOf_mem hl)

variable {m' : K → Option V}

/-- **Undoing.** Updates that give the keys `us` mentions their values in `m` take a map that
differs from `m` only in these keys back to `m`. -/
theorem applyAll_restore (h : ∀ u ∈ us, u.2 = m u.1) (hm : ∀ k, k ∉ us.map Prod.fst → m' k = m k) :
    applyAll us m' = m := by
  funext k
  by_cases hk : k ∈ us.map Prod.fst
  · exact applyAll_values h hk m'
  · rw [applyAll_of_not_mem hk, hm k hk]

/-- **Starting over.** A map that `ws` alone takes to where `us`, `vs` and `ws` lead from `m'` is
also taken there by `vs` and `ws`: of the keys of `vs` that `ws` leaves alone it has the values of
`vs` already. -/
theorem applyAll_again {vs ws : List (K × Option V)}
    (h : applyAll ws m = applyAll (us ++ vs ++ ws) m') :
    applyAll (vs ++ ws) m = applyAll (us ++ vs ++ ws) m' := by
  funext k
  have hk := congrFun h k
  rw [applyAll_append (us ++ vs) ws] at hk ⊢
  rw [applyAll_append vs ws]
  by_cases hw : k ∈ ws.map Prod.fst
  · exact applyAll_of_mem hw _ _
  · rw [applyAll_of_not_mem hw, applyAll_of_not_mem hw, applyAll_append us vs] at hk ⊢
    by_cases hv : k ∈ vs.map Prod.fst
    · exact applyAll_of_mem hv _ _
    · rw [applyAll_of_not_mem hv, hk]

/-! ### Finite maps -/

abbrev Store (K V : Type) := AList (fun _ : K => V)

def Store.set (s : Store K V) (u : K × Option V) : Store K V :=
  match u.2 with
  | some v => s.insert u.1 v
  | none => s.erase u.1

def Store.write (s : Store K V) (us : List (K × Option V)) : Store K V := us.foldl Store.set s

def Store.items (s : Store K V) : List (K × V) := s.entries.map (fun x => (x.1, x.2))

omit [DecidableEq K] in
theorem Store.map_fst_items (s : Store K V) : s.items.map Prod.fst = s.keys := by
  unfold Store.items
  rw [List.map_map]
  rfl

theorem Store.lookup_set (s : Store K V) (u : K × Option V) :
    (s.set u).lookup = Function.update (fun k => s.lookup k) u.1 u.2 := by
  obtain ⟨k, r⟩ := u
  funext j
  by_cases hj : j = k
  · subst hj
    cases r <;> simp [Store.set]
  · cases r <;> simp [Store.set, hj]

theorem Store.lookup_write (s : Store K V) (us : List (K × Option V)) :
    (fun k => (s.write us).lookup k) = applyAll us (fun k => s.lookup k) := by
  induction us generalizing s with
  | nil => rfl
  | cons u us ih =>
    rw [applyAll_cons, ← s.lookup_set u]
    exact ih (s.set u)

theorem Store.mem_items {s : Store K V} {v : V} : (k, v) ∈ s.items ↔ s.lookup k = some v := by
  have hiff : s.lookup k = some v ↔ Sigma.mk k v ∈ s.entries := AList.mem_lookup_iff
  unfold Store.items
  rw [hiff, List.mem_map]
  constructor
  · rintro ⟨⟨j, w⟩, hmem, heq⟩
    cases heq
    exact hmem
  · exact fun h => ⟨⟨k, v⟩, h, rfl⟩

end KeyValue
