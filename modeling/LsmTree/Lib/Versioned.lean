import Mathlib.Data.Set.Lattice
import Mathlib.Data.List.Forall2
import Mathlib.Tactic.Common

/-!
# Versioned keys and layered lookups

A store that never updates in place keeps several *versions* of a key, each stamped with a sequence
number and carrying a value or a tombstone.  What the store means for a key is the payload of its
newest version.  Such stores answer a lookup by walking through *layers*, stopping at the first
layer that has any version of the key at all; this is right exactly when each layer's newest
version is at least as new as everything in the layers below.

* `IsNewest`, `Shows`, `Represents`: the meaning of a set of versions;
* `Agrees`: a stamp determines its version;
* `Dominates`, `Ordered`: the order between layers, on newest versions only;
* `Answers`, `firstHit`: a lookup in one layer, and the walk over all of them;
* `Compacts`: dropping superseded versions, and tombstones with nothing left under them;
* `Thins`, `MergeDown`, `MergesInto`: merging parts of a layer into the next one;
* `Represents.forget`, `Represents.drop`: versions that can go;
* `overlay`: newer versions laid over a map.
-/

namespace Versioned

/-- Versions of keys: the key, the stamp, and the payload (`none` is a tombstone). -/
class Stamped (E : Type*) (K : outParam (Type*)) (V : outParam (Type*)) where
  key : E → K
  seq : E → ℕ
  payload : E → Option V

open Stamped

variable {E K V : Type*} [Stamped E K V]

def Holds (S : Set E) (k : K) : Prop := ∃ e ∈ S, key e = k

/-- `e` is a newest version of `k` in `S`. -/
def IsNewest (S : Set E) (k : K) (e : E) : Prop :=
  e ∈ S ∧ key e = k ∧ ∀ e' ∈ S, key e' = k → seq e' ≤ seq e

/-- The meaning of `S` at `k`: the payload of a newest version, nothing if there is no version. -/
def Shows (S : Set E) (k : K) (r : Option V) : Prop :=
  (∃ e, IsNewest S k e ∧ payload e = r) ∨ (¬ Holds S k ∧ r = none)

/-- The set of versions means the map `m`. -/
def Represents (S : Set E) (m : K → Option V) : Prop := ∀ k, Shows S k (m k)

def Agrees (S : Set E) : Prop :=
  ∀ e ∈ S, ∀ e' ∈ S, key e = key e' → seq e = seq e' → e = e'

/-- For every key that `A` holds, `A` has a version at least as new as all of `B`'s. -/
def Dominates (A B : Set E) : Prop :=
  ∀ b ∈ B, Holds A (key b) → ∃ a ∈ A, key a = key b ∧ seq b ≤ seq a

/-- Layers, newest first, each dominating all later ones. -/
def Ordered (L : List (Set E)) : Prop := L.Pairwise Dominates

def union (L : List (Set E)) : Set E := {e | ∃ A ∈ L, e ∈ A}

variable {S : Set E} {k : K} {e : E}

theorem IsNewest.holds (h : IsNewest S k e) : Holds S k :=
  ⟨e, h.1, h.2.1⟩

variable {T : Set E}

theorem Agrees.mono (h : Agrees T) (hs : S ⊆ T) : Agrees S :=
  fun e he e' he' => h e (hs he) e' (hs he')

theorem Holds.mono (h : Holds S k) (hs : S ⊆ T) : Holds T k := by
  obtain ⟨e, he, hk⟩ := h
  exact ⟨e, hs he, hk⟩

theorem IsNewest.unique {e' : E} (hS : Agrees S) (h : IsNewest S k e) (h' : IsNewest S k e') :
    e = e' :=
  hS e h.1 e' h'.1 (h.2.1.trans h'.2.1.symm)
    (le_antisymm (h'.2.2 e h.1 h.2.1) (h.2.2 e' h'.1 h'.2.1))

variable {r : Option V}

theorem Shows.unique {r' : Option V} (hS : Agrees S) (h : Shows S k r) (h' : Shows S k r') :
    r = r' := by
  rcases h with ⟨e, he, rfl⟩ | ⟨hn, rfl⟩ <;> rcases h' with ⟨e', he', rfl⟩ | ⟨hn', rfl⟩
  · rw [he.unique hS he']
  · exact absurd he.holds hn'
  · exact absurd he'.holds hn
  · rfl

theorem IsNewest.of_subset (h : IsNewest T k e) (hs : S ⊆ T) (he : e ∈ S) : IsNewest S k e :=
  ⟨he, h.2.1, fun e' he' => h.2.2 e' (hs he')⟩

/-! ### Domination -/

theorem Dominates.refl (A : Set E) : Dominates A A := fun b hb _ => ⟨b, hb, rfl, le_rfl⟩

variable {A B C : Set E}

theorem Dominates.mono_right (h : Dominates A B) (hC : C ⊆ B) : Dominates A C :=
  fun c hc => h c (hC hc)

theorem Dominates.empty_left (B : Set E) : Dominates (∅ : Set E) B := by
  rintro b - ⟨e, he, -⟩
  exact absurd he (Set.notMem_empty e)

theorem Dominates.empty_right (A : Set E) : Dominates A (∅ : Set E) :=
  fun b hb => absurd hb (Set.notMem_empty b)

theorem Dominates.union_left (hA : Dominates A C) (hB : Dominates B C) : Dominates (A ∪ B) C := by
  rintro c hc ⟨e, he | he, hk⟩
  · obtain ⟨a, ha, hka, hs⟩ := hA c hc ⟨e, he, hk⟩
    exact ⟨a, Or.inl ha, hka, hs⟩
  · obtain ⟨b, hb, hkb, hs⟩ := hB c hc ⟨e, he, hk⟩
    exact ⟨b, Or.inr hb, hkb, hs⟩

theorem Dominates.union_right (hB : Dominates A B) (hC : Dominates A C) : Dominates A (B ∪ C) := by
  rintro x (hx | hx)
  · exact hB x hx
  · exact hC x hx

variable {L : List (Set E)}

theorem Dominates.of_union (h : ∀ A ∈ L, Dominates A C) : Dominates (union L) C := by
  rintro c hc ⟨e, ⟨A, hA, he⟩, hk⟩
  obtain ⟨a, ha, hka, hs⟩ := h A hA c hc ⟨e, he, hk⟩
  exact ⟨a, ⟨A, hA, ha⟩, hka, hs⟩

theorem dominates_union (h : ∀ B ∈ L, Dominates A B) : Dominates A (union L) := by
  rintro b ⟨B, hB, hb⟩
  exact h B hB b hb

theorem Dominates.of_seq_le (h : ∀ a ∈ A, ∀ b ∈ B, seq b ≤ seq a) : Dominates A B := by
  rintro b hb ⟨a, ha, hk⟩
  exact ⟨a, ha, hk, h a ha b hb⟩

variable {U : List (Set E)}

theorem IsNewest.union_of_dominates (h : IsNewest A k e) (hd : Dominates A B) :
    IsNewest (A ∪ B) k e := by
  refine ⟨Or.inl h.1, h.2.1, ?_⟩
  rintro e' (he' | he') hk
  · exact h.2.2 e' he' hk
  · obtain ⟨a, ha, hka, hs⟩ := hd e' he' ⟨e, h.1, h.2.1.trans hk.symm⟩
    exact hs.trans (h.2.2 a ha (hka.trans hk))

theorem IsNewest.union_of_absent (h : IsNewest B k e) (hA : ¬ Holds A k) :
    IsNewest (A ∪ B) k e := by
  refine ⟨Or.inr h.1, h.2.1, ?_⟩
  rintro e' (he' | he') hk
  · exact absurd ⟨e', he', hk⟩ hA
  · exact h.2.2 e' he' hk

/-! ### Layers -/

@[simp] theorem union_nil : union ([] : List (Set E)) = ∅ := by
  ext e; simp [union]

@[simp] theorem union_cons (A : Set E) (L : List (Set E)) : union (A :: L) = A ∪ union L := by
  ext e; simp [union]

@[simp] theorem union_append (L M : List (Set E)) : union (L ++ M) = union L ∪ union M := by
  induction L with
  | nil => simp
  | cons A L ih => simp [ih, Set.union_assoc]

theorem Ordered.sublist {M : List (Set E)} (h : Ordered M) (hs : L.Sublist M) : Ordered L :=
  List.Pairwise.sublist hs h

theorem Ordered.dominates (h : Ordered (U ++ L)) : Dominates (union U) (union L) :=
  Dominates.of_union fun A hA =>
    dominates_union fun B hB => (List.pairwise_append.1 h).2.2 A hA B hB

/-- A lookup that answers for one set of versions: it misses exactly on absent keys, and a hit is
the payload of a newest version. -/
def Answers (get : K → Option (Option V)) (A : Set E) : Prop :=
  ∀ k, match get k with
    | none => ¬ Holds A k
    | some r => ∃ e, IsNewest A k e ∧ payload e = r

/-- The walk over layered lookups: the first one that has the key decides. -/
def firstHit (gets : List (K → Option (Option V))) (k : K) : Option (Option V) :=
  gets.findSome? (fun get => get k)

@[simp] theorem firstHit_nil (k : K) : firstHit ([] : List (K → Option (Option V))) k = none := rfl

theorem firstHit_cons (get : K → Option (Option V)) (gets : List (K → Option (Option V))) (k : K) :
    firstHit (get :: gets) k = (get k).orElse (fun _ => firstHit gets k) := by
  unfold firstHit
  rw [List.findSome?_cons]
  cases get k <;> rfl

variable {get : K → Option (Option V)}

theorem Answers.shows (h : Answers get A) (k : K) : Shows A k ((get k).getD none) := by
  have hk := h k
  cases hg : get k with
  | none => rw [hg] at hk; exact Or.inr ⟨hk, rfl⟩
  | some r => rw [hg] at hk; exact Or.inl hk

/-- **Walking ordered layers finds the newest version overall.** -/
theorem Answers.firstHit {gets : List (K → Option (Option V))} (h : List.Forall₂ Answers gets L)
    (hL : Ordered L) : Answers (Versioned.firstHit gets) (union L) := by
  induction h with
  | nil => intro k; simp [Holds]
  | @cons get A gets L hA _ ih =>
    have hd : Dominates A (union L) := dominates_union (List.pairwise_cons.1 hL).1
    have ih := ih (List.pairwise_cons.1 hL).2
    intro k
    have hAk := hA k
    have hLk := ih k
    rw [firstHit_cons, union_cons]
    cases hg : get k with
    | some r =>
      rw [hg] at hAk
      obtain ⟨e, he, hr⟩ := hAk
      exact ⟨e, he.union_of_dominates hd, hr⟩
    | none =>
      rw [hg] at hAk
      simp only [Option.orElse_none] at hLk ⊢
      cases hf : Versioned.firstHit gets k with
      | none =>
        rw [hf] at hLk
        rintro ⟨e, he | he, hk⟩
        · exact hAk ⟨e, he, hk⟩
        · exact hLk ⟨e, he, hk⟩
      | some r =>
        rw [hf] at hLk
        obtain ⟨e, he, hr⟩ := hLk
        exact ⟨e, he.union_of_absent hAk, hr⟩

variable {m : K → Option V}

theorem Answers.eq_of_represents (h : Answers get A) (hA : Agrees A) (hm : Represents A m) (k : K) :
    (get k).getD none = m k :=
  (h.shows k).unique hA (hm k)

/-! ### Compaction -/

/-- `T'` is `T` with superseded versions removed, and possibly tombstones of keys of which nothing
at all is left. -/
structure Compacts (T T' : Set E) : Prop where
  sub : T' ⊆ T
  keeps : ∀ k e, IsNewest T k e → e ∈ T' ∨ (payload e = none ∧ ¬ Holds T' k)

variable {T' : Set E}

theorem Represents.compact {U : Set E} (h : Represents (U ∪ T) m) (hd : Dominates U T)
    (ha : Agrees (U ∪ T)) (hc : Compacts T T') : Represents (U ∪ T') m := by
  have hsub : U ∪ T' ⊆ U ∪ T := Set.union_subset_union_right U hc.sub
  intro k
  rcases h k with ⟨e, he, hr⟩ | ⟨hn, hr⟩
  · by_cases heU : e ∈ U
    · exact Or.inl ⟨e, he.of_subset hsub (Or.inl heU), hr⟩
    · have heT : e ∈ T := he.1.resolve_left heU
      have hnew : IsNewest T k e := he.of_subset Set.subset_union_right heT
      rcases hc.keeps k e hnew with hin | ⟨hp, hgone⟩
      · exact Or.inl ⟨e, he.of_subset hsub (Or.inr hin), hr⟩
      · refine Or.inr ⟨?_, by rw [← hr, hp]⟩
        rintro ⟨x, hx | hx, hk⟩
        · -- an older version in `U` would be dominated by one with `e`'s own stamp
          obtain ⟨a, haU, hka, hs⟩ := hd e heT ⟨x, hx, hk.trans he.2.1.symm⟩
          have hle := he.2.2 a (Or.inl haU) (hka.trans he.2.1)
          have : a = e := ha a (Or.inl haU) e he.1 hka (le_antisymm hle hs)
          exact heU (this ▸ haU)
        · exact hgone ⟨x, hx, hk⟩
  · exact Or.inr ⟨fun hh => hn (hh.mono hsub), hr⟩

theorem Compacts.under {U : Set E} (h : Compacts T T') (hd : Dominates U T) (ha : Agrees (U ∪ T)) :
    Compacts (U ∪ T) (U ∪ T') := by
  refine ⟨Set.union_subset_union_right U h.sub, fun k e he => ?_⟩
  by_cases heU : e ∈ U
  · exact Or.inl (Or.inl heU)
  · have heT : e ∈ T := he.1.resolve_left heU
    rcases h.keeps k e (he.of_subset Set.subset_union_right heT) with hin | ⟨hp, hgone⟩
    · exact Or.inl (Or.inr hin)
    · refine Or.inr ⟨hp, ?_⟩
      rintro ⟨x, hx | hx, hk⟩
      · obtain ⟨a, haU, hka, hs⟩ := hd e heT ⟨x, hx, hk.trans he.2.1.symm⟩
        have hle := he.2.2 a (Or.inl haU) (hka.trans he.2.1)
        have : a = e := ha a (Or.inl haU) e he.1 hka (le_antisymm hle hs)
        exact heU (this ▸ haU)
      · exact hgone ⟨x, hx, hk⟩

/-! ### Merging a layer into the next -/

/-- Of the key `k`, `O` has just newest versions of `S`, all of them unless they are tombstones. -/
structure Thins (S O : Set E) (k : K) : Prop where
  newest : ∀ x ∈ O, key x = k → IsNewest S k x
  keeps : ∀ e, IsNewest S k e → e ∈ O ∨ (payload e = none ∧ ¬ Holds O k)

/-- The part `I` of a layer `A` and the part `J` of the next layer `B` are replaced by `O`, which
goes into the lower layer.  Both parts are whole, key by key; where the newest version is dropped,
no layer of `D` below holds the key. -/
structure MergeDown (A B I J O : Set E) (D : List (Set E)) : Prop where
  subA : I ⊆ A
  subB : J ⊆ B
  wholeA : ∀ x ∈ I, ∀ y ∈ A, key y = key x → y ∈ I
  wholeB : ∀ x ∈ I ∪ J, ∀ y ∈ B, key y = key x → y ∈ J
  thins : ∀ k, Thins (I ∪ J) O k
  drops : ∀ k, Holds (I ∪ J) k → ¬ Holds O k → ∀ C ∈ D, ¬ Holds C k

/-- The same without a word on what is kept: whatever goes into the lower layer is a newest version
of the parts. -/
structure MergesInto (A B I J O : Set E) : Prop where
  subA : I ⊆ A
  subB : J ⊆ B
  wholeA : ∀ x ∈ I, ∀ y ∈ A, key y = key x → y ∈ I
  wholeB : ∀ x ∈ I ∪ J, ∀ y ∈ B, key y = key x → y ∈ J
  newest : ∀ x ∈ O, IsNewest (I ∪ J) (key x) x

section MergeDown

variable {A B I J O : Set E} {D : List (Set E)}

theorem MergesInto.out_sub (h : MergesInto A B I J O) : O ⊆ I ∪ J :=
  fun x hx => (h.newest x hx).1

variable {C : Set E}

theorem MergesInto.dominates_rest (h : MergesInto A B I J O) (hd : Dominates A C) :
    Dominates (A \ I) C := by
  rintro c hc ⟨x, ⟨hxA, hxI⟩, hxk⟩
  obtain ⟨a, ha, hak, hs⟩ := hd c hc ⟨x, hxA, hxk⟩
  refine ⟨a, ⟨ha, fun haI => hxI ?_⟩, hak, hs⟩
  exact h.wholeA a haI x hxA (hxk.trans hak.symm)

theorem MergesInto.dominates_lower (h : MergesInto A B I J O) (hAB : Dominates A B) :
    Dominates (A \ I) ((B \ J) ∪ O) := by
  rintro b (hb | hb) hx
  · exact h.dominates_rest hAB b hb.1 hx
  · rcases h.out_sub hb with hbI | hbJ
    · obtain ⟨x, ⟨hxA, hxI⟩, hxk⟩ := hx
      exact absurd (h.wholeA b hbI x hxA hxk) hxI
    · exact h.dominates_rest hAB b (h.subB hbJ) hx

theorem MergesInto.dominates_below (h : MergesInto A B I J O) (hA : Dominates A C)
    (hB : Dominates B C) : Dominates ((B \ J) ∪ O) C := by
  rintro c hc ⟨x, hx | hx, hxk⟩
  · obtain ⟨b, hb, hbk, hs⟩ := hB c hc ⟨x, hx.1, hxk⟩
    refine ⟨b, Or.inl ⟨hb, fun hbJ => hx.2 ?_⟩, hbk, hs⟩
    exact h.wholeB b (Or.inr hbJ) x hx.1 (hxk.trans hbk.symm)
  · have hnew := h.newest x hx
    refine ⟨x, Or.inr hx, hxk, ?_⟩
    rcases hnew.1 with hxI | hxJ
    · obtain ⟨a, ha, hak, hs⟩ := hA c hc ⟨x, h.subA hxI, hxk⟩
      have hak : key a = key x := hak.trans hxk.symm
      exact hs.trans (hnew.2.2 a (Or.inl (h.wholeA x hxI a ha hak)) hak)
    · obtain ⟨b, hb, hbk, hs⟩ := hB c hc ⟨x, h.subB hxJ, hxk⟩
      have hbk : key b = key x := hbk.trans hxk.symm
      exact hs.trans (hnew.2.2 b (Or.inr (h.wholeB x (Or.inr hxJ) b hb hbk)) hbk)

theorem MergesInto.ordered (h : MergesInto A B I J O) {U : List (Set E)}
    (ho : Ordered (U ++ A :: B :: D)) : Ordered (U ++ (A \ I) :: ((B \ J) ∪ O) :: D) := by
  obtain ⟨hU, hABD, hUABD⟩ := List.pairwise_append.1 ho
  obtain ⟨hA, hBD⟩ := List.pairwise_cons.1 hABD
  obtain ⟨hB, hD⟩ := List.pairwise_cons.1 hBD
  have hAB : Dominates A B := hA B List.mem_cons_self
  refine List.pairwise_append.2 ⟨hU, List.pairwise_cons.2 ⟨?_, List.pairwise_cons.2 ⟨?_, hD⟩⟩, ?_⟩
  · intro C hC
    rcases List.mem_cons.1 hC with rfl | hC
    · exact h.dominates_lower hAB
    · exact h.dominates_rest (hA C (List.mem_cons_of_mem B hC))
  · exact fun C hC => h.dominates_below (hA C (List.mem_cons_of_mem B hC)) (hB C hC)
  · intro X hX C hC
    have hXA : Dominates X A := hUABD X hX A List.mem_cons_self
    have hXB : Dominates X B := hUABD X hX B (List.mem_cons_of_mem A List.mem_cons_self)
    rcases List.mem_cons.1 hC with rfl | hC
    · exact hXA.mono_right Set.sdiff_subset
    · rcases List.mem_cons.1 hC with rfl | hC
      · refine (hXB.mono_right Set.sdiff_subset).union_right ?_
        exact (hXA.union_right hXB).mono_right
          (h.out_sub.trans (Set.union_subset_union h.subA h.subB))
      · exact hUABD X hX C (List.mem_cons_of_mem A (List.mem_cons_of_mem B hC))

theorem MergeDown.mergesInto (h : MergeDown A B I J O D) : MergesInto A B I J O :=
  ⟨h.subA, h.subB, h.wholeA, h.wholeB, fun x hx => (h.thins (key x)).newest x hx rfl⟩

theorem MergeDown.compacts (h : MergeDown A B I J O D) (hAB : Dominates A B)
    (ha : Agrees (union (A :: B :: D))) :
    Compacts (union (A :: B :: D)) (union ((A \ I) :: ((B \ J) ∪ O) :: D)) := by
  simp only [union_cons] at ha ⊢
  constructor
  · rintro x (hx | (hx | hx) | hx)
    · exact Or.inl hx.1
    · exact Or.inr (Or.inl hx.1)
    · rcases h.mergesInto.out_sub hx with hx | hx
      · exact Or.inl (h.subA hx)
      · exact Or.inr (Or.inl (h.subB hx))
    · exact Or.inr (Or.inr hx)
  · intro k e he
    by_cases heA : e ∈ A \ I
    · exact Or.inl (Or.inl heA)
    by_cases heIJ : e ∈ I ∪ J
    · have hIJ : I ∪ J ⊆ A ∪ (B ∪ union D) := Set.union_subset
        (h.subA.trans Set.subset_union_left)
        (h.subB.trans (Set.subset_union_left.trans Set.subset_union_right))
      rcases (h.thins k).keeps e (he.of_subset hIJ heIJ) with heO | ⟨hp, hgone⟩
      · exact Or.inl (Or.inr (Or.inl (Or.inr heO)))
      · refine Or.inr ⟨hp, ?_⟩
        rintro ⟨x, hx | (hx | hx) | hx, hxk⟩
        · -- an older version left in the upper layer would be dominated by `e` itself
          have heI : e ∈ I := by
            rcases heIJ with heI | heJ
            · exact heI
            · obtain ⟨a, haA, hak, hs⟩ := hAB e (h.subB heJ) ⟨x, hx.1, hxk.trans he.2.1.symm⟩
              have hle := he.2.2 a (Or.inl haA) (hak.trans he.2.1)
              have hae : a = e := ha a (Or.inl haA) e he.1 hak (le_antisymm hle hs)
              by_contra heI
              exact heA ⟨hae ▸ haA, heI⟩
          exact hx.2 (h.wholeA e heI x hx.1 (hxk.trans he.2.1.symm))
        · exact hx.2 (h.wholeB e heIJ x hx.1 (hxk.trans he.2.1.symm))
        · exact hgone ⟨x, hx, hxk⟩
        · obtain ⟨C, hC, hxC⟩ := hx
          exact h.drops k ⟨e, heIJ, he.2.1⟩ hgone C hC ⟨x, hxC, hxk⟩
    · rcases he.1 with heA' | heB | heD
      · exact absurd ⟨heA', fun hc => heIJ (Or.inl hc)⟩ heA
      · exact Or.inl (Or.inr (Or.inl (Or.inl ⟨heB, fun hc => heIJ (Or.inr hc)⟩)))
      · exact Or.inl (Or.inr (Or.inr heD))

end MergeDown

theorem Ordered.collapse {D : List (Set E)} (h : Ordered (U ++ L ++ D)) :
    Ordered (U ++ union L :: D) := by
  rw [List.append_assoc] at h
  obtain ⟨hU, hLD, hULD⟩ := List.pairwise_append.1 h
  obtain ⟨-, hD, hLD⟩ := List.pairwise_append.1 hLD
  refine List.pairwise_append.2 ⟨hU, List.pairwise_cons.2 ⟨fun C hC => ?_, hD⟩, ?_⟩
  · exact Dominates.of_union (fun A hA => hLD A hA C hC)
  · intro X hX C hC
    rcases List.mem_cons.1 hC with rfl | hC
    · exact dominates_union (fun A hA => hULD X hX A (List.mem_append_left D hA))
    · exact hULD X hX C (List.mem_append_right L hC)

/-! ### Forgetting versions -/

variable {W W' : Set E}

theorem Represents.forget {M : Set E} (h : Represents (W ∪ T) m) (hM : Represents (M ∪ T) m)
    (hsub : W' ⊆ W) (hMW : M ⊆ W') (hold : ∀ w ∈ W \ W', ∀ x ∈ W', key x = key w → seq w < seq x) :
    Represents (W' ∪ T) m := by
  intro k
  rcases h k with ⟨f, hf, hr⟩ | ⟨hn, hr⟩
  · by_cases hfW : f ∈ W' ∪ T
    · exact Or.inl ⟨f, hf.of_subset (Set.union_subset_union_left T hsub) hfW, hr⟩
    · -- the newest version goes, so nothing of the key is left in the layer
      rw [Set.mem_union, not_or] at hfW
      have hgone : ¬ Holds W' k := by
        rintro ⟨x, hx, hk⟩
        have hlt := hold f ⟨hf.1.resolve_right hfW.2, hfW.1⟩ x hx (hk.trans hf.2.1.symm)
        exact absurd (hf.2.2 x (Or.inl (hsub hx)) hk) (not_le.2 hlt)
      rcases hM k with ⟨g, hg, hr'⟩ | ⟨hn, hr'⟩
      · have hgT : g ∈ T := hg.1.resolve_left (fun hc => hgone ⟨g, hMW hc, hg.2.1⟩)
        refine Or.inl ⟨g, ⟨Or.inr hgT, hg.2.1, ?_⟩, hr'⟩
        rintro x (hx | hx) hk
        · exact absurd ⟨x, hx, hk⟩ hgone
        · exact hg.2.2 x (Or.inr hx) hk
      · refine Or.inr ⟨?_, hr'⟩
        rintro ⟨x, hx | hx, hk⟩
        · exact hgone ⟨x, hx, hk⟩
        · exact hn ⟨x, Or.inr hx, hk⟩
  · exact Or.inr ⟨fun hc => hn (hc.mono (Set.union_subset_union_left T hsub)), hr⟩

theorem Dominates.forget (h : Dominates W T) (hsub : W' ⊆ W)
    (hold : ∀ w ∈ W \ W', ∀ x ∈ W', key x = key w → seq w < seq x) : Dominates W' T := by
  rintro b hb ⟨x, hx, hxk⟩
  obtain ⟨w, hw, hwk, hs⟩ := h b hb ⟨x, hsub hx, hxk⟩
  by_cases hw' : w ∈ W'
  · exact ⟨w, hw', hwk, hs⟩
  · exact ⟨x, hx, hxk, hs.trans (hold w ⟨hw, hw'⟩ x hx (hxk.trans hwk.symm)).le⟩

theorem Represents.drop {U R : Set E} (h : Represents (U ∪ (S ∪ R)) m) (ha : Agrees (U ∪ (S ∪ R)))
    (hd : Dominates U S) (hheld : ∀ x ∈ S, Holds U (key x)) : Represents (U ∪ R) m := by
  have hsub : U ∪ R ⊆ U ∪ (S ∪ R) := Set.union_subset_union_right U Set.subset_union_right
  intro k
  rcases h k with ⟨f, hf, hr⟩ | ⟨hn, hr⟩
  · refine Or.inl ⟨f, hf.of_subset hsub ?_, hr⟩
    rcases hf.1 with hU | hS | hR
    · exact Or.inl hU
    · obtain ⟨a, haU, hak, hs⟩ := hd f hS (hheld f hS)
      have hle := hf.2.2 a (Or.inl haU) (hak.trans hf.2.1)
      have : a = f := ha a (Or.inl haU) f hf.1 hak (le_antisymm hle hs)
      exact Or.inl (this ▸ haU)
    · exact Or.inr hR
  · exact Or.inr ⟨fun hc => hn (hc.mono hsub), hr⟩

/-! ### Newer versions over a map -/

variable {es : List E}

theorem Agrees.newer (h : Agrees S) (hes : es.Pairwise (fun a b => seq a < seq b))
    (hS : ∀ x ∈ S, ∀ e ∈ es, seq x < seq e) : Agrees (S ∪ {e | e ∈ es}) := by
  rintro a (ha | ha) b (hb | hb) hk hs
  · exact h a ha b hb hk hs
  · exact absurd hs (hS a ha b hb).ne
  · exact absurd hs (hS b hb a ha).ne'
  · induction hes with
    | nil => cases ha
    | @cons e es hlt _ ih =>
      rcases List.mem_cons.1 ha with rfl | ha' <;> rcases List.mem_cons.1 hb with rfl | hb'
      · rfl
      · exact absurd hs (hlt b hb').ne
      · exact absurd hs (hlt a ha').ne'
      · exact ih (fun x hx e he => hS x hx e (List.mem_cons_of_mem _ he)) ha' hb'

variable [DecidableEq K]

/-- Lay the versions of a list over a map, in order. -/
def overlay (es : List E) (m : K → Option V) : K → Option V :=
  es.foldl (fun m e => Function.update m (key e) (payload e)) m

@[simp] theorem overlay_nil (m : K → Option V) : overlay ([] : List E) m = m := rfl

@[simp] theorem overlay_cons (e : E) (es : List E) (m : K → Option V) :
    overlay (e :: es) m = overlay es (Function.update m (key e) (payload e)) := rfl

theorem Represents.newer (h : Represents S m) (he : ∀ x ∈ S, seq x ≤ seq e) :
    Represents (insert e S) (Function.update m (key e) (payload e)) := by
  intro k
  by_cases hk : k = key e
  · subst hk
    rw [Function.update_self]
    refine Or.inl ⟨e, ⟨Set.mem_insert e S, rfl, ?_⟩, rfl⟩
    rintro x (rfl | hx) -
    · exact le_rfl
    · exact he x hx
  · rw [Function.update_of_ne hk]
    rcases h k with ⟨x, hx, hr⟩ | ⟨hn, hr⟩
    · refine Or.inl ⟨x, ⟨Set.mem_insert_of_mem e hx.1, hx.2.1, ?_⟩, hr⟩
      rintro y (rfl | hy) hy'
      · exact absurd hy'.symm hk
      · exact hx.2.2 y hy hy'
    · refine Or.inr ⟨?_, hr⟩
      rintro ⟨y, rfl | hy, hy'⟩
      · exact hk hy'.symm
      · exact hn ⟨y, hy, hy'⟩

theorem Represents.overlay (h : Represents S m) (hes : es.Pairwise (fun a b => seq a ≤ seq b))
    (hS : ∀ x ∈ S, ∀ e ∈ es, seq x ≤ seq e) :
    Represents (S ∪ {e | e ∈ es}) (Versioned.overlay es m) := by
  induction es generalizing S m with
  | nil => simpa using h
  | cons e es ih =>
    have h1 := h.newer (fun x hx => hS x hx e List.mem_cons_self)
    obtain ⟨hle, hes⟩ := List.pairwise_cons.1 hes
    have h2 := ih h1 hes (by
      rintro x (rfl | hx) y hy
      · exact hle y hy
      · exact hS x hx y (List.mem_cons_of_mem e hy))
    have hset : insert e S ∪ {x | x ∈ es} = S ∪ {x | x ∈ e :: es} := by
      ext x; simp only [Set.mem_union, Set.mem_insert_iff, Set.mem_ofPred_eq, List.mem_cons]; tauto
    rw [hset] at h2
    exact h2

end Versioned
