import Mathlib.Data.List.Perm.Basic
import Mathlib.Data.List.Range
import Mathlib.Data.List.TakeWhile
import Mathlib.Tactic.Common

/-!
# Skip lists

A skip list has its nodes in several linked lists.  Each node is in those of the levels below its
height, so the list of a level is a part of the one below it.  A search goes along the list of the
highest level as long as the nodes are before what it looks for, and from there on along the next.

`Rep s chain height` says that the list of each level is the part of `chain` that is high enough.
For a property that holds of a first part of the nodes and of no other, a search ends between the
two (`Rep.find_eq`), and an insertion acts as one into a sorted list, however high the new node is
(`Rep.insert`).
-/

namespace SkipLists

variable {α : Type*}

/-- The nodes by their numbers, and on each level the pointer of a node to the next one.  `none` is
the head as the node that a pointer belongs to, and `nil` as the pointer. -/
structure State (α : Type*) where
  items : List α := []
  forward : ℕ → Option ℕ → Option ℕ := fun _ _ => none
  level : ℕ := 1

section

variable (s : State α) (before : α → Bool)

def State.isBefore (j : ℕ) : Bool := s.items[j]?.any before

/-- Go along a level while the next node is before. -/
def State.advance (i : ℕ) : ℕ → Option ℕ → Option ℕ
  | 0, x => x
  | fuel + 1, x =>
    match s.forward i x with
    | none => x
    | some j => if s.isBefore before j then advance i fuel (some j) else x

/-- Go along the levels below `n`, the highest first: where the search ends, and where it ended on
each level. -/
def State.descend : ℕ → Option ℕ → Option ℕ × (ℕ → Option ℕ)
  | 0, x => (x, fun _ => none)
  | i + 1, x =>
    let y := s.advance before i s.items.length x
    ((descend i y).1, fun k => if k = i then y else (descend i y).2 k)

def State.find : Option ℕ := s.forward 0 (s.descend before s.level none).1

/-- The pointers after a new node is put behind the nodes of `update` on the levels below
`newLevel`. -/
def State.link (update : ℕ → Option ℕ) (newLevel i : ℕ) (y : Option ℕ) : Option ℕ :=
  if i < newLevel then
    if y = some s.items.length then s.forward i (update i)
    else if y = update i then some s.items.length
    else s.forward i y
  else s.forward i y

/-- Put the item behind the nodes that are before it, or overwrite the next one if it is the same.
The new node is in `newLevel` lists. -/
def State.insert (same : α → Bool) (overwrite : α → α) (a : α) (newLevel : ℕ) : State α :=
  match (s.find before).filter (s.isBefore same) with
  | some j => { s with items := s.items.modify j overwrite }
  | none =>
    { items := s.items ++ [a]
      forward := s.link (s.descend before s.level none).2 newLevel
      level := max s.level newLevel }

def State.walk : ℕ → Option ℕ → List ℕ
  | 0, _ => []
  | fuel + 1, x =>
    match s.forward 0 x with
    | none => []
    | some j => j :: walk fuel (some j)

def State.toList : List α := (s.walk s.items.length none).filterMap (s.items[·]?)

end

def insertSorted (before same : α → Bool) (overwrite : α → α) (a : α) : List α → List α
  | [] => [a]
  | x :: xs =>
    if before x then x :: insertSorted before same overwrite a xs
    else if same x then overwrite x :: xs
    else a :: x :: xs

theorem insertSorted_append {before same : α → Bool} {overwrite : α → α} {a : α} {l l' : List α}
    (h : ∀ x ∈ l, before x = true) : insertSorted before same overwrite a (l ++ l') =
      l ++ insertSorted before same overwrite a l' := by
  induction l with
  | nil => rfl
  | cons x xs ih =>
    obtain ⟨hx, hxs⟩ := List.forall_mem_cons.1 h
    rw [List.cons_append, insertSorted, if_pos hx, ih hxs, List.cons_append]

/-! ## Linked lists -/

/-- The pointers lead from `x` through the nodes of the list, and end. -/
def Linked (f : Option ℕ → Option ℕ) : Option ℕ → List ℕ → Prop
  | x, [] => f x = none
  | x, j :: l => f x = some j ∧ Linked f (some j) l

/-- The last node of the list, or the one before it. -/
def lastOf (x : Option ℕ) (l : List ℕ) : Option ℕ := l.foldl (fun _ j => some j) x

theorem lastOf_append (x : Option ℕ) (l l' : List ℕ) :
    lastOf x (l ++ l') = lastOf (lastOf x l) l' :=
  List.foldl_append

theorem lastOf_cases (x : Option ℕ) (l : List ℕ) :
    lastOf x l = x ∨ ∃ j ∈ l, lastOf x l = some j := by
  rcases l.eq_nil_or_concat' with rfl | ⟨l, j, rfl⟩
  · exact .inl rfl
  · exact .inr ⟨j, by simp, lastOf_append x l [j]⟩

section

variable {f g : Option ℕ → Option ℕ} {x : Option ℕ} {l l' : List ℕ}

theorem Linked.head (h : Linked f x l) : f x = l.head? := by
  cases l with
  | nil => exact h
  | cons j l => exact h.1

theorem Linked.append (h : Linked f x (l ++ l')) : Linked f (lastOf x l) l' := by
  induction l generalizing x with
  | nil => exact h
  | cons j l ih => exact ih h.2

theorem Linked.congr (h : Linked f x l) (hx : g x = f x)
    (hl : ∀ j ∈ l, g (some j) = f (some j)) : Linked g x l := by
  induction l generalizing x with
  | nil => exact hx.trans h
  | cons j l ih =>
    obtain ⟨hj, hl⟩ := List.forall_mem_cons.1 hl
    exact ⟨hx.trans h.1, ih h.2 hj hl⟩

theorem Linked.insert {new : ℕ} (h : Linked f x (l ++ l')) (hnodup : (l ++ l').Nodup)
    (hnew : new ∉ l ++ l') (hx : x ≠ some new) (hmem : ∀ j ∈ l ++ l', x ≠ some j) :
    Linked (fun y => if y = some new then f (lastOf x l)
      else if y = lastOf x l then some new else f y) x (l ++ new :: l') := by
  induction l generalizing x with
  | nil =>
    refine ⟨by simp [hx, lastOf], ?_⟩
    cases l' with
    | nil => simpa [Linked, lastOf] using h
    | cons j l' =>
      -- the other pointers stay as they are
      have hsame : ∀ k ∈ j :: l', (if some k = some new then f (lastOf x [])
          else if some k = lastOf x [] then some new else f (some k)) = f (some k) := by
        intro k hk
        have hk' : k ≠ new := fun heq => hnew (heq ▸ hk)
        simp [hk', lastOf, (hmem k hk).symm]
      exact ⟨by simpa [lastOf] using h.1, h.2.congr (hsame j List.mem_cons_self) fun k hk =>
        hsame k (List.mem_cons_of_mem j hk)⟩
  | cons j l ih =>
    have hj : j ≠ new := fun heq => hnew (by simp [heq])
    have hlast : x ≠ lastOf (some j) l := by
      rcases lastOf_cases (some j) l with heq | ⟨k, hk, heq⟩
      · rw [heq]
        exact hmem j (by simp)
      · rw [heq]
        exact hmem k (by simp [hk])
    obtain ⟨hnot, hnodup⟩ := List.nodup_cons.1 hnodup
    refine ⟨?_, ih h.2 hnodup (fun hmem => hnew (List.mem_cons_of_mem j hmem)) (by simpa using hj)
      fun k hk heq => hnot (Option.some.inj heq ▸ hk)⟩
    have hstep : f x = some j := h.1
    change (if x = some new then f (lastOf (some j) l)
      else if x = lastOf (some j) l then some new else f x) = some j
    rw [if_neg hx, if_neg hlast, hstep]

end

/-! ## Searching -/

/-- The list of each level is the part of the chain that is higher than it. -/
structure Rep (s : State α) (chain : List ℕ) (height : ℕ → ℕ) : Prop where
  perm : chain.Perm (List.range s.items.length)
  height_pos : ∀ j ∈ chain, 0 < height j
  height_le : ∀ j ∈ chain, height j ≤ s.level
  level_pos : 0 < s.level
  linked : ∀ i, Linked (s.forward i) none (chain.filter (i < height ·))

theorem rep_empty (α : Type*) : Rep ({} : State α) [] fun _ => 0 where
  perm := .nil
  height_pos := fun _ hj => absurd hj List.not_mem_nil
  height_le := fun _ hj => absurd hj List.not_mem_nil
  level_pos := Nat.one_pos
  linked := fun _ => rfl

section

variable {s : State α} {before same : α → Bool} {overwrite : α → α} {a : α} {newLevel i : ℕ}
  {x : Option ℕ} {l l' pre post chain : List ℕ} {height : ℕ → ℕ}

variable {fuel : ℕ}

theorem Rep.length_chain (h : Rep s chain height) : chain.length = s.items.length := by
  rw [h.perm.length_eq, List.length_range]

theorem Rep.nodup (h : Rep s chain height) : chain.Nodup := h.perm.nodup_iff.2 List.nodup_range

theorem Rep.mem_chain (h : Rep s chain height) {j : ℕ} : j ∈ chain ↔ j < s.items.length := by
  rw [h.perm.mem_iff, List.mem_range]

theorem Rep.filter_zero (h : Rep s chain height) (hl : l ⊆ chain) :
    l.filter (0 < height ·) = l :=
  List.filter_eq_self.2 fun j hj => decide_eq_true (h.height_pos j (hl hj))

theorem advance_eq (h : Linked (s.forward i) x (l ++ l')) (hl : ∀ j ∈ l, s.isBefore before j = true)
    (hl' : ∀ j ∈ l', s.isBefore before j = false) (hfuel : l.length ≤ fuel) :
    s.advance before i fuel x = lastOf x l := by
  induction l generalizing x fuel with
  | nil =>
    cases fuel with
    | zero => rfl
    | succ fuel =>
      rw [State.advance, h.head]
      cases l' with
      | nil => rfl
      | cons j l' => simp [hl' j List.mem_cons_self, lastOf]
  | cons j l ih =>
    obtain ⟨fuel, rfl⟩ : ∃ n, fuel = n + 1 := ⟨fuel - 1, by simp at hfuel; omega⟩
    obtain ⟨hj, hl⟩ := List.forall_mem_cons.1 hl
    have hstep : s.forward i x = some j := h.1
    rw [State.advance, hstep]
    simp only [hj, if_true]
    exact ih h.2 hl (by simpa using hfuel)

theorem descend_of_le {n k : ℕ} (hle : n ≤ k) : (s.descend before n x).2 k = none := by
  induction n generalizing x with
  | zero => rfl
  | succ n ih =>
    simp only [State.descend]
    rw [if_neg (by omega)]
    exact ih (by omega)

section

variable (h : Rep s (pre ++ post) height) (hpre : ∀ j ∈ pre, s.isBefore before j = true)
  (hpost : ∀ j ∈ post, s.isBefore before j = false)

include h hpre hpost

theorem Rep.advance (hx : x = none ∨ ∃ j ∈ pre, x = some j ∧ i < height j) :
    s.advance before i s.items.length x = lastOf none (pre.filter (i < height ·)) := by
  obtain ⟨l, l', hsplit, hlast⟩ : ∃ l l', pre.filter (i < height ·) = l ++ l' ∧
      lastOf none l = x := by
    rcases hx with rfl | ⟨j, hj, rfl, hhigh⟩
    · exact ⟨[], _, rfl, rfl⟩
    · obtain ⟨l, l', hl⟩ := List.append_of_mem
        (List.mem_filter.2 ⟨hj, decide_eq_true hhigh⟩ : j ∈ pre.filter (i < height ·))
      exact ⟨l ++ [j], l', by rw [hl, List.append_assoc]; rfl, lastOf_append none l [j]⟩
  have hlinked := h.linked i
  rw [List.filter_append, hsplit, List.append_assoc] at hlinked
  have hrest := hlinked.append
  rw [hlast] at hrest
  have hlength : l'.length ≤ s.items.length := by
    have h1 := congrArg List.length hsplit
    have h2 := List.length_filter_le (i < height ·) pre
    have h3 := h.length_chain
    rw [List.length_append] at h1 h3
    omega
  rw [advance_eq hrest (fun j hj => ?_) (fun j hj => hpost j (List.mem_filter.1 hj).1) hlength,
    hsplit, lastOf_append, hlast]
  exact hpre j (List.mem_filter.1 (hsplit ▸ List.mem_append_right l hj)).1

theorem Rep.descend {n : ℕ} (hx : x = none ∨ ∃ j ∈ pre, x = some j ∧ n ≤ height j) :
    (∀ i < n, (s.descend before n x).2 i = lastOf none (pre.filter (i < height ·))) ∧
      (0 < n → (s.descend before n x).1 = lastOf none (pre.filter (0 < height ·))) := by
  induction n generalizing x with
  | zero => exact ⟨fun i hi => absurd hi (Nat.not_lt_zero i), fun h => absurd h (lt_irrefl 0)⟩
  | succ n ih =>
    have hend := Rep.advance h hpre hpost (i := n) hx
    have hnext : s.advance before n s.items.length x = none ∨
        ∃ j ∈ pre, s.advance before n s.items.length x = some j ∧ n ≤ height j := by
      rw [hend]
      refine (lastOf_cases _ _).imp_right fun hlast => ?_
      obtain ⟨j, hj, hlast⟩ := hlast
      obtain ⟨hmem, hhigh⟩ := List.mem_filter.1 hj
      exact ⟨j, hmem, hlast, (of_decide_eq_true hhigh).le⟩
    obtain ⟨hupdate, hfound⟩ := ih hnext
    refine ⟨fun i hi => ?_, fun _ => ?_⟩
    · simp only [State.descend]
      split_ifs with heq
      · rw [heq, hend]
      · exact hupdate i (by omega)
    · rcases Nat.eq_zero_or_pos n with rfl | hpos
      · exact hend
      · exact hfound hpos

/-- **A search ends between the nodes that are before and the others.** -/
theorem Rep.find_eq : s.find before = post.head? := by
  have hlinked := h.linked 0
  rw [h.filter_zero (List.Subset.refl _)] at hlinked
  rw [State.find, (Rep.descend h hpre hpost (.inl rfl)).2 h.level_pos,
    h.filter_zero (List.subset_append_left _ _), hlinked.append.head]

/-! ## Inserting -/

theorem Rep.update_eq (i : ℕ) :
    (s.descend before s.level none).2 i = lastOf none (pre.filter (i < height ·)) := by
  rcases Nat.lt_or_ge i s.level with hlt | hge
  · exact (Rep.descend h hpre hpost (.inl rfl)).1 i hlt
  · have hnil : pre.filter (i < height ·) = [] := by
      refine List.filter_eq_nil_iff.2 fun j hj => ?_
      have := h.height_le j (List.mem_append_left post hj)
      simp only [decide_eq_true_eq]
      omega
    rw [descend_of_le hge, hnil]
    rfl

theorem Rep.insert_new (hpos : 0 < newLevel) :
    Rep { items := s.items ++ [a]
          forward := s.link (s.descend before s.level none).2 newLevel
          level := max s.level newLevel } (pre ++ s.items.length :: post)
      (Function.update height s.items.length newLevel) := by
  have hne : ∀ j ∈ pre ++ post, j ≠ s.items.length := fun j hj => (h.mem_chain.1 hj).ne
  have hold : ∀ j ∈ pre ++ post, Function.update height s.items.length newLevel j = height j :=
    fun j hj => Function.update_of_ne (hne j hj) ..
  have hsplit : ∀ j ∈ pre ++ s.items.length :: post, j = s.items.length ∨ j ∈ pre ++ post := by
    intro j hj
    simpa [or_left_comm] using hj
  have hfilter : ∀ i, ∀ l ⊆ pre ++ post,
      l.filter (i < Function.update height s.items.length newLevel ·) =
        l.filter (i < height ·) := fun i l hl =>
    List.filter_congr fun j hj => by rw [hold j (hl hj)]
  refine ⟨?_, fun j hj => ?_, fun j hj => ?_, h.level_pos.trans_le (le_max_left _ _), fun i => ?_⟩
  · rw [List.length_append, List.length_singleton, List.range_succ]
    exact List.perm_middle.trans ((h.perm.cons _).trans (List.perm_append_singleton _ _).symm)
  · rcases hsplit j hj with rfl | hj
    · rwa [Function.update_self]
    · rw [hold j hj]
      exact h.height_pos j hj
  · rcases hsplit j hj with rfl | hj
    · rw [Function.update_self]
      exact le_max_right _ _
    · rw [hold j hj]
      exact (h.height_le j hj).trans (le_max_left _ _)
  · have hlinked := h.linked i
    rw [List.filter_append] at hlinked
    change Linked (s.link (s.descend before s.level none).2 newLevel i) none _
    rw [List.filter_append, List.filter_cons, Function.update_self,
      hfilter i pre (List.subset_append_left _ _), hfilter i post (List.subset_append_right _ _)]
    by_cases hi : i < newLevel
    · have hlink : s.link (s.descend before s.level none).2 newLevel i = fun y =>
          if y = some s.items.length then s.forward i (lastOf none (pre.filter (i < height ·)))
          else if y = lastOf none (pre.filter (i < height ·)) then some s.items.length
          else s.forward i y := by
        funext y
        rw [State.link, if_pos hi, Rep.update_eq h hpre hpost i]
      have hnodup := h.nodup.filter (i < height ·)
      rw [List.filter_append] at hnodup
      rw [hlink, if_pos (decide_eq_true hi)]
      refine hlinked.insert hnodup (fun hmem => ?_) (Option.some_ne_none _).symm fun j _ =>
        (Option.some_ne_none j).symm
      rw [← List.filter_append] at hmem
      exact hne _ (List.mem_of_mem_filter hmem) rfl
    · have hlink : s.link (s.descend before s.level none).2 newLevel i = s.forward i := by
        funext y
        rw [State.link, if_neg hi]
      rw [hlink, if_neg (by simpa using hi)]
      exact hlinked

end

theorem walk_eq (h : Linked (s.forward 0) x l) (hfuel : l.length ≤ fuel) : s.walk fuel x = l := by
  induction l generalizing x fuel with
  | nil =>
    cases fuel with
    | zero => rfl
    | succ fuel => rw [State.walk, h.head]; rfl
  | cons j l ih =>
    obtain ⟨fuel, rfl⟩ : ∃ n, fuel = n + 1 := ⟨fuel - 1, by simp at hfuel; omega⟩
    have hstep : s.forward 0 x = some j := h.1
    rw [State.walk, hstep]
    exact congrArg _ (ih h.2 (by simpa using hfuel))

theorem Rep.toList_eq (h : Rep s chain height) : s.toList = chain.filterMap (s.items[·]?) := by
  have hlinked := h.linked 0
  rw [h.filter_zero (List.Subset.refl _)] at hlinked
  rw [State.toList, walk_eq hlinked h.length_chain.le]

theorem before_of_mem {b : α} (hl : ∀ j ∈ l, s.isBefore before j = true)
    (hb : b ∈ l.filterMap (s.items[·]?)) : before b = true := by
  obtain ⟨j, hj, hget⟩ := List.mem_filterMap.1 hb
  have := hl j hj
  rwa [State.isBefore, hget] at this

theorem exists_split {p : ℕ → Bool} (h : l.Pairwise fun i j => p j = true → p i = true) :
    ∃ pre post, l = pre ++ post ∧ (∀ j ∈ pre, p j = true) ∧ ∀ j ∈ post, p j = false := by
  induction l with
  | nil => exact ⟨[], [], rfl, by simp, by simp⟩
  | cons i l ih =>
    obtain ⟨hi, hl⟩ := List.pairwise_cons.1 h
    by_cases hp : p i = true
    · obtain ⟨pre, post, rfl, hpre, hpost⟩ := ih hl
      exact ⟨i :: pre, post, rfl, List.forall_mem_cons.2 ⟨hp, hpre⟩, hpost⟩
    · refine ⟨[], i :: l, rfl, by simp, List.forall_mem_cons.2 ⟨Bool.eq_false_iff.2 hp, ?_⟩⟩
      exact fun j hj => Bool.eq_false_iff.2 fun hpj => hp (hi j hj hpj)

theorem Rep.split (h : Rep s chain height)
    (hmono : s.toList.Pairwise fun a b => before b = true → before a = true) :
    ∃ pre post, chain = pre ++ post ∧ (∀ j ∈ pre, s.isBefore before j = true) ∧
      ∀ j ∈ post, s.isBefore before j = false := by
  rw [h.toList_eq, List.pairwise_filterMap] at hmono
  refine exists_split (hmono.imp_of_mem fun {i j} hi hj hij hbefore => ?_)
  have hgi := List.getElem?_eq_getElem (h.mem_chain.1 hi)
  have hgj := List.getElem?_eq_getElem (h.mem_chain.1 hj)
  rw [State.isBefore, hgj] at hbefore
  rw [State.isBefore, hgi]
  exact hij _ hgi _ hgj hbefore

theorem Rep.find_item (h : Rep s chain height)
    (hmono : s.toList.Pairwise fun a b => before b = true → before a = true) :
    (s.find before).bind (s.items[·]?) = s.toList.find? fun a => !before a := by
  obtain ⟨pre, post, rfl, hpre, hpost⟩ := h.split hmono
  rw [Rep.find_eq h hpre hpost, h.toList_eq, List.filterMap_append, List.find?_append,
    List.find?_eq_none.2 fun b hb => by simp [before_of_mem hpre hb], Option.none_or]
  cases post with
  | nil => rfl
  | cons j rest =>
    have hget := List.getElem?_eq_getElem (h.mem_chain.1 (show j ∈ pre ++ j :: rest by simp))
    have hj := hpost j List.mem_cons_self
    rw [State.isBefore, hget] at hj
    rw [List.filterMap_cons_some hget, List.find?_cons_of_pos (by simpa using hj)]
    exact hget

/-- **An insertion acts as one into a sorted list.** -/
theorem Rep.insert (h : Rep s chain height)
    (hmono : s.toList.Pairwise fun a b => before b = true → before a = true)
    (hpos : 0 < newLevel) : ∃ chain' height',
      Rep (s.insert before same overwrite a newLevel) chain' height' ∧
      (s.insert before same overwrite a newLevel).toList =
        insertSorted before same overwrite a s.toList := by
  obtain ⟨pre, post, rfl, hpre, hpost⟩ := h.split hmono
  have hfind := Rep.find_eq h hpre hpost
  have hsorted : insertSorted before same overwrite a s.toList = pre.filterMap (s.items[·]?) ++
      insertSorted before same overwrite a (post.filterMap (s.items[·]?)) := by
    rw [h.toList_eq, List.filterMap_append, insertSorted_append fun b => before_of_mem hpre]
  rw [hsorted, State.insert, hfind]
  cases hsame : post.head?.filter (s.isBefore same) with
  | some j =>
    obtain ⟨hhead, hj⟩ := Option.filter_eq_some_iff.1 hsame
    obtain ⟨rest, rfl⟩ : ∃ rest, post = j :: rest := ⟨post.tail, (List.cons_head?_tail hhead).symm⟩
    have hget := List.getElem?_eq_getElem (h.mem_chain.1 (show j ∈ pre ++ j :: rest by simp))
    have hafter := hpost j List.mem_cons_self
    rw [State.isBefore, hget] at hj hafter
    have hrep : Rep { s with items := s.items.modify j overwrite } (pre ++ j :: rest) height :=
      ⟨by rw [List.length_modify]; exact h.perm, h.height_pos, h.height_le, h.level_pos, h.linked⟩
    -- the other nodes are not overwritten
    have hother : ∀ l ⊆ pre ++ rest, l.filterMap ((s.items.modify j overwrite)[·]?) =
        l.filterMap (s.items[·]?) := fun l hl => List.filterMap_congr fun k hk => by
      have hne : j ≠ k := by
        rintro rfl
        exact (List.nodup_cons.1 (List.perm_middle.nodup_iff.1 h.nodup)).1 (hl hk)
      simp [hne]
    refine ⟨_, _, hrep, ?_⟩
    rw [hrep.toList_eq, List.filterMap_append, List.filterMap_cons_some hget, insertSorted,
      if_neg (by simpa using hafter), if_pos (by simpa using hj),
      hother pre (List.subset_append_left _ _)]
    simp [hget, hother rest (List.subset_append_right _ _)]
  | none =>
    have hrep := Rep.insert_new (a := a) h hpre hpost hpos
    have hother : ∀ l ⊆ pre ++ post, l.filterMap ((s.items ++ [a])[·]?) =
        l.filterMap (s.items[·]?) := fun l hl => List.filterMap_congr fun k hk => by
      rw [List.getElem?_append_left (h.mem_chain.1 (hl hk))]
    refine ⟨_, _, hrep, ?_⟩
    rw [hrep.toList_eq, List.filterMap_append,
      List.filterMap_cons_some (show (s.items ++ [a])[s.items.length]? = some a by simp),
      hother pre (List.subset_append_left _ _), hother post (List.subset_append_right _ _)]
    congr 1
    cases post with
    | nil => rfl
    | cons j rest =>
      have hget := List.getElem?_eq_getElem (h.mem_chain.1 (show j ∈ pre ++ j :: rest by simp))
      have hafter := hpost j List.mem_cons_self
      have hnot : s.isBefore same j = false := by simpa using hsame
      rw [State.isBefore, hget] at hafter hnot
      rw [List.filterMap_cons_some hget, insertSorted, if_neg (by simpa using hafter),
        if_neg (by simpa using hnot)]

end

end SkipLists
