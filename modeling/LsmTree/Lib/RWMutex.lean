import Mathlib.Tactic.Common

/-!
# A reader/writer lock on which a waiting writer blocks new readers

Threads run lists of lock operations on one lock.  A writer first announces itself, which keeps new
readers out, and gets the lock when the readers that are in have left; other writers wait for the
announced one.  When it unlocks, all readers that wait are let in.

* `Op`, `Thread`, `Mutex`, `Mutex.step`, `Mutex.run`: the lock, one step of one thread, any run;
* `forall_run`: what a thread's own operations keep, every run keeps;
* `nests`: a list of operations that locks for reading while it holds a read lock;
* `Mutex.Recursive`: such a thread waits behind a writer that waits for it; `not_recursive` says
  when no run gets there, `Stuck.run` that no run gets out.
-/

namespace RWMutex

inductive Op
  | rlock
  | runlock
  | lock
  | unlock
  deriving DecidableEq, Repr

/-- A thread: what it has still to do, the read locks it holds, and whether it waits in the first
of its operations. -/
structure Thread where
  rest : List Op
  holds : ℕ := 0
  blocked : Bool := false
  deriving DecidableEq, Repr

/-- The threads, and the writer that has announced itself or holds the lock. -/
structure Mutex where
  threads : List Thread
  writer : Option ℕ := none
  deriving DecidableEq, Repr

def Thread.Waits (t : Thread) (op : Op) : Prop := t.blocked = true ∧ t.rest.head? = some op

instance (t : Thread) (op : Op) : Decidable (t.Waits op) :=
  inferInstanceAs (Decidable (t.blocked = true ∧ t.rest.head? = some op))

def Thread.wake (t : Thread) : Thread :=
  if t.Waits .rlock then ⟨t.rest.tail, t.holds + 1, false⟩ else t

def Mutex.put (s : Mutex) (i : ℕ) (t : Thread) : Mutex := { s with threads := s.threads.set i t }

def Mutex.step (s : Mutex) (i : ℕ) : Mutex :=
  match s.threads[i]? with
  | none => s
  | some t =>
    match t.rest with
    | [] => s
    | .rlock :: rest =>
      -- a reader that waits is let in by the writer's `unlock`
      if t.blocked then s
      else if s.writer = none then s.put i ⟨rest, t.holds + 1, false⟩
      else s.put i ⟨t.rest, t.holds, true⟩
    | .runlock :: rest => s.put i ⟨rest, t.holds - 1, false⟩
    | .lock :: rest =>
      if s.writer = some i then
        if ∀ t ∈ s.threads, t.holds = 0 then s.put i ⟨rest, t.holds, false⟩ else s
      else if s.writer = none then { s.put i ⟨t.rest, t.holds, true⟩ with writer := some i }
      else s.put i ⟨t.rest, t.holds, true⟩
    | .unlock :: rest =>
      if s.writer = some i then
        ⟨(s.threads.set i ⟨rest, t.holds, false⟩).map Thread.wake, none⟩
      else s

def Mutex.run (s : Mutex) (acts : List ℕ) : Mutex := acts.foldl Mutex.step s

/-- A reader waits for a second read lock while a writer waits. -/
def Mutex.Recursive (s : Mutex) : Prop :=
  ∃ r ∈ s.threads, ∃ w ∈ s.threads, 0 < r.holds ∧ r.Waits .rlock ∧ w.Waits .lock

instance (s : Mutex) : Decidable s.Recursive :=
  inferInstanceAs (Decidable (∃ r ∈ s.threads, ∃ w ∈ s.threads,
    0 < r.holds ∧ r.Waits .rlock ∧ w.Waits .lock))

variable {P : ℕ → List Op → Prop} {s : Mutex} {t : Thread} {i k : ℕ}

/-! ### What a thread's own operations keep -/

/-- A condition on the read locks held and the operations left that every operation keeps. -/
structure Closed (P : ℕ → List Op → Prop) : Prop where
  rlock : ∀ {k rest}, P k (.rlock :: rest) → P (k + 1) rest
  runlock : ∀ {k rest}, P k (.runlock :: rest) → P (k - 1) rest
  lock : ∀ {k rest}, P k (.lock :: rest) → P k rest
  unlock : ∀ {k rest}, P k (.unlock :: rest) → P k rest

theorem Closed.wake (hP : Closed P) (h : P t.holds t.rest) : P t.wake.holds t.wake.rest := by
  unfold Thread.wake
  split_ifs with hwaits
  · obtain ⟨rest, holds, blocked⟩ := t
    cases rest with
    | nil => cases hwaits.2
    | cons op rest =>
      cases hwaits.2
      exact hP.rlock h
  · exact h

def Mutex.Forall (P : ℕ → List Op → Prop) (s : Mutex) : Prop := ∀ t ∈ s.threads, P t.holds t.rest

theorem Mutex.Forall.put (h : s.Forall P) (ht : P t.holds t.rest) : (s.put i t).Forall P := by
  intro u hu
  rcases List.mem_or_eq_of_mem_set hu with hu | rfl
  · exact h u hu
  · exact ht

theorem Mutex.Forall.step (hP : Closed P) (h : s.Forall P) (i : ℕ) : (s.step i).Forall P := by
  unfold Mutex.step
  cases hi : s.threads[i]? with
  | none => exact h
  | some t =>
    have ht := h t (List.mem_of_getElem? hi)
    obtain ⟨rest, holds, blocked⟩ := t
    cases rest with
    | nil => exact h
    | cons op rest =>
      cases op with
      | rlock =>
        simp only
        split_ifs
        · exact h
        · exact h.put (hP.rlock ht)
        · exact h.put ht
      | runlock => exact h.put (hP.runlock ht)
      | lock =>
        simp only
        split_ifs
        · exact h.put (hP.lock ht)
        · exact h
        · exact h.put ht
        · exact h.put ht
      | unlock =>
        simp only
        split_ifs
        · intro u hu
          obtain ⟨v, hv, rfl⟩ := List.mem_map.1 hu
          exact hP.wake (h.put (t := ⟨rest, holds, false⟩) (hP.unlock ht) v hv)
        · exact h

/-- **What a thread's own operations keep, every run keeps.** -/
theorem forall_run (hP : Closed P) (h : s.Forall P) (acts : List ℕ) : (s.run acts).Forall P := by
  induction acts generalizing s with
  | nil => exact h
  | cons i acts ih => exact ih (h.step hP i)

/-! ### Recursive read locks -/

/-- Whether operations, started with `k` read locks, lock for reading while they hold one. -/
def nests : ℕ → List Op → Bool
  | _, [] => false
  | k, .rlock :: rest => decide (0 < k) || nests (k + 1) rest
  | k, .runlock :: rest => nests (k - 1) rest
  | k, .lock :: rest => nests k rest
  | k, .unlock :: rest => nests k rest

theorem closed_nests : Closed (fun k rest => nests k rest = false) where
  rlock h := (Bool.or_eq_false_iff.1 h).2
  runlock h := h
  lock h := h
  unlock h := h

theorem closed_not_mem_lock : Closed (fun _ rest => Op.lock ∉ rest) where
  rlock h hc := h (List.mem_cons_of_mem _ hc)
  runlock h hc := h (List.mem_cons_of_mem _ hc)
  lock h hc := h (List.mem_cons_of_mem _ hc)
  unlock h hc := h (List.mem_cons_of_mem _ hc)

/-- **No recursion.** If no thread nests read locks, or no thread writes, no run leads to a reader
that waits behind a waiting writer. -/
theorem not_recursive (h : s.Forall (fun k rest => nests k rest = false) ∨
    s.Forall (fun _ rest => Op.lock ∉ rest)) (acts : List ℕ) : ¬ (s.run acts).Recursive := by
  rintro ⟨r, hr, w, hw, hholds, ⟨-, hread⟩, -, hwrite⟩
  rcases h with h | h
  · have hnests := forall_run closed_nests h acts r hr
    obtain ⟨rest, hrest⟩ := List.head?_eq_some_iff.1 hread
    rw [hrest, nests, decide_eq_true hholds] at hnests
    cases hnests
  · exact forall_run closed_not_mem_lock h acts w hw (List.mem_of_head? hwrite)

/-! ### The deadlock does not resolve -/

/-- Thread `i` waits for a second read lock, and the announced writer `k` has not got the lock. -/
structure Stuck (s : Mutex) (i k : ℕ) : Prop where
  reader : ∃ r, s.threads[i]? = some r ∧ 0 < r.holds ∧ r.Waits .rlock
  writer : ∃ w, s.threads[k]? = some w ∧ w.Waits .lock
  announced : s.writer = some k

theorem stuck_of_nested {rest rest' : List Op} {n n' : ℕ} (hne : i ≠ k) (hfree : s.writer = none)
    (hi : s.threads[i]? = some ⟨.rlock :: .rlock :: rest, n, false⟩)
    (hk : s.threads[k]? = some ⟨.lock :: rest', n', false⟩) : Stuck (s.run [i, k, i]) i k := by
  set s₁ := s.put i ⟨.rlock :: rest, n + 1, false⟩ with hs₁
  set s₂ : Mutex := { s₁.put k ⟨.lock :: rest', n', true⟩ with writer := some k } with hs₂
  have hilt : i < s.threads.length := (List.getElem?_eq_some_iff.1 hi).1
  have hklt : k < s.threads.length := (List.getElem?_eq_some_iff.1 hk).1
  have h1 : s.step i = s₁ := by
    simp only [Mutex.step, hi, if_pos hfree]
    rfl
  have h2 : s₁.step k = s₂ := by
    have hk₁ : s₁.threads[k]? = some ⟨.lock :: rest', n', false⟩ :=
      (List.getElem?_set_ne hne).trans hk
    have hfree₁ : s₁.writer = none := hfree
    have hnot : s₁.writer ≠ some k := fun hc => by
      rw [hfree₁] at hc
      cases hc
    simp only [Mutex.step, hk₁, if_neg hnot, if_pos hfree₁]
    rfl
  have hi₂ : s₂.threads[i]? = some ⟨.rlock :: rest, n + 1, false⟩ :=
    (List.getElem?_set_ne hne.symm).trans (List.getElem?_set_self hilt)
  have h3 : s₂.step i = s₂.put i ⟨.rlock :: rest, n + 1, true⟩ := by
    have hbusy : s₂.writer ≠ none := fun hc => by cases hc
    simp only [Mutex.step, hi₂, if_neg hbusy]
    rfl
  have hrun : s.run [i, k, i] = s₂.put i ⟨.rlock :: rest, n + 1, true⟩ := by
    change ((s.step i).step k).step i = _
    rw [h1, h2, h3]
  have hlen : s₂.threads.length = s.threads.length :=
    List.length_set.trans List.length_set
  rw [hrun]
  refine ⟨⟨_, List.getElem?_set_self (hlen.symm ▸ hilt), Nat.succ_pos n, rfl, rfl⟩,
    ⟨⟨.lock :: rest', n', true⟩, ?_, rfl, rfl⟩, rfl⟩
  exact (List.getElem?_set_ne hne).trans (List.getElem?_set_self (List.length_set.symm ▸ hklt))

theorem Stuck.recursive (h : Stuck s i k) : s.Recursive := by
  obtain ⟨r, hr, hholds, hread⟩ := h.reader
  obtain ⟨w, hw, hwrite⟩ := h.writer
  exact ⟨r, List.mem_of_getElem? hr, w, List.mem_of_getElem? hw, hholds, hread, hwrite⟩

theorem Stuck.put (h : Stuck s i k) {j : ℕ} (hi : j ≠ i) (hk : j ≠ k) (t : Thread) :
    Stuck (s.put j t) i k := by
  obtain ⟨r, hr, hholds, hwaits⟩ := h.reader
  obtain ⟨w, hw, hwrite⟩ := h.writer
  have hset : ∀ n, j ≠ n → (s.put j t).threads[n]? = s.threads[n]? := fun n hn =>
    List.getElem?_set_ne hn
  exact ⟨⟨r, (hset i hi).trans hr, hholds, hwaits⟩, ⟨w, (hset k hk).trans hw, hwrite⟩, h.announced⟩

theorem Stuck.step (h : Stuck s i k) (j : ℕ) : Stuck (s.step j) i k := by
  obtain ⟨r, hr, hholds, hblocked, hread⟩ := h.reader
  obtain ⟨w, hw, -, hwrite⟩ := h.writer
  unfold Mutex.step
  rcases eq_or_ne j i with rfl | hi
  · obtain ⟨rest, hrest⟩ := List.head?_eq_some_iff.1 hread
    simp only [hr, hrest, hblocked, if_true]
    exact h
  rcases eq_or_ne j k with rfl | hk
  · -- the writer does not get in: the reader holds its first lock
    obtain ⟨rest, hrest⟩ := List.head?_eq_some_iff.1 hwrite
    have hin : ¬ ∀ t ∈ s.threads, t.holds = 0 := fun hall =>
      Nat.ne_of_gt hholds (hall r (List.mem_of_getElem? hr))
    simp only [hw, hrest, if_pos h.announced, if_neg hin]
    exact h
  have hother : s.writer ≠ some j := fun hc => hk (Option.some.inj (hc.symm.trans h.announced))
  have hsome : s.writer ≠ none := fun hc => by
    rw [h.announced] at hc
    cases hc
  cases hj : s.threads[j]? with
  | none => exact h
  | some t =>
    obtain ⟨rest, holds, blocked⟩ := t
    cases rest with
    | nil => exact h
    | cons op rest =>
      cases op with
      | rlock =>
        simp only [if_neg hsome]
        split_ifs
        · exact h
        · exact h.put hi hk _
      | runlock => exact h.put hi hk _
      | lock =>
        simp only [if_neg hother, if_neg hsome]
        exact h.put hi hk _
      | unlock =>
        simp only [if_neg hother]
        exact h

/-- **The deadlock does not resolve.** -/
theorem Stuck.run (h : Stuck s i k) (acts : List ℕ) : Stuck (s.run acts) i k := by
  induction acts generalizing s with
  | nil => exact h
  | cons j acts ih => exact ih (h.step j)

end RWMutex
