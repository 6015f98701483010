import Mathlib.Order.Nat
import Mathlib.Tactic.Common

/-!
# Buffered writers

A buffered writer collects what it is given in a buffer of limited size and passes it on to a sink.
The sink takes `room` more elements and then fails; after a failure the writer takes nothing more.

`Wrote base data k` describes the writer after it was given `data`, with `k` the room of the sink at
the start: everything is in the sink or in the buffer, or the sink failed after the first `k`
elements.
-/

namespace BufferedWriter

variable {α : Type*}

/-- A writer: what has reached the sink, what is in the buffer, and whether a write has failed. -/
structure Writer (α : Type*) where
  sink : List α
  buf : List α
  failed : Bool

/-- Pass the buffer on to the sink; returns the room left. -/
def flush (room : ℕ) (w : Writer α) : Writer α × ℕ :=
  if w.failed ∨ w.buf.isEmpty then (w, room)
  else
    (⟨w.sink ++ w.buf.take room, w.buf.drop room, decide (room < w.buf.length)⟩,
      room - w.buf.length)

/-- Pass `p` on to the sink, past an empty buffer. -/
def forward (room : ℕ) (w : Writer α) (p : List α) : Writer α × ℕ :=
  (⟨w.sink ++ p.take room, [], decide (room < p.length)⟩, room - p.length)

/-- How many elements a buffer in use is filled up with. -/
def fill (cap : ℕ) (w : Writer α) : ℕ := if w.buf.isEmpty then 0 else cap - w.buf.length

/-- Take in `p`.  If it does not fit, a buffer in use is filled up and flushed first; what is then
left goes to the buffer, or past it if it is larger than the buffer. -/
def write (cap room : ℕ) (w : Writer α) (p : List α) : Writer α × ℕ :=
  if w.failed then (w, room)
  else if p.length ≤ cap - w.buf.length then ({ w with buf := w.buf ++ p }, room)
  else
    let r := flush room { w with buf := w.buf ++ p.take (fill cap w) }
    let rest := p.drop (fill cap w)
    if r.1.failed then r
    else if rest.length ≤ cap then ({ r.1 with buf := rest }, r.2)
    else forward r.2 r.1 rest

/-- The writer was given `data`, starting with an empty buffer, `base` in the sink and room for `k`
more. -/
inductive Wrote (base data : List α) (k : ℕ) : Writer α × ℕ → Prop
  | good (j : ℕ) : j ≤ data.length → j ≤ k →
      Wrote base data k (⟨base ++ data.take j, data.drop j, false⟩, k - j)
  | bad (buf : List α) (room : ℕ) : k < data.length →
      Wrote base data k (⟨base ++ data.take k, buf, true⟩, room)

section

variable {base data p : List α} {cap k room : ℕ} {w : Writer α}

theorem Wrote.start (base : List α) (k : ℕ) : Wrote base [] k (⟨base, [], false⟩, k) := by
  simpa using @Wrote.good α base [] k 0 le_rfl k.zero_le

theorem Wrote.buffer (h : Wrote base data k (w, room)) (hw : w.failed = false) (q : List α) :
    Wrote base (data ++ q) k ({ w with buf := w.buf ++ q }, room) := by
  cases h with
  | good j hj hk =>
    have hg := @Wrote.good α base (data ++ q) k j (by rw [List.length_append]; omega) hk
    rwa [List.take_append_of_le_length hj, List.drop_append_of_le_length hj] at hg
  | bad buf room hk => cases hw

theorem Wrote.more (h : Wrote base data k (w, room)) (hw : w.failed = true) (q : List α) :
    Wrote base (data ++ q) k (w, room) := by
  cases h with
  | good j hj hk => cases hw
  | bad buf room hk =>
    have hb := @Wrote.bad α base (data ++ q) k buf room (by rw [List.length_append]; omega)
    rwa [List.take_append_of_le_length (Nat.le_of_lt hk)] at hb

theorem Wrote.forward (h : Wrote base data k (w, room)) (hw : w.failed = false) (hbuf : w.buf = [])
    (p : List α) : Wrote base (data ++ p) k (forward room w p) := by
  cases h with
  | bad buf room hk => cases hw
  | good j hj hk =>
    obtain rfl : j = data.length := le_antisymm hj (List.drop_eq_nil_iff.1 hbuf)
    unfold BufferedWriter.forward
    simp only [List.take_length]
    have hsink : base ++ data ++ p.take (k - data.length) = base ++ (data ++ p).take k := by
      rw [List.take_append, List.take_of_length_le hk, List.append_assoc]
    rw [hsink]
    by_cases hfail : k < (data ++ p).length
    · rw [decide_eq_true (by rw [List.length_append] at hfail; omega)]
      exact Wrote.bad _ _ hfail
    · have hg := @Wrote.good α base (data ++ p) k (data ++ p).length le_rfl (by omega)
      rw [List.drop_length, List.take_length] at hg
      rw [List.length_append] at hfail hg
      rwa [decide_eq_false (by omega), List.take_of_length_le (by rw [List.length_append]; omega),
        Nat.sub_sub]

theorem Wrote.flush (h : Wrote base data k (w, room)) :
    Wrote base data k (flush room w) ∧
      ((BufferedWriter.flush room w).1.failed = false → (BufferedWriter.flush room w).1.buf =
        []) := by
  unfold BufferedWriter.flush
  cases h with
  | bad buf room hk =>
    rw [if_pos (Or.inl rfl)]
    exact ⟨Wrote.bad buf room hk, fun h => by cases h⟩
  | good j hj hk =>
    by_cases hempty : (data.drop j).isEmpty
    · rw [if_pos (Or.inr hempty)]
      exact ⟨Wrote.good j hj hk, fun _ => by simpa using hempty⟩
    rw [if_neg (by simpa using hempty)]
    have hsplit : base ++ data.take j ++ (data.drop j).take (k - j) = base ++ data.take k := by
      rw [List.append_assoc, ← List.take_add, Nat.add_sub_cancel' hk]
    simp only [hsplit, List.drop_drop, List.length_drop, Nat.add_sub_cancel' hk]
    by_cases hfail : k < data.length
    · rw [decide_eq_true (by omega)]
      exact ⟨Wrote.bad _ _ hfail, fun h => by cases h⟩
    · have hg := @Wrote.good α base data k data.length le_rfl (by omega)
      rw [List.drop_length] at hg
      rw [decide_eq_false (by omega), List.take_of_length_le (by omega),
        List.drop_eq_nil_of_le (by omega),
          show k - j - (data.length - j) = k - data.length by omega]
      rw [List.take_length] at hg
      exact ⟨hg, fun _ => rfl⟩

/-- **Writing takes in all of the data**, whether or not the sink fails on the way. -/
theorem Wrote.write (h : Wrote base data k (w, room)) (p : List α) :
    Wrote base (data ++ p) k (write cap room w p) := by
  unfold BufferedWriter.write
  by_cases hw : w.failed = true
  · rw [if_pos hw]
    exact h.more hw p
  have hw' : w.failed = false := by simpa using hw
  rw [if_neg hw]
  by_cases hfits : p.length ≤ cap - w.buf.length
  · rw [if_pos hfits]
    exact h.buffer hw' p
  rw [if_neg hfits]
  obtain ⟨hflush, hbuf⟩ := (h.buffer hw' (p.take (fill cap w))).flush
  simp only
  generalize BufferedWriter.flush room { w with buf := w.buf ++ p.take (fill cap w) } = r
    at hflush hbuf ⊢
  obtain ⟨w', room'⟩ := r
  have hp : data ++ p = data ++ p.take (fill cap w) ++ p.drop (fill cap w) := by
    rw [List.append_assoc, List.take_append_drop]
  rw [hp]
  by_cases hfail : w'.failed = true
  · rw [if_pos hfail]
    exact hflush.more hfail _
  have hfail' : w'.failed = false := by simpa using hfail
  rw [if_neg hfail]
  split_ifs
  · have hnext := hflush.buffer hfail' (p.drop (fill cap w))
    rwa [hbuf hfail', List.nil_append] at hnext
  · exact hflush.forward hfail' (hbuf hfail') _

theorem write_of_failed (hw : w.failed = true) : write cap room w p = (w, room) := by
  rw [write, if_pos hw]

/-- **What a flushed writer has passed on**: everything if the sink had the room, and otherwise as
much as the sink had room for. -/
theorem Wrote.done {r : Writer α × ℕ} (h : Wrote base data k r)
    (hbuf : r.1.failed = false → r.1.buf = []) :
    (data.length ≤ k ∧ r.1 = ⟨base ++ data, [], false⟩) ∨
      (k < data.length ∧ r.1.sink = base ++ data.take k ∧ r.1.failed = true) := by
  cases h with
  | bad buf room hk => exact Or.inr ⟨hk, rfl, rfl⟩
  | good j hj hk =>
    obtain rfl : j = data.length := le_antisymm hj (List.drop_eq_nil_iff.1 (hbuf rfl))
    exact Or.inl ⟨hk, by rw [List.take_length, List.drop_length]⟩

end

end BufferedWriter
