import LsmTree.Correct.BlockCodec

/-!
# Blocks with restart points

A block builder counts the entries since its last restart point and starts over after
`restartInterval` of them.  `BlockBuilder.Marks` relates the restart points to the entries; it holds
after any pairs that `add` accepts, on a new builder and on one that is used again.  So the finished
block yields the pairs, from the start and from each of its restart points (`block_codec`).
-/

namespace LsmTree.Table

variable {es : List (InternalKey × Bytes)}

def BlockBuilder.addAll (b : BlockBuilder) : List (InternalKey × Bytes) → Except Halt BlockBuilder
  | [] => .ok b
  | e :: es => (b.add e.1 e.2).bind fun b' => b'.addAll es

/-- The iterator is at the first of the pairs, and `next` leads through the others to the end. -/
def Yields (it : BlockIterator) : List (InternalKey × Bytes) → Prop
  | [] => it.valid = false
  | e :: es => it.valid = true ∧ (it.key, it.value) = e ∧ ∃ it', it.next = .ok it' ∧ Yields it' es

theorem At.yields {it : BlockIterator} (h : At it es) : Yields it es := by
  induction es generalizing it with
  | nil => exact h
  | cons e es ih =>
    obtain ⟨it', hnext, hat, -⟩ := h.next
    exact ⟨h.1, Prod.ext h.2.1 h.2.2.1, it', hnext, ih hat⟩

/-! ## Restart points of the builder -/

theorem endKey_drop {k : ℕ} (h : k < es.length) : endKey [] (es.drop k) = endKey [] es := by
  rcases es.eq_nil_or_concat' with rfl | ⟨es', e, rfl⟩
  · exact absurd h (Nat.not_lt_zero k)
  · rw [List.length_append, List.length_singleton] at h
    rw [List.drop_append_of_le_length (by omega), endKey_concat, endKey_concat]

/-- Restart point `j` is before entry `(j + 1) * interval`, whose key is in full. -/
structure BlockBuilder.Marks (interval : ℕ) (b : BlockBuilder) (es : List (InternalKey × Bytes)) :
    Prop where
  holds : b.Holds es
  interval_pos : 1 ≤ interval
  interval_eq : b.restartInterval = interval
  count : es.length = b.restarts.length * interval + b.counter
  counter_le : b.counter ≤ interval
  counter_pos : b.restarts ≠ [] → 0 < b.counter
  restart : b.buf.length < 2 ^ 32 → ∀ j r, b.restarts[j]? = some r →
    r.toNat ≤ b.buf.length ∧ Encodes [] (b.buf.drop r.toNat) (es.drop ((j + 1) * interval))

section

variable {interval : ℕ} {b b' : BlockBuilder} {es : List (InternalKey × Bytes)}

variable {r : UInt32}

theorem BlockBuilder.Marks.lt_length (h : b.Marks interval es) {j : ℕ}
    (hj : j < b.restarts.length) : (j + 1) * interval < es.length := by
  have hpos := h.counter_pos (List.ne_nil_of_length_pos (by omega))
  have hmul : (j + 1) * interval ≤ b.restarts.length * interval := Nat.mul_le_mul_right _ hj
  have hcount := h.count
  omega

theorem BlockBuilder.Marks.restart_concat (h : b.Marks interval es) (hbuf : b.buf.length < 2 ^ 32)
    {key : InternalKey} {value : Bytes} {shared : ℕ} (hlast : shared ≤ (endKey [] es).length)
    (henc : shared ≤ (encodeKey key).length)
    (hshare : (endKey [] es).take shared = (encodeKey key).take shared) {j : ℕ}
    (hj : b.restarts[j]? = some r) :
    r.toNat ≤ (b.buf ++ entryBytes shared (encodeKey key) value).length ∧
      Encodes [] ((b.buf ++ entryBytes shared (encodeKey key) value).drop r.toNat)
        ((es ++ [(key, value)]).drop ((j + 1) * interval)) := by
  obtain ⟨hr, hencodes⟩ := h.restart hbuf j r hj
  have hlt := h.lt_length (List.getElem?_eq_some_iff.1 hj).1
  rw [List.length_append, List.drop_append_of_le_length hr, List.drop_append_of_le_length hlt.le]
  rw [← endKey_drop hlt] at hlast hshare
  exact ⟨by omega, hencodes.concat hlast henc hshare⟩

theorem BlockBuilder.Marks.add (h : b.Marks interval es) {key : InternalKey} {value : Bytes}
    (hadd : b.add key value = .ok b') : b'.Marks interval (es ++ [(key, value)]) := by
  have hholds := h.holds.add hadd
  have hcount := h.count
  have hle := h.counter_le
  have hint := h.interval_eq
  unfold BlockBuilder.add at hadd
  simp only at hadd
  split_ifs at hadd with hbad hcounter
  · cases hadd
    refine ⟨hholds, h.interval_pos, hint, ?_, ?_, fun _ => Nat.succ_pos _, fun hbuf j r hj => ?_⟩
    · simp only [List.length_append, List.length_singleton]
      omega
    · simp only
      omega
    · simp only [List.length_append] at hbuf
      rw [h.holds.lastKey_eq]
      exact h.restart_concat (by omega) (sharedLen_le_left _ _) (sharedLen_le_right _ _)
        (take_sharedLen _ _) hj
  · cases hadd
    have hfull : es.length = (b.restarts.length + 1) * interval := by
      rw [Nat.add_mul]
      omega
    refine ⟨hholds, h.interval_pos, hint, ?_, ?_, fun _ => Nat.one_pos, fun hbuf j r hj => ?_⟩
    · simp only [List.length_append, List.length_singleton]
      omega
    · exact h.interval_pos
    · simp only [List.length_append] at hbuf
      rcases Nat.lt_or_ge j b.restarts.length with hlt | hge
      · rw [List.getElem?_append_left hlt] at hj
        exact h.restart_concat (by omega) (Nat.zero_le _) (Nat.zero_le _) rfl hj
      -- the new restart point is where the buffer ended, and the key is stored in full
      · obtain ⟨rfl, rfl⟩ : j = b.restarts.length ∧ r = UInt32.ofNat b.buf.length := by
          obtain ⟨hlt, heq⟩ := List.getElem?_eq_some_iff.1 hj
          rw [List.length_append, List.length_singleton] at hlt
          obtain rfl : j = b.restarts.length := by omega
          exact ⟨rfl, by rw [← heq, List.getElem_concat_length rfl]⟩
        have hr : (UInt32.ofNat b.buf.length).toNat = b.buf.length :=
          Nat.mod_eq_of_lt (show b.buf.length < 2 ^ 32 by omega)
        have hone : Encodes [] (entryBytes 0 (encodeKey key) value ++ []) [(key, value)] :=
          .cons (Nat.zero_le _) (Nat.zero_le _) rfl (.nil _)
        rw [hr, ← hfull, List.drop_left, List.drop_left, List.length_append]
        rw [List.append_nil] at hone
        exact ⟨by omega, hone⟩

theorem BlockBuilder.Marks.addAll {new : List (InternalKey × Bytes)} (h : b.Marks interval es)
    (hadd : b.addAll new = .ok b') : b'.Marks interval (es ++ new) := by
  induction new generalizing b es with
  | nil =>
    cases hadd
    rwa [List.append_nil]
  | cons e new ih =>
    cases hstep : b.add e.1 e.2 with
    | error halt =>
      rw [BlockBuilder.addAll, hstep] at hadd
      cases hadd
    | ok b₁ =>
      rw [BlockBuilder.addAll, hstep] at hadd
      rw [show es ++ e :: new = es ++ [e] ++ new by simp]
      exact ih (h.add hstep) hadd

/-- A builder for the interval that holds nothing: a new one, or a used one after `reset`. -/
def BlockBuilder.Empty (interval : ℕ) (b : BlockBuilder) : Prop :=
  b = newBlockBuilder interval ∨
    ∃ used : BlockBuilder, used.restartInterval = interval ∧ b = used.reset

theorem BlockBuilder.Empty.marks (hint : 1 ≤ interval) (h : b.Empty interval) :
    b.Marks interval [] := by
  have hnone : ∀ (j : ℕ) (r : UInt32), ([] : List UInt32)[j]? = some r → False := by simp
  rcases h with rfl | ⟨used, rfl, rfl⟩
  · refine ⟨newBlockBuilder_holds _, hint, ?_, ?_, Nat.zero_le _, fun h => absurd rfl h,
      fun _ j r hj => (hnone j r hj).elim⟩
    · rw [newBlockBuilder, if_neg (by omega), Int.toNat_natCast]
    · simp [newBlockBuilder]
  · have hholds : used.reset.Holds [] :=
      ⟨.nil [], by cases hlast : used.lastKey <;> simp [BlockBuilder.reset, hlast, endKey], le_rfl⟩
    exact ⟨hholds, hint, rfl, by simp [BlockBuilder.reset], Nat.zero_le _, fun h => absurd rfl h,
      fun _ j r hj => (hnone j r hj).elim⟩

theorem BlockBuilder.Marks.lt_restarts_iff (h : b.Marks interval es) (i : ℕ) :
    i < b.restarts.length ↔ (i + 1) * interval < es.length := by
  refine ⟨h.lt_length, fun hlt => ?_⟩
  have hcount := h.count
  have hle := h.counter_le
  have hmul : (i + 1) * interval < (b.restarts.length + 1) * interval := by
    rw [Nat.add_mul b.restarts.length]
    omega
  have := Nat.lt_of_mul_lt_mul_right hmul
  omega

theorem seekToRestart_at {block : Block} {i : ℕ} (hcap : block.data.array.length < 2 ^ 63)
    (hr : block.restarts[i]? = some r) (hle : r.toNat ≤ block.data.len)
    (hencodes : Encodes [] (block.data.toList.drop r.toNat) es) {it : BlockIterator}
    (hblock : it.block = block) : ∃ it', it.seekToRestart i = .ok it' ∧ At it' es := by
  subst hblock
  have hlen : (it.block.data.toList.drop r.toNat).length < 2 ^ 63 := by
    have := it.block.data.len_le
    rw [List.length_drop, Slice.length_toList]
    omega
  obtain ⟨it', hnext, hat, -⟩ :=
    @next_at { it with pos := r.toNat, lastKey := [] } es ⟨hle, Nat.zero_le _, hcap⟩
      (hencodes.readEntries ((Nat.zero_add _).trans_lt hlen))
  exact ⟨it', by rw [BlockIterator.seekToRestart, hr]; exact hnext, hat⟩

/-- **The codec of a block**: whatever a builder accepts is read back, from the start and from every
restart point.  There is a restart point for each entry whose index is a positive multiple of the
interval, and for no other. -/
theorem block_codec (hint : 1 ≤ interval) (hb : b.Empty interval) (hadd : b.addAll es = .ok b')
    (hsize : b'.finish.length < 2 ^ 32) {data : Slice UInt8} (hdata : data.toList = b'.finish)
    (hcap : data.array.length < 2 ^ 63) :
    ∃ block, decodeBlock data = .ok (.ok block) ∧
      (∃ it, newBlockIterator block = .ok it ∧ Yields it es) ∧
      (∀ i, i < block.restarts.length ↔ (i + 1) * interval < es.length) ∧
      ∀ it : BlockIterator, it.block = block → ∀ i < block.restarts.length,
        ∃ it', it.seekToRestart i = .ok it' ∧ Yields it' (es.drop ((i + 1) * interval)) := by
  have h := (hb.marks hint).addAll hadd
  rw [List.nil_append] at h
  have hparts : b'.buf.length + 4 * b'.restarts.length < 2 ^ 32 := by
    rw [BlockBuilder.finish, restartBytes, List.length_append, List.length_append,
      length_restarts] at hsize
    omega
  obtain ⟨body, hdecode, hbody, hcap'⟩ := decodeBlock_finish hdata (by omega)
  have hlt : body.array.length < 2 ^ 63 := hcap'.trans_lt hcap
  have hencodes : Encodes [] body.toList es := hbody ▸ h.holds.encodes
  obtain ⟨it, hit, hat, -⟩ := @Encodes.newBlockIterator ⟨body, b'.restarts⟩ es hencodes hlt
  refine ⟨_, hdecode, ⟨it, hit, hat.yields⟩, h.lt_restarts_iff, ?_⟩
  intro it hblock i hi
  obtain ⟨hr, hrest⟩ := h.restart (by omega) i _ (List.getElem?_eq_getElem hi)
  rw [← hbody] at hr hrest
  rw [Slice.length_toList] at hr
  obtain ⟨it', hseek, hat'⟩ := seekToRestart_at hlt (List.getElem?_eq_getElem hi) hr hrest hblock
  exact ⟨it', hseek, hat'.yields⟩

def usedBuilder : BlockBuilder := { restartInterval := 1, lastKey := some [7] }

def twoPairs : List (InternalKey × Bytes) := [(⟨[1], 5, 0⟩, [9]), (⟨[1], 4, 0⟩, [])]

/-- Reset, the builder takes two pairs with a restart point between them. -/
theorem block_codec_two :
    ∃ b', usedBuilder.reset.addAll twoPairs = .ok b' ∧ b'.finish.length < 2 ^ 32 ∧
      ∃ block, decodeBlock (.ofList b'.finish) = .ok (.ok block) ∧
        ∀ i, i < block.restarts.length ↔ (i + 1) * 1 < 2 := by
  obtain ⟨b', hadd, hsize⟩ : ∃ b', usedBuilder.reset.addAll twoPairs = .ok b' ∧
      b'.finish.length < 2 ^ 32 := ⟨_, rfl, by decide⟩
  obtain ⟨block, hblock, -, hrestarts, -⟩ := block_codec le_rfl (.inr ⟨_, rfl, rfl⟩) hadd hsize
    (Slice.toList_ofList _) (hsize.trans (by decide))
  exact ⟨b', hadd, hsize, block, hblock, hrestarts⟩

end

end LsmTree.Table
