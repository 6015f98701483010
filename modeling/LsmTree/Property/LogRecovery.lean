import Mathlib.Algebra.Order.BigOperators.Group.List
import LsmTree.Wal
import LsmTree.Correct.LogLayout

/-!
# Recovering a log

Recovery finds, for every append call whose bytes are in the file, what the payload of the call
decodes to (`recoverWAL_take`).  So it returns the appended entries, in order and with batches
flattened, exactly when every call fits its length fields; and of a file that is cut off it returns
the entries of the calls that are contained in what is left.

A call that does not fit is accepted all the same: its record is written with wrapped lengths and is
passed over in silence by recovery.

The engine's logs are lists of records (`WalFile`).  Written out as bytes and cut off anywhere, they
are read back as the first so many of their records (`recoverWAL_refines`).
-/

namespace LsmTree.Log

variable (crc : Bytes → UInt32)

variable {calls : List AppendCall} {n : ℕ}

/-- The number of calls whose bytes are all among the first `n` bytes of the file. -/
def contained (calls : List AppendCall) (n : ℕ) : ℕ :=
  Nat.findGreatest (fun j => (written crc (calls.take j)).length ≤ n) calls.length

@[simp] theorem written_nil : written crc [] = [] := rfl

theorem written_append (cs ds : List AppendCall) :
    written crc (cs ++ ds) = written crc cs ++
      (layout ((totalSize (layout 0 cs).flatten) % blockSize) ds).flatten.flatMap
        (Fragment.bytes crc) := by
  rw [written_eq, written_eq, layout_append blockSize_pos, List.flatten_append, List.flatMap_append,
    Nat.zero_add]

theorem written_length (calls : List AppendCall) :
    (written crc calls).length = totalSize (layout 0 calls).flatten := by
  rw [written_eq, length_flatMap_bytes]

theorem contained_le (calls : List AppendCall) (n : ℕ) : contained crc calls n ≤ calls.length :=
  Nat.findGreatest_le _

theorem contained_length_le (calls : List AppendCall) (n : ℕ) :
    (written crc (calls.take (contained crc calls n))).length ≤ n :=
  Nat.findGreatest_spec (P := fun j => (written crc (calls.take j)).length ≤ n)
    (Nat.zero_le _) (by simp)

theorem lt_of_contained_lt {j : ℕ} (h : contained crc calls n < j) (hj : j ≤ calls.length) :
    n < (written crc (calls.take j)).length :=
  not_le.1 (Nat.findGreatest_is_greatest
    (P := fun j => (written crc (calls.take j)).length ≤ n) h hj)

theorem le_contained {j : ℕ} (hj : j ≤ calls.length) (h : (written crc (calls.take j)).length ≤ n) :
    j ≤ contained crc calls n :=
  Nat.le_findGreatest hj h

theorem recoverWAL_written_append (calls : List AppendCall) (rest : Bytes) :
    recoverWAL crc (written crc calls ++ rest) =
      (resume crc (totalSize (layout 0 calls).flatten % blockSize) rest
        ⟨calls.flatMap AppendCall.found, []⟩).entries := by
  rw [recoverWAL, recoverBlocks_eq_resume, written_eq,
    resume_fragments blockSize_pos (layout_placed blockSize_pos calls), layout_addAll _ _ _ rfl,
    Nat.zero_add, List.nil_append]

/-- **What recovery finds in a log that is cut off**: what the calls contained in it decode to. -/
theorem recoverWAL_take (calls : List AppendCall) (n : ℕ) :
    recoverWAL crc ((written crc calls).take n) =
      (calls.take (contained crc calls n)).flatMap AppendCall.found := by
  set j := contained crc calls n with hj
  have hlen := contained_length_le crc calls n
  rw [← hj] at hlen
  rcases (contained_le crc calls n).lt_or_eq with hlt | heq
  · rw [← hj] at hlt
    -- the bytes end within the record of call number `j`
    have hsplit : calls = calls.take j ++ (calls[j] :: calls.drop (j + 1)) := by
      rw [List.getElem_cons_drop, List.take_append_drop]
    have hnext : calls.take (j + 1) = calls.take j ++ [calls[j]] := by
      rw [List.take_succ_eq_append_getElem hlt]
    have hcut := lt_of_contained_lt crc (show contained crc calls n < j + 1 by omega) hlt
    set pos := totalSize (layout 0 (calls.take j)).flatten % blockSize with hpos
    have hposlt : pos < blockSize := Nat.mod_lt _ blockSize_pos
    rw [hnext, written_append, List.length_append, length_flatMap_bytes, ← hpos] at hcut
    simp only [layout, List.flatten_cons, List.flatten_nil, List.append_nil] at hcut
    have htake : (written crc calls).take n = written crc (calls.take j) ++
        ((callFragments pos calls[j]).flatMap (Fragment.bytes crc)).take
          (n - (written crc (calls.take j)).length) := by
      conv_lhs => rw [hsplit]
      rw [written_append, List.take_append, List.take_of_length_le hlen, ← hpos, layout,
        List.flatten_cons, List.flatMap_append, List.take_append_of_le_length]
      rw [length_flatMap_bytes]
      omega
    have hplaced : Placed pos (callFragments pos calls[j]) := fragments_placed _ hposlt _ _
    obtain ⟨gs, f, hs, hfs, hread⟩ := @resume_fragments_cut crc pos
      (n - (written crc (calls.take j)).length) _ hplaced (by omega)
      ⟨(calls.take j).flatMap AppendCall.found, []⟩
    rw [htake, recoverWAL_written_append, hread, callFragments_addAll_take hfs]
  · rw [← hj] at heq
    rw [heq, List.take_length] at hlen ⊢
    rw [List.take_of_length_le hlen]
    simpa using recoverWAL_written_append crc calls []

theorem recoverWAL_written (calls : List AppendCall) :
    recoverWAL crc (written crc calls) = calls.flatMap AppendCall.found := by
  simpa using recoverWAL_written_append crc calls []

/-! ## The round trip -/

theorem flatMap_eq_flatMap_iff {α β : Type} {f g : α → List β} {l : List α}
    (hle : ∀ a ∈ l, (f a).length ≤ (g a).length) :
    l.flatMap f = l.flatMap g ↔ ∀ a ∈ l, f a = g a := by
  induction l with
  | nil => simp
  | cons a l ih =>
    rw [List.forall_mem_cons] at hle
    rw [List.flatMap_cons, List.flatMap_cons, List.forall_mem_cons, ← ih hle.2]
    constructor
    · intro h
      have hrest : (l.flatMap f).length ≤ (l.flatMap g).length := by
        rw [List.length_flatMap, List.length_flatMap]
        exact List.sum_le_sum hle.2
      have hlen := congrArg List.length h
      rw [List.length_append, List.length_append] at hlen
      exact List.append_inj h (by have := hle.1; omega)
    · rintro ⟨ha, hl⟩
      rw [ha, hl]

/-- **A log returns what was appended exactly when every call fits its length fields**, for any
calls with entries of type set or delete, closed and reopened anywhere. -/
theorem recovered_iff_fits (ops : List LogOp)
    (htypes : ∀ c ∈ ops.filterMap LogOp.call?, ∀ e ∈ c.entries,
      e.type = entrySet ∨ e.type = entryDelete) :
    recoverWAL crc (logAfter crc ops).file =
      (ops.filterMap LogOp.call?).flatMap AppendCall.entries ↔
      ∀ c ∈ ops.filterMap LogOp.call?, c.Fits := by
  have hle : ∀ c ∈ ops.filterMap LogOp.call?, c.found.length ≤ c.entries.length := by
    intro c hc
    apply AppendCall.found_length_le
    intro e he
    rcases htypes c hc e he with h | h <;> rw [h] <;> decide
  rw [logAfter_file_eq, recoverWAL_written, flatMap_eq_flatMap_iff hle]
  exact forall₂_congr fun c _ => c.found_eq_iff

/-- A small log with a batch and a reopening. -/
theorem recovered_iff_fits_small :
    recoverWAL Crc32.checksumIEEE (logAfter Crc32.checksumIEEE
        [.append (.batch [⟨1, [1], [2], 5⟩, ⟨2, [3], [], 6⟩]), .reopen,
          .append (.entry ⟨1, [4], [], 7⟩)]).file =
      [⟨1, [1], [2], 5⟩, ⟨2, [3], [], 6⟩, ⟨1, [4], [], 7⟩] :=
  (recovered_iff_fits Crc32.checksumIEEE
    [.append (.batch [⟨1, [1], [2], 5⟩, ⟨2, [3], [], 6⟩]), .reopen,
    .append (.entry ⟨1, [4], [], 7⟩)] (by decide)).2 (by decide)

/-- A batch of one entry with a key and a value of `n` bytes each. -/
def wideBatch (n : ℕ) : AppendCall :=
  .batch [⟨entrySet, List.replicate n 0, List.replicate n 0, 1⟩]

theorem wideBatch_found (h : 2 ^ 32 ≤ 17 + n + n) :
    (wideBatch n).found ≠ (wideBatch n).entries := by
  rw [Ne, AppendCall.found_eq_iff]
  rintro ⟨-, hfits⟩
  have hlen := hfits _ (List.mem_singleton_self _)
  simp only [length_encodeEntry, List.length_replicate] at hlen
  omega

/-- **A batch that is lost**: it is written without an error, and recovery does not return it,
though its key and value are of length `2 ^ 31` only. -/
theorem wideBatch_not_recovered :
    recoverWAL Crc32.checksumIEEE
        (logAfter Crc32.checksumIEEE [.append (wideBatch (2 ^ 31))]).file ≠
      (wideBatch (2 ^ 31)).entries := by
  rw [logAfter_file_eq, show [LogOp.append (wideBatch (2 ^ 31))].filterMap LogOp.call? =
    [wideBatch (2 ^ 31)] from rfl, recoverWAL_written, List.flatMap_singleton]
  exact wideBatch_found (by omega)

/-! ## Truncation -/

theorem found_of_totalSize_eq_zero {pos : ℕ} {cs : List AppendCall}
    (h : totalSize (layout pos cs).flatten = 0) : ∀ c ∈ cs, c.found = c.entries := by
  induction cs generalizing pos with
  | nil => simp
  | cons c cs ih =>
    rw [layout, List.flatten_cons, totalSize_append, Nat.add_eq_zero_iff] at h
    refine List.forall_mem_cons.2 ⟨AppendCall.found_of_payload_eq_nil ?_, ih h.2⟩
    by_contra hne
    exact (fragments_whole hne pos).totalSize_pos.ne' h.1

/-- **Of a log that is cut off, recovery returns the entries of the calls contained in it**,
whatever the cut, exactly when every call fits its length fields. -/
theorem truncated_iff_fits (calls : List AppendCall) :
    (∀ n ≤ (written crc calls).length, recoverWAL crc ((written crc calls).take n) =
        (calls.take (contained crc calls n)).flatMap AppendCall.entries) ↔
      ∀ c ∈ calls, c.Fits := by
  simp only [recoverWAL_take, ← AppendCall.found_eq_iff]
  constructor
  · intro h
    -- cutting right after call number `j` tells what is found up to there
    have hupto : ∀ j ≤ calls.length, (calls.take j).flatMap AppendCall.found =
        (calls.take j).flatMap AppendCall.entries := by
      intro j hj
      set n := (written crc (calls.take j)).length with hn
      have hJ : j ≤ contained crc calls n := le_contained crc hj le_rfl
      have hmore : calls.take (contained crc calls n) =
          calls.take j ++ (calls.take (contained crc calls n)).drop j := by
        rw [← List.take_append_drop j (calls.take (contained crc calls n)), List.take_take,
          min_eq_left hJ, List.drop_left' (by rw [List.length_take, min_eq_left hj])]
      have hlen := contained_length_le crc calls n
      rw [hmore, written_append, List.length_append, length_flatMap_bytes, ← hn,
        add_le_iff_nonpos_right, Nat.le_zero] at hlen
      have hnone := found_of_totalSize_eq_zero hlen
      have hcut := h n ?_
      · rw [hmore, List.flatMap_append, List.flatMap_append, List.flatMap_congr hnone] at hcut
        exact List.append_cancel_right hcut
      · rw [← List.take_append_drop j calls, written_append, List.length_append]
        simp [hn]
    intro c hc
    obtain ⟨j, hj, rfl⟩ := List.mem_iff_getElem.1 hc
    have hnext := hupto (j + 1) hj
    rw [List.take_succ_eq_append_getElem hj, List.flatMap_append, List.flatMap_append,
      hupto j hj.le,
      List.append_cancel_left_eq] at hnext
    simpa using hnext
  · intro h n _
    exact List.flatMap_congr fun c hc => h c (List.mem_of_mem_take hc)

/-- The batch that does not fit is lost from the uncut file as well. -/
theorem wideBatch_not_in_prefix :
    let file := written Crc32.checksumIEEE [wideBatch (2 ^ 31)]
    recoverWAL Crc32.checksumIEEE (file.take file.length) ≠
      ([wideBatch (2 ^ 31)].take
        (contained Crc32.checksumIEEE [wideBatch (2 ^ 31)] file.length)).flatMap
          AppendCall.entries := by
  intro file
  have hall : contained Crc32.checksumIEEE [wideBatch (2 ^ 31)] file.length = 1 :=
    le_antisymm (contained_le _ _ _) (le_contained _ le_rfl le_rfl)
  rw [recoverWAL_take, hall, List.take_succ_cons, List.take_zero, List.flatMap_singleton,
    List.flatMap_singleton]
  exact wideBatch_found (by omega)

/-! ## The engine's logs -/

def rawEntry (w : WALEntry) : RawEntry :=
  { type := match w.type with
      | .set => entrySet
      | .delete => entryDelete
    key := w.key
    value := w.value
    seqNo := UInt64.ofNat w.seqNo }

/-- An append call that writes a record of the engine's log. -/
def Writes (c : AppendCall) (record : List WALEntry) : Prop := c.entries = record.map rawEntry

/-- **The bytes of a log stand for its records**: written by calls that fit and cut off anywhere,
the log is read back as its first records. -/
theorem recoverWAL_refines {f : WalFile} (h : List.Forall₂ Writes calls f)
    (hfits : ∀ c ∈ calls, c.Fits) (n : ℕ) :
    recoverWAL crc ((written crc calls).take n) =
      (LsmTree.recoverWAL (f.take (contained crc calls n))).map rawEntry := by
  have hmap : ∀ {cs : List AppendCall} {g : WalFile}, List.Forall₂ Writes cs g →
      cs.flatMap AppendCall.entries = (LsmTree.recoverWAL g).map rawEntry := by
    intro cs g hcs
    induction hcs with
    | nil => rfl
    | cons hc _ ih =>
      rw [List.flatMap_cons, ih, hc, LsmTree.recoverWAL, LsmTree.recoverWAL, List.flatten_cons,
        List.map_append]
  rw [recoverWAL_take, ← hmap (List.forall₂_take _ h)]
  exact List.flatMap_congr fun c hc => c.found_eq_iff.2 (hfits c (List.mem_of_mem_take hc))

end LsmTree.Log
