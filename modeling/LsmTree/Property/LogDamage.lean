import Mathlib.Data.List.Infix
import LsmTree.Property.LogRecovery

/-!
# A log with one byte changed

A byte of the checksum, of the length or of the payload of a fragment stops recovery at the record
it belongs to, and a byte of the padding is passed over or stops it as well; so recovery returns the
entries of some of the calls from the front.  The type of a fragment is not covered by its checksum:
with another type the fragment is still taken in, the record may be passed over or read as something
else, and the records after it are returned all the same.
-/

namespace LsmTree.Log

open LittleEndian

variable {fuel pos : ℕ} {isFirst : Bool} {data : Bytes} {f : Fragment} {fs : List Fragment}

/-! ## One damaged fragment -/

section

variable {crc : Bytes → UInt32}

variable {b t : UInt8} {chunk : Bytes} {pos : ℕ} {r : Reader}

theorem recordType_ne_zero (isFirst isFinal : Bool) : recordType isFirst isFinal ≠ 0 := by
  cases isFirst <;> cases isFinal <;> decide

theorem set_fragment {d : ℕ} (hlen : chunk.length < 2 ^ 16)
    (hd : d < (header crc t chunk ++ chunk).length) (hb : (header crc t chunk ++ chunk)[d] ≠ b)
    (htype : d ≠ 6) :
    ∃ s < 2 ^ 32, ∃ l < 2 ^ 16, ∃ chunk' : Bytes,
      (header crc t chunk ++ chunk).set d b = encode 4 s ++ encode 2 l ++ [t] ++ chunk' ∧
      ((s ≠ (crc chunk).toNat ∧ l = chunk.length ∧ chunk' = chunk) ∨
        (s = (crc chunk).toNat ∧ (l ≠ chunk.length ∨
          (chunk'.length = chunk.length ∧ chunk' ≠ chunk)))) := by
  have hcrc := (crc chunk).toNat_lt
  have hbytes : header crc t chunk ++ chunk =
      encode 4 (crc chunk).toNat ++ (encode 2 chunk.length ++ ([t] ++ chunk)) := by
    simp [header]
  simp only [hbytes, List.length_append, length_encode, List.length_singleton] at hd hb ⊢
  by_cases h4 : d < 4
  · -- the stored checksum
    have hin : d < (encode 4 (crc chunk).toNat).length := by simpa using h4
    rw [List.getElem_append_left hin] at hb
    obtain ⟨s, hs, hne, hset⟩ := set_eq_encode hin hb
    rw [length_encode] at hs hset
    rw [decode_encode_of_lt hcrc] at hne
    refine ⟨s, hs, chunk.length, hlen, chunk, ?_, Or.inl ⟨hne, rfl, rfl⟩⟩
    rw [List.set_append_left _ _ hin, hset]
    simp
  have hout : (encode 4 (crc chunk).toNat).length ≤ d := by simpa using h4
  rw [List.getElem_append_right hout] at hb
  rw [List.set_append_right _ _ hout]
  simp only [length_encode] at hb ⊢
  by_cases h6 : d < 6
  · -- the length
    have hin : d - 4 < (encode 2 chunk.length).length := by rw [length_encode]; omega
    rw [List.getElem_append_left hin] at hb
    obtain ⟨l, hl, hne, hset⟩ := set_eq_encode hin hb
    rw [length_encode] at hl hset
    rw [decode_encode_of_lt hlen] at hne
    refine ⟨_, hcrc, l, hl, chunk, ?_, Or.inr ⟨rfl, Or.inl hne⟩⟩
    rw [List.set_append_left _ _ hin, hset]
    simp
  have hout' : (encode 2 chunk.length).length ≤ d - 4 := by rw [length_encode]; omega
  rw [List.getElem_append_right hout'] at hb
  rw [List.set_append_right _ _ hout']
  simp only [length_encode] at hb ⊢
  -- the payload
  obtain ⟨j, hj⟩ : ∃ j, d - 4 - 2 = j + 1 := ⟨d - 7, by omega⟩
  simp only [hj, List.singleton_append, List.getElem_cons_succ, List.set_cons_succ] at hb ⊢
  refine ⟨_, hcrc, _, hlen, chunk.set j b, by simp, Or.inr ⟨rfl, Or.inr ⟨List.length_set, ?_⟩⟩⟩
  intro hsame
  apply hb
  have hget : (chunk.set j b)[j]? = chunk[j]? := by rw [hsame]
  have hjlt : j < chunk.length := by omega
  rw [List.getElem?_set_self hjlt, List.getElem?_eq_getElem hjlt] at hget
  exact (Option.some.inj hget).symm

theorem resume_chunk_damaged {d : ℕ} {rest : Bytes} (hne : chunk ≠ [])
    (hroom : pos + headerSize + chunk.length ≤ blockSize) (ht : t ≠ 0)
    (hd : d < (header crc t chunk ++ chunk).length) (hb : (header crc t chunk ++ chunk)[d] ≠ b)
    (htype : d ≠ 6)
    (hcrc : ∀ p, p <+: ((header crc t chunk ++ chunk).set d b ++ rest).drop headerSize →
      p ≠ chunk → crc p ≠ crc chunk) (r : Reader) :
    resume crc pos ((header crc t chunk ++ chunk).set d b ++ rest) r = r := by
  have hlt := blockSize_lt
  have hlen : 0 < chunk.length := List.length_pos_iff.2 hne
  obtain ⟨s, hs, l, hl, chunk', heq, hcase⟩ := set_fragment (by omega) hd hb htype
  rw [heq, List.append_assoc _ chunk'] at hcrc ⊢
  rw [List.drop_left' (by simp [headerSize])] at hcrc
  rw [resume_header crc (by omega) hs hl, if_neg (fun h => ht h.2)]
  split_ifs with hcut hsum
  · rfl
  · rfl
  exfalso
  rw [not_not] at hsum
  rw [List.length_take] at hcut
  have hp : ((chunk' ++ rest).take l).length = l := by
    rw [List.length_take]
    omega
  rcases hcase with ⟨hs', rfl, rfl⟩ | ⟨rfl, hdiff⟩
  · rw [List.take_left] at hsum
    exact hs' hsum.symm
  · -- the same checksum: what is read is the payload that was written
    have hsame : (chunk' ++ rest).take l = chunk := by
      by_contra hno
      exact hcrc _ (List.take_prefix _ _) hno (UInt32.toNat_inj.1 hsum)
    have hl' : l = chunk.length := by rw [← hp, hsame]
    rcases hdiff with hl'' | ⟨hclen, hc⟩
    · exact hl'' hl'
    · rw [hl', ← hclen, List.take_left] at hsame
      exact hc hsame

theorem resume_chunk_retyped (hne : chunk ≠ [])
    (hroom : pos + headerSize + chunk.length ≤ blockSize) (rest : Bytes) (r : Reader) :
    resume crc pos ((header crc t chunk ++ chunk).set 6 b ++ rest) r =
      resume crc ((pos + headerSize + chunk.length) % blockSize) rest (r.add b chunk) := by
  have hset : (header crc t chunk ++ chunk).set 6 b = header crc b chunk ++ chunk := by
    rw [List.set_append_left _ _ (by simp [headerSize]), header,
      List.set_append_right _ _ (by simp)]
    simp [header]
  rw [hset, resume_chunk hne hroom]

theorem Reader.add_nil (hr : r.pendingFragments = []) (t : UInt8) : r.add t
    [] = r := by
  obtain ⟨es, pf⟩ := r
  obtain rfl : pf = [] := hr
  unfold Reader.add
  split_ifs <;> simp [decodeEntries]

theorem eq_header_of_length {bs : Bytes} (h : bs.length = 7) :
    ∃ s < 2 ^ 32, ∃ l < 2 ^ 16, ∃ t, bs = encode 4 s ++ encode 2 l ++ [t] := by
  obtain ⟨b₀, b₁, b₂, b₃, b₄, b₅, b₆, rfl⟩ : ∃ b₀ b₁ b₂ b₃ b₄ b₅ b₆,
      bs = [b₀, b₁, b₂, b₃, b₄, b₅, b₆] := by
    match bs, h with
    | [b₀, b₁, b₂, b₃, b₄, b₅, b₆], _ => exact ⟨b₀, b₁, b₂, b₃, b₄, b₅, b₆, rfl⟩
  have hs : encode 4 (decode [b₀, b₁, b₂, b₃]) = [b₀, b₁, b₂, b₃] :=
    encode_decode [b₀, b₁, b₂, b₃]
  have hl : encode 2 (decode [b₄, b₅]) = [b₄, b₅] := encode_decode [b₄, b₅]
  refine ⟨_, (decode_lt [b₀, b₁, b₂, b₃]).trans_eq (by simp), _,
    (decode_lt [b₄, b₅]).trans_eq (by simp), b₆, ?_⟩
  rw [hs, hl]
  rfl

theorem resume_padding_damaged {pad : Bytes} (hlen : pad.length = blockSize - pos)
    (hpos : pos < blockSize) (hfull : blockSize ≤ pos + headerSize) (rest : Bytes)
    (hr : r.pendingFragments = []) :
    resume crc pos (pad ++ rest) r = r ∨ resume crc pos (pad ++ rest) r = resume crc 0 rest r := by
  rcases hfull.lt_or_eq with hlt | heq
  · right
    rw [resume_short, List.drop_left' hlen]
    rw [List.take_left' hlen, hlen]
    omega
  · have hseven : pad.length = 7 := by
      unfold headerSize at heq
      omega
    obtain ⟨s, hs, l, hl, t, rfl⟩ := eq_header_of_length hseven
    rw [resume_header crc heq.ge hs hl, ← heq, Nat.sub_self, List.drop_zero, List.take_zero]
    split_ifs with hzero hcut hsum
    · exact Or.inr rfl
    · exact Or.inl rfl
    · exact Or.inl rfl
    · right
      obtain rfl : l = 0 := by simpa using hcut
      rw [List.take_zero, List.drop_zero, Nat.add_zero, Reader.add_nil hr, resume_blockSize]

end

/-! ## Only the first fragment of a record is padded -/

theorem fragments_pad (hpos : pos < blockSize) (h : fragments fuel pos isFirst data = f :: fs) :
    ∀ g ∈ fs, g.pad = 0 := by
  induction fuel generalizing pos isFirst data f fs with
  | zero => cases h
  | succ fuel ih =>
    rw [fragments] at h
    split_ifs at h
    simp only at h
    obtain ⟨-, rfl⟩ := List.cons.inj h
    rcases le_or_gt data.length (availAt pos) with hle | hgt
    · simp [List.drop_eq_nil_of_le hle, fragments_nil]
    -- what is left starts in a fresh block
    have hzero : (pos + Fragment.size ⟨padAt pos, recordType isFirst
        (data.drop (availAt pos)).isEmpty, data.take (availAt pos)⟩) % blockSize = 0 := by
      rw [add_size_mod hpos _ (startAt_add_take pos data), if_pos]
      have hlt := startAt_add_headerSize pos
      rw [List.length_take_of_le hgt.le, availAt]
      omega
    rw [hzero]
    rcases hfs : fragments fuel 0 false (data.drop (availAt pos)) with _ | ⟨g, gs⟩
    · simp
    · refine List.forall_mem_cons.2 ⟨?_, ih blockSize_pos hfs⟩
      cases fuel with
      | zero => cases hfs
      | succ fuel =>
        rw [fragments] at hfs
        split_ifs at hfs
        simp only at hfs
        rw [← (List.cons.inj hfs).1]
        exact (by decide : padAt 0 = 0)

theorem callFragments_pad {c : AppendCall} {gs hs : List Fragment} (hpos : pos < blockSize)
    (h : callFragments pos c = gs ++ f :: hs) (hf : f.pad ≠ 0) : gs = [] := by
  cases gs with
  | nil => rfl
  | cons g gs => exact absurd (fragments_pad hpos h f (by simp)) hf

theorem fragments_type_ne_zero : ∀ f ∈ fragments fuel pos isFirst data, f.type ≠ 0 := by
  induction fuel generalizing pos isFirst data with
  | zero => simp [fragments]
  | succ fuel ih =>
    rw [fragments]
    split_ifs
    · simp
    · exact List.forall_mem_cons.2 ⟨recordType_ne_zero _ _, ih⟩

/-! ## Spots of a file -/

/-- A fragment of a log file, and what stands before and after it. -/
structure Spot (calls : List AppendCall) where
  before : List AppendCall
  call : AppendCall
  after : List AppendCall
  front : List Fragment
  frag : Fragment
  back : List Fragment
  calls_eq : calls = before ++ call :: after
  frags_eq : callFragments (totalSize (layout 0 before).flatten % blockSize) call =
    front ++ frag :: back

namespace Spot

variable {calls : List AppendCall} (s : Spot calls)

/-- Where the fragment, with its padding, starts in the file. -/
def offset : ℕ := totalSize (layout 0 s.before).flatten + totalSize s.front

def typeByte : ℕ := s.offset + s.frag.pad + 6

/-- What recovery makes of the record when the fragment has another type. -/
def salvaged (b : UInt8) : List RawEntry :=
  (Reader.addAll {} (s.front ++ { s.frag with type := b } :: s.back)).entries

def rest : List Fragment :=
  s.back ++ (layout ((s.offset + s.frag.size + totalSize s.back) % blockSize) s.after).flatten

theorem layout_eq :
    (layout 0 calls).flatten = (layout 0 s.before).flatten ++ s.front ++ s.frag :: s.rest := by
  obtain ⟨before, call, after, front, frag, back, hcalls, hfrags⟩ := s
  subst hcalls
  rw [layout_append blockSize_pos, List.flatten_append, Nat.zero_add, layout, List.flatten_cons,
    hfrags, Nat.mod_add_mod]
  simp only [rest, offset, totalSize_append, totalSize_cons, List.append_assoc, List.cons_append,
    add_assoc]

theorem take_before : calls.take s.before.length = s.before := by
  have h := congrArg (List.take s.before.length) s.calls_eq
  rwa [List.take_left] at h

theorem offset_eq :
    s.offset = totalSize ((layout 0 s.before).flatten ++ s.front) := (totalSize_append _ _).symm

theorem placed :
    Placed 0 ((layout 0 s.before).flatten ++ s.front) ∧ s.frag.FitsAt (s.offset % blockSize) ∧
      Placed ((s.offset + s.frag.size) % blockSize) s.rest := by
  have h := layout_placed blockSize_pos calls
  rw [s.layout_eq, placed_append blockSize_pos, Nat.zero_add, ← s.offset_eq] at h
  refine ⟨h.1, h.2.1, ?_⟩
  have hrest := h.2.2
  rwa [Nat.mod_add_mod] at hrest

def reader : Reader := Reader.addAll ⟨s.before.flatMap AppendCall.found, []⟩ s.front

theorem reader_entries : s.reader.entries = s.before.flatMap AppendCall.found :=
  callFragments_addAll_take s.frags_eq _

theorem reader_pending (h : s.frag.pad ≠ 0) : s.reader.pendingFragments = [] := by
  rw [reader, callFragments_pad (Nat.mod_lt _ blockSize_pos) s.frags_eq h]
  rfl

theorem written_eq_spot (crc : Bytes → UInt32) :
    written crc calls = ((layout 0 s.before).flatten ++ s.front).flatMap (Fragment.bytes crc) ++
      (s.frag.bytes crc ++ s.rest.flatMap (Fragment.bytes crc)) := by
  rw [written_eq, s.layout_eq, List.flatMap_append, List.flatMap_cons]

theorem recoverWAL_at (crc : Bytes → UInt32) (bytes : Bytes) :
    recoverWAL crc (((layout 0 s.before).flatten ++ s.front).flatMap (Fragment.bytes crc) ++
      bytes) =
      (resume crc (s.offset % blockSize) bytes s.reader).entries := by
  rw [recoverWAL, recoverBlocks_eq_resume, resume_fragments blockSize_pos s.placed.1, Nat.zero_add,
    ← s.offset_eq, Reader.addAll_append, layout_addAll _ _ _ rfl]
  rfl

theorem resume_rest (crc : Bytes → UInt32) (r : Reader) :
    (resume crc ((s.offset + s.frag.size) % blockSize) (s.rest.flatMap (Fragment.bytes crc))
      r).entries = (r.addAll s.back).entries ++ s.after.flatMap AppendCall.found := by
  have hread := @resume_fragments crc _ (Nat.mod_lt _ blockSize_pos) _ s.placed.2.2 [] r
  rw [List.append_nil, resume_nil] at hread
  rw [hread, rest, Reader.addAll_append, layout_addAll_entries]

end Spot

theorem exists_spot_fragments {i : ℕ} (h : i < totalSize fs) :
    ∃ gs f hs d, fs = gs ++ f :: hs ∧ d < f.size ∧ i = totalSize gs + d := by
  induction fs generalizing i with
  | nil => simp at h
  | cons f fs ih =>
    rcases lt_or_ge i f.size with hin | hout
    · exact ⟨[], f, fs, i, rfl, hin, by simp⟩
    · rw [totalSize_cons] at h
      obtain ⟨gs, g, hs, d, rfl, hd, hi⟩ := ih (show i - f.size < totalSize fs by omega)
      exact ⟨f :: gs, g, hs, d, rfl, hd, by rw [totalSize_cons]; omega⟩

theorem exists_spot {calls : List AppendCall} {i : ℕ} (h : i < totalSize (layout 0 calls).flatten) :
    ∃ (s : Spot calls) (d : ℕ), d < s.frag.size ∧ i = s.offset + d := by
  induction calls using List.reverseRecOn with
  | nil => simp at h
  | append_singleton cs c ih =>
    rcases lt_or_ge i (totalSize (layout 0 cs).flatten) with hin | hout
    · obtain ⟨s, d, hd, hi⟩ := ih hin
      refine ⟨⟨s.before, s.call, s.after ++ [c], s.front, s.frag, s.back, ?_, s.frags_eq⟩, d, hd,
        hi⟩
      calc cs ++ [c] = s.before ++ s.call :: s.after ++ [c] := congrArg (· ++ [c]) s.calls_eq
        _ = s.before ++ s.call :: (s.after ++ [c]) := by simp
    · rw [layout_append blockSize_pos, List.flatten_append, totalSize_append, Nat.zero_add] at h
      simp only [layout, List.flatten_cons, List.flatten_nil, List.append_nil] at h
      have hin : i - totalSize (layout 0 cs).flatten <
          totalSize (callFragments (totalSize (layout 0 cs).flatten % blockSize) c) := by omega
      obtain ⟨gs, f, hs, d, hfs, hd, hi⟩ := exists_spot_fragments hin
      refine ⟨⟨cs, c, [], gs, f, hs, rfl, hfs⟩, d, hd, ?_⟩
      simp only [Spot.offset]
      omega

/-! ## A damaged file -/

section

variable (crc : Bytes → UInt32)

variable {f : Fragment} {d : ℕ}

/-- The bytes after the header of a fragment, as many as one may take, have another checksum than
the fragment whenever they differ from it. -/
def ChecksumsDiffer (damaged : Bytes) : ℕ → List Fragment → Prop
  | _, [] => True
  | offset, f :: fs =>
    (∀ p ∈ (damaged.drop (offset + f.pad + headerSize)).inits, p ≠ f.chunk → crc p ≠ crc f.chunk) ∧
      ChecksumsDiffer damaged (offset + f.size) fs

instance decidableChecksumsDiffer (damaged : Bytes) :
    ∀ offset fs, Decidable (ChecksumsDiffer crc damaged offset fs)
  | _, [] => inferInstanceAs (Decidable True)
  | offset, f :: fs =>
    have := decidableChecksumsDiffer damaged (offset + f.size) fs
    inferInstanceAs (Decidable ((∀ p ∈ (damaged.drop (offset + f.pad + headerSize)).inits,
      p ≠ f.chunk → crc p ≠ crc f.chunk) ∧ ChecksumsDiffer crc damaged (offset + f.size) fs))

variable {crc}

theorem ChecksumsDiffer.at {damaged : Bytes} {o : ℕ} {gs hs : List Fragment}
    (h : ChecksumsDiffer crc damaged o (gs ++ f :: hs)) {p : Bytes}
    (hp : p <+: damaged.drop (o + totalSize gs + f.pad + headerSize)) (hne : p ≠ f.chunk) :
    crc p ≠ crc f.chunk := by
  induction gs generalizing o with
  | nil => exact h.1 p ((List.mem_inits _ _).2 (by simpa using hp)) hne
  | cons g gs ih =>
    refine ih h.2 ?_
    rwa [totalSize_cons, ← add_assoc] at hp

variable {calls : List AppendCall} (s : Spot calls)

theorem Spot.set_written (hd : d < s.frag.size) (b : UInt8) :
    (written crc calls).set (s.offset + d) b =
      ((layout 0 s.before).flatten ++ s.front).flatMap (Fragment.bytes crc) ++
        ((s.frag.bytes crc).set d b ++ s.rest.flatMap (Fragment.bytes crc)) := by
  have hlen : (((layout 0 s.before).flatten ++ s.front).flatMap (Fragment.bytes crc)).length =
      s.offset := by rw [length_flatMap_bytes, ← s.offset_eq]
  rw [s.written_eq_spot crc, List.set_append_right _ _ (by rw [hlen]; omega), hlen,
    Nat.add_sub_cancel_left, List.set_append_left _ _ (by rw [Fragment.length_bytes]; exact hd)]

theorem Spot.getElem?_written (hd : d < s.frag.size) :
    (written crc calls)[s.offset + d]? = (s.frag.bytes crc)[d]? := by
  have hlen : (((layout 0 s.before).flatten ++ s.front).flatMap (Fragment.bytes crc)).length =
      s.offset := by rw [length_flatMap_bytes, ← s.offset_eq]
  rw [s.written_eq_spot crc, List.getElem?_append_right (by rw [hlen]; omega), hlen,
    Nat.add_sub_cancel_left, List.getElem?_append_left (by rw [Fragment.length_bytes]; exact hd)]

theorem Fragment.set_bytes (b : UInt8) :
    (f.bytes crc).set (f.pad + d) b =
      List.replicate f.pad 0 ++ (header crc f.type f.chunk ++ f.chunk).set d b := by
  rw [Fragment.bytes, List.set_append_right _ _ (by simp)]
  simp

theorem Spot.resume_pad (crc : Bytes → UInt32) (bytes : Bytes) (r : Reader) :
    ∃ start, start + headerSize + s.frag.chunk.length ≤ blockSize ∧
      (start + headerSize + s.frag.chunk.length) % blockSize =
        (s.offset + s.frag.size) % blockSize ∧
      resume crc (s.offset % blockSize) (List.replicate s.frag.pad 0 ++ bytes) r =
        resume crc start bytes r := by
  obtain ⟨hpos, hne, ⟨hpad, hroom⟩ | ⟨hpad, hfull, hroom⟩⟩ := s.placed.2.1
  · refine ⟨s.offset % blockSize, hroom, ?_, ?_⟩
    · rw [Fragment.size, hpad, add_assoc, Nat.mod_add_mod, Nat.zero_add]
    · rw [hpad, List.replicate_zero, List.nil_append]
  · refine ⟨0, by omega, ?_, ?_⟩
    · rw [Fragment.size, hpad, ← Nat.mod_add_mod s.offset,
        show s.offset % blockSize + (blockSize - s.offset % blockSize + headerSize +
          s.frag.chunk.length) = 0 + headerSize + s.frag.chunk.length + blockSize by omega,
        Nat.add_mod_right]
    · rw [hpad, resume_padding hpos hfull]

theorem recoverWAL_retyped (b : UInt8) :
    recoverWAL crc ((written crc calls).set s.typeByte b) =
      s.before.flatMap AppendCall.found ++ s.salvaged b ++ s.after.flatMap AppendCall.found := by
  have hd : s.frag.pad + 6 < s.frag.size := by
    unfold Fragment.size headerSize
    omega
  obtain ⟨start, hroom, hnext, hread⟩ := s.resume_pad crc
    ((header crc s.frag.type s.frag.chunk ++ s.frag.chunk).set 6 b ++
      s.rest.flatMap (Fragment.bytes crc)) s.reader
  rw [Spot.typeByte, add_assoc, s.set_written hd, s.recoverWAL_at, Fragment.set_bytes,
    List.append_assoc, hread, resume_chunk_retyped s.placed.2.1.chunk_ne hroom, hnext,
    s.resume_rest]
  congr 1
  rw [Spot.reader, Spot.salvaged, ← Reader.addAll_cons (f := { s.frag with type := b }),
    ← Reader.addAll_append, Reader.addAll_eq]

theorem recoverWAL_damaged {b : UInt8} (hd : d < s.frag.size) (hb : (s.frag.bytes crc)[d]? ≠ some b)
    (htype : d ≠ s.frag.pad + 6)
    (hcrc : ChecksumsDiffer crc ((written crc calls).set (s.offset + d) b) 0
      (layout 0 calls).flatten) :
    ∃ m, recoverWAL crc ((written crc calls).set (s.offset + d) b) =
      (calls.take m).flatMap AppendCall.found := by
  have hstop : s.reader.entries = (calls.take s.before.length).flatMap AppendCall.found := by
    rw [s.reader_entries, s.take_before]
  rcases lt_or_ge d s.frag.pad with hin | hout
  · -- within the padding: the reader stops, or finds everything
    obtain ⟨hpos, hne, ⟨hpad, -⟩ | ⟨hpad, hfull, -⟩⟩ := s.placed.2.1
    · omega
    have hset : (s.frag.bytes crc).set d b = (List.replicate s.frag.pad 0).set d b ++
        (header crc s.frag.type s.frag.chunk ++ s.frag.chunk) :=
      List.set_append_left _ _ (by simpa using hin)
    have hall := recoverWAL_written crc calls
    rw [s.written_eq_spot crc, s.recoverWAL_at, Fragment.bytes, hpad, List.append_assoc,
      resume_padding hpos hfull] at hall
    rw [s.set_written hd, s.recoverWAL_at, hset, List.append_assoc]
    have hlen : ((List.replicate s.frag.pad (0 : UInt8)).set d b).length =
        blockSize - s.offset % blockSize := by simpa using hpad
    rcases resume_padding_damaged hlen hpos hfull
      (header crc s.frag.type s.frag.chunk ++ s.frag.chunk ++ s.rest.flatMap (Fragment.bytes crc))
      (s.reader_pending (by omega)) with h | h
    · exact ⟨s.before.length, by rw [h, hstop]⟩
    · exact ⟨calls.length, by rw [h, hall, List.take_length]⟩
  · -- in the header or the payload: the reader stops
    obtain ⟨e, rfl⟩ : ∃ e, d = s.frag.pad + e := ⟨d - s.frag.pad, by omega⟩
    have hlen : (header crc s.frag.type s.frag.chunk ++ s.frag.chunk).length =
        headerSize + s.frag.chunk.length := by rw [List.length_append, length_header]
    have he : e < (header crc s.frag.type s.frag.chunk ++ s.frag.chunk).length := by
      rw [hlen]
      unfold Fragment.size at hd
      omega
    have hbyte : (header crc s.frag.type s.frag.chunk ++ s.frag.chunk)[e] ≠ b := by
      intro h
      apply hb
      rw [Fragment.bytes, List.getElem?_append_right (by simp), List.length_replicate,
        Nat.add_sub_cancel_left, List.getElem?_eq_getElem he, h]
    obtain ⟨start, hroom, -, hread⟩ := s.resume_pad crc
      ((header crc s.frag.type s.frag.chunk ++ s.frag.chunk).set e b ++
        s.rest.flatMap (Fragment.bytes crc)) s.reader
    have hchecks : ∀ p, p <+: ((header crc s.frag.type s.frag.chunk ++ s.frag.chunk).set e b ++
        s.rest.flatMap (Fragment.bytes crc)).drop headerSize → p ≠ s.frag.chunk →
        crc p ≠ crc s.frag.chunk := by
      intro p hp hne
      rw [s.layout_eq] at hcrc
      refine hcrc.at ?_ hne
      rw [s.set_written hd, Fragment.set_bytes, Nat.zero_add, ← s.offset_eq, ← List.drop_drop,
        ← List.drop_drop, List.drop_left' (by rw [length_flatMap_bytes, ← s.offset_eq]),
        List.append_assoc, List.drop_left' List.length_replicate]
      exact hp
    have htypeNe : s.frag.type ≠ 0 := by
      have hmem : s.frag ∈ callFragments
          (totalSize (layout 0 s.before).flatten % blockSize) s.call := by
        rw [s.frags_eq]
        simp
      exact fragments_type_ne_zero _ hmem
    refine ⟨s.before.length, ?_⟩
    rw [s.set_written hd, s.recoverWAL_at, Fragment.set_bytes, List.append_assoc, hread,
      resume_chunk_damaged s.placed.2.1.chunk_ne hroom htypeNe he hbyte (by omega) hchecks, hstop]

end

/-- Changing byte `i` to `b` does no harm even if it is the type of a fragment: what the record then
yields, between the entries of the other calls, is what some calls from the front appended. -/
def Harmless (calls : List AppendCall) (i : ℕ) (b : UInt8) : Prop :=
  ∀ s : Spot calls, i = s.typeByte →
    ∃ m, s.before.flatMap AppendCall.entries ++ s.salvaged b ++ s.after.flatMap AppendCall.entries =
      (calls.take m).flatMap AppendCall.entries

/-- **Of a log with one byte changed, recovery returns the entries of some calls from the front
exactly when the byte is not the type of a fragment, or the other type does no harm.** -/
theorem damaged_prefix_iff (crc : Bytes → UInt32) {calls : List AppendCall} {i : ℕ} {b : UInt8}
    (hfits : ∀ c ∈ calls, c.Fits) (hi : i < (written crc calls).length)
    (hb : (written crc calls)[i] ≠ b)
    (hcrc : ChecksumsDiffer crc ((written crc calls).set i b) 0 (layout 0 calls).flatten) :
    (∃ m, recoverWAL crc ((written crc calls).set i b) =
      (calls.take m).flatMap AppendCall.entries) ↔ Harmless calls i b := by
  have hfound : ∀ cs : List AppendCall, (∀ c ∈ cs, c ∈ calls) →
      cs.flatMap AppendCall.found = cs.flatMap AppendCall.entries := fun cs hcs =>
    List.flatMap_congr fun c hc => c.found_eq_iff.2 (hfits c (hcs c hc))
  have hretyped : ∀ s : Spot calls, recoverWAL crc ((written crc calls).set s.typeByte b) =
      s.before.flatMap AppendCall.entries ++ s.salvaged b ++
        s.after.flatMap AppendCall.entries := by
    intro s
    have hmem : ∀ c, c ∈ s.before ∨ c ∈ s.after → c ∈ calls := by
      intro c hc
      have hin : c ∈ s.before ++ s.call :: s.after := by
        rcases hc with hc | hc <;> simp [hc]
      rwa [← s.calls_eq] at hin
    rw [recoverWAL_retyped, hfound _ fun c hc => hmem c (Or.inl hc),
      hfound _ fun c hc => hmem c (Or.inr hc)]
  constructor
  · rintro ⟨m, hm⟩ s rfl
    exact ⟨m, (hretyped s).symm.trans hm⟩
  · intro h
    rw [written_length] at hi
    obtain ⟨s, d, hd, rfl⟩ := exists_spot hi
    by_cases htype : d = s.frag.pad + 6
    · have hoff : s.offset + d = s.typeByte := by
        rw [Spot.typeByte, htype, add_assoc]
      rw [hoff, hretyped s]
      exact h s hoff
    · have hbyte : (s.frag.bytes crc)[d]? ≠ some b := by
        intro hsome
        apply hb
        apply Option.some.inj
        rw [← List.getElem?_eq_getElem, s.getElem?_written hd, hsome]
      obtain ⟨m, hm⟩ := recoverWAL_damaged s hd hbyte htype hcrc
      exact ⟨m, hm.trans (hfound _ fun c hc => List.mem_of_mem_take hc)⟩

def twoCalls : List AppendCall := [.entry ⟨entrySet, [1], [], 1⟩, .entry ⟨entrySet, [2], [], 2⟩]

/-- Damage to a stored checksum. -/
theorem damaged_prefix_checksum :
    ∃ m, recoverWAL Crc32.checksumIEEE ((written Crc32.checksumIEEE twoCalls).set 0 0) =
      (twoCalls.take m).flatMap AppendCall.entries :=
  (damaged_prefix_iff Crc32.checksumIEEE (by decide) (by decide +kernel) (by decide +kernel)
    (by decide +kernel)).2 fun s hs => by
      rw [Spot.typeByte] at hs
      omega

/-- **A record that is skipped**: with type zero the first record is passed over, and the second is
returned. -/
theorem retyped_record_skipped :
    ChecksumsDiffer Crc32.checksumIEEE ((written Crc32.checksumIEEE twoCalls).set 6 0) 0
        (layout 0 twoCalls).flatten ∧
      ∀ m, recoverWAL Crc32.checksumIEEE ((written Crc32.checksumIEEE twoCalls).set 6 0) ≠
        (twoCalls.take m).flatMap AppendCall.entries := by
  refine ⟨by decide +kernel, fun m => ?_⟩
  have hread : recoverWAL Crc32.checksumIEEE ((written Crc32.checksumIEEE twoCalls).set 6 0) =
      [⟨entrySet, [2], [], 2⟩] := by decide +kernel
  rw [hread]
  match m with
  | 0 => decide
  | 1 => decide
  | m + 2 => simp [twoCalls, AppendCall.entries]

end LsmTree.Log
