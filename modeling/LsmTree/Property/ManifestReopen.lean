import LsmTree.Property.ManifestDisk

/-!
# Appending to a manifest that a crash has cut short

`OpenManifest` takes a file for new when it is empty, and `Recover` takes it for one with checksums
when it starts with the four magic bytes.  A crash can leave one, two or three of them: such a file
is neither, `Recover` accepts it as an empty file of the old format, and the next records are
written in that format behind the rest of the magic.  Everywhere else the two answers fit together
(`append_safe_iff`).
-/

namespace LsmTree.Disk

open LittleEndian

variable {crc : Bytes → UInt32}

variable {m m' : Manifest} {es : List VersionEdit} {n : ℕ}

/-- The version that `Recover` reaches from `v` when the edits follow. -/
def followedBy (v : Version) (es : List VersionEdit) : Version :=
  es.foldl (fun v e => v.recoverEdit e.persisted) v

theorem recover_applyAll {v : Version} (hrec : recover crc m.file = .ok (v, m.usesCRC))
    (hlen : 4 ≤ m.file.length) (hidle : m.writer.failed = false → m.writer.buf = [])
    (hes : ∀ e ∈ es, e.InRange ∧ (encodeVersionEdit e).length < 2 ^ 32)
    (hrun : m.applyAll crc es = some m') :
    recover crc m'.file = .ok (followedBy v es, m'.usesCRC) := by
  induction es generalizing m v with
  | nil =>
    cases hrun
    exact hrec
  | cons e es ih =>
    obtain ⟨⟨hrange, hfits⟩, hes'⟩ := List.forall_mem_cons.1 hes
    rw [Manifest.applyAll] at hrun
    rcases @apply_none crc m hidle e with heq | ⟨-, heq⟩
    · rw [heq] at hrun
      cases hrun
    · rw [heq] at hrun
      refine ih (v := v.recoverEdit e.persisted) ?_ ?_ (fun _ => rfl) hes' hrun
      · exact recover_record hrec hlen hrange hfits
      · change 4 ≤ (m.file ++ record crc m.usesCRC e).length
        rw [List.length_append]
        omega

theorem applyAll_current (hidle : m.writer.failed = false → m.writer.buf = [])
    (hes : ∀ e ∈ es, e.OwnMarks) (hrun : m.applyAll crc es = some m') :
    m'.current = followedBy m.current es := by
  induction es generalizing m with
  | nil =>
    cases hrun
    rfl
  | cons e es ih =>
    obtain ⟨he, hes'⟩ := List.forall_mem_cons.1 hes
    rw [Manifest.applyAll] at hrun
    rcases @apply_none crc m hidle e with heq | ⟨-, heq⟩
    · rw [heq] at hrun
      cases hrun
    · rw [heq] at hrun
      rw [ih (fun _ => rfl) hes' hrun, followedBy, followedBy, List.foldl_cons, he.recoverEdit]

/-- Opened as the engine does it, the file gives the version `v`; and whatever edits are applied
then, `Recover` returns `v` followed by them, which is also the version in memory. -/
def AppendSafe (crc : Bytes → UInt32) (file : Bytes) (v : Version) : Prop :=
  ∃ m, openRecovered crc file = .ok m ∧ m.current = v ∧
    ∀ es m', (∀ e ∈ es, e.InRange ∧ (encodeVersionEdit e).length < 2 ^ 32) →
      m.applyAll crc es = some m' →
      recover crc m'.file = .ok (followedBy v es, m'.usesCRC) ∧
        ((∀ e ∈ es, e.OwnMarks) → m'.current = followedBy v es)

theorem AppendSafe.of_openRecovered {file : Bytes} (hopen : openRecovered crc file = .ok m)
    (hfile : file = [] ∨ 4 ≤ file.length) : AppendSafe crc file m.current := by
  obtain ⟨hsync, -⟩ := InSync.of_openRecovered hopen hfile
  exact ⟨m, hopen, rfl, fun es m' hes hrun =>
    ⟨recover_applyAll hsync.recovers hsync.length hsync.idle hes hrun,
      fun hown => applyAll_current hsync.idle hown hrun⟩⟩

/-! ## Inside the magic bytes -/

/-- The manifest opened on the first `n` bytes of the magic. -/
def tornManifest (n : ℕ) : Manifest := ⟨⟨manifestMagic.take n, [], false⟩, {}, false⟩

def tornAppended (crc : Bytes → UInt32) (n : ℕ) : Manifest :=
  ⟨⟨manifestMagic.take n ++ record crc false (wideEdit 1), [], false⟩,
    Version.applyEdit {} (wideEdit 1), false⟩

theorem openRecovered_torn (hpos : 0 < n) (hn : n < 4) :
    openRecovered crc (manifestMagic.take n) = .ok (tornManifest n) := by
  obtain rfl | rfl | rfl : n = 1 ∨ n = 2 ∨ n = 3 := by omega
  all_goals rfl

theorem applyAll_torn (n : ℕ) :
    (tornManifest n).applyAll crc [wideEdit 1] = some (tornAppended crc n) := by
  have hrej : (tornManifest n).current.rejects (wideEdit 1) = false := rfl
  rw [Manifest.applyAll, apply_accepted hrej rfl rfl]
  rfl

theorem recover_torn (hpos : 0 < n) (hn : n < 4) :
    recover crc (tornAppended crc n).file = .error .truncatedBody := by
  obtain rfl | rfl | rfl : n = 1 ∨ n = 2 ∨ n = 3 := by omega
  all_goals rfl

theorem not_appendSafe_torn (hpos : 0 < n) (hn : n < 4) (v : Version) :
    ¬ AppendSafe crc (manifestMagic.take n) v := by
  rintro ⟨m, hopen, -, hsafe⟩
  rw [openRecovered_torn hpos hn, Except.ok.injEq] at hopen
  subst hopen
  have hrec := (hsafe [wideEdit 1] (tornAppended crc n) ?_ (applyAll_torn n)).1
  · rw [recover_torn hpos hn] at hrec
    cases hrec
  · intro e he
    obtain rfl := List.mem_singleton.1 he
    exact ⟨wideEdit_inRange (by omega), by decide⟩

/-- **Which prefixes of a manifest with checksums can be appended to**: among those that `Recover`
accepts, exactly the empty one and those that hold the whole magic. -/
theorem append_safe_iff {file p : Bytes} {v : Version} {usesCRC : Bool}
    (hmagic : manifestMagic <+: file) (hp : p <+: file)
    (hrec : recover crc p = .ok (v, usesCRC)) :
    AppendSafe crc p v ↔ p = [] ∨ 4 ≤ p.length := by
  constructor
  · intro hsafe
    by_contra hshort
    obtain ⟨hne, hlt⟩ := not_or.1 hshort
    have hpos : 0 < p.length := List.length_pos_iff.2 hne
    have htake : p = manifestMagic.take p.length :=
      List.prefix_iff_eq_take.1 (List.prefix_of_prefix_length_le hp hmagic (by
        rw [show manifestMagic.length = 4 from rfl]
        omega))
    rw [htake] at hsafe
    exact not_appendSafe_torn hpos (not_le.1 hlt) v hsafe
  · intro hfile
    have hopen : ∃ m, openRecovered crc p = .ok m ∧ m.current = v := by
      rcases eq_or_ne p [] with rfl | hne
      · cases hrec
        exact ⟨newManifest, openRecovered_nil crc, rfl⟩
      · refine ⟨⟨⟨p, [], false⟩, v, usesCRC⟩, ?_, rfl⟩
        have hm : openManifest p = ⟨⟨p, [], false⟩, {}, false⟩ := if_neg hne
        rw [openRecovered, hm, show Manifest.file ⟨⟨p, [], false⟩, {}, false⟩ = p from rfl, hrec]
        rfl
    obtain ⟨m, hm, rfl⟩ := hopen
    exact AppendSafe.of_openRecovered hm hfile

/-- A crash right after the magic does no harm. -/
theorem magic_appendSafe : AppendSafe Crc32.checksumIEEE manifestMagic {} :=
  (@append_safe_iff _ manifestMagic _ _ true List.prefix_rfl List.prefix_rfl rfl).2
    (Or.inr le_rfl)

/-- **A crash inside the magic bytes**: `Recover` accepts the single byte that is left, a table is
added without an error, and `Recover` fails on the file. -/
theorem torn_magic_not_recovered :
    [0x4D] <+: manifestMagic ∧ recover Crc32.checksumIEEE [0x4D] = .ok ({}, false) ∧
      openRecovered Crc32.checksumIEEE [0x4D] = .ok (tornManifest 1) ∧
      (tornManifest 1).applyAll Crc32.checksumIEEE [wideEdit 1] =
        some (tornAppended Crc32.checksumIEEE 1) ∧
      recover Crc32.checksumIEEE (tornAppended Crc32.checksumIEEE 1).file = .error .truncatedBody ∧
      ¬ AppendSafe Crc32.checksumIEEE [0x4D] {} :=
  ⟨by decide, rfl, rfl, applyAll_torn 1, recover_torn (by omega) (by omega),
    not_appendSafe_torn (n := 1) (by omega) (by omega) {}⟩

end LsmTree.Disk
