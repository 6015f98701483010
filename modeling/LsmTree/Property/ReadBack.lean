import LsmTree.Engine.Limits
import LsmTree.Property.LogRecovery
import LsmTree.Property.ManifestPrefixes

/-!
# Lists and bytes

Where nothing exceeds its field, manifest and logs are read back from their bytes as the lists that
the engine's directory has for them (`DataDir.Fits.readBack`).
-/

namespace LsmTree

variable {crc : Bytes → UInt32} {d : DataDir} {edit : VersionEdit} {record : List WALEntry}

/-- The file of the manifest is read back as its edits, and every log, whichever calls wrote its
records and wherever it is cut off, as its first records. -/
structure DataDir.ReadBack (crc : Bytes → UInt32) (d : DataDir) : Prop where
  manifest : Disk.recover crc (Disk.manifestFile crc (d.edits.map VersionEdit.raw)) =
    .ok (recoverVersion d.edits, true)
  logs : ∀ id calls n, List.Forall₂ Log.Writes calls (d.log id) →
    Log.recoverWAL crc ((Log.written crc calls).take n) =
      (recoverWAL ((d.log id).take (Log.contained crc calls n))).map Log.rawEntry

theorem EditFits.inRange (h : EditFits edit) : edit.InRange := by
  obtain ⟨h1, h2, h3, h4, h5, h6, hlen⟩ := h
  rw [length_encodeVersionEdit] at hlen
  exact ⟨h1, h2, h3, by omega, by omega, h4, h5, h6⟩

theorem replay_recordsOf {edits : List VersionEdit} (h : ∀ edit ∈ edits, EditFits edit)
    (v : Version) :
    Disk.replay crc true v (Disk.recordsOf crc (edits.map VersionEdit.raw)) =
      .ok (edits.foldl Version.recoverEdit v) := by
  induction edits generalizing v with
  | nil => exact Disk.replay_nil true v
  | cons edit edits ih =>
    obtain ⟨hedit, hrest⟩ := List.forall_mem_cons.1 h
    have hrange := hedit.inRange
    have hlen : (encodeRawEdit edit.raw).length < 2 ^ 32 := by
      rw [← encodeVersionEdit_raw (hrange.level.trans (by decide))]
      exact hedit.2.2.2.2.2.2
    rw [List.map_cons, Disk.recordsOf, List.flatMap_cons, Disk.replay_rawRecord hrange.raw hlen,
      Disk.foldEdit_raw hrange]
    exact ih hrest _

theorem writes_fits {c : AppendCall} (h : Log.Writes c record)
    (hfits : RecordFits record) : c.Fits := by
  obtain ⟨hcount, hentries⟩ := hfits
  have hentry : ∀ x ∈ c.entries, ∃ w ∈ record, Log.rawEntry w = x := fun x hx =>
    List.mem_map.1 (h ▸ hx)
  cases c with
  | entry x =>
    obtain ⟨w, hw, rfl⟩ := hentry x (List.mem_singleton_self x)
    have hlen := (hentries w hw).2
    refine ⟨?_, ?_⟩
    · simp only [Log.rawEntry]
      cases w.type <;> simp [entrySet, entryDelete, entryBatch]
    · constructor <;> simp only [Log.rawEntry] <;> omega
  | batch es =>
    have hcard : es.length = record.length := (congrArg List.length h).trans (List.length_map _)
    refine ⟨hcard.trans_lt hcount, fun x hx => ?_⟩
    obtain ⟨w, hw, rfl⟩ := hentry x hx
    rw [length_encodeEntry]
    exact (hentries w hw).2

/-- **Bytes and lists agree** where everything fits. -/
theorem DataDir.Fits.readBack (h : d.Fits) (crc : Bytes → UInt32) : d.ReadBack crc where
  manifest := by
    rw [Disk.manifestFile, Disk.recover_magic, replay_recordsOf h.1]
    rfl
  logs id calls n hwrites := by
    have hrecords : ∀ record ∈ d.log id, RecordFits record := by
      by_cases hid : id ∈ d.logs.keys
      · exact h.2 id hid
      · have hnone : d.log id = [] := by rw [DataDir.log, AList.lookup_eq_none.2 hid]; rfl
        rw [hnone]
        exact fun _ hr => by cases hr
    have hcalls : ∀ c ∈ calls, c.Fits := by
      clear n
      generalize d.log id = records at hwrites hrecords
      induction hwrites with
      | nil => exact fun _ hc => by cases hc
      | cons hc _ ih =>
        obtain ⟨hfits, hrest⟩ := List.forall_mem_cons.1 hrecords
        exact List.forall_mem_cons.2 ⟨writes_fits hc hfits, ih hrest⟩
    exact Log.recoverWAL_refines crc hwrites hcalls n

end LsmTree
