import LsmTree.Memtable

/-!
# Write-ahead logs (`internal/wal/wal.go`, `reader.go`, `record.go`)

A log file is the sequence of its records; a record holds one entry, or all entries of a batch.
Records are what survives a crash: recovery stops at the first torn one, so a batch is replayed as a
whole or not at all.

Replaying a log into a memtable adds its versions (`MemTable.versions_replay`), in whatever order,
provided that a stamp stands for one version only.
-/

namespace LsmTree

variable {m : MemTable}

inductive WalEntryType
  | set
  | delete
  deriving DecidableEq, Repr

structure WALEntry where
  type : WalEntryType
  key : Bytes
  value : Bytes
  seqNo : ℕ
  deriving DecidableEq, Repr

abbrev WalFile := List (List WALEntry)

def recoverWAL (f : WalFile) : List WALEntry := f.flatten

/-- Apply a log entry to a memtable: `Put` for a set, `Delete` for a delete. -/
def MemTable.apply (m : MemTable) (w : WALEntry) : MemTable :=
  match w.type with
  | .set => m.put w.key w.value w.seqNo
  | .delete => m.delete w.key w.seqNo

def MemTable.replay (m : MemTable) (ws : List WALEntry) : MemTable := ws.foldl MemTable.apply m

def WALEntry.toEntry (w : WALEntry) : Entry :=
  match w.type with
  | .set => ⟨⟨w.key, w.seqNo, .value⟩, w.value⟩
  | .delete => ⟨⟨w.key, w.seqNo, .deletion⟩, []⟩

/-- The log entry that `rewriteMemtableToWAL` writes for a memtable entry. -/
def Entry.toWAL (e : Entry) : WALEntry :=
  { type := match e.key.type with
      | .deletion => .delete
      | .value => .set
    key := e.key.userKey
    value := e.value
    seqNo := e.key.seqNo }

def Entry.Wf (e : Entry) : Prop := e.key.type = .deletion → e.value = []

@[simp] theorem WALEntry.toEntry_userKey (w : WALEntry) : w.toEntry.key.userKey = w.key := by
  unfold WALEntry.toEntry; cases w.type <;> rfl

@[simp] theorem WALEntry.toEntry_seqNo (w : WALEntry) : w.toEntry.key.seqNo = w.seqNo := by
  unfold WALEntry.toEntry; cases w.type <;> rfl

theorem WALEntry.toEntry_wf (w : WALEntry) : w.toEntry.Wf := by
  unfold WALEntry.toEntry Entry.Wf
  cases w.type with
  | set => intro h; cases h
  | delete => intro _; rfl

theorem Entry.Wf.toEntry_toWAL {e : Entry} (h : e.Wf) : e.toWAL.toEntry = e := by
  obtain ⟨⟨k, s, t⟩, v⟩ := e
  cases t with
  | value => rfl
  | deletion =>
    have hv : v = [] := h rfl
    rw [hv]
    rfl

theorem MemTable.apply_entries (m : MemTable) (w : WALEntry) :
    (m.apply w).entries = insertNode w.toEntry.key w.toEntry.value m.entries := by
  obtain ⟨t, k, v, s⟩ := w
  cases t <;> rfl

@[simp] theorem MemTable.replay_nil (m : MemTable) : m.replay [] = m := rfl

@[simp] theorem MemTable.replay_cons (m : MemTable) (w : WALEntry) (ws : List WALEntry) :
    m.replay (w :: ws) = (m.apply w).replay ws := rfl

theorem MemTable.replay_append (m : MemTable) (ws ws' : List WALEntry) :
    m.replay (ws ++ ws') = (m.replay ws).replay ws' := by
  simp [MemTable.replay, List.foldl_append]

/-- The versions a list of log entries stands for. -/
def walVersions (ws : List WALEntry) : Set Entry := {e | ∃ w ∈ ws, w.toEntry = e}

@[simp] theorem walVersions_nil : walVersions [] = ∅ := by
  ext e; simp [walVersions]

@[simp] theorem walVersions_cons (w : WALEntry) (ws : List WALEntry) :
    walVersions (w :: ws) = insert w.toEntry (walVersions ws) := by
  ext e; simp [walVersions, eq_comm]

@[simp] theorem walVersions_append (ws ws' : List WALEntry) :
    walVersions (ws ++ ws') = walVersions ws ∪ walVersions ws' := by
  ext e; simp [walVersions, or_and_right, exists_or]

theorem MemTable.versions_apply {w : WALEntry}
    (h : Versioned.Agrees (insert w.toEntry m.versions)) :
    (m.apply w).versions = insert w.toEntry m.versions := by
  ext e
  change e ∈ (m.apply w).entries ↔ _
  rw [MemTable.apply_entries, mem_insertNode]
  · rw [Set.mem_insert_iff, or_comm]
    rfl
  · intro y hy heq
    obtain ⟨hk, hs⟩ := InternalKey.equal_iff.1 heq
    exact h y (Set.mem_insert_of_mem _ hy) w.toEntry (Set.mem_insert _ _) hk hs

theorem MemTable.versions_replay {ws : List WALEntry}
    (h : Versioned.Agrees (m.versions ∪ walVersions ws)) :
    (m.replay ws).versions = m.versions ∪ walVersions ws := by
  induction ws generalizing m with
  | nil => simp
  | cons w ws ih =>
    have hset : m.versions ∪ walVersions (w :: ws) =
        insert w.toEntry m.versions ∪ walVersions ws := by
      rw [walVersions_cons, Set.union_insert, Set.insert_union]
    rw [hset] at h ⊢
    have h1 : (m.apply w).versions = insert w.toEntry m.versions :=
      MemTable.versions_apply (h.mono Set.subset_union_left)
    rw [MemTable.replay_cons, ih (by rw [h1]; exact h), h1]

end LsmTree
