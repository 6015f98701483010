import Mathlib.Data.List.AList
import Mathlib.Data.List.Sort
import LsmTree.Sstable.Format

/-!
# The transaction journal (`internal/cluster/txn_journal.go`)

A directory with a file `pending-<id>.json` for each transaction that may have to be undone, and for
a moment a file `committed-<id>.json` beside it.  Records go through JSON, which replaces what is
not UTF-8 (`jsonString`).  Time stamps, the entry count and the `.tmp` files that are renamed into
place, none of which is ever read, are left out.
-/

namespace LsmTree

variable {s : Bytes}

/-! ### Strings in JSON -/

def isCont (b : UInt8) : Bool := 0x80 ≤ b && b ≤ 0xBF

/-- Which second bytes may follow a first byte (`unicode/utf8`). -/
def acceptsSecond (b₀ b₁ : UInt8) : Bool :=
  if b₀ = 0xE0 then 0xA0 ≤ b₁ && b₁ ≤ 0xBF
  else if b₀ = 0xED then 0x80 ≤ b₁ && b₁ ≤ 0x9F
  else if b₀ = 0xF0 then 0x90 ≤ b₁ && b₁ ≤ 0xBF
  else if b₀ = 0xF4 then 0x80 ≤ b₁ && b₁ ≤ 0x8F
  else isCont b₁

/-- The number of bytes of the character in front, 0 if there is no well-formed one. -/
def runeLen (s : Bytes) : ℕ :=
  match s with
  | b₀ :: rest =>
    if b₀ < 0x80 then 1
    else if 0xC2 ≤ b₀ ∧ b₀ ≤ 0xDF then
      match rest with
      | b₁ :: _ => if isCont b₁ then 2 else 0
      | _ => 0
    else if 0xE0 ≤ b₀ ∧ b₀ ≤ 0xEF then
      match rest with
      | b₁ :: b₂ :: _ => if acceptsSecond b₀ b₁ && isCont b₂ then 3 else 0
      | _ => 0
    else if 0xF0 ≤ b₀ ∧ b₀ ≤ 0xF4 then
      match rest with
      | b₁ :: b₂ :: b₃ :: _ => if acceptsSecond b₀ b₁ && isCont b₂ && isCont b₃ then 4 else 0
      | _ => 0
    else 0
  | [] => 0

def runeError : Bytes := [0xEF, 0xBF, 0xBD]

/-- What `n` characters turn into. -/
def jsonChars : ℕ → Bytes → Bytes
  | 0, _ => []
  | _ + 1, [] => []
  | n + 1, b :: rest =>
    if runeLen (b :: rest) = 0 then runeError ++ jsonChars n rest
    else (b :: rest).take (runeLen (b :: rest)) ++ jsonChars n
      ((b :: rest).drop (runeLen (b :: rest)))

/-- A string after it was written to JSON and read back. -/
def jsonString (s : Bytes) : Bytes := jsonChars s.length s

/-- The next `n` characters, as far as there are any, are well-formed. -/
def validChars : ℕ → Bytes → Bool
  | 0, _ => true
  | _ + 1, [] => true
  | n + 1, b :: rest =>
    runeLen (b :: rest) != 0 && validChars n ((b :: rest).drop (runeLen (b :: rest)))

def validUTF8 (s : Bytes) : Bool := validChars s.length s

theorem jsonChars_of_valid {n : ℕ} (hn : s.length ≤ n) (h : validChars n s = true) :
    jsonChars n s = s := by
  induction n generalizing s with
  | zero =>
    rw [List.length_eq_zero_iff.1 (Nat.le_zero.1 hn)]
    rfl
  | succ n ih =>
    cases s with
    | nil => rfl
    | cons b rest =>
      rw [validChars, Bool.and_eq_true, bne_iff_ne] at h
      have hlen : ((b :: rest).drop (runeLen (b :: rest))).length ≤ n := by
        rw [List.length_drop]
        omega
      rw [jsonChars, if_neg h.1, ih hlen h.2, List.take_append_drop]

/-- **UTF-8 survives JSON.** -/
theorem jsonString_of_valid (h : validUTF8 s = true) : jsonString s = s :=
  jsonChars_of_valid le_rfl h

/-! ### Records and files -/

structure TxPreImage where
  shard : ℕ
  key : Bytes
  present : Bool
  value : Bytes := []
  deriving DecidableEq, Repr

structure TxJournalEntry where
  id : Bytes
  committed : Bool := false
  preImages : List TxPreImage
  deriving DecidableEq, Repr

inductive JournalFile
  | committed (id : Bytes)
  | pending (id : Bytes)
  deriving DecidableEq, Repr

def jsonSuffix : Bytes := [46, 106, 115, 111, 110]

/-- The order of a directory listing: `committed-<id>.json` sorts before `pending-<id>.json`. -/
def JournalFile.nameLe : JournalFile → JournalFile → Bool
  | .committed a, .committed b => decide (a ++ jsonSuffix ≤ b ++ jsonSuffix)
  | .committed _, .pending _ => true
  | .pending _, .committed _ => false
  | .pending a, .pending b => decide (a ++ jsonSuffix ≤ b ++ jsonSuffix)

abbrev TxJournalStore := AList (fun _ : JournalFile => TxJournalEntry)

def TxJournalEntry.stored (r : TxJournalEntry) : TxJournalEntry :=
  { r with
    preImages := r.preImages.map
      (fun i => { i with key := jsonString i.key, value := jsonString i.value }) }

def TxJournalEntry.file (r : TxJournalEntry) : JournalFile :=
  if r.committed then .committed r.id else .pending r.id

def TxJournalStore.save (s : TxJournalStore) (r : TxJournalEntry) : TxJournalStore :=
  s.insert r.file r.stored

def TxJournalStore.delete (s : TxJournalStore) (id : Bytes) : TxJournalStore :=
  (s.erase (.pending id)).erase (.committed id)

/-- Go through a listing that was made before.  A committed file is removed together with its
pending one; a pending file is read, which fails if it is gone. -/
def loadListed : List JournalFile → TxJournalStore → List TxJournalEntry →
    TxJournalStore × Option (List TxJournalEntry)
  | [], s, out => (s, some out)
  | .committed id :: files, s, out =>
    loadListed files ((s.erase (.pending id)).erase (.committed id)) out
  | .pending id :: files, s, out =>
    match s.lookup (.pending id) with
    | none => (s, none)
    | some r => loadListed files s (if r.id = [] then out else out ++ [r])

/-- Read the records that are pending, and clear away the committed ones. -/
def TxJournalStore.loadAll (s : TxJournalStore) : TxJournalStore × Option (List TxJournalEntry) :=
  loadListed (s.keys.insertionSort (fun a b => a.nameLe b)) s []

end LsmTree
