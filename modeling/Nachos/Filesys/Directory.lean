import Nachos.Lib.CString
import Nachos.Filesys.OpenFile

/-!
# Directories

`Directory` of `filesys/directory.cc`.  A table is the memory of its entries, each of
`sizeof(DirectoryEntry) = 60` bytes: `inUse` at 0, `sector` at 4, `name` at 8.  A file name is
the list of bytes in front of the terminating zero byte, or any longer list.

* `add_eq_none_iff` — when there is no room for a name.
* `add_spec`, `remove_spec` — one entry is changed, the others are as before.
-/

set_option autoImplicit false

namespace Nachos

open CString

def FileNameMaxLen : Nat := 50
def NumDirEntries : Nat := 10
def DirectoryEntrySize : Nat := 60

namespace Directory

def inUse (table : Buffer) (i : Nat) : Bool := table (DirectoryEntrySize * i) != 0

def sector (table : Buffer) (i : Nat) : Word := Bytes.wordAt table (DirectoryEntrySize * i + 4)

def name (table : Buffer) (i : Nat) : Buffer := fun k => table (DirectoryEntrySize * i + 8 + k)

def setInUse (table : Buffer) (i : Nat) (b : Byte) : Buffer :=
  Function.update table (DirectoryEntrySize * i) b

/-- `Directory::Directory(NumDirEntries)`. -/
def init (junk : Buffer) : Buffer := (List.range NumDirEntries).foldl (fun t i => setInUse t i 0) junk

/-- `Directory::FetchFrom`. -/
def fetchFrom (table : Buffer) (disk : Disk) (file : OpenFile) (junk : Buffer) : Option Buffer :=
  (OpenFile.readAt disk file.hdr junk table 0
    (BitVec.ofNat 32 (NumDirEntries * DirectoryEntrySize)) 0).map (·.2)

/-- `Directory::WriteBack`. -/
def writeBack (table : Buffer) (disk : Disk) (file : OpenFile) (junk : Nat → Buffer) : Option Disk :=
  (OpenFile.writeAt disk file.hdr junk table
    (BitVec.ofNat 32 (NumDirEntries * DirectoryEntrySize)) 0).map (·.2)

/-- `Directory::FindIndex`; `none` is -1. -/
def findIndex (table : Buffer) (file : List Byte) : Option Nat :=
  (List.range NumDirEntries).find? (fun i =>
    inUse table i && strncmp (name table i) (cstring file) 0 FileNameMaxLen)

/-- `Directory::Find`. -/
def find (table : Buffer) (file : List Byte) : Word :=
  match findIndex table file with
  | some i => sector table i
  | none => -1

/-- `Directory::Add`; `none` is `FALSE`, with the table as before. -/
def add (table : Buffer) (file : List Byte) (newSector : Word) : Option Buffer :=
  if findIndex table file ≠ none then none
  else
    match (List.range NumDirEntries).find? (fun i => !inUse table i) with
    | none => none
    | some i =>
      let table := setInUse table i 1
      -- `strncpy` pads with zeros, as `cstring` does
      let table := Bytes.copy (cstring file) 0 table (DirectoryEntrySize * i + 8) FileNameMaxLen
      some (Bytes.copy (Bytes.ofWords [newSector]) 0 table (DirectoryEntrySize * i + 4) 4)

/-- `Directory::Remove`; `none` is `FALSE`, with the table as before. -/
def remove (table : Buffer) (file : List Byte) : Option Buffer :=
  (findIndex table file).map (fun i => setInUse table i 0)

end Directory

/-! ## Entries -/

namespace Directory

variable {t t' : Buffer} {i : Nat} {file : List Byte}

/-- Entry `i` of the two tables is the same. -/
def SameEntry (t t' : Buffer) (i : Nat) : Prop :=
  ∀ k < DirectoryEntrySize, t' (DirectoryEntrySize * i + k) = t (DirectoryEntrySize * i + k)

namespace SameEntry

theorem inUse_eq (h : SameEntry t t' i) : inUse t' i = inUse t i := by
  have := h 0 (by decide)
  rw [Nat.add_zero] at this
  rw [inUse, inUse, this]

theorem sector_eq (h : SameEntry t t' i) : sector t' i = sector t i := by
  apply Bytes.wordAt_congr
  intro k hk
  rw [Nat.add_assoc]
  apply h (4 + k)
  rw [DirectoryEntrySize]
  omega

theorem name_eq (h : SameEntry t t' i) {k : Nat} (hk : k < FileNameMaxLen) : name t' i k = name t i k := by
  rw [name, name, Nat.add_assoc]
  apply h (8 + k)
  rw [DirectoryEntrySize, FileNameMaxLen] at *
  omega

theorem trans {t'' : Buffer} (h : SameEntry t t' i) (h' : SameEntry t' t'' i) : SameEntry t t'' i := by
  intro k hk
  rw [h' k hk, h k hk]

end SameEntry

theorem setInUse_self (t : Buffer) (i : Nat) (b : Byte) : inUse (setInUse t i b) i = (b != 0) := by
  rw [inUse, setInUse, Function.update_self]

theorem setInUse_of_ne (t : Buffer) {i j : Nat} (b : Byte) (h : j ≠ i) : SameEntry t (setInUse t i b) j := by
  intro k hk
  rw [setInUse, Function.update_of_ne]
  rw [DirectoryEntrySize] at *
  omega

/-- A new directory is empty, whatever its memory held. -/
theorem inUse_init (junk : Buffer) {i : Nat} (hi : i < NumDirEntries) : inUse (init junk) i = false := by
  have hfold : ∀ (l : List Nat) (t : Buffer), inUse (l.foldl (fun t i => setInUse t i 0) t) i =
      if i ∈ l then false else inUse t i := by
    intro l
    induction l with
    | nil => simp
    | cons j l ih =>
      intro t
      rw [List.foldl_cons, ih]
      by_cases hij : i = j
      · subst hij
        simp [setInUse_self]
      · rw [(setInUse_of_ne t 0 hij).inUse_eq]
        simp [hij]
  rw [init, hfold, if_pos (List.mem_range.2 hi)]

theorem findIndex_some (h : findIndex t file = some i) :
    i < NumDirEntries ∧ inUse t i = true ∧ strncmp (name t i) (cstring file) 0 FileNameMaxLen = true := by
  have hp := List.find?_some h
  have hmem := List.mem_of_find?_eq_some h
  rw [Bool.and_eq_true] at hp
  exact ⟨List.mem_range.1 hmem, hp⟩

theorem findIndex_none (h : findIndex t file = none) (hi : i < NumDirEntries) (hu : inUse t i = true) :
    strncmp (name t i) (cstring file) 0 FileNameMaxLen = false := by
  have hall := List.find?_eq_none.1 h i (List.mem_range.2 hi)
  simpa [hu] using hall

/-- Entry `i` is in use under the name `file`, as far as `strncmp` compares it. -/
def Matches (t : Buffer) (file : List Byte) (i : Nat) : Prop :=
  inUse t i = true ∧ strncmp (name t i) (cstring file) 0 FileNameMaxLen = true

theorem findIndex_eq_none_iff : findIndex t file = none ↔ ∀ i < NumDirEntries, ¬ Matches t file i := by
  rw [findIndex, List.find?_eq_none]
  simp only [List.mem_range, Bool.and_eq_true]
  exact Iff.rfl

/-- The only entry of that name is found. -/
theorem findIndex_unique (hi : i < NumDirEntries) (h : Matches t file i)
    (hother : ∀ j < NumDirEntries, j ≠ i → ¬ Matches t file j) : findIndex t file = some i := by
  cases hf : findIndex t file with
  | none => exact absurd h (findIndex_eq_none_iff.1 hf i hi)
  | some j =>
    obtain ⟨hj, hmatch⟩ := findIndex_some hf
    by_contra hne
    exact hother j hj (fun hji => hne (congrArg some hji)) hmatch

theorem SameEntry.matches_iff (h : SameEntry t t' i) : Matches t' file i ↔ Matches t file i := by
  have hname := strncmp_congr (n := FileNameMaxLen) (fun k hk => h.name_eq hk)
    (fun k _ => (rfl : cstring file k = cstring file k))
  rw [Matches, Matches, h.inUse_eq, hname]

/-- **`Add`** fails if the name is there, or no entry is free. -/
theorem add_eq_none_iff {newSector : Word} :
    add t file newSector = none ↔
      (∃ i < NumDirEntries, Matches t file i) ∨ ∀ i < NumDirEntries, inUse t i = true := by
  have hnone : (∃ i < NumDirEntries, Matches t file i) ↔ findIndex t file ≠ none := by
    rw [Ne, findIndex_eq_none_iff]
    push Not
    exact Iff.rfl
  have hfull : (List.range NumDirEntries).find? (fun i => !inUse t i) = none ↔
      ∀ i < NumDirEntries, inUse t i = true := by
    rw [List.find?_eq_none]
    simp only [List.mem_range, Bool.not_eq_true', Bool.not_eq_false]
  rw [hnone, ← hfull, add]
  split
  · rename_i hfound
    exact iff_of_true rfl (.inl hfound)
  · rename_i hnew
    rw [or_iff_right hnew]
    split
    · rename_i hnofree
      exact iff_of_true rfl hnofree
    · rename_i i hfree
      rw [hfree]
      exact iff_of_false nofun nofun

/-- **`Add`** fills one free entry. -/
theorem add_spec {newSector : Word} (h : add t file newSector = some t') :
    findIndex t file = none ∧ ∃ i < NumDirEntries, inUse t i = false ∧ inUse t' i = true ∧
      sector t' i = newSector ∧ (∀ k < FileNameMaxLen, name t' i k = cstring file k) ∧
      ∀ j, j ≠ i → SameEntry t t' j := by
  unfold add at h
  split at h
  · cases h
  · rename_i hnone
    rw [not_not] at hnone
    refine ⟨hnone, ?_⟩
    split at h
    · cases h
    · rename_i i hfree
      cases h
      have hlt := List.mem_range.1 (List.mem_of_find?_eq_some hfree)
      have hfree := List.find?_some hfree
      have hsec := Bytes.overlay_copy (Bytes.ofWords [newSector]) 0
        (Bytes.copy (cstring file) 0 (setInUse t i 1) (DirectoryEntrySize * i + 8) FileNameMaxLen)
        (DirectoryEntrySize * i + 4) 4
      have hname := Bytes.overlay_copy (cstring file) 0 (setInUse t i 1) (DirectoryEntrySize * i + 8)
        FileNameMaxLen
      refine ⟨i, hlt, by simpa using hfree, ?_, ?_, ?_, ?_⟩
      · rw [inUse, hsec.outside, hname.outside]
        · exact setInUse_self t i 1
        · rintro ⟨h1, -⟩
          omega
        · rintro ⟨h1, -⟩
          omega
      · refine (Bytes.wordAt_congr ?_).trans (Bytes.wordAt_ofWords [newSector] 0)
        intro k hk
        rw [hsec.inside _ ⟨by omega, by omega⟩]
        congr 1
        omega
      · intro k hk
        rw [name, hsec.outside, hname.inside]
        · congr 1
          omega
        · exact ⟨by omega, by omega⟩
        · rintro ⟨-, h2⟩
          omega
      · intro j hj k hk
        rw [hsec.outside, hname.outside]
        · exact setInUse_of_ne t 1 hj k hk
        · rintro ⟨h1, h2⟩
          rw [DirectoryEntrySize, FileNameMaxLen] at *
          omega
        · rintro ⟨h1, h2⟩
          rw [DirectoryEntrySize] at *
          omega

/-- **`Remove`** frees the entry that `FindIndex` finds. -/
theorem remove_spec (h : findIndex t file = some i) :
    remove t file = some (setInUse t i 0) ∧ inUse (setInUse t i 0) i = false ∧
      ∀ j, j ≠ i → SameEntry t (setInUse t i 0) j := by
  refine ⟨by rw [remove, h, Option.map_some], setInUse_self t i 0, ?_⟩
  intro j hj
  exact setInUse_of_ne t 0 hj

end Directory

end Nachos
