import Nachos.Filesys.Accounting

/-!
# Creating a file

When `FileSystem::Create` succeeds, and what is on the disk afterwards.

* `found_of_adds` — the new name is found, with its header.
* `create_iff` — it succeeds exactly if there is room; otherwise nothing changes.
-/

set_option autoImplicit false

namespace Nachos

namespace FileSystem

open CString

/-- `name` is found: its header has `size` bytes, and it and the sectors that it names were free in
`freeMap`. -/
def Found (fs : FileSystem) (freeMap : BitMap) (name : List Byte) (size : Word) : Prop :=
  ∀ junk, ∃ table hdr, fs.fetchDirectory junk = some table ∧ Directory.find table name ≠ -1 ∧
    FileHeader.fetchFrom fs.disk (Directory.find table name) = some hdr ∧ hdr.numBytes = size ∧
    hdr.Covers hdr.sectors ∧ ((Directory.find table name).toNat :: hdr.sectors).Nodup ∧
    ∀ u ∈ (Directory.find table name).toNat :: hdr.sectors, u < NumSectors ∧ freeMap.bit u = false

variable {fs fs' : FileSystem} {freeMap freeMap' : BitMap} {table table' : Buffer} {owned owned' : Nat → List Nat}
  {owner owner' : Nat → Option Nat}

/-- **A new entry is found**, by whoever fetches the directory. -/
theorem found_of_adds {name : List Byte} {size i s : Nat} {hdr : FileHeader} (h : Consistent fs freeMap table owned owner)
    (hc : Consistent fs' freeMap' table' owned' owner')
    (hfresh : ∀ j < NumDirEntries, ¬ Directory.Matches table name j)
    (hadds : Adds fs fs' freeMap freeMap' table table' name size i s hdr) :
    Found fs' freeMap name (BitVec.ofNat 32 size) := by
  intro junk
  obtain ⟨t, ht, hagree⟩ := fetchDirectory_eq hc.layout hc.storesTable junk
  have hentry : ∀ j < NumDirEntries, Directory.SameEntry table' t j := fun j hj => sameEntry_of_agree hagree hj
  have hother : ∀ j < NumDirEntries, j ≠ i → ¬ Directory.Matches t name j := by
    intro j hj hji
    rw [(hentry j hj).matches_iff, (hadds.same.entries j hj hji).matches_iff]
    exact hfresh j hj
  have hindex : Directory.findIndex t name = some i :=
    Directory.findIndex_unique hadds.lt ((hentry i hadds.lt).matches_iff.2 hadds.new) hother
  have hfind : Directory.find t name = BitVec.ofNat 32 s := by
    rw [Directory.find, hindex]
    exact (hentry i hadds.lt).sector_eq.trans hadds.sector
  have hfree : ∀ u ∈ s :: hdr.sectors, u < NumSectors ∧ freeMap.bit u = false := by
    rw [← h.storesMap.numBits]
    exact hadds.taken.free
  have hlt := (hfree s List.mem_cons_self).1
  have h1024 : NumSectors = 1024 := rfl
  have hnat : (BitVec.ofNat 32 s).toNat = s := CInt.toNat_ofNat (by omega)
  refine ⟨t, hdr, ht, ?_, ?_, hadds.numBytes, hadds.covers, ?_, ?_⟩
  · rw [Ne, (hc.congr_table hagree).find_eq, hindex]
    exact Option.some_ne_none i
  · rw [hfind, FileHeader.fetchFrom_eq _ hlt, hadds.onDisk]
  · rw [hfind, hnat]
    exact hadds.taken.nodup
  · rw [hfind, hnat]
    exact hfree

/-- **`Create` succeeds exactly if there is room**, on every consistent disk, for every name and every size of a
file: then the name is found, with a header of that length whose sectors were free; otherwise the disk
is unchanged. -/
theorem create_iff (h : Consistent fs freeMap table owned owner) (junk : Nat → Buffer) (name : List Byte)
    {size : Word} (h0 : 0 ≤ size.toInt) (h1 : size.toInt ≤ MaxFileSize) :
    ∃ success fs', create fs junk name size = some (success, fs') ∧
      (success = true ↔ CanCreate freeMap table name size.toNat) ∧
      (success = true → Found fs' freeMap name size) ∧ (success = false → fs' = fs) := by
  obtain ⟨n, hn, rfl⟩ := exists_ofNat_of_inRange h0 h1
  have hmax : MaxFileSize = 3840 := rfl
  rw [CInt.toNat_ofNat (by omega)]
  rcases create_cases h junk name hn with
    ⟨hno, hcreate⟩ | ⟨hroom, fs', freeMap', table', owned', owner', i, s, hdr, hcreate, hc, hadds⟩
  · exact ⟨false, fs, hcreate, iff_of_false Bool.false_ne_true hno, fun htrue => Bool.noConfusion htrue, fun _ => rfl⟩
  · refine ⟨true, fs', hcreate, iff_of_true rfl hroom, fun _ => found_of_adds h hc hroom.1 hadds, ?_⟩
    exact fun hfalse => Bool.noConfusion hfalse

/-- A file of 300 bytes on a fresh disk. -/
theorem create_iff_format : ∃ fs freeMap table owned owner, Consistent fs freeMap table owned owner ∧
    (0 : Int) ≤ (300 : Word).toInt ∧ (300 : Word).toInt ≤ MaxFileSize ∧
    ∃ success fs', create fs (fun _ _ => 0) [97] 300 = some (success, fs') ∧
      (success = true ↔ CanCreate freeMap table [97] (300 : Word).toNat) ∧
      (success = true → Found fs' freeMap [97] 300) ∧ (success = false → fs' = fs) := by
  obtain ⟨fs, -, freeMap, table, owned, owner, hc, -⟩ := format_spec (fun _ => 0) (fun _ _ => 0)
  have h0 : (0 : Int) ≤ (300 : Word).toInt := by decide
  have h1 : (300 : Word).toInt ≤ MaxFileSize := by decide
  exact ⟨fs, freeMap, table, owned, owner, hc, h0, h1, create_iff hc (fun _ _ => 0) [97] h0 h1⟩

end FileSystem

end Nachos
