import Nachos.Lib.Queues
import Nachos.Lib.Transition
import Nachos.Filesys.FileSystem

/-!
# Disk space accounting

A formatted disk and any sequence of `Create` and `Remove`.  The sectors form a family of lists
with exclusive ownership (`Queues.Homed`): list `i` belongs to directory entry `i`, and the list
at `NumDirEntries` to the file system itself.  The free map marks the owned sectors.

* `create_spec`, `remove_spec` — one call keeps the disk consistent, changes one directory entry at
  most, and fails no assertion.
* `format_spec` — a formatted disk is consistent.
* `disk_accounting` — every run.
-/

set_option autoImplicit false

namespace Nachos

namespace FileSystem

open Transition Queues CString

/-- The header sector and the data sectors of the file with header in sector `s`. -/
def fileSectors (disk : Disk) (s : Nat) : List Nat := s :: (FileHeader.onDisk disk s).sectors

/-- Sectors 0 and 1 and the data sectors of the free-map file and of the directory file. -/
def systemSectors (fs : FileSystem) : List Nat :=
  [0, 1] ++ fs.freeMapFile.hdr.sectors ++ fs.directoryFile.hdr.sectors

/-- The disk is consistent: `owned i` are the sectors of directory entry `i`. -/
structure Consistent (fs : FileSystem) (freeMap : BitMap) (table : Buffer) (owned : Nat → List Nat)
    (owner : Nat → Option Nat) : Prop where
  layout : Layout fs
  mapOnDisk : FileHeader.onDisk fs.disk 0 = fs.freeMapFile.hdr
  dirOnDisk : FileHeader.onDisk fs.disk 1 = fs.directoryFile.hdr
  storesMap : StoresMap fs freeMap
  storesTable : StoresTable fs table
  homed : Homed owned owner
  system : owned NumDirEntries = fs.systemSectors
  used : ∀ i < NumDirEntries, Directory.inUse table i = true →
    owned i = fileSectors fs.disk (Directory.sector table i).toNat
  unused : ∀ i < NumDirEntries, Directory.inUse table i = false → owned i = []
  beyond : ∀ i, NumDirEntries < i → owned i = []
  numSectors : ∀ i < NumDirEntries, Directory.inUse table i = true →
    (FileHeader.onDisk fs.disk (Directory.sector table i).toNat).numSectors.toNat ≤ NumDirect
  bits : ∀ s, s < NumSectors ∧ freeMap.bit s = true ↔ owner s ≠ none
  names : ∀ i < NumDirEntries, ∀ j < NumDirEntries, i ≠ j → Directory.inUse table i = true →
    Directory.inUse table j = true →
    strncmp (Directory.name table i) (Directory.name table j) 0 FileNameMaxLen = false

variable {fs : FileSystem} {freeMap : BitMap} {table : Buffer} {owned : Nat → List Nat}
  {owner : Nat → Option Nat}

/-- Directories that agree on the bytes of the directory file. -/
theorem sameEntry_of_agree {t : Buffer} (ht : ∀ k < DirectoryFileSize, t k = table k) {i : Nat}
    (hi : i < NumDirEntries) : Directory.SameEntry table t i := by
  intro k hk
  apply ht
  simp only [DirectoryFileSize, DirectoryEntrySize, NumDirEntries] at *
  omega

namespace Consistent

theorem lt (h : Consistent fs freeMap table owned owner) {i s : Nat} (hs : s ∈ owned i) : s < NumSectors :=
  ((h.bits s).2 (by rw [(h.homed.mem i s).1 hs]; simp)).1

theorem marked (h : Consistent fs freeMap table owned owner) {i s : Nat} (hs : s ∈ owned i) :
    freeMap.bit s = true :=
  ((h.bits s).2 (by rw [(h.homed.mem i s).1 hs]; simp)).2

theorem free (h : Consistent fs freeMap table owned owner) {s : Nat} (hs : freeMap.bit s = false) :
    owner s = none := by
  by_contra hne
  have := ((h.bits s).2 hne).2
  rw [hs] at this
  cases this

/-- Two owners share no sector. -/
theorem ne_of_mem (h : Consistent fs freeMap table owned owner) {i j s u : Nat} (hij : i ≠ j)
    (hs : s ∈ owned i) (hu : u ∈ owned j) : s ≠ u := by
  rintro rfl
  have h1 := (h.homed.mem i s).1 hs
  rw [(h.homed.mem j s).1 hu] at h1
  cases h1
  exact hij rfl

theorem sector_mem (h : Consistent fs freeMap table owned owner) {i : Nat} (hi : i < NumDirEntries)
    (hu : Directory.inUse table i = true) : (Directory.sector table i).toNat ∈ owned i := by
  rw [h.used i hi hu]
  exact List.mem_cons_self

/-- Only the bytes of the directory file matter. -/
theorem congr_table (h : Consistent fs freeMap table owned owner) {t : Buffer}
    (ht : ∀ k < DirectoryFileSize, t k = table k) : Consistent fs freeMap t owned owner := by
  have hsame : ∀ i < NumDirEntries, Directory.SameEntry table t i := fun i hi => sameEntry_of_agree ht hi
  have hname : ∀ i < NumDirEntries, ∀ k < FileNameMaxLen,
      Directory.name t i k = Directory.name table i k := fun i hi k hk => (hsame i hi).name_eq hk
  refine ⟨h.layout, h.mapOnDisk, h.dirOnDisk, h.storesMap, ?_, h.homed, h.system, ?_, ?_, h.beyond, ?_,
    h.bits, ?_⟩
  · intro k hk
    rw [h.storesTable k hk, ht k hk]
  · intro i hi hu
    rw [(hsame i hi).inUse_eq] at hu
    rw [(hsame i hi).sector_eq]
    exact h.used i hi hu
  · intro i hi hu
    rw [(hsame i hi).inUse_eq] at hu
    exact h.unused i hi hu
  · intro i hi hu
    rw [(hsame i hi).inUse_eq] at hu
    rw [(hsame i hi).sector_eq]
    exact h.numSectors i hi hu
  · intro i hi j hj hij hui huj
    rw [(hsame i hi).inUse_eq] at hui
    rw [(hsame j hj).inUse_eq] at huj
    rw [strncmp_congr (hname i hi) (hname j hj)]
    exact h.names i hi j hj hij hui huj

/-- `Find` answers -1 exactly when `FindIndex` does. -/
theorem find_eq (h : Consistent fs freeMap table owned owner) (file : List Byte) :
    Directory.find table file = -1 ↔ Directory.findIndex table file = none := by
  unfold Directory.find
  cases hf : Directory.findIndex table file with
  | none => simp
  | some i =>
    obtain ⟨hi, hu, -⟩ := Directory.findIndex_some hf
    have hlt := h.lt (h.sector_mem hi hu)
    simp only [reduceCtorEq, iff_false]
    intro heq
    rw [heq] at hlt
    exact absurd hlt (by decide)

/-- The data sectors of the two system files. -/
theorem map_mem (h : Consistent fs freeMap table owned owner) {s : Nat}
    (hs : s ∈ fs.freeMapFile.hdr.sectors) : s ∈ owned NumDirEntries := by
  rw [h.system, systemSectors]
  simp [hs]

theorem dir_mem (h : Consistent fs freeMap table owned owner) {s : Nat}
    (hs : s ∈ fs.directoryFile.hdr.sectors) : s ∈ owned NumDirEntries := by
  rw [h.system, systemSectors]
  simp [hs]

/-- A header in a sector that is not written. -/
theorem onDisk_frame {disk : Disk} {ss : List Nat} {u : Nat}
    (hd : ∀ a, a / SectorSize ∉ ss → disk a = fs.disk a) (hu : u ∉ ss) :
    FileHeader.onDisk disk u = FileHeader.onDisk fs.disk u := by
  apply FileHeader.onDisk_congr
  intro a ha
  apply hd
  rw [ha]
  exact hu

/-- The sectors that storing the map and the directory changes are not header sectors. -/
theorem header_not_stored (h : Consistent fs freeMap table owned owner) {u : Nat}
    (hu : u = 0 ∨ u = 1 ∨ ∃ i < NumDirEntries, u ∈ owned i) :
    u ∉ fs.freeMapFile.hdr.sectors ++ fs.directoryFile.hdr.sectors := by
  intro hmem
  have hstore : u ∈ owned NumDirEntries := by
    rcases List.mem_append.1 hmem with hm | hm
    · exact h.map_mem hm
    · exact h.dir_mem hm
  have hnd := h.homed.nodup NumDirEntries
  rw [h.system, systemSectors, List.append_assoc] at hnd
  have hdisj := (List.nodup_append.1 hnd).2.2
  rcases hu with rfl | rfl | ⟨i, hi, hu⟩
  · exact hdisj 0 (by simp) 0 hmem rfl
  · exact hdisj 1 (by simp) 1 hmem rfl
  · exact h.ne_of_mem (Nat.ne_of_lt hi) hu hstore rfl

/-- Headers stay as they are when free sectors are written, and the map and the directory stored. -/
theorem header_kept (h : Consistent fs freeMap table owned owner) {disk : Disk} (ss : List Nat)
    (hfree : ∀ s ∈ ss, owner s = none)
    (hdisk : ∀ a, a / SectorSize ∉ ss ++ (fs.freeMapFile.hdr.sectors ++ fs.directoryFile.hdr.sectors) →
      disk a = fs.disk a) {u : Nat} (hu : u = 0 ∨ u = 1 ∨ ∃ i < NumDirEntries, u ∈ owned i) :
    FileHeader.onDisk disk u = FileHeader.onDisk fs.disk u := by
  apply onDisk_frame hdisk
  intro hmem
  rcases List.mem_append.1 hmem with hmem | hmem
  · have hs := hfree u hmem
    rcases hu with rfl | rfl | ⟨j, -, hj⟩
    · rw [(h.homed.mem NumDirEntries 0).1 (by rw [h.system, systemSectors]; simp)] at hs
      cases hs
    · rw [(h.homed.mem NumDirEntries 1).1 (by rw [h.system, systemSectors]; simp)] at hs
      cases hs
    · rw [(h.homed.mem j u).1 hj] at hs
      cases hs
  · exact h.header_not_stored hu hmem

end Consistent

/-- The directory entries other than `i` are as before, and so are the headers they name. -/
structure SameFiles (fs fs' : FileSystem) (table table' : Buffer) (i : Nat) : Prop where
  entries : ∀ j < NumDirEntries, j ≠ i → Directory.SameEntry table table' j
  headers : ∀ j < NumDirEntries, j ≠ i → Directory.inUse table j = true →
    FileHeader.onDisk fs'.disk (Directory.sector table j).toNat =
      FileHeader.onDisk fs.disk (Directory.sector table j).toNat

/-- Both files stored, one after the other, in either order. -/
theorem store_both (hl : Layout fs) (hnum : freeMap.numBits = NumSectors) (t : Buffer)
    (junk junk' : Nat → Buffer) :
    (∃ disk disk', Directory.writeBack t fs.disk fs.directoryFile junk = some disk ∧
      freeMap.writeBack disk fs.freeMapFile junk' = some disk' ∧
      StoresMap { fs with disk := disk' } freeMap ∧ StoresTable { fs with disk := disk' } t ∧
      ∀ a, a / SectorSize ∉ fs.freeMapFile.hdr.sectors ++ fs.directoryFile.hdr.sectors → disk' a = fs.disk a) ∧
    (∃ disk disk', freeMap.writeBack fs.disk fs.freeMapFile junk = some disk ∧
      Directory.writeBack t disk fs.directoryFile junk' = some disk' ∧
      StoresMap { fs with disk := disk' } freeMap ∧ StoresTable { fs with disk := disk' } t ∧
      ∀ a, a / SectorSize ∉ fs.freeMapFile.hdr.sectors ++ fs.directoryFile.hdr.sectors → disk' a = fs.disk a) := by
  have hframe : ∀ {disk disk' : Disk} {ss rr : List Nat},
      (∀ a, a / SectorSize ∉ ss → disk a = fs.disk a) → (∀ a, a / SectorSize ∉ rr → disk' a = disk a) →
      ∀ a, a / SectorSize ∉ ss → a / SectorSize ∉ rr → disk' a = fs.disk a := by
    intro disk disk' ss rr h1 h2 a ha hb
    rw [h2 a hb, h1 a ha]
  constructor
  · obtain ⟨disk, hw1, ht, hf1⟩ := writeDirectory_spec hl t junk
    obtain ⟨disk', hw2, hm, hf2⟩ := writeFreeMap_spec (hl.setDisk disk) hnum junk'
    refine ⟨disk, disk', hw1, hw2, hm, ?_, ?_⟩
    · exact ht.frame (fun a ha => hf2 a (hl.disjoint _ ha))
    · intro a ha
      rw [List.mem_append, not_or] at ha
      exact hframe hf1 hf2 a ha.2 ha.1
  · obtain ⟨disk, hw1, hm, hf1⟩ := writeFreeMap_spec hl hnum junk
    obtain ⟨disk', hw2, ht, hf2⟩ := writeDirectory_spec (hl.setDisk disk) t junk'
    refine ⟨disk, disk', hw1, hw2, ?_, ht, ?_⟩
    · exact hm.frame (fun a ha => hf2 a (fun hd => hl.disjoint _ hd ha))
    · intro a ha
      rw [List.mem_append, not_or] at ha
      exact hframe hf1 hf2 a ha.1 ha.2

/-! ## Create -/

/-- A header that `Allocate` has filled in covers its bytes. -/
theorem covers_allocated {h : FileHeader} {size : Nat} (hsize : size ≤ MaxFileSize)
    (hbytes : h.numBytes = BitVec.ofNat 32 size) (hlen : h.sectors.length = divRoundUp size SectorSize)
    (hlt : ∀ s ∈ h.sectors, s < NumSectors) : h.Covers h.sectors ∧ h.numBytes.toNat = size := by
  have hmax : MaxFileSize = 3840 := rfl
  have hnum : h.numBytes.toNat = size := by rw [hbytes, CInt.toNat_ofNat (by omega)]
  refine ⟨OpenFile.covers_sectors h hlt ?_, hnum⟩
  rw [hnum, hlen]
  exact le_divRoundUp_mul size (by decide)

/-- A file is added: entry `i`, with header sector `s` and the sectors of `hdr`. -/
theorem Consistent.addFile (h : Consistent fs freeMap table owned owner) {freeMap' : BitMap} {t : Buffer}
    {disk : Disk} {hdr : FileHeader} {file : List Byte} {i s : Nat} (hi : i < NumDirEntries)
    (hfree : Directory.inUse table i = false) (hnone : Directory.findIndex table file = none)
    (huse : Directory.inUse t i = true) (hsec : (Directory.sector t i).toNat = s)
    (hname : ∀ k < FileNameMaxLen, Directory.name t i k = cstring file k)
    (hsame : ∀ j, j ≠ i → Directory.SameEntry table t j)
    (htaken : freeMap.Taken (s :: hdr.sectors) freeMap') (hnum : hdr.numSectors.toNat ≤ NumDirect)
    (hhdr : FileHeader.onDisk disk s = hdr)
    (hdisk : ∀ a, a / SectorSize ∉ s :: (fs.freeMapFile.hdr.sectors ++ fs.directoryFile.hdr.sectors) →
      disk a = fs.disk a)
    (hmap : StoresMap { fs with disk := disk } freeMap') (htable : StoresTable { fs with disk := disk } t) :
    ∃ owned' owner', Consistent { fs with disk := disk } freeMap' t owned' owner' := by
  have hfresh : ∀ u ∈ s :: hdr.sectors, owner u = none := fun u hu => h.free (htaken.free u hu).2
  have hkeep : ∀ u, (u = 0 ∨ u = 1 ∨ ∃ j < NumDirEntries, u ∈ owned j) →
      FileHeader.onDisk disk u = FileHeader.onDisk fs.disk u := by
    intro u hu
    refine h.header_kept [s] ?_ hdisk hu
    intro x hx
    rw [List.mem_singleton.1 hx]
    exact hfresh s List.mem_cons_self
  -- an entry other than `i` is as before, and so is its header
  have hother : ∀ j < NumDirEntries, j ≠ i → Directory.inUse t j = true →
      Directory.inUse table j = true ∧ Directory.sector t j = Directory.sector table j ∧
      FileHeader.onDisk disk (Directory.sector t j).toNat =
        FileHeader.onDisk fs.disk (Directory.sector table j).toNat := by
    intro j hj hji hu
    rw [(hsame j hji).inUse_eq] at hu
    refine ⟨hu, (hsame j hji).sector_eq, ?_⟩
    rw [(hsame j hji).sector_eq]
    exact hkeep _ (.inr (.inr ⟨j, hj, h.sector_mem hj hu⟩))
  have hnew : ∀ j < NumDirEntries, j ≠ i → Directory.inUse t j = true →
      strncmp (Directory.name t j) (Directory.name t i) 0 FileNameMaxLen = false := by
    intro j hj hji hu
    rw [strncmp_congr (fun k hk => (hsame j hji).name_eq hk) hname]
    exact Directory.findIndex_none hnone hj (hother j hj hji hu).1
  refine ⟨_, _, h.layout.setDisk disk, ?_, ?_, hmap, htable,
    h.homed.assign (h.unused i hi hfree) htaken.nodup hfresh, ?_, ?_, ?_, ?_, ?_, ?_, ?_⟩
  · exact (hkeep 0 (.inl rfl)).trans h.mapOnDisk
  · exact (hkeep 1 (.inr (.inl rfl))).trans h.dirOnDisk
  · rw [Function.update_of_ne (Nat.ne_of_gt hi)]
    exact h.system
  · intro j hj hu
    rcases eq_or_ne j i with rfl | hji
    · rw [Function.update_self, fileSectors, hsec, hhdr]
    · obtain ⟨hu', hs', hd'⟩ := hother j hj hji hu
      rw [Function.update_of_ne hji, h.used j hj hu', fileSectors, fileSectors, hd', hs']
  · intro j hj hu
    rcases eq_or_ne j i with rfl | hji
    · rw [huse] at hu
      cases hu
    · rw [(hsame j hji).inUse_eq] at hu
      rw [Function.update_of_ne hji]
      exact h.unused j hj hu
  · intro j hj
    rw [Function.update_of_ne (by omega)]
    exact h.beyond j hj
  · intro j hj hu
    rcases eq_or_ne j i with rfl | hji
    · rw [hsec, hhdr]
      exact hnum
    · obtain ⟨hu', hs', hd'⟩ := hother j hj hji hu
      rw [hd']
      exact h.numSectors j hj hu'
  · intro u
    rw [htaken.bits]
    by_cases hu : u ∈ s :: hdr.sectors
    · have hlt := (htaken.free u hu).1
      rw [h.storesMap.numBits] at hlt
      simp [hu, hlt]
    · simpa [hu] using h.bits u
  · intro j hj k hk hjk huj huk
    rcases eq_or_ne j i with rfl | hji
    · rw [strncmp_symm]
      exact hnew k hk hjk.symm huk
    · rcases eq_or_ne k i with rfl | hki
      · exact hnew j hj hji huj
      · rw [strncmp_congr (fun m hm => (hsame j hji).name_eq hm) (fun m hm => (hsame k hki).name_eq hm)]
        exact h.names j hj k hk hjk (hother j hj hji huj).1 (hother k hk hki huk).1

/-- There is room for a file of `size` bytes: for its name, for an entry and for its sectors. -/
def CanCreate (freeMap : BitMap) (table : Buffer) (file : List Byte) (size : Nat) : Prop :=
  (∀ i < NumDirEntries, ¬ Directory.Matches table file i) ∧
    (∃ i < NumDirEntries, Directory.inUse table i = false) ∧ 1 + divRoundUp size SectorSize ≤ freeMap.numClear

/-- The directory has a new entry `i`, for a file of `size` bytes with header `hdr` in sector `s`; the sectors
were free. -/
structure Adds (fs fs' : FileSystem) (freeMap freeMap' : BitMap) (table table' : Buffer) (file : List Byte)
    (size i s : Nat) (hdr : FileHeader) : Prop where
  lt : i < NumDirEntries
  free : Directory.inUse table i = false
  new : Directory.Matches table' file i
  sector : Directory.sector table' i = BitVec.ofNat 32 s
  same : SameFiles fs fs' table table' i
  taken : freeMap.Taken (s :: hdr.sectors) freeMap'
  onDisk : FileHeader.onDisk fs'.disk s = hdr
  numBytes : hdr.numBytes = BitVec.ofNat 32 size
  covers : hdr.Covers hdr.sectors

/-- Only the bytes of the directory file matter. -/
theorem canCreate_congr {t : Buffer} (ht : ∀ k < DirectoryFileSize, t k = table k) {file : List Byte} {size : Nat} :
    CanCreate freeMap t file size ↔ CanCreate freeMap table file size := by
  have hsame : ∀ i < NumDirEntries, Directory.SameEntry table t i := fun i hi => sameEntry_of_agree ht hi
  refine and_congr ?_ (and_congr_left' ?_)
  · refine forall₂_congr fun i hi => ?_
    rw [(hsame i hi).matches_iff]
  · refine exists_congr fun i => and_congr_right fun hi => ?_
    rw [(hsame i hi).inUse_eq]

/-- **`Create`**, when there is no room, and when there is. -/
theorem create_cases (h : Consistent fs freeMap table owned owner) (junk : Nat → Buffer)
    (name : List Byte) {size : Nat} (hsize : size ≤ MaxFileSize) :
    (¬ CanCreate freeMap table name size ∧ create fs junk name (BitVec.ofNat 32 size) = some (false, fs)) ∨
    (CanCreate freeMap table name size ∧ ∃ fs' freeMap' table' owned' owner' i s hdr,
      create fs junk name (BitVec.ofNat 32 size) = some (true, fs') ∧
      Consistent fs' freeMap' table' owned' owner' ∧
      Adds fs fs' freeMap freeMap' table table' name size i s hdr) := by
  obtain ⟨t, ht, hagree⟩ := fetchDirectory_eq h.layout h.storesTable junk
  have hc := h.congr_table hagree
  rw [← canCreate_congr hagree]
  unfold create
  rw [ht, fetchFreeMap_eq h.layout h.storesMap junk]
  simp only [Option.bind_eq_bind, Option.bind_some]
  by_cases hfound : Directory.find t name = -1
  · rw [if_neg (not_not.2 hfound)]
    have hnone := (hc.find_eq name).1 hfound
    have hfresh := Directory.findIndex_eq_none_iff.1 hnone
    rcases freeMap.find_spec with ⟨s, hfind, hs, hbit, -⟩ | ⟨hfind, hall⟩
    · rw [hfind]
      simp only
      have hclear := BitMap.numClear_setBit hs hbit
      cases hadd : Directory.add t name (BitVec.ofNat 32 s) with
      | none =>
        refine .inl ⟨?_, rfl⟩
        rintro ⟨-, ⟨i, hi, hfree⟩, -⟩
        rcases Directory.add_eq_none_iff.1 hadd with ⟨j, hj, hmatch⟩ | hfull
        · exact hfresh j hj hmatch
        · rw [hfull i hi] at hfree
          cases hfree
      | some t' =>
        obtain ⟨-, i, hi, hfree, huse, hsec, hname, hsame⟩ := Directory.add_spec hadd
        have hmarked : (freeMap.setBit s).numBits = NumSectors := h.storesMap.numBits
        have hlt : s < NumSectors := by rw [← h.storesMap.numBits]; exact hs
        rcases FileHeader.allocate_spec (FileHeader.ofBuffer (junk 4)) hmarked hsize with
          ⟨hfew, hdr, halloc⟩ | ⟨l, hdr, freeMap', halloc, hlen, htaken, hbytes, hnum, hl⟩
        · refine .inl ⟨?_, ?_⟩
          · rintro ⟨-, -, hroom⟩
            omega
          · simp only [halloc, Option.bind_some, Bool.not_false, if_true]
        · obtain ⟨disk, hw, hhdr, hf⟩ := hdr.writeBack_spec fs.disk hlt
          obtain ⟨⟨disk1, disk2, hw1, hw2, hm, htb, hf2⟩, -⟩ := store_both (h.layout.setDisk disk)
            (htaken.numBits.trans hmarked) t' (fun k => junk (5 + k)) (fun k => junk (8 + k))
          simp only at hw1 hw2 hm htb hf2
          simp only [halloc, hw, hw1, hw2, Option.bind_some, Bool.not_true, Bool.false_eq_true, if_false]
          have h1024 : NumSectors = 1024 := rfl
          have h30 : NumDirect = 30 := rfl
          have hlen' : l.length ≤ NumDirect := by rw [hlen]; exact divRoundUp_le hsize
          have hcount := htaken.numClear
          have htaken' := BitMap.Taken.cons hs hbit htaken
          rw [← hl] at htaken'
          -- the new header sector is not one of the map's or the directory's
          have hnot : s ∉ fs.freeMapFile.hdr.sectors ++ fs.directoryFile.hdr.sectors := by
            intro hmem
            have hb : freeMap.bit s = true := by
              rcases List.mem_append.1 hmem with hmem | hmem
              · exact h.marked (h.map_mem hmem)
              · exact h.marked (h.dir_mem hmem)
            rw [hbit] at hb
            cases hb
          have hsecNat : (Directory.sector t' i).toNat = s := by rw [hsec, CInt.toNat_ofNat (by omega)]
          have hhdr' : FileHeader.onDisk disk2 s = hdr := by
            rw [← hhdr]
            apply FileHeader.onDisk_congr
            intro a ha
            apply hf2
            rw [ha]
            exact hnot
          have hdisk : ∀ a, a / SectorSize ∉
              s :: (fs.freeMapFile.hdr.sectors ++ fs.directoryFile.hdr.sectors) → disk2 a = fs.disk a := by
            intro a ha
            rw [List.mem_cons, not_or] at ha
            rw [hf2 a ha.2, hf a ha.1]
          obtain ⟨owned', owner', hcons⟩ := hc.addFile hi hfree hnone huse hsecNat hname hsame htaken'
            (by rw [hnum, CInt.toNat_ofNat (by omega)]; exact hlen') hhdr' hdisk hm htb
          refine .inr ⟨⟨hfresh, ⟨i, hi, hfree⟩, by omega⟩, _, freeMap', t', owned', owner', i, s, hdr, rfl, hcons,
            hi, ?_, ⟨huse, ?_⟩, hsec, ⟨?_, ?_⟩, htaken', hhdr', hbytes, ?_⟩
          · rw [← (sameEntry_of_agree hagree hi).inUse_eq]
            exact hfree
          · rw [strncmp_congr hname (fun _ _ => rfl), strncmp_iff_str]
          · intro j hj hji
            exact (sameEntry_of_agree hagree hj).trans (hsame j hji)
          · intro j hj hji hu
            refine h.header_kept [s] ?_ hdisk (.inr (.inr ⟨j, hj, h.sector_mem hj hu⟩))
            intro x hx
            rw [List.mem_singleton.1 hx]
            exact h.free hbit
          · refine (covers_allocated hsize hbytes (by rw [hl, hlen]) ?_).1
            intro x hx
            rw [← h.storesMap.numBits]
            exact (htaken'.free x (List.mem_cons_of_mem s hx)).1
    · rw [hfind]
      refine .inl ⟨?_, rfl⟩
      rintro ⟨-, -, hroom⟩
      obtain ⟨s, hs, hbit⟩ := BitMap.numClear_pos.1 (show 0 < freeMap.numClear by omega)
      rw [hall s hs] at hbit
      cases hbit
  · rw [if_pos hfound]
    refine .inl ⟨?_, rfl⟩
    rintro ⟨hfresh, -⟩
    exact hfound ((hc.find_eq name).2 (Directory.findIndex_eq_none_iff.2 hfresh))

/-- **`Create`** fails no assertion, and keeps the disk consistent: it fails and changes nothing, or
adds an entry, with a header that covers its bytes. -/
theorem create_spec (h : Consistent fs freeMap table owned owner) (junk : Nat → Buffer)
    (name : List Byte) {size : Nat} (hsize : size ≤ MaxFileSize) :
    ∃ success fs', create fs junk name (BitVec.ofNat 32 size) = some (success, fs') ∧
      (fs' = fs ∨ ∃ freeMap' table' owned' owner' i, Consistent fs' freeMap' table' owned' owner' ∧
        Directory.inUse table i = false ∧ SameFiles fs fs' table table' i ∧
        (FileHeader.onDisk fs'.disk (Directory.sector table' i).toNat).Covers
          (FileHeader.onDisk fs'.disk (Directory.sector table' i).toNat).sectors) := by
  rcases create_cases h junk name hsize with
    ⟨-, hcreate⟩ | ⟨-, fs', freeMap', table', owned', owner', i, s, hdr, hcreate, hc, hadds⟩
  · exact ⟨false, fs, hcreate, .inl rfl⟩
  · refine ⟨true, fs', hcreate, .inr ⟨freeMap', table', owned', owner', i, hc, hadds.free, hadds.same, ?_⟩⟩
    have hlt := (hadds.taken.free s List.mem_cons_self).1
    have h1024 : NumSectors = 1024 := rfl
    rw [h.storesMap.numBits] at hlt
    rw [hadds.sector, CInt.toNat_ofNat (by omega), hadds.onDisk]
    exact hadds.covers

theorem create_consistent (h : Consistent fs freeMap table owned owner) (junk : Nat → Buffer)
    (name : List Byte) {size : Nat} (hsize : size ≤ MaxFileSize) :
    ∃ success fs', create fs junk name (BitVec.ofNat 32 size) = some (success, fs') ∧
      ∃ freeMap' table' owned' owner', Consistent fs' freeMap' table' owned' owner' := by
  obtain ⟨success, fs', hcreate, rfl | ⟨freeMap', table', owned', owner', -, hc, -⟩⟩ :=
    create_spec h junk name hsize
  · exact ⟨success, fs', hcreate, _, _, _, _, h⟩
  · exact ⟨success, fs', hcreate, _, _, _, _, hc⟩

/-! ## Remove -/

/-- A file is dropped: entry `i`. -/
theorem Consistent.dropFile (h : Consistent fs freeMap table owned owner) {freeMap' : BitMap} {t : Buffer}
    {disk : Disk} {i : Nat} (hi : i < NumDirEntries) (hfree : Directory.inUse t i = false)
    (hsame : ∀ j, j ≠ i → Directory.SameEntry table t j)
    (hbits : ∀ u, freeMap'.bit u = if u ∈ owned i then false else freeMap.bit u)
    (hdisk : ∀ a, a / SectorSize ∉ fs.freeMapFile.hdr.sectors ++ fs.directoryFile.hdr.sectors →
      disk a = fs.disk a)
    (hmap : StoresMap { fs with disk := disk } freeMap') (htable : StoresTable { fs with disk := disk } t) :
    ∃ owned' owner', Consistent { fs with disk := disk } freeMap' t owned' owner' := by
  have hkeep : ∀ u, (u = 0 ∨ u = 1 ∨ ∃ j < NumDirEntries, u ∈ owned j) →
      FileHeader.onDisk disk u = FileHeader.onDisk fs.disk u :=
    fun u hu => h.header_kept [] (by simp) hdisk hu
  have hother : ∀ j < NumDirEntries, Directory.inUse t j = true → j ≠ i ∧
      Directory.inUse table j = true ∧ Directory.sector t j = Directory.sector table j ∧
      FileHeader.onDisk disk (Directory.sector t j).toNat =
        FileHeader.onDisk fs.disk (Directory.sector table j).toNat := by
    intro j hj hu
    have hji : j ≠ i := by
      rintro rfl
      rw [hfree] at hu
      cases hu
    rw [(hsame j hji).inUse_eq] at hu
    refine ⟨hji, hu, (hsame j hji).sector_eq, ?_⟩
    rw [(hsame j hji).sector_eq]
    exact hkeep _ (.inr (.inr ⟨j, hj, h.sector_mem hj hu⟩))
  refine ⟨_, _, h.layout.setDisk disk, ?_, ?_, hmap, htable, h.homed.release i, ?_, ?_, ?_, ?_, ?_, ?_, ?_⟩
  · exact (hkeep 0 (.inl rfl)).trans h.mapOnDisk
  · exact (hkeep 1 (.inr (.inl rfl))).trans h.dirOnDisk
  · rw [Function.update_of_ne (Nat.ne_of_gt hi)]
    exact h.system
  · intro j hj hu
    obtain ⟨hji, hu', hs', hd'⟩ := hother j hj hu
    rw [Function.update_of_ne hji, h.used j hj hu', fileSectors, fileSectors, hd', hs']
  · intro j hj hu
    rcases eq_or_ne j i with rfl | hji
    · rw [Function.update_self]
    · rw [(hsame j hji).inUse_eq] at hu
      rw [Function.update_of_ne hji]
      exact h.unused j hj hu
  · intro j hj
    rw [Function.update_of_ne (by omega)]
    exact h.beyond j hj
  · intro j hj hu
    obtain ⟨hji, hu', hs', hd'⟩ := hother j hj hu
    rw [hd']
    exact h.numSectors j hj hu'
  · intro u
    rw [hbits]
    by_cases hu : u ∈ owned i
    · simp [hu]
    · simpa [hu] using h.bits u
  · intro j hj k hk hjk huj huk
    obtain ⟨hji, huj', -, -⟩ := hother j hj huj
    obtain ⟨hki, huk', -, -⟩ := hother k hk huk
    rw [strncmp_congr (fun m hm => (hsame j hji).name_eq hm) (fun m hm => (hsame k hki).name_eq hm)]
    exact h.names j hj k hk hjk huj' huk'

/-- **`Remove`** fails no assertion, that of `Deallocate` included, and keeps the disk consistent: it
finds no such file and changes nothing, or drops the entry that `Find` names. -/
theorem remove_spec (h : Consistent fs freeMap table owned owner) (junk : Nat → Buffer)
    (name : List Byte) :
    ∃ success fs', remove fs junk name = some (success, fs') ∧
      (fs' = fs ∨ ∃ freeMap' table' owned' owner' i, Consistent fs' freeMap' table' owned' owner' ∧
        (∀ t, fs.fetchDirectory junk = some t → Directory.find t name = Directory.sector table i) ∧
        Directory.inUse table' i = false ∧ SameFiles fs fs' table table' i) := by
  obtain ⟨t, ht, hagree⟩ := fetchDirectory_eq h.layout h.storesTable junk
  have hc := h.congr_table hagree
  unfold remove
  rw [ht, fetchFreeMap_eq h.layout h.storesMap junk]
  simp only [Option.bind_eq_bind, Option.bind_some]
  by_cases hfound : Directory.find t name = -1
  · rw [if_pos hfound]
    exact ⟨false, fs, rfl, .inl rfl⟩
  · rw [if_neg hfound]
    obtain ⟨i, hidx⟩ := Option.ne_none_iff_exists'.1 (fun hn => hfound ((hc.find_eq name).2 hn))
    obtain ⟨hi, hu, -⟩ := Directory.findIndex_some hidx
    obtain ⟨hrem, hfree, hsame⟩ := Directory.remove_spec hidx
    have hsec : Directory.find t name = Directory.sector t i := by rw [Directory.find, hidx]
    have hmem := hc.sector_mem hi hu
    have hlt := hc.lt hmem
    have howned := hc.used i hi hu
    rw [fileSectors] at howned
    generalize hs : (Directory.sector t i).toNat = s at hmem hlt howned
    have h1024 : NumSectors = 1024 := rfl
    have hword : Directory.sector t i = BitVec.ofNat 32 s := by rw [← hs]; simp
    have hnd := h.homed.nodup i
    rw [howned, List.nodup_cons] at hnd
    have hdata : ∀ u ∈ (FileHeader.onDisk fs.disk s).sectors, u ∈ owned i := by
      intro u hu
      rw [howned]
      exact List.mem_cons_of_mem s hu
    obtain ⟨freeMap1, hdealloc, hnum1, hbits1⟩ := (FileHeader.onDisk fs.disk s).deallocate_spec rfl
      (by rw [← hs]; exact hc.numSectors i hi hu) (fun u hu => h.lt (hdata u hu)) hnd.2
      h.storesMap.numBits (fun u hu => h.marked (hdata u hu))
    have hmap1 : freeMap1.numBits = NumSectors := hnum1.trans h.storesMap.numBits
    have hrange : freeMap1.inRange (s : Int) = true := BitMap.inRange_iff.2 (by omega)
    have hclear : freeMap1.clear (s : Int) = some (freeMap1.clearBit s) := by
      rw [BitMap.clear, if_pos hrange, Int.toNat_natCast]
    obtain ⟨-, disk1, disk2, hw1, hw2, hm, htb, hf⟩ := store_both h.layout
      (show (freeMap1.clearBit s).numBits = NumSectors from hmap1) (Directory.setInUse t i 0)
      (fun k => junk (4 + k)) (fun k => junk (7 + k))
    simp only [hsec, hword, FileHeader.fetchFrom_eq fs.disk hlt, hdealloc, CInt.toInt_ofNat
      (show s < 2 ^ 31 by omega), hclear, hrem, hw1, hw2, Option.bind_some, Option.getD_some]
    have hbits : ∀ u, (freeMap1.clearBit s).bit u = if u ∈ owned i then false else freeMap.bit u := by
      intro u
      rw [BitMap.bit_clearBit (by rw [hmap1]; exact hlt), hbits1, howned]
      by_cases hus : u = s
      · simp [hus]
      · simp [hus]
    obtain ⟨owned', owner', hcons⟩ := hc.dropFile hi hfree hsame hbits hf hm htb
    refine ⟨true, _, rfl, .inr ⟨_, _, owned', owner', i, hcons, ?_, hfree, ?_, ?_⟩⟩
    · rintro t' ht'
      cases ht'
      rw [hsec, (sameEntry_of_agree hagree hi).sector_eq]
    · intro j hj hji
      exact (sameEntry_of_agree hagree hj).trans (hsame j hji)
    · intro j hj hji hu
      exact h.header_kept [] (by simp) hf (.inr (.inr ⟨j, hj, h.sector_mem hj hu⟩))

theorem remove_consistent (h : Consistent fs freeMap table owned owner) (junk : Nat → Buffer)
    (name : List Byte) :
    ∃ success fs', remove fs junk name = some (success, fs') ∧
      ∃ freeMap' table' owned' owner', Consistent fs' freeMap' table' owned' owner' := by
  obtain ⟨success, fs', hremove, rfl | ⟨freeMap', table', owned', owner', -, hc, -⟩⟩ :=
    remove_spec h junk name
  · exact ⟨success, fs', hremove, _, _, _, _, h⟩
  · exact ⟨success, fs', hremove, _, _, _, _, hc⟩

/-! ## Format -/

/-- **A formatted disk** is consistent and has no files, and formatting fails no assertion. -/
theorem format_spec (disk : Disk) (junk : Nat → Buffer) :
    ∃ fs, format disk junk = some fs ∧
      ∃ freeMap table owned owner, Consistent fs freeMap table owned owner ∧
        ∀ i < NumDirEntries, Directory.inUse table i = false := by
  have hnum0 := BitMap.numBits_ofSectors (junk 0)
  have hbits0 : ∀ s < NumSectors, (BitMap.ofSectors (junk 0)).bit s = false :=
    fun s hs => BitMap.bit_ofSectors (junk 0) hs
  have h1024 : NumSectors = 1024 := rfl
  have hmap128 : divRoundUp FreeMapFileSize SectorSize = 1 := by decide
  have hdir600 : divRoundUp DirectoryFileSize SectorSize = 5 := by decide
  unfold format
  generalize BitMap.ofSectors (junk 0) = b0 at hnum0 hbits0 ⊢
  have hclear0 : b0.numClear = NumSectors :=
    (BitMap.numClear_eq_numBits.2 (by rw [hnum0]; exact hbits0)).trans hnum0
  have hmark : ∀ (b : BitMap) (s : Nat), b.numBits = NumSectors → s < NumSectors →
      b.mark (s : Int) = some (b.setBit s) := by
    intro b s hb hs
    rw [BitMap.mark, if_pos (BitMap.inRange_iff.2 (by omega)), Int.toNat_natCast]
  have hsec0 : FreeMapSector.toInt = ((0 : Nat) : Int) := by decide
  have hsec1 : DirectorySector.toInt = ((1 : Nat) : Int) := by decide
  have hmark0 : b0.mark FreeMapSector.toInt = some (b0.setBit 0) := by
    rw [hsec0]
    exact hmark b0 0 hnum0 (by decide)
  have hmark1 : (b0.setBit 0).mark DirectorySector.toInt = some ((b0.setBit 0).setBit 1) := by
    rw [hsec1]
    refine hmark (b0.setBit 0) 1 ?_ (by decide)
    rw [BitMap.numBits_setBit]
    exact hnum0
  have htaken0 : b0.Taken [0, 1] ((b0.setBit 0).setBit 1) := by
    apply BitMap.Taken.cons (by omega) (hbits0 0 (by decide))
    refine BitMap.Taken.cons (by rw [BitMap.numBits_setBit]; omega) ?_ (BitMap.Taken.nil _)
    rw [BitMap.bit_setBit (by omega), if_neg (by decide)]
    exact hbits0 1 (by decide)
  generalize (b0.setBit 0).setBit 1 = b1 at hmark1 htaken0
  have hcount0 := htaken0.numClear
  obtain ⟨hfew, -⟩ | ⟨l1, mapHdr, b2, halloc1, hlen1, htaken1, hbytes1, -, hmapSec⟩ :=
    (FileHeader.ofBuffer (junk 2)).allocate_spec (htaken0.numBits.trans hnum0)
      (show FreeMapFileSize ≤ MaxFileSize by decide)
  · simp only [List.length_cons, List.length_nil] at hcount0
    omega
  have hcount1 := htaken1.numClear
  obtain ⟨hfew, -⟩ | ⟨l2, dirHdr, b3, halloc2, hlen2, htaken2, hbytes2, -, hdirSec⟩ :=
    (FileHeader.ofBuffer (junk 3)).allocate_spec (htaken1.numBits.trans (htaken0.numBits.trans hnum0))
      (show DirectoryFileSize ≤ MaxFileSize by decide)
  · simp only [List.length_cons, List.length_nil] at hcount0
    omega
  subst hmapSec hdirSec
  have htaken := (htaken0.append htaken1).append htaken2
  have hlt : ∀ s ∈ [0, 1] ++ mapHdr.sectors ++ dirHdr.sectors, s < NumSectors := by
    intro s hs
    rw [← hnum0]
    exact (htaken.free s hs).1
  obtain ⟨hnd12, hnd3, hdisj⟩ := List.nodup_append.1 htaken.nodup
  obtain ⟨hcov1, hsize1⟩ := covers_allocated (by decide) hbytes1 hlen1
    (fun s hs => hlt s (by simp [hs]))
  obtain ⟨hcov2, hsize2⟩ := covers_allocated (by decide) hbytes2 hlen2
    (fun s hs => hlt s (by simp [hs]))
  obtain ⟨disk1, hw1, hon1, hf1⟩ := mapHdr.writeBack_spec disk (show 0 < NumSectors by decide)
  obtain ⟨disk2, hw2, hon2, hf2⟩ := dirHdr.writeBack_spec disk1 (show 1 < NumSectors by decide)
  have hon1' : FileHeader.onDisk disk2 0 = mapHdr := by
    rw [← hon1]
    apply FileHeader.onDisk_congr
    intro a ha
    exact hf2 a (by omega)
  have hopen1 : OpenFile.openSector disk2 FreeMapSector 0 = some ⟨mapHdr, 0, 0⟩ := by
    rw [OpenFile.openSector, show FreeMapSector = BitVec.ofNat 32 0 from rfl,
      FileHeader.fetchFrom_eq disk2 (by decide), Option.map_some, hon1']
  have hopen2 : OpenFile.openSector disk2 DirectorySector 0 = some ⟨dirHdr, 0, 0⟩ := by
    rw [OpenFile.openSector, show DirectorySector = BitVec.ofNat 32 1 from rfl,
      FileHeader.fetchFrom_eq disk2 (by decide), Option.map_some, hon2]
  have hl : Layout ⟨disk2, ⟨mapHdr, 0, 0⟩, ⟨dirHdr, 0, 0⟩⟩ := by
    refine ⟨hcov1, hsize1, ?_, hcov2, hsize2, hnd3, ?_⟩
    · exact (List.nodup_append.1 hnd12).2.1
    · intro s hs hs'
      exact hdisj s (List.mem_append_right _ hs') s hs rfl
  obtain ⟨-, disk3, disk4, hw3, hw4, hm, htb, hf⟩ := store_both hl
    (htaken.numBits.trans hnum0) (Directory.init (junk 1)) (fun k => junk (4 + k)) (fun k => junk (7 + k))
  simp only at hw3 hw4 hm htb hf
  have hhomed := (homed_empty (ι := Nat) (α := Nat)).assign (i := NumDirEntries) rfl htaken.nodup
    (fun _ _ => rfl)
  have hunused : ∀ i < NumDirEntries, Directory.inUse (Directory.init (junk 1)) i ≠ true := by
    intro i hi
    rw [Directory.inUse_init (junk 1) hi]
    decide
  -- sectors 0 and 1 are not written again
  have hkeep : ∀ u, u = 0 ∨ u = 1 → FileHeader.onDisk disk4 u = FileHeader.onDisk disk2 u := by
    intro u hu
    apply FileHeader.onDisk_congr
    intro a ha
    apply hf
    rw [ha]
    have hnd := htaken.nodup
    rw [List.append_assoc] at hnd
    intro hmem
    refine (List.nodup_append.1 hnd).2.2 u ?_ u hmem rfl
    rcases hu with rfl | rfl
    · simp
    · simp
  refine ⟨⟨disk4, ⟨mapHdr, 0, 0⟩, ⟨dirHdr, 0, 0⟩⟩, ?_, b3, Directory.init (junk 1), _, _,
    ⟨hl.setDisk disk4, (hkeep 0 (.inl rfl)).trans hon1', (hkeep 1 (.inr rfl)).trans hon2, hm, htb, hhomed,
    Function.update_self _ _ _, ?_, ?_, ?_, ?_, ?_, ?_⟩, fun i hi => Directory.inUse_init (junk 1) hi⟩
  · have hw1' : mapHdr.writeBack disk FreeMapSector = some disk1 := hw1
    have hw2' : dirHdr.writeBack disk1 DirectorySector = some disk2 := hw2
    simp only [hmark0, hmark1, halloc1, halloc2, hw1', hw2', hopen1, hopen2, hw3, hw4, guard_true,
      Option.bind_eq_bind, Option.bind_some, Option.pure_def]
  · intro i hi hu
    exact absurd hu (hunused i hi)
  · intro i hi _
    exact Function.update_of_ne (Nat.ne_of_lt hi) _ _
  · intro i hi
    exact Function.update_of_ne (Nat.ne_of_gt hi) _ _
  · intro i hi hu
    exact absurd hu (hunused i hi)
  · intro u
    rw [htaken.bits]
    by_cases hu : u ∈ [0, 1] ++ mapHdr.sectors ++ dirHdr.sectors
    · have hu' := hlt u hu
      rw [if_pos hu, if_pos hu]
      simp [hu']
    · simp only [if_neg hu, ne_eq, not_true, iff_false, not_and]
      intro hu'
      rw [hbits0 u hu']
      decide
  · intro i hi j _ _ hu
    exact absurd hu (hunused i hi)

/-! ## Runs -/

/-- The calls. -/
inductive Call where
  | create (junk : Nat → Buffer) (name : List Byte) (initialSize : Word)
  | remove (junk : Nat → Buffer) (name : List Byte)

/-- One call; `none` is a failed `ASSERT`. -/
def step (fs : FileSystem) : Call → Option FileSystem
  | .create junk name initialSize => (create fs junk name initialSize).map (·.2)
  | .remove junk name => (remove fs junk name).map (·.2)

/-- Formatted disks, and the calls on them. -/
def system : System FileSystem Call where
  init := fun fs => ∃ disk junk, format disk junk = some fs
  step := step

/-- The sizes that `Create` is called with. -/
def InRange (_ : FileSystem) : Call → Prop
  | .create _ _ initialSize => 0 ≤ initialSize.toInt ∧ initialSize.toInt ≤ MaxFileSize
  | .remove _ _ => True

/-- What directory entry `i` takes. -/
def entrySectors (disk : Disk) (table : Buffer) (i : Nat) : List Nat :=
  if Directory.inUse table i then fileSectors disk (Directory.sector table i).toNat else []

/-- Sectors 0 and 1, the data sectors of the files whose headers are there, and what the
directory entries take. -/
def usedSectors (disk : Disk) (table : Buffer) : List Nat :=
  [0, 1] ++ (FileHeader.onDisk disk 0).sectors ++ (FileHeader.onDisk disk 1).sectors ++
    (List.range NumDirEntries).flatMap (entrySectors disk table)

theorem exists_ofNat_of_inRange {size : Word} (h0 : 0 ≤ size.toInt) (h1 : size.toInt ≤ MaxFileSize) :
    ∃ n ≤ MaxFileSize, size = BitVec.ofNat 32 n := by
  refine ⟨size.toInt.toNat, by omega, ?_⟩
  apply BitVec.eq_of_toInt_eq
  have hmax : MaxFileSize = 3840 := rfl
  rw [CInt.toInt_ofNat (by omega)]
  omega

theorem reachable_consistent (h : system.ReachableBy InRange fs) :
    ∃ freeMap table owned owner, Consistent fs freeMap table owned owner := by
  refine System.ReachableBy.invariant
    (I := fun fs => ∃ freeMap table owned owner, Consistent fs freeMap table owned owner) ?_ ?_ h
  · rintro fs ⟨disk, junk, hf⟩
    obtain ⟨fs', hf', freeMap, table, owned, owner, hc, -⟩ := format_spec disk junk
    rw [hf, Option.some.injEq] at hf'
    rw [hf']
    exact ⟨freeMap, table, owned, owner, hc⟩
  · rintro fs e fs' - ⟨freeMap, table, owned, owner, hc⟩ hok he
    cases e with
    | create junk name size =>
      obtain ⟨n, hn, rfl⟩ := exists_ofNat_of_inRange hok.1 hok.2
      obtain ⟨success, fs1, hcreate, hc'⟩ := create_consistent hc junk name hn
      simp only [system, step, hcreate, Option.map_some, Option.some.injEq] at he
      rw [← he]
      exact hc'
    | remove junk name =>
      obtain ⟨success, fs1, hremove, hc'⟩ := remove_consistent hc junk name
      simp only [system, step, hremove, Option.map_some, Option.some.injEq] at he
      rw [← he]
      exact hc'

namespace Consistent

theorem entrySectors_eq (h : Consistent fs freeMap table owned owner) {i : Nat} (hi : i < NumDirEntries) :
    entrySectors fs.disk table i = owned i := by
  unfold entrySectors
  cases hu : Directory.inUse table i with
  | true => rw [if_pos rfl, h.used i hi hu]
  | false => rw [if_neg (by decide), h.unused i hi hu]

theorem usedSectors_eq (h : Consistent fs freeMap table owned owner) :
    usedSectors fs.disk table = (NumDirEntries :: List.range NumDirEntries).flatMap owned := by
  have hentries : (List.range NumDirEntries).flatMap (entrySectors fs.disk table) =
      (List.range NumDirEntries).flatMap owned :=
    List.flatMap_congr (fun i hi => h.entrySectors_eq (List.mem_range.1 hi))
  rw [usedSectors, h.mapOnDisk, h.dirOnDisk, hentries, List.flatMap_cons, h.system, systemSectors]

theorem mem_usedSectors (h : Consistent fs freeMap table owned owner) {s : Nat} (hs : s < NumSectors) :
    freeMap.bit s = true ↔ s ∈ usedSectors fs.disk table := by
  have hbit : freeMap.bit s = true ↔ owner s ≠ none := by rw [← h.bits s, and_iff_right hs]
  rw [hbit, h.usedSectors_eq, List.mem_flatMap]
  constructor
  · intro hne
    obtain ⟨i, hi⟩ := Option.ne_none_iff_exists'.1 hne
    have hmem := (h.homed.mem i s).2 hi
    refine ⟨i, ?_, hmem⟩
    by_contra hout
    have hbeyond : NumDirEntries < i := by
      simp only [List.mem_cons, List.mem_range, not_or] at hout
      omega
    rw [h.beyond i hbeyond] at hmem
    cases hmem
  · rintro ⟨i, -, hmem⟩
    rw [(h.homed.mem i s).1 hmem]
    simp

theorem nodup_usedSectors (h : Consistent fs freeMap table owned owner) :
    (usedSectors fs.disk table).Nodup := by
  rw [h.usedSectors_eq]
  exact h.homed.nodup_flatMap (by decide)

theorem lt_of_mem_usedSectors (h : Consistent fs freeMap table owned owner) {s : Nat}
    (hs : s ∈ usedSectors fs.disk table) : s < NumSectors := by
  rw [h.usedSectors_eq] at hs
  obtain ⟨i, -, hi⟩ := List.mem_flatMap.1 hs
  exact h.lt hi

end Consistent

/-- **Disk space accounting.**  After any sequence of calls: the free map on disk marks exactly the
sectors in use, each is used once, a header of a file names `numSectors` of them, the names of the
directory differ, and no further call fails an assertion. -/
theorem disk_accounting {fs : FileSystem} (h : system.ReachableBy InRange fs) (junk : Nat → Buffer) :
    ∃ freeMap table, fs.fetchFreeMap junk = some freeMap ∧ fs.fetchDirectory junk = some table ∧
      (∀ s < NumSectors, freeMap.bit s = true ↔ s ∈ usedSectors fs.disk table) ∧
      (usedSectors fs.disk table).Nodup ∧ (∀ s ∈ usedSectors fs.disk table, s < NumSectors) ∧
      (∀ i < NumDirEntries, Directory.inUse table i = true →
        (FileHeader.onDisk fs.disk (Directory.sector table i).toNat).sectors.length =
          (FileHeader.onDisk fs.disk (Directory.sector table i).toNat).numSectors.toNat) ∧
      (∀ i < NumDirEntries, ∀ j < NumDirEntries, i ≠ j → Directory.inUse table i = true →
        Directory.inUse table j = true →
        strncmp (Directory.name table i) (Directory.name table j) 0 FileNameMaxLen = false) ∧
      (∀ e, InRange fs e → fs.step e ≠ none) := by
  obtain ⟨freeMap, table, owned, owner, hc⟩ := reachable_consistent h
  obtain ⟨t, ht, hagree⟩ := fetchDirectory_eq hc.layout hc.storesTable junk
  have hct := hc.congr_table hagree
  refine ⟨freeMap, t, fetchFreeMap_eq hc.layout hc.storesMap junk, ht, fun s hs => hct.mem_usedSectors hs,
    hct.nodup_usedSectors, fun s hs => hct.lt_of_mem_usedSectors hs, ?_, hct.names, ?_⟩
  · intro i hi hu
    have hnum := hct.numSectors i hi hu
    rw [FileHeader.sectors, List.length_map, List.length_take, FileHeader.numDirect]
    omega
  · intro e hok
    cases e with
    | create junk' name size =>
      obtain ⟨n, hn, rfl⟩ := exists_ofNat_of_inRange hok.1 hok.2
      obtain ⟨success, fs1, hcreate, -⟩ := create_consistent hc junk' name hn
      simp [step, hcreate]
    | remove junk' name =>
      obtain ⟨success, fs1, hremove, -⟩ := remove_consistent hc junk' name
      simp [step, hremove]

/-- A file of 300 bytes is created on a fresh disk and removed again. -/
theorem disk_accounting_createRun : ∃ fs, system.ReachableBy InRange fs ∧
    ∃ freeMap table, fs.fetchFreeMap (fun _ _ => 0) = some freeMap ∧
      fs.fetchDirectory (fun _ _ => 0) = some table ∧
      (∀ s < NumSectors, freeMap.bit s = true ↔ s ∈ usedSectors fs.disk table) := by
  obtain ⟨fs0, hf, -⟩ := format_spec (fun _ => 0) (fun _ _ => 0)
  have h0 : system.ReachableBy InRange fs0 := .init ⟨_, _, hf⟩
  have step_to : ∀ {fs} (e : Call), system.ReachableBy InRange fs → InRange fs e →
      ∃ fs', system.ReachableBy InRange fs' := by
    intro fs e hr hok
    obtain ⟨-, -, -, -, -, -, -, -, -, hstep⟩ := disk_accounting hr (fun _ _ => 0)
    obtain ⟨fs', hfs'⟩ := Option.ne_none_iff_exists'.1 (hstep e hok)
    exact ⟨fs', .step hr hok hfs'⟩
  obtain ⟨fs1, h1⟩ := step_to (.create (fun _ _ => 0) [97] 300) h0 ⟨by decide, by decide⟩
  obtain ⟨fs2, h2⟩ := step_to (.remove (fun _ _ => 0) [97]) h1 trivial
  obtain ⟨freeMap, table, hm, ht, hbits, -⟩ := disk_accounting h2 (fun _ _ => 0)
  exact ⟨fs2, h2, freeMap, table, hm, ht, hbits⟩

end FileSystem

end Nachos
