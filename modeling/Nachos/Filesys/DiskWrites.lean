import Nachos.Filesys.Accounting

/-!
# What the calls write

* `create_writes`, `remove_writes` — the sectors that `FileSystem::Create` and `Remove` change, and the free
  map that they leave.
* `format_headers` — how many sectors the two system files have.
* `mount_spec` — `FileSystem::FileSystem(FALSE)` opens the two system files again.

`OpenFile::Seek`, `Read` and `Write` of the version without `FILESYS_STUB` are here as well.
-/

set_option autoImplicit false

namespace Nachos

namespace FileSystem

open CString

variable {fs fs' : FileSystem} {freeMap : BitMap} {table : Buffer} {owned : Nat → List Nat}
  {owner : Nat → Option Nat}

/-! ## What is written -/

/-- `Create` stores a free map with fewer free sectors, and writes to sectors that were free, or of the
free map or the directory. -/
theorem create_writes (h : Consistent fs freeMap table owned owner) {junk : Nat → Buffer} {name : List Byte}
    {size : Nat} (hsize : size ≤ MaxFileSize) (hcreate : create fs junk name (BitVec.ofNat 32 size) = some (true, fs')) :
    ∃ freeMap', StoresMap fs' freeMap' ∧ freeMap'.numClear + (1 + divRoundUp size SectorSize) = freeMap.numClear ∧
      ∀ a, owner (a / SectorSize) ≠ none → owner (a / SectorSize) ≠ some NumDirEntries → fs'.disk a = fs.disk a := by
  obtain ⟨t, ht, -⟩ := fetchDirectory_eq h.layout h.storesTable junk
  unfold create at hcreate
  rw [ht, fetchFreeMap_eq h.layout h.storesMap junk] at hcreate
  simp only [Option.bind_eq_bind, Option.bind_some] at hcreate
  split at hcreate
  · cases hcreate
  rcases freeMap.find_spec with ⟨s, hfind, hs, hbit, -⟩ | ⟨hfind, -⟩
  swap
  · rw [hfind] at hcreate
    cases hcreate
  rw [hfind] at hcreate
  simp only at hcreate
  split at hcreate
  · cases hcreate
  rename_i t' hadd
  have hmarked : (freeMap.setBit s).numBits = NumSectors := h.storesMap.numBits
  rcases FileHeader.allocate_spec (FileHeader.ofBuffer (junk 4)) hmarked hsize with
    ⟨-, hdr, halloc⟩ | ⟨l, hdr, freeMap', halloc, hlen, htaken, -, -, -⟩
  · simp only [halloc, Option.bind_some, Bool.not_false, if_true] at hcreate
    cases hcreate
  · obtain ⟨disk, hw, -, hf⟩ := hdr.writeBack_spec fs.disk (by rw [← h.storesMap.numBits]; exact hs)
    obtain ⟨⟨disk1, disk2, hw1, hw2, hm, -, hf2⟩, -⟩ := store_both (h.layout.setDisk disk)
      (htaken.numBits.trans hmarked) t' (fun k => junk (5 + k)) (fun k => junk (8 + k))
    simp only at hw1 hw2 hm hf2
    simp only [halloc, hw, hw1, hw2, Option.bind_some, Bool.not_true, Bool.false_eq_true, if_false,
      Option.some.injEq, Prod.mk.injEq, true_and] at hcreate
    rw [← hcreate]
    have hclear := BitMap.numClear_setBit hs hbit
    have hcount := htaken.numClear
    refine ⟨freeMap', hm, by omega, ?_⟩
    intro a hused hfile
    show disk2 a = fs.disk a
    rw [hf2, hf]
    · intro hsec
      rw [hsec] at hused
      exact hused (h.free hbit)
    · intro hmem
      rcases List.mem_append.1 hmem with hmem | hmem
      · exact hfile ((h.homed.mem _ _).1 (h.map_mem hmem))
      · exact hfile ((h.homed.mem _ _).1 (h.dir_mem hmem))

/-- `Remove`, when there is no such file, and when there is: the directory entry is freed, and its sectors. -/
theorem remove_writes (h : Consistent fs freeMap table owned owner) (junk : Nat → Buffer) (name : List Byte) :
    ((∀ i < NumDirEntries, ¬ Directory.Matches table name i) ∧ remove fs junk name = some (false, fs)) ∨
    ∃ i < NumDirEntries, ∃ fs' freeMap' table', Directory.Matches table name i ∧
      remove fs junk name = some (true, fs') ∧ StoresMap fs' freeMap' ∧
      freeMap'.numClear = freeMap.numClear + (owned i).length ∧ StoresTable fs' table' ∧
      Directory.inUse table' i = false ∧ (∀ j < NumDirEntries, j ≠ i → Directory.SameEntry table table' j) ∧
      ∀ a, owner (a / SectorSize) ≠ some NumDirEntries → fs'.disk a = fs.disk a := by
  obtain ⟨t, ht, hagree⟩ := fetchDirectory_eq h.layout h.storesTable junk
  have hc := h.congr_table hagree
  have hentry : ∀ i < NumDirEntries, Directory.SameEntry table t i := fun i hi => sameEntry_of_agree hagree hi
  unfold remove
  rw [ht, fetchFreeMap_eq h.layout h.storesMap junk]
  simp only [Option.bind_eq_bind, Option.bind_some]
  by_cases hfound : Directory.find t name = -1
  · rw [if_pos hfound]
    refine .inl ⟨?_, rfl⟩
    intro i hi
    rw [← (hentry i hi).matches_iff]
    exact Directory.findIndex_eq_none_iff.1 ((hc.find_eq name).1 hfound) i hi
  · rw [if_neg hfound]
    obtain ⟨i, hidx⟩ := Option.ne_none_iff_exists'.1 (fun hn => hfound ((hc.find_eq name).2 hn))
    obtain ⟨hi, hu, hname⟩ := Directory.findIndex_some hidx
    obtain ⟨hrem, hfree, hsame⟩ := Directory.remove_spec hidx
    have hsec : Directory.find t name = Directory.sector t i := by rw [Directory.find, hidx]
    have hmem := hc.sector_mem hi hu
    have hlt := hc.lt hmem
    have howned := hc.used i hi hu
    rw [fileSectors] at howned
    generalize hs : (Directory.sector t i).toNat = s at hmem hlt howned
    have h1024 : NumSectors = 1024 := rfl
    have hword : Directory.sector t i = BitVec.ofNat 32 s := by rw [← hs]; simp
    have hnd := h.homed.nodup i
    have hdata : ∀ u ∈ (FileHeader.onDisk fs.disk s).sectors, u ∈ owned i := by
      intro u hu
      rw [howned]
      exact List.mem_cons_of_mem s hu
    obtain ⟨freeMap1, hdealloc, hnum1, hbits1⟩ := (FileHeader.onDisk fs.disk s).deallocate_spec rfl
      (by rw [← hs]; exact hc.numSectors i hi hu) (fun u hu => h.lt (hdata u hu))
      (by rw [howned, List.nodup_cons] at hnd; exact hnd.2) h.storesMap.numBits (fun u hu => h.marked (hdata u hu))
    have hmap1 : freeMap1.numBits = NumSectors := hnum1.trans h.storesMap.numBits
    have hclear : freeMap1.clear (s : Int) = some (freeMap1.clearBit s) := by
      rw [BitMap.clear, if_pos (BitMap.inRange_iff.2 (by omega)), Int.toNat_natCast]
    obtain ⟨-, disk1, disk2, hw1, hw2, hm, htb, hf⟩ := store_both h.layout
      (show (freeMap1.clearBit s).numBits = NumSectors from hmap1) (Directory.setInUse t i 0)
      (fun k => junk (4 + k)) (fun k => junk (7 + k))
    simp only [hsec, hword, FileHeader.fetchFrom_eq fs.disk hlt, hdealloc, CInt.toInt_ofNat
      (show s < 2 ^ 31 by omega), hclear, hrem, hw1, hw2, Option.bind_some, Option.getD_some]
    have hbits : ∀ u, (freeMap1.clearBit s).bit u = if u ∈ owned i then false else freeMap.bit u := by
      intro u
      rw [BitMap.bit_clearBit (by rw [hmap1]; exact hlt), hbits1, howned]
      by_cases hus : u = s
      · simp [hus]
      · simp [hus]
    -- the map before is the one after with the sectors of the file taken
    have htaken : (freeMap1.clearBit s).Taken (owned i) freeMap := by
      refine ⟨hnd, ?_, h.storesMap.numBits.trans hmap1.symm, ?_⟩
      · intro u hu
        refine ⟨?_, by rw [hbits, if_pos hu]⟩
        rw [show (freeMap1.clearBit s).numBits = NumSectors from hmap1]
        exact h.lt hu
      · intro u
        rw [hbits]
        by_cases hu : u ∈ owned i
        · rw [if_pos hu, h.marked hu]
        · rw [if_neg hu, if_neg hu]
    refine .inr ⟨i, hi, _, _, _, (hentry i hi).matches_iff.1 ⟨hu, hname⟩, rfl, hm, htaken.numClear.symm, htb, hfree,
      ?_, ?_⟩
    · intro j hj hji
      exact (hentry j hj).trans (hsame j hji)
    · intro a ha
      apply hf
      intro hmem
      rcases List.mem_append.1 hmem with hmem | hmem
      · exact ha ((h.homed.mem _ _).1 (h.map_mem hmem))
      · exact ha ((h.homed.mem _ _).1 (h.dir_mem hmem))

/-- The header that `Allocate` fills in for a system file. -/
theorem sectors_allocated {h h' : FileHeader} {b b' : BitMap} {size : Nat} (hb : b.numBits = NumSectors)
    (hsize : size ≤ MaxFileSize) (halloc : h.allocate b (BitVec.ofNat 32 size) = some (true, h', b')) :
    h'.sectors.length = divRoundUp size SectorSize ∧ b'.numBits = NumSectors := by
  rcases FileHeader.allocate_spec h hb hsize with
    ⟨-, h1, hfalse⟩ | ⟨l, h1, b1, htrue, hlen, htaken, -, -, hsec⟩
  · rw [halloc] at hfalse
    cases hfalse
  · rw [halloc, Option.some.injEq, Prod.mk.injEq, Prod.mk.injEq] at htrue
    obtain ⟨-, rfl, rfl⟩ := htrue
    exact ⟨by rw [hsec, hlen], htaken.numBits.trans hb⟩

theorem numBits_mark {b b' : BitMap} {which : Int} (h : b.mark which = some b') : b'.numBits = b.numBits := by
  unfold BitMap.mark at h
  split at h
  · cases h
    rfl
  · cases h

/-- The headers of a formatted disk. -/
theorem format_headers {disk : Disk} {junk : Nat → Buffer} (hf : format disk junk = some fs) :
    fs.freeMapFile.hdr.sectors.length = 1 ∧ fs.directoryFile.hdr.sectors.length = 5 := by
  unfold format at hf
  simp only [Option.bind_eq_bind, Option.bind_eq_some_iff, Option.some.injEq] at hf
  obtain ⟨b1, hm1, b2, hm2, ⟨mapOk, mapHdr, b3⟩, ha1, u1, hok1, ⟨dirOk, dirHdr, b4⟩, ha2, u2, hok2, disk1, hw1, disk2,
    hw2, mapFile, ho1, dirFile, ho2, -, -, -, -, rfl⟩ := hf
  obtain rfl : mapOk = true := by simpa using hok1
  obtain rfl : dirOk = true := by simpa using hok2
  have hb2 : b2.numBits = NumSectors := by
    rw [numBits_mark hm2, numBits_mark hm1, BitMap.numBits_ofSectors]
  obtain ⟨hlen1, hb3⟩ := sectors_allocated hb2 (by decide) ha1
  obtain ⟨hlen2, -⟩ := sectors_allocated hb3 (by decide) ha2
  obtain ⟨d1, hd1, hon1, -⟩ := mapHdr.writeBack_spec disk (show 0 < NumSectors by decide)
  have hd1' : mapHdr.writeBack disk FreeMapSector = some d1 := hd1
  rw [hw1, Option.some.injEq] at hd1'
  subst hd1'
  obtain ⟨d2, hd2, hon2, hf2⟩ := dirHdr.writeBack_spec disk1 (show 1 < NumSectors by decide)
  have hd2' : dirHdr.writeBack disk1 DirectorySector = some d2 := hd2
  rw [hw2, Option.some.injEq] at hd2'
  subst hd2'
  have hkeep : FileHeader.onDisk disk2 0 = mapHdr := by
    rw [← hon1]
    apply FileHeader.onDisk_congr
    intro a ha
    exact hf2 a (by omega)
  rw [OpenFile.openSector, show FreeMapSector = BitVec.ofNat 32 0 from rfl, FileHeader.fetchFrom_eq disk2 (by decide),
    Option.map_some, Option.some.injEq, hkeep] at ho1
  rw [OpenFile.openSector, show DirectorySector = BitVec.ofNat 32 1 from rfl,
    FileHeader.fetchFrom_eq disk2 (by decide), Option.map_some, Option.some.injEq, hon2] at ho2
  subst ho1 ho2
  exact ⟨hlen1, hlen2⟩

/-! ## Mounting -/

/-- `FileSystem::FileSystem(FALSE)`. -/
def mount (disk : Disk) : Option FileSystem := do
  let freeMapFile ← OpenFile.openSector disk FreeMapSector 0
  let directoryFile ← OpenFile.openSector disk DirectorySector 0
  some { disk := disk, freeMapFile := freeMapFile, directoryFile := directoryFile }

/-- **A consistent disk** can be mounted again: the two headers are read back. -/
theorem mount_spec (h : Consistent fs freeMap table owned owner) :
    ∃ fs', mount fs.disk = some fs' ∧ fs'.disk = fs.disk ∧ Consistent fs' freeMap table owned owner := by
  have hmap : OpenFile.openSector fs.disk FreeMapSector 0 = some ⟨fs.freeMapFile.hdr, 0, 0⟩ := by
    rw [OpenFile.openSector, show FreeMapSector = BitVec.ofNat 32 0 from rfl,
      FileHeader.fetchFrom_eq fs.disk (by decide), Option.map_some, h.mapOnDisk]
  have hdir : OpenFile.openSector fs.disk DirectorySector 0 = some ⟨fs.directoryFile.hdr, 0, 0⟩ := by
    rw [OpenFile.openSector, show DirectorySector = BitVec.ofNat 32 1 from rfl,
      FileHeader.fetchFrom_eq fs.disk (by decide), Option.map_some, h.dirOnDisk]
  refine ⟨⟨fs.disk, ⟨fs.freeMapFile.hdr, 0, 0⟩, ⟨fs.directoryFile.hdr, 0, 0⟩⟩, ?_, rfl, ?_⟩
  · simp only [mount, hmap, hdir, Option.bind_eq_bind, Option.bind_some]
  · obtain ⟨l1, l2, l3, l4, l5, l6, l7⟩ := h.layout
    obtain ⟨m1, m2⟩ := h.storesMap
    exact ⟨⟨l1, l2, l3, l4, l5, l6, l7⟩, h.mapOnDisk, h.dirOnDisk, ⟨m1, m2⟩, h.storesTable, h.homed, h.system,
      h.used, h.unused, h.beyond, h.numSectors, h.bits, h.names⟩

end FileSystem

/-! ## The implicit position -/

namespace OpenFile

/-- `OpenFile::Seek`. -/
def seek (f : OpenFile) (position : Word) : OpenFile := { f with seekPosition := position }

/-- `OpenFile::Read`. -/
def read (disk : Disk) (f : OpenFile) (junk into : Buffer) (off : Nat) (numBytes : Word) :
    Option (Word × Buffer × OpenFile) :=
  (readAt disk f.hdr junk into off numBytes f.seekPosition).map (fun r =>
    (r.1, r.2, { f with seekPosition := f.seekPosition + r.1 }))

/-- `OpenFile::Write`. -/
def write (disk : Disk) (f : OpenFile) (junk : Nat → Buffer) (src : Buffer) (numBytes : Word) :
    Option (Word × Disk × OpenFile) :=
  (writeAt disk f.hdr junk src numBytes f.seekPosition).map (fun r =>
    (r.1, r.2, { f with seekPosition := f.seekPosition + r.1 }))

end OpenFile

end Nachos
