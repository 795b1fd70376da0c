import Nachos.Filesys.Directory

/-!
# The file system

`FileSystem::FileSystem(TRUE)`, `Create` and `Remove` of `filesys/filesys.cc`, and
`BitMap::FetchFrom` and `WriteBack`, for the version without `FILESYS_STUB`.

`Layout` is what the two files that the file system keeps open need of their headers, `StoresMap`
and `StoresTable` say what they hold.

* `fetchFreeMap_eq`, `fetchDirectory_eq` — they are read back as stored.
* `writeFreeMap_spec`, `writeDirectory_spec` — storing one changes its own sectors.
-/

set_option autoImplicit false

namespace Nachos

def FreeMapSector : Word := 0
def DirectorySector : Word := 1
def FreeMapFileSize : Nat := NumSectors / 8
def DirectoryFileSize : Nat := DirectoryEntrySize * NumDirEntries

namespace BitMap

/-- The bitmap whose words are in `m`. -/
def ofBuffer (b : BitMap) (m : Buffer) : BitMap where
  numBits := b.numBits
  map := Bytes.wordsAt m 0 (divRoundUp b.numBits BitsInWord)
  numWords := by simp [Bytes.wordsAt]

/-- `BitMap::FetchFrom`. -/
def fetchFrom (b : BitMap) (disk : Disk) (file : OpenFile) (junk : Buffer) : Option BitMap :=
  (OpenFile.readAt disk file.hdr junk (Bytes.ofWords b.map) 0
    (BitVec.ofNat 32 (divRoundUp b.numBits BitsInWord * 4)) 0).map (fun r => b.ofBuffer r.2)

/-- `BitMap::WriteBack`. -/
def writeBack (b : BitMap) (disk : Disk) (file : OpenFile) (junk : Nat → Buffer) : Option Disk :=
  (OpenFile.writeAt disk file.hdr junk (Bytes.ofWords b.map)
    (BitVec.ofNat 32 (divRoundUp b.numBits BitsInWord * 4)) 0).map (·.2)

/-- `new BitMap(NumSectors)`. -/
def ofSectors (junk : Buffer) : BitMap :=
  init NumSectors (Bytes.wordsAt junk 0 (divRoundUp NumSectors BitsInWord)) (by simp [Bytes.wordsAt])

theorem numBits_ofSectors (junk : Buffer) : (ofSectors junk).numBits = NumSectors := by
  unfold ofSectors
  exact numBits_init _ _ _

theorem bit_ofSectors (junk : Buffer) {s : Nat} (hs : s < NumSectors) :
    (ofSectors junk).bit s = false := by
  unfold ofSectors
  exact bit_init _ _ _ hs

end BitMap

/-- The disk and the two files that stay open. -/
structure FileSystem where
  disk : Disk
  freeMapFile : OpenFile
  directoryFile : OpenFile

namespace FileSystem

/-- `FileSystem::FileSystem(TRUE)`. -/
def format (disk : Disk) (junk : Nat → Buffer) : Option FileSystem := do
  let freeMap := BitMap.ofSectors (junk 0)
  let directory := Directory.init (junk 1)
  let freeMap ← freeMap.mark FreeMapSector.toInt
  let freeMap ← freeMap.mark DirectorySector.toInt
  let (mapOk, mapHdr, freeMap) ←
    (FileHeader.ofBuffer (junk 2)).allocate freeMap (BitVec.ofNat 32 FreeMapFileSize)
  guard mapOk
  let (dirOk, dirHdr, freeMap) ←
    (FileHeader.ofBuffer (junk 3)).allocate freeMap (BitVec.ofNat 32 DirectoryFileSize)
  guard dirOk
  let disk ← mapHdr.writeBack disk FreeMapSector
  let disk ← dirHdr.writeBack disk DirectorySector
  let freeMapFile ← OpenFile.openSector disk FreeMapSector 0
  let directoryFile ← OpenFile.openSector disk DirectorySector 0
  let disk ← freeMap.writeBack disk freeMapFile (fun k => junk (4 + k))
  let disk ← Directory.writeBack directory disk directoryFile (fun k => junk (7 + k))
  some { disk := disk, freeMapFile := freeMapFile, directoryFile := directoryFile }

/-- The directory, as `Create` and `Remove` fetch it. -/
def fetchDirectory (fs : FileSystem) (junk : Nat → Buffer) : Option Buffer :=
  Directory.fetchFrom (Directory.init (junk 0)) fs.disk fs.directoryFile (junk 1)

/-- The free map, as `Create` and `Remove` fetch it. -/
def fetchFreeMap (fs : FileSystem) (junk : Nat → Buffer) : Option BitMap :=
  (BitMap.ofSectors (junk 2)).fetchFrom fs.disk fs.freeMapFile (junk 3)

/-- `FileSystem::Create`. -/
def create (fs : FileSystem) (junk : Nat → Buffer) (name : List Byte) (initialSize : Word) :
    Option (Bool × FileSystem) := do
  let directory ← fs.fetchDirectory junk
  if Directory.find directory name ≠ -1 then
    some (false, fs)
  else
    let freeMap ← fs.fetchFreeMap junk
    match freeMap.find with
    | (none, _) => some (false, fs)
    | (some sector, freeMap) =>
      match Directory.add directory name (BitVec.ofNat 32 sector) with
      | none => some (false, fs)
      | some directory =>
        let (success, hdr, freeMap) ← (FileHeader.ofBuffer (junk 4)).allocate freeMap initialSize
        if !success then
          some (false, fs)
        else
          let disk ← hdr.writeBack fs.disk (BitVec.ofNat 32 sector)
          let disk ← Directory.writeBack directory disk fs.directoryFile (fun k => junk (5 + k))
          let disk ← freeMap.writeBack disk fs.freeMapFile (fun k => junk (8 + k))
          some (true, { fs with disk := disk })

/-- `FileSystem::Remove`. -/
def remove (fs : FileSystem) (junk : Nat → Buffer) (name : List Byte) : Option (Bool × FileSystem) := do
  let directory ← fs.fetchDirectory junk
  let sector := Directory.find directory name
  if sector = -1 then
    some (false, fs)
  else
    let fileHdr ← FileHeader.fetchFrom fs.disk sector
    let freeMap ← fs.fetchFreeMap junk
    let freeMap ← fileHdr.deallocate freeMap
    let freeMap ← freeMap.clear sector.toInt
    let directory := (Directory.remove directory name).getD directory
    let disk ← freeMap.writeBack fs.disk fs.freeMapFile (fun k => junk (4 + k))
    let disk ← Directory.writeBack directory disk fs.directoryFile (fun k => junk (7 + k))
    some (true, { fs with disk := disk })

/-! ## The stored map and directory -/

/-- The headers of the two files that stay open. -/
structure Layout (fs : FileSystem) : Prop where
  mapHdr : fs.freeMapFile.hdr.Covers fs.freeMapFile.hdr.sectors
  mapLength : fs.freeMapFile.hdr.numBytes.toNat = FreeMapFileSize
  mapNodup : fs.freeMapFile.hdr.sectors.Nodup
  dirHdr : fs.directoryFile.hdr.Covers fs.directoryFile.hdr.sectors
  dirLength : fs.directoryFile.hdr.numBytes.toNat = DirectoryFileSize
  dirNodup : fs.directoryFile.hdr.sectors.Nodup
  disjoint : ∀ s ∈ fs.directoryFile.hdr.sectors, s ∉ fs.freeMapFile.hdr.sectors

/-- The free map on disk is `freeMap`. -/
structure StoresMap (fs : FileSystem) (freeMap : BitMap) : Prop where
  numBits : freeMap.numBits = NumSectors
  bytes : ∀ k < FreeMapFileSize,
    OpenFile.view fs.freeMapFile.hdr.sectors fs.disk k = some (Bytes.ofWords freeMap.map k)

/-- The directory on disk is `table`. -/
def StoresTable (fs : FileSystem) (table : Buffer) : Prop :=
  ∀ k < DirectoryFileSize, OpenFile.view fs.directoryFile.hdr.sectors fs.disk k = some (table k)

variable {fs : FileSystem} {freeMap : BitMap} {table : Buffer}

/-- The layout does not depend on what is on disk. -/
theorem Layout.setDisk (h : Layout fs) (disk : Disk) : Layout { fs with disk := disk } :=
  ⟨h.mapHdr, h.mapLength, h.mapNodup, h.dirHdr, h.dirLength, h.dirNodup, h.disjoint⟩

theorem bitMap_ext {b b' : BitMap} (h1 : b.numBits = b'.numBits) (h2 : b.map = b'.map) : b = b' := by
  cases b
  cases b'
  simp only at h1 h2
  subst h1 h2
  rfl

theorem mapBytes {b : BitMap} (h : b.numBits = NumSectors) :
    divRoundUp b.numBits BitsInWord * 4 = FreeMapFileSize := by
  rw [h]
  decide

theorem ofBuffer_eq {b : BitMap} {m : Buffer} (hb : b.numBits = freeMap.numBits)
    (hm : ∀ k < divRoundUp b.numBits BitsInWord * 4, m k = Bytes.ofWords freeMap.map k) :
    b.ofBuffer m = freeMap := by
  have hwords : freeMap.map.length = divRoundUp b.numBits BitsInWord := by
    rw [freeMap.numWords, hb]
  refine bitMap_ext hb ?_
  show Bytes.wordsAt m 0 (divRoundUp b.numBits BitsInWord) = freeMap.map
  rw [← hwords]
  apply Bytes.wordsAt_ofWords
  intro k hk
  rw [Nat.zero_add]
  exact hm k (by omega)

theorem fetchFreeMap_eq (hl : Layout fs) (h : StoresMap fs freeMap) (junk : Nat → Buffer) :
    fs.fetchFreeMap junk = some freeMap := by
  have hnum := BitMap.numBits_ofSectors (junk 2)
  unfold fetchFreeMap
  generalize BitMap.ofSectors (junk 2) = b at hnum ⊢
  obtain ⟨m, hread, hbytes⟩ := OpenFile.readAt_whole hl.mapHdr fs.disk (junk 3) (Bytes.ofWords b.map)
    (by decide) hl.mapLength
  rw [BitMap.fetchFrom, mapBytes hnum, hread, Option.map_some, ofBuffer_eq]
  · rw [hnum, h.numBits]
  · intro k hk
    rw [mapBytes hnum] at hk
    have hk' := hbytes k hk
    rw [h.bytes k hk, Option.some.injEq] at hk'
    exact hk'

theorem fetchDirectory_eq (hl : Layout fs) (h : StoresTable fs table) (junk : Nat → Buffer) :
    ∃ t, fs.fetchDirectory junk = some t ∧ ∀ k < DirectoryFileSize, t k = table k := by
  obtain ⟨t, hread, hbytes⟩ := OpenFile.readAt_whole hl.dirHdr fs.disk (junk 1) (Directory.init (junk 0))
    (by decide) hl.dirLength
  have hsize : NumDirEntries * DirectoryEntrySize = DirectoryFileSize := Nat.mul_comm _ _
  refine ⟨t, by rw [fetchDirectory, Directory.fetchFrom, hsize, hread, Option.map_some], ?_⟩
  intro k hk
  have hk' := hbytes k hk
  rw [h k hk, Option.some.injEq] at hk'
  exact hk'

theorem writeFreeMap_spec (hl : Layout fs) (hnum : freeMap.numBits = NumSectors) (junk : Nat → Buffer) :
    ∃ disk, freeMap.writeBack fs.disk fs.freeMapFile junk = some disk ∧
      StoresMap { fs with disk := disk } freeMap ∧
      ∀ a, a / SectorSize ∉ fs.freeMapFile.hdr.sectors → disk a = fs.disk a := by
  obtain ⟨disk, hwrite, hin, hframe⟩ := OpenFile.writeAt_whole hl.mapHdr hl.mapNodup fs.disk junk
    (Bytes.ofWords freeMap.map) (by decide) hl.mapLength
  exact ⟨disk, by rw [BitMap.writeBack, mapBytes hnum, hwrite, Option.map_some], ⟨hnum, hin⟩, hframe⟩

theorem writeDirectory_spec (hl : Layout fs) (table : Buffer) (junk : Nat → Buffer) :
    ∃ disk, Directory.writeBack table fs.disk fs.directoryFile junk = some disk ∧
      StoresTable { fs with disk := disk } table ∧
      ∀ a, a / SectorSize ∉ fs.directoryFile.hdr.sectors → disk a = fs.disk a := by
  obtain ⟨disk, hwrite, hin, hframe⟩ := OpenFile.writeAt_whole hl.dirHdr hl.dirNodup fs.disk junk table
    (by decide) hl.dirLength
  have hsize : NumDirEntries * DirectoryEntrySize = DirectoryFileSize := Nat.mul_comm _ _
  exact ⟨disk, by rw [Directory.writeBack, hsize, hwrite, Option.map_some], hin, hframe⟩

/-- A change of the disk outside the two files. -/
theorem StoresMap.frame (h : StoresMap fs freeMap) {disk : Disk}
    (hd : ∀ a, a / SectorSize ∈ fs.freeMapFile.hdr.sectors → disk a = fs.disk a) :
    StoresMap { fs with disk := disk } freeMap := by
  refine ⟨h.numBits, ?_⟩
  intro k hk
  rw [← h.bytes k hk]
  exact Paged.view_frame (by decide) hd k

theorem StoresTable.frame (h : StoresTable fs table) {disk : Disk}
    (hd : ∀ a, a / SectorSize ∈ fs.directoryFile.hdr.sectors → disk a = fs.disk a) :
    StoresTable { fs with disk := disk } table := by
  intro k hk
  rw [← h k hk]
  exact Paged.view_frame (by decide) hd k

end FileSystem

end Nachos
