import Nachos.Lib.CInt
import Nachos.Userprog.BitMap
import Nachos.Lib.Bytes

/-!
# Disk sectors and file headers

The disk of `filesys/synchdisk.cc` as an array of sectors, and `FileHeader` of
`filesys/filehdr.cc`.

A buffer (`char *`, the memory of an object, the disk) is a function from addresses to bytes.
`none` is a failed `ASSERT`, or an index outside `dataSectors`.

* `writeBack_spec` — a header written to a sector is read back.
* `allocate_spec` — the data sectors of a new file were free and are marked.
* `deallocate_spec` — they are cleared, and the assertion holds.
-/

set_option autoImplicit false

namespace Nachos

abbrev Buffer := Nat → Byte

/-- The contents of the disk; sector `s` starts at `s * SectorSize`. -/
abbrev Disk := Nat → Byte

def NumSectors : Nat := 1024

/-- `SynchDisk::ReadSector(sector, &data[off])`. -/
def readSector (disk : Disk) (sector : Word) (data : Buffer) (off : Nat) : Option Buffer :=
  if sector.toNat < NumSectors then
    some (Bytes.copy disk (sector.toNat * SectorSize) data off SectorSize)
  else none

/-- `SynchDisk::WriteSector(sector, &data[off])`. -/
def writeSector (disk : Disk) (sector : Word) (data : Buffer) (off : Nat) : Option Disk :=
  if sector.toNat < NumSectors then
    some (Bytes.copy data off disk (sector.toNat * SectorSize) SectorSize)
  else none

/-! ## File headers -/

def NumDirect : Nat := (SectorSize - 2 * 4) / 4
def MaxFileSize : Nat := NumDirect * SectorSize

/-- `class FileHeader`. -/
structure FileHeader where
  numBytes : Word
  numSectors : Word
  dataSectors : List Word
  numDirect : dataSectors.length = NumDirect
  deriving DecidableEq

namespace FileHeader

/-- The object whose memory is `m`. -/
def ofBuffer (m : Buffer) : FileHeader where
  numBytes := Bytes.wordAt m 0
  numSectors := Bytes.wordAt m 4
  dataSectors := Bytes.wordsAt m 8 NumDirect
  numDirect := by simp [Bytes.wordsAt]

/-- The memory of an object. -/
def toBuffer (h : FileHeader) : Buffer := Bytes.ofWords (h.numBytes :: h.numSectors :: h.dataSectors)

/-- `FileHeader::FetchFrom`. -/
def fetchFrom (disk : Disk) (sector : Word) : Option FileHeader :=
  (readSector disk sector (fun _ => 0) 0).map ofBuffer

/-- `FileHeader::WriteBack`. -/
def writeBack (h : FileHeader) (disk : Disk) (sector : Word) : Option Disk :=
  writeSector disk sector h.toBuffer 0

def setSector (h : FileHeader) (i : Nat) (s : Word) : FileHeader :=
  { h with dataSectors := h.dataSectors.set i s, numDirect := by rw [List.length_set]; exact h.numDirect }

/-- The loop of `Allocate`, from `i` on, for `n` more sectors. -/
def allocateFrom : Nat → Nat → FileHeader → BitMap → Option (FileHeader × BitMap)
  | _, 0, h, freeMap => some (h, freeMap)
  | i, n + 1, h, freeMap =>
    let (found, freeMap) := freeMap.find
    let sector : Word := match found with
      | some s => BitVec.ofNat 32 s
      | none => -1
    if i < NumDirect then allocateFrom (i + 1) n (h.setSector i sector) freeMap else none

/-- `FileHeader::Allocate`, on an object that holds `h`. -/
def allocate (h : FileHeader) (freeMap : BitMap) (fileSize : Word) :
    Option (Bool × FileHeader × BitMap) :=
  let numSectors := fileSize.sdiv 128 + if (0 : Word).slt (fileSize.srem 128) then 1 else 0
  let h := { h with numBytes := fileSize, numSectors := numSectors }
  if (freeMap.numClear : Int) < numSectors.toInt then some (false, h, freeMap)
  else (allocateFrom 0 numSectors.toInt.toNat h freeMap).map (fun (h, freeMap) => (true, h, freeMap))

/-- The loop of `Deallocate`, from `i` on, for `n` more sectors. -/
def deallocateFrom (h : FileHeader) : Nat → Nat → BitMap → Option BitMap
  | _, 0, freeMap => some freeMap
  | i, n + 1, freeMap =>
    match h.dataSectors[i]? with
    | none => none
    | some s =>
      match freeMap.test s.toInt with
      | some true => (freeMap.clear s.toInt).bind (deallocateFrom h (i + 1) n)
      | _ => none

/-- `FileHeader::Deallocate`. -/
def deallocate (h : FileHeader) (freeMap : BitMap) : Option BitMap :=
  deallocateFrom h 0 h.numSectors.toInt.toNat freeMap

/-- `FileHeader::ByteToSector`. -/
def byteToSector (h : FileHeader) (offset : Word) : Option Word := h.dataSectors[(offset.sdiv 128).toNat]?

/-! ## Headers on disk -/

/-- The header in sector `s`. -/
def onDisk (disk : Disk) (s : Nat) : FileHeader := ofBuffer (fun k => disk (s * SectorSize + k))

theorem ext_words {h h' : FileHeader} (h1 : h.numBytes = h'.numBytes) (h2 : h.numSectors = h'.numSectors)
    (h3 : h.dataSectors = h'.dataSectors) : h = h' := by
  cases h
  cases h'
  simp only at h1 h2 h3
  subst h1 h2 h3
  rfl

theorem ofBuffer_congr {m m' : Buffer} (h : ∀ k < SectorSize, m k = m' k) : ofBuffer m = ofBuffer m' := by
  have hword : ∀ a, a + 4 ≤ SectorSize → Bytes.wordAt m a = Bytes.wordAt m' a :=
    fun a ha => Bytes.wordAt_congr (fun k hk => h (a + k) (by omega))
  apply ext_words (hword 0 (by decide)) (hword 4 (by decide))
  show Bytes.wordsAt m 8 NumDirect = Bytes.wordsAt m' 8 NumDirect
  apply List.map_congr_left
  intro i hi
  rw [List.mem_range] at hi
  apply hword _
  simp only [NumDirect, SectorSize] at *
  omega

theorem ofBuffer_toBuffer (h : FileHeader) : ofBuffer h.toBuffer = h := by
  apply ext_words (Bytes.wordAt_ofWords _ 0) (Bytes.wordAt_ofWords _ 1)
  show Bytes.wordsAt h.toBuffer 8 NumDirect = h.dataSectors
  rw [← h.numDirect]
  apply Bytes.wordsAt_ofWords
  intro k _
  have hdiv : (8 + k) / 4 = k / 4 + 2 := by omega
  have hmod : (8 + k) % 4 = k % 4 := by omega
  rw [toBuffer, Bytes.ofWords, Bytes.ofWords, hdiv, hmod]
  rfl

theorem fetchFrom_eq (disk : Disk) {s : Nat} (hs : s < NumSectors) :
    fetchFrom disk (BitVec.ofNat 32 s) = some (onDisk disk s) := by
  have hnum : NumSectors = 1024 := rfl
  rw [fetchFrom, readSector, CInt.toNat_ofNat (by omega), if_pos hs, Option.map_some]
  refine congrArg some (ofBuffer_congr ?_)
  intro k hk
  simp [Bytes.copy, hk]

/-- A header depends on its own sector only. -/
theorem onDisk_congr {disk disk' : Disk} {s : Nat} (h : ∀ a, a / SectorSize = s → disk' a = disk a) :
    onDisk disk' s = onDisk disk s := by
  apply ofBuffer_congr
  intro k hk
  apply h
  rw [Nat.mul_comm, Nat.mul_add_div (by decide), Nat.div_eq_of_lt hk, Nat.add_zero]

/-- **A header is read back from where it was written.** -/
theorem writeBack_spec (h : FileHeader) (disk : Disk) {s : Nat} (hs : s < NumSectors) :
    ∃ disk', h.writeBack disk (BitVec.ofNat 32 s) = some disk' ∧ onDisk disk' s = h ∧
      ∀ a, a / SectorSize ≠ s → disk' a = disk a := by
  have hnum : NumSectors = 1024 := rfl
  have hcopy := Bytes.overlay_copy h.toBuffer 0 disk (s * SectorSize) SectorSize
  refine ⟨Bytes.copy h.toBuffer 0 disk (s * SectorSize) SectorSize, ?_, ?_, ?_⟩
  · rw [writeBack, writeSector, CInt.toNat_ofNat (by omega), if_pos hs]
  · refine (ofBuffer_congr ?_).trans (ofBuffer_toBuffer h)
    intro k hk
    rw [hcopy.inside (s * SectorSize + k) ⟨by omega, by omega⟩, Nat.zero_add, Nat.add_sub_cancel_left]
  · intro a ha
    apply hcopy.outside
    rintro ⟨h1, h2⟩
    apply ha
    apply Nat.div_eq_of_lt_le h1
    rw [Nat.succ_mul]
    exact h2

/-! ## Allocation -/

/-- The data sectors that a header names. -/
def sectors (h : FileHeader) : List Nat := (h.dataSectors.take h.numSectors.toNat).map (·.toNat)

theorem dataSectors_of_sectors {h : FileHeader} {i s : Nat} (hs : h.sectors[i]? = some s) :
    h.dataSectors[i]? = some (BitVec.ofNat 32 s) := by
  rw [sectors, List.getElem?_map, List.getElem?_take] at hs
  split at hs
  · obtain ⟨w, hw, hval⟩ := Option.map_eq_some_iff.1 hs
    rw [hw, ← hval, BitVec.ofNat_toNat, BitVec.setWidth_eq]
  · cases hs

theorem allocateFrom_spec {i n : Nat} (h : FileHeader) (freeMap : BitMap) (hn : n ≤ freeMap.numClear)
    (hi : i + n ≤ NumDirect) :
    ∃ l h' freeMap', allocateFrom i n h freeMap = some (h', freeMap') ∧ l.length = n ∧
      freeMap.Taken l freeMap' ∧ h'.numBytes = h.numBytes ∧ h'.numSectors = h.numSectors ∧
      (∀ j < i, h'.dataSectors[j]? = h.dataSectors[j]?) ∧
      (∀ j (hj : j < l.length), h'.dataSectors[i + j]? = some (BitVec.ofNat 32 l[j])) := by
  induction n generalizing i h freeMap with
  | zero =>
    exact ⟨[], h, freeMap, rfl, rfl, BitMap.Taken.nil freeMap, rfl, rfl, fun _ _ => rfl,
      fun _ hj => absurd hj (Nat.not_lt_zero _)⟩
  | succ n ih =>
    obtain ⟨s, hfind, hs, hbit⟩ := BitMap.find_of_numClear_pos (b := freeMap) (by omega)
    have hclear := BitMap.numClear_setBit hs hbit
    obtain ⟨l, h', freeMap', halloc, hlen, htaken, hbytes, hnum, hbefore, hafter⟩ :=
      ih (i := i + 1) (h.setSector i (BitVec.ofNat 32 s)) (freeMap.setBit s) (by omega) (by omega)
    refine ⟨s :: l, h', freeMap', ?_, by simp [hlen], htaken.cons hs hbit, hbytes, hnum, ?_, ?_⟩
    · rw [allocateFrom, hfind]
      simp only
      rw [if_pos (by omega)]
      exact halloc
    · intro j hj
      rw [hbefore j (by omega)]
      exact List.getElem?_set_ne (by omega)
    · intro j hj
      cases j with
      | zero =>
        rw [Nat.add_zero, hbefore i (by omega)]
        exact List.getElem?_set_self (by rw [h.numDirect]; omega)
      | succ j =>
        have hplace : i + (j + 1) = i + 1 + j := by omega
        rw [hplace]
        exact hafter j (by simpa using hj)

/-- A header that names `l`. -/
theorem sectors_eq {h : FileHeader} {l : List Nat} (hnum : h.numSectors = BitVec.ofNat 32 l.length)
    (hlen : l.length ≤ NumDirect) (hlt : ∀ s ∈ l, s < 2 ^ 31)
    (hdata : ∀ j (hj : j < l.length), h.dataSectors[j]? = some (BitVec.ofNat 32 l[j])) :
    h.sectors = l := by
  have h30 : NumDirect = 30 := rfl
  apply List.ext_getElem?
  intro i
  rw [sectors, hnum, CInt.toNat_ofNat (by omega), List.getElem?_map, List.getElem?_take]
  by_cases hi : i < l.length
  · have hs := hlt l[i] (List.getElem_mem hi)
    rw [if_pos hi, hdata i hi, Option.map_some, CInt.toNat_ofNat (by omega), List.getElem?_eq_getElem hi]
  · rw [if_neg hi, List.getElem?_eq_none (by omega)]
    rfl

/-- The loop stores to the places from `i` on, below `i + n`. -/
theorem allocateFrom_above {i n : Nat} {h h' : FileHeader} {freeMap freeMap' : BitMap}
    (halloc : allocateFrom i n h freeMap = some (h', freeMap')) {j : Nat} (hj : i + n ≤ j) :
    h'.dataSectors[j]? = h.dataSectors[j]? := by
  induction n generalizing i h freeMap with
  | zero => cases halloc; rfl
  | succ n ih =>
    rw [allocateFrom] at halloc
    simp only at halloc
    split at halloc
    · rw [ih halloc (by omega)]
      exact List.getElem?_set_ne (by omega)
    · cases halloc

/-- `divRoundUp(fileSize, SectorSize)`. -/
theorem numSectors_ofNat {size : Nat} (hsize : size < 2 ^ 31) :
    (BitVec.ofNat 32 size).sdiv 128 +
      (if (0 : Word).slt ((BitVec.ofNat 32 size).srem 128) then 1 else 0) =
      BitVec.ofNat 32 (divRoundUp size SectorSize) := by
  have hmod : size % 128 < 128 := Nat.mod_lt size (by decide)
  have h0 : (0 : Word) = BitVec.ofNat 32 0 := rfl
  have h128 : (128 : Word) = BitVec.ofNat 32 128 := rfl
  rw [h128, CInt.sdiv_ofNat hsize (by decide), CInt.srem_ofNat hsize (by decide), h0,
    CInt.slt_ofNat (by decide) (by omega), divRoundUp, BitVec.ofNat_add]
  by_cases hrem : 0 < size % 128
  · rw [decide_eq_true hrem, if_pos rfl, if_pos (show size % SectorSize > 0 from hrem)]
    rfl
  · rw [decide_eq_false hrem, if_neg (by decide), if_neg (show ¬ size % SectorSize > 0 from hrem)]
    rfl

/-- `Allocate`, by the number of sectors that it computes. -/
theorem allocate_eq (h : FileHeader) (freeMap : BitMap) {fileSize : Word} {n : Nat} (hn : n < 2 ^ 31)
    (hcount : fileSize.sdiv 128 + (if (0 : Word).slt (fileSize.srem 128) then 1 else 0) = BitVec.ofNat 32 n) :
    h.allocate freeMap fileSize =
      if freeMap.numClear < n then
        some (false, { h with numBytes := fileSize, numSectors := BitVec.ofNat 32 n }, freeMap)
      else (allocateFrom 0 n { h with numBytes := fileSize, numSectors := BitVec.ofNat 32 n } freeMap).map
        (fun (h, freeMap) => (true, h, freeMap)) := by
  unfold allocate
  simp only [hcount, CInt.toInt_ofNat hn, Int.toNat_natCast, Int.ofNat_lt]

/-- `Allocate` of a file whose sectors the header has places for. -/
theorem allocate_fits (h : FileHeader) {freeMap : BitMap} (hbits : freeMap.numBits < 2 ^ 31) {fileSize : Word}
    {n : Nat} (hn : n ≤ NumDirect)
    (hcount : fileSize.sdiv 128 + (if (0 : Word).slt (fileSize.srem 128) then 1 else 0) = BitVec.ofNat 32 n) :
    (freeMap.numClear < n ∧ ∃ h', h.allocate freeMap fileSize = some (false, h', freeMap)) ∨
    (∃ l h' freeMap', h.allocate freeMap fileSize = some (true, h', freeMap') ∧ l.length = n ∧
      freeMap.Taken l freeMap' ∧ h'.numBytes = fileSize ∧ h'.numSectors = BitVec.ofNat 32 l.length ∧
      h'.sectors = l ∧ ∀ j, l.length ≤ j → h'.dataSectors[j]? = h.dataSectors[j]?) := by
  have h30 : NumDirect = 30 := rfl
  rw [allocate_eq h freeMap (by omega) hcount]
  by_cases hclear : freeMap.numClear < n
  · left
    rw [if_pos hclear]
    exact ⟨hclear, _, rfl⟩
  · right
    rw [if_neg hclear]
    obtain ⟨l, h', freeMap', halloc, hlen, htaken, hbytes, hnum, -, hdata⟩ := allocateFrom_spec (i := 0)
      { h with numBytes := fileSize, numSectors := BitVec.ofNat 32 n } freeMap (Nat.le_of_not_lt hclear) (by omega)
    rw [halloc]
    refine ⟨l, h', freeMap', rfl, hlen, htaken, hbytes, by rw [hnum, hlen], ?_, ?_⟩
    · refine sectors_eq (by rw [hnum, hlen]) (by omega) ?_ ?_
      · intro s hs
        have := (htaken.free s hs).1
        omega
      · intro j hj
        rw [← hdata j hj, Nat.zero_add]
    · intro j hj
      exact allocateFrom_above halloc (by omega)

/-- **`Allocate`**: the file gets the sectors it needs, or there are not enough. -/
theorem allocate_spec (h : FileHeader) {freeMap : BitMap} (hmap : freeMap.numBits = NumSectors) {size : Nat}
    (hsize : size ≤ MaxFileSize) :
    (freeMap.numClear < divRoundUp size SectorSize ∧
      ∃ h', h.allocate freeMap (BitVec.ofNat 32 size) = some (false, h', freeMap)) ∨
    (∃ l h' freeMap', h.allocate freeMap (BitVec.ofNat 32 size) = some (true, h', freeMap') ∧
      l.length = divRoundUp size SectorSize ∧ freeMap.Taken l freeMap' ∧
      h'.numBytes = BitVec.ofNat 32 size ∧ h'.numSectors = BitVec.ofNat 32 l.length ∧ h'.sectors = l) := by
  have hn : divRoundUp size SectorSize ≤ NumDirect := divRoundUp_le hsize
  have hmax : MaxFileSize = 3840 := rfl
  have h1024 : NumSectors = 1024 := rfl
  rcases h.allocate_fits (show freeMap.numBits < 2 ^ 31 by omega) hn (numSectors_ofNat (by omega)) with
    hfalse | ⟨l, h', freeMap', halloc, hlen, htaken, hbytes, hnum, hsec, -⟩
  · exact .inl hfalse
  · exact .inr ⟨l, h', freeMap', halloc, hlen, htaken, hbytes, hnum, hsec⟩

theorem deallocateFrom_spec (h : FileHeader) {l : List Nat} (hlt : ∀ s ∈ l, s < NumSectors) {i : Nat}
    (hdata : ∀ j (hj : j < l.length), h.dataSectors[i + j]? = some (BitVec.ofNat 32 l[j])) (hnd : l.Nodup)
    {freeMap : BitMap} (hmap : freeMap.numBits = NumSectors) (hbits : ∀ s ∈ l, freeMap.bit s = true) :
    h.deallocateFrom i l.length freeMap = some (l.foldl BitMap.clearBit freeMap) := by
  have h1024 : NumSectors = 1024 := rfl
  induction l generalizing i freeMap with
  | nil => rfl
  | cons s l ih =>
    have hs := hlt s List.mem_cons_self
    obtain ⟨hnot, hnd'⟩ := List.nodup_cons.1 hnd
    have hrange : freeMap.inRange (s : Int) = true := BitMap.inRange_iff.2 (by omega)
    have hget := hdata 0 (Nat.zero_lt_succ _)
    rw [Nat.add_zero] at hget
    rw [List.length_cons, deallocateFrom, hget]
    simp only [List.getElem_cons_zero]
    rw [CInt.toInt_ofNat (by omega), BitMap.test, if_pos hrange, Int.toNat_natCast,
      hbits s List.mem_cons_self, BitMap.clear, if_pos hrange, Int.toNat_natCast, List.foldl_cons]
    refine ih (i := i + 1) ?_ ?_ hnd' (show (freeMap.clearBit s).numBits = NumSectors from hmap) ?_
    · exact fun u hu => hlt u (List.mem_cons_of_mem s hu)
    · intro j hj
      have := hdata (j + 1) (Nat.succ_lt_succ hj)
      rw [show i + 1 + j = i + (j + 1) by omega, this]
      rfl
    · intro u hu
      have hne : u ≠ s := by
        rintro rfl
        exact hnot hu
      rw [BitMap.bit_clearBit (by omega), if_neg hne]
      exact hbits u (List.mem_cons_of_mem s hu)

/-- **`Deallocate`** clears the data sectors, and its assertion holds, if they are marked. -/
theorem deallocate_spec (h : FileHeader) {l : List Nat} (hsec : h.sectors = l)
    (hnum : h.numSectors.toNat ≤ NumDirect) (hlt : ∀ s ∈ l, s < NumSectors) (hnd : l.Nodup)
    {freeMap : BitMap} (hmap : freeMap.numBits = NumSectors) (hbits : ∀ s ∈ l, freeMap.bit s = true) :
    ∃ freeMap', h.deallocate freeMap = some freeMap' ∧ freeMap'.numBits = freeMap.numBits ∧
      ∀ j, freeMap'.bit j = if j ∈ l then false else freeMap.bit j := by
  have h30 : NumDirect = 30 := rfl
  have hlen : l.length = h.numSectors.toNat := by
    rw [← hsec, sectors, List.length_map, List.length_take, h.numDirect]
    omega
  have hcount : h.numSectors.toInt.toNat = l.length := by
    rw [hlen, BitVec.toInt_eq_toNat_of_lt (by omega), Int.toNat_natCast]
  refine ⟨l.foldl BitMap.clearBit freeMap, ?_, BitMap.numBits_foldl_clearBit l freeMap, ?_⟩
  · rw [deallocate, hcount]
    refine deallocateFrom_spec h hlt ?_ hnd hmap hbits
    intro j hj
    rw [Nat.zero_add]
    apply dataSectors_of_sectors
    rw [hsec, List.getElem?_eq_getElem hj]
  · exact BitMap.bit_foldl_clearBit (fun s hs => by rw [hmap]; exact hlt s hs)

end FileHeader

end Nachos
