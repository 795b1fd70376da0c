import Nachos.Filesys.FileHeader

/-!
# The size of a new file

`FileHeader::Allocate` compares the number of sectors of a new file with the number of free
sectors, and with nothing else.  The table `dataSectors` of a header has `NumDirect` places;
a size above `MaxFileSize` needs more, and a negative size gives a negative `numSectors`.

* `allocatesWell_iff` — the sizes for which `Allocate` refuses the file or fills in a header
  that names its sectors.
* `allocate_overflows` — the size above `MaxFileSize` that is not refused.
* `allocate_negative` — what `Allocate` returns for a negative size.
-/

set_option autoImplicit false

namespace Nachos

namespace FileHeader

/-- `Allocate` returns FALSE, and the free map is as it was. -/
def Refuses (h : FileHeader) (freeMap : BitMap) (fileSize : Word) : Prop :=
  ∃ h', h.allocate freeMap fileSize = some (false, h', freeMap)

/-- `h'` is `h` filled in for a file of `fileSize` bytes: its sectors were free in `freeMap` and
are marked in `freeMap'`, and the places above `numSectors` are as they were. -/
structure FilledIn (h : FileHeader) (freeMap : BitMap) (fileSize : Word) (h' : FileHeader)
    (freeMap' : BitMap) : Prop where
  numBytes : h'.numBytes = fileSize
  nonneg : 0 ≤ h'.numSectors.toInt
  places : h'.numSectors.toInt ≤ NumDirect
  length : (h'.sectors.length : Int) = h'.numSectors.toInt
  taken : freeMap.Taken h'.sectors freeMap'
  above : ∀ j, h'.sectors.length ≤ j → h'.dataSectors[j]? = h.dataSectors[j]?
  covers : h'.numBytes.toInt ≤ h'.numSectors.toInt * SectorSize

/-- `Allocate` refuses the file or fills in the header, and refuses what is above `MaxFileSize`. -/
def AllocatesWell (h : FileHeader) (freeMap : BitMap) (fileSize : Word) : Prop :=
  (h.Refuses freeMap fileSize ∨ ∃ h' freeMap', h.allocate freeMap fileSize = some (true, h', freeMap') ∧
    h.FilledIn freeMap fileSize h' freeMap') ∧
  (MaxFileSize < fileSize.toInt → h.Refuses freeMap fileSize)

/-! ## Sizes that a header has places for -/

/-- A file of `n` sectors, at most `NumDirect`, is refused or its header is filled in. -/
theorem refuses_or_fills (h : FileHeader) {freeMap : BitMap} (hbits : freeMap.numBits < 2 ^ 31) {fileSize : Word}
    {n : Nat} (hn : n ≤ NumDirect)
    (hcount : fileSize.sdiv 128 + (if (0 : Word).slt (fileSize.srem 128) then 1 else 0) = BitVec.ofNat 32 n)
    (hcovers : fileSize.toInt ≤ n * SectorSize) :
    h.Refuses freeMap fileSize ∨ ∃ h' freeMap', h.allocate freeMap fileSize = some (true, h', freeMap') ∧
      h.FilledIn freeMap fileSize h' freeMap' := by
  have h30 : NumDirect = 30 := rfl
  rcases h.allocate_fits hbits hn hcount with
    ⟨-, hfalse⟩ | ⟨l, h', freeMap', halloc, hlen, htaken, hbytes, hnum, hsec, habove⟩
  · exact .inl hfalse
  · right
    have hint : h'.numSectors.toInt = n := by rw [hnum, hlen, CInt.toInt_ofNat (by omega)]
    have hlength : h'.sectors.length = n := by rw [hsec, hlen]
    refine ⟨h', freeMap', halloc, hbytes, by omega, by omega, by omega, ?_, ?_, ?_⟩
    · rw [hsec]
      exact htaken
    · rw [hsec]
      exact habove
    · rw [hbytes, hint]
      exact hcovers

/-- From 0 to `MaxFileSize`. -/
theorem allocatesWell_ofNat (h : FileHeader) {freeMap : BitMap} (hbits : freeMap.numBits < 2 ^ 31) {size : Nat}
    (hsize : size ≤ MaxFileSize) : AllocatesWell h freeMap (BitVec.ofNat 32 size) := by
  have hmax : MaxFileSize = 3840 := rfl
  have hcovers := le_divRoundUp_mul size (s := SectorSize) (by decide)
  constructor
  · apply h.refuses_or_fills hbits (divRoundUp_le hsize) (numSectors_ofNat (by omega))
    rw [CInt.toInt_ofNat (by omega)]
    exact_mod_cast hcovers
  · intro habove
    rw [CInt.toInt_ofNat (by omega)] at habove
    omega

/-! ## Sizes above `MaxFileSize` -/

/-- The loop leaves the table if it has more sectors to store than there are places. -/
theorem allocateFrom_overflows {i n : Nat} (h : FileHeader) (freeMap : BitMap) (hi : i ≤ NumDirect)
    (hn : NumDirect < i + n) : allocateFrom i n h freeMap = none := by
  induction n generalizing i h freeMap with
  | zero => omega
  | succ n ih =>
    rw [allocateFrom]
    simp only
    split
    · exact ih _ _ (by omega) (by omega)
    · rfl

theorem numDirect_lt {size : Nat} (hsize : MaxFileSize < size) : NumDirect < divRoundUp size SectorSize := by
  have hcovers := le_divRoundUp_mul size (s := SectorSize) (by decide)
  unfold MaxFileSize at hsize
  apply Nat.lt_of_mul_lt_mul_right
  exact Nat.lt_of_lt_of_le hsize hcovers

theorem divRoundUp_lt {size : Nat} (hsize : size < 2 ^ 31) : divRoundUp size SectorSize < 2 ^ 31 := by
  have hle : divRoundUp size SectorSize ≤ 2 ^ 24 := by
    apply divRoundUp_le
    simp only [SectorSize]
    omega
  omega

/-- **A size above `MaxFileSize` is refused for want of free sectors, or the table overflows.** -/
theorem allocate_large (h : FileHeader) (freeMap : BitMap) {size : Nat} (hsize : size < 2 ^ 31)
    (hlarge : MaxFileSize < size) :
    (freeMap.numClear < divRoundUp size SectorSize ∧ h.Refuses freeMap (BitVec.ofNat 32 size)) ∨
    (divRoundUp size SectorSize ≤ freeMap.numClear ∧ h.allocate freeMap (BitVec.ofNat 32 size) = none) := by
  have heq := h.allocate_eq freeMap (divRoundUp_lt hsize) (numSectors_ofNat hsize)
  by_cases hclear : freeMap.numClear < divRoundUp size SectorSize
  · rw [if_pos hclear] at heq
    exact .inl ⟨hclear, _, heq⟩
  · have hplaces := numDirect_lt hlarge
    rw [if_neg hclear, allocateFrom_overflows _ _ (Nat.zero_le _) (by omega)] at heq
    exact .inr ⟨by omega, heq⟩

theorem not_allocatesWell {h : FileHeader} {freeMap : BitMap} {fileSize : Word}
    (hnone : h.allocate freeMap fileSize = none) : ¬ AllocatesWell h freeMap fileSize := by
  unfold AllocatesWell Refuses
  rw [hnone]
  simp

theorem allocatesWell_large (h : FileHeader) (freeMap : BitMap) {size : Nat} (hsize : size < 2 ^ 31)
    (hlarge : MaxFileSize < size) :
    AllocatesWell h freeMap (BitVec.ofNat 32 size) ↔ freeMap.numClear < divRoundUp size SectorSize := by
  rcases allocate_large h freeMap hsize hlarge with ⟨hclear, hrefuses⟩ | ⟨hclear, hnone⟩
  · exact ⟨fun _ => hclear, fun _ => ⟨.inl hrefuses, fun _ => hrefuses⟩⟩
  · constructor
    · intro hwell
      exact absurd hwell (not_allocatesWell hnone)
    · omega

/-- A file of 3841 bytes on a fresh disk, when `Create` has found a sector for its header. -/
theorem allocate_overflows :
    ¬ AllocatesWell (ofBuffer (fun _ => 0)) ⟨1024, 0x1ff :: List.replicate 31 0, rfl⟩ 3841 := by
  apply not_allocatesWell
  rcases allocate_large (ofBuffer (fun _ => 0)) ⟨1024, 0x1ff :: List.replicate 31 0, rfl⟩
    (show 3841 < 2 ^ 31 by decide) (by decide) with ⟨hclear, -⟩ | ⟨-, hnone⟩
  · have hfree : (⟨1024, 0x1ff :: List.replicate 31 0, rfl⟩ : BitMap).numClear = 1015 := by decide +kernel
    rw [hfree] at hclear
    exact absurd hclear (by decide)
  · exact hnone

/-! ## Negative sizes -/

/-- The remainder of a negative size is not positive. -/
theorem numSectors_neg {fileSize : Word} (hneg : fileSize.toInt < 0) :
    fileSize.sdiv 128 + (if (0 : Word).slt (fileSize.srem 128) then 1 else 0) = fileSize.sdiv 128 := by
  have hrem : (fileSize.srem 128).toInt ≤ 0 := by
    have hnonneg := Int.tmod_nonneg (a := -fileSize.toInt) (128 : Word).toInt (by omega)
    rw [Int.neg_tmod, ← BitVec.toInt_srem] at hnonneg
    omega
  have hslt : (0 : Word).slt (fileSize.srem 128) = false := by
    rw [BitVec.slt_eq_decide]
    apply decide_eq_false
    have hzero : (0 : Word).toInt = 0 := rfl
    omega
  rw [hslt, if_neg (by decide)]
  exact BitVec.add_zero _

theorem toInt_numSectors (fileSize : Word) : (fileSize.sdiv 128).toInt = fileSize.toInt.tdiv 128 :=
  CInt.toInt_sdiv_ofNat fileSize (b := 128) (by decide) (by decide)

/-- `Allocate` of a negative size returns TRUE, and stores nothing in the table. -/
theorem allocate_negative (h : FileHeader) (freeMap : BitMap) {fileSize : Word} (hneg : fileSize.toInt < 0) :
    h.allocate freeMap fileSize =
      some (true, { h with numBytes := fileSize, numSectors := fileSize.sdiv 128 }, freeMap) := by
  have hint : (fileSize.sdiv 128).toInt ≤ 0 := by
    have hnonneg := Int.tdiv_nonneg (a := -fileSize.toInt) (b := 128) (by omega) (by decide)
    rw [Int.neg_tdiv, ← toInt_numSectors] at hnonneg
    omega
  unfold allocate
  simp only [numSectors_neg hneg]
  rw [if_neg (by omega), Int.toNat_of_nonpos hint]
  rfl

theorem allocatesWell_neg (h : FileHeader) {freeMap : BitMap} (hbits : freeMap.numBits < 2 ^ 31) {fileSize : Word}
    (hneg : fileSize.toInt < 0) : AllocatesWell h freeMap fileSize ↔ -128 < fileSize.toInt := by
  constructor
  · rintro ⟨⟨h', hfalse⟩ | ⟨h', freeMap', htrue, hfilled⟩, -⟩
    · rw [allocate_negative h freeMap hneg] at hfalse
      cases hfalse
    · rw [allocate_negative h freeMap hneg] at htrue
      cases htrue
      have hnonneg := hfilled.nonneg
      by_contra hle
      have htdiv : fileSize.toInt.tdiv 128 < 0 := CInt.tdiv_neg (b := 128) (by decide) (by omega)
      simp only [toInt_numSectors] at hnonneg
      omega
  · intro hlt
    have hzero : fileSize.sdiv 128 = BitVec.ofNat 32 0 := by
      apply BitVec.eq_of_toInt_eq
      have hsmall := Int.tdiv_eq_zero_of_lt (a := -fileSize.toInt) (b := 128) (by omega) (by omega)
      rw [Int.neg_tdiv, ← toInt_numSectors] at hsmall
      rw [CInt.toInt_ofNat (by decide)]
      omega
    constructor
    · exact h.refuses_or_fills hbits (Nat.zero_le _) ((numSectors_neg hneg).trans hzero) (by omega)
    · omega

/-! ## Every size -/

/-- **When `Allocate` refuses the file or fills in the header**: the size is at most `MaxFileSize`
and above minus one sector, or the disk has not enough free sectors. -/
theorem allocatesWell_iff (h : FileHeader) {freeMap : BitMap} (hbits : freeMap.numBits < 2 ^ 31) (fileSize : Word) :
    AllocatesWell h freeMap fileSize ↔
      (-128 < fileSize.toInt ∧ fileSize.toInt ≤ MaxFileSize) ∨
      (MaxFileSize < fileSize.toInt ∧ freeMap.numClear < divRoundUp fileSize.toNat SectorSize) := by
  have hmax : MaxFileSize = 3840 := rfl
  by_cases hneg : fileSize.toInt < 0
  · rw [allocatesWell_neg h hbits hneg]
    omega
  · obtain ⟨size, hsize, rfl⟩ := CInt.exists_ofNat (Int.not_lt.1 hneg)
    rw [CInt.toInt_ofNat hsize, CInt.toNat_ofNat hsize]
    by_cases hlarge : MaxFileSize < size
    · rw [allocatesWell_large h freeMap hsize hlarge]
      omega
    · have hwell := allocatesWell_ofNat h hbits (Nat.le_of_not_lt hlarge)
      simp only [hwell, true_iff]
      omega

/-- The largest file, on the same disk. -/
theorem allocatesWell_maxFileSize :
    AllocatesWell (ofBuffer (fun _ => 0)) ⟨1024, 0x1ff :: List.replicate 31 0, rfl⟩ 3840 :=
  (allocatesWell_iff (ofBuffer (fun _ => 0)) (by decide) 3840).2 (.inl ⟨by decide, by decide⟩)

end FileHeader

end Nachos
