import Nachos.Lib.Paged
import Nachos.Filesys.FileHeader

/-!
# Open files

`OpenFile` of `filesys/openfile.cc` (the version without `FILESYS_STUB`).  Fresh memory holds
anything; the functions that allocate some take it as `junk`.

* `readAt_spec`, `writeAt_spec` — a file is a flat array of bytes.
-/

set_option autoImplicit false

namespace Nachos

/-- `class OpenFile`. -/
structure OpenFile where
  hdr : FileHeader
  seekPosition : Word
  type : Word
  deriving DecidableEq

namespace OpenFile

/-- `OpenFile::OpenFile(sector, type)`; the constructor with one argument has type 0. -/
def openSector (disk : Disk) (sector type : Word) : Option OpenFile :=
  (FileHeader.fetchFrom disk sector).map (fun hdr => ⟨hdr, 0, type⟩)

/-- `ReadSector(hdr->ByteToSector(i * SectorSize), &buf[(i - firstSector) * SectorSize])`, from
    `i = firstSector + j` on, for `n` more sectors. -/
def readSectors (disk : Disk) (hdr : FileHeader) (firstSector : Word) :
    Nat → Nat → Buffer → Option Buffer
  | _, 0, buf => some buf
  | j, n + 1, buf =>
    match hdr.byteToSector ((firstSector + BitVec.ofNat 32 j) * 128) with
    | none => none
    | some s => (readSector disk s buf (j * SectorSize)).bind (readSectors disk hdr firstSector (j + 1) n)

/-- The same loop with `WriteSector`. -/
def writeSectors (hdr : FileHeader) (firstSector : Word) (buf : Buffer) :
    Nat → Nat → Disk → Option Disk
  | _, 0, disk => some disk
  | j, n + 1, disk =>
    match hdr.byteToSector ((firstSector + BitVec.ofNat 32 j) * 128) with
    | none => none
    | some s => (writeSector disk s buf (j * SectorSize)).bind (writeSectors hdr firstSector buf (j + 1) n)

/-- The number of values of `i` in `for (i = firstSector; i <= lastSector; i++)`. -/
def sectorCount (firstSector lastSector : Word) : Nat := (lastSector.toInt + 1 - firstSector.toInt).toNat

/-- `OpenFile::ReadAt(&into[off], numBytes, position)`: the result and the buffer. -/
def readAt (disk : Disk) (hdr : FileHeader) (junk into : Buffer) (off : Nat) (numBytes position : Word) :
    Option (Word × Buffer) :=
  let fileLength := hdr.numBytes
  if numBytes.sle 0 || fileLength.sle position then some (0, into)
  else
    let numBytes := if fileLength.slt (position + numBytes) then fileLength - position else numBytes
    let firstSector := position.sdiv 128
    let lastSector := (position + numBytes - 1).sdiv 128
    (readSectors disk hdr firstSector 0 (sectorCount firstSector lastSector) junk).map (fun buf =>
      (numBytes, Bytes.copy buf (position - firstSector * 128).toNat into off numBytes.toNat))

/-- The buffer of `WriteAt`, with the first and the last sector read in if they are to be partially
    modified. -/
def readEnds (disk : Disk) (hdr : FileHeader) (junk : Nat → Buffer)
    (numBytes position firstSector lastSector : Word) : Option Buffer :=
  let firstAligned := position == firstSector * 128
  let lastAligned := position + numBytes == (lastSector + 1) * 128
  let buf :=
    if !firstAligned then (readAt disk hdr (junk 1) (junk 0) 0 128 (firstSector * 128)).map (·.2)
    else some (junk 0)
  buf.bind (fun buf =>
    if !lastAligned && (firstSector != lastSector || firstAligned) then
      (readAt disk hdr (junk 2) buf ((lastSector - firstSector) * 128).toNat 128 (lastSector * 128)).map (·.2)
    else some buf)

/-- `OpenFile::WriteAt(src, numBytes, position)`: the result and the disk. -/
def writeAt (disk : Disk) (hdr : FileHeader) (junk : Nat → Buffer) (src : Buffer)
    (numBytes position : Word) : Option (Word × Disk) :=
  let fileLength := hdr.numBytes
  if numBytes.sle 0 || fileLength.sle position then some (0, disk)
  else
    let numBytes := if fileLength.slt (position + numBytes) then fileLength - position else numBytes
    let firstSector := position.sdiv 128
    let lastSector := (position + numBytes - 1).sdiv 128
    (readEnds disk hdr junk numBytes position firstSector lastSector).bind (fun buf =>
      let buf := Bytes.copy src 0 buf (position - firstSector * 128).toNat numBytes.toNat
      (writeSectors hdr firstSector buf 0 (sectorCount firstSector lastSector) disk).map (fun disk =>
        (numBytes, disk)))

end OpenFile

/-! ## A file as an array of bytes -/

/-- `ss` are the data sectors of a header, and they hold its bytes. -/
structure FileHeader.Covers (h : FileHeader) (ss : List Nat) : Prop where
  sectors : ∀ i (hi : i < ss.length), h.dataSectors[i]? = some (BitVec.ofNat 32 ss[i])
  lt : ∀ s ∈ ss, s < NumSectors
  numBytes : h.numBytes.toNat ≤ ss.length * SectorSize

namespace OpenFile

open Bytes (Overlay)

/-- Byte `v` of the file with data sectors `ss`. -/
def view (ss : List Nat) (disk : Disk) (v : Nat) : Option Byte := Paged.view SectorSize ss disk v

variable {h : FileHeader} {ss : List Nat}

theorem covers_length (hc : h.Covers ss) : ss.length ≤ NumDirect := by
  by_contra hlt
  have hget := hc.sectors NumDirect (by omega)
  rw [List.getElem?_eq_none (by rw [h.numDirect])] at hget
  cases hget

/-- A header covers its bytes by the sectors it names, if there are enough of them. -/
theorem covers_sectors (h : FileHeader) (hlt : ∀ s ∈ h.sectors, s < NumSectors)
    (hnum : h.numBytes.toNat ≤ h.sectors.length * SectorSize) : h.Covers h.sectors := by
  refine ⟨?_, hlt, hnum⟩
  intro i hi
  exact FileHeader.dataSectors_of_sectors (List.getElem?_eq_getElem hi)

theorem byteToSector_covers (hc : h.Covers ss) {i : Nat} (hi : i < ss.length) (f j : Nat) (hij : f + j = i) :
    h.byteToSector ((BitVec.ofNat 32 f + BitVec.ofNat 32 j) * 128) = some (BitVec.ofNat 32 ss[i]) := by
  have hlen := covers_length hc
  have h30 : NumDirect = 30 := rfl
  have h128 : (128 : Word) = BitVec.ofNat 32 128 := rfl
  rw [FileHeader.byteToSector, h128, ← BitVec.ofNat_add, ← BitVec.ofNat_mul, hij,
    CInt.sdiv_ofNat (by omega) (by omega), CInt.toNat_ofNat (by omega), Nat.mul_div_cancel _ (by decide)]
  exact hc.sectors i hi

theorem toNat_sector (hc : h.Covers ss) {i : Nat} (hi : i < ss.length) :
    (BitVec.ofNat 32 ss[i]).toNat = ss[i] := by
  have hlt := hc.lt ss[i] (List.getElem_mem hi)
  have h1024 : NumSectors = 1024 := rfl
  exact CInt.toNat_ofNat (by omega)

/-- The view at offset `o` of place `i`. -/
theorem view_eq (ss : List Nat) (disk : Disk) {i o v : Nat} (hi : i < ss.length) (ho : o < SectorSize)
    (hv : v = i * SectorSize + o) : view ss disk v = some (disk (ss[i] * SectorSize + o)) := by
  have hdiv : v / SectorSize = i := by rw [hv]; exact Paged.block_div (by decide) i ho
  have hmod : v % SectorSize = o := by
    rw [hv, Nat.mul_comm, Nat.mul_add_mod]
    exact Nat.mod_eq_of_lt ho
  rw [view, Paged.view, hdiv, hmod, List.getElem?_eq_getElem hi, Option.map_some]

theorem readSectors_spec (hc : h.Covers ss) (disk : Disk) (f : Nat) {j n : Nat} (buf : Buffer)
    (hfit : f + j + n ≤ ss.length) :
    ∃ buf', readSectors disk h (BitVec.ofNat 32 f) j n buf = some buf' ∧
      Overlay (fun a => view ss disk (f * SectorSize + a))
        (Set.Ico (j * SectorSize) ((j + n) * SectorSize)) (fun a => some (buf a)) (fun a => some (buf' a)) := by
  induction n generalizing j buf with
  | zero =>
    refine ⟨buf, rfl, ?_⟩
    rw [Nat.add_zero, Set.Ico_self]
    exact Overlay.refl
  | succ n ih =>
    have hi : f + j < ss.length := by omega
    have hlt := hc.lt _ (List.getElem_mem hi)
    obtain ⟨buf', hread, hover⟩ := ih (j := j + 1)
      (Bytes.copy disk (ss[f + j] * SectorSize) buf (j * SectorSize) SectorSize) (by omega)
    refine ⟨buf', ?_, ?_⟩
    · rw [readSectors, byteToSector_covers hc hi f j rfl]
      simp only [readSector, toNat_sector hc hi, if_pos hlt, Option.bind_some]
      exact hread
    · have hone : Overlay (fun a => view ss disk (f * SectorSize + a))
          (Set.Ico (j * SectorSize) ((j + 1) * SectorSize)) (fun a => some (buf a))
          (fun a => some (Bytes.copy disk (ss[f + j] * SectorSize) buf (j * SectorSize) SectorSize a)) := by
        have hcopy := Bytes.overlay_copy disk (ss[f + j] * SectorSize) buf (j * SectorSize) SectorSize
        rw [← Nat.succ_mul] at hcopy
        constructor
        · rintro a ha
          rw [hcopy.inside a ha, view_eq ss disk hi (o := a - j * SectorSize)]
          · have hpos : 0 < SectorSize := by decide
            have := ha.2
            rw [Nat.succ_mul] at this
            omega
          · have := ha.1
            rw [Nat.add_mul]
            omega
        · intro a ha
          rw [hcopy.outside a ha]
      have hall := hone.trans hover
      rw [Set.Ico_union_Ico_eq_Ico (Nat.mul_le_mul_right _ (by omega))
        (Nat.mul_le_mul_right _ (by omega)), Nat.add_assoc, Nat.add_comm 1] at hall
      exact hall

theorem writeSectors_spec (hc : h.Covers ss) (hnd : ss.Nodup) (buf : Buffer) (f : Nat) {j n : Nat}
    (disk : Disk) (hfit : f + j + n ≤ ss.length) :
    ∃ disk', writeSectors h (BitVec.ofNat 32 f) buf j n disk = some disk' ∧
      Overlay (fun v => some (buf (v - f * SectorSize)))
        (Set.Ico ((f + j) * SectorSize) ((f + j + n) * SectorSize)) (view ss disk) (view ss disk') ∧
      ∀ a, a / SectorSize ∉ ss → disk' a = disk a := by
  induction n generalizing j disk with
  | zero =>
    refine ⟨disk, rfl, ?_, fun _ _ => rfl⟩
    rw [Nat.add_zero, Set.Ico_self]
    exact Overlay.refl
  | succ n ih =>
    have hi : f + j < ss.length := by omega
    have hlt := hc.lt _ (List.getElem_mem hi)
    obtain ⟨disk', hwrite, hover, hframe⟩ := ih (j := j + 1)
      (Bytes.copy buf (j * SectorSize) disk (ss[f + j] * SectorSize) SectorSize) (by omega)
    have hcopy := Bytes.overlay_copy buf (j * SectorSize) disk (ss[f + j] * SectorSize) SectorSize
    refine ⟨disk', ?_, ?_, ?_⟩
    · rw [writeSectors, byteToSector_covers hc hi f j rfl]
      simp only [writeSector, toNat_sector hc hi, if_pos hlt, Option.bind_some]
      exact hwrite
    · have hblock := Paged.view_overlay_block (by decide) hnd (List.getElem?_eq_getElem hi) hcopy
      have hone : Overlay (fun v => some (buf (v - f * SectorSize)))
          (Set.Ico ((f + j) * SectorSize) ((f + j + 1) * SectorSize)) (view ss disk)
          (view ss (Bytes.copy buf (j * SectorSize) disk (ss[f + j] * SectorSize) SectorSize)) := by
        rw [Nat.succ_mul]
        refine ⟨?_, hblock.outside⟩
        rintro v hv
        have hplace : j * SectorSize + (v - (f + j) * SectorSize) = v - f * SectorSize := by
          have := hv.1
          rw [Nat.add_mul] at this ⊢
          omega
        have hin := hblock.inside v hv
        simp only [Nat.add_sub_cancel_left, hplace] at hin
        exact hin
      have hall := hone.trans hover
      rw [← Nat.add_assoc, Set.Ico_union_Ico_eq_Ico (Nat.mul_le_mul_right _ (by omega))
        (Nat.mul_le_mul_right _ (by omega)), Nat.add_right_comm _ 1 n, Nat.add_assoc _ n 1] at hall
      exact hall
    · intro a ha
      rw [hframe a ha, hcopy.outside]
      rintro ⟨h1, h2⟩
      apply ha
      have hdiv : a / SectorSize = ss[f + j] := by
        apply Nat.div_eq_of_lt_le h1
        rw [Nat.succ_mul]
        exact h2
      rw [hdiv]
      exact List.getElem_mem hi

/-! ## Requests -/

section Request

variable {n p len : Nat}

/-- A request inside the file passes the check. -/
theorem check_ofNat (hn : 0 < n) (hp : p < len) (hlen : len < 2 ^ 31) (hsum : p + n < 2 ^ 31) :
    ((BitVec.ofNat 32 n).sle 0 || (BitVec.ofNat 32 len).sle (BitVec.ofNat 32 p)) = false := by
  have h0 : (0 : Word) = BitVec.ofNat 32 0 := rfl
  rw [h0, CInt.sle_ofNat (by omega) (by omega), CInt.sle_ofNat hlen (by omega),
    decide_eq_false (by omega), decide_eq_false (by omega)]
  rfl

/-- The clamped request. -/
theorem clamp_ofNat (hp : p < len) (hlen : len < 2 ^ 31) (hsum : p + n < 2 ^ 31) :
    (if (BitVec.ofNat 32 len).slt (BitVec.ofNat 32 p + BitVec.ofNat 32 n) then
      BitVec.ofNat 32 len - BitVec.ofNat 32 p else BitVec.ofNat 32 n) =
    BitVec.ofNat 32 (min n (len - p)) := by
  rw [← BitVec.ofNat_add, CInt.slt_ofNat hlen hsum, CInt.sub_ofNat (by omega) (by omega)]
  by_cases hlt : len < p + n
  · rw [decide_eq_true hlt, if_pos rfl, Nat.min_eq_right (by omega)]
  · rw [decide_eq_false hlt, if_neg (by decide), Nat.min_eq_left (by omega)]

theorem firstSector_ofNat (hp : p < 2 ^ 31) :
    (BitVec.ofNat 32 p).sdiv 128 = BitVec.ofNat 32 (p / SectorSize) :=
  CInt.sdiv_ofNat hp (by decide)

theorem lastSector_ofNat (hn : 0 < n) (hsum : p + n < 2 ^ 31) :
    (BitVec.ofNat 32 p + BitVec.ofNat 32 n - 1).sdiv 128 =
      BitVec.ofNat 32 ((p + n - 1) / SectorSize) := by
  have h1 : (1 : Word) = BitVec.ofNat 32 1 := rfl
  rw [h1, ← BitVec.ofNat_add, CInt.sub_ofNat (by decide) (by omega)]
  exact CInt.sdiv_ofNat (by omega) (by decide)

/-- The byte number of the first byte of a sector. -/
theorem sectorStart_ofNat (i : Nat) : BitVec.ofNat 32 i * 128 = BitVec.ofNat 32 (i * SectorSize) := by
  rw [BitVec.ofNat_mul]
  rfl

theorem sectorCount_ofNat {f l : Nat} (hf : f < 2 ^ 31) (hl : l < 2 ^ 31) :
    sectorCount (BitVec.ofNat 32 f) (BitVec.ofNat 32 l) = l + 1 - f := by
  rw [sectorCount, CInt.toInt_ofNat hf, CInt.toInt_ofNat hl]
  omega

/-- The place of byte `p` in the buffer that starts with its sector. -/
theorem offset_ofNat (hp : p < 2 ^ 31) :
    (BitVec.ofNat 32 p - BitVec.ofNat 32 (p / SectorSize) * 128).toNat = p % SectorSize := by
  have hle := Nat.div_mul_le_self p SectorSize
  have hdm := Nat.div_add_mod p SectorSize
  rw [Nat.mul_comm] at hdm
  rw [sectorStart_ofNat, CInt.sub_ofNat (by omega) hle, CInt.toNat_ofNat (by omega)]
  omega

end Request

theorem covers_numBytes (hc : h.Covers ss) : h.numBytes.toNat ≤ 3840 := by
  have h1 := covers_length hc
  have h2 := hc.numBytes
  simp only [NumDirect, SectorSize] at h1 h2
  omega

/-- **`ReadAt`** delivers the bytes of the file. -/
theorem readAt_spec (hc : h.Covers ss) (disk : Disk) (junk into : Buffer) (off : Nat) {n p : Nat}
    (hn : 0 < n) (hp : p < h.numBytes.toNat) (hsum : p + n < 2 ^ 31) :
    ∃ into', readAt disk h junk into off (BitVec.ofNat 32 n) (BitVec.ofNat 32 p) =
        some (BitVec.ofNat 32 (min n (h.numBytes.toNat - p)), into') ∧
      Overlay (fun a => view ss disk (p + (a - off))) (Set.Ico off (off + min n (h.numBytes.toNat - p)))
        (fun a => some (into a)) (fun a => some (into' a)) := by
  have hlen := covers_numBytes hc
  have hcover := hc.numBytes
  have hnum : h.numBytes = BitVec.ofNat 32 h.numBytes.toNat := by simp
  generalize hk : min n (h.numBytes.toNat - p) = k
  have hk0 : 0 < k := by omega
  have hkp : p + k ≤ h.numBytes.toNat := by omega
  have hdm := Nat.div_add_mod p SectorSize
  rw [Nat.mul_comm] at hdm
  have hlast : (p + k - 1) / SectorSize < ss.length := by
    rw [Nat.div_lt_iff_lt_mul (by decide)]
    omega
  have hle : p / SectorSize ≤ (p + k - 1) / SectorSize := Nat.div_le_div_right (by omega)
  have hself := Nat.div_le_self (p + k - 1) SectorSize
  obtain ⟨buf, hread, hover⟩ := readSectors_spec hc disk (p / SectorSize) (j := 0)
    (n := (p + k - 1) / SectorSize + 1 - p / SectorSize) junk (by omega)
  refine ⟨Bytes.copy buf (p % SectorSize) into off k, ?_, ?_⟩
  · unfold readAt
    simp only
    rw [hnum, check_ofNat hn hp (by omega) hsum, if_neg (by decide), clamp_ofNat hp (by omega) hsum, hk,
      firstSector_ofNat (by omega), lastSector_ofNat hk0 (by omega), sectorCount_ofNat (by omega) (by omega),
      offset_ofNat (by omega), CInt.toNat_ofNat (by omega), hread, Option.map_some]
  · have hcopy := Bytes.overlay_copy buf (p % SectorSize) into off k
    constructor
    · intro a ha
      rw [hcopy.inside a ha]
      have hin := hover.inside (p % SectorSize + (a - off)) ⟨by omega, ?_⟩
      · rw [hin]
        congr 1
        omega
      · have := ha.1
        have := ha.2
        simp only [SectorSize] at *
        omega
    · intro a ha
      rw [hcopy.outside a ha]

/-- The sector that starts at byte `i * SectorSize`, read to offset `off`. -/
theorem readSector_spec (hc : h.Covers ss) (disk : Disk) (junk into : Buffer) (off : Nat) {i : Nat}
    (hi : i * SectorSize < h.numBytes.toNat) :
    ∃ into', (readAt disk h junk into off 128 (BitVec.ofNat 32 i * 128)).map (·.2) = some into' ∧
      (∀ a, off ≤ a → a < off + SectorSize → i * SectorSize + (a - off) < h.numBytes.toNat →
        some (into' a) = view ss disk (i * SectorSize + (a - off))) ∧
      ∀ a, ¬ (off ≤ a ∧ a < off + SectorSize) → into' a = into a := by
  have hlen := covers_numBytes hc
  have hcl := covers_length hc
  have hcover := hc.numBytes
  obtain ⟨into', hread, hover⟩ := readAt_spec hc disk junk into off (n := 128) (p := i * SectorSize)
    (by decide) hi (by simp only [SectorSize, NumDirect] at *; omega)
  refine ⟨into', ?_, ?_, ?_⟩
  · rw [sectorStart_ofNat]
    have h128 : (128 : Word) = BitVec.ofNat 32 128 := rfl
    rw [h128, hread]
    rfl
  · intro a h1 h2 h3
    refine hover.inside a ⟨h1, ?_⟩
    simp only [SectorSize] at *
    omega
  · intro a ha
    have hout := hover.outside a (fun hin => ha ⟨hin.1, ?_⟩)
    · simpa using hout
    · have := hin.2
      simp only [SectorSize] at *
      omega

/-- The ends of the buffer hold what the file holds there. -/
theorem readEnds_spec (hc : h.Covers ss) (disk : Disk) (junk : Nat → Buffer) {k p : Nat} (hk : 0 < k)
    (hkp : p + k ≤ h.numBytes.toNat) :
    ∃ buf, readEnds disk h junk (BitVec.ofNat 32 k) (BitVec.ofNat 32 p) (BitVec.ofNat 32 (p / SectorSize))
        (BitVec.ofNat 32 ((p + k - 1) / SectorSize)) = some buf ∧
      ∀ v, p / SectorSize * SectorSize ≤ v → v < ((p + k - 1) / SectorSize + 1) * SectorSize →
        v < h.numBytes.toNat → ¬ (p ≤ v ∧ v < p + k) →
        some (buf (v - p / SectorSize * SectorSize)) = view ss disk v := by
  have hlen := covers_numBytes hc
  have h1 : (1 : Word) = BitVec.ofNat 32 1 := rfl
  generalize hf : p / SectorSize = f
  generalize hl : (p + k - 1) / SectorSize = l
  have hfl : f ≤ l := by
    rw [← hf, ← hl]
    exact Nat.div_le_div_right (by omega)
  have hfp : f * SectorSize ≤ p ∧ p < f * SectorSize + SectorSize := by
    simp only [SectorSize] at *
    omega
  have hlp : l * SectorSize ≤ p + k - 1 ∧ p + k - 1 < l * SectorSize + SectorSize := by
    simp only [SectorSize] at *
    omega
  have hsucc : (l + 1) * SectorSize = l * SectorSize + SectorSize := Nat.succ_mul l SectorSize
  have hfirst : (BitVec.ofNat 32 p == BitVec.ofNat 32 f * 128) = decide (p = f * SectorSize) := by
    rw [sectorStart_ofNat]
    exact CInt.beq_ofNat (by omega) (by omega)
  have hlast : (BitVec.ofNat 32 p + BitVec.ofNat 32 k == (BitVec.ofNat 32 l + 1) * 128) =
      decide (p + k = (l + 1) * SectorSize) := by
    rw [h1, ← BitVec.ofNat_add, ← BitVec.ofNat_add, sectorStart_ofNat]
    apply CInt.beq_ofNat (by omega)
    simp only [SectorSize] at *
    omega
  have hne : (BitVec.ofNat 32 f != BitVec.ofNat 32 l) = decide (f ≠ l) := by
    simp only [SectorSize] at *
    rw [bne, CInt.beq_ofNat (by omega) (by omega), decide_not]
  have hoff : ((BitVec.ofNat 32 l - BitVec.ofNat 32 f) * 128).toNat = (l - f) * SectorSize := by
    simp only [SectorSize] at *
    rw [CInt.sub_ofNat (by omega) hfl, sectorStart_ofNat]
    exact CInt.toNat_ofNat (by simp only [SectorSize]; omega)
  -- the first sector
  have hbuf1 : ∃ buf1, (if !decide (p = f * SectorSize) then
        (readAt disk h (junk 1) (junk 0) 0 128 (BitVec.ofNat 32 f * 128)).map (·.2) else some (junk 0)) =
        some buf1 ∧
      (p ≠ f * SectorSize → ∀ a < SectorSize, f * SectorSize + a < h.numBytes.toNat →
        some (buf1 a) = view ss disk (f * SectorSize + a)) := by
    by_cases hp : p = f * SectorSize
    · exact ⟨junk 0, by simp [hp], fun hne => absurd hp hne⟩
    · obtain ⟨buf1, hread, hin, -⟩ := readSector_spec hc disk (junk 1) (junk 0) 0 (i := f) (by omega)
      refine ⟨buf1, by simpa [hp] using hread, ?_⟩
      intro _ a ha hlt
      have := hin a (by omega) (by omega) (by omega)
      rwa [Nat.sub_zero] at this
  obtain ⟨buf1, hbuf1, hin1⟩ := hbuf1
  unfold readEnds
  simp only [hfirst, hlast, hne, hoff, hbuf1, Option.bind_some]
  -- the last sector
  by_cases hcond : p + k ≠ (l + 1) * SectorSize ∧ (f ≠ l ∨ p = f * SectorSize)
  · obtain ⟨buf2, hread, hin2, hout2⟩ := readSector_spec hc disk (junk 2) buf1 ((l - f) * SectorSize)
      (i := l) (by omega)
    refine ⟨buf2, ?_, ?_⟩
    · rw [if_pos (by simpa using hcond)]
      exact hread
    · intro v hv1 hv2 hv3 hv4
      have hlf : (l - f) * SectorSize = l * SectorSize - f * SectorSize := Nat.sub_mul l f SectorSize
      have hflm : f * SectorSize ≤ l * SectorSize := Nat.mul_le_mul_right SectorSize hfl
      by_cases hv : l * SectorSize ≤ v
      · rw [hin2 _ (by omega) (by omega) (by omega)]
        congr 1
        omega
      · rw [hout2 _ (by omega), hin1 (by omega) _ (by omega) (by omega)]
        congr 1
        omega
  · refine ⟨buf1, ?_, ?_⟩
    · rw [if_neg (by simpa using hcond)]
    · intro v hv1 hv2 hv3 hv4
      have hread : p ≠ f * SectorSize ∧ v < f * SectorSize + SectorSize := by
        by_cases hend : p + k = (l + 1) * SectorSize
        · exact ⟨by omega, by omega⟩
        · have hflp : f = l ∧ p ≠ f * SectorSize := by
            constructor
            · by_contra hne
              exact hcond ⟨hend, .inl hne⟩
            · intro hp
              exact hcond ⟨hend, .inr hp⟩
          obtain ⟨rfl, hp⟩ := hflp
          exact ⟨hp, by omega⟩
      rw [hin1 hread.1 _ (by omega) (by omega)]
      congr 1
      omega

/-- **`WriteAt`** replaces bytes of the file, and nothing outside its sectors. -/
theorem writeAt_spec (hc : h.Covers ss) (hnd : ss.Nodup) (disk : Disk) (junk : Nat → Buffer) (src : Buffer)
    {n p : Nat} (hn : 0 < n) (hp : p < h.numBytes.toNat) (hsum : p + n < 2 ^ 31) :
    ∃ disk', writeAt disk h junk src (BitVec.ofNat 32 n) (BitVec.ofNat 32 p) =
        some (BitVec.ofNat 32 (min n (h.numBytes.toNat - p)), disk') ∧
      (∀ v, p ≤ v → v < p + min n (h.numBytes.toNat - p) → view ss disk' v = some (src (v - p))) ∧
      (∀ v < h.numBytes.toNat, ¬ (p ≤ v ∧ v < p + min n (h.numBytes.toNat - p)) →
        view ss disk' v = view ss disk v) ∧
      ∀ a, a / SectorSize ∉ ss → disk' a = disk a := by
  have hlen := covers_numBytes hc
  have hcover := hc.numBytes
  have hnum : h.numBytes = BitVec.ofNat 32 h.numBytes.toNat := by simp
  generalize hk : min n (h.numBytes.toNat - p) = k
  have hk0 : 0 < k := by omega
  have hkp : p + k ≤ h.numBytes.toNat := by omega
  have hlast : (p + k - 1) / SectorSize < ss.length := by
    rw [Nat.div_lt_iff_lt_mul (by decide)]
    omega
  have hle : p / SectorSize ≤ (p + k - 1) / SectorSize := Nat.div_le_div_right (by omega)
  have hself := Nat.div_le_self (p + k - 1) SectorSize
  obtain ⟨buf, hends, hbuf⟩ := readEnds_spec hc disk junk hk0 hkp
  obtain ⟨disk', hwrite, hover, hframe⟩ := writeSectors_spec hc hnd
    (Bytes.copy src 0 buf (p % SectorSize) k) (p / SectorSize) (j := 0)
    (n := (p + k - 1) / SectorSize + 1 - p / SectorSize) disk (by omega)
  have hcopy := Bytes.overlay_copy src 0 buf (p % SectorSize) k
  have hdm := Nat.div_add_mod p SectorSize
  rw [Nat.mul_comm] at hdm
  have hcount : p / SectorSize + ((p + k - 1) / SectorSize + 1 - p / SectorSize) =
      (p + k - 1) / SectorSize + 1 := by omega
  have hupper : p + k ≤ ((p + k - 1) / SectorSize + 1) * SectorSize := by
    simp only [SectorSize] at *
    omega
  rw [Nat.add_zero, hcount] at hover
  refine ⟨disk', ?_, ?_, ?_, hframe⟩
  · unfold writeAt
    simp only
    rw [hnum, check_ofNat hn hp (by omega) hsum, if_neg (by decide), clamp_ofNat hp (by omega) hsum, hk,
      firstSector_ofNat (by omega), lastSector_ofNat hk0 (by omega), hends, Option.bind_some,
      sectorCount_ofNat (by omega) (by omega), offset_ofNat (by omega), CInt.toNat_ofNat (by omega), hwrite,
      Option.map_some]
  · intro v h1 h2
    rw [hover.inside v ⟨by omega, by omega⟩, hcopy.inside _ ⟨by omega, by omega⟩]
    congr 2
    omega
  · intro v hv hout
    by_cases hin : v ∈ Set.Ico (p / SectorSize * SectorSize) (((p + k - 1) / SectorSize + 1) * SectorSize)
    · rw [hover.inside v hin, hcopy.outside]
      · exact hbuf v hin.1 hin.2 hv hout
      · rintro ⟨h1, h2⟩
        have := hin.1
        exact hout ⟨by omega, by omega⟩
    · exact hover.outside v hin

/-- Reading a whole file. -/
theorem readAt_whole (hc : h.Covers ss) (disk : Disk) (junk into : Buffer) {n : Nat} (hn : 0 < n)
    (hlen : h.numBytes.toNat = n) :
    ∃ into', readAt disk h junk into 0 (BitVec.ofNat 32 n) 0 = some (BitVec.ofNat 32 n, into') ∧
      ∀ a < n, some (into' a) = view ss disk a := by
  have hle := covers_numBytes hc
  obtain ⟨into', hread, hover⟩ := readAt_spec hc disk junk into 0 (p := 0) hn (by omega) (by omega)
  rw [hlen, Nat.sub_zero, Nat.min_self] at hread hover
  refine ⟨into', hread, ?_⟩
  intro a ha
  rw [hover.inside a ⟨Nat.zero_le a, by omega⟩, Nat.zero_add, Nat.sub_zero]

/-- Writing a whole file. -/
theorem writeAt_whole (hc : h.Covers ss) (hnd : ss.Nodup) (disk : Disk) (junk : Nat → Buffer) (src : Buffer)
    {n : Nat} (hn : 0 < n) (hlen : h.numBytes.toNat = n) :
    ∃ disk', writeAt disk h junk src (BitVec.ofNat 32 n) 0 = some (BitVec.ofNat 32 n, disk') ∧
      (∀ v < n, view ss disk' v = some (src v)) ∧ ∀ a, a / SectorSize ∉ ss → disk' a = disk a := by
  have hle := covers_numBytes hc
  obtain ⟨disk', hwrite, hin, -, hframe⟩ := writeAt_spec hc hnd disk junk src (p := 0) hn (by omega) (by omega)
  rw [hlen, Nat.sub_zero, Nat.min_self] at hwrite hin
  refine ⟨disk', hwrite, ?_, hframe⟩
  intro v hv
  rw [hin v (Nat.zero_le v) (by omega), Nat.sub_zero]

end OpenFile

end Nachos
