import Nachos.Filesys.OpenFile

/-!
# Requests to an open file

`OpenFile::ReadAt` and `WriteAt` for any 32-bit request.

* `flat_file` — a file is a flat array of bytes, for requests that end below 2^31.
* `readOffsets`, `writeOffsets` — the arguments of `ByteToSector` in a call.
* `readAt_congr`, `writeAt_congr` — a call depends on the header by its answers to these.
* `clamps_entries` — a request that is clamped uses the entries of the file only.
* `clamped_iff` — when the request is clamped to the file.
-/

set_option autoImplicit false

namespace Nachos

namespace OpenFile

open Bytes (Overlay)

variable {h h' : FileHeader} {ss : List Nat} {numBytes position : Word}

/-! ## The file as an array -/

/-- How many bytes a request transfers. -/
def transferred (h : FileHeader) (numBytes position : Word) : Int :=
  if 0 < numBytes.toInt then max 0 (min numBytes.toInt (h.numBytes.toInt - position.toInt)) else 0

/-- `(numBytes <= 0) || (position >= fileLength)`. -/
def rejects (h : FileHeader) (numBytes position : Word) : Bool := numBytes.sle 0 || h.numBytes.sle position

theorem rejects_iff : rejects h numBytes position = true ↔
    numBytes.toInt ≤ 0 ∨ h.numBytes.toInt ≤ position.toInt := by
  rw [rejects, Bool.or_eq_true, BitVec.sle, BitVec.sle, decide_eq_true_eq, decide_eq_true_eq]
  exact Iff.rfl

theorem readAt_rejects (hr : rejects h numBytes position = true) (disk : Disk) (junk into : Buffer) (off : Nat) :
    readAt disk h junk into off numBytes position = some (0, into) :=
  if_pos hr

theorem writeAt_rejects (hr : rejects h numBytes position = true) (disk : Disk) (junk : Nat → Buffer) (src : Buffer) :
    writeAt disk h junk src numBytes position = some (0, disk) :=
  if_pos hr

/-- A request that is not rejected, in natural numbers. -/
theorem exists_request (hp : 0 ≤ position.toInt) (hr : rejects h numBytes position = false) :
    ∃ n p, numBytes = BitVec.ofNat 32 n ∧ position = BitVec.ofNat 32 p ∧ h.numBytes.toInt = h.numBytes.toNat ∧ 0 < n ∧
      n < 2 ^ 31 ∧ p < h.numBytes.toNat ∧ h.numBytes.toNat < 2 ^ 31 := by
  have hnot := mt rejects_iff.2 (by rw [hr]; exact Bool.false_ne_true)
  rw [not_or] at hnot
  obtain ⟨n, hn, rfl⟩ := CInt.exists_ofNat (show 0 ≤ numBytes.toInt by omega)
  obtain ⟨p, hp', rfl⟩ := CInt.exists_ofNat hp
  obtain ⟨len, hlen, heq⟩ := CInt.exists_ofNat (show 0 ≤ h.numBytes.toInt by omega)
  rw [heq, CInt.toInt_ofNat hn, CInt.toInt_ofNat hp', CInt.toInt_ofNat hlen] at hnot
  refine ⟨n, p, rfl, rfl, ?_, ?_, hn, ?_, ?_⟩
  · rw [heq, CInt.toInt_ofNat hlen, CInt.toNat_ofNat hlen]
  · omega
  · rw [heq, CInt.toNat_ofNat hlen]
    omega
  · rw [heq, CInt.toNat_ofNat hlen]
    exact hlen

theorem transferred_rejects (hr : rejects h numBytes position = true) : transferred h numBytes position = 0 := by
  rw [transferred]
  rcases rejects_iff.1 hr with hn | hp
  · rw [if_neg (by omega)]
  · split
    · omega
    · rfl

/-- Inside of the file the request is cut off at its end. -/
theorem transferred_ofNat {n p : Nat} (hn : 0 < n) (hn31 : n < 2 ^ 31) (hp : p < h.numBytes.toNat)
    (hlen : h.numBytes.toNat < 2 ^ 31) (hint : h.numBytes.toInt = h.numBytes.toNat) :
    transferred h (BitVec.ofNat 32 n) (BitVec.ofNat 32 p) = (min n (h.numBytes.toNat - p) : Nat) := by
  rw [transferred, CInt.toInt_ofNat hn31, CInt.toInt_ofNat (by omega), hint, if_pos (by omega)]
  omega

/-- **A file is a flat array of bytes**: for every header with distinct sectors that cover its length and every
request that ends below 2^31, `ReadAt` returns the bytes of the array from `position` on, and
`WriteAt` replaces them; no other byte of the file changes, and no other sector. -/
theorem flat_file (hc : h.Covers ss) (hnd : ss.Nodup) (hp : 0 ≤ position.toInt)
    (hsum : position.toInt + numBytes.toInt < 2 ^ 31) (disk : Disk) (junk : Nat → Buffer) (buf : Buffer) (off : Nat) :
    (∃ k into', readAt disk h (junk 0) buf off numBytes position = some (k, into') ∧
      k.toInt = transferred h numBytes position ∧
      Overlay (fun a => view ss disk (position.toNat + (a - off))) (Set.Ico off (off + k.toNat))
        (fun a => some (buf a)) (fun a => some (into' a))) ∧
    (∃ k disk', writeAt disk h junk buf numBytes position = some (k, disk') ∧
      k.toInt = transferred h numBytes position ∧
      (∀ v < h.numBytes.toNat, view ss disk' v =
        if position.toNat ≤ v ∧ v < position.toNat + k.toNat then some (buf (v - position.toNat))
        else view ss disk v) ∧
      ∀ a, a / SectorSize ∉ ss → disk' a = disk a) := by
  cases hr : rejects h numBytes position with
  | true =>
    have hzero : (0 : Word).toInt = transferred h numBytes position := (transferred_rejects hr).symm
    have hnat : (0 : Word).toNat = 0 := rfl
    refine ⟨⟨0, buf, readAt_rejects hr disk _ _ _, hzero, ?_⟩, ⟨0, disk, writeAt_rejects hr disk _ _, hzero, ?_, ?_⟩⟩
    · rw [hnat, Nat.add_zero, Set.Ico_self]
      exact Overlay.refl
    · intro v _
      rw [if_neg (by omega)]
    · exact fun _ _ => rfl
  | false =>
    obtain ⟨n, p, rfl, rfl, hint, hn, hn31, hplen, hlen⟩ := exists_request hp hr
    have hcount := transferred_ofNat hn hn31 hplen hlen hint
    rw [CInt.toInt_ofNat (by omega), CInt.toInt_ofNat hn31] at hsum
    have hk : (BitVec.ofNat 32 (min n (h.numBytes.toNat - p))).toInt =
        transferred h (BitVec.ofNat 32 n) (BitVec.ofNat 32 p) := by
      rw [hcount, CInt.toInt_ofNat (by omega)]
    obtain ⟨into', hread, hover⟩ := readAt_spec hc disk (junk 0) buf off hn hplen (by omega)
    obtain ⟨disk', hwrite, hin, hout, hframe⟩ := writeAt_spec hc hnd disk junk buf hn hplen (by omega)
    refine ⟨⟨_, into', hread, hk, ?_⟩, ⟨_, disk', hwrite, hk, ?_, hframe⟩⟩
    · rw [CInt.toNat_ofNat (by omega), CInt.toNat_ofNat (by omega)]
      exact hover
    · intro v hv
      rw [CInt.toNat_ofNat (by omega), CInt.toNat_ofNat (by omega)]
      split
      · rename_i hinside
        exact hin v hinside.1 hinside.2
      · rename_i houtside
        exact hout v hv houtside

theorem length_twoSectors : (5 :: 7 :: List.replicate 28 (0 : Word)).length = NumDirect := rfl

/-- A header with data sectors 5 and 7. -/
def twoSectors (size : Word) : FileHeader := ⟨size, 2, 5 :: 7 :: List.replicate 28 0, length_twoSectors⟩

theorem covers_twoSectors : (twoSectors 200).Covers [5, 7] := by
  refine ⟨?_, by decide, by decide⟩
  intro i hi
  have htwo : i < 2 := hi
  obtain rfl | rfl : i = 0 ∨ i = 1 := by omega
  · rfl
  · rfl

/-- 50 bytes, in two sectors. -/
theorem flat_file_twoSectors : (twoSectors 200).Covers [5, 7] ∧ [5, 7].Nodup ∧ (0 : Int) ≤ (100 : Word).toInt ∧
    (100 : Word).toInt + (50 : Word).toInt < 2 ^ 31 ∧
    ∃ k disk', writeAt (fun _ => 0) (twoSectors 200) (fun _ _ => 1) (fun _ => 2) 50 100 = some (k, disk') ∧
      k.toInt = transferred (twoSectors 200) 50 100 := by
  have hnd : [5, 7].Nodup := by decide
  have hp : (0 : Int) ≤ (100 : Word).toInt := by decide
  have hsum : (100 : Word).toInt + (50 : Word).toInt < 2 ^ 31 := by decide
  obtain ⟨-, k, disk', hwrite, hk, -⟩ := flat_file covers_twoSectors hnd hp hsum (fun _ => 0) (fun _ _ => 1)
    (fun _ => 2) 0
  exact ⟨covers_twoSectors, hnd, hp, hsum, k, disk', hwrite, hk⟩

/-! ## The sectors that are asked for -/

/-- `i * SectorSize`, for `i` from `firstSector` to `lastSector`. -/
def loopOffsets (firstSector lastSector : Word) : List Word :=
  (List.range (sectorCount firstSector lastSector)).map fun j => (firstSector + BitVec.ofNat 32 j) * 128

/-- `numBytes`, when it has been checked against the length of the file. -/
def clamped (h : FileHeader) (numBytes position : Word) : Word :=
  if h.numBytes.slt (position + numBytes) then h.numBytes - position else numBytes

def firstSector (position : Word) : Word := position.sdiv 128

def lastSector (h : FileHeader) (numBytes position : Word) : Word :=
  (position + clamped h numBytes position - 1).sdiv 128

/-- The arguments of `ByteToSector` in a call of `ReadAt`. -/
def readOffsets (h : FileHeader) (numBytes position : Word) : List Word :=
  if rejects h numBytes position then []
  else loopOffsets (firstSector position) (lastSector h numBytes position)

/-- Those of the first `ReadAt` in `WriteAt`. -/
def firstOffsets (h : FileHeader) (position : Word) : List Word :=
  if position == firstSector position * 128 then [] else readOffsets h 128 (firstSector position * 128)

/-- Those of the second. -/
def lastOffsets (h : FileHeader) (numBytes position : Word) : List Word :=
  let l := lastSector h numBytes position
  if !(position + clamped h numBytes position == (l + 1) * 128) &&
      (firstSector position != l || position == firstSector position * 128) then
    readOffsets h 128 (l * 128)
  else []

/-- The arguments of `ByteToSector` in a call of `WriteAt`. -/
def writeOffsets (h : FileHeader) (numBytes position : Word) : List Word :=
  if rejects h numBytes position then []
  else firstOffsets h position ++ lastOffsets h numBytes position ++
    loopOffsets (firstSector position) (lastSector h numBytes position)

/-- `ReadAt` behind its test. -/
theorem readAt_accepts (hr : rejects h numBytes position = false) (disk : Disk) (junk into : Buffer) (off : Nat) :
    readAt disk h junk into off numBytes position =
      (readSectors disk h (firstSector position) 0
        (sectorCount (firstSector position) (lastSector h numBytes position)) junk).map fun buf =>
          (clamped h numBytes position, Bytes.copy buf (position - firstSector position * 128).toNat into off
            (clamped h numBytes position).toNat) :=
  if_neg (Bool.eq_false_iff.1 hr)

/-- `WriteAt` behind its test. -/
theorem writeAt_accepts (hr : rejects h numBytes position = false) (disk : Disk) (junk : Nat → Buffer) (src : Buffer) :
    writeAt disk h junk src numBytes position =
      (readEnds disk h junk (clamped h numBytes position) position (firstSector position)
        (lastSector h numBytes position)).bind fun buf =>
          (writeSectors h (firstSector position) (Bytes.copy src 0 buf (position - firstSector position * 128).toNat
            (clamped h numBytes position).toNat) 0
            (sectorCount (firstSector position) (lastSector h numBytes position)) disk).map fun disk =>
              (clamped h numBytes position, disk) :=
  if_neg (Bool.eq_false_iff.1 hr)

theorem rejects_congr (hlen : h'.numBytes = h.numBytes) (numBytes position : Word) :
    rejects h' numBytes position = rejects h numBytes position := by
  rw [rejects, rejects, hlen]

theorem clamped_congr (hlen : h'.numBytes = h.numBytes) : clamped h' numBytes position = clamped h numBytes position := by
  rw [clamped, clamped, hlen]

theorem lastSector_congr (hlen : h'.numBytes = h.numBytes) :
    lastSector h' numBytes position = lastSector h numBytes position := by
  rw [lastSector, lastSector, clamped_congr hlen]

theorem mem_loopOffsets {f l : Word} {j : Nat} (hj : j < sectorCount f l) :
    (f + BitVec.ofNat 32 j) * 128 ∈ loopOffsets f l :=
  List.mem_map.2 ⟨j, List.mem_range.2 hj, rfl⟩

theorem readSectors_congr (disk : Disk) {f : Word} {j n : Nat} {buf : Buffer}
    (hsame : ∀ m, j ≤ m → m < j + n → h'.byteToSector ((f + BitVec.ofNat 32 m) * 128) =
      h.byteToSector ((f + BitVec.ofNat 32 m) * 128)) :
    readSectors disk h' f j n buf = readSectors disk h f j n buf := by
  induction n generalizing j buf with
  | zero => rfl
  | succ n ih =>
    rw [readSectors, readSectors, hsame j (Nat.le_refl j) (by omega)]
    cases h.byteToSector ((f + BitVec.ofNat 32 j) * 128) with
    | none => rfl
    | some s =>
      refine congrArg (Option.bind _) (funext fun buf => ?_)
      exact ih (fun m h1 h2 => hsame m (by omega) (by omega))

theorem writeSectors_congr {f : Word} {buf : Buffer} {j n : Nat} {disk : Disk}
    (hsame : ∀ m, j ≤ m → m < j + n → h'.byteToSector ((f + BitVec.ofNat 32 m) * 128) =
      h.byteToSector ((f + BitVec.ofNat 32 m) * 128)) :
    writeSectors h' f buf j n disk = writeSectors h f buf j n disk := by
  induction n generalizing j disk with
  | zero => rfl
  | succ n ih =>
    rw [writeSectors, writeSectors, hsame j (Nat.le_refl j) (by omega)]
    cases h.byteToSector ((f + BitVec.ofNat 32 j) * 128) with
    | none => rfl
    | some s =>
      refine congrArg (Option.bind _) (funext fun disk => ?_)
      exact ih (fun m h1 h2 => hsame m (by omega) (by omega))

/-- **`ReadAt` asks for `readOffsets`**: it does the same for a header that answers these alike. -/
theorem readAt_congr (hlen : h'.numBytes = h.numBytes)
    (hsame : ∀ o ∈ readOffsets h numBytes position, h'.byteToSector o = h.byteToSector o) (disk : Disk)
    (junk into : Buffer) (off : Nat) :
    readAt disk h' junk into off numBytes position = readAt disk h junk into off numBytes position := by
  have hrejects := rejects_congr hlen numBytes position
  cases hr : rejects h numBytes position with
  | true => rw [readAt_rejects hr, readAt_rejects (hrejects.trans hr)]
  | false =>
    rw [readOffsets, hr, if_neg Bool.false_ne_true] at hsame
    have hloop : readSectors disk h' (firstSector position) 0
        (sectorCount (firstSector position) (lastSector h numBytes position)) junk = _ :=
      readSectors_congr disk fun m _ hm => hsame _ (mem_loopOffsets (by omega))
    rw [readAt_accepts hr, readAt_accepts (hrejects.trans hr), lastSector_congr hlen, clamped_congr hlen, hloop]

theorem readEnds_congr (hlen : h'.numBytes = h.numBytes)
    (hfirst : ∀ o ∈ firstOffsets h position, h'.byteToSector o = h.byteToSector o)
    (hlast : ∀ o ∈ lastOffsets h numBytes position, h'.byteToSector o = h.byteToSector o) (disk : Disk)
    (junk : Nat → Buffer) :
    readEnds disk h' junk (clamped h numBytes position) position (firstSector position)
        (lastSector h numBytes position) =
      readEnds disk h junk (clamped h numBytes position) position (firstSector position)
        (lastSector h numBytes position) := by
  have hbuf : ∀ junk into off, (position == firstSector position * 128) = false →
      readAt disk h' junk into off 128 (firstSector position * 128) =
        readAt disk h junk into off 128 (firstSector position * 128) := by
    intro junk into off haligned
    rw [firstOffsets, haligned, if_neg Bool.false_ne_true] at hfirst
    exact readAt_congr hlen hfirst disk junk into off
  unfold readEnds
  unfold lastOffsets at hlast
  simp only at hlast ⊢
  have hsecond : ∀ buf, (!(position + clamped h numBytes position == (lastSector h numBytes position + 1) * 128) &&
      (firstSector position != lastSector h numBytes position || position == firstSector position * 128)) = true →
      ∀ junk off, readAt disk h' junk buf off 128 (lastSector h numBytes position * 128) =
        readAt disk h junk buf off 128 (lastSector h numBytes position * 128) := by
    intro buf hcond junk off
    rw [hcond, if_pos rfl] at hlast
    exact readAt_congr hlen hlast disk junk buf off
  have hstart : (if !(position == firstSector position * 128) then
        (readAt disk h' (junk 1) (junk 0) 0 128 (firstSector position * 128)).map (·.2) else some (junk 0)) =
      (if !(position == firstSector position * 128) then
        (readAt disk h (junk 1) (junk 0) 0 128 (firstSector position * 128)).map (·.2) else some (junk 0)) := by
    cases haligned : position == firstSector position * 128 with
    | true => simp only [Bool.not_true, Bool.false_eq_true, if_false]
    | false => rw [hbuf _ _ _ haligned]
  apply (congrArg (Option.bind · _) hstart).trans
  refine congrArg (Option.bind _) (funext fun buf => ?_)
  split
  · rename_i hcond
    rw [hsecond buf hcond]
  · rfl

/-- **`WriteAt` asks for `writeOffsets`.** -/
theorem writeAt_congr (hlen : h'.numBytes = h.numBytes)
    (hsame : ∀ o ∈ writeOffsets h numBytes position, h'.byteToSector o = h.byteToSector o) (disk : Disk)
    (junk : Nat → Buffer) (src : Buffer) :
    writeAt disk h' junk src numBytes position = writeAt disk h junk src numBytes position := by
  have hrejects := rejects_congr hlen numBytes position
  cases hr : rejects h numBytes position with
  | true => rw [writeAt_rejects hr, writeAt_rejects (hrejects.trans hr)]
  | false =>
    rw [writeOffsets, hr, if_neg Bool.false_ne_true] at hsame
    have hends := readEnds_congr hlen (fun o ho => hsame o (List.mem_append_left _ (List.mem_append_left _ ho)))
      (fun o ho => hsame o (List.mem_append_left _ (List.mem_append_right _ ho))) disk junk
    rw [writeAt_accepts hr, writeAt_accepts (hrejects.trans hr), lastSector_congr hlen, clamped_congr hlen, hends]
    refine congrArg (Option.bind _) (funext fun buf => congrArg (Option.map _) ?_)
    exact writeSectors_congr fun m _ hm => hsame _ (List.mem_append_right _ (mem_loopOffsets (by omega)))

/-! ## The clamp -/

/-- Neither `ReadAt` nor `WriteAt` transfers more bytes than the file has, or asks for a sector behind its
last. -/
structure Clamps (h : FileHeader) (numBytes position : Word) : Prop where
  read : ∀ disk junk into off k into', readAt disk h junk into off numBytes position = some (k, into') →
    k.toInt ≤ max 0 (h.numBytes.toInt - position.toInt)
  write : ∀ disk junk src k disk', writeAt disk h junk src numBytes position = some (k, disk') →
    k.toInt ≤ max 0 (h.numBytes.toInt - position.toInt)
  sectors : ∀ o ∈ readOffsets h numBytes position ++ writeOffsets h numBytes position,
    (o.sdiv 128).toInt < divRoundUp h.numBytes.toNat SectorSize

/-- An index that is negative is outside of every table. -/
theorem byteToSector_congr {o : Word} {b : Nat} (ho : (o.sdiv 128).toInt < b)
    (hsame : ∀ i < b, h'.dataSectors[i]? = h.dataSectors[i]?) : h'.byteToSector o = h.byteToSector o := by
  rw [FileHeader.byteToSector, FileHeader.byteToSector]
  rcases lt_or_ge (o.sdiv 128).toInt 0 with hneg | hpos
  · have hbig := CInt.le_toNat_of_neg hneg
    have hdirect : NumDirect = 30 := rfl
    rw [List.getElem?_eq_none (by rw [h'.numDirect]; omega), List.getElem?_eq_none (by rw [h.numDirect]; omega)]
  · obtain ⟨i, hi, heq⟩ := CInt.exists_ofNat hpos
    rw [heq, CInt.toInt_ofNat hi] at ho
    rw [heq, CInt.toNat_ofNat hi]
    exact hsame i (by omega)

/-- **A clamped request uses the entries of the file only**, whatever the table holds behind them. -/
theorem clamps_entries (hc : Clamps h numBytes position) (hlen : h'.numBytes = h.numBytes)
    (hsame : ∀ i < divRoundUp h.numBytes.toNat SectorSize, h'.dataSectors[i]? = h.dataSectors[i]?) :
    (∀ disk junk into off,
      readAt disk h' junk into off numBytes position = readAt disk h junk into off numBytes position) ∧
    ∀ disk junk src, writeAt disk h' junk src numBytes position = writeAt disk h junk src numBytes position := by
  have hsector := fun o ho => byteToSector_congr (hc.sectors o ho) hsame
  refine ⟨fun disk junk into off => ?_, fun disk junk src => ?_⟩
  · exact readAt_congr hlen (fun o ho => hsector o (List.mem_append_left _ ho)) disk junk into off
  · exact writeAt_congr hlen (fun o ho => hsector o (List.mem_append_right _ ho)) disk junk src

theorem readAt_count {disk : Disk} {junk into into' : Buffer} {off : Nat} {k : Word}
    (hr : rejects h numBytes position = false) (h1 : readAt disk h junk into off numBytes position = some (k, into')) :
    k = clamped h numBytes position := by
  rw [readAt_accepts hr] at h1
  obtain ⟨buf, -, heq⟩ := Option.map_eq_some_iff.1 h1
  exact (Prod.mk.inj heq).1.symm

theorem writeAt_count {disk disk' : Disk} {junk : Nat → Buffer} {src : Buffer} {k : Word}
    (hr : rejects h numBytes position = false) (h1 : writeAt disk h junk src numBytes position = some (k, disk')) :
    k = clamped h numBytes position := by
  rw [writeAt_accepts hr] at h1
  obtain ⟨buf, -, h1⟩ := Option.bind_eq_some_iff.1 h1
  obtain ⟨disk1, -, heq⟩ := Option.map_eq_some_iff.1 h1
  exact (Prod.mk.inj heq).1.symm

/-- The index in the table that an offset stands for. -/
theorem index_ofNat {f j : Nat} (hfit : (f + j) * SectorSize < 2 ^ 31) :
    (((BitVec.ofNat 32 f + BitVec.ofNat 32 j) * 128).sdiv 128).toInt = (f + j : Nat) := by
  have hle := Nat.le_mul_of_pos_right (f + j) (show 0 < SectorSize by decide)
  rw [← BitVec.ofNat_add, sectorStart_ofNat, firstSector_ofNat hfit, Nat.mul_div_cancel _ (by decide),
    CInt.toInt_ofNat (by omega)]

theorem loopOffsets_lt {f l b : Nat} (hlb : l < b) (hfit : l * SectorSize < 2 ^ 31) (hfl : f ≤ l) :
    ∀ o ∈ loopOffsets (BitVec.ofNat 32 f) (BitVec.ofNat 32 l), (o.sdiv 128).toInt < b := by
  have hsmall := Nat.le_mul_of_pos_right l (show 0 < SectorSize by decide)
  intro o ho
  obtain ⟨j, hj, rfl⟩ := List.mem_map.1 ho
  rw [List.mem_range, sectorCount_ofNat (by omega) (by omega)] at hj
  have hle : (f + j) * SectorSize ≤ l * SectorSize := Nat.mul_le_mul_right _ (by omega)
  rw [index_ofNat (Nat.lt_of_le_of_lt hle hfit)]
  omega

section Inside

variable {n p : Nat} (hn : 0 < n) (hp : p < h.numBytes.toNat) (hlen : h.numBytes.toNat < 2 ^ 31) (hsum : p + n < 2 ^ 31)

include hp hlen hsum

theorem clamped_ofNat :
    clamped h (BitVec.ofNat 32 n) (BitVec.ofNat 32 p) = BitVec.ofNat 32 (min n (h.numBytes.toNat - p)) := by
  have hnum : h.numBytes = BitVec.ofNat 32 h.numBytes.toNat := by simp
  rw [clamped, hnum]
  have hclamp := clamp_ofNat hp hlen hsum
  rw [CInt.toNat_ofNat hlen]
  exact hclamp

include hn

theorem lastSector_eq : lastSector h (BitVec.ofNat 32 n) (BitVec.ofNat 32 p) =
    BitVec.ofNat 32 ((p + min n (h.numBytes.toNat - p) - 1) / SectorSize) := by
  rw [lastSector, clamped_ofNat hp hlen hsum]
  exact lastSector_ofNat (by omega) (by omega)

/-- A request that does not overflow asks for sectors of the file only. -/
theorem readOffsets_lt : ∀ o ∈ readOffsets h (BitVec.ofNat 32 n) (BitVec.ofNat 32 p),
    (o.sdiv 128).toInt < divRoundUp h.numBytes.toNat SectorSize := by
  rw [readOffsets]
  split
  · exact nofun
  · rw [lastSector_eq hn hp hlen hsum, firstSector, firstSector_ofNat (by omega)]
    refine loopOffsets_lt (lt_divRoundUp (by decide) (by omega)) ?_ (Nat.div_le_div_right (by omega))
    have hle := Nat.div_mul_le_self (p + min n (h.numBytes.toNat - p) - 1) SectorSize
    omega

end Inside

/-- The requests that cannot overflow. -/
def NoOverflow (h : FileHeader) (numBytes position : Word) : Prop :=
  numBytes.toInt ≤ 0 ∨ h.numBytes.toInt ≤ position.toInt ∨ position.toInt + numBytes.toInt < 2 ^ 31

theorem noOverflow_ofNat {n p : Nat} (hn : 0 < n) (hn31 : n < 2 ^ 31) (hp : p < h.numBytes.toNat)
    (hlen : h.numBytes.toNat < 2 ^ 31) (hint : h.numBytes.toInt = h.numBytes.toNat) :
    NoOverflow h (BitVec.ofNat 32 n) (BitVec.ofNat 32 p) ↔ p + n < 2 ^ 31 := by
  rw [NoOverflow, CInt.toInt_ofNat hn31, CInt.toInt_ofNat (by omega), hint]
  omega

/-- **A request that does not overflow is clamped.** -/
theorem clamps_of_noOverflow (h1 : h.numBytes.toInt ≤ MaxFileSize) (hp : 0 ≤ position.toInt)
    (hno : NoOverflow h numBytes position) : Clamps h numBytes position := by
  have hmax : MaxFileSize = 3840 := rfl
  cases hr : rejects h numBytes position with
  | true =>
    refine ⟨?_, ?_, ?_⟩
    · intro disk junk into off k into' hread
      rw [readAt_rejects hr] at hread
      cases hread
      exact le_max_left _ _
    · intro disk junk src k disk' hwrite
      rw [writeAt_rejects hr] at hwrite
      cases hwrite
      exact le_max_left _ _
    · rw [readOffsets, writeOffsets, hr]
      exact nofun
  | false =>
    obtain ⟨n, p, rfl, rfl, hint, hn, hn31, hplen, hlen⟩ := exists_request hp hr
    have hsum := (noOverflow_ofNat hn hn31 hplen hlen hint).1 hno
    have hk : (clamped h (BitVec.ofNat 32 n) (BitVec.ofNat 32 p)).toInt ≤
        max 0 (h.numBytes.toInt - (BitVec.ofNat 32 p).toInt) := by
      rw [clamped_ofNat hplen hlen hsum, CInt.toInt_ofNat (by omega), CInt.toInt_ofNat (by omega), hint]
      omega
    refine ⟨?_, ?_, ?_⟩
    · intro disk junk into off k into' hread
      rw [readAt_count hr hread]
      exact hk
    · intro disk junk src k disk' hwrite
      rw [writeAt_count hr hwrite]
      exact hk
    · have hsector : ∀ {q : Nat}, q < h.numBytes.toNat → ∀ o ∈ readOffsets h 128 (BitVec.ofNat 32 q),
          (o.sdiv 128).toInt < divRoundUp h.numBytes.toNat SectorSize :=
        fun hq => readOffsets_lt (n := 128) (by decide) hq hlen (by omega)
      have hread := readOffsets_lt hn hplen hlen hsum
      -- the two sectors at the ends begin inside of the file
      have hfirst : p / SectorSize * SectorSize ≤ p := Nat.div_mul_le_self _ _
      have hlast : (p + min n (h.numBytes.toNat - p) - 1) / SectorSize * SectorSize ≤
        p + min n (h.numBytes.toNat - p) - 1 := Nat.div_mul_le_self _ _
      rw [writeOffsets, hr, if_neg Bool.false_ne_true]
      rw [readOffsets, hr, if_neg Bool.false_ne_true] at hread ⊢
      simp only [List.forall_mem_append]
      refine ⟨hread, ⟨?_, ?_⟩, hread⟩
      · rw [firstOffsets]
        split
        · exact nofun
        · rw [firstSector, firstSector_ofNat (by omega), sectorStart_ofNat]
          exact hsector (by omega)
      · unfold lastOffsets
        simp only
        split
        · rw [lastSector_eq hn hplen hlen hsum, sectorStart_ofNat]
          exact hsector (by omega)
        · exact nofun

/-- **A request that overflows is not.** -/
theorem not_clamps (h1 : h.numBytes.toInt ≤ MaxFileSize) (hp : 0 ≤ position.toInt)
    (hover : ¬ NoOverflow h numBytes position) : ¬ Clamps h numBytes position := by
  have hmax : MaxFileSize = 3840 := rfl
  have hr : rejects h numBytes position = false := by
    rw [Bool.eq_false_iff]
    intro htrue
    rcases rejects_iff.1 htrue with hn | hlen
    · exact hover (.inl hn)
    · exact hover (.inr (.inl hlen))
  obtain ⟨n, p, rfl, rfl, hint, hn, hn31, hplen, hlen⟩ := exists_request hp hr
  rw [noOverflow_ofNat hn hn31 hplen hlen hint, Nat.not_lt] at hover
  rw [hint] at h1
  have hlt : h.numBytes.toNat ≤ 3840 := by omega
  -- the test of the sum fails, so the request stays as it is
  have hclamped : clamped h (BitVec.ofNat 32 n) (BitVec.ofNat 32 p) = BitVec.ofNat 32 n := by
    rw [clamped, if_neg]
    rw [← BitVec.ofNat_add, BitVec.slt, decide_eq_true_eq, hint, CInt.toInt_wrapped hover (by omega)]
    omega
  have hdiv := Nat.div_le_self p SectorSize
  intro hclamps
  rcases Nat.eq_or_lt_of_le hover with heq | hgt
  · -- the last sector is far behind the file
    have hlast : lastSector h (BitVec.ofNat 32 n) (BitVec.ofNat 32 p) = BitVec.ofNat 32 16777215 := by
      rw [lastSector, hclamped, ← BitVec.ofNat_add, ← heq]
      rfl
    have hmem : (BitVec.ofNat 32 (p / SectorSize) + BitVec.ofNat 32 (16777215 - p / SectorSize)) * 128 ∈
        readOffsets h (BitVec.ofNat 32 n) (BitVec.ofNat 32 p) := by
      rw [readOffsets, hr, if_neg Bool.false_ne_true, hlast, firstSector, firstSector_ofNat (by omega)]
      apply mem_loopOffsets
      rw [sectorCount_ofNat (by omega) (by decide)]
      omega
    have hindex := hclamps.sectors _ (List.mem_append_left _ hmem)
    have hround := divRoundUp_le (show h.numBytes.toNat ≤ 30 * SectorSize from hlt)
    have hsum : p / SectorSize + (16777215 - p / SectorSize) = 16777215 := by omega
    rw [index_ofNat (by rw [hsum]; decide), hsum] at hindex
    omega
  · -- the loop does nothing
    have hlast : (lastSector h (BitVec.ofNat 32 n) (BitVec.ofNat 32 p)).toInt < 0 := by
      have h1' : (1 : Word) = BitVec.ofNat 32 1 := rfl
      have h128 : (128 : Word) = BitVec.ofNat 32 128 := rfl
      rw [lastSector, hclamped, ← BitVec.ofNat_add, h1', CInt.sub_ofNat (by decide) (by omega), h128,
        CInt.toInt_sdiv_ofNat _ (by decide) (by decide), CInt.toInt_wrapped (by omega) (by omega)]
      exact CInt.tdiv_neg (by decide) (by omega)
    have hcount : sectorCount (firstSector (BitVec.ofNat 32 p)) (lastSector h (BitVec.ofNat 32 n) (BitVec.ofNat 32 p)) =
        0 := by
      rw [sectorCount, firstSector, firstSector_ofNat (by omega), CInt.toInt_ofNat (by omega)]
      generalize p / SectorSize = f
      omega
    have hread := readAt_accepts hr (fun _ => 0) (fun _ => 0) (fun _ => 0) 0
    rw [hcount, readSectors, Option.map_some, hclamped] at hread
    have htoo := hclamps.read _ _ _ _ _ _ hread
    rw [CInt.toInt_ofNat hn31, CInt.toInt_ofNat (by omega), hint] at htoo
    omega

end OpenFile

end Nachos
