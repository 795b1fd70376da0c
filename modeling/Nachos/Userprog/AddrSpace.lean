import Nachos.Lib.Bytes
import Nachos.Machine.Translate
import Nachos.Userprog.BitMap

/-!
# Address spaces

`AddrSpace::AddrSpace` and `~AddrSpace` of `userprog/addrspace.cc`, over the frames of
`gPhysPageBitmap` and the bytes of `mainMemory`.  The host is little-endian, so `SwapHeader` has
no effect.

The header is read into a local variable, so the part of it that a short file does not cover
holds anything (`junk`).  Offsets and page numbers are 32-bit `int`s, with wrapping sums.  An
index outside the page table is undefined behaviour: the loader then returns `none`.

* `setupPages_spec` — the frames a new space gets are distinct and were free, exactly they are
  marked, and they are cleared.
* `destroy_spec` — the destructor frees the frames of its own page table.
-/

set_option autoImplicit false

namespace Nachos

def UserStackSize : Nat := 1024

def NOFFMAGIC : Word := 0xbadfad

/-- `struct segment` of `bin/noff.h`. -/
structure Segment where
  virtualAddr : Word
  inFileAddr : Word
  size : Word
  deriving DecidableEq, Repr

/-- `struct noffHeader`. -/
structure NoffHeader where
  noffMagic : Word
  code : Segment
  initData : Segment
  uninitData : Segment
  deriving DecidableEq, Repr

/-- The bytes that `OpenFile::ReadAt` delivers. -/
def readAt (file : List Byte) (numBytes position : Word) : List Byte :=
  if numBytes.toInt ≤ 0 ∨ position.toInt < 0 then []
  else (file.drop position.toNat).take numBytes.toNat

namespace AddrSpace

def segmentAt (m : Nat → Byte) (a : Nat) : Segment :=
  ⟨Bytes.wordAt m a, Bytes.wordAt m (a + 4), Bytes.wordAt m (a + 8)⟩

/-- `executable->ReadAt((char *)&noffH, sizeof(noffH), 0)`. -/
def readHeader (junk : Nat → Byte) (file : List Byte) : NoffHeader :=
  let m := Bytes.blit junk 0 (readAt file 40 0)
  ⟨Bytes.wordAt m 0, segmentAt m 4, segmentAt m 16, segmentAt m 28⟩

/-- `size`, before it is rounded up to whole pages. -/
def imageSize (h : NoffHeader) : Word :=
  h.code.size + h.initData.size + h.uninitData.size + BitVec.ofNat 32 UserStackSize

def numPages (h : NoffHeader) : Nat := divRoundUp (imageSize h).toNat PageSize

/-- The loop that sets up the translation, from page `i` on, for `n` more pages. -/
def setupPages : Nat → Nat → BitMap → Memory → List TranslationEntry × BitMap × Memory
  | _, 0, bm, mem => ([], bm, mem)
  | i, n + 1, bm, mem =>
    let (found, bm) := bm.find
    let physicalPage : Int := match found with
      | some f => f
      | none => -1
    let entry : TranslationEntry :=
      { virtualPage := i, physicalPage := physicalPage, valid := true, readOnly := false
        use := false, dirty := false }
    let mem := Bytes.blit mem (physicalPage * PageSize) (List.replicate PageSize 0)
    let (rest, bm, mem) := setupPages (i + 1) n bm mem
    (entry :: rest, bm, mem)

/-- The loop over the whole pages of a segment, from page `i` on, for `n` more pages. -/
def loadPages (file : List Byte) (pageTable : List TranslationEntry)
    (inFileAddr firstPage firstPageSize : Word) : Nat → Nat → Memory → Option Memory
  | _, 0, mem => some mem
  | i, n + 1, mem =>
    match pageTable[i]? with
    | none => none
    | some e =>
      let position := inFileAddr + firstPageSize + (BitVec.ofNat 32 i - firstPage - 1) * 128
      loadPages file pageTable inFileAddr firstPage firstPageSize (i + 1) n
        (Bytes.blit mem (e.physicalPage * PageSize) (readAt file 128 position))

/-- The copying of one segment; the two segments are copied by the same statements. -/
def loadSegment (file : List Byte) (pageTable : List TranslationEntry) (seg : Segment)
    (mem : Memory) : Option Memory :=
  if 0 < seg.size.toInt then
    let firstPage := seg.virtualAddr.sdiv 128
    let tempPageSize := 128 - seg.virtualAddr.srem 128
    let cut := tempPageSize.slt seg.size
    let firstPageSize := if cut then tempPageSize else seg.size
    let lastPage := if cut then (seg.virtualAddr + seg.size).sdiv 128 else firstPage + 1
    let lastPageSize := if cut then (seg.virtualAddr + seg.size).srem 128 else 0
    match pageTable[firstPage.toNat]? with
    | none => none
    | some first =>
      let mem := Bytes.blit mem (first.physicalPage * PageSize + PageSize - tempPageSize.toInt)
        (readAt file firstPageSize seg.inFileAddr)
      let mem :=
        if lastPageSize ≠ 0 then
          match pageTable[lastPage.toNat]? with
          | none => none
          | some last =>
            some (Bytes.blit mem (last.physicalPage * PageSize) (readAt file lastPageSize
              (seg.inFileAddr + firstPageSize + (lastPage - firstPage - 1) * 128)))
        else some mem
      -- `i` is unsigned, and so is its comparison with `lastPage`
      mem.bind (loadPages file pageTable seg.inFileAddr firstPage firstPageSize
        (firstPage + 1).toNat (lastPage.toNat - (firstPage + 1).toNat))
  else some mem

/-- What the constructor leaves behind.  `mem` is `none` if it has used an index outside the page
    table. -/
structure Built where
  pageTable : List TranslationEntry
  bm : BitMap
  mem : Option Memory

/-- `AddrSpace::AddrSpace(executable)`; `none` if an assertion fails. -/
def create (junk : Nat → Byte) (file : List Byte) (bm : BitMap) (mem : Memory) : Option Built :=
  let noffH := readHeader junk file
  if noffH.noffMagic ≠ NOFFMAGIC then none
  else if bm.numClear < numPages noffH then none
  else
    let (pageTable, bm, mem) := setupPages 0 (numPages noffH) bm mem
    some
      { pageTable := pageTable
        bm := bm
        mem := (loadSegment file pageTable noffH.code mem).bind
          (loadSegment file pageTable noffH.initData) }

/-- `AddrSpace::~AddrSpace`; `none` if the assertion in `Clear` fails. -/
def destroy (bm : BitMap) (pageTable : List TranslationEntry) : Option BitMap :=
  pageTable.foldlM (fun bm e => bm.clear e.physicalPage) bm

/-! ## Frames -/

/-- Entry `i` of a new page table. -/
def freshEntry (i f : Nat) : TranslationEntry :=
  { virtualPage := i, physicalPage := f, valid := true, readOnly := false, use := false, dirty := false }

theorem map_physicalPage_fresh (i : Nat) (fs : List Nat) :
    (List.zipWith freshEntry (List.range' i fs.length) fs).map (·.physicalPage) =
      fs.map (fun f : Nat => (f : Int)) := by
  induction fs generalizing i with
  | nil => rfl
  | cons f fs ih =>
    rw [List.length_cons, List.range'_succ, List.zipWith_cons_cons, List.map_cons, ih, List.map_cons]
    rfl

/-- Addresses of a cleared frame. -/
theorem blit_zero_apply (mem : Memory) (f a : Nat) :
    Bytes.blit mem ((f : Int) * PageSize) (List.replicate PageSize 0) a =
      if a / PageSize = f then 0 else mem a := by
  have hcast : ((f : Int) * PageSize) = ((f * PageSize : Nat) : Int) := by push_cast; rfl
  have hdiv := Nat.div_add_mod a PageSize
  have hmod : a % PageSize < PageSize := Nat.mod_lt a (by decide)
  rw [hcast]
  by_cases h : a / PageSize = f
  · rw [if_pos h, Bytes.blit_apply_of_mem]
    · simp
    · rw [← h, Nat.mul_comm]
      omega
    · rw [List.length_replicate, ← h, Nat.mul_comm]
      omega
  · rw [if_neg h, Bytes.blit_apply_of_not_mem]
    rintro ⟨h1, h2⟩
    rw [List.length_replicate, Nat.mul_comm] at h2
    rw [Nat.mul_comm] at h1
    apply h
    rw [Nat.div_eq_of_lt_le]
    · rw [Nat.mul_comm]; exact h1
    · rw [Nat.add_mul, Nat.mul_comm f]; omega

/-- **Page-table set-up.** -/
theorem setupPages_spec (i n : Nat) (bm : BitMap) (mem : Memory) (hn : n ≤ bm.numClear) :
    ∃ fs : List Nat, fs.length = n ∧ bm.Taken fs (setupPages i n bm mem).2.1 ∧
      (setupPages i n bm mem).1 = List.zipWith freshEntry (List.range' i n) fs ∧
      (∀ a, (setupPages i n bm mem).2.2 a = if a / PageSize ∈ fs then 0 else mem a) := by
  induction n generalizing i bm mem with
  | zero => exact ⟨[], rfl, BitMap.Taken.nil bm, rfl, by simp [setupPages]⟩
  | succ n ih =>
    obtain ⟨f, hfind, hf, hbit⟩ := BitMap.find_of_numClear_pos (b := bm) (by omega)
    have hclear := BitMap.numClear_setBit hf hbit
    obtain ⟨fs, hlen, htaken, hpt, hmem⟩ := ih (i + 1) (bm.setBit f)
      (Bytes.blit mem ((f : Int) * PageSize) (List.replicate PageSize 0)) (by omega)
    refine ⟨f :: fs, by simp [hlen], ?_, ?_, ?_⟩
    · simp only [setupPages, hfind]
      exact htaken.cons hf hbit
    · simp only [setupPages, hfind, hpt, List.range'_succ, List.zipWith_cons_cons]
      rfl
    · intro a
      simp only [setupPages, hfind]
      rw [hmem a, blit_zero_apply]
      by_cases ha : a / PageSize = f
      · simp [ha]
      · simp [ha]

/-- **The destructor** clears the bits of the frames it is given, and fails no assertion. -/
theorem destroy_spec (bm : BitMap) {pt : List TranslationEntry} {fs : List Nat}
    (hpt : pt.map (·.physicalPage) = fs.map (fun f : Nat => (f : Int))) (hfs : ∀ f ∈ fs, f < bm.numBits) :
    ∃ bm', destroy bm pt = some bm' ∧ bm'.numBits = bm.numBits ∧
      ∀ j, bm'.bit j = if j ∈ fs then false else bm.bit j := by
  have hfold : destroy bm pt = some (fs.foldl BitMap.clearBit bm) := by
    unfold destroy
    induction fs generalizing bm pt with
    | nil =>
      rw [List.map_nil, List.map_eq_nil_iff] at hpt
      rw [hpt]
      rfl
    | cons f fs ih =>
      obtain ⟨e, pt', rfl, he, hpt'⟩ := List.map_eq_cons_iff.1 hpt
      have hlt := hfs f List.mem_cons_self
      have hclear : bm.clear e.physicalPage = some (bm.clearBit f) := by
        rw [show e.physicalPage = (f : Int) from he, BitMap.clear, if_pos]
        · rfl
        · exact BitMap.inRange_iff.2 (by omega)
      rw [List.foldlM_cons, hclear]
      exact ih _ hpt' (fun g hg => hfs g (List.mem_cons_of_mem f hg))
  refine ⟨_, hfold, BitMap.numBits_foldl_clearBit fs bm, ?_⟩
  exact BitMap.bit_foldl_clearBit hfs

end AddrSpace

end Nachos
