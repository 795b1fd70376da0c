import Nachos.Lib.Partial
import Nachos.Userprog.Exception
import Nachos.Userprog.LoaderReads

/-!
# Headers that the loader copes with

`AddrSpace::AddrSpace` cannot report a failure.  An `ASSERT` that does not hold aborts the kernel:
those on the magic number and on the free frames, and the one of `Lseek` against a negative
position in the file.  An index outside the page table, or bytes outside of main memory, are
undefined behaviour.

* `reads_eq` — the calls of `ReadAt` for a segment, in natural numbers.
* `reads_ok_iff` — when all of them can be made.
* `construct_ok_iff` — which headers the constructor returns for, given the free frames.
-/

set_option autoImplicit false

namespace Nachos

namespace AddrSpace

/-- One call of `ReadAt`. -/
def runRead (file : List Byte) (pageTable : List TranslationEntry) (mem : Memory) (r : Read) : Except Stop Memory :=
  match pageTable[r.index]? with
  | none => .error .undefined
  | some e =>
    let start := e.physicalPage * PageSize + r.offset
    let data := readAt file r.numBytes r.position
    if r.position.toInt < 0 then .error .abort
    else if r.numBytes.toInt < 0 ∨ start < 0 ∨ (MemorySize : Int) < start + data.length then .error .undefined
    else .ok (Bytes.blit mem start data)

/-- `AddrSpace::AddrSpace(executable)`. -/
def construct (junk : Nat → Byte) (file : List Byte) (bm : BitMap) (mem : Memory) :
    Except Stop (List TranslationEntry × BitMap × Memory) :=
  let noffH := readHeader junk file
  if noffH.noffMagic ≠ NOFFMAGIC then .error .abort
  else if bm.numClear < numPages noffH then .error .abort
  else
    let (pageTable, bm, mem) := setupPages 0 (numPages noffH) bm mem
    (fun mem => (pageTable, bm, mem)) <$>
      (reads noffH.code ++ reads noffH.initData).foldlM (runRead file pageTable) mem

/-- A segment that can be copied to `pages` pages: it starts in the first of them or behind, or less
than a page in front of address 0 while frame 0 is taken; it ends inside of them; and neither its
first byte nor one at a page boundary is at a position of the file that is no `int`. -/
structure Fits (seg : Segment) (pages : Nat) (bm : BitMap) : Prop where
  some : 0 < pages
  start : 0 ≤ seg.virtualAddr.toInt ∨ -PageSize < seg.virtualAddr.toInt ∧ bm.bit 0 = true
  stop : seg.virtualAddr.toInt + seg.size.toInt ≤ pages * PageSize
  position : 0 ≤ seg.inFileAddr.toInt
  boundary : ∀ i : Nat, 0 < i → seg.virtualAddr.toInt < i * PageSize →
    i * PageSize < seg.virtualAddr.toInt + seg.size.toInt →
    seg.inFileAddr.toInt + (i * PageSize - seg.virtualAddr.toInt) < 2 ^ 31

/-- The header of a NOFF file that needs no more pages than there are, and whose segments fit into them. -/
structure Loads (h : NoffHeader) (bm : BitMap) : Prop where
  magic : h.noffMagic = NOFFMAGIC
  pages : numPages h ≤ bm.numClear
  fits : ∀ seg ∈ [h.code, h.initData], 0 < seg.size.toInt → Fits seg (numPages h) bm

/-! ## The calls of `ReadAt` -/

/-- A call for which `pageTable` has a page, whose position is not negative and that stays inside of
main memory. -/
def Read.Ok (file : List Byte) (pageTable : List TranslationEntry) (r : Read) : Prop :=
  ∃ e, pageTable[r.index]? = some e ∧ 0 ≤ r.position.toInt ∧ 0 ≤ r.numBytes.toInt ∧
    0 ≤ e.physicalPage * PageSize + r.offset ∧
    e.physicalPage * PageSize + r.offset + (readAt file r.numBytes r.position).length ≤ MemorySize

variable {file : List Byte} {pageTable : List TranslationEntry}

theorem runRead_ok_iff (mem : Memory) {r : Read} :
    (∃ mem', runRead file pageTable mem r = .ok mem') ↔ r.Ok file pageTable := by
  unfold runRead Read.Ok
  cases he : pageTable[r.index]? with
  | none => exact ⟨nofun, nofun⟩
  | some e =>
    simp only [Option.some.injEq, exists_eq_left']
    split
    · exact ⟨nofun, fun h => by omega⟩
    · split
      · exact ⟨nofun, fun h => by omega⟩
      · exact ⟨fun _ => by omega, fun _ => ⟨_, rfl⟩⟩

theorem foldlM_runRead_ok_iff (rs : List Read) (mem : Memory) :
    (∃ mem', rs.foldlM (runRead file pageTable) mem = .ok mem') ↔ ∀ r ∈ rs, r.Ok file pageTable := by
  induction rs generalizing mem with
  | nil => exact ⟨fun _ r hr => absurd hr List.not_mem_nil, fun _ => ⟨mem, rfl⟩⟩
  | cons r rs ih =>
    rw [List.forall_mem_cons, List.foldlM_cons, ← runRead_ok_iff mem]
    constructor
    · rintro ⟨mem', h⟩
      obtain ⟨mem1, h1, h⟩ := Partial.bind_eq_ok.1 h
      exact ⟨⟨mem1, h1⟩, (ih mem1).1 ⟨mem', h⟩⟩
    · rintro ⟨⟨mem1, h1⟩, hrest⟩
      rw [h1]
      exact (ih mem1).2 hrest

/-- The piece of a segment that starts at the beginning of page `i`, where `w` bytes are left of
page `first` and `n` bytes are read. -/
def piece (inFileAddr : Word) (first w i n : Nat) : Read :=
  ⟨i, 0, BitVec.ofNat 32 n, inFileAddr + BitVec.ofNat 32 (w + (i - first - 1) * PageSize)⟩

/-- The offset formula of the loader. -/
theorem position_piece {inFileAddr : Word} {first w i : Nat} (hi : first < i) (hi31 : i < 2 ^ 31) :
    inFileAddr + BitVec.ofNat 32 w + (BitVec.ofNat 32 i - BitVec.ofNat 32 first - 1) * 128 =
      inFileAddr + BitVec.ofNat 32 (w + (i - first - 1) * PageSize) := by
  have hone : (1 : Word) = BitVec.ofNat 32 1 := rfl
  have hpage : (128 : Word) = BitVec.ofNat 32 PageSize := rfl
  rw [CInt.sub_ofNat (by omega) (by omega), hone, CInt.sub_ofNat (by omega) (by omega), hpage, ← BitVec.ofNat_mul,
    BitVec.add_assoc, ← BitVec.ofNat_add]

/-- The page of the first byte, and the bytes that are left of it. -/
theorem first_page {va : Word} {first w : Nat} (hw0 : 0 < w) (hw : w < 2 * PageSize) (hfirst : PageSize < w → first = 0)
    (hva : va.toInt = (first + 1) * PageSize - w) :
    va.sdiv 128 = BitVec.ofNat 32 first ∧ 128 - va.srem 128 = BitVec.ofNat 32 w := by
  simp only [PageSize, SectorSize] at hw hfirst hva
  have hint : (128 : Word).toInt = 128 := rfl
  have hlt := BitVec.two_mul_toInt_lt (x := va)
  obtain ⟨hdiv, hmod⟩ : va.toInt.tdiv 128 = first ∧ va.toInt.tmod 128 = 128 - (w : Int) := by
    by_cases hfront : 128 < w
    · have hneg : va.toInt = -((w - 128 : Nat) : Int) := by
        rw [hva, hfirst hfront]
        omega
      have hsmall : w - 128 < 128 := by omega
      rw [hneg, Int.neg_tdiv, Int.neg_tmod, hfirst hfront]
      constructor
      · show -(((w - 128) / 128 : Nat) : Int) = 0
        rw [Nat.div_eq_of_lt hsmall]
        rfl
      · show -(((w - 128) % 128 : Nat) : Int) = _
        rw [Nat.mod_eq_of_lt hsmall]
        omega
    · have hpos : va.toInt = ((first * 128 + (128 - w) : Nat) : Int) := by
        rw [hva]
        omega
      rw [hpos, show (128 : Int) = ((128 : Nat) : Int) from rfl, ← Int.ofNat_tdiv, ← Int.ofNat_tmod]
      constructor
      · omega
      · omega
  constructor
  · apply BitVec.eq_of_toInt_eq
    rw [show (128 : Word) = BitVec.ofNat 32 128 from rfl, CInt.toInt_sdiv_ofNat va (by omega) (by omega),
      CInt.toInt_ofNat (by omega)]
    exact hdiv
  · apply BitVec.eq_of_toInt_eq
    rw [BitVec.toInt_sub, BitVec.toInt_srem, hint, hmod, CInt.toInt_ofNat (by omega),
      Int.bmod_eq_of_le (by omega) (by omega)]
    omega

/-- **The calls for a segment** whose first byte is `w` bytes in front of the end of page `first`. -/
theorem reads_eq {seg : Segment} {first w z stop : Nat} (hw0 : 0 < w) (hw : w < 2 * PageSize)
    (hfirst : PageSize < w → first = 0) (hva : seg.virtualAddr.toInt = (first + 1) * PageSize - w) (hz0 : 0 < z)
    (hz : seg.size.toInt = z) (hstop : (first + 1) * PageSize + (z - w) = stop) (hend : stop < 2 ^ 31) :
    reads seg = if w < z then
      ⟨first, PageSize - w, BitVec.ofNat 32 w, seg.inFileAddr⟩ ::
        ((if stop % PageSize ≠ 0 then [piece seg.inFileAddr first w (stop / PageSize) (stop % PageSize)] else []) ++
        (List.range' (first + 1) (stop / PageSize - (first + 1))).map fun i => piece seg.inFileAddr first w i PageSize)
    else [⟨first, PageSize - w, BitVec.ofNat 32 z, seg.inFileAddr⟩] := by
  obtain ⟨hpage, htemp⟩ := first_page hw0 hw hfirst hva
  have hzlt := BitVec.two_mul_toInt_lt (x := seg.size)
  have hzword : seg.size = BitVec.ofNat 32 z := by
    apply BitVec.eq_of_toInt_eq
    rw [hz, CInt.toInt_ofNat (by omega)]
  have hsize : (128 : Word) = BitVec.ofNat 32 128 := rfl
  have hposition : ∀ i, first < i → i < 2 ^ 31 →
      seg.inFileAddr + BitVec.ofNat 32 w + (BitVec.ofNat 32 i - BitVec.ofNat 32 first - 1) * 128 =
        seg.inFileAddr + BitVec.ofNat 32 (w + (i - first - 1) * PageSize) := fun _ => position_piece
  unfold reads piece
  simp only [PageSize, SectorSize] at *
  rw [if_pos (by omega), hpage, htemp, hzword, CInt.slt_ofNat (by omega) (by omega), CInt.toInt_ofNat (by omega),
    CInt.toNat_ofNat (by omega)]
  by_cases hcut : w < z
  · have hsum : seg.virtualAddr + BitVec.ofNat 32 z = BitVec.ofNat 32 stop := by
      apply BitVec.eq_of_toInt_eq
      rw [BitVec.toInt_add, hva, CInt.toInt_ofNat (by omega), CInt.toInt_ofNat hend,
        Int.bmod_eq_of_le (by omega) (by omega)]
      omega
    have hnext : (BitVec.ofNat 32 first + 1 : Word).toNat = first + 1 := by
      rw [show (1 : Word) = BitVec.ofNat 32 1 from rfl, ← BitVec.ofNat_add, CInt.toNat_ofNat (by omega)]
    rw [if_pos hcut]
    simp only [decide_eq_true hcut, if_true]
    rw [hsum, hnext, hsize, CInt.sdiv_ofNat hend (by omega), CInt.srem_ofNat hend (by omega),
      CInt.toNat_ofNat (by omega)]
    congr 2
    · refine ite_congr (propext (not_congr ⟨?_, ?_⟩)) (fun _ => ?_) (fun _ => rfl)
      · intro hzero
        by_contra hne
        exact CInt.ofNat_ne_zero (by omega) (by omega) hzero
      · intro hzero
        rw [hzero]
        rfl
      · rw [← hsize, hposition (stop / 128) (by omega) (by omega)]
    · refine List.map_congr_left ?_
      intro i hi
      obtain ⟨hi1, hi2⟩ := List.mem_range'_1.1 hi
      rw [← hsize, hposition i (by omega) (by omega)]
  · rw [if_neg hcut]
    simp only [decide_eq_false hcut, Bool.false_eq_true, if_false, ne_eq, not_true, List.nil_append]
    rw [show (BitVec.ofNat 32 first + 1 : Word).toNat = first + 1 by
      rw [show (1 : Word) = BitVec.ofNat 32 1 from rfl, ← BitVec.ofNat_add, CInt.toNat_ofNat (by omega)],
      Nat.sub_self]
    rfl

/-- The same as a statement about each call: the first piece, and one for every page boundary inside. -/
theorem forall_reads_iff {P : Read → Prop} {seg : Segment} {first w z stop : Nat} (hw0 : 0 < w) (hw : w < 2 * PageSize)
    (hfirst : PageSize < w → first = 0) (hva : seg.virtualAddr.toInt = (first + 1) * PageSize - w) (hz0 : 0 < z)
    (hz : seg.size.toInt = z) (hstop : (first + 1) * PageSize + (z - w) = stop) (hend : stop < 2 ^ 31) :
    (∀ r ∈ reads seg, P r) ↔ P ⟨first, PageSize - w, BitVec.ofNat 32 (min w z), seg.inFileAddr⟩ ∧
      ∀ i, first < i → i * PageSize < stop →
        P (piece seg.inFileAddr first w i (min PageSize (stop - i * PageSize))) := by
  rw [reads_eq hw0 hw hfirst hva hz0 hz hstop hend]
  have hsize : PageSize = 128 := rfl
  by_cases hcut : w < z
  · rw [if_pos hcut, List.forall_mem_cons, List.forall_mem_append, Nat.min_eq_left (Nat.le_of_lt hcut)]
    refine and_congr_right fun _ => ⟨?_, ?_⟩
    · rintro ⟨hlast, hwhole⟩ i hi hin
      rcases Nat.lt_or_ge i (stop / PageSize) with hlt | hge
      · rw [Nat.min_eq_left (by simp only [PageSize, SectorSize] at *; omega)]
        exact hwhole _ (List.mem_map.2 ⟨i, List.mem_range'_1.2 (by omega), rfl⟩)
      · have hieq : i = stop / PageSize := by simp only [PageSize, SectorSize] at *; omega
        subst hieq
        have hrest : min PageSize (stop - stop / PageSize * PageSize) = stop % PageSize := by
          simp only [PageSize, SectorSize] at *
          omega
        rw [hrest]
        refine hlast _ ?_
        rw [if_pos (by simp only [PageSize, SectorSize] at *; omega)]
        exact List.mem_singleton_self _
    · intro hall
      constructor
      · intro r hr
        split at hr
        · rename_i hrest
          obtain rfl := List.mem_singleton.1 hr
          have hin := hall (stop / PageSize) (by simp only [PageSize, SectorSize] at *; omega)
            (by simp only [PageSize, SectorSize] at *; omega)
          rwa [show min PageSize (stop - stop / PageSize * PageSize) = stop % PageSize by
            simp only [PageSize, SectorSize] at *; omega] at hin
        · cases hr
      · intro r hr
        obtain ⟨i, hi, rfl⟩ := List.mem_map.1 hr
        obtain ⟨hi1, hi2⟩ := List.mem_range'_1.1 hi
        have hin := hall i hi1 (by simp only [PageSize, SectorSize] at *; omega)
        rwa [Nat.min_eq_left (by simp only [PageSize, SectorSize] at *; omega)] at hin
  · rw [if_neg hcut, List.forall_mem_singleton, Nat.min_eq_right (Nat.le_of_not_lt hcut)]
    refine (and_iff_left ?_).symm
    intro i hi hin
    exfalso
    simp only [PageSize, SectorSize] at *
    omega

/-! ## When they can be made -/

variable {fs : List Nat}

/-- A call that stays in front of the end of its page. -/
theorem Read.ok_iff (hpt : pageTable.map (·.physicalPage) = fs.map (fun f : Nat => (f : Int)))
    (hfs : ∀ f ∈ fs, f < NumPhysPages) {r : Read} (h0 : 0 ≤ r.numBytes.toInt)
    (hstop : r.offset + r.numBytes.toInt ≤ PageSize) : r.Ok file pageTable ↔
      ∃ f, fs[r.index]? = some f ∧ 0 ≤ r.position.toInt ∧ 0 ≤ (f : Int) * PageSize + r.offset := by
  have hdata := length_readAt_le file r.numBytes r.position
  constructor
  · rintro ⟨e, he, hpos, -, hstart, -⟩
    have hget := congrArg (fun l : List Int => l[r.index]?) hpt
    simp only [List.getElem?_map, he, Option.map_some] at hget
    obtain ⟨f, hf, hfe⟩ := Option.map_eq_some_iff.1 hget.symm
    exact ⟨f, hf, hpos, by rw [hfe]; exact hstart⟩
  · rintro ⟨f, hf, hpos, hstart⟩
    obtain ⟨e, he, hphys⟩ := getElem?_physicalPage hpt hf
    have hframe := hfs f (List.mem_of_getElem? hf)
    have hmem : (f + 1) * PageSize ≤ NumPhysPages * PageSize := Nat.mul_le_mul_right _ (by omega)
    rw [Nat.succ_mul] at hmem
    refine ⟨e, he, hpos, h0, by rw [hphys]; exact hstart, ?_⟩
    rw [hphys, MemorySize]
    push_cast
    omega

/-- What the page table of a new address space is like, given the free frames. -/
structure Frames (fs : List Nat) (bm : BitMap) : Prop where
  lt : ∀ f ∈ fs, f < NumPhysPages
  length : fs.length ≤ NumPhysPages
  head : ∀ f, fs[0]? = some f → (f ≠ 0 ↔ bm.bit 0 = true)

/-- The page of a byte, and the bytes that are left of it.  Those in front of address 0 count for page 0. -/
theorem exists_first {va : Int} (h : -PageSize < va) : ∃ first w : Nat, 0 < w ∧ w < 2 * PageSize ∧
    (PageSize < w → first = 0) ∧ va = (first + 1) * PageSize - w := by
  have hsize : PageSize = 128 := rfl
  rcases lt_or_ge va 0 with hneg | hpos
  · obtain ⟨m, hm⟩ := Int.eq_ofNat_of_zero_le (show 0 ≤ -va by omega)
    refine ⟨0, PageSize + m, by omega, by omega, fun _ => rfl, ?_⟩
    push_cast
    omega
  · have hdiv := Nat.div_add_mod va.toNat PageSize
    have hmod : va.toNat % PageSize < PageSize := Nat.mod_lt _ (by decide)
    rw [hsize] at *
    exact ⟨va.toNat / 128, 128 - va.toNat % 128, by omega, by omega, by omega, by omega⟩

/-- A page between the first and the last one. -/
theorem exists_whole {seg : Segment} {i : Nat} (hsize : 0 < seg.size.toInt)
    (hcut : (128 - seg.virtualAddr.srem 128).slt seg.size = true) (hi : (seg.virtualAddr.sdiv 128 + 1).toNat ≤ i)
    (hlast : i < ((seg.virtualAddr + seg.size).sdiv 128).toNat) : ∃ r ∈ reads seg, r.index = i := by
  rw [reads, if_pos hsize]
  simp only [hcut, if_true]
  exact ⟨_, List.mem_cons_of_mem _ (List.mem_append_right _
    (List.mem_map.2 ⟨i, List.mem_range'_1.2 ⟨hi, by omega⟩, rfl⟩)), rfl⟩

/-- A segment that starts in front of address -127, or ends far behind the last frame, is not copied. -/
theorem reads_far {seg : Segment} (hsize : 0 < seg.size.toInt)
    (hfar : seg.virtualAddr.toInt ≤ -PageSize ∨ 2 ^ 30 ≤ seg.virtualAddr.toInt + seg.size.toInt) :
    ∃ r ∈ reads seg, NumPhysPages ≤ r.index := by
  have hquot := fun a : Word => CInt.toInt_sdiv_ofNat a (b := 128) (by decide) (by decide)
  have hhead : ∃ r ∈ reads seg, r.index = (seg.virtualAddr.sdiv 128).toNat := by
    rw [reads, if_pos hsize]
    exact ⟨_, List.mem_cons_self, rfl⟩
  rcases lt_or_ge (-PageSize : Int) seg.virtualAddr.toInt with hstart | hneg
  · obtain ⟨first, w, hw0, hw, hfirst, hva⟩ := exists_first hstart
    obtain ⟨hpage, htemp⟩ := first_page hw0 hw hfirst hva
    have hlow := BitVec.two_mul_toInt_lt (x := seg.virtualAddr)
    simp only [PageSize, SectorSize, NumPhysPages] at *
    rw [hpage, CInt.toNat_ofNat (by omega)] at hhead
    rcases Nat.lt_or_ge first 128 with hlt | hge
    · obtain ⟨z, hz, hzword⟩ := CInt.exists_ofNat (Int.le_of_lt hsize)
      rw [hzword, CInt.toInt_ofNat hz] at hfar
      have hnext : (BitVec.ofNat 32 first + 1 : Word).toNat = first + 1 := by
        rw [show (1 : Word) = BitVec.ofNat 32 1 from rfl, ← BitVec.ofNat_add, CInt.toNat_ofNat (by omega)]
      have hsum : (seg.virtualAddr + seg.size).toInt = (seg.virtualAddr.toInt + z).bmod (2 ^ 32) := by
        rw [BitVec.toInt_add, hzword, CInt.toInt_ofNat hz]
      -- the end is so far behind, or wraps around, that the loop reaches the page behind the last frame
      have hlast : 128 < ((seg.virtualAddr + seg.size).sdiv 128).toNat := by
        rcases lt_or_ge (seg.virtualAddr.toInt + z) (2 ^ 31) with hint | hwrap
        · rw [Int.bmod_eq_of_le (by omega) (by omega)] at hsum
          obtain ⟨stop, hstop, hword⟩ := CInt.exists_ofNat (w := seg.virtualAddr + seg.size) (by omega)
          rw [hword, CInt.toInt_ofNat hstop] at hsum
          rw [hword, show (128 : Word) = BitVec.ofNat 32 128 from rfl, CInt.sdiv_ofNat hstop (by omega),
            CInt.toNat_ofNat (by omega)]
          omega
        · rw [← Int.sub_bmod_right, Int.bmod_eq_of_le (by omega) (by omega)] at hsum
          have hneg := CInt.tdiv_neg (b := 128) (by decide) (m := (seg.virtualAddr + seg.size).toInt) (by omega)
          rw [← hquot] at hneg
          exact Nat.lt_of_lt_of_le (by decide) (CInt.le_toNat_of_neg hneg)
      obtain ⟨r, hr, hri⟩ := exists_whole hsize
        (by rw [htemp, hzword, CInt.slt_ofNat (by omega) hz]; exact decide_eq_true (by omega))
        (by rw [hpage, hnext]; omega) hlast
      exact ⟨r, hr, Nat.le_of_eq hri.symm⟩
    · obtain ⟨r, hr, hri⟩ := hhead
      exact ⟨r, hr, by omega⟩
  · obtain ⟨r, hr, hri⟩ := hhead
    have hneg := CInt.tdiv_neg (b := 128) (by decide) (m := seg.virtualAddr.toInt)
      (by simp only [PageSize, SectorSize] at hneg; omega)
    rw [← hquot] at hneg
    exact ⟨r, hr, hri ▸ Nat.le_trans (by decide) (CInt.le_toNat_of_neg hneg)⟩

/-- The first call for a segment. -/
theorem head_ok_iff (hpt : pageTable.map (·.physicalPage) = fs.map (fun f : Nat => (f : Int)))
    (hfs : ∀ f ∈ fs, f < NumPhysPages) {first w z : Nat} (hw : w < 2 * PageSize) (inFileAddr : Word) :
    Read.Ok file pageTable ⟨first, PageSize - w, BitVec.ofNat 32 (min w z), inFileAddr⟩ ↔
      ∃ f, fs[first]? = some f ∧ 0 ≤ inFileAddr.toInt ∧ w ≤ (f + 1) * PageSize := by
  have hsize : PageSize = 128 := rfl
  have hint : (BitVec.ofNat 32 (min w z)).toInt = (min w z : Nat) := CInt.toInt_ofNat (by omega)
  rw [Read.ok_iff hpt hfs (by simp only [hint]; omega) (by simp only [hint]; omega)]
  refine exists_congr fun f => and_congr_right fun _ => and_congr_right fun _ => ?_
  rw [Nat.succ_mul]
  simp only
  omega

/-- The call for a later page. -/
theorem piece_ok_iff (hpt : pageTable.map (·.physicalPage) = fs.map (fun f : Nat => (f : Int)))
    (hfs : ∀ f ∈ fs, f < NumPhysPages) {first w i n : Nat} (hn : n ≤ PageSize) {inFileAddr : Word}
    (hpos : 0 ≤ inFileAddr.toInt) (hsmall : w + (i - first - 1) * PageSize < 2 ^ 31) :
    (piece inFileAddr first w i n).Ok file pageTable ↔
      i < fs.length ∧ inFileAddr.toInt + (w + (i - first - 1) * PageSize : Nat) < 2 ^ 31 := by
  have hsize : PageSize = 128 := rfl
  have hint : (BitVec.ofNat 32 n).toInt = n := CInt.toInt_ofNat (by omega)
  unfold piece
  rw [Read.ok_iff hpt hfs (by simp only [hint]; omega) (by simp only [hint]; omega), CInt.add_nonneg_iff hpos hsmall]
  constructor
  · rintro ⟨f, hf, hend, -⟩
    exact ⟨(List.getElem?_eq_some_iff.1 hf).1, hend⟩
  · rintro ⟨hi, hend⟩
    exact ⟨_, List.getElem?_eq_getElem hi, hend, Int.add_nonneg
      (Int.mul_nonneg (Int.natCast_nonneg _) (Int.natCast_nonneg _)) (Int.le_refl 0)⟩

/-- A segment fits if its first piece does, and if there are pages and positions for the later ones. -/
theorem fits_iff {bm : BitMap} (hfs : Frames fs bm) {seg : Segment} {first w z stop : Nat} (hw0 : 0 < w)
    (hw : w < 2 * PageSize) (hfirst : PageSize < w → first = 0)
    (hva : seg.virtualAddr.toInt = (first + 1) * PageSize - w) (hz0 : 0 < z) (hz : seg.size.toInt = z)
    (hstop : (first + 1) * PageSize + (z - w) = stop) :
    Fits seg fs.length bm ↔
      (∃ f, fs[first]? = some f ∧ 0 ≤ seg.inFileAddr.toInt ∧ w ≤ (f + 1) * PageSize) ∧
      ∀ i, first < i → i * PageSize < stop → i < fs.length ∧
        seg.inFileAddr.toInt + (w + (i - first - 1) * PageSize : Nat) < 2 ^ 31 := by
  have hpage : PageSize = 128 := rfl
  -- a boundary inside of the segment, `w` bytes and some pages behind its first byte
  have hboundary : ∀ i : Nat, first < i → ((w + (i - first - 1) * PageSize : Nat) : Int) =
      i * PageSize - seg.virtualAddr.toInt := by
    intro i hi
    simp only [PageSize, SectorSize] at *
    omega
  constructor
  · rintro ⟨hsome, hstart, hstop', hpos, hbound⟩
    have hlt : first < fs.length := by
      simp only [PageSize, SectorSize] at *
      omega
    refine ⟨⟨_, List.getElem?_eq_getElem hlt, hpos, ?_⟩, ?_⟩
    · rcases Nat.lt_or_ge PageSize w with hneg | hge
      · obtain rfl := hfirst hneg
        have hbit := (hstart.resolve_left (by omega)).2
        have hne := (hfs.head _ (List.getElem?_eq_getElem hlt)).2 hbit
        simp only [PageSize, SectorSize] at *
        omega
      · exact Nat.le_trans hge (Nat.le_mul_of_pos_left PageSize (Nat.succ_pos _))
    · intro i hi hin
      refine ⟨?_, ?_⟩
      · simp only [PageSize, SectorSize] at *
        omega
      · rw [hboundary i hi]
        refine hbound i (by omega) ?_ ?_
        · simp only [PageSize, SectorSize] at *
          omega
        · simp only [PageSize, SectorSize] at *
          omega
  · rintro ⟨⟨f, hf, hpos, hfront⟩, hpieces⟩
    have hlt := (List.getElem?_eq_some_iff.1 hf).1
    refine ⟨by omega, ?_, ?_, hpos, ?_⟩
    · rcases Nat.lt_or_ge PageSize w with hneg | hge
      · right
        rw [hfirst hneg] at hf hva
        refine ⟨by omega, (hfs.head f hf).1 ?_⟩
        rintro rfl
        omega
      · left
        rw [hva, Int.add_mul]
        have := Int.natCast_nonneg (first * PageSize)
        push_cast at this
        omega
    · by_cases hlast : first < (stop - 1) / PageSize
      · have hin := (hpieces _ hlast (by simp only [PageSize, SectorSize] at *; omega)).1
        simp only [PageSize, SectorSize] at *
        omega
      · simp only [PageSize, SectorSize] at *
        omega
    · intro i hi hva' hin
      have hlater : first < i := by
        simp only [PageSize, SectorSize] at *
        omega
      rw [← hboundary i hlater]
      refine (hpieces i hlater ?_).2
      simp only [PageSize, SectorSize] at *
      omega

/-- **All calls for a segment can be made** exactly if it fits. -/
theorem reads_ok_iff (hpt : pageTable.map (·.physicalPage) = fs.map (fun f : Nat => (f : Int))) {bm : BitMap}
    (hfs : Frames fs bm) {seg : Segment} (hsize : 0 < seg.size.toInt) :
    (∀ r ∈ reads seg, r.Ok file pageTable) ↔ Fits seg fs.length bm := by
  have htable : pageTable.length = fs.length := by
    have := congrArg List.length hpt
    rwa [List.length_map, List.length_map] at this
  have hframes := hfs.length
  by_cases hfar : seg.virtualAddr.toInt ≤ -PageSize ∨ 2 ^ 30 ≤ seg.virtualAddr.toInt + seg.size.toInt
  · constructor
    · intro hok
      obtain ⟨r, hr, hindex⟩ := reads_far hsize hfar
      obtain ⟨e, he, -⟩ := hok r hr
      have hlt := (List.getElem?_eq_some_iff.1 he).1
      omega
    · intro hfits
      have hstart := hfits.start
      have hstop := hfits.stop
      simp only [PageSize, SectorSize, NumPhysPages] at *
      omega
  · obtain ⟨first, w, hw0, hw, hfirst, hva⟩ := exists_first (show -PageSize < seg.virtualAddr.toInt by omega)
    obtain ⟨z, hz, hzword⟩ := CInt.exists_ofNat (Int.le_of_lt hsize)
    have hzint : seg.size.toInt = z := by
      rw [hzword]
      exact CInt.toInt_ofNat hz
    have hz0 : 0 < z := by omega
    generalize hstop : (first + 1) * PageSize + (z - w) = stop
    have hend : stop < 2 ^ 31 := by
      simp only [PageSize, SectorSize] at *
      omega
    rw [forall_reads_iff hw0 hw hfirst hva hz0 hzint hstop hend, head_ok_iff hpt hfs.lt hw,
      fits_iff hfs hw0 hw hfirst hva hz0 hzint hstop]
    refine and_congr_right ?_
    rintro ⟨f, -, hpos, -⟩
    refine forall_congr' fun i => forall_congr' fun hi => forall_congr' fun hin => ?_
    refine piece_ok_iff hpt hfs.lt (Nat.min_le_left _ _) hpos ?_
    simp only [PageSize, SectorSize] at *
    omega

/-! ## The constructor -/

/-- The first page gets the lowest free frame. -/
theorem setupPages_frames {n : Nat} {bm : BitMap} (mem : Memory) (hbm : bm.numBits = NumPhysPages)
    (hn : n ≤ bm.numClear) :
    ∃ fs : List Nat, fs.length = n ∧ Frames fs bm ∧
      (setupPages 0 n bm mem).1.map (·.physicalPage) = fs.map (fun f : Nat => (f : Int)) := by
  obtain ⟨fs, hlen, htaken, hpt, -⟩ := setupPages_spec 0 n bm mem hn
  have hphys : (setupPages 0 n bm mem).1.map (·.physicalPage) = fs.map (fun f : Nat => (f : Int)) := by
    rw [hpt, ← hlen]
    exact map_physicalPage_fresh 0 fs
  refine ⟨fs, hlen, ⟨fun f hf => hbm ▸ (htaken.free f hf).1, ?_, ?_⟩, hphys⟩
  · rw [hlen, ← hbm]
    exact Nat.le_trans hn bm.numClear_le
  · intro f hf
    rcases bm.find_spec with ⟨g, hfind, -, hbit, hbelow⟩ | ⟨-, hall⟩
    · have hhead := congrArg (fun l : List Int => l[0]?) hphys
      cases n with
      | zero =>
        rw [List.length_eq_zero_iff.1 hlen] at hf
        cases hf
      | succ n =>
        simp only [setupPages, hfind, List.map_cons, List.getElem?_cons_zero, List.getElem?_map, hf, Option.map_some,
          Option.some.injEq, Int.ofNat_inj] at hhead
        subst hhead
        constructor
        · intro hne
          exact hbelow 0 (Nat.pos_of_ne_zero hne)
        · rintro htrue rfl
          rw [hbit] at htrue
          cases htrue
    · obtain ⟨hlt, hfree⟩ := htaken.free f (List.mem_of_getElem? hf)
      rw [hall f hlt] at hfree
      cases hfree

/-- **The constructor** returns for the headers that load, and for no others. -/
theorem construct_ok_iff (junk : Nat → Byte) (file : List Byte) {bm : BitMap} (mem : Memory)
    (hbm : bm.numBits = NumPhysPages) :
    (∃ built, construct junk file bm mem = .ok built) ↔ Loads (readHeader junk file) bm := by
  unfold construct
  simp only
  generalize readHeader junk file = h
  by_cases hmagic : h.noffMagic = NOFFMAGIC
  · rw [if_neg (not_not.2 hmagic)]
    by_cases hpages : bm.numClear < numPages h
    · rw [if_pos hpages]
      exact ⟨nofun, fun h => absurd hpages (Nat.not_lt.2 h.pages)⟩
    · rw [if_neg hpages]
      obtain ⟨fs, hlen, hframes, hpt⟩ := setupPages_frames mem hbm (Nat.le_of_not_lt hpages)
      have hreads : (∀ r ∈ reads h.code ++ reads h.initData, r.Ok file (setupPages 0 (numPages h) bm mem).1) ↔
          ∀ seg ∈ [h.code, h.initData], 0 < seg.size.toInt → Fits seg (numPages h) bm := by
        have hseg : ∀ seg : Segment, (∀ r ∈ reads seg, r.Ok file (setupPages 0 (numPages h) bm mem).1) ↔
            (0 < seg.size.toInt → Fits seg (numPages h) bm) := by
          intro seg
          by_cases hsize : 0 < seg.size.toInt
          · rw [reads_ok_iff hpt hframes hsize, hlen]
            exact ⟨fun h _ => h, fun h => h hsize⟩
          · rw [reads, if_neg hsize]
            exact ⟨fun _ h => absurd h hsize, fun _ r hr => absurd hr List.not_mem_nil⟩
        rw [List.forall_mem_append, hseg, hseg, List.forall_mem_cons, List.forall_mem_singleton]
      constructor
      · rintro ⟨built, hbuilt⟩
        obtain ⟨mem', hmem', -⟩ := Partial.map_eq_ok.1 hbuilt
        exact ⟨hmagic, Nat.le_of_not_lt hpages, hreads.1 ((foldlM_runRead_ok_iff _ _).1 ⟨mem', hmem'⟩)⟩
      · intro hloads
        obtain ⟨mem', hmem'⟩ := (foldlM_runRead_ok_iff _ _).2 (hreads.2 hloads.fits)
        exact ⟨_, Partial.map_eq_ok.2 ⟨mem', hmem', rfl⟩⟩
  · rw [if_pos hmagic]
    exact ⟨nofun, fun h => absurd h.magic hmagic⟩

end AddrSpace

end Nachos
