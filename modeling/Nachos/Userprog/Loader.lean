import Nachos.Lib.CInt
import Nachos.Lib.Paged
import Nachos.Userprog.AddrSpace

/-!
# The page-wise loader builds the flat image

`loadSegment` cuts a segment into a partial first page, a partial last page and the whole pages
between them, and copies each piece to the frame of its page.  Seen through the page table
(`byteAt`) every piece is a copy of a range of virtual addresses from one source, so the pieces
compose (`Bytes.Overlay`) to a copy of the segment.

* `piece_overlay` — one piece.
* `loadSegment_overlay` — one segment.
* `create_flat_image` — the constructor against `flatLoad`, the loader left in its comments.
-/

set_option autoImplicit false

namespace Nachos

namespace Segment

/-- The virtual addresses of a segment. -/
def range (seg : Segment) : Set Nat :=
  Set.Ico seg.virtualAddr.toNat (seg.virtualAddr.toNat + seg.size.toNat)

/-- The byte of the file that belongs at virtual address `v` of a segment. -/
def source (file : List Byte) (seg : Segment) (v : Nat) : Option Byte :=
  file[seg.inFileAddr.toNat + (v - seg.virtualAddr.toNat)]?

/-- A segment with non-negative fields, inside the address space and inside the file. -/
structure Fits (file : List Byte) (pages : Nat) (seg : Segment) : Prop where
  virtualAddr : 0 ≤ seg.virtualAddr.toInt
  inFileAddr : 0 ≤ seg.inFileAddr.toInt
  size : 0 ≤ seg.size.toInt
  space : 0 < seg.size.toNat → seg.virtualAddr.toNat + seg.size.toNat ≤ pages * PageSize
  contained : 0 < seg.size.toNat → seg.inFileAddr.toNat + seg.size.toNat ≤ file.length

end Segment

namespace AddrSpace

open Bytes (Overlay blit)

/-- The byte at virtual address `v`: what is at
    `pageTable[v / PageSize].physicalPage * PageSize + v % PageSize`. -/
def byteAt (pageTable : List TranslationEntry) (mem : Memory) (v : Nat) : Option Byte :=
  pageTable[v / PageSize]?.map (fun e => mem (e.physicalPage.toNat * PageSize + v % PageSize))

/-- The flat loader: `bzero(mainMemory, size)`, then both segments copied to their virtual
    addresses. -/
def flatLoad (file : List Byte) (h : NoffHeader) (mem : Memory) : Memory :=
  let mem := blit mem 0 (List.replicate (numPages h * PageSize) 0)
  let mem :=
    if 0 < h.code.size.toInt then
      blit mem h.code.virtualAddr.toInt (readAt file h.code.size h.code.inFileAddr)
    else mem
  if 0 < h.initData.size.toInt then
    blit mem h.initData.virtualAddr.toInt (readAt file h.initData.size h.initData.inFileAddr)
  else mem

/-- A NOFF file that can be loaded.  The length of a file is an `int`. -/
structure Loadable (file : List Byte) (h : NoffHeader) : Prop where
  length : file.length < 2 ^ 31
  magic : h.noffMagic = NOFFMAGIC
  code : h.code.Fits file (numPages h)
  initData : h.initData.Fits file (numPages h)
  disjoint : ∀ v, v ∈ h.code.range → v ∉ h.initData.range

/-! ## Copies through the page table -/

section Pages

variable {pt : List TranslationEntry} {fs : List Nat}

theorem byteAt_eq_view (hpt : pt.map (·.physicalPage) = fs.map (fun f : Nat => (f : Int)))
    (mem : Memory) : byteAt pt mem = Paged.view PageSize fs mem := by
  funext v
  have hget := congrArg (fun l : List Int => l[v / PageSize]?) hpt
  simp only [List.getElem?_map] at hget
  unfold byteAt Paged.view
  cases hf : fs[v / PageSize]? with
  | none =>
    rw [hf, Option.map_none, Option.map_eq_none_iff] at hget
    rw [hget]
    rfl
  | some f =>
    rw [hf, Option.map_some, Option.map_eq_some_iff] at hget
    obtain ⟨e, he, hphys⟩ := hget
    rw [he, Option.map_some, hphys]
    rfl

theorem getElem?_physicalPage (hpt : pt.map (·.physicalPage) = fs.map (fun f : Nat => (f : Int)))
    {i f : Nat} (hf : fs[i]? = some f) : ∃ e, pt[i]? = some e ∧ e.physicalPage = (f : Int) := by
  have hget := congrArg (fun l : List Int => l[i]?) hpt
  simp only [List.getElem?_map, hf, Option.map_some] at hget
  exact Option.map_eq_some_iff.1 hget

/-- Reading of a file, in natural numbers. -/
theorem readAt_ofNat {file : List Byte} {n p : Nat} (hn : n < 2 ^ 31) (hp : p < 2 ^ 31) :
    readAt file (BitVec.ofNat 32 n) (BitVec.ofNat 32 p) = (file.drop p).take n := by
  rw [readAt, CInt.toInt_ofNat hn, CInt.toInt_ofNat hp, CInt.toNat_ofNat hn, CInt.toNat_ofNat hp]
  split
  · have h0 : n = 0 := by omega
    rw [h0, List.take_zero]
  · rfl

variable {file : List Byte} {a p : Nat}

/-- **One piece**: `n` bytes to virtual address `x`, from the place in the file that belongs
    there when address `a` holds byte `p` of the file. -/
theorem piece_overlay (hpt : pt.map (·.physicalPage) = fs.map (fun f : Nat => (f : Int)))
    (hnd : fs.Nodup) {x n f : Nat} (hf : fs[x / PageSize]? = some f) (mem : Memory) (hax : a ≤ x)
    (hfile : p + (x - a) + n ≤ file.length) (hpage : x % PageSize + n ≤ PageSize) :
    Overlay (fun v => file[p + (v - a)]?) (Set.Ico x (x + n)) (byteAt pt mem)
      (byteAt pt (blit mem ((f : Int) * PageSize + (x % PageSize : Nat))
        ((file.drop (p + (x - a))).take n))) := by
  have hlen : ((file.drop (p + (x - a))).take n).length = n := by
    rw [List.length_take, List.length_drop]
    omega
  have hstart : (f : Int) * PageSize + (x % PageSize : Nat) = ((f * PageSize + x % PageSize : Nat) : Int) := by
    push_cast
    rfl
  have hblit := Bytes.overlay_blit mem (f * PageSize + x % PageSize) ((file.drop (p + (x - a))).take n) 0
  rw [hlen] at hblit
  have hover := Paged.view_overlay (by decide) hnd hf hpage hblit
  rw [byteAt_eq_view hpt, byteAt_eq_view hpt, hstart]
  refine ⟨?_, hover.outside⟩
  rintro v ⟨h1, h2⟩
  have hget : ((file.drop (p + (x - a))).take n)[v - x]? = file[p + (v - a)]? := by
    rw [List.getElem?_take_of_lt (by omega), List.getElem?_drop]
    congr 1
    omega
  rw [hover.inside v ⟨h1, h2⟩, Nat.add_sub_cancel_left, List.getD_eq_getElem?_getD, hget,
    List.getElem?_eq_getElem (by omega), Option.getD_some]

/-- The offset formula of the pages after the first. -/
theorem position_ofNat {i : Nat} (hi : a / PageSize < i) (hlt : i < 2 ^ 31) :
    BitVec.ofNat 32 p + BitVec.ofNat 32 (PageSize - a % PageSize) +
      (BitVec.ofNat 32 i - BitVec.ofNat 32 (a / PageSize) - 1) * 128 =
    BitVec.ofNat 32 (p + (i * PageSize - a)) := by
  have hone : (1 : Word) = BitVec.ofNat 32 1 := rfl
  have hpage : (128 : Word) = BitVec.ofNat 32 128 := rfl
  rw [CInt.sub_ofNat (by omega) (by omega), hone, CInt.sub_ofNat (by omega) (by omega), hpage,
    ← BitVec.ofNat_mul, ← BitVec.ofNat_add, ← BitVec.ofNat_add]
  congr 1
  simp only [PageSize, SectorSize] at *
  omega

/-- **The whole pages**, from page `i` on. -/
theorem loadPages_overlay (hpt : pt.map (·.physicalPage) = fs.map (fun f : Nat => (f : Int)))
    (hnd : fs.Nodup) (hfile : file.length < 2 ^ 31) {i n : Nat} (mem : Memory)
    (hi : a / PageSize < i) (hn : i + n ≤ fs.length) (hlt : i + n < 2 ^ 31)
    (hfit : n ≠ 0 → p + ((i + n) * PageSize - a) ≤ file.length) :
    ∃ mem', loadPages file pt (BitVec.ofNat 32 p) (BitVec.ofNat 32 (a / PageSize))
        (BitVec.ofNat 32 (PageSize - a % PageSize)) i n mem = some mem' ∧
      Overlay (fun v => file[p + (v - a)]?) (Set.Ico (i * PageSize) ((i + n) * PageSize))
        (byteAt pt mem) (byteAt pt mem') := by
  induction n generalizing i mem with
  | zero =>
    refine ⟨mem, rfl, ?_⟩
    rw [Nat.add_zero, Set.Ico_self]
    exact Overlay.refl
  | succ n ih =>
    have hdiv : i * PageSize / PageSize = i := Nat.mul_div_cancel i (by decide)
    have hmod : i * PageSize % PageSize = 0 := Nat.mul_mod_left i PageSize
    have hfi : fs[i * PageSize / PageSize]? = some fs[i] := by
      rw [hdiv]
      exact List.getElem?_eq_getElem (by omega)
    obtain ⟨e, he, hphys⟩ := getElem?_physicalPage hpt hfi
    rw [hdiv] at he
    have hend : p + (i * PageSize - a) + PageSize ≤ file.length := by
      have := hfit (by omega)
      simp only [PageSize, SectorSize] at *
      omega
    have hai : a ≤ i * PageSize := by
      simp only [PageSize, SectorSize] at *
      omega
    have hpage : PageSize = 128 := rfl
    have hread : readAt file 128 (BitVec.ofNat 32 (p + (i * PageSize - a))) =
        (file.drop (p + (i * PageSize - a))).take PageSize :=
      readAt_ofNat (by decide) (by omega)
    have hpiece := piece_overlay hpt hnd hfi mem hai hend (by omega)
    rw [hmod, Int.natCast_zero, Int.add_zero] at hpiece
    obtain ⟨mem', hload, hover⟩ := ih (i := i + 1)
      (blit mem ((fs[i] : Int) * PageSize) ((file.drop (p + (i * PageSize - a))).take PageSize))
      (by omega) (by omega) (by omega) (fun _ => by rw [Nat.add_assoc, Nat.add_comm 1]; exact hfit (by omega))
    refine ⟨mem', ?_, ?_⟩
    · rw [loadPages, he]
      simp only
      rw [position_ofNat hi (by omega), hread, hphys]
      exact hload
    · have hsucc : i * PageSize + PageSize = (i + 1) * PageSize := (Nat.succ_mul i PageSize).symm
      have hall := hpiece.trans hover
      rw [hsucc, Set.Ico_union_Ico_eq_Ico (Nat.mul_le_mul_right _ (by omega))
        (Nat.mul_le_mul_right _ (by omega)), Nat.add_assoc, Nat.add_comm 1] at hall
      exact hall

/-! ## One segment -/

/-- A segment inside its first page. -/
theorem loadSegment_short {z : Nat} (ha : a < 2 ^ 30) (hp : p < 2 ^ 31) (hz : 0 < z)
    (hshort : z ≤ PageSize - a % PageSize) (mem : Memory) :
    loadSegment file pt ⟨BitVec.ofNat 32 a, BitVec.ofNat 32 p, BitVec.ofNat 32 z⟩ mem =
      pt[a / PageSize]?.map (fun first =>
        blit mem (first.physicalPage * PageSize + (a % PageSize : Nat)) ((file.drop p).take z)) := by
  have hpage : (128 : Word) = BitVec.ofNat 32 PageSize := rfl
  have hsize : PageSize = 128 := rfl
  have hmod : a % PageSize < PageSize := Nat.mod_lt a (by decide)
  have hdiv := Nat.div_le_self a PageSize
  have hone : (1 : Word) = BitVec.ofNat 32 1 := rfl
  unfold loadSegment
  simp only
  rw [CInt.toInt_ofNat (by omega), if_pos (by omega), hpage, CInt.sdiv_ofNat (by omega) (by omega),
    CInt.srem_ofNat (by omega) (by omega), CInt.sub_ofNat (by omega) (by omega),
    CInt.slt_ofNat (by omega) (by omega), decide_eq_false (by omega)]
  simp only [Bool.false_eq_true, if_false, ne_eq, not_true]
  rw [CInt.toNat_ofNat (by omega), readAt_ofNat (by omega) hp, CInt.toInt_ofNat (by omega), Nat.sub_self]
  cases pt[a / PageSize]? with
  | none => rfl
  | some first =>
    simp only [Option.bind_some, loadPages, Option.map_some]
    congr 2
    omega

/-- A segment that goes on after its first page. -/
theorem loadSegment_long {z : Nat} (ha : a + z < 2 ^ 30) (hz : PageSize - a % PageSize < z)
    (hfile : file.length < 2 ^ 31) (hfit : p + z ≤ file.length) (mem : Memory) :
    loadSegment file pt ⟨BitVec.ofNat 32 a, BitVec.ofNat 32 p, BitVec.ofNat 32 z⟩ mem =
      pt[a / PageSize]?.bind (fun first =>
        let mem := blit mem (first.physicalPage * PageSize + (a % PageSize : Nat))
          ((file.drop p).take (PageSize - a % PageSize))
        let mem :=
          if (a + z) % PageSize ≠ 0 then
            pt[(a + z) / PageSize]?.map (fun last =>
              blit mem (last.physicalPage * PageSize)
                ((file.drop (p + ((a + z) / PageSize * PageSize - a))).take ((a + z) % PageSize)))
          else some mem
        mem.bind (loadPages file pt (BitVec.ofNat 32 p) (BitVec.ofNat 32 (a / PageSize))
          (BitVec.ofNat 32 (PageSize - a % PageSize)) (a / PageSize + 1)
          ((a + z) / PageSize - (a / PageSize + 1)))) := by
  have hpage : (128 : Word) = BitVec.ofNat 32 PageSize := rfl
  have hsize : PageSize = 128 := rfl
  have hmod : a % PageSize < PageSize := Nat.mod_lt a (by decide)
  have hmod' : (a + z) % PageSize < PageSize := Nat.mod_lt (a + z) (by decide)
  have hdiv := Nat.div_le_self a PageSize
  have hdiv' := Nat.div_le_self (a + z) PageSize
  have hone : (1 : Word) = BitVec.ofNat 32 1 := rfl
  have hnext : a / PageSize < (a + z) / PageSize := by
    simp only [PageSize, SectorSize] at *
    omega
  have hpos : p + ((a + z) / PageSize * PageSize - a) < 2 ^ 31 := by
    simp only [PageSize, SectorSize] at *
    omega
  have hzero : BitVec.ofNat 32 ((a + z) % PageSize) = 0 ↔ (a + z) % PageSize = 0 := by
    rw [← BitVec.toNat_inj, CInt.toNat_ofNat (by omega)]
    rfl
  unfold loadSegment
  simp only
  rw [CInt.toInt_ofNat (by omega), if_pos (by omega), ← BitVec.ofNat_add, hpage,
    CInt.sdiv_ofNat (by omega) (by omega), CInt.sdiv_ofNat (by omega) (by omega),
    CInt.srem_ofNat (by omega) (by omega), CInt.srem_ofNat (by omega) (by omega),
    CInt.sub_ofNat (by omega) (by omega),
    CInt.slt_ofNat (by omega) (by omega), decide_eq_true (by omega)]
  simp only [if_true]
  rw [CInt.toNat_ofNat (by omega), CInt.toNat_ofNat (by omega), readAt_ofNat (by omega) (by omega),
    ← hpage, position_ofNat hnext (by omega), readAt_ofNat (by omega) hpos, hone, ← BitVec.ofNat_add,
    CInt.toNat_ofNat (by omega), CInt.toInt_ofNat (by omega)]
  cases pt[a / PageSize]? with
  | none => rfl
  | some first =>
    have hstart : first.physicalPage * (PageSize : Int) + PageSize - ((PageSize - a % PageSize : Nat) : Int) =
        first.physicalPage * PageSize + (a % PageSize : Nat) := by omega
    simp only [Option.bind_some, hstart]
    by_cases hlast : (a + z) % PageSize = 0
    · rw [if_neg (not_not.2 (hzero.2 hlast)), if_neg (not_not.2 hlast)]
    · rw [if_pos (fun h => hlast (hzero.1 h)), if_pos hlast]
      cases pt[(a + z) / PageSize]? with
      | none => rfl
      | some last => rfl

/-- The piece in the page of the first address. -/
theorem first_overlay (hpt : pt.map (·.physicalPage) = fs.map (fun f : Nat => (f : Int)))
    (hnd : fs.Nodup) {n : Nat} (hspace : a < fs.length * PageSize) (hpage : a % PageSize + n ≤ PageSize)
    (file : List Byte) (hfit : p + n ≤ file.length) (mem : Memory) :
    ∃ first, pt[a / PageSize]? = some first ∧
      Overlay (fun v => file[p + (v - a)]?) (Set.Ico a (a + n)) (byteAt pt mem)
        (byteAt pt (blit mem (first.physicalPage * PageSize + (a % PageSize : Nat)) ((file.drop p).take n))) := by
  have hfirst : a / PageSize < fs.length := by
    rw [Nat.div_lt_iff_lt_mul (by decide)]
    exact hspace
  have hf := List.getElem?_eq_getElem hfirst
  obtain ⟨first, hfe, hphys⟩ := getElem?_physicalPage hpt hf
  have hpiece : Overlay (fun v => file[p + (v - a)]?) _ _ _ :=
    piece_overlay (n := n) hpt hnd hf mem (Nat.le_refl a) (by omega) hpage
  rw [Nat.sub_self, Nat.add_zero, ← hphys] at hpiece
  exact ⟨first, hfe, hpiece⟩

theorem short_overlay (hpt : pt.map (·.physicalPage) = fs.map (fun f : Nat => (f : Int)))
    (hnd : fs.Nodup) {z : Nat} (hz : 0 < z) (ha : a + z < 2 ^ 30) (hp : p + z < 2 ^ 31)
    (hspace : a + z ≤ fs.length * PageSize) (hfit : p + z ≤ file.length)
    (hshort : z ≤ PageSize - a % PageSize) (mem : Memory) :
    ∃ mem', loadSegment file pt ⟨BitVec.ofNat 32 a, BitVec.ofNat 32 p, BitVec.ofNat 32 z⟩ mem =
        some mem' ∧
      Overlay (fun v => file[p + (v - a)]?) (Set.Ico a (a + z)) (byteAt pt mem) (byteAt pt mem') := by
  have hmod : a % PageSize < PageSize := Nat.mod_lt a (by decide)
  obtain ⟨first, hfe, hpiece⟩ := first_overlay hpt hnd (by omega) (show a % PageSize + z ≤ PageSize by omega) file
    hfit mem
  rw [loadSegment_short (by omega) (by omega) hz hshort, hfe]
  exact ⟨_, rfl, hpiece⟩

/-- The last page, if the segment does not end on a page boundary. -/
theorem last_overlay (hpt : pt.map (·.physicalPage) = fs.map (fun f : Nat => (f : Int)))
    (hnd : fs.Nodup) {y : Nat} (hay : a ≤ y / PageSize * PageSize) (hspace : y ≤ fs.length * PageSize)
    (file : List Byte) (hfit : p + (y - a) ≤ file.length) (mem : Memory) :
    ∃ mem', (if y % PageSize ≠ 0 then
        pt[y / PageSize]?.map (fun last => blit mem (last.physicalPage * PageSize)
          ((file.drop (p + (y / PageSize * PageSize - a))).take (y % PageSize)))
        else some mem) = some mem' ∧
      Overlay (fun v => file[p + (v - a)]?) (Set.Ico (y / PageSize * PageSize) y)
        (byteAt pt mem) (byteAt pt mem') := by
  have hmod : y % PageSize < PageSize := Nat.mod_lt y (by decide)
  have hdm := Nat.div_add_mod y PageSize
  rw [Nat.mul_comm] at hdm
  by_cases hzero : y % PageSize = 0
  · rw [if_neg (not_not.2 hzero)]
    refine ⟨mem, rfl, ?_⟩
    rw [show y / PageSize * PageSize = y by omega, Set.Ico_self]
    exact Overlay.refl
  · have hlast : y / PageSize < fs.length := by
      apply Nat.lt_of_mul_lt_mul_right (a := PageSize)
      omega
    have hdiv : y / PageSize * PageSize / PageSize = y / PageSize := Nat.mul_div_cancel _ (by decide)
    have hmod0 : y / PageSize * PageSize % PageSize = 0 := Nat.mul_mod_left _ _
    have hf := List.getElem?_eq_getElem hlast
    obtain ⟨last, hle, hphys⟩ := getElem?_physicalPage hpt hf
    have hpiece : Overlay (fun v => file[p + (v - a)]?) _ _ _ :=
      piece_overlay (n := y % PageSize) hpt hnd (by rw [hdiv]; exact hf) mem hay (by omega) (by omega)
    rw [hmod0, Int.natCast_zero, Int.add_zero, hdm, ← hphys] at hpiece
    rw [if_pos hzero, hle]
    exact ⟨_, rfl, hpiece⟩

theorem long_overlay (hpt : pt.map (·.physicalPage) = fs.map (fun f : Nat => (f : Int)))
    (hnd : fs.Nodup) {z : Nat} (ha : a + z < 2 ^ 30) (hfile : file.length < 2 ^ 31)
    (hspace : a + z ≤ fs.length * PageSize) (hfit : p + z ≤ file.length)
    (hlong : PageSize - a % PageSize < z) (mem : Memory) :
    ∃ mem', loadSegment file pt ⟨BitVec.ofNat 32 a, BitVec.ofNat 32 p, BitVec.ofNat 32 z⟩ mem =
        some mem' ∧
      Overlay (fun v => file[p + (v - a)]?) (Set.Ico a (a + z)) (byteAt pt mem) (byteAt pt mem') := by
  have hmod : a % PageSize < PageSize := Nat.mod_lt a (by decide)
  obtain ⟨first, hfe, hpiece⟩ := first_overlay hpt hnd (a := a) (n := PageSize - a % PageSize) (p := p) (by omega)
    (by omega) file (by omega) mem
  rw [loadSegment_long ha hlong hfile hfit, hfe, Option.bind_some]
  simp only
  generalize hmem1 : blit mem (first.physicalPage * PageSize + (a % PageSize : Nat))
    ((file.drop p).take (PageSize - a % PageSize)) = mem1 at hpiece ⊢
  have hnext : a / PageSize < (a + z) / PageSize := by
    simp only [PageSize, SectorSize] at *
    omega
  have hdm := Nat.div_add_mod (a + z) PageSize
  have hlast : (a + z) / PageSize ≤ fs.length := Nat.div_le_of_le_mul (by rwa [Nat.mul_comm])
  have hle := Nat.div_le_self (a + z) PageSize
  have hcount : a / PageSize + 1 + ((a + z) / PageSize - (a / PageSize + 1)) = (a + z) / PageSize := by
    omega
  have hstart : a + (PageSize - a % PageSize) = (a / PageSize + 1) * PageSize := by
    simp only [PageSize, SectorSize] at *
    omega
  have hmid : (a / PageSize + 1) * PageSize ≤ (a + z) / PageSize * PageSize :=
    Nat.mul_le_mul_right PageSize hnext
  rw [Nat.mul_comm] at hdm
  obtain ⟨mem2, hmem2, hover2⟩ := last_overlay hpt hnd (y := a + z) (a := a) (p := p) (by omega) hspace
    file (by omega) mem1
  obtain ⟨mem3, hmem3, hover3⟩ := loadPages_overlay hpt hnd hfile mem2 (i := a / PageSize + 1)
    (n := (a + z) / PageSize - (a / PageSize + 1)) (a := a) (p := p) (by omega)
    (by omega) (by omega) (by intro _; rw [hcount]; omega)
  rw [hmem2, Option.bind_some]
  refine ⟨mem3, hmem3, ?_⟩
  have hall := (hpiece.trans hover2).trans hover3
  have hset : Set.Ico a (a + (PageSize - a % PageSize)) ∪ Set.Ico ((a + z) / PageSize * PageSize) (a + z) ∪
      Set.Ico ((a / PageSize + 1) * PageSize) ((a + z) / PageSize * PageSize) = Set.Ico a (a + z) := by
    ext v
    simp only [Set.mem_union, Set.mem_Ico]
    omega
  rw [hcount, hset] at hall
  exact hall

/-- **One segment**, copied page by page, is a copy of its virtual addresses. -/
theorem loadSegment_overlay (hpt : pt.map (·.physicalPage) = fs.map (fun f : Nat => (f : Int)))
    (hnd : fs.Nodup) (hspace : fs.length ≤ NumPhysPages) (hfile : file.length < 2 ^ 31) {seg : Segment}
    (h : seg.Fits file fs.length) (mem : Memory) :
    ∃ mem', loadSegment file pt seg mem = some mem' ∧
      Overlay (seg.source file) seg.range (byteAt pt mem) (byteAt pt mem') := by
  obtain ⟨a, ha, hva⟩ := CInt.exists_ofNat h.virtualAddr
  obtain ⟨p, hp, hia⟩ := CInt.exists_ofNat h.inFileAddr
  obtain ⟨z, hz, hsz⟩ := CInt.exists_ofNat h.size
  have hseg : seg = ⟨BitVec.ofNat 32 a, BitVec.ofNat 32 p, BitVec.ofNat 32 z⟩ := by
    rw [← hva, ← hia, ← hsz]
  have hin := h.space
  have hcont := h.contained
  have hsource : seg.source file = fun v => file[p + (v - a)]? := by
    funext v
    rw [Segment.source, hva, hia, CInt.toNat_ofNat ha, CInt.toNat_ofNat hp]
  rw [hsz, hva, CInt.toNat_ofNat ha, CInt.toNat_ofNat hz] at hin
  rw [hsz, hia, CInt.toNat_ofNat hp, CInt.toNat_ofNat hz] at hcont
  rw [hsource, Segment.range, hva, hsz, CInt.toNat_ofNat ha, CInt.toNat_ofNat hz, hseg]
  rcases Nat.eq_zero_or_pos z with rfl | hpos
  · rw [Nat.add_zero, Set.Ico_self]
    exact ⟨mem, rfl, Overlay.refl⟩
  · have hbound : fs.length * PageSize ≤ 16384 := Nat.mul_le_mul_right PageSize hspace
    have hin := hin hpos
    have hcont := hcont hpos
    rcases Nat.lt_or_ge (PageSize - a % PageSize) z with hlong | hshort
    · exact long_overlay hpt hnd (by omega) hfile hin hcont hlong mem
    · exact short_overlay hpt hnd hpos (by omega) (by omega) hin hcont hshort mem

end Pages

/-! ## The whole image -/

/-- The flat loader copies a segment to its virtual addresses. -/
theorem flatSegment_overlay {file : List Byte} {pages : Nat} {seg : Segment}
    (h : seg.Fits file pages) (mem : Memory) :
    Overlay (seg.source file) seg.range (fun v => some (mem v)) (fun v => some
      ((if 0 < seg.size.toInt then
        blit mem seg.virtualAddr.toInt (readAt file seg.size seg.inFileAddr) else mem) v)) := by
  obtain ⟨a, ha, hva⟩ := CInt.exists_ofNat h.virtualAddr
  obtain ⟨p, hp, hia⟩ := CInt.exists_ofNat h.inFileAddr
  obtain ⟨z, hz, hsz⟩ := CInt.exists_ofNat h.size
  have hcont := h.contained
  have hsource : seg.source file = fun v => file[p + (v - a)]? := by
    funext v
    rw [Segment.source, hva, hia, CInt.toNat_ofNat ha, CInt.toNat_ofNat hp]
  rw [hsz, hia, CInt.toNat_ofNat hp, CInt.toNat_ofNat hz] at hcont
  rw [hsource, Segment.range, hva, hsz, hia, CInt.toNat_ofNat ha, CInt.toNat_ofNat hz,
    CInt.toInt_ofNat ha, CInt.toInt_ofNat hz, readAt_ofNat hz hp]
  rcases Nat.eq_zero_or_pos z with rfl | hpos
  · rw [Nat.add_zero, Set.Ico_self]
    exact Overlay.refl
  · have hcont := hcont hpos
    have hlen : ((file.drop p).take z).length = z := by
      rw [List.length_take, List.length_drop]
      omega
    rw [if_pos (by omega)]
    constructor
    · rintro v ⟨h1, h2⟩
      rw [Bytes.blit_apply_of_mem _ h1 (by omega), ← List.getElem?_eq_getElem,
        List.getElem?_take_of_lt (by omega), List.getElem?_drop]
    · intro v hv
      rw [Bytes.blit_apply_of_not_mem]
      rwa [hlen]

/-- **The page-wise loader builds the flat image.** -/
theorem create_flat_image (junk : Nat → Byte) (file : List Byte) (bm : BitMap) (mem : Memory)
    (hbm : bm.numBits = NumPhysPages) (hload : Loadable file (readHeader junk file))
    (hfit : numPages (readHeader junk file) ≤ bm.numClear) :
    ∃ b mem', create junk file bm mem = some b ∧ b.mem = some mem' ∧
      ∀ v < numPages (readHeader junk file) * PageSize,
        (v ∈ (readHeader junk file).code.range →
          byteAt b.pageTable mem' v = (readHeader junk file).code.source file v) ∧
        (v ∈ (readHeader junk file).initData.range →
          byteAt b.pageTable mem' v = (readHeader junk file).initData.source file v) ∧
        (v ∉ (readHeader junk file).code.range → v ∉ (readHeader junk file).initData.range →
          byteAt b.pageTable mem' v = some 0) ∧
        byteAt b.pageTable mem' v = some (flatLoad file (readHeader junk file) mem v) := by
  generalize hh : readHeader junk file = h at hload hfit ⊢
  have hpages : numPages h ≤ NumPhysPages := by
    rw [← hbm]
    exact Nat.le_trans hfit bm.numClear_le
  have hspec := setupPages_spec 0 (numPages h) bm mem hfit
  unfold create
  simp only
  rw [hh, if_neg (not_not.2 hload.magic), if_neg (Nat.not_lt.2 hfit)]
  generalize setupPages 0 (numPages h) bm mem = built at hspec ⊢
  obtain ⟨pt, bm', mem0⟩ := built
  obtain ⟨fs, hlen, htaken, hpt, hzero⟩ := hspec
  have hnd := htaken.nodup
  simp only at hpt hzero ⊢
  have hframes : pt.map (·.physicalPage) = fs.map (fun f : Nat => (f : Int)) := by
    rw [hpt, ← hlen]
    exact map_physicalPage_fresh 0 fs
  rw [← hlen] at hpages
  obtain ⟨mem1, hmem1, hover1⟩ := loadSegment_overlay hframes hnd hpages hload.length
    (hlen.symm ▸ hload.code) mem0
  obtain ⟨mem2, hmem2, hover2⟩ := loadSegment_overlay hframes hnd hpages hload.length
    (hlen.symm ▸ hload.initData) mem1
  refine ⟨_, mem2, rfl, by rw [hmem1, Option.bind_some, hmem2], ?_⟩
  intro v hv
  have hbase : byteAt pt mem0 v = some 0 := by
    have hpage : v / PageSize < fs.length := by
      rw [Nat.div_lt_iff_lt_mul (by decide), hlen]
      exact hv
    have hmod : v % PageSize < PageSize := Nat.mod_lt v (by decide)
    rw [byteAt_eq_view hframes, Paged.view, List.getElem?_eq_getElem hpage, Option.map_some, hzero, if_pos]
    rw [Paged.block_div (by decide) _ hmod]
    exact List.getElem_mem hpage
  refine ⟨?_, ?_, ?_, ?_⟩
  · intro hc
    rw [hover2.outside v (hload.disjoint v hc)]
    exact hover1.inside v hc
  · exact hover2.inside v
  · intro hc hi
    rw [hover2.outside v hi, hover1.outside v hc, hbase]
  · have hflat0 : blit mem 0 (List.replicate (numPages h * PageSize) 0) v = 0 := by
      have hget := Bytes.blit_apply mem 0 (List.replicate (numPages h * PageSize) 0) v
      rw [Int.natCast_zero] at hget
      rw [hget, if_pos (Nat.zero_le v), Nat.sub_zero, List.getD_eq_getElem?_getD,
        List.getElem?_replicate, if_pos hv, Option.getD_some]
    have hflat1 := flatSegment_overlay hload.code (blit mem 0 (List.replicate (numPages h * PageSize) 0))
    have hflat2 := flatSegment_overlay hload.initData
      (if 0 < h.code.size.toInt then
        blit (blit mem 0 (List.replicate (numPages h * PageSize) 0)) h.code.virtualAddr.toInt
          (readAt file h.code.size h.code.inFileAddr)
      else blit mem 0 (List.replicate (numPages h * PageSize) 0))
    exact hover2.agree hflat2 (hover1.agree hflat1 (by rw [hbase, hflat0]))

/-- Code of 160 bytes from address 100 on, over three pages, and four bytes of data behind it. -/
def crossFile : List Byte :=
  [0xad, 0xdf, 0xba, 0, 100, 0, 0, 0, 40, 0, 0, 0, 160, 0, 0, 0, 4, 1, 0, 0, 200, 0, 0, 0, 4, 0, 0, 0] ++
    List.replicate 12 0 ++ List.replicate 160 5 ++ [1, 2, 3, 4]

/-- A bitmap with every second frame taken. -/
def holesMap : BitMap := ⟨NumPhysPages, List.replicate 4 0x55555555, rfl⟩

theorem crossFile_header : readHeader (fun _ => 0) crossFile =
    ⟨NOFFMAGIC, ⟨100, 40, 160⟩, ⟨260, 200, 4⟩, ⟨0, 0, 0⟩⟩ := by
  decide +kernel

theorem crossFile_loadable : Loadable crossFile (readHeader (fun _ => 0) crossFile) := by
  rw [crossFile_header]
  refine ⟨?_, rfl, ⟨?_, ?_, ?_, ?_, ?_⟩, ⟨?_, ?_, ?_, ?_, ?_⟩, ?_⟩
  any_goals decide +kernel
  rintro v ⟨h1, h2⟩ ⟨h3, h4⟩
  simp only [BitVec.reduceToNat] at h2 h3
  omega

theorem create_flat_image_crossFile : ∃ b mem',
    create (fun _ => 0) crossFile holesMap (fun _ => 7) = some b ∧ b.mem = some mem' ∧
      byteAt b.pageTable mem' 255 = some 5 ∧ byteAt b.pageTable mem' 256 = some 5 ∧
      byteAt b.pageTable mem' 263 = some 4 ∧ byteAt b.pageTable mem' 264 = some 0 := by
  obtain ⟨b, mem', hb, hmem, himage⟩ := create_flat_image (fun _ => 0) crossFile holesMap (fun _ => 7)
    rfl crossFile_loadable (by decide +kernel)
  rw [crossFile_header] at himage
  refine ⟨b, mem', hb, hmem, ?_, ?_, ?_, ?_⟩
  · rw [(himage 255 (by decide +kernel)).1 ⟨by decide, by decide⟩]
    decide +kernel
  · rw [(himage 256 (by decide +kernel)).1 ⟨by decide, by decide⟩]
    decide +kernel
  · rw [(himage 263 (by decide +kernel)).2.1 ⟨by decide, by decide⟩]
    decide +kernel
  · rw [(himage 264 (by decide +kernel)).2.2.1 (fun h => absurd h.2 (by decide))
      (fun h => absurd h.2 (by decide))]

end AddrSpace

end Nachos
