import Mathlib.Data.Set.Lattice
import Nachos.Lib.Partial
import Nachos.Userprog.Loader

/-!
# The converter `coff2noff`

`main` of `bin/coff2noff.c`: it reads a COFF file, copies `.text` and the only non-empty one of
`.data` and `.rdata` behind a `NoffHeader`, and records the address range of `.bss` and `.sbss`.  The
result is read here as the loader of `userprog/addrspace.cc` reads it.

* `section_inv`, `sections_inv` — one section, and the loop over the section headers.
* `merge_cases`, `merged_range_iff` — what becomes of the sections `.bss` and `.sbss`.
* `coff2noff_spec` — what the converted file holds.
* `coff2noff_ok` — what is converted.
* `conversion_preserves_iff` — when the program is preserved: the test of the merge of `.bss` and
  `.sbss` is the wrong way round, so with both of them it never is.
-/

set_option autoImplicit false

namespace Nachos

open Partial

def MIPSELMAGIC : BitVec 16 := 0x0162
def OMAGIC : BitVec 16 := 0x0107

/-- `struct scnhdr`, without the fields that are not used. -/
structure Scnhdr where
  sName : List Byte
  sPaddr : Word
  sSize : Word
  sScnptr : Word
  deriving DecidableEq, Repr

/-- The messages before `exit(1)`. -/
inductive CoffError where
  | fileIsTooShort
  | unableToWrite
  | notMipsel
  | notOmagic
  | bothDataAndRdata
  | bothBssAndSbss
  | unknownSegmentType
  deriving DecidableEq, Repr

namespace Coff2noff

/-! ## The COFF file -/

/-- The memory that a file is read to. -/
def image (coff : List Byte) (a : Nat) : Byte := coff.getD a 0

/-- An `unsigned short` of the file. -/
def shortAt (coff : List Byte) (a : Nat) : BitVec 16 := image coff (a + 1) ++ image coff a

/-- The section header at position `a`. -/
def scnhdrAt (coff : List Byte) (a : Nat) : Scnhdr where
  sName := (coff.drop a).take 8
  sPaddr := Bytes.wordAt (image coff) (a + 8)
  sSize := Bytes.wordAt (image coff) (a + 16)
  sScnptr := Bytes.wordAt (image coff) (a + 20)

/-- `fileh.f_nscns`. -/
def numsections (coff : List Byte) : Nat := (shortAt coff 2).toNat

/-- `sizeof(struct filehdr) + sizeof(struct aouthdr)`. -/
def headersSize : Nat := 20 + 56

/-- `sections[0..numsections)`. -/
def sections (coff : List Byte) : List Scnhdr :=
  (List.range (numsections coff)).map (fun i => scnhdrAt coff (headersSize + 40 * i))

/-- `!strcmp(sections[i].s_name, name)`, for a name of less than eight characters. -/
def named (s : Scnhdr) (name : List Byte) : Bool := s.sName.take (name.length + 1) == name ++ [0]

def textName : List Byte := [46, 116, 101, 120, 116]
def dataName : List Byte := [46, 100, 97, 116, 97]
def rdataName : List Byte := [46, 114, 100, 97, 116, 97]
def bssName : List Byte := [46, 98, 115, 115]
def sbssName : List Byte := [46, 115, 98, 115, 115]

/-- The cases of the loop. -/
inductive Kind where
  | empty
  | text
  | data
  | uninit
  | unknown
  deriving DecidableEq, Repr

def kind (s : Scnhdr) : Kind :=
  if s.sSize = 0 then .empty
  else if named s textName then .text
  else if named s dataName || named s rdataName then .data
  else if named s bssName || named s sbssName then .uninit
  else .unknown

/-! ## The conversion -/

/-- The position in the COFF file, `noffH`, `inNoffFile`, and what has been written to the NOFF file behind
the header. -/
structure Copying where
  fdIn : Nat
  noffH : NoffHeader
  inNoffFile : Word
  body : List Byte

/-- `sizeof(NoffHeader)`. -/
def noffHeaderSize : Nat := 40

/-- `lseek(fdIn, s_scnptr, 0)`: a negative position is refused, and the file stays where it is. -/
def lseek (fdIn : Nat) (s : Scnhdr) : Nat := if 0 ≤ s.sScnptr.toInt then s.sScnptr.toNat else fdIn

/-- `lseek`, `Read`, `Write` and `inNoffFile += s_size`.  For a negative number of bytes `read` and `write`
return -1, and the two functions take that for success if it is the number that was asked for.  The
position in a file is a 32-bit number. -/
def copyData (coff : List Byte) (st : Copying) (s : Scnhdr) : Except CoffError Copying :=
  let fdIn := lseek st.fdIn s
  if s.sSize.toInt < 0 then
    if s.sSize = -1 then .ok { st with fdIn := fdIn, inNoffFile := st.inNoffFile + s.sSize }
    else .error .fileIsTooShort
  else if coff.length < fdIn + s.sSize.toNat then .error .fileIsTooShort
  else if 2 ^ 31 ≤ noffHeaderSize + st.body.length + s.sSize.toNat then .error .unableToWrite
  else .ok { st with
    fdIn := fdIn + s.sSize.toNat
    inNoffFile := st.inNoffFile + s.sSize
    body := st.body ++ (coff.drop fdIn).take s.sSize.toNat }

/-- The address and the size of a section that is copied to `inNoffFile`. -/
def segmentOf (s : Scnhdr) (inNoffFile : Word) : Segment := ⟨s.sPaddr, inNoffFile, s.sSize⟩

/-- `noffH.uninitData` after another section `.bss` or `.sbss`; `none` is the refusal. -/
def mergeUninit (u : Segment) (s : Scnhdr) : Option Segment :=
  if u.size ≠ 0 then
    if s.sPaddr = u.virtualAddr + u.size then none else some { u with size := u.size + s.sSize }
  else some { u with virtualAddr := s.sPaddr, size := s.sSize }

/-- One turn of the loop over the sections. -/
def copySection (coff : List Byte) (st : Copying) (s : Scnhdr) : Except CoffError Copying :=
  match kind s with
  | .empty => .ok st
  | .text => copyData coff { st with noffH := { st.noffH with code := segmentOf s st.inNoffFile } } s
  | .data =>
      if st.noffH.initData.size ≠ 0 then .error .bothDataAndRdata
      else copyData coff { st with noffH := { st.noffH with initData := segmentOf s st.inNoffFile } } s
  | .uninit =>
      match mergeUninit st.noffH.uninitData s with
      | none => .error .bothBssAndSbss
      | some u => .ok { st with noffH := { st.noffH with uninitData := u } }
  | .unknown => .error .unknownSegmentType

/-- `noffH` before the loop; what is not set is whatever was on the stack. -/
def emptyHeader (junk : NoffHeader) : NoffHeader where
  noffMagic := NOFFMAGIC
  code := { junk.code with size := 0 }
  initData := { junk.initData with size := 0 }
  uninitData := { junk.uninitData with size := 0 }

/-- The position behind the section headers. -/
def dataStart (coff : List Byte) : Nat := headersSize + 40 * numsections coff

/-- `inNoffFile = sizeof(NoffHeader)`, and nothing written. -/
def startCopying (junk : NoffHeader) (coff : List Byte) : Copying :=
  ⟨dataStart coff, emptyHeader junk, BitVec.ofNat 32 noffHeaderSize, []⟩

/-- The header as it is written. -/
def headerBytes (h : NoffHeader) : List Byte :=
  (List.range noffHeaderSize).map (Bytes.ofWords
    [h.noffMagic, h.code.virtualAddr, h.code.inFileAddr, h.code.size, h.initData.virtualAddr, h.initData.inFileAddr,
      h.initData.size, h.uninitData.virtualAddr, h.uninitData.inFileAddr, h.uninitData.size])

/-- `main`: the NOFF file. -/
def coff2noff (junk : NoffHeader) (coff : List Byte) : Except CoffError (List Byte) :=
  if coff.length < 20 then .error .fileIsTooShort
  else if shortAt coff 0 ≠ MIPSELMAGIC then .error .notMipsel
  else if coff.length < headersSize then .error .fileIsTooShort
  else if shortAt coff 20 ≠ OMAGIC then .error .notOmagic
  else if coff.length < dataStart coff then .error .fileIsTooShort
  else do
    let st ← (sections coff).foldlM (copySection coff) (startCopying junk coff)
    .ok (headerBytes st.noffH ++ st.body)

/-- The header of a NOFF file, as the loader reads it. -/
def noffHeader (noff : List Byte) : NoffHeader := AddrSpace.readHeader (fun _ => 0) noff

end Coff2noff

/-- A COFF file with its headers. -/
structure Coff where
  bytes : List Byte
  magic : Coff2noff.shortAt bytes 0 = MIPSELMAGIC
  omagic : Coff2noff.shortAt bytes 20 = OMAGIC
  table : Coff2noff.dataStart bytes ≤ bytes.length

namespace Coff2noff

/-! ## What the conversion is for -/

/-- The non-empty sections of a kind. -/
def ofKind (k : Kind) (l : List Scnhdr) : List Scnhdr := l.filter (fun s => decide (kind s = k))

/-- The raw data of a section; a negative position or size is none. -/
def rawData (coff : List Byte) (s : Scnhdr) : Option (List Byte) :=
  if 0 ≤ s.sScnptr.toInt ∧ 0 ≤ s.sSize.toInt then some ((coff.drop s.sScnptr.toNat).take s.sSize.toNat) else none

/-- The addresses of a section. -/
def addresses (s : Scnhdr) : Set Nat := Set.Ico s.sPaddr.toNat (s.sPaddr.toNat + s.sSize.toNat)

/-- A segment of the NOFF file has the address, the size and the bytes of a section. -/
def Carries (coff noff : List Byte) (seg : Segment) (s : Scnhdr) : Prop :=
  seg.virtualAddr = s.sPaddr ∧ seg.size = s.sSize ∧ rawData coff s = some (readAt noff seg.size seg.inFileAddr)

/-- A segment carries the non-empty sections of a kind, or there are none and it is empty. -/
def CarriesAll (coff noff : List Byte) (seg : Segment) (l : List Scnhdr) : Prop :=
  (∀ s ∈ l, Carries coff noff seg s) ∧ (l = [] → seg.size = 0)

/-- The NOFF file has the code, the only data section and the uninitialised range of the COFF file. -/
structure SameProgram (coff noff : List Byte) : Prop where
  code : CarriesAll coff noff (noffHeader noff).code (ofKind .text (sections coff))
  onlyData : (ofKind .data (sections coff)).length ≤ 1
  initData : CarriesAll coff noff (noffHeader noff).initData (ofKind .data (sections coff))
  uninitData : (noffHeader noff).uninitData.range = ⋃ s ∈ ofKind .uninit (sections coff), addresses s

/-- The sections that are copied. -/
def copied (l : List Scnhdr) : List Scnhdr := l.filter (fun s => decide (kind s = .text ∨ kind s = .data))

/-- The number of bytes that are copied. -/
def count (s : Scnhdr) : Nat := s.sSize.toInt.toNat

/-- The sections that are to be copied are where the file is read: at their positions or, where a position is
negative, behind the section that is copied before. -/
def Readable (coff : List Byte) : Nat → List Scnhdr → Prop
  | _, [] => True
  | fdIn, s :: l => -1 ≤ s.sSize.toInt ∧ (0 ≤ s.sSize.toInt → lseek fdIn s + count s ≤ coff.length) ∧
      Readable coff (lseek fdIn s + count s) l

/-- A file with an unknown section, with two data sections, with data that is not there, or with too much of it. -/
def Refused (coff : List Byte) (l : List Scnhdr) : Prop :=
  ofKind .unknown l ≠ [] ∨ 2 ≤ (ofKind .data l).length ∨ ¬ Readable coff (dataStart coff) (copied l) ∨
    2 ^ 31 ≤ noffHeaderSize + ((copied l).map count).sum

/-- At most one of `.sbss` and `.bss` is there, or one follows the other. -/
def Adjacent : List Scnhdr → Prop
  | [] => True
  | [_] => True
  | [x, y] => y.sPaddr = x.sPaddr + x.sSize ∨ x.sPaddr = y.sPaddr + y.sSize
  | _ => False

/-- **The program is preserved**: a file that is converted means the same, and one with adjacent
`.sbss` and `.bss` is converted, unless it has to be refused. -/
def Preserved (junk : NoffHeader) (coff : List Byte) : Prop :=
  (∀ noff, coff2noff junk coff = .ok noff → SameProgram coff noff) ∧
  (¬ Refused coff (sections coff) → Adjacent (ofKind .uninit (sections coff)) → ∃ noff, coff2noff junk coff = .ok noff)

/-! ## The header -/

theorem length_headerBytes (h : NoffHeader) : (headerBytes h).length = noffHeaderSize := by
  rw [headerBytes, List.length_map, List.length_range]

/-- The loader reads back the header that was written. -/
theorem noffHeader_headerBytes (h : NoffHeader) (body : List Byte) : noffHeader (headerBytes h ++ body) = h := by
  have hread : readAt (headerBytes h ++ body) 40 0 = headerBytes h := by
    rw [readAt, if_neg (by decide)]
    exact List.take_left' (length_headerBytes h)
  have hword : ∀ i < 10, Bytes.wordAt (Bytes.blit (fun _ => 0) 0 (headerBytes h)) (4 * i) =
      Bytes.wordAt (Bytes.ofWords [h.noffMagic, h.code.virtualAddr, h.code.inFileAddr, h.code.size,
        h.initData.virtualAddr, h.initData.inFileAddr, h.initData.size, h.uninitData.virtualAddr,
        h.uninitData.inFileAddr, h.uninitData.size]) (4 * i) := by
    intro i hi
    apply Bytes.wordAt_congr
    intro k hk
    have hlen := length_headerBytes h
    rw [noffHeaderSize] at hlen
    have hin : 4 * i + k < 0 + (headerBytes h).length := by omega
    have hget := Bytes.blit_apply_of_mem (fun _ => (0 : Byte)) (Nat.zero_le (4 * i + k)) hin
    rw [show ((0 : Nat) : Int) = 0 from rfl] at hget
    rw [hget]
    simp [headerBytes]
  simp only [Bytes.wordAt_ofWords] at hword
  rw [noffHeader, AddrSpace.readHeader, hread]
  have h0 := hword 0 (by decide)
  have h1 := hword 1 (by decide)
  have h2 := hword 2 (by decide)
  have h3 := hword 3 (by decide)
  have h4 := hword 4 (by decide)
  have h5 := hword 5 (by decide)
  have h6 := hword 6 (by decide)
  have h7 := hword 7 (by decide)
  have h8 := hword 8 (by decide)
  have h9 := hword 9 (by decide)
  simp only [Nat.mul_zero, Nat.reduceMul, List.getD_cons_zero, List.getD_cons_succ] at h0 h1 h2 h3 h4 h5 h6 h7 h8 h9
  simp only [AddrSpace.segmentAt, Nat.reduceAdd, h0, h1, h2, h3, h4, h5, h6, h7, h8, h9]

/-! ## The loop -/

section Loop

variable {junk : NoffHeader} {coff : List Byte} {p l : List Scnhdr} {st st' : Copying} {s : Scnhdr}

theorem ofKind_snoc_self {k : Kind} (h : kind s = k) (p : List Scnhdr) : ofKind k (p ++ [s]) = ofKind k p ++ [s] := by
  simp [ofKind, h]

theorem ofKind_snoc_other {k : Kind} (h : kind s ≠ k) (p : List Scnhdr) : ofKind k (p ++ [s]) = ofKind k p := by
  simp [ofKind, h]

theorem ofKind_append (k : Kind) (p l : List Scnhdr) : ofKind k (p ++ l) = ofKind k p ++ ofKind k l := by
  simp [ofKind]

theorem ofKind_cons_self {k : Kind} (h : kind s = k) (l : List Scnhdr) : ofKind k (s :: l) = s :: ofKind k l := by
  simp [ofKind, h]

theorem kind_of_mem {k : Kind} (h : s ∈ ofKind k l) : s ∈ l ∧ kind s = k := by
  simpa [ofKind] using h

theorem copied_append (p l : List Scnhdr) : copied (p ++ l) = copied p ++ copied l := by
  simp [copied]

theorem copied_cons_self (h : kind s = .text ∨ kind s = .data) (l : List Scnhdr) : copied (s :: l) = s :: copied l := by
  simp [copied, h]

theorem copied_snoc_self (h : kind s = .text ∨ kind s = .data) (p : List Scnhdr) :
    copied (p ++ [s]) = copied p ++ [s] := by
  simp [copied, h]

theorem copied_snoc_other (h : ¬ (kind s = .text ∨ kind s = .data)) (p : List Scnhdr) :
    copied (p ++ [s]) = copied p := by
  simp [copied, h]

theorem mem_copied : s ∈ copied l ↔ s ∈ l ∧ (kind s = .text ∨ kind s = .data) := by
  simp [copied]

theorem size_ne_zero {k : Kind} (h : kind s = k) (hk : k ≠ .empty) : s.sSize ≠ 0 := by
  rintro h0
  rw [kind, if_pos h0] at h
  exact hk h.symm

theorem count_eq (h : 0 ≤ s.sSize.toInt) : count s = s.sSize.toNat := by
  obtain ⟨z, hz, hs⟩ := CInt.exists_ofNat h
  rw [count, hs, CInt.toInt_ofNat hz, CInt.toNat_ofNat hz, Int.toNat_natCast]

theorem count_neg (h : s.sSize.toInt < 0) : count s = 0 := by
  rw [count]
  omega

/-- The position in the file when the sections of `l` have been copied. -/
def position (fdIn : Nat) (l : List Scnhdr) : Nat := l.foldl (fun a s => lseek a s + count s) fdIn

theorem position_snoc (fdIn : Nat) (p : List Scnhdr) (s : Scnhdr) :
    position fdIn (p ++ [s]) = lseek (position fdIn p) s + count s := by
  rw [position, List.foldl_append]
  rfl

theorem readable_append (fdIn : Nat) : Readable coff fdIn (p ++ l) ↔
    Readable coff fdIn p ∧ Readable coff (position fdIn p) l := by
  induction p generalizing fdIn with
  | nil => simp [Readable, position]
  | cons s p ih =>
    rw [List.cons_append, Readable, Readable, ih, and_assoc, and_assoc]
    rfl

/-- The state when section `s` has been copied. -/
def advance (coff : List Byte) (st : Copying) (s : Scnhdr) : Copying :=
  { st with
    fdIn := lseek st.fdIn s + count s
    inNoffFile := st.inNoffFile + s.sSize
    body := st.body ++ (coff.drop (lseek st.fdIn s)).take (count s) }

/-- **One section is copied**, if it is there and there is room for it. -/
theorem copyData_cases (coff : List Byte) (st : Copying) (s : Scnhdr)
    (hshort : noffHeaderSize + st.body.length < 2 ^ 31) :
    (copyData coff st s = .ok (advance coff st s) ∧ Readable coff st.fdIn [s] ∧
      noffHeaderSize + st.body.length + count s < 2 ^ 31) ∨
    ((∃ e, copyData coff st s = .error e) ∧
      (¬ Readable coff st.fdIn [s] ∨ 2 ^ 31 ≤ noffHeaderSize + st.body.length + count s)) := by
  unfold copyData Readable Readable
  simp only [and_true]
  by_cases hneg : s.sSize.toInt < 0
  · rw [if_pos hneg]
    by_cases hminus : s.sSize = -1
    · rw [if_pos hminus]
      refine .inl ⟨?_, ⟨by rw [hminus]; decide, fun h => absurd hneg (by omega)⟩, by rw [count_neg hneg]; exact hshort⟩
      simp [advance, count_neg hneg]
    · rw [if_neg hminus]
      refine .inr ⟨⟨_, rfl⟩, .inl ?_⟩
      rintro ⟨hlow, -⟩
      exact hminus (BitVec.eq_of_toInt_eq (show s.sSize.toInt = -1 by omega))
  · rw [if_neg hneg]
    have hcount := count_eq (s := s) (by omega)
    by_cases hlen : coff.length < lseek st.fdIn s + s.sSize.toNat
    · rw [if_pos hlen]
      exact .inr ⟨⟨_, rfl⟩, .inl fun h => by have := h.2 (by omega); omega⟩
    · rw [if_neg hlen]
      by_cases hroom : 2 ^ 31 ≤ noffHeaderSize + st.body.length + s.sSize.toNat
      · rw [if_pos hroom]
        exact .inr ⟨⟨_, rfl⟩, .inr (by rw [hcount]; exact hroom)⟩
      · rw [if_neg hroom]
        refine .inl ⟨by rw [advance, hcount], ⟨by omega, fun _ => by omega⟩, by omega⟩

/-- The sections that are copied have positions and sizes that are not negative. -/
def Sound (l : List Scnhdr) : Prop := ∀ s ∈ copied l, 0 ≤ s.sScnptr.toInt ∧ 0 ≤ s.sSize.toInt

theorem Sound.left (h : Sound (p ++ l)) : Sound p := by
  intro s hs
  exact h s (by rw [copied_append]; exact List.mem_append_left _ hs)

/-- A segment has the address and the size of a section, and its bytes are at its place behind the
header. -/
def Stored (coff body : List Byte) (seg : Segment) (s : Scnhdr) : Prop :=
  seg.virtualAddr = s.sPaddr ∧ seg.size = s.sSize ∧
    ∃ pre data post, rawData coff s = some data ∧ data.length = s.sSize.toNat ∧ body = pre ++ (data ++ post) ∧
      seg.inFileAddr = BitVec.ofNat 32 (noffHeaderSize + pre.length)

/-- The segment of the last section of a kind. -/
def Last (coff body : List Byte) (seg : Segment) (l : List Scnhdr) : Prop :=
  match l.getLast? with
  | none => seg.size = 0
  | some s => Stored coff body seg s

/-- What has been copied. -/
structure Content (coff : List Byte) (p : List Scnhdr) (st : Copying) : Prop where
  inNoffFile : st.inNoffFile = BitVec.ofNat 32 (noffHeaderSize + st.body.length)
  code : Last coff st.body st.noffH.code (ofKind .text p)
  initData : Last coff st.body st.noffH.initData (ofKind .data p)

/-- The state of the loop after the sections `p`. -/
structure Looped (junk : NoffHeader) (coff : List Byte) (p : List Scnhdr) (st : Copying) : Prop where
  fdIn : st.fdIn = position (dataStart coff) (copied p)
  readable : Readable coff (dataStart coff) (copied p)
  length : st.body.length = ((copied p).map count).sum
  short : noffHeaderSize + st.body.length < 2 ^ 31
  known : ofKind .unknown p = []
  onlyData : (ofKind .data p).length ≤ 1
  dataSize : st.noffH.initData.size ≠ 0 ↔ ofKind .data p ≠ []
  content : Sound p → Content coff p st
  uninitData : (ofKind .uninit p).foldlM mergeUninit { junk.uninitData with size := 0 } = some st.noffH.uninitData

theorem Stored.append {body : List Byte} {seg : Segment} (h : Stored coff body seg s) (more : List Byte) :
    Stored coff (body ++ more) seg s := by
  obtain ⟨haddr, hsize, pre, data, post, hdata, hlen, rfl, hpos⟩ := h
  exact ⟨haddr, hsize, pre, data, post ++ more, hdata, hlen, by simp, hpos⟩

theorem Last.append {body : List Byte} {seg : Segment} (h : Last coff body seg l) (more : List Byte) :
    Last coff (body ++ more) seg l := by
  unfold Last at h ⊢
  split at h
  · exact h
  · exact Stored.append h more

/-- What is read for a section whose position and size are not negative is its data. -/
theorem rawData_eq (coff : List Byte) (hs : 0 ≤ s.sScnptr.toInt ∧ 0 ≤ s.sSize.toInt) (fdIn : Nat) :
    rawData coff s = some ((coff.drop (lseek fdIn s)).take (count s)) := by
  rw [rawData, if_pos hs, lseek, if_pos hs.1, count_eq hs.2]

/-- A section that is not copied, and what becomes of `uninitData`. -/
theorem looped_skip (h : Looped junk coff p st) (hcopied : ¬ (kind s = .text ∨ kind s = .data))
    (hknown : kind s ≠ .unknown) {u : Segment}
    (hu : (ofKind .uninit (p ++ [s])).foldlM mergeUninit { junk.uninitData with size := 0 } = some u) :
    Looped junk coff (p ++ [s]) { st with noffH := { st.noffH with uninitData := u } } := by
  rw [not_or] at hcopied
  have hsame := copied_snoc_other (not_or.2 hcopied) p
  have htext := ofKind_snoc_other hcopied.1 p
  have hdata := ofKind_snoc_other hcopied.2 p
  refine ⟨?_, ?_, ?_, h.short, ?_, ?_, ?_, ?_, hu⟩
  · rw [hsame]
    exact h.fdIn
  · rw [hsame]
    exact h.readable
  · rw [hsame]
    exact h.length
  · rw [ofKind_snoc_other hknown p]
    exact h.known
  · rw [hdata]
    exact h.onlyData
  · rw [hdata]
    exact h.dataSize
  · intro hsound
    have hc := h.content hsound.left
    refine ⟨hc.inNoffFile, ?_, ?_⟩
    · rw [htext]
      exact hc.code
    · rw [hdata]
      exact hc.initData

theorem looped_empty (h : Looped junk coff p st) (hk : kind s = .empty) : Looped junk coff (p ++ [s]) st := by
  apply looped_skip h (by simp [hk]) (by simp [hk])
  rw [ofKind_snoc_other (by simp [hk]) p]
  exact h.uninitData

theorem looped_uninit (h : Looped junk coff p st) (hk : kind s = .uninit) {u : Segment}
    (hu : mergeUninit st.noffH.uninitData s = some u) :
    Looped junk coff (p ++ [s]) { st with noffH := { st.noffH with uninitData := u } } := by
  apply looped_skip h (by simp [hk]) (by simp [hk])
  rw [ofKind_snoc_self hk, List.foldlM_append, h.uninitData]
  simp [hu]

/-- A section that is copied, given the two segments that it leaves. -/
theorem looped_copy (h : Looped junk coff p st) (hk : kind s = .text ∨ kind s = .data) {noffH : NoffHeader}
    (he : copyData coff { st with noffH := noffH } s = .ok st')
    (hu : noffH.uninitData = st.noffH.uninitData) (honly : (ofKind .data (p ++ [s])).length ≤ 1)
    (hsize : noffH.initData.size ≠ 0 ↔ ofKind .data (p ++ [s]) ≠ [])
    (hcontent : ∀ data, rawData coff s = some data → data.length = s.sSize.toNat → Content coff p st →
      Last coff (st.body ++ data) noffH.code (ofKind .text (p ++ [s])) ∧
      Last coff (st.body ++ data) noffH.initData (ofKind .data (p ++ [s]))) :
    Looped junk coff (p ++ [s]) st' := by
  have hne : kind s ≠ .unknown ∧ kind s ≠ .uninit := by
    rcases hk with hk | hk
    · simp [hk]
    · simp [hk]
  rcases copyData_cases coff { st with noffH := noffH } s h.short with ⟨hok, hread, hroom⟩ | ⟨⟨e, herror⟩, -⟩
  · rw [hok] at he
    cases he
    simp only at hread hroom
    rw [h.fdIn] at hread
    have hcut : (st.body ++ (coff.drop (lseek st.fdIn s)).take (count s)).length = st.body.length + count s := by
      rw [List.length_append, List.length_take, List.length_drop]
      have hle : 0 ≤ s.sSize.toInt → lseek st.fdIn s + count s ≤ coff.length := h.fdIn ▸ hread.2.1
      rcases lt_or_ge s.sSize.toInt 0 with hneg | hpos
      · rw [count_neg hneg]
        omega
      · have := hle hpos
        omega
    refine ⟨?_, ?_, ?_, ?_, ?_, honly, hsize, ?_, ?_⟩
    · rw [copied_snoc_self hk, position_snoc, ← h.fdIn]
      rfl
    · rw [copied_snoc_self hk, readable_append]
      exact ⟨h.readable, hread⟩
    · rw [copied_snoc_self hk, List.map_append, List.sum_append, ← h.length]
      exact hcut.trans (by simp)
    · show noffHeaderSize + (st.body ++ _).length < 2 ^ 31
      rw [hcut]
      omega
    · rw [ofKind_snoc_other hne.1 p]
      exact h.known
    · intro hsound
      have hs := hsound s (by rw [copied_snoc_self hk]; exact List.mem_append_right _ (List.mem_singleton_self s))
      have hdata := rawData_eq coff hs st.fdIn
      rw [List.length_append] at hcut
      have hlen : ((coff.drop (lseek st.fdIn s)).take (count s)).length = s.sSize.toNat := by
        rw [← count_eq hs.2]
        omega
      have hc := h.content hsound.left
      obtain ⟨hcode, hinit⟩ := hcontent _ hdata hlen hc
      refine ⟨?_, hcode, hinit⟩
      show st.inNoffFile + s.sSize = BitVec.ofNat 32 (noffHeaderSize + (st.body ++ _).length)
      rw [hc.inNoffFile, List.length_append, hlen, ← Nat.add_assoc, BitVec.ofNat_add _ s.sSize.toNat,
        BitVec.ofNat_toNat, BitVec.setWidth_eq]
    · rw [ofKind_snoc_other hne.2 p]
      exact h.uninitData.trans (congrArg some hu.symm)
  · rw [herror] at he
    cases he

/-- The section that has just been copied. -/
theorem last_copied {body data : List Byte} {inNoffFile : Word} (hdata : rawData coff s = some data)
    (hlen : data.length = s.sSize.toNat) (hpos : inNoffFile = BitVec.ofNat 32 (noffHeaderSize + body.length))
    (l : List Scnhdr) : Last coff (body ++ data) (segmentOf s inNoffFile) (l ++ [s]) := by
  rw [Last, List.getLast?_concat]
  exact ⟨rfl, rfl, body, data, [], hdata, hlen, by simp, hpos⟩

theorem looped_text (h : Looped junk coff p st) (hk : kind s = .text)
    (he : copyData coff { st with noffH := { st.noffH with code := segmentOf s st.inNoffFile } } s = .ok st') :
    Looped junk coff (p ++ [s]) st' := by
  have hdata := ofKind_snoc_other (k := .data) (s := s) (by simp [hk]) p
  refine looped_copy h (.inl hk) he rfl ?_ ?_ ?_
  · rw [hdata]
    exact h.onlyData
  · rw [hdata]
    exact h.dataSize
  · intro data hraw hlen hc
    rw [ofKind_snoc_self hk, hdata]
    exact ⟨last_copied hraw hlen hc.inNoffFile _, hc.initData.append _⟩

theorem looped_data (h : Looped junk coff p st) (hk : kind s = .data) (hfirst : st.noffH.initData.size = 0)
    (he : copyData coff { st with noffH := { st.noffH with initData := segmentOf s st.inNoffFile } } s = .ok st') :
    Looped junk coff (p ++ [s]) st' := by
  have hself := ofKind_snoc_self hk p
  have hnone : ofKind .data p = [] := by
    by_contra hne
    exact h.dataSize.2 hne hfirst
  refine looped_copy h (.inr hk) he rfl ?_ ?_ ?_
  · rw [hself, hnone]
    exact le_refl _
  · rw [hself]
    exact iff_of_true (size_ne_zero hk nofun) (List.append_ne_nil_of_right_ne_nil _ (List.cons_ne_nil _ _))
  · intro data hraw hlen hc
    rw [ofKind_snoc_other (by simp [hk]) p, hself]
    exact ⟨hc.code.append _, last_copied hraw hlen hc.inNoffFile _⟩

/-- **One section.** -/
theorem section_inv (h : Looped junk coff p st) (he : copySection coff st s = .ok st') :
    Looped junk coff (p ++ [s]) st' := by
  unfold copySection at he
  cases hk : kind s with
  | empty =>
    rw [hk] at he
    cases he
    exact looped_empty h hk
  | text =>
    rw [hk] at he
    exact looped_text h hk he
  | data =>
    rw [hk] at he
    simp only at he
    split at he
    · cases he
    · exact looped_data h hk (not_not.1 ‹_›) he
  | uninit =>
    rw [hk] at he
    simp only at he
    split at he
    · cases he
    · cases he
      exact looped_uninit h hk ‹_›
  | unknown =>
    rw [hk] at he
    cases he

theorem sections_inv (h : Looped junk coff p st) (he : l.foldlM (copySection coff) st = .ok st') :
    Looped junk coff (p ++ l) st' := by
  induction l generalizing p st with
  | nil =>
    cases he
    rwa [List.append_nil]
  | cons s l ih =>
    rw [List.foldlM_cons] at he
    obtain ⟨st1, hs, he⟩ := bind_eq_ok.1 he
    rw [List.append_cons]
    exact ih (section_inv h hs) he

theorem start_looped : Looped junk coff [] (startCopying junk coff) :=
  ⟨rfl, trivial, rfl, by simp [startCopying, noffHeaderSize], rfl, Nat.zero_le _,
    iff_of_false (not_not.2 rfl) (not_not.2 rfl), fun _ => ⟨rfl, rfl, rfl⟩, rfl⟩

/-- A section that is not copied is one for which the file has to be refused, or one that starts where
`uninitData` ends. -/
theorem section_error (h : Looped junk coff p st) {e : CoffError} (he : copySection coff st s = .error e) :
    kind s = .unknown ∨ (kind s = .data ∧ ofKind .data p ≠ []) ∨
    ((kind s = .text ∨ kind s = .data) ∧
      (¬ Readable coff st.fdIn [s] ∨ 2 ^ 31 ≤ noffHeaderSize + st.body.length + count s)) ∨
    (kind s = .uninit ∧ mergeUninit st.noffH.uninitData s = none) := by
  have hcopy : ∀ noffH : NoffHeader, copyData coff { st with noffH := noffH } s = .error e →
      ¬ Readable coff st.fdIn [s] ∨ 2 ^ 31 ≤ noffHeaderSize + st.body.length + count s := by
    intro noffH hcopy
    rcases copyData_cases coff { st with noffH := noffH } s h.short with ⟨hok, -⟩ | ⟨-, hbad⟩
    · rw [hok] at hcopy
      cases hcopy
    · exact hbad
  unfold copySection at he
  cases hk : kind s with
  | empty =>
    rw [hk] at he
    cases he
  | text =>
    rw [hk] at he
    exact .inr (.inr (.inl ⟨.inl rfl, hcopy _ he⟩))
  | data =>
    rw [hk] at he
    simp only at he
    split at he
    · rename_i hne
      exact .inr (.inl ⟨rfl, h.dataSize.1 hne⟩)
    · exact .inr (.inr (.inl ⟨.inr rfl, hcopy _ he⟩))
  | uninit =>
    rw [hk] at he
    simp only at he
    split at he
    · exact .inr (.inr (.inr ⟨rfl, ‹_›⟩))
    · cases he
  | unknown => exact .inl rfl

theorem not_refused (h : Looped junk coff l st) : ¬ Refused coff l := by
  rintro (hunknown | hdata | hunreadable | hlong)
  · exact hunknown h.known
  · have := h.onlyData
    omega
  · exact hunreadable h.readable
  · have hlen := h.length
    have hshort := h.short
    omega

/-- A file that has not to be refused is converted, if the test of the merge lets it through. -/
theorem sections_ok {u : Segment} (h : Looped junk coff p st) (hr : ¬ Refused coff (p ++ l))
    (hu : (ofKind .uninit (p ++ l)).foldlM mergeUninit { junk.uninitData with size := 0 } = some u) :
    ∃ st', l.foldlM (copySection coff) st = .ok st' := by
  induction l generalizing p st with
  | nil => exact ⟨st, rfl⟩
  | cons s l ih =>
    rw [List.foldlM_cons]
    cases hs : copySection coff st s with
    | ok st1 =>
      rw [List.append_cons] at hr hu
      rw [ok_bind]
      exact ih (section_inv h hs) hr hu
    | error e =>
      exfalso
      rcases section_error h hs with hk | ⟨hk, hne⟩ | ⟨hk, hbad⟩ | ⟨hk, hnone⟩
      · refine hr (.inl ?_)
        rw [ofKind_append, ofKind_cons_self hk]
        exact List.append_ne_nil_of_right_ne_nil _ (List.cons_ne_nil _ _)
      · refine hr (.inr (.inl ?_))
        have hpos := List.length_pos_iff.2 hne
        rw [ofKind_append, ofKind_cons_self hk, List.length_append, List.length_cons]
        omega
      · have hsplit : copied (p ++ s :: l) = copied p ++ ([s] ++ copied l) := by
          rw [copied_append, copied_cons_self hk]
          rfl
        rcases hbad with hunread | hlong
        · refine hr (.inr (.inr (.inl ?_)))
          rw [hsplit, readable_append, readable_append, ← h.fdIn]
          rintro ⟨-, hread, -⟩
          exact hunread hread
        · refine hr (.inr (.inr (.inr ?_)))
          have hbody := h.length
          rw [hsplit, List.map_append, List.sum_append, ← hbody, List.map_append, List.sum_append, List.map_cons,
            List.map_nil, List.sum_singleton]
          omega
      · rw [ofKind_append, ofKind_cons_self hk, List.foldlM_append, h.uninitData] at hu
        simp [hnone] at hu

end Loop

/-! ## Uninitialised sections -/

/-- The sum of the sizes, as the 32-bit number that `uninitData.size` is. -/
def total : List Scnhdr → Word
  | [] => 0
  | s :: l => s.sSize + total l

/-- The range of `uninitData` begins with section `s`: with the first one, and anew after sizes that add up to
a multiple of 2^32. -/
def Opens (l : List Scnhdr) (s : Scnhdr) : Prop :=
  ∃ pre post, l = pre ++ s :: post ∧ total pre = 0 ∧ ∀ q r, post = q ++ r → total (s :: q) ≠ 0

/-- A section starts where the range of those in front of it ends. -/
def Meets (l : List Scnhdr) : Prop :=
  ∃ p x r s, l = p ++ x :: r ∧ Opens p s ∧ x.sPaddr = s.sPaddr + total p

/-- The range that begins with the first section and has the size of all of them is their union. -/
def Tiles (l : List Scnhdr) : Prop :=
  ∃ s, Opens l s ∧ Set.Ico s.sPaddr.toNat (s.sPaddr.toNat + (total l).toNat) = ⋃ x ∈ l, addresses x

section Merge

variable {l p q : List Scnhdr} {s x y : Scnhdr} {u v : Segment}

@[simp] theorem total_nil : total [] = 0 := rfl

@[simp] theorem total_cons (s : Scnhdr) (l : List Scnhdr) : total (s :: l) = s.sSize + total l := rfl

@[simp] theorem total_append (p q : List Scnhdr) : total (p ++ q) = total p + total q := by
  induction p with
  | nil => simp
  | cons s p ih => simp [ih, BitVec.add_assoc]

theorem total_append_of_zero (hp : total p = 0) (q : List Scnhdr) : total (p ++ q) = total q := by
  simp [hp]

theorem Opens.total_ne (h : Opens l s) : total l ≠ 0 := by
  obtain ⟨pre, post, rfl, hpre, hpost⟩ := h
  rw [total_append_of_zero hpre]
  exact hpost post [] (List.append_nil post).symm

theorem opens_snoc_of_zero (hp : total p = 0) (hx : x.sSize ≠ 0) : Opens (p ++ [x]) s ↔ s = x := by
  constructor
  · rintro ⟨pre, post, hsplit, hpre, hpost⟩
    rcases List.eq_nil_or_concat' post with rfl | ⟨q, y, rfl⟩
    · exact (List.append_inj_right' hsplit rfl |> List.singleton_inj.1).symm
    · -- the range from `s` on would be empty after `p`
      rw [← List.cons_append, ← List.append_assoc] at hsplit
      have hpq := List.append_inj_left' hsplit rfl
      rw [hpq, total_append_of_zero hpre] at hp
      exact absurd hp (hpost q [y] rfl)
  · rintro rfl
    refine ⟨p, [], rfl, hp, ?_⟩
    intro q r hq
    rw [(List.append_eq_nil_iff.1 hq.symm).1]
    simpa using hx

theorem opens_snoc_of_ne (hp : total p ≠ 0) :
    Opens (p ++ [x]) s ↔ Opens p s ∧ total (p ++ [x]) ≠ 0 := by
  constructor
  · intro h
    refine ⟨?_, h.total_ne⟩
    obtain ⟨pre, post, hsplit, hpre, hpost⟩ := h
    rcases List.eq_nil_or_concat' post with rfl | ⟨q, y, rfl⟩
    · exact absurd (List.append_inj_left' hsplit rfl ▸ hpre) hp
    · rw [← List.cons_append, ← List.append_assoc] at hsplit
      refine ⟨pre, q, List.append_inj_left' hsplit rfl, hpre, ?_⟩
      intro a r hq
      exact hpost a (r ++ [y]) (by rw [hq, List.append_assoc])
  · rintro ⟨⟨pre, post, rfl, hpre, hpost⟩, hall⟩
    refine ⟨pre, post ++ [x], by simp, hpre, ?_⟩
    intro q r hq
    rcases List.eq_nil_or_concat' r with rfl | ⟨r, y, rfl⟩
    · rw [List.append_nil] at hq
      rw [← hq]
      simpa [hpre, BitVec.add_assoc] using hall
    · rw [← List.append_assoc] at hq
      exact hpost q r (List.append_inj_left' hq rfl)

/-- The segment after the sections `l`. -/
def Merged (l : List Scnhdr) (u : Segment) : Prop := u.size = total l ∧ ∀ s, Opens l s → u.virtualAddr = s.sPaddr

theorem exists_opens (hl : ∀ s ∈ l, s.sSize ≠ 0) (hne : total l ≠ 0) : ∃ s, Opens l s := by
  induction l using List.reverseRecOn with
  | nil => exact absurd rfl hne
  | append_singleton p x ih =>
    by_cases hp : total p = 0
    · exact ⟨x, (opens_snoc_of_zero hp (hl x (by simp))).2 rfl⟩
    · obtain ⟨s, hs⟩ := ih (fun s hs => hl s (List.mem_append_left _ hs)) hp
      exact ⟨s, (opens_snoc_of_ne hp).2 ⟨hs, hne⟩⟩

theorem meets_snoc : Meets (p ++ [x]) ↔ Meets p ∨ ∃ s, Opens p s ∧ x.sPaddr = s.sPaddr + total p := by
  constructor
  · rintro ⟨q, y, r, s, hsplit, hopens, haddr⟩
    rcases List.eq_nil_or_concat' r with rfl | ⟨r, z, rfl⟩
    · obtain ⟨rfl, hxy⟩ := List.append_inj' hsplit rfl
      rw [List.singleton_inj.1 hxy]
      exact .inr ⟨s, hopens, haddr⟩
    · rw [← List.cons_append, ← List.append_assoc] at hsplit
      exact .inl ⟨q, y, r, s, List.append_inj_left' hsplit rfl, hopens, haddr⟩
  · rintro (⟨q, y, r, s, rfl, hopens, haddr⟩ | ⟨s, hopens, haddr⟩)
    · exact ⟨q, y, r ++ [x], s, by simp, hopens, haddr⟩
    · exact ⟨p, x, [], s, rfl, hopens, haddr⟩

/-- One more section. -/
theorem merged_snoc (h : Merged p u) (hall : ∀ s ∈ p, s.sSize ≠ 0) (hx : x.sSize ≠ 0) :
    (mergeUninit u x = none ∧ ∃ s, Opens p s ∧ x.sPaddr = s.sPaddr + total p) ∨
    ((¬ ∃ s, Opens p s ∧ x.sPaddr = s.sPaddr + total p) ∧ ∃ v, mergeUninit u x = some v ∧ Merged (p ++ [x]) v) := by
  obtain ⟨hsize, haddr⟩ := h
  unfold mergeUninit
  by_cases hp : total p = 0
  · rw [if_neg (by rw [hsize]; exact not_not.2 hp)]
    refine .inr ⟨fun ⟨s, hs, _⟩ => hs.total_ne hp, _, rfl, ?_, ?_⟩
    · simp [hp]
    · intro s hs
      rw [(opens_snoc_of_zero hp hx).1 hs]
  · rw [if_pos (by rw [hsize]; exact hp)]
    obtain ⟨s, hs⟩ := exists_opens hall hp
    have hend : u.virtualAddr + u.size = s.sPaddr + total p := by rw [hsize, haddr s hs]
    by_cases hmeet : x.sPaddr = s.sPaddr + total p
    · rw [if_pos (hmeet.trans hend.symm)]
      exact .inl ⟨rfl, s, hs, hmeet⟩
    · rw [if_neg (fun h => hmeet (h.trans hend))]
      refine .inr ⟨?_, _, rfl, ?_, ?_⟩
      · rintro ⟨z, hz, hzaddr⟩
        rw [← haddr z hz, haddr s hs] at hzaddr
        exact hmeet hzaddr
      · simp [hsize]
      · intro z hz
        exact haddr z ((opens_snoc_of_ne hp).1 hz).1

/-- **The merge of `.bss` and `.sbss`**: it is refused if a section starts where the range of those in front
of it ends. -/
theorem merge_cases (hu : u.size = 0) (hl : ∀ s ∈ l, s.sSize ≠ 0) :
    (l.foldlM mergeUninit u = none ∧ Meets l) ∨
    (¬ Meets l ∧ ∃ v, l.foldlM mergeUninit u = some v ∧ Merged l v) := by
  induction l using List.reverseRecOn with
  | nil => exact .inr ⟨by simp [Meets], u, rfl, hu, by simp [Opens]⟩
  | append_singleton p x ih =>
    have hall : ∀ s ∈ p, s.sSize ≠ 0 := fun s hs => hl s (List.mem_append_left _ hs)
    rw [List.foldlM_append, meets_snoc]
    rcases ih hall with ⟨hnone, hmeets⟩ | ⟨hmeets, v, hv, hmerged⟩
    · exact .inl ⟨by rw [hnone]; rfl, .inl hmeets⟩
    · rw [hv, Option.bind_eq_bind, Option.bind_some, List.foldlM_cons]
      rcases merged_snoc hmerged hall (hl x (by simp)) with ⟨hnone, hs⟩ | ⟨hs, w, hw, hmerged⟩
      · exact .inl ⟨by rw [hnone]; rfl, .inr hs⟩
      · exact .inr ⟨not_or.2 ⟨hmeets, hs⟩, w, by rw [hw]; rfl, hmerged⟩

/-- The merged range is the union of the sections exactly if they tile it. -/
theorem merged_range_iff (h : Merged l u) (hl : ∀ s ∈ l, s.sSize ≠ 0) (hne : l ≠ []) :
    u.range = ⋃ x ∈ l, addresses x ↔ Tiles l := by
  obtain ⟨hsize, haddr⟩ := h
  constructor
  · intro hrange
    by_cases htotal : total l = 0
    · -- the sections are not empty, but the range would be
      obtain ⟨x, hx⟩ := List.exists_mem_of_ne_nil l hne
      have hpos : 0 < x.sSize.toNat := Nat.pos_of_ne_zero fun h0 => hl x hx (BitVec.eq_of_toNat_eq h0)
      have hmem : x.sPaddr.toNat ∈ ⋃ x ∈ l, addresses x := by
        simp only [Set.mem_iUnion]
        exact ⟨x, hx, Set.mem_Ico.2 ⟨le_refl _, by omega⟩⟩
      rw [← hrange, Segment.range, hsize, htotal] at hmem
      simp at hmem
    · obtain ⟨s, hs⟩ := exists_opens hl htotal
      refine ⟨s, hs, ?_⟩
      rw [← hrange, Segment.range, hsize, haddr s hs]
  · rintro ⟨s, hs, htiles⟩
    rw [Segment.range, hsize, haddr s hs, htiles]

/-- At most one section is taken as it is. -/
theorem merge_one (hl : l.length ≤ 1) (hu : u.size = 0) :
    ∃ v, l.foldlM mergeUninit u = some v ∧ v.range = ⋃ s ∈ l, addresses s := by
  match l with
  | [] => exact ⟨u, rfl, by simp [Segment.range, hu]⟩
  | [s] =>
    refine ⟨{ u with virtualAddr := s.sPaddr, size := s.sSize }, ?_, ?_⟩
    · rw [List.foldlM_cons, mergeUninit, if_neg (not_not.2 hu)]
      rfl
    · simp [Segment.range, addresses]
  | _ :: _ :: _ => simp at hl

theorem merge_two (hu : u.size = 0) (hx : x.sSize ≠ 0) :
    [x, y].foldlM mergeUninit u = if y.sPaddr = x.sPaddr + x.sSize then none
      else some { u with virtualAddr := x.sPaddr, size := x.sSize + y.sSize } := by
  rw [List.foldlM_cons, mergeUninit, if_neg (not_not.2 hu), Option.bind_eq_bind, Option.bind_some, List.foldlM_cons,
    mergeUninit, if_pos hx]
  split
  · rfl
  · rfl

/-- Two intervals that make one of the length of both. -/
theorem Ico_union_start {p1 s1 p2 s2 : Nat} (h2 : 0 < s2)
    (h : Set.Ico p1 (p1 + (s1 + s2)) = Set.Ico p1 (p1 + s1) ∪ Set.Ico p2 (p2 + s2)) : p2 = p1 + s1 := by
  have hfirst := Set.ext_iff.1 h (p1 + s1)
  have hlast := Set.ext_iff.1 h (p1 + s1 + s2 - 1)
  have hstart := Set.ext_iff.1 h p2
  simp only [Set.mem_union, Set.mem_Ico] at hfirst hlast hstart
  omega

/-- Two sections that the test lets through are merged to a range that is not theirs. -/
theorem merge_two_wrong (hu : u.size = 0) (hx : x.sSize ≠ 0) (hy : y.sSize ≠ 0)
    (hm : [x, y].foldlM mergeUninit u = some v) : v.range ≠ ⋃ s ∈ [x, y], addresses s := by
  rw [merge_two hu hx] at hm
  split at hm
  · cases hm
  · rename_i hne
    cases hm
    have hxpos : 0 < x.sSize.toNat := Nat.pos_of_ne_zero fun h0 => hx (BitVec.eq_of_toNat_eq h0)
    have hypos : 0 < y.sSize.toNat := Nat.pos_of_ne_zero fun h0 => hy (BitVec.eq_of_toNat_eq h0)
    have hylt := y.sSize.isLt
    have hunion : ⋃ s ∈ [x, y], addresses s = addresses x ∪ addresses y := by
      ext a
      simp
    intro hrange
    rw [hunion, Segment.range, BitVec.toNat_add] at hrange
    rcases Nat.lt_or_ge (x.sSize.toNat + y.sSize.toNat) (2 ^ 32) with hfit | hwrap
    · rw [Nat.mod_eq_of_lt hfit] at hrange
      have hstart : y.sPaddr.toNat = x.sPaddr.toNat + x.sSize.toNat := Ico_union_start hypos hrange
      apply hne
      apply BitVec.eq_of_toNat_eq
      have hlt := y.sPaddr.isLt
      rw [BitVec.toNat_add, Nat.mod_eq_of_lt (by omega)]
      exact hstart
    · -- the sum wraps, and the range is shorter than the first section
      have hshort : (x.sSize.toNat + y.sSize.toNat) % 2 ^ 32 < x.sSize.toNat := by
        rw [Nat.mod_eq_sub_mod hwrap, Nat.mod_eq_of_lt (by have := x.sSize.isLt; omega)]
        omega
      have hlast := Set.ext_iff.1 hrange (x.sPaddr.toNat + x.sSize.toNat - 1)
      simp only [addresses, Set.mem_union, Set.mem_Ico] at hlast
      omega

end Merge

/-! ## The result -/

/-- All non-empty sections `.text` are the same; there is at most one in what a linker makes. -/
def TextsAgree (coff : List Byte) (l : List Scnhdr) : Prop :=
  ∀ s ∈ ofKind .text l, ∀ s' ∈ ofKind .text l,
    s.sPaddr = s'.sPaddr ∧ s.sSize = s'.sSize ∧ rawData coff s = rawData coff s'

section Result

variable {junk : NoffHeader} {c : Coff} {noff : List Byte} {st : Copying} {s : Scnhdr}

theorem coff2noff_eq (junk : NoffHeader) (c : Coff) :
    coff2noff junk c.bytes = (fun st : Copying => headerBytes st.noffH ++ st.body) <$>
      (sections c.bytes).foldlM (copySection c.bytes) (startCopying junk c.bytes) := by
  have htable := c.table
  have hstart : headersSize ≤ dataStart c.bytes := Nat.le_add_right _ _
  have hsize : headersSize = 76 := rfl
  rw [coff2noff, if_neg (by omega), if_neg (not_not.2 c.magic), if_neg (by omega), if_neg (not_not.2 c.omagic),
    if_neg (by omega)]
  cases (sections c.bytes).foldlM (copySection c.bytes) (startCopying junk c.bytes) with
  | ok st => rfl
  | error e => rfl

/-- What a converted file is made of. -/
theorem coff2noff_spec (h : coff2noff junk c.bytes = .ok noff) :
    ∃ st, noff = headerBytes st.noffH ++ st.body ∧ Looped junk c.bytes (sections c.bytes) st := by
  rw [coff2noff_eq] at h
  obtain ⟨st, hst, rfl⟩ := map_eq_ok.1 h
  exact ⟨st, rfl, sections_inv start_looped hst⟩

theorem coff2noff_ok {u : Segment} (hr : ¬ Refused c.bytes (sections c.bytes))
    (hu : (ofKind .uninit (sections c.bytes)).foldlM mergeUninit { junk.uninitData with size := 0 } = some u) :
    ∃ noff, coff2noff junk c.bytes = .ok noff := by
  obtain ⟨st, hst⟩ := sections_ok (p := []) (l := sections c.bytes) start_looped hr hu
  rw [coff2noff_eq, hst]
  exact ⟨_, rfl⟩

/-- The bytes of a section are where its segment says. -/
theorem Stored.carries {seg : Segment} (hst : Stored c.bytes st.body seg s)
    (hshort : noffHeaderSize + st.body.length < 2 ^ 31) (hne : s.sSize ≠ 0) (hnn : 0 ≤ s.sSize.toInt) :
    Carries c.bytes (headerBytes st.noffH ++ st.body) seg s := by
  obtain ⟨haddr, hsize, pre, data, post, hdata, hlen, hbody, hpos⟩ := hst
  refine ⟨haddr, hsize, ?_⟩
  have hprelen : noffHeaderSize + pre.length < 2 ^ 31 := by
    rw [hbody, List.length_append] at hshort
    omega
  have htoNat : seg.inFileAddr.toNat = noffHeaderSize + pre.length := by
    rw [hpos, CInt.toNat_ofNat hprelen]
  have htoInt : 0 ≤ seg.inFileAddr.toInt := by
    rw [hpos, CInt.toInt_ofNat hprelen]
    omega
  have hpositive : 0 < seg.size.toInt := by
    have hz : s.sSize.toInt ≠ 0 := fun hz => hne (BitVec.eq_of_toInt_eq hz)
    rw [hsize]
    omega
  rw [hdata, readAt, if_neg (by omega), htoNat, hsize, hbody, ← List.drop_drop,
    List.drop_left' (length_headerBytes _), List.drop_left, ← hlen, List.take_left]

theorem Last.carries {seg : Segment} {k : Kind} (hl : Last c.bytes st.body seg (ofKind k (sections c.bytes)))
    (hshort : noffHeaderSize + st.body.length < 2 ^ 31) (hsound : Sound (sections c.bytes)) (hk : k = .text ∨ k = .data)
    (hagree : ∀ s ∈ ofKind k (sections c.bytes), ∀ s' ∈ ofKind k (sections c.bytes),
      s.sPaddr = s'.sPaddr ∧ s.sSize = s'.sSize ∧ rawData c.bytes s = rawData c.bytes s') :
    CarriesAll c.bytes (headerBytes st.noffH ++ st.body) seg (ofKind k (sections c.bytes)) := by
  have hkind : k ≠ .empty := by rcases hk with rfl | rfl <;> nofun
  unfold Last at hl
  split at hl
  · rename_i hnone
    rw [List.getLast?_eq_none_iff.1 hnone]
    exact ⟨nofun, fun _ => hl⟩
  · rename_i last hlast
    have hmem := List.mem_of_getLast? hlast
    obtain ⟨hsec, hlk⟩ := kind_of_mem hmem
    have hnn := hsound last (mem_copied.2 ⟨hsec, by rwa [hlk]⟩)
    obtain ⟨haddr, hsize, hbytes⟩ := hl.carries hshort (size_ne_zero hlk hkind) hnn.2
    refine ⟨?_, fun hnil => absurd hmem (by rw [hnil]; exact List.not_mem_nil)⟩
    intro s hs
    obtain ⟨ha, hz, hd⟩ := hagree last hmem s hs
    exact ⟨haddr.trans ha, hsize.trans hz, hd.symm.trans hbytes⟩

theorem sameProgram (h : Looped junk c.bytes (sections c.bytes) st) (hsound : Sound (sections c.bytes))
    (htexts : TextsAgree c.bytes (sections c.bytes))
    (hu : st.noffH.uninitData.range = ⋃ s ∈ ofKind .uninit (sections c.bytes), addresses s) :
    SameProgram c.bytes (headerBytes st.noffH ++ st.body) := by
  have hc := h.content hsound
  refine ⟨?_, h.onlyData, ?_, ?_⟩
  · rw [noffHeader_headerBytes]
    exact hc.code.carries h.short hsound (.inl rfl) htexts
  · rw [noffHeader_headerBytes]
    apply hc.initData.carries h.short hsound (.inr rfl)
    -- there is at most one
    intro s hs s' hs'
    obtain ⟨x, hx⟩ | hnil := Nat.lt_or_ge 0 (ofKind .data (sections c.bytes)).length |>.imp
      (fun hpos => List.length_eq_one_iff.1 (le_antisymm h.onlyData hpos))
      (fun hle => List.length_eq_zero_iff.1 (Nat.le_zero.1 hle))
    · rw [hx] at hs hs'
      rw [List.mem_singleton.1 hs, List.mem_singleton.1 hs']
      exact ⟨rfl, rfl, rfl⟩
    · rw [hnil] at hs
      cases hs
  · rw [noffHeader_headerBytes]
    exact hu

theorem textsAgree_of_sameProgram (h : SameProgram c.bytes noff) : TextsAgree c.bytes (sections c.bytes) := by
  intro s hs s' hs'
  obtain ⟨ha, hz, hd⟩ := h.code.1 s hs
  obtain ⟨ha', hz', hd'⟩ := h.code.1 s' hs'
  exact ⟨ha.symm.trans ha', hz.symm.trans hz', hd.trans hd'.symm⟩

/-- A section without data is not carried. -/
theorem nonneg_of_carries {coff : List Byte} {seg : Segment} (h : Carries coff noff seg s) :
    0 ≤ s.sScnptr.toInt ∧ 0 ≤ s.sSize.toInt := by
  have hdata := h.2.2
  rw [rawData] at hdata
  split at hdata
  · assumption
  · cases hdata

theorem sound_of_sameProgram (h : SameProgram c.bytes noff) : Sound (sections c.bytes) := by
  intro s hs
  obtain ⟨hmem, hk | hk⟩ := mem_copied.1 hs
  · exact nonneg_of_carries (h.code.1 s (by simp [ofKind, hmem, hk]))
  · exact nonneg_of_carries (h.initData.1 s (by simp [ofKind, hmem, hk]))

/-- The file has to be refused, or there are not two uninitialised sections to merge; of three or more,
one meets the range of those in front of it, or they tile the range that they are merged to. -/
def Unharmed (coff : List Byte) (l : List Scnhdr) : Prop :=
  Refused coff l ∨ ((ofKind .uninit l).length ≤ 1 ∧ Sound l ∧ TextsAgree coff l) ∨
  (3 ≤ (ofKind .uninit l).length ∧
    (Meets (ofKind .uninit l) ∨ (Sound l ∧ TextsAgree coff l ∧ Tiles (ofKind .uninit l))))

theorem uninit_size_ne_zero (l : List Scnhdr) : ∀ s ∈ ofKind .uninit l, s.sSize ≠ 0 := by
  intro s hs
  exact size_ne_zero (kind_of_mem hs).2 nofun

/-- A converted file has the merged range. -/
theorem uninitData_eq (h : Looped junk c.bytes (sections c.bytes) st) {u : Segment}
    (hu : (ofKind .uninit (sections c.bytes)).foldlM mergeUninit { junk.uninitData with size := 0 } = some u) :
    st.noffH.uninitData = u := by
  have heq := h.uninitData
  rw [hu] at heq
  exact (Option.some.inj heq).symm

theorem preserved_of_unharmed (h : Unharmed c.bytes (sections c.bytes)) : Preserved junk c.bytes := by
  rcases h with hr | ⟨hone, hsound, htexts⟩ | ⟨hthree, hmerge⟩
  · refine ⟨?_, fun hnot => absurd hr hnot⟩
    intro noff hnoff
    obtain ⟨st, -, hst⟩ := coff2noff_spec hnoff
    exact absurd hr (not_refused hst)
  · obtain ⟨v, hv, hrange⟩ := merge_one hone (u := { junk.uninitData with size := 0 }) rfl
    refine ⟨?_, fun hr _ => coff2noff_ok hr hv⟩
    intro noff hnoff
    obtain ⟨st, rfl, hst⟩ := coff2noff_spec hnoff
    exact sameProgram hst hsound htexts (by rw [uninitData_eq hst hv, hrange])
  · have hne : ofKind .uninit (sections c.bytes) ≠ [] := by
      intro hnil
      rw [hnil] at hthree
      cases hthree
    have hsizes := uninit_size_ne_zero (sections c.bytes)
    refine ⟨?_, ?_⟩
    · intro noff hnoff
      obtain ⟨st, rfl, hst⟩ := coff2noff_spec hnoff
      rcases merge_cases (u := { junk.uninitData with size := 0 }) rfl hsizes with ⟨hnone, -⟩ | ⟨hmeets, v, hv, hmerged⟩
      · have heq := hst.uninitData
        rw [hnone] at heq
        cases heq
      · obtain ⟨hsound, htexts, htiles⟩ := hmerge.resolve_left hmeets
        apply sameProgram hst hsound htexts
        rw [uninitData_eq hst hv]
        exact (merged_range_iff hmerged hsizes hne).2 htiles
    · intro _ hadj
      match hl : ofKind .uninit (sections c.bytes) with
      | [] => exact absurd hl hne
      | [_] => simp [hl] at hthree
      | [_, _] => simp [hl] at hthree
      | _ :: _ :: _ :: _ =>
        rw [hl] at hadj
        exact hadj.elim

/-- What is said of a converted file, of the merged range. -/
theorem converted_of_preserved (h : Preserved junk c.bytes) (hr : ¬ Refused c.bytes (sections c.bytes)) {u : Segment}
    (hu : (ofKind .uninit (sections c.bytes)).foldlM mergeUninit { junk.uninitData with size := 0 } = some u) :
    Sound (sections c.bytes) ∧ TextsAgree c.bytes (sections c.bytes) ∧
      u.range = ⋃ s ∈ ofKind .uninit (sections c.bytes), addresses s := by
  obtain ⟨noff, hnoff⟩ := coff2noff_ok hr hu
  have hsame := h.1 noff hnoff
  obtain ⟨st, rfl, hst⟩ := coff2noff_spec hnoff
  have hrange := hsame.uninitData
  rw [noffHeader_headerBytes, uninitData_eq hst hu] at hrange
  exact ⟨sound_of_sameProgram hsame, textsAgree_of_sameProgram hsame, hrange⟩

/-- Two sections are refused if the second starts where the first ends, and else merged to a wrong range. -/
theorem not_preserved_of_two (hr : ¬ Refused c.bytes (sections c.bytes))
    (htwo : (ofKind .uninit (sections c.bytes)).length = 2) : ¬ Preserved junk c.bytes := by
  intro h
  have hsizes := uninit_size_ne_zero (sections c.bytes)
  obtain ⟨x, y, hxy⟩ := List.length_eq_two.1 htwo
  rw [hxy] at hsizes
  have hx := hsizes x (by simp)
  cases hm : [x, y].foldlM mergeUninit { junk.uninitData with size := 0 } with
  | some v =>
    obtain ⟨-, -, hrange⟩ := converted_of_preserved h hr (u := v) (by rw [hxy, hm])
    rw [hxy] at hrange
    exact merge_two_wrong rfl hx (hsizes y (by simp)) hm hrange
  | none =>
    have hadj : y.sPaddr = x.sPaddr + x.sSize := by
      by_contra hne
      rw [merge_two rfl hx, if_neg hne] at hm
      cases hm
    obtain ⟨noff, hnoff⟩ := h.2 hr (by rw [hxy]; exact .inl hadj)
    obtain ⟨st, -, hst⟩ := coff2noff_spec hnoff
    have hfold := hst.uninitData
    rw [hxy, hm] at hfold
    cases hfold

theorem unharmed_of_preserved (h : Preserved junk c.bytes) : Unharmed c.bytes (sections c.bytes) := by
  by_cases hr : Refused c.bytes (sections c.bytes)
  · exact .inl hr
  · rcases Nat.lt_trichotomy (ofKind .uninit (sections c.bytes)).length 2 with hone | htwo | hthree
    · obtain ⟨v, hv, -⟩ := merge_one (Nat.le_of_lt_succ hone) (u := { junk.uninitData with size := 0 }) rfl
      obtain ⟨hsound, htexts, -⟩ := converted_of_preserved h hr hv
      exact .inr (.inl ⟨Nat.le_of_lt_succ hone, hsound, htexts⟩)
    · exact absurd h (not_preserved_of_two hr htwo)
    · refine .inr (.inr ⟨hthree, ?_⟩)
      have hsizes := uninit_size_ne_zero (sections c.bytes)
      rcases merge_cases (u := { junk.uninitData with size := 0 }) rfl hsizes with ⟨-, hmeets⟩ | ⟨-, v, hv, hmerged⟩
      · exact .inl hmeets
      · obtain ⟨hsound, htexts, hrange⟩ := converted_of_preserved h hr hv
        refine .inr ⟨hsound, htexts, (merged_range_iff hmerged hsizes ?_).1 hrange⟩
        exact List.ne_nil_of_length_pos (Nat.lt_of_succ_lt (Nat.lt_of_succ_lt hthree))

end Result

/-- **When `coff2noff` preserves the program.**  Of the files that have not to be refused, those with at
most one non-empty section `.bss` or `.sbss` are converted to the same program, and none of those with
two: they are refused if they are adjacent, and otherwise merged to the wrong range.  Three or more are
refused if one of them meets those in front of it, and otherwise have to tile the merged range. -/
theorem conversion_preserves_iff (junk : NoffHeader) (c : Coff) :
    Preserved junk c.bytes ↔ Unharmed c.bytes (sections c.bytes) :=
  ⟨unharmed_of_preserved, preserved_of_unharmed⟩

/-- A section header with small fields. -/
def smallScnhdr (name : List Byte) (paddr size scnptr : Byte) : List Byte :=
  name ++ List.replicate (8 - name.length) 0 ++ [paddr, 0, 0, 0] ++ [paddr, 0, 0, 0] ++ [size, 0, 0, 0] ++
    [scnptr, 0, 0, 0] ++ List.replicate 16 0

/-- One instruction at 0, `.sbss` at 128 and `.bss` behind it, as `test/script` lays them out. -/
def linkedBytes : List Byte :=
  [0x62, 0x01, 3, 0] ++ List.replicate 16 0 ++ [0x07, 0x01] ++ List.replicate 54 0 ++ smallScnhdr textName 0 4 196 ++
    smallScnhdr sbssName 128 8 0 ++ smallScnhdr bssName 136 8 0 ++ [12, 0, 0, 0]

def linked : Coff where
  bytes := linkedBytes
  magic := by decide
  omagic := by decide
  table := by decide +kernel

def zeroHeader : NoffHeader := ⟨0, ⟨0, 0, 0⟩, ⟨0, 0, 0⟩, ⟨0, 0, 0⟩⟩

/-- What the linker script makes is refused. -/
theorem linked_not_preserved :
    coff2noff zeroHeader linked.bytes = .error .bothBssAndSbss ∧ ¬ Preserved zeroHeader linked.bytes := by
  have herror : coff2noff zeroHeader linked.bytes = .error .bothBssAndSbss := by decide +kernel
  refine ⟨herror, ?_⟩
  rintro ⟨-, hconverts⟩
  have hcopied : copied (sections linked.bytes) = [⟨textName ++ [0, 0, 0], 0, 4, 196⟩] := by decide +kernel
  have hnot : ¬ Refused linked.bytes (sections linked.bytes) := by
    rintro (hunknown | hdata | hunread | hlong)
    · exact absurd hunknown (by decide +kernel)
    · exact absurd hdata (by decide +kernel)
    · rw [hcopied] at hunread
      exact hunread ⟨by decide, fun _ => by decide +kernel, trivial⟩
    · exact absurd hlong (by decide +kernel)
  have hadj : Adjacent (ofKind .uninit (sections linked.bytes)) := by
    have hlist : ofKind .uninit (sections linked.bytes) =
        [⟨sbssName ++ [0, 0, 0], 128, 8, 0⟩, ⟨bssName ++ [0, 0, 0, 0], 136, 8, 0⟩] := by decide +kernel
    rw [hlist]
    exact .inl (by decide)
  obtain ⟨noff, hnoff⟩ := hconverts hnot hadj
  rw [herror] at hnoff
  cases hnoff

end Coff2noff

end Nachos
