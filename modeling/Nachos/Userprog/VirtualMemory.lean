import Nachos.Machine.MipsSim
import Nachos.Userprog.UserSpace

/-!
# Virtual memory

`Machine::Translate`, `Machine::ReadMem` and `Machine::WriteMem` of `machine/translate.cc` as they
change the machine, for accesses of one, two and four bytes.

* `readMem_eq`, `writeMem_eq` — they are the functions of `Machine/Translate.lean`.
* `readMem_writeMem` — a write changes the bytes at its address, a read shows them, and an access
  that fails changes nothing.
-/

set_option autoImplicit false

namespace Nachos

namespace MachineState

/-- `Machine::Translate`: the machine when it returns, and `*physAddr` or the exception. -/
def translate (m : MachineState) (virtAddr : Word) (size : Nat) (writing : Bool) : MachineState × Access Nat :=
  if (size = 4 ∧ virtAddr &&& 3 ≠ 0) ∨ (size = 2 ∧ virtAddr &&& 1 ≠ 0) then (m, .raise .addressErrorException)
  else
    let vpn := virtAddr.toNat / PageSize
    let offset := virtAddr.toNat % PageSize
    match m.pageTable[vpn]? with
    | none => (m, .raise .addressErrorException)
    | some entry =>
      if !entry.valid then (m, .raise .pageFaultException)
      else if entry.readOnly && writing then (m, .raise .readOnlyException)
      else
        let pageFrame := Machine.pageFrame entry
        if NumPhysPages ≤ pageFrame then (m, .raise .busErrorException)
        else
          let entry := { entry with use := true }
          let entry := if writing then { entry with dirty := true } else entry
          let m := { m with pageTable := m.pageTable.set vpn entry }
          let physAddr := pageFrame * PageSize + offset
          if physAddr + size ≤ MemorySize then (m, .ok physAddr) else (m, .abort)

/-- `Machine::ReadMem`: the machine when it returns or calls `RaiseException`, and `*value` or the exception. -/
def readMem (m : MachineState) (addr : Word) (size : Nat) : MachineState × Access Word :=
  match m.translate addr size false with
  | (m, .raise exception) => (m, .raise exception)
  | (m, .abort) => (m, .abort)
  | (m, .ok physicalAddress) =>
    if size = 1 then (m, .ok ((m.mainMemory physicalAddress).signExtend 32))
    else if size = 2 then
      (m, .ok (Bytes.word (m.mainMemory physicalAddress) (m.mainMemory (physicalAddress + 1)) 0 0))
    else if size = 4 then (m, .ok (Bytes.wordAt m.mainMemory physicalAddress))
    else (m, .abort)

/-- `Machine::WriteMem`. -/
def writeMem (m : MachineState) (addr : Word) (size : Nat) (value : Word) : MachineState × Access Unit :=
  match m.translate addr size true with
  | (m, .raise exception) => (m, .raise exception)
  | (m, .abort) => (m, .abort)
  | (m, .ok physicalAddress) =>
    if size = 1 ∨ size = 2 ∨ size = 4 then
      ({ m with mainMemory := Bytes.blit m.mainMemory physicalAddress ((List.range size).map (Bytes.byte value)) },
        .ok ())
    else (m, .abort)

/-- The sizes of an access. -/
def IsSize (size : Nat) : Prop := size = 1 ∨ size = 2 ∨ size = 4

instance (size : Nat) : Decidable (IsSize size) := inferInstanceAs (Decidable (_ ∨ _))

variable {m : MachineState} {addr value : Word} {size : Nat}

/-- An access inside a page does not leave main memory. -/
theorem access_le_memorySize {frame offset : Nat} (hframe : frame < NumPhysPages) (hoff : offset + size ≤ PageSize) :
    frame * PageSize + offset + size ≤ MemorySize :=
  calc frame * PageSize + offset + size ≤ frame * PageSize + PageSize := by omega
    _ = (frame + 1) * PageSize := by rw [Nat.succ_mul]
    _ ≤ NumPhysPages * PageSize := Nat.mul_le_mul_right _ hframe

/-- The translation of the other modules, with the page table put back. -/
theorem translate_eq {writing : Bool} (hsize : IsSize size) :
    m.translate addr size writing =
      match Machine.translate m.pageTable addr size writing with
      | .ok (pa, pageTable) => ({ m with pageTable := pageTable }, .ok pa)
      | .raise e => (m, .raise e)
      | .abort => (m, .abort) := by
  unfold translate Machine.translate
  by_cases halign : (size = 4 ∧ addr &&& 3 ≠ 0) ∨ (size = 2 ∧ addr &&& 1 ≠ 0)
  · rw [if_pos halign, if_pos halign]
  · rw [if_neg halign, if_neg halign]
    have hoff := Machine.aligned_offset halign hsize
    dsimp only
    cases he : m.pageTable[addr.toNat / PageSize]? with
    | none => rfl
    | some e =>
      dsimp only
      by_cases hvalid : (!e.valid) = true
      · rw [if_pos hvalid, if_pos hvalid]
      · rw [if_neg hvalid, if_neg hvalid]
        by_cases hread : (e.readOnly && writing) = true
        · rw [if_pos hread, if_pos hread]
        · rw [if_neg hread, if_neg hread]
          by_cases hframe : NumPhysPages ≤ Machine.pageFrame e
          · rw [if_pos hframe, if_pos hframe]
          · rw [if_neg hframe, if_neg hframe]
            have hmem := access_le_memorySize (Nat.lt_of_not_le hframe) hoff
            rw [if_pos hmem, if_pos hmem]
            cases writing with
            | false => simp
            | true => simp

theorem readMem_eq (hsize : IsSize size) :
    m.readMem addr size =
      match Machine.readMem m.pageTable m.mainMemory addr size with
      | .ok (value, pageTable) => ({ m with pageTable := pageTable }, .ok value)
      | .raise e => (m, .raise e)
      | .abort => (m, .abort) := by
  unfold readMem Machine.readMem
  rw [translate_eq hsize]
  cases ht : Machine.translate m.pageTable addr size false with
  | raise e => rfl
  | abort => rfl
  | ok r =>
    rcases hsize with rfl | rfl | rfl
    · rfl
    · rfl
    · rfl

theorem writeMem_eq (hsize : IsSize size) :
    m.writeMem addr size value =
      match Machine.writeMem m.pageTable m.mainMemory addr size value with
      | .ok (mainMemory, pageTable) => ({ m with mainMemory := mainMemory, pageTable := pageTable }, .ok ())
      | .raise e => (m, .raise e)
      | .abort => (m, .abort) := by
  unfold writeMem Machine.writeMem
  rw [translate_eq hsize]
  cases ht : Machine.translate m.pageTable addr size true with
  | raise e => rfl
  | abort => rfl
  | ok r =>
    unfold IsSize at hsize
    dsimp only
    rw [if_pos hsize, if_pos hsize]

/-! ## What an access shows -/

/-- The memory that the process sees. -/
def space (m : MachineState) : UserSpace := ⟨m.pageTable, m.mainMemory⟩

/-- `a` is one of the bytes of an access. -/
def Touches (addr : Word) (size : Nat) (a : Word) : Prop := ∃ k < size, a = addr + BitVec.ofNat 32 k

/-- The bytes at `addr` are the low bytes of `value`, least significant first. -/
def Shows (m : MachineState) (addr : Word) (size : Nat) (value : Word) : Prop :=
  ∀ k < size, m.space.view (addr + BitVec.ofNat 32 k) = some (Bytes.byte value k)

/-- The bytes at `addr` lie side by side in one frame. -/
def InOneFrame (m : MachineState) (addr : Word) (size : Nat) : Prop :=
  ∃ frame < NumPhysPages, addr.toNat % PageSize + size ≤ PageSize ∧
    ∀ k < size, UserSpace.physAddr m.pageTable (addr + BitVec.ofNat 32 k) false =
      some (frame * PageSize + addr.toNat % PageSize + k)

/-- The next bytes of a page follow each other. -/
theorem toNat_add_offset {k : Nat} (hk : addr.toNat % PageSize + k < PageSize) :
    (addr + BitVec.ofNat 32 k).toNat = addr.toNat + k := by
  have haddr := addr.isLt
  have hpage : addr.toNat % 128 + k < 128 := hk
  rw [BitVec.toNat_add, BitVec.toNat_ofNat]
  omega

theorem translate_inOneFrame {writing : Bool} {pa : Nat} {pageTable : List TranslationEntry} (hsize : IsSize size)
    (h : Machine.translate m.pageTable addr size writing = .ok (pa, pageTable)) :
    m.InOneFrame addr size ∧ UserSpace.Same m.pageTable pageTable ∧
      ∀ k < size, UserSpace.physAddr m.pageTable (addr + BitVec.ofNat 32 k) false = some (pa + k) := by
  obtain ⟨e, he, hvalid, hframe, rfl, halign, rfl⟩ := Machine.translate_ok h
  have hoff := Machine.aligned_offset halign hsize
  have hphys : ∀ k < size, UserSpace.physAddr m.pageTable (addr + BitVec.ofNat 32 k) false =
      some (Machine.pageFrame e * PageSize + addr.toNat % PageSize + k) := by
    intro k hk
    have hin : addr.toNat % PageSize + k < PageSize := by omega
    have hpage : (addr.toNat + k) / PageSize = addr.toNat / PageSize := by
      have hin' : addr.toNat % 128 + k < 128 := hin
      show (addr.toNat + k) / 128 = addr.toNat / 128
      omega
    have hplace : (addr.toNat + k) % PageSize = addr.toNat % PageSize + k := by
      have hin' : addr.toNat % 128 + k < 128 := hin
      show (addr.toNat + k) % 128 = addr.toNat % 128 + k
      omega
    unfold UserSpace.physAddr
    rw [toNat_add_offset hin, hpage, he, Option.bind_some, if_pos ⟨hvalid, by simp, hframe⟩, hplace, Nat.add_assoc]
  exact ⟨⟨_, hframe, hoff, hphys⟩, UserSpace.same_set he rfl, hphys⟩

theorem view_of_physAddr {u : UserSpace} {a : Word} {pa : Nat} (h : UserSpace.physAddr u.pageTable a false = some pa) :
    u.view a = some (u.mainMemory pa) := by
  rw [UserSpace.view, h, Option.map_some]

theorem byte_word (b0 b1 b2 b3 : Byte) :
    Bytes.byte (Bytes.word b0 b1 b2 b3) 0 = b0 ∧ Bytes.byte (Bytes.word b0 b1 b2 b3) 1 = b1 ∧
      Bytes.byte (Bytes.word b0 b1 b2 b3) 2 = b2 ∧ Bytes.byte (Bytes.word b0 b1 b2 b3) 3 = b3 := by
  refine ⟨?_, ?_, ?_, ?_⟩ <;>
    · apply BitVec.eq_of_getLsbD_eq
      intro i hi
      simp only [Bytes.word, Bytes.byte, BitVec.getLsbD_append, BitVec.getLsbD_extractLsb']
      grind

/-- A read that succeeds: the bytes of its value are those of the memory. -/
theorem readMem_shows {m' : MachineState} (hsize : IsSize size) (h : m.readMem addr size = (m', .ok value)) :
    m.Shows addr size value ∧ m.InOneFrame addr size := by
  rw [readMem_eq hsize] at h
  unfold Machine.readMem at h
  cases ht : Machine.translate m.pageTable addr size false with
  | raise e => rw [ht] at h; cases h
  | abort => rw [ht] at h; cases h
  | ok r =>
    obtain ⟨pa, pageTable⟩ := r
    rw [ht] at h
    obtain ⟨hframe, -, hphys⟩ := translate_inOneFrame hsize ht
    refine ⟨?_, hframe⟩
    intro k hk
    rw [view_of_physAddr (u := m.space) (hphys k hk), Option.some.injEq]
    show m.mainMemory (pa + k) = _
    rcases hsize with rfl | rfl | rfl
    · cases h
      obtain rfl : k = 0 := by omega
      rw [Bytes.byte, Nat.mul_zero, ← BitVec.setWidth_eq_extractLsb' (by decide), UserSpace.setWidth_signExtend,
        Nat.add_zero]
    · cases h
      obtain ⟨h0, h1, -, -⟩ := byte_word (m.mainMemory pa) (m.mainMemory (pa + 1)) 0 0
      rcases k with _ | _ | k
      · rw [h0, Nat.add_zero]
      · rw [h1]
      · omega
    · cases h
      obtain ⟨h0, h1, h2, h3⟩ := byte_word (m.mainMemory pa) (m.mainMemory (pa + 1)) (m.mainMemory (pa + 2))
        (m.mainMemory (pa + 3))
      rw [Bytes.wordAt]
      rcases k with _ | _ | _ | _ | k
      · rw [h0, Nat.add_zero]
      · rw [h1]
      · rw [h2]
      · rw [h3]
      · omega

/-- A write that succeeds: its bytes replace those at its address, and no other byte changes. -/
theorem writeMem_changes {m' : MachineState} (hd : m.space.Distinct) (hsize : IsSize size)
    (h : m.writeMem addr size value = (m', .ok ())) :
    m'.Shows addr size value ∧ (∀ a, ¬ Touches addr size a → m'.space.view a = m.space.view a) ∧
      m.InOneFrame addr size ∧
      ∀ pa, m'.mainMemory pa ≠ m.mainMemory pa →
        ∃ k < size, UserSpace.physAddr m.pageTable (addr + BitVec.ofNat 32 k) false = some pa := by
  rw [writeMem_eq hsize] at h
  unfold Machine.writeMem at h
  cases ht : Machine.translate m.pageTable addr size true with
  | raise e => rw [ht] at h; cases h
  | abort => rw [ht] at h; cases h
  | ok r =>
    obtain ⟨pa, pageTable⟩ := r
    unfold IsSize at hsize
    rw [ht] at h
    dsimp only at h
    rw [if_pos hsize] at h
    cases h
    obtain ⟨hframe, hsame, hphys⟩ := translate_inOneFrame hsize ht
    have hlen : ((List.range size).map (Bytes.byte value)).length = size := by
      rw [List.length_map, List.length_range]
    refine ⟨?_, ?_, hframe, ?_⟩
    · intro k hk
      have hphys' : UserSpace.physAddr pageTable (addr + BitVec.ofNat 32 k) false = some (pa + k) := by
        rw [hsame.physAddr_eq]
        exact hphys k hk
      apply (view_of_physAddr hphys').trans
      show some (Bytes.blit m.mainMemory pa ((List.range size).map (Bytes.byte value)) (pa + k)) = _
      rw [Bytes.blit_apply_of_mem _ (Nat.le_add_right pa k) (by omega), List.getElem_map, List.getElem_range,
        Nat.add_sub_cancel_left]
    · intro a ha
      rw [UserSpace.view, UserSpace.view]
      show (UserSpace.physAddr pageTable a false).map _ = (UserSpace.physAddr m.pageTable a false).map _
      rw [hsame.physAddr_eq]
      cases hpa : UserSpace.physAddr m.pageTable a false with
      | none => rfl
      | some pb =>
        rw [Option.map_some, Option.map_some]
        congr 1
        apply Bytes.blit_apply_of_not_mem
        rintro ⟨hle, hlt⟩
        -- the frames are distinct, so only the bytes of the access lie there
        obtain ⟨k, rfl⟩ := Nat.exists_eq_add_of_le hle
        exact ha ⟨k, by omega, UserSpace.physAddr_inj hd hpa (hphys k (by omega))⟩
    · intro pb hne
      have hin : pa ≤ pb ∧ pb < pa + ((List.range size).map (Bytes.byte value)).length := by
        by_contra hout
        exact hne (Bytes.blit_apply_of_not_mem _ hout)
      obtain ⟨k, rfl⟩ := Nat.exists_eq_add_of_le hin.1
      exact ⟨k, by omega, hphys k (by omega)⟩

/-- **Virtual memory reads return the last write**, in accesses of any sizes that may overlap: a write
that succeeds changes the bytes at its address, in one frame, and a read behind it shows these and the old
ones elsewhere.  An access that fails leaves memory and page table as they were. -/
theorem readMem_writeMem (m : MachineState) (hd : m.space.Distinct) (addr value : Word) {size : Nat}
    (hsize : IsSize size) :
    (∀ m', m.writeMem addr size value = (m', .ok ()) →
      m'.Shows addr size value ∧ (∀ a, ¬ Touches addr size a → m'.space.view a = m.space.view a) ∧
      m.InOneFrame addr size ∧
      (∀ pa, m'.mainMemory pa ≠ m.mainMemory pa →
        ∃ k < size, UserSpace.physAddr m.pageTable (addr + BitVec.ofNat 32 k) false = some pa) ∧
      ∀ addr' size' value' m'', IsSize size' → m'.readMem addr' size' = (m'', .ok value') →
        ∀ k < size',
          (∀ j < size, addr' + BitVec.ofNat 32 k = addr + BitVec.ofNat 32 j →
            Bytes.byte value' k = Bytes.byte value j) ∧
          (¬ Touches addr size (addr' + BitVec.ofNat 32 k) →
            m.space.view (addr' + BitVec.ofNat 32 k) = some (Bytes.byte value' k))) ∧
    (∀ m' value', m.readMem addr size = (m', .ok value') →
      m.Shows addr size value' ∧ m.InOneFrame addr size) ∧
    (∀ m' e, m.writeMem addr size value = (m', .raise e) → m' = m) ∧
    (∀ m' e, m.readMem addr size = (m', .raise e) → m' = m) := by
  refine ⟨?_, ?_, ?_, ?_⟩
  · intro m' hw
    obtain ⟨hshows, hother, hframe, hphys⟩ := writeMem_changes hd hsize hw
    refine ⟨hshows, hother, hframe, hphys, ?_⟩
    intro addr' size' value' m'' hsize' hr k hk
    obtain ⟨hread, -⟩ := readMem_shows hsize' hr
    constructor
    · intro j hj heq
      have hnew := hread k hk
      rw [heq, hshows j hj, Option.some.injEq] at hnew
      exact hnew.symm
    · intro hout
      rw [← hother _ hout]
      exact hread k hk
  · intro m' value' hr
    exact readMem_shows hsize hr
  · intro m' e hw
    rw [writeMem_eq hsize] at hw
    cases hacc : Machine.writeMem m.pageTable m.mainMemory addr size value with
    | ok r => rw [hacc] at hw; cases hw
    | abort => rw [hacc] at hw; cases hw
    | raise e' => rw [hacc] at hw; cases hw; rfl
  · intro m' e hr
    rw [readMem_eq hsize] at hr
    cases hacc : Machine.readMem m.pageTable m.mainMemory addr size with
    | ok r => rw [hacc] at hr; cases hr
    | abort => rw [hacc] at hr; cases hr
    | raise e' => rw [hacc] at hr; cases hr; rfl

/-- Two bytes written over the upper half of a word. -/
theorem readMem_writeMem_halves :
    ∃ m', (oneWord 0x11223344 0 0).writeMem 2 2 0xaabb = (m', .ok ()) ∧ m'.Shows 2 2 0xaabb := by
  have hdistinct : (oneWord 0x11223344 0 0).space.Distinct := by
    unfold UserSpace.Distinct
    decide
  exact ⟨_, rfl, ((readMem_writeMem (oneWord 0x11223344 0 0) hdistinct 2 0xaabb (by decide)).1 _ rfl).1⟩

end MachineState

end Nachos
