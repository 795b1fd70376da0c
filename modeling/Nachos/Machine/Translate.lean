import Nachos.Lib.Bytes
import Nachos.Machine.Machine

/-!
# Address translation and memory access

`Machine::Translate`, `Machine::ReadMem` and `Machine::WriteMem` of `machine/translate.cc`, for a
machine with a page table and no TLB.  A failed `ASSERT` is `abort`; an exception is returned and
not yet raised.  The host is little-endian, so `WordToHost` and its siblings are identities, and
`char` is signed.

* `translate_ok` — what a successful translation has found.
* `readMem_ne_abort`, `writeMem_ne_abort` — no assertion fails.
* `readMem_congr` — a read depends on memory only in the frame of its page.
* `writeMem_ok` — a write changes memory only inside the frame of its page.
-/

set_option autoImplicit false

namespace Nachos

/-- `mainMemory`; addresses from `MemorySize` on are not part of it. -/
abbrev Memory := Nat → Byte

/-- `class TranslationEntry`. -/
structure TranslationEntry where
  virtualPage : Nat
  physicalPage : Int
  valid : Bool
  readOnly : Bool
  use : Bool
  dirty : Bool
  deriving DecidableEq, Repr

/-- A result, an exception, or an `ASSERT` that fails. -/
inductive Access (α : Type) where
  | ok (a : α)
  | raise (e : ExceptionType)
  | abort
  deriving DecidableEq, Repr

namespace Machine

/-- `pageFrame = entry->physicalPage`, an `unsigned int`. -/
def pageFrame (e : TranslationEntry) : Nat := (BitVec.ofInt 32 e.physicalPage).toNat

/-- `Machine::Translate`. -/
def translate (pageTable : List TranslationEntry) (virtAddr : Word) (size : Nat) (writing : Bool) :
    Access (Nat × List TranslationEntry) :=
  if (size = 4 ∧ virtAddr &&& 3 ≠ 0) ∨ (size = 2 ∧ virtAddr &&& 1 ≠ 0) then
    .raise .addressErrorException
  else
    let vpn := virtAddr.toNat / PageSize
    let offset := virtAddr.toNat % PageSize
    match pageTable[vpn]? with
    | none => .raise .addressErrorException
    | some entry =>
      if !entry.valid then .raise .pageFaultException
      else if entry.readOnly && writing then .raise .readOnlyException
      else if NumPhysPages ≤ pageFrame entry then .raise .busErrorException
      else
        let physAddr := pageFrame entry * PageSize + offset
        let entry := { entry with use := true, dirty := entry.dirty || writing }
        if physAddr + size ≤ MemorySize then .ok (physAddr, pageTable.set vpn entry) else .abort

/-- `Machine::ReadMem`. -/
def readMem (pageTable : List TranslationEntry) (mainMemory : Memory) (addr : Word) (size : Nat) :
    Access (Word × List TranslationEntry) :=
  match translate pageTable addr size false with
  | .raise e => .raise e
  | .abort => .abort
  | .ok (pa, pt) =>
    if size = 1 then .ok ((mainMemory pa).signExtend 32, pt)
    else if size = 2 then .ok (Bytes.word (mainMemory pa) (mainMemory (pa + 1)) 0 0, pt)
    else if size = 4 then .ok (Bytes.wordAt mainMemory pa, pt)
    else .abort

/-- `Machine::WriteMem`. -/
def writeMem (pageTable : List TranslationEntry) (mainMemory : Memory) (addr : Word) (size : Nat)
    (value : Word) : Access (Memory × List TranslationEntry) :=
  match translate pageTable addr size true with
  | .raise e => .raise e
  | .abort => .abort
  | .ok (pa, pt) =>
    if size = 1 ∨ size = 2 ∨ size = 4 then
      .ok (Bytes.blit mainMemory pa ((List.range size).map (Bytes.byte value)), pt)
    else .abort

/-! ## What an access depends on -/

variable {pageTable : List TranslationEntry} {mainMemory : Memory} {addr : Word} {size : Nat}

/-- A translation that succeeds. -/
theorem translate_ok {writing : Bool} {pa : Nat} {pt : List TranslationEntry}
    (h : translate pageTable addr size writing = .ok (pa, pt)) :
    ∃ e, pageTable[addr.toNat / PageSize]? = some e ∧ e.valid = true ∧
      pageFrame e < NumPhysPages ∧ pa = pageFrame e * PageSize + addr.toNat % PageSize ∧
      ¬ ((size = 4 ∧ addr &&& 3 ≠ 0) ∨ (size = 2 ∧ addr &&& 1 ≠ 0)) ∧
      pt = pageTable.set (addr.toNat / PageSize)
        { e with use := true, dirty := e.dirty || writing } := by
  unfold translate at h
  split at h
  · cases h
  · rename_i halign
    simp only at h
    split at h
    · cases h
    · rename_i e he
      split at h
      · cases h
      · rename_i hvalid
        split at h
        · cases h
        · split at h
          · cases h
          · rename_i hframe
            split at h
            · cases h
              exact ⟨e, he, by simpa using hvalid, Nat.lt_of_not_le hframe, rfl, halign, rfl⟩
            · cases h

/-- A translation changes `use` and `dirty` bits only. -/
theorem translate_frames {writing : Bool} {pa : Nat} {pt : List TranslationEntry}
    (h : translate pageTable addr size writing = .ok (pa, pt)) :
    pt.map (·.physicalPage) = pageTable.map (·.physicalPage) := by
  obtain ⟨e, he, -, -, -, -, hpt⟩ := translate_ok h
  obtain ⟨hlt, hget⟩ := List.getElem?_eq_some_iff.1 he
  refine List.ext_getElem? ?_
  intro n
  rw [hpt, List.map_set, List.getElem?_set]
  split
  · rename_i hn
    subst hn
    simp [hlt, hget]
  · rfl

/-- An aligned access does not leave its page. -/
theorem aligned_offset (halign : ¬ ((size = 4 ∧ addr &&& 3 ≠ 0) ∨ (size = 2 ∧ addr &&& 1 ≠ 0)))
    (hsize : size = 1 ∨ size = 2 ∨ size = 4) : addr.toNat % PageSize + size ≤ PageSize := by
  have hlt : addr.toNat % 128 < 128 := Nat.mod_lt _ (by decide)
  rcases hsize with rfl | rfl | rfl
  · show addr.toNat % 128 + 1 ≤ 128
    omega
  · have h1 : addr &&& 1 = 0 := by simpa using halign
    have h2 := congrArg BitVec.toNat h1
    rw [BitVec.toNat_and, show (1 : Word).toNat = 2 ^ 1 - 1 from rfl, Nat.and_two_pow_sub_one_eq_mod] at h2
    have h3 : addr.toNat % 2 = 0 := by simpa using h2
    show addr.toNat % 128 + 2 ≤ 128
    omega
  · have h1 : addr &&& 3 = 0 := by simpa using halign
    have h2 := congrArg BitVec.toNat h1
    rw [BitVec.toNat_and, show (3 : Word).toNat = 2 ^ 2 - 1 from rfl, Nat.and_two_pow_sub_one_eq_mod] at h2
    have h3 : addr.toNat % 4 = 0 := by simpa using h2
    show addr.toNat % 128 + 4 ≤ 128
    omega

/-- The assertion on the physical address does not fail. -/
theorem translate_ne_abort {writing : Bool} (hsize : size = 1 ∨ size = 2 ∨ size = 4) :
    translate pageTable addr size writing ≠ .abort := by
  unfold translate
  split
  · nofun
  · rename_i halign
    have hoff := aligned_offset halign hsize
    simp only
    split
    · nofun
    · split
      · nofun
      · split
        · nofun
        · split
          · nofun
          · rename_i e _ _ _ hframe
            have hlt : pageFrame e + 1 ≤ NumPhysPages := Nat.lt_of_not_le hframe
            have hmem : pageFrame e * PageSize + addr.toNat % PageSize + size ≤ MemorySize :=
              calc pageFrame e * PageSize + addr.toNat % PageSize + size
                  ≤ pageFrame e * PageSize + PageSize := by omega
                _ = (pageFrame e + 1) * PageSize := by rw [Nat.succ_mul]
                _ ≤ NumPhysPages * PageSize := Nat.mul_le_mul_right _ hlt
            rw [if_pos hmem]
            nofun

theorem readMem_ne_abort (hsize : size = 1 ∨ size = 2 ∨ size = 4) :
    readMem pageTable mainMemory addr size ≠ .abort := by
  unfold readMem
  cases ht : translate pageTable addr size false with
  | raise e => nofun
  | abort => exact absurd ht (translate_ne_abort hsize)
  | ok r =>
    rcases hsize with rfl | rfl | rfl
    · nofun
    · nofun
    · nofun

theorem writeMem_ne_abort {value : Word} (hsize : size = 1 ∨ size = 2 ∨ size = 4) :
    writeMem pageTable mainMemory addr size value ≠ .abort := by
  unfold writeMem
  cases ht : translate pageTable addr size true with
  | raise e => nofun
  | abort => exact absurd ht (translate_ne_abort hsize)
  | ok r =>
    simp only [if_pos hsize]
    nofun

/-- The bytes of an aligned access lie in the frame of its page. -/
theorem access_frame {f k : Nat} (hk : addr.toNat % PageSize + k < PageSize) :
    (f * PageSize + addr.toNat % PageSize + k) / PageSize = f := by
  rw [Nat.add_assoc, Nat.mul_comm, Nat.mul_add_div (by decide), Nat.div_eq_of_lt hk, Nat.add_zero]

/-- A read depends on memory only in the frame of its page. -/
theorem readMem_congr {mainMemory' : Memory}
    (h : ∀ e, pageTable[addr.toNat / PageSize]? = some e →
      ∀ a, a / PageSize = pageFrame e → mainMemory' a = mainMemory a) :
    readMem pageTable mainMemory' addr size = readMem pageTable mainMemory addr size := by
  unfold readMem
  cases ht : translate pageTable addr size false with
  | raise e => rfl
  | abort => rfl
  | ok r =>
    obtain ⟨pa, pt⟩ := r
    obtain ⟨e, he, -, -, hpa, halign, -⟩ := translate_ok ht
    have hagree : ∀ k, addr.toNat % PageSize + k < PageSize → mainMemory' (pa + k) = mainMemory (pa + k) := by
      intro k hk
      exact h e he _ (by rw [hpa]; exact access_frame hk)
    simp only
    split
    · rename_i h1
      have hoff := aligned_offset halign (.inl h1)
      rw [show mainMemory' pa = mainMemory pa from hagree 0 (by omega)]
    · split
      · rename_i h2
        have hoff := aligned_offset halign (.inr (.inl h2))
        rw [show mainMemory' pa = mainMemory pa from hagree 0 (by omega), hagree 1 (by omega)]
      · split
        · rename_i h4
          have hoff := aligned_offset halign (.inr (.inr h4))
          rw [Bytes.wordAt, Bytes.wordAt, show mainMemory' pa = mainMemory pa from hagree 0 (by omega),
            hagree 1 (by omega), hagree 2 (by omega), hagree 3 (by omega)]
        · rfl

/-- A read changes `use` bits only. -/
theorem readMem_frames {w : Word} {pt : List TranslationEntry}
    (h : readMem pageTable mainMemory addr size = .ok (w, pt)) :
    pt.map (·.physicalPage) = pageTable.map (·.physicalPage) := by
  unfold readMem at h
  cases ht : translate pageTable addr size false with
  | raise e => rw [ht] at h; cases h
  | abort => rw [ht] at h; cases h
  | ok r =>
    obtain ⟨pa, pt'⟩ := r
    rw [ht] at h
    simp only at h
    split at h
    · cases h; exact translate_frames ht
    · split at h
      · cases h; exact translate_frames ht
      · split at h
        · cases h; exact translate_frames ht
        · cases h

/-- A write changes memory only in the frame of its page, and of the page table only the `use`
    and `dirty` bits. -/
theorem writeMem_ok {value : Word} {mainMemory' : Memory} {pt : List TranslationEntry}
    (h : writeMem pageTable mainMemory addr size value = .ok (mainMemory', pt)) :
    ∃ e, pageTable[addr.toNat / PageSize]? = some e ∧ pageFrame e < NumPhysPages ∧
      (∀ a, a / PageSize ≠ pageFrame e → mainMemory' a = mainMemory a) ∧
      pt.map (·.physicalPage) = pageTable.map (·.physicalPage) := by
  unfold writeMem at h
  cases ht : translate pageTable addr size true with
  | raise e => rw [ht] at h; cases h
  | abort => rw [ht] at h; cases h
  | ok r =>
    obtain ⟨pa, pt'⟩ := r
    rw [ht] at h
    simp only at h
    split at h
    · rename_i hsize
      cases h
      obtain ⟨e, he, -, hframe, hpa, halign, -⟩ := translate_ok ht
      have hoff := aligned_offset halign hsize
      refine ⟨e, he, hframe, ?_, ?_⟩
      · intro a ha
        apply Bytes.blit_apply_of_not_mem _
        rintro ⟨h1, h2⟩
        rw [List.length_map, List.length_range] at h2
        apply ha
        obtain ⟨k, rfl⟩ := Nat.exists_eq_add_of_le h1
        rw [hpa]
        exact access_frame (by omega)
      · exact translate_frames ht
    · cases h

end Machine

end Nachos
