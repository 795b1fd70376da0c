import Mathlib.Data.Finset.Card
import Mathlib.Order.Interval.Finset.Nat
import Nachos.Lib.Paged
import Nachos.Machine.Translate
import Nachos.Userprog.UserMemory

/-!
# The memory of a process, byte by byte

`ReadMem` and `WriteMem` of one byte through a page table, as `User2System` and `System2User` use
them.

* `memoryLaws` — for a page table with distinct frames, as `AddrSpace` builds it.
* `user2System_of_some`, `system2UserFrom_of_some` — for any page table, in physical memory.
-/

set_option autoImplicit false

namespace Nachos

open CString Machine

/-- The page table of the running process, and main memory. -/
structure UserSpace where
  pageTable : List TranslationEntry
  mainMemory : Memory

namespace UserSpace

/-- `machine->ReadMem(addr, 1, &oneChar)`, and `(char)oneChar`. -/
def readByte (u : UserSpace) (addr : Word) : Option (Byte × UserSpace) :=
  match readMem u.pageTable u.mainMemory addr 1 with
  | .ok (oneChar, pageTable) => some (oneChar.setWidth 8, { u with pageTable := pageTable })
  | _ => none

/-- `machine->WriteMem(addr, 1, (int)c)`. -/
def writeByte (u : UserSpace) (addr : Word) (c : Byte) : Option UserSpace :=
  match writeMem u.pageTable u.mainMemory addr 1 (c.signExtend 32) with
  | .ok (mainMemory, pageTable) => some { pageTable := pageTable, mainMemory := mainMemory }
  | _ => none

/-- The physical address of one byte. -/
def physAddr (pageTable : List TranslationEntry) (addr : Word) (writing : Bool) : Option Nat :=
  pageTable[addr.toNat / PageSize]?.bind fun e =>
    if e.valid ∧ ¬ (e.readOnly && writing) ∧ pageFrame e < NumPhysPages then
      some (pageFrame e * PageSize + addr.toNat % PageSize)
    else none

/-- What the process can read. -/
def view (u : UserSpace) (addr : Word) : Option Byte := (physAddr u.pageTable addr false).map u.mainMemory

/-- Where the process can write. -/
def writable (u : UserSpace) (addr : Word) : Prop := (physAddr u.pageTable addr true).isSome

instance (u : UserSpace) (addr : Word) : Decidable (u.writable addr) := inferInstanceAs (Decidable (_ = true))

/-- No frame belongs to two pages. -/
def Distinct (u : UserSpace) : Prop := (u.pageTable.map pageFrame).Nodup

/-- The entries of two page tables, but for the `use` and `dirty` bits. -/
def Same (pt pt' : List TranslationEntry) : Prop :=
  pt'.map (fun e => (pageFrame e, e.valid, e.readOnly)) = pt.map (fun e => (pageFrame e, e.valid, e.readOnly))

variable {u : UserSpace} {pt pt' : List TranslationEntry} {addr : Word} {writing : Bool}

theorem Same.physAddr_eq (h : Same pt pt') (addr : Word) (writing : Bool) :
    physAddr pt' addr writing = physAddr pt addr writing := by
  have hget := congrArg (·[addr.toNat / PageSize]?) h
  simp only [List.getElem?_map] at hget
  unfold physAddr
  cases he : pt[addr.toNat / PageSize]? with
  | none =>
    rw [he, Option.map_none, Option.map_eq_none_iff] at hget
    rw [hget]
  | some e =>
    rw [he, Option.map_some] at hget
    obtain ⟨e', he', heq⟩ := Option.map_eq_some_iff.1 hget
    simp only [Prod.mk.injEq] at heq
    rw [he', Option.bind_some, Option.bind_some, heq.1, heq.2.1, heq.2.2]

theorem Same.distinct (h : Same pt pt') (hd : (pt.map pageFrame).Nodup) : (pt'.map pageFrame).Nodup := by
  have hframes := congrArg (List.map Prod.fst) h
  rw [List.map_map, List.map_map] at hframes
  rw [show pt'.map pageFrame = pt.map pageFrame from hframes]
  exact hd

theorem same_set {i : Nat} {e e' : TranslationEntry} (he : pt[i]? = some e)
    (heq : (pageFrame e', e'.valid, e'.readOnly) = (pageFrame e, e.valid, e.readOnly)) : Same pt (pt.set i e') := by
  obtain ⟨hlt, hget⟩ := List.getElem?_eq_some_iff.1 he
  refine List.ext_getElem? ?_
  intro n
  rw [List.map_set, List.getElem?_set]
  split
  · rename_i hn
    subst hn
    simp [hlt, hget, heq]
  · rfl

/-- A translation of one byte. -/
theorem translate_byte {pa : Nat} (h : physAddr pt addr writing = some pa) :
    ∃ pt', Machine.translate pt addr 1 writing = .ok (pa, pt') ∧ Same pt pt' := by
  obtain ⟨e, he, h⟩ := Option.bind_eq_some_iff.1 h
  split at h
  · rename_i hok
    obtain ⟨hvalid, hread, hframe⟩ := hok
    cases h
    have hoff : addr.toNat % PageSize < PageSize := Nat.mod_lt _ (by decide)
    have hmem : pageFrame e * PageSize + addr.toNat % PageSize + 1 ≤ MemorySize :=
      calc pageFrame e * PageSize + addr.toNat % PageSize + 1
          ≤ pageFrame e * PageSize + PageSize := by omega
        _ = (pageFrame e + 1) * PageSize := by rw [Nat.succ_mul]
        _ ≤ NumPhysPages * PageSize := Nat.mul_le_mul_right _ hframe
    refine ⟨pt.set (addr.toNat / PageSize) { e with use := true, dirty := e.dirty || writing }, ?_,
      same_set he rfl⟩
    unfold Machine.translate
    rw [if_neg (by simp)]
    simp only [he]
    rw [if_neg (by simp [hvalid]), if_neg (by simpa using hread), if_neg (Nat.not_le.2 hframe), if_pos hmem]
  · cases h

theorem translate_byte_none (h : physAddr pt addr writing = none) :
    ∃ e, Machine.translate pt addr 1 writing = .raise e := by
  unfold Machine.translate
  rw [if_neg (by simp)]
  unfold physAddr at h
  cases he : pt[addr.toNat / PageSize]? with
  | none =>
    simp only [he]
    exact ⟨_, rfl⟩
  | some e =>
    rw [he, Option.bind_some, ite_eq_right_iff] at h
    simp only [he]
    by_cases hvalid : e.valid = true
    · rw [if_neg (by simp [hvalid])]
      by_cases hread : (e.readOnly && writing) = true
      · rw [if_pos hread]
        exact ⟨_, rfl⟩
      · rw [if_neg hread]
        by_cases hframe : NumPhysPages ≤ pageFrame e
        · rw [if_pos hframe]
          exact ⟨_, rfl⟩
        · cases h ⟨hvalid, hread, Nat.lt_of_not_le hframe⟩
    · rw [if_pos (by simpa using hvalid)]
      exact ⟨_, rfl⟩

/-- Distinct addresses of a process have distinct physical addresses. -/
theorem physAddr_inj (hd : (pt.map pageFrame).Nodup) {a a' : Word} {w w' : Bool} {pa : Nat}
    (h : physAddr pt a w = some pa) (h' : physAddr pt a' w' = some pa) : a = a' := by
  obtain ⟨e, he, h⟩ := Option.bind_eq_some_iff.1 h
  obtain ⟨e', he', h'⟩ := Option.bind_eq_some_iff.1 h'
  split at h
  · split at h'
    · cases h
      rw [Option.some.injEq] at h'
      have hmod : a.toNat % PageSize < PageSize := Nat.mod_lt _ (by decide)
      have hmod' : a'.toNat % PageSize < PageSize := Nat.mod_lt _ (by decide)
      have hframe : pageFrame e' = pageFrame e := by
        rw [← Paged.block_div (by decide) (pageFrame e') hmod', h', Paged.block_div (by decide) _ hmod]
      have hpage : a'.toNat / PageSize = a.toNat / PageSize := by
        refine (List.getElem?_inj ?_ hd).1 ?_
        · rw [List.length_map]
          exact (List.getElem?_eq_some_iff.1 he').1
        · rw [List.getElem?_map, List.getElem?_map, he, he', Option.map_some, Option.map_some, hframe]
      rw [hframe] at h'
      apply BitVec.eq_of_toNat_eq
      rw [← Nat.div_add_mod a.toNat PageSize, ← Nat.div_add_mod a'.toNat PageSize, hpage]
      omega
    · cases h'
  · cases h

theorem physAddr_lt {pa : Nat} (h : physAddr pt addr writing = some pa) : pa < MemorySize := by
  obtain ⟨e, he, h⟩ := Option.bind_eq_some_iff.1 h
  split at h
  · rename_i hok
    cases h
    have hmod : addr.toNat % PageSize < PageSize := Nat.mod_lt _ (by decide)
    calc pageFrame e * PageSize + addr.toNat % PageSize
        < pageFrame e * PageSize + PageSize := by omega
      _ = (pageFrame e + 1) * PageSize := by rw [Nat.succ_mul]
      _ ≤ NumPhysPages * PageSize := Nat.mul_le_mul_right _ hok.2.2
  · cases h

/-- A buffer of a process is not longer than main memory. -/
theorem length_le_memorySize (hd : u.Distinct) {n : Nat} (hn : n ≤ 2 ^ 32)
    (h : ∀ j < n, ∃ b, u.view (addr + BitVec.ofNat 32 j) = some b) : n ≤ MemorySize := by
  have hphys : ∀ j < n, ∃ pa, physAddr u.pageTable (addr + BitVec.ofNat 32 j) false = some pa := by
    intro j hj
    obtain ⟨b, hb⟩ := h j hj
    obtain ⟨pa, hpa, -⟩ := Option.map_eq_some_iff.1 hb
    exact ⟨pa, hpa⟩
  have hcard : (Finset.range n).card ≤ (Finset.range MemorySize).card := by
    refine Finset.card_le_card_of_injOn
      (fun j => (physAddr u.pageTable (addr + BitVec.ofNat 32 j) false).getD 0) ?_ ?_
    · intro j hj
      obtain ⟨pa, hpa⟩ := hphys j (Finset.mem_range.1 hj)
      simp only [hpa, Option.getD_some, Finset.coe_range, Set.mem_Iio]
      exact physAddr_lt hpa
    · intro j hj l hl heq
      obtain ⟨pa, hpa⟩ := hphys j (Finset.mem_range.1 hj)
      obtain ⟨pb, hpb⟩ := hphys l (Finset.mem_range.1 hl)
      simp only [hpa, hpb, Option.getD_some] at heq
      subst heq
      have haddr := physAddr_inj hd hpa hpb
      have hofNat : BitVec.ofNat 32 j = BitVec.ofNat 32 l := by
        have := congrArg (fun x => x - addr) haddr
        simpa [BitVec.add_comm addr] using this
      have htoNat := congrArg BitVec.toNat hofNat
      rw [BitVec.toNat_ofNat, BitVec.toNat_ofNat, Nat.mod_eq_of_lt, Nat.mod_eq_of_lt] at htoNat
      · exact htoNat
      · exact Nat.lt_of_lt_of_le (Finset.mem_range.1 hl) hn
      · exact Nat.lt_of_lt_of_le (Finset.mem_range.1 hj) hn
  simpa using hcard

theorem physAddr_of_writable {pa : Nat} (h : physAddr pt addr true = some pa) : physAddr pt addr false = some pa := by
  obtain ⟨e, he, h⟩ := Option.bind_eq_some_iff.1 h
  rw [physAddr, he, Option.bind_some]
  split at h
  · rename_i hok
    rw [if_pos ⟨hok.1, by simp, hok.2.2⟩]
    exact h
  · cases h

/-- A byte keeps its value as an `int`. -/
theorem setWidth_signExtend (c : Byte) : (c.signExtend 32).setWidth 8 = c := by
  apply BitVec.eq_of_getLsbD_eq
  intro i hi
  simp only [BitVec.getLsbD_setWidth, BitVec.getLsbD_signExtend, hi, if_true, decide_true, Bool.true_and]
  rw [decide_eq_true (by omega), Bool.true_and]

theorem readByte_some {b : Byte} (h : u.view addr = some b) :
    ∃ pt', u.readByte addr = some (b, { u with pageTable := pt' }) ∧ Same u.pageTable pt' := by
  obtain ⟨pa, hpa, rfl⟩ := Option.map_eq_some_iff.1 h
  obtain ⟨pt', ht, hsame⟩ := translate_byte hpa
  refine ⟨pt', ?_, hsame⟩
  simp only [readByte, readMem, ht, if_true, setWidth_signExtend]

theorem writeByte_some {pa : Nat} (h : physAddr u.pageTable addr true = some pa) (c : Byte) :
    ∃ pt', u.writeByte addr c = some ⟨pt', Function.update u.mainMemory pa c⟩ ∧ Same u.pageTable pt' := by
  obtain ⟨pt', ht, hsame⟩ := translate_byte h
  have hbyte : Bytes.byte (c.signExtend 32) 0 = c := by
    rw [Bytes.byte, Nat.mul_zero, ← BitVec.setWidth_eq_extractLsb' (by decide)]
    exact setWidth_signExtend c
  have hblit : Bytes.blit u.mainMemory pa ((List.range 1).map (Bytes.byte (c.signExtend 32))) =
      Function.update u.mainMemory pa c := by
    funext a
    rw [Bytes.blit_apply, List.range_one, List.map_singleton, hbyte, Function.update_apply]
    split_ifs with h1 h2 h2
    · simp [h2]
    · rw [List.getD_eq_getElem?_getD, List.getElem?_eq_none (by rw [List.length_singleton]; omega), Option.getD_none]
    · omega
    · rfl
  refine ⟨pt', ?_, hsame⟩
  simp only [writeByte, writeMem, ht, true_or, if_true]
  rw [hblit]

/-- **The memory of a process** whose pages have distinct frames. -/
theorem memoryLaws : MemoryLaws readByte writeByte Distinct view writable where
  read_some := by
    intro u a b hd hview
    obtain ⟨pt', hread, hsame⟩ := readByte_some hview
    refine ⟨_, hread, hsame.distinct hd, ?_, ?_⟩
    · funext a'
      rw [view, view, hsame.physAddr_eq]
    · funext a'
      rw [writable, writable, hsame.physAddr_eq]
  write_some := by
    intro u a b hd hw
    obtain ⟨pa, hpa⟩ := Option.isSome_iff_exists.1 hw
    obtain ⟨pt', hwrite, hsame⟩ := writeByte_some hpa b
    refine ⟨_, hwrite, hsame.distinct hd, ?_, ?_⟩
    · funext a'
      rw [view, hsame.physAddr_eq]
      rcases eq_or_ne a' a with rfl | hne
      · rw [Function.update_self, physAddr_of_writable hpa, Option.map_some]
        simp only [Function.update_self]
      · rw [Function.update_of_ne hne, view]
        cases hpa' : physAddr u.pageTable a' false with
        | none => rfl
        | some pa' =>
          have hne' : pa' ≠ pa := by
            rintro rfl
            exact hne (physAddr_inj hd hpa' hpa)
          rw [Option.map_some, Option.map_some]
          simp only [Function.update_of_ne hne']
    · funext a'
      rw [writable, writable, hsame.physAddr_eq]
  write_none := by
    intro u a b _ hw
    rw [writable, Option.not_isSome_iff_eq_none] at hw
    obtain ⟨e, ht⟩ := translate_byte_none hw
    simp [writeByte, writeMem, ht]

/-! ## Copying, for any page table -/

/-- Only `use` and `dirty` bits have changed. -/
structure Quiet (u u' : UserSpace) : Prop where
  mainMemory : u'.mainMemory = u.mainMemory
  same : Same u.pageTable u'.pageTable

theorem Quiet.refl (u : UserSpace) : Quiet u u := ⟨rfl, rfl⟩

theorem Same.trans {pt'' : List TranslationEntry} (h : Same pt pt') (h' : Same pt' pt'') : Same pt pt'' :=
  Eq.trans h' h

theorem Quiet.view_eq {u' : UserSpace} (h : Quiet u u') : u'.view = u.view := by
  funext a
  rw [view, view, h.same.physAddr_eq, h.mainMemory]

theorem Quiet.writable_eq {u' : UserSpace} (h : Quiet u u') : u'.writable = u.writable := by
  funext a
  rw [writable, writable, h.same.physAddr_eq]

theorem readByte_of_some {u' : UserSpace} {b : Byte} (h : u.readByte addr = some (b, u')) :
    u.view addr = some b ∧ Quiet u u' := by
  cases hview : u.view addr with
  | none =>
    rw [view, Option.map_eq_none_iff] at hview
    obtain ⟨e, ht⟩ := translate_byte_none hview
    simp [readByte, readMem, ht] at h
  | some c =>
    obtain ⟨pt', hread, hsame⟩ := readByte_some hview
    rw [hread] at h
    cases h
    exact ⟨rfl, rfl, hsame⟩

theorem writeByte_of_some {u' : UserSpace} {b : Byte} (h : u.writeByte addr b = some u') :
    ∃ pa, physAddr u.pageTable addr true = some pa ∧ u'.mainMemory = Function.update u.mainMemory pa b ∧
      Same u.pageTable u'.pageTable := by
  cases hpa : physAddr u.pageTable addr true with
  | none =>
    obtain ⟨e, ht⟩ := translate_byte_none hpa
    simp [writeByte, writeMem, ht] at h
  | some pa =>
    obtain ⟨pt', hwrite, hsame⟩ := writeByte_some hpa b
    rw [hwrite] at h
    cases h
    exact ⟨pa, rfl, rfl, hsame⟩

/-- What the process can read at `addr` and behind it, for `User2System`. -/
def bytesAt (u : UserSpace) (addr : Word) : Nat → Byte := fun j => (u.view (addr + BitVec.ofNat 32 j)).getD 0

/-- `User2System`, when it comes back. -/
theorem user2System_of_some {u' : UserSpace} {n : Nat} {buf : Nat → Byte}
    (h : user2System readByte u addr n = some (buf, u')) :
    buf = padded (str (u.bytesAt addr) 0 n) ∧ Quiet u u' := by
  refine user2SystemFrom_some (J := Quiet u) ?_ n u u' [] buf (Quiet.refl u) h
  intro u1 i b u2 h1 hread
  obtain ⟨hview, hquiet⟩ := readByte_of_some hread
  rw [h1.view_eq] at hview
  refine ⟨?_, hquiet.mainMemory.trans h1.mainMemory, h1.same.trans hquiet.same⟩
  rw [bytesAt, hview, Option.getD_some]

/-- It comes back if the buffer can be read. -/
theorem user2System_isSome {n : Nat}
    (h : ∀ j < n, (∀ l < j, u.bytesAt addr l ≠ 0) → (u.view (addr + BitVec.ofNat 32 j)).isSome) :
    ∃ u', user2System readByte u addr n = some (padded (str (u.bytesAt addr) 0 n), u') ∧ Quiet u u' := by
  refine user2System_spec (I := Quiet u) ?_ (Quiet.refl u)
  intro u1 i h1 hi hnz
  obtain ⟨b, hb⟩ := Option.isSome_iff_exists.1 (h i hi hnz)
  have hview : u1.view (addr + BitVec.ofNat 32 i) = some b := by
    rw [h1.view_eq]
    exact hb
  obtain ⟨pt', hread, hsame⟩ := readByte_some hview
  refine ⟨⟨pt', u1.mainMemory⟩, ?_, h1.mainMemory, h1.same.trans hsame⟩
  rw [hread, bytesAt, hb, Option.getD_some]

/-- `n` bytes of `buffer`, from `i` on, have been written at `addr`. -/
structure Wrote (u u' : UserSpace) (addr : Word) (buffer : Nat → Byte) (i n : Nat) : Prop where
  same : Same u.pageTable u'.pageTable
  writable : ∀ j < n, u.writable (addr + BitVec.ofNat 32 (i + j))
  changed : ∀ pa, u'.mainMemory pa ≠ u.mainMemory pa →
    ∃ j < n, physAddr u.pageTable (addr + BitVec.ofNat 32 (i + j)) true = some pa
  last : ∀ j pa, n = j + 1 → physAddr u.pageTable (addr + BitVec.ofNat 32 (i + j)) true = some pa →
    u'.mainMemory pa = buffer (i + j)

theorem Wrote.none (u : UserSpace) (addr : Word) (buffer : Nat → Byte) (i : Nat) : Wrote u u addr buffer i 0 where
  same := rfl
  writable := fun j hj => absurd hj (Nat.not_lt_zero j)
  changed := fun _ h => absurd rfl h
  last := fun j _ h => absurd h.symm (Nat.succ_ne_zero j)

theorem Wrote.of_quiet {u' u'' : UserSpace} {buffer : Nat → Byte} {i n : Nat} (hq : Quiet u u')
    (h : Wrote u' u'' addr buffer i n) : Wrote u u'' addr buffer i n where
  same := hq.same.trans h.same
  writable := by
    intro j hj
    rw [← hq.writable_eq]
    exact h.writable j hj
  changed := by
    intro pa hne
    rw [← hq.mainMemory] at hne
    obtain ⟨j, hj, hpa⟩ := h.changed pa hne
    rw [hq.same.physAddr_eq] at hpa
    exact ⟨j, hj, hpa⟩
  last := by
    intro j pa hj hpa
    rw [← hq.same.physAddr_eq] at hpa
    exact h.last j pa hj hpa

/-- The loop of `System2User`, when it comes back. -/
theorem system2UserFrom_of_some {buffer : Nat → Byte} : ∀ (n i m : Nat) (u u' : UserSpace),
    system2UserFrom writeByte addr buffer u i n = some (m, u') → Wrote u u' addr buffer i (sent buffer i n) := by
  intro n
  induction n with
  | zero =>
    intro i m u u' h
    cases h
    exact Wrote.none u addr buffer i
  | succ n ih =>
    intro i m u u' h
    rw [system2UserFrom] at h
    obtain ⟨u1, hu1, h⟩ := Option.bind_eq_some_iff.1 h
    obtain ⟨pa, hpa, hmem, hsame⟩ := writeByte_of_some hu1
    have hw : u.writable (addr + BitVec.ofNat 32 i) := Option.isSome_iff_exists.2 ⟨pa, hpa⟩
    rw [sent]
    split at h
    · rename_i hz
      have hrest := ih (i + 1) m u1 u' h
      have hidx : ∀ j, i + 1 + j = i + (j + 1) := fun j => by omega
      rw [if_pos hz]
      refine ⟨hsame.trans hrest.same, ?_, ?_, ?_⟩
      · intro j hj
        cases j with
        | zero => exact hw
        | succ j =>
          have := hrest.writable j (by omega)
          rwa [UserSpace.writable, hsame.physAddr_eq, hidx] at this
      · intro pb hne
        by_cases h1 : u'.mainMemory pb = u1.mainMemory pb
        · rw [h1, hmem] at hne
          have hpb : pb = pa := by
            by_contra hpb
            exact hne (Function.update_of_ne hpb _ _)
          exact ⟨0, by omega, by rw [hpb]; exact hpa⟩
        · obtain ⟨j, hj, hj'⟩ := hrest.changed pb h1
          rw [hsame.physAddr_eq, hidx] at hj'
          exact ⟨j + 1, by omega, hj'⟩
      · intro j pb hj hpb
        cases j with
        | zero =>
          -- the rest wrote nothing
          have hzero : sent buffer (i + 1) n = 0 := by omega
          have hkeep : u'.mainMemory pb = u1.mainMemory pb := by
            by_contra hne
            obtain ⟨j, hj, -⟩ := hrest.changed pb hne
            omega
          rw [Nat.add_zero] at hpb
          rw [hpa] at hpb
          cases hpb
          rw [hkeep, hmem, Function.update_self, Nat.add_zero]
        | succ j =>
          rw [← hidx] at hpb ⊢
          exact hrest.last j pb (by omega) (by rw [hsame.physAddr_eq]; exact hpb)
    · rename_i hz
      cases h
      rw [if_neg hz]
      refine ⟨hsame, ?_, ?_, ?_⟩
      · intro j hj
        obtain rfl : j = 0 := by omega
        exact hw
      · intro pb hne
        rw [hmem] at hne
        have hpb : pb = pa := by
          by_contra hpb
          exact hne (Function.update_of_ne hpb _ _)
        exact ⟨0, by omega, by rw [hpb]; exact hpa⟩
      · intro j pb hj hpb
        obtain rfl : j = 0 := by omega
        rw [Nat.add_zero, hpa] at hpb
        cases hpb
        rw [hmem, Function.update_self, Nat.add_zero]

/-- It comes back if what it writes can be written. -/
theorem system2UserFrom_isSome {buffer : Nat → Byte} : ∀ (n i : Nat) (u : UserSpace),
    (∀ j < sent buffer i n, u.writable (addr + BitVec.ofNat 32 (i + j))) →
    ∃ m u', system2UserFrom writeByte addr buffer u i n = some (m, u') := by
  intro n
  induction n with
  | zero =>
    intro i u _
    exact ⟨i, u, rfl⟩
  | succ n ih =>
    intro i u hw
    rw [sent] at hw
    have hfirst : u.writable (addr + BitVec.ofNat 32 i) := hw 0 (by split <;> omega)
    obtain ⟨pa, hpa⟩ := Option.isSome_iff_exists.1 hfirst
    obtain ⟨pt', hwrite, hsame⟩ := writeByte_some hpa (buffer i)
    rw [system2UserFrom, hwrite, Option.bind_eq_bind, Option.bind_some]
    split
    · rename_i hz
      rw [if_pos hz] at hw
      apply ih
      intro j hj
      rw [writable, hsame.physAddr_eq, show i + 1 + j = i + (j + 1) by omega]
      exact hw (j + 1) (by omega)
    · exact ⟨_, _, rfl⟩

end UserSpace

end Nachos
