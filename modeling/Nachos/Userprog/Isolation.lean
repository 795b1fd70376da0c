import Nachos.Lib.Queues
import Nachos.Lib.Transition
import Nachos.Userprog.AddrSpace

/-!
# Memory isolation between processes

Any number of address spaces are built and destroyed, in any order, and in between the processes
read and write memory through their page tables.  The frames of the page tables form a family of
lists with exclusive ownership (`Queues.Homed`), and `gPhysPageBitmap` marks the owned frames.

An executable whose segments do not fit its page table makes the loader write anywhere; what
memory then holds is anything (`wild`).

* `step_owned` — one step keeps the ownership of frames.
* `memory_isolation` — every run.
-/

set_option autoImplicit false

namespace Nachos

/-- The frames, the memory and the page tables of the live address spaces. -/
structure MemState where
  bm : BitMap
  mem : Memory
  spaces : Nat → Option (List TranslationEntry)

inductive MemEvent where
  /-- `new AddrSpace(executable)` -/
  | construct (id : Nat) (junk : Nat → Byte) (file : List Byte) (wild : Memory)
  /-- `delete space` -/
  | destroy (id : Nat)
  /-- `ReadMem` with the page table of `id` loaded -/
  | read (id : Nat) (addr : Word) (size : Nat)
  /-- `WriteMem` with the page table of `id` loaded -/
  | write (id : Nat) (addr : Word) (size : Nat) (value : Word)

namespace MemState

open Transition Queues

def setSpace (s : MemState) (id : Nat) (pt : Option (List TranslationEntry)) : MemState :=
  { s with spaces := Function.update s.spaces id pt }

def step (s : MemState) : MemEvent → Option MemState
  | .construct id junk file wild =>
    match s.spaces id with
    | some _ => none
    | none =>
      match AddrSpace.create junk file s.bm s.mem with
      | none => none
      | some b => some ({ s with bm := b.bm, mem := b.mem.getD wild }.setSpace id (some b.pageTable))
  | .destroy id =>
    match s.spaces id with
    | none => none
    | some pt =>
      match AddrSpace.destroy s.bm pt with
      | none => none
      | some bm => some ({ s with bm := bm }.setSpace id none)
  | .read id addr size =>
    match s.spaces id with
    | none => none
    | some pt =>
      match Machine.readMem pt s.mem addr size with
      | .ok (_, pt) => some (s.setSpace id (some pt))
      | .raise _ => some s
      | .abort => none
  | .write id addr size value =>
    match s.spaces id with
    | none => none
    | some pt =>
      match Machine.writeMem pt s.mem addr size value with
      | .ok (mem, pt) => some ({ s with mem := mem }.setSpace id (some pt))
      | .raise _ => some s
      | .abort => none

/-- After `Initialize`: `gPhysPageBitmap = new BitMap(NumPhysPages)`. -/
structure Boot (s : MemState) : Prop where
  numBits : s.bm.numBits = NumPhysPages
  bits : ∀ f < NumPhysPages, s.bm.bit f = false
  spaces : ∀ id, s.spaces id = none

def system : System MemState MemEvent where
  init := Boot
  step := step

/-! ## Ownership of frames -/

/-- The frames of a page table. -/
def frames (pt : List TranslationEntry) : List Int := pt.map (·.physicalPage)

/-- `fs` are the frame numbers of the page tables. -/
structure Owned (s : MemState) (fs : Nat → List Nat) (owner : Nat → Option Nat) : Prop where
  homed : Homed fs owner
  tables : ∀ id, match s.spaces id with
    | some pt => frames pt = (fs id).map (fun f : Nat => (f : Int))
    | none => fs id = []
  numBits : s.bm.numBits = NumPhysPages
  bits : ∀ f, f < NumPhysPages ∧ s.bm.bit f = true ↔ owner f ≠ none

variable {s s' : MemState} {fs : Nat → List Nat} {owner : Nat → Option Nat}

theorem Owned.table (h : Owned s fs owner) {id : Nat} {pt : List TranslationEntry}
    (hpt : s.spaces id = some pt) : frames pt = (fs id).map (fun f : Nat => (f : Int)) := by
  have := h.tables id
  rw [hpt] at this
  exact this

theorem Owned.lt (h : Owned s fs owner) {id f : Nat} (hf : f ∈ fs id) : f < NumPhysPages :=
  ((h.bits f).2 (by rw [(h.homed.mem id f).1 hf]; simp)).1

/-- An access changes no frame. -/
theorem Owned.access (h : Owned s fs owner) {id : Nat} {pt pt' : List TranslationEntry} (mem : Memory)
    (hpt : s.spaces id = some pt) (hframes : frames pt' = frames pt) :
    Owned ({ s with mem := mem }.setSpace id (some pt')) fs owner := by
  refine ⟨h.homed, ?_, h.numBits, h.bits⟩
  intro j
  simp only [setSpace]
  rcases eq_or_ne j id with rfl | hne
  · rw [Function.update_self]
    exact hframes.trans (h.table hpt)
  · rw [Function.update_of_ne hne]
    exact h.tables j

/-- The frames that a new address space gets. -/
theorem create_spec {junk : Nat → Byte} {file : List Byte} {bm : BitMap} {mem : Memory}
    {b : AddrSpace.Built} (h : AddrSpace.create junk file bm mem = some b) :
    ∃ l : List Nat, bm.Taken l b.bm ∧ frames b.pageTable = l.map (fun f : Nat => (f : Int)) := by
  unfold AddrSpace.create at h
  simp only at h
  split at h
  · cases h
  · split at h
    · cases h
    · rename_i hfit
      have hspec := AddrSpace.setupPages_spec 0 _ bm mem (Nat.le_of_not_lt hfit)
      generalize AddrSpace.setupPages 0 _ bm mem = built at h hspec
      obtain ⟨pt, bm', mem'⟩ := built
      obtain ⟨l, hlen, htaken, hpt, -⟩ := hspec
      cases h
      refine ⟨l, htaken, ?_⟩
      rw [show pt = _ from hpt, frames, ← hlen]
      exact AddrSpace.map_physicalPage_fresh 0 l

/-- **One step keeps the ownership of frames.** -/
theorem step_owned {e : MemEvent} (h : Owned s fs owner) (he : step s e = some s') :
    ∃ fs' owner', Owned s' fs' owner' := by
  cases e with
  | construct id junk file wild =>
    simp only [step] at he
    split at he
    · cases he
    · rename_i hid
      split at he
      · cases he
      · rename_i b hb
        cases he
        obtain ⟨l, htaken, hpt⟩ := create_spec hb
        have hempty : fs id = [] := by
          have := h.tables id
          rw [hid] at this
          exact this
        have hnone : ∀ f ∈ l, owner f = none := by
          intro f hf
          by_contra hne
          have hbit := ((h.bits f).2 hne).2
          rw [(htaken.free f hf).2] at hbit
          cases hbit
        refine ⟨_, _, h.homed.assign hempty htaken.nodup hnone, ?_, htaken.numBits.trans h.numBits, ?_⟩
        · intro j
          simp only [setSpace]
          rcases eq_or_ne j id with rfl | hne
          · rw [Function.update_self, Function.update_self]
            exact hpt
          · rw [Function.update_of_ne hne, Function.update_of_ne hne]
            exact h.tables j
        · intro f
          show f < NumPhysPages ∧ b.bm.bit f = true ↔ _
          rw [htaken.bits]
          by_cases hf : f ∈ l
          · have hlt := (htaken.free f hf).1
            rw [h.numBits] at hlt
            simp [hf, hlt]
          · simpa [hf] using h.bits f
  | destroy id =>
    simp only [step] at he
    split at he
    · cases he
    · rename_i pt hid
      obtain ⟨bm, hbm, hnum, hbits⟩ := AddrSpace.destroy_spec s.bm (h.table hid)
        (fun f hf => by rw [h.numBits]; exact h.lt hf)
      rw [hbm] at he
      cases he
      refine ⟨_, _, h.homed.release id, ?_, hnum.trans h.numBits, ?_⟩
      · intro j
        simp only [setSpace]
        rcases eq_or_ne j id with rfl | hne
        · rw [Function.update_self, Function.update_self]
        · rw [Function.update_of_ne hne, Function.update_of_ne hne]
          exact h.tables j
      · intro f
        show f < NumPhysPages ∧ bm.bit f = true ↔ _
        rw [hbits]
        by_cases hf : f ∈ fs id
        · simp [hf]
        · simpa [hf] using h.bits f
  | read id addr size =>
    simp only [step] at he
    split at he
    · cases he
    · rename_i pt hid
      split at he
      · rename_i w pt' hread
        cases he
        exact ⟨fs, owner, h.access s.mem hid (Machine.readMem_frames hread)⟩
      · cases he
        exact ⟨fs, owner, h⟩
      · cases he
  | write id addr size value =>
    simp only [step] at he
    split at he
    · cases he
    · rename_i pt hid
      split at he
      · rename_i mem pt' hwrite
        cases he
        obtain ⟨e, -, -, -, hframes⟩ := Machine.writeMem_ok hwrite
        exact ⟨fs, owner, h.access mem hid hframes⟩
      · cases he
        exact ⟨fs, owner, h⟩
      · cases he

theorem boot_owned (h : Boot s) : Owned s (fun _ => []) (fun _ => none) := by
  refine ⟨homed_empty, ?_, h.numBits, ?_⟩
  · intro id
    rw [h.spaces]
  · intro f
    simp only [ne_eq, not_true, iff_false, not_and]
    intro hf
    simp [h.bits f hf]

theorem reachable_owned (h : system.Reachable s) : ∃ fs owner, Owned s fs owner := by
  refine System.Reachable.invariant (I := fun s => ∃ fs owner, Owned s fs owner) ?_ ?_ h
  · exact fun s hb => ⟨_, _, boot_owned hb⟩
  · rintro s e s' _ ⟨fs, owner, ho⟩ he
    exact step_owned ho he

/-- A frame number read back from an entry. -/
theorem pageFrame_of_mem (h : Owned s fs owner) {id : Nat} {pt : List TranslationEntry}
    (hpt : s.spaces id = some pt) {e : TranslationEntry} (he : e ∈ pt) :
    Machine.pageFrame e ∈ fs id := by
  have hmem : e.physicalPage ∈ frames pt := List.mem_map_of_mem he
  rw [h.table hpt] at hmem
  obtain ⟨f, hf, hfe⟩ := List.mem_map.1 hmem
  have hlt := h.lt hf
  have heq : Machine.pageFrame e = f := by
    rw [Machine.pageFrame, ← hfe, BitVec.ofInt_natCast, BitVec.toNat_ofNat]
    exact Nat.mod_eq_of_lt (Nat.lt_trans hlt (by decide))
  rw [heq]
  exact hf

/-- **Memory isolation**, over every history of constructions, destructions and accesses. -/
theorem memory_isolation (s : MemState) (h : system.Reachable s) :
    (∀ i pt, s.spaces i = some pt →
      (frames pt).Nodup ∧ ∀ f ∈ frames pt, 0 ≤ f ∧ f < NumPhysPages) ∧
    (∀ i j pt pt', i ≠ j → s.spaces i = some pt → s.spaces j = some pt' →
      ∀ f ∈ frames pt, f ∉ frames pt') ∧
    (∀ f : Nat, f < NumPhysPages →
      (s.bm.bit f = true ↔ ∃ i pt, s.spaces i = some pt ∧ (f : Int) ∈ frames pt)) ∧
    (∀ i j pt pt', i ≠ j → s.spaces i = some pt → s.spaces j = some pt' →
      ∀ addr size value mem pt1, Machine.writeMem pt s.mem addr size value = .ok (mem, pt1) →
      ∀ addr' size', Machine.readMem pt' mem addr' size' = Machine.readMem pt' s.mem addr' size') ∧
    (∀ i pt, s.spaces i = some pt → ∃ bm, AddrSpace.destroy s.bm pt = some bm ∧
      ∀ f : Nat, f < NumPhysPages →
        (bm.bit f = true ↔ s.bm.bit f = true ∧ (f : Int) ∉ frames pt)) := by
  obtain ⟨fs, owner, ho⟩ := reachable_owned h
  have hmem : ∀ {i pt}, s.spaces i = some pt → ∀ f : Nat, (f : Int) ∈ frames pt ↔ f ∈ fs i := by
    intro i pt hpt f
    rw [ho.table hpt, List.mem_map]
    constructor
    · rintro ⟨g, hg, hgf⟩
      rwa [← Int.ofNat_inj.1 hgf]
    · exact fun hf => ⟨f, hf, rfl⟩
  refine ⟨?_, ?_, ?_, ?_, ?_⟩
  · intro i pt hpt
    rw [ho.table hpt]
    refine ⟨(ho.homed.nodup i).map (fun a b hab => by exact_mod_cast hab), ?_⟩
    intro f hf
    obtain ⟨g, hg, rfl⟩ := List.mem_map.1 hf
    have := ho.lt hg
    omega
  · intro i j pt pt' hij hi hj f hf hf'
    rw [ho.table hi] at hf
    obtain ⟨g, hg, rfl⟩ := List.mem_map.1 hf
    rw [hmem hj] at hf'
    have h1 := (ho.homed.mem i g).1 hg
    rw [(ho.homed.mem j g).1 hf'] at h1
    cases h1
    exact hij rfl
  · intro f hf
    have hbit := ho.bits f
    constructor
    · intro hb
      obtain ⟨i, hi⟩ := Option.ne_none_iff_exists'.1 (hbit.1 ⟨hf, hb⟩)
      have hfi := (ho.homed.mem i f).2 hi
      cases hs : s.spaces i with
      | none =>
        have := ho.tables i
        rw [hs] at this
        rw [this] at hfi
        cases hfi
      | some pt => exact ⟨i, pt, hs, (hmem hs f).2 hfi⟩
    · rintro ⟨i, pt, hs, hfi⟩
      have hi := (ho.homed.mem i f).1 ((hmem hs f).1 hfi)
      exact (hbit.2 (by rw [hi]; simp)).2
  · intro i j pt pt' hij hi hj addr size value mem pt1 hw addr' size'
    obtain ⟨e, he, -, hframe, -⟩ := Machine.writeMem_ok hw
    apply Machine.readMem_congr
    intro e' he' a ha
    apply hframe a
    rw [ha]
    -- the two pages are in frames of different owners
    intro heq
    have h1 := pageFrame_of_mem ho hi (List.mem_of_getElem? he)
    have h2 := pageFrame_of_mem ho hj (List.mem_of_getElem? he')
    rw [heq] at h2
    have h3 := (ho.homed.mem i _).1 h1
    rw [(ho.homed.mem j _).1 h2] at h3
    cases h3
    exact hij rfl
  · intro i pt hpt
    obtain ⟨bm, hbm, -, hbits⟩ := AddrSpace.destroy_spec s.bm (ho.table hpt)
      (fun f hf => by rw [ho.numBits]; exact ho.lt hf)
    refine ⟨bm, hbm, ?_⟩
    intro f hf
    rw [hbits, hmem hpt]
    by_cases hfi : f ∈ fs i
    · simp [hfi]
    · simp [hfi]

def boot0 : MemState := ⟨⟨NumPhysPages, List.replicate 4 0, length_replicate_words⟩, fun _ => 7, fun _ => none⟩

/-- A code segment of four bytes at virtual address 0. -/
def tinyFile : List Byte :=
  [0xad, 0xdf, 0xba, 0, 0, 0, 0, 0, 40, 0, 0, 0, 4, 0, 0, 0] ++ List.replicate 24 0 ++ [1, 2, 3, 4]

/-- Two spaces live at once, after a third has come and gone. -/
def twoSpacesRun : List MemEvent :=
  [.construct 0 (fun _ => 0) tinyFile (fun _ => 0), .construct 1 (fun _ => 0) tinyFile (fun _ => 0),
    .destroy 0, .construct 2 (fun _ => 0) tinyFile (fun _ => 0)]

theorem boot0_boot : Boot boot0 := by
  refine ⟨rfl, ?_, fun _ => rfl⟩
  decide +kernel

theorem memory_isolation_twoSpaces : ∃ s pt pt', system.run boot0 twoSpacesRun = some s ∧
    s.spaces 1 = some pt ∧ s.spaces 2 = some pt' ∧ frames pt = [9, 10, 11, 12, 13, 14, 15, 16, 17] ∧
    frames pt' = [0, 1, 2, 3, 4, 5, 6, 7, 8] ∧ ∀ f ∈ frames pt, f ∉ frames pt' := by
  have hrun : (system.run boot0 twoSpacesRun).map
      (fun s => ((s.spaces 1).map frames, (s.spaces 2).map frames)) =
      some (some [9, 10, 11, 12, 13, 14, 15, 16, 17], some [0, 1, 2, 3, 4, 5, 6, 7, 8]) := by
    decide +kernel
  obtain ⟨s, hs, hproj⟩ := Option.map_eq_some_iff.1 hrun
  simp only [Prod.mk.injEq, Option.map_eq_some_iff] at hproj
  obtain ⟨⟨pt, hpt, hf⟩, ⟨pt', hpt', hf'⟩⟩ := hproj
  have hiso := memory_isolation s (System.reachable_of_run _ boot0_boot hs)
  exact ⟨s, pt, pt', hs, hpt, hpt', hf, hf', hiso.2.1 1 2 pt pt' (by decide) hpt hpt'⟩

end MemState

end Nachos
