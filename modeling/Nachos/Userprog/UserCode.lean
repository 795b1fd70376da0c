import Nachos.Userprog.LoadDelaySlots
import Nachos.Userprog.UserSpace

/-!
# The code of a user program

Words in the memory of a process, and what the processor does at them once no load is pending.

* `word_same` — what is fetched does not depend on the `use` and `dirty` bits.
* `round_settles` — the first instruction completes a pending load that it has nothing to do with.
* `round_word`, `round_syscall` — an instruction that comes to its end, and a system call.
-/

set_option autoImplicit false

namespace Nachos

open Instruction Partial

namespace MachineState

/-! ## Words in memory -/

/-- The word that the processor fetches at an address. -/
def word (m : MachineState) (addr : Word) : Option Word :=
  match Machine.readMem m.pageTable m.mainMemory addr 4 with
  | .ok (value, _) => some value
  | _ => none

/-- Words behind each other. -/
def Contains (m : MachineState) (addr : Word) : List Word → Prop
  | [] => True
  | w :: ws => m.word addr = some w ∧ m.Contains (addr + 4) ws

/-- The code of a process is changed neither by what it does to its registers nor by `use` bits. -/
def SameCode (m m' : MachineState) : Prop :=
  UserSpace.Same m.pageTable m'.pageTable ∧ m'.mainMemory = m.mainMemory

variable {m m' : MachineState} {addr w : Word}

theorem SameCode.refl (m : MachineState) : SameCode m m := ⟨rfl, rfl⟩

theorem SameCode.trans {m'' : MachineState} (h : SameCode m m') (h' : SameCode m' m'') : SameCode m m'' :=
  ⟨h.1.trans h'.1, h'.2.trans h.2⟩

/-- A translation depends on the frame and on the `valid` and `readOnly` bits. -/
theorem translate_same {pt pt' : List TranslationEntry} (h : UserSpace.Same pt pt') (addr : Word) (size : Nat) :
    (∃ pa p p', Machine.translate pt addr size false = .ok (pa, p) ∧
      Machine.translate pt' addr size false = .ok (pa, p')) ∨
    ∀ pa p, Machine.translate pt addr size false ≠ .ok (pa, p) ∧
      Machine.translate pt' addr size false ≠ .ok (pa, p) := by
  have hget := congrArg (·[addr.toNat / PageSize]?) h
  simp only [List.getElem?_map] at hget
  unfold Machine.translate
  split
  · exact .inr fun _ _ => ⟨by simp, by simp⟩
  · dsimp only
    cases he : pt[addr.toNat / PageSize]? with
    | none =>
      rw [he, Option.map_none, Option.map_eq_none_iff] at hget
      rw [hget]
      exact .inr fun _ _ => ⟨by simp, by simp⟩
    | some e =>
      rw [he, Option.map_some] at hget
      obtain ⟨e', he', heq⟩ := Option.map_eq_some_iff.1 hget
      simp only [Prod.mk.injEq] at heq
      obtain ⟨hframe, hvalid, hread⟩ := heq
      rw [he']
      dsimp only
      rw [hframe, hvalid, hread]
      split
      · exact .inr fun _ _ => ⟨by simp, by simp⟩
      · split
        · exact .inr fun _ _ => ⟨by simp, by simp⟩
        · split
          · exact .inr fun _ _ => ⟨by simp, by simp⟩
          · split
            · exact .inl ⟨_, _, _, rfl, rfl⟩
            · exact .inr fun _ _ => ⟨by simp, by simp⟩

theorem word_same (h : SameCode m m') (addr : Word) : m'.word addr = m.word addr := by
  obtain ⟨hpages, hmemory⟩ := h
  unfold word Machine.readMem
  rw [hmemory]
  rcases translate_same hpages addr 4 with ⟨pa, p, p', ht, ht'⟩ | hfail
  · rw [ht, ht']
    rfl
  · cases ht : Machine.translate m.pageTable addr 4 false with
    | ok a => exact absurd ht (hfail a.1 a.2).1
    | _ =>
      cases ht' : Machine.translate m'.pageTable addr 4 false with
      | ok a => exact absurd ht' (hfail a.1 a.2).2
      | _ => rfl

theorem Contains.same (h : SameCode m m') {ws : List Word} (hc : m.Contains addr ws) : m'.Contains addr ws := by
  induction ws generalizing addr with
  | nil => trivial
  | cons w ws ih => exact ⟨(word_same h addr).trans hc.1, ih hc.2⟩

/-! ## Instructions -/

/-- The program counters after an instruction that is followed by the one at `pcAfter`. -/
def next (r : Regs) (pcAfter : Word) : Regs :=
  Function.update (Function.update (Function.update r PrevPCReg (r PCReg)) PCReg (r NextPCReg)) NextPCReg pcAfter

theorem next_of_ne (r : Regs) (pcAfter : Word) {i : Fin NumTotalRegs} (hprev : i ≠ PrevPCReg) (hpc : i ≠ PCReg)
    (hnext : i ≠ NextPCReg) : next r pcAfter i = r i := by
  rw [next, Function.update_of_ne hnext, Function.update_of_ne hpc, Function.update_of_ne hprev]

@[simp] theorem next_pc (r : Regs) (pcAfter : Word) : next r pcAfter PCReg = r NextPCReg := by
  rw [next, Function.update_of_ne (by decide), Function.update_self]

@[simp] theorem next_nextPC (r : Regs) (pcAfter : Word) : next r pcAfter NextPCReg = pcAfter := by
  rw [next, Function.update_self]

theorem settled_update {r : Regs} (h : Settled r) {i : Fin NumTotalRegs} (h0 : i ≠ gpr 0) (hload : i ≠ LoadReg)
    (hvalue : i ≠ LoadValueReg) (v : Word) : Settled (Function.update r i v) := by
  refine ⟨?_, ?_, ?_⟩
  · rw [Function.update_of_ne h0.symm, h.zero]
  · rw [Function.update_of_ne hload.symm, h.load]
  · rw [Function.update_of_ne hvalue.symm, h.loadValue]

/-- The exception handler moves on in the same way. -/
theorem advancePC_eq (r : Regs) : Exception.advancePC r = next r (r NextPCReg + 4) := by
  unfold Exception.advancePC next
  dsimp only
  rw [Function.update_of_ne (show NextPCReg ≠ PCReg by decide),
    Function.update_of_ne (show NextPCReg ≠ PrevPCReg by decide)]

theorem settled_next {r : Regs} (h : Settled r) (pcAfter : Word) : Settled (next r pcAfter) := by
  have hprev := settled_update h (i := PrevPCReg) (by decide) (by decide) (by decide) (r PCReg)
  have hpc := settled_update hprev (i := PCReg) (by decide) (by decide) (by decide) (r NextPCReg)
  exact settled_update hpc (by decide) (by decide) (by decide) pcAfter

section Execute

variable {instr : Instruction} {r : Regs} {pt : List TranslationEntry} {mainMemory : Memory} (h : Settled r)

include h

theorem finish_settled (pcAfter : Word) :
    finish ⟨r, pt, mainMemory⟩ pcAfter 0 0 = .done ⟨next r pcAfter, pt, mainMemory⟩ := by
  unfold finish
  rw [h.delayedLoad]
  rfl

theorem execute_addiu (hop : instr.opCode = .addiu) (hrt : instr.rt ≠ 0) :
    execute ⟨r, pt, mainMemory⟩ instr = .done
      ⟨next (Function.update r (gpr instr.rt) (r (gpr instr.rs) + instr.extra)) (r NextPCReg + 4), pt, mainMemory⟩ := by
  simp only [execute, hop]
  exact finish_settled (settled_update h (by simpa using hrt) (gpr_ne (by decide)) (gpr_ne (by decide)) _) _

theorem execute_addu (hop : instr.opCode = .addu) (hrd : instr.rd ≠ 0) :
    execute ⟨r, pt, mainMemory⟩ instr = .done
      ⟨next (Function.update r (gpr instr.rd) (r (gpr instr.rs) + r (gpr instr.rt))) (r NextPCReg + 4), pt,
        mainMemory⟩ := by
  simp only [execute, hop]
  exact finish_settled (settled_update h (by simpa using hrd) (gpr_ne (by decide)) (gpr_ne (by decide)) _) _

theorem execute_jal (hop : instr.opCode = .jal) :
    execute ⟨r, pt, mainMemory⟩ instr = .done
      ⟨next (Function.update r RetAddrReg (r NextPCReg + 4))
        (r NextPCReg + 4 &&& 0xf0000000 ||| indexToAddr instr.extra), pt, mainMemory⟩ := by
  simp only [execute, hop]
  exact finish_settled (settled_update h (by decide) (by decide) (by decide) _) _

theorem execute_jr (hop : instr.opCode = .jr) :
    execute ⟨r, pt, mainMemory⟩ instr = .done ⟨next r (r (gpr instr.rs)), pt, mainMemory⟩ := by
  simp only [execute, hop]
  exact finish_settled h _

/-- The word 0 is `sll $0, $0, 0`. -/
theorem execute_nop : execute ⟨r, pt, mainMemory⟩ (decode 0) = .done ⟨next r (r NextPCReg + 4), pt, mainMemory⟩ := by
  have hself : Function.update r (gpr 0) (r (gpr 0) <<< (0 : Word)) = r := by
    rw [h.zero, show (0 : Word) <<< (0 : Word) = 0 from rfl, ← h.zero, Function.update_eq_self]
  show finish ⟨Function.update r (gpr 0) (r (gpr 0) <<< (0 : Word)), pt, mainMemory⟩ _ 0 0 = _
  rw [hself]
  exact finish_settled h _

/-- The word of `syscall`. -/
theorem execute_syscall : execute ⟨r, pt, mainMemory⟩ (decode 0x0000000c) =
    .exception .syscallException ⟨Function.update r BadVAddrReg 0, pt, mainMemory⟩ := by
  have hbad := settled_update h (i := BadVAddrReg) (by decide) (by decide) (by decide) 0
  show Outcome.exception _ ⟨delayedLoad 0 0 (Function.update r BadVAddrReg 0), _, _⟩ = _
  rw [hbad.delayedLoad]

end Execute

/-! ## Rounds -/

variable {κ : Type} {S : Services (κ × Memory × List TranslationEntry)} {k : κ}

/-- Without a pending load, interrupts do nothing to the processor. -/
theorem round_settled (h : Settled m.registers) (due : Nat × Nat) : round S (m, k) due = round S (m, k) (0, 0) :=
  round_independent h.zero (.inl ⟨h.load, h.loadValue⟩) due

/-- **The first instruction behind a load** that it has nothing to do with finds the load completed. -/
theorem round_settles {t : Fin 32} (hzero : m.registers (gpr 0) = 0)
    (hload : m.registers LoadReg = BitVec.ofNat 32 t.val)
    (hind : ∀ instr, m.fetched = some instr → instr.Independent (gpr t)) (due : Nat × Nat) :
    round S (m, k) due = round S (m.interrupt, k) (0, 0) := by
  have hslot : m.RespectsSlot := by
    refine .inr ⟨gpr t, ?_, ?_, hind⟩
    · have hlt := t.isLt
      intro hmem
      simp only [controlRegs, List.mem_cons, List.not_mem_nil, or_false] at hmem
      rcases hmem with h | h | h | h | h | h <;> exact gpr_ne (by decide) h
    · have hlt := t.isLt
      rw [hload, BitVec.toNat_ofNat, gpr_val, Nat.mod_eq_of_lt (by omega)]
  have hone := round_independent (S := S) (x := (m, k)) hzero hslot (1, 0)
  rw [round_independent hzero hslot due, ← hone]
  rfl

/-- The outcome of an instruction, with the exception handler. -/
def outcome (S : Services (κ × Memory × List TranslationEntry)) (k : κ) : Outcome → Except Stop (MachineState × κ)
  | .done m => .ok (m, k)
  | .exception which m =>
    match Exception.exceptionHandler S which m.registers (k, m.mainMemory, m.pageTable) with
    | .ok (r, k, mainMemory, pageTable) => .ok (⟨r, pageTable, mainMemory⟩, k)
    | .error stop => .error stop
  | .abort => .error .abort

theorem round_word (hw : m.word (m.registers PCReg) = some w) :
    ∃ pt, UserSpace.Same m.pageTable pt ∧
      round S (m, k) (0, 0) = outcome S k (execute ⟨m.registers, pt, m.mainMemory⟩ (decode w)) := by
  unfold word at hw
  split at hw
  · rename_i value pt hread
    cases hw
    refine ⟨pt, ?_, ?_⟩
    · unfold Machine.readMem at hread
      split at hread
      · cases hread
      · cases hread
      · rename_i pa pt' htranslate
        obtain ⟨e, he, -, -, -, -, hpt⟩ := Machine.translate_ok htranslate
        cases hread
        rw [hpt]
        exact UserSpace.same_set he rfl
    · show outcome S k (m.readThen (m.registers PCReg) 4 fun m raw => m.execute (decode raw)) = _
      unfold readThen
      rw [hread]
  · cases hw

/-- An instruction that comes to its end. -/
theorem round_done {r : Regs} (due : Nat × Nat) (h : Settled m.registers)
    (hw : m.word (m.registers PCReg) = some w)
    (hexec : ∀ pt, execute ⟨m.registers, pt, m.mainMemory⟩ (decode w) = .done ⟨r, pt, m.mainMemory⟩) :
    ∃ pt, UserSpace.Same m.pageTable pt ∧ round S (m, k) due = .ok (⟨r, pt, m.mainMemory⟩, k) := by
  obtain ⟨pt, hsame, hround⟩ := round_word (S := S) (k := k) hw
  exact ⟨pt, hsame, by rw [round_settled h, hround, hexec, outcome]⟩

theorem fetched_of_word (hw : m.word (m.registers PCReg) = some w) : m.fetched = some (decode w) := by
  unfold word at hw
  cases hread : Machine.readMem m.pageTable m.mainMemory (m.registers PCReg) 4 with
  | ok a =>
    simp only [hread, Option.some.injEq] at hw
    simp only [fetched, hread, hw]
  | raise e =>
    simp only [hread] at hw
    cases hw
  | abort =>
    simp only [hread] at hw
    cases hw

/-- The program counters are not where a load goes to. -/
theorem interrupt_special {t : Fin 32} (hload : m.registers LoadReg = BitVec.ofNat 32 t.val) {i : Fin NumTotalRegs}
    (hi : 32 ≤ i.val) (hreg : i ≠ LoadReg) (hvalue : i ≠ LoadValueReg) : m.interrupt.registers i = m.registers i := by
  have hlt := t.isLt
  rw [interrupt_registers, delayedLoad_apply _ _ _ (gpr_ne hi).symm hreg hvalue, completed, if_neg]
  rw [hload, BitVec.toNat_ofNat, Nat.mod_eq_of_lt (by omega)]
  omega

end MachineState

end Nachos
