import Nachos.Lib.Transition
import Nachos.Machine.Arithmetic

/-!
# Completing a delayed load early

`Interrupt::CheckIfDue` calls `DelayedLoad(0, 0)` before it invokes a handler, so an interrupt between
two instructions completes a load one instruction early.  Whether a program can notice that is a
matter of the registers it names.

* `reads`, `writes` — the registers an operation names, as the cases of `OneInstruction` have them.
* `Completes` — two machine states that differ by a pending load.
* `execute_completes` — an instruction that has nothing to do with the load ends in the same way.
* `oneInstruction_ends` — what an instruction has written when it calls `DelayedLoad` or raises an
  exception.
-/

set_option autoImplicit false

namespace Nachos

namespace Instruction

/-- The registers that the operation reads, the program counters apart. -/
def reads (instr : Instruction) : List (Fin NumTotalRegs) :=
  match instr.opCode with
  | .add | .addu | .and | .beq | .bne | .div | .divu | .lwl | .lwr | .mult | .multu | .nor | .sb | .sh | .sllv | .slt
  | .sltu | .srav | .srlv | .sub | .subu | .sw | .swl | .swr | .xor => [gpr instr.rs, gpr instr.rt]
  | .addi | .addiu | .andi | .bgez | .bgezal | .bgtz | .blez | .bltz | .bltzal | .jalr | .jr | .lb | .lbu | .lh | .lhu
  | .lw | .mthi | .mtlo | .or | .ori | .slti | .sltiu | .xori => [gpr instr.rs]
  | .sll | .sra | .srl => [gpr instr.rt]
  | .mfhi => [HiReg]
  | .mflo => [LoReg]
  | .j | .jal | .lui | .syscall | .res | .unimp | .rfe | .special | .bcond => []

/-- The registers that the operation writes, with or without delay. -/
def writes (instr : Instruction) : List (Fin NumTotalRegs) :=
  match instr.opCode with
  | .add | .addu | .and | .jalr | .mfhi | .mflo | .nor | .or | .sll | .sllv | .slt | .sltu | .sra | .srav | .srl | .srlv
  | .sub | .subu | .xor => [gpr instr.rd]
  | .addi | .addiu | .andi | .lb | .lbu | .lh | .lhu | .lui | .lw | .lwl | .lwr | .ori | .slti | .sltiu | .xori =>
    [gpr instr.rt]
  | .bgezal | .bltzal | .jal => [RetAddrReg]
  | .div | .divu | .mult | .multu => [HiReg, LoReg]
  | .mthi => [HiReg]
  | .mtlo => [LoReg]
  | .beq | .bgez | .bgtz | .blez | .bltz | .bne | .j | .jr | .sb | .sh | .sw | .swl | .swr | .syscall | .res | .unimp
  | .rfe | .special | .bcond => []

/-- The instruction neither reads nor writes register `t`.  r0 keeps its value whatever is loaded to
it, and only `OP_LWL` and `OP_LWR` look at the load itself. -/
def Independent (instr : Instruction) (t : Fin NumTotalRegs) : Prop :=
  if t = gpr 0 then instr.opCode ≠ .lwl ∧ instr.opCode ≠ .lwr else t ∉ instr.reads ∧ t ∉ instr.writes

instance (instr : Instruction) (t : Fin NumTotalRegs) : Decidable (instr.Independent t) :=
  inferInstanceAs (Decidable (ite _ _ _))

end Instruction

/-- The registers that `OneInstruction` and `RaiseException` use by themselves, for any operation. -/
def controlRegs : List (Fin NumTotalRegs) := [PCReg, NextPCReg, PrevPCReg, LoadReg, LoadValueReg, BadVAddrReg]

/-! ## A pending load -/

theorem delayedLoad_loadReg (nextReg nextValue : Word) (r : Regs) :
    delayedLoad nextReg nextValue r LoadReg = nextReg := by
  unfold delayedLoad
  rw [Function.update_of_ne (by decide), Function.update_of_ne (by decide), Function.update_self]

theorem delayedLoad_loadValueReg (nextReg nextValue : Word) (r : Regs) :
    delayedLoad nextReg nextValue r LoadValueReg = nextValue := by
  unfold delayedLoad
  rw [Function.update_of_ne (by decide), Function.update_self]

/-- r0 is 0 and no load is pending: the kernel finds the registers so. -/
structure Settled (r : Regs) : Prop where
  zero : r (gpr 0) = 0
  load : r LoadReg = 0
  loadValue : r LoadValueReg = 0

theorem settled_delayedLoad (r : Regs) : Settled (delayedLoad 0 0 r) :=
  ⟨delayedLoad_zero 0 0 r, delayedLoad_loadReg 0 0 r, delayedLoad_loadValueReg 0 0 r⟩

theorem Settled.delayedLoad {r : Regs} (h : Settled r) : delayedLoad 0 0 r = r := by
  funext i
  by_cases h0 : i = gpr 0
  · rw [h0, delayedLoad_zero, h.zero]
  by_cases hload : i = LoadReg
  · rw [hload, delayedLoad_loadReg, h.load]
  by_cases hvalue : i = LoadValueReg
  · rw [hvalue, delayedLoad_loadValueReg, h.loadValue]
  rw [delayedLoad_apply _ _ _ h0 hload hvalue, completed_of_idle h.load h0]

namespace MachineState

/-- What `CheckIfDue` does to the machine before it invokes a handler. -/
def interrupt (m : MachineState) : MachineState := { m with registers := delayedLoad 0 0 m.registers }

@[simp] theorem interrupt_registers (m : MachineState) : m.interrupt.registers = delayedLoad 0 0 m.registers := rfl

/-- `while (CheckIfDue(FALSE))`, with `n` handlers due. -/
def interrupts : Nat → MachineState → MachineState
  | 0, m => m
  | n + 1, m => interrupts n m.interrupt

theorem interrupts_settled {m : MachineState} (h : Settled m.registers) (n : Nat) : interrupts n m = m := by
  have hinterrupt : m.interrupt = m := by
    unfold interrupt
    rw [h.delayedLoad]
  induction n with
  | zero => rfl
  | succ n ih => rw [interrupts, hinterrupt, ih]

/-- The second handler finds nothing pending. -/
theorem interrupts_succ (m : MachineState) (n : Nat) : interrupts (n + 1) m = m.interrupt :=
  interrupts_settled (settled_delayedLoad m.registers) n

/-- The instruction that is executed next, if it can be fetched. -/
def fetched (m : MachineState) : Option Instruction :=
  match Machine.readMem m.pageTable m.mainMemory (m.registers PCReg) 4 with
  | .ok (raw, _) => some (Instruction.decode raw)
  | _ => none

/-- `m` has a load to `t` pending, and `m'` is the same state with that load completed. -/
structure Completes (t : Fin NumTotalRegs) (m m' : MachineState) : Prop where
  load : (m.registers LoadReg).toNat = t.val
  idle : m'.registers LoadReg = 0
  idleValue : m'.registers LoadValueReg = 0
  target : t ≠ gpr 0 → m'.registers t = m.registers LoadValueReg
  others : ∀ i, i ≠ t ∨ t = gpr 0 → i ≠ LoadReg → i ≠ LoadValueReg → m'.registers i = m.registers i
  pageTable : m'.pageTable = m.pageTable
  mainMemory : m'.mainMemory = m.mainMemory

variable {t : Fin NumTotalRegs} {m m' : MachineState}

theorem interrupt_completes (hload : (m.registers LoadReg).toNat = t.val) (ht : t ∉ controlRegs)
    (hzero : m.registers (gpr 0) = 0) : Completes t m m.interrupt := by
  have htload : t ≠ LoadReg := fun heq => ht (heq ▸ by decide)
  have htvalue : t ≠ LoadValueReg := fun heq => ht (heq ▸ by decide)
  refine ⟨hload, delayedLoad_loadReg 0 0 m.registers, delayedLoad_loadValueReg 0 0 m.registers, ?_, ?_, rfl, rfl⟩
  · intro h0
    rw [interrupt_registers, delayedLoad_apply 0 0 _ h0 htload htvalue, completed, if_pos hload]
  · intro i hi hiload hivalue
    by_cases h0 : i = gpr 0
    · rw [h0, hzero]
      exact delayedLoad_zero 0 0 m.registers
    · have hne : i ≠ t := hi.elim id fun heq => heq ▸ h0
      rw [interrupt_registers, delayedLoad_apply 0 0 _ h0 hiload hivalue, completed, if_neg]
      rw [hload]
      exact fun hval => hne (Fin.ext hval.symm)

namespace Completes

variable (h : Completes t m m')

include h

/-- The next `DelayedLoad` makes up for the difference. -/
theorem delayedLoad (nextReg nextValue : Word) :
    delayedLoad nextReg nextValue m'.registers = delayedLoad nextReg nextValue m.registers := by
  funext i
  by_cases h0 : i = gpr 0
  · rw [h0, delayedLoad_zero, delayedLoad_zero]
  by_cases hload : i = LoadReg
  · rw [hload, delayedLoad_loadReg, delayedLoad_loadReg]
  by_cases hvalue : i = LoadValueReg
  · rw [hvalue, delayedLoad_loadValueReg, delayedLoad_loadValueReg]
  rw [delayedLoad_apply _ _ _ h0 hload hvalue, delayedLoad_apply _ _ _ h0 hload hvalue]
  rw [completed_of_idle h.idle h0, completed, h.load]
  split
  · rename_i hval
    obtain rfl : t = i := Fin.ext hval
    exact h.target h0
  · rename_i hval
    exact h.others i (.inl fun heq => hval (heq ▸ rfl)) hload hvalue

/-- Both states write the same value to a register that the load does not concern. -/
theorem set {d : Fin NumTotalRegs} (hd : d ≠ t ∨ t = gpr 0) (hload : d ≠ LoadReg) (hvalue : d ≠ LoadValueReg)
    (v : Word) : Completes t (m.set d v) (m'.set d v) := by
  refine ⟨?_, ?_, ?_, ?_, ?_, h.pageTable, h.mainMemory⟩
  · rw [set_registers, Function.update_of_ne hload.symm]
    exact h.load
  · rw [set_registers, Function.update_of_ne hload.symm]
    exact h.idle
  · rw [set_registers, Function.update_of_ne hvalue.symm]
    exact h.idleValue
  · intro h0
    have hne : t ≠ d := (hd.resolve_right h0).symm
    rw [set_registers, set_registers, Function.update_of_ne hne, Function.update_of_ne hvalue.symm]
    exact h.target h0
  · intro i hi hiload hivalue
    rw [set_registers, set_registers, Function.update_apply, Function.update_apply,
      h.others i hi hiload hivalue]

/-- Both states have the memory and the page table changed in the same way. -/
theorem withMemory (mainMemory : Memory) (pageTable : List TranslationEntry) :
    Completes t { m with mainMemory := mainMemory, pageTable := pageTable }
      { m' with mainMemory := mainMemory, pageTable := pageTable } :=
  { h with pageTable := rfl, mainMemory := rfl }

theorem withPages (pageTable : List TranslationEntry) :
    Completes t { m with pageTable := pageTable } { m' with pageTable := pageTable } :=
  { h with pageTable := rfl }

theorem finish (pcAfter nextLoadReg nextLoadValue : Word) :
    m'.finish pcAfter nextLoadReg nextLoadValue = m.finish pcAfter nextLoadReg nextLoadValue := by
  unfold MachineState.finish
  rw [h.delayedLoad, h.pageTable, h.mainMemory]

theorem raiseException (ht : t ∉ controlRegs) (which : ExceptionType) (badVAddr : Word) :
    m'.raiseException which badVAddr = m.raiseException which badVAddr := by
  have hbad : BadVAddrReg ≠ t := fun heq => ht (heq ▸ by decide)
  have hset := h.set (.inl hbad) (by decide) (by decide) badVAddr
  unfold MachineState.raiseException
  rw [← set_registers, ← set_registers, hset.delayedLoad, h.pageTable, h.mainMemory]

theorem readThen (ht : t ∉ controlRegs) {addr : Word} {size : Nat} {k k' : MachineState → Word → Outcome}
    (hk : ∀ pageTable value, Machine.readMem m.pageTable m.mainMemory addr size = .ok (value, pageTable) →
      k' { m' with pageTable := pageTable } value = k { m with pageTable := pageTable } value) :
    m'.readThen addr size k' = m.readThen addr size k := by
  unfold MachineState.readThen
  rw [h.mainMemory] at hk
  rw [h.pageTable, h.mainMemory]
  split
  · exact hk _ _ ‹_›
  · exact h.raiseException ht _ _
  · rfl

theorem writeThen (ht : t ∉ controlRegs) {addr value : Word} {size : Nat} {k k' : MachineState → Outcome}
    (hk : ∀ mainMemory pageTable, k' { m' with mainMemory := mainMemory, pageTable := pageTable } =
      k { m with mainMemory := mainMemory, pageTable := pageTable }) :
    m'.writeThen addr size value k' = m.writeThen addr size value k := by
  unfold MachineState.writeThen
  rw [h.pageTable, h.mainMemory]
  split
  · exact hk _ _
  · exact h.raiseException ht _ _
  · rfl

end Completes

/-- The operations name general registers, Hi and Lo only. -/
theorem named_lt {instr : Instruction} {i : Fin NumTotalRegs} (hi : i ∈ instr.reads ∨ i ∈ instr.writes) :
    i.val < 34 := by
  have hgpr : ∀ j : Fin 32, (gpr j).val < 34 := fun j => Nat.lt_of_lt_of_le j.isLt (by decide)
  obtain ⟨op, rs, rt, rd, extra⟩ := instr
  cases op <;>
    simp only [Instruction.reads, Instruction.writes, List.mem_cons, List.not_mem_nil, or_false, false_or] at hi <;>
    grind [HiReg, LoReg, RetAddrReg]

/-- The value that `OP_LWL` and `OP_LWR` find for rt is the one in the register, in both states. -/
theorem Completes.pendingValue (h : Completes t m m') (hzero : m.registers (gpr 0) = 0) {rt : Fin 32}
    (hrt : t ≠ gpr rt) :
    MachineState.pendingValue m'.registers rt = MachineState.pendingValue m.registers rt := by
  have hreg := h.others (gpr rt) (.inl hrt.symm) (gpr_ne (by decide)) (gpr_ne (by decide))
  have hlt := rt.isLt
  have hright : MachineState.pendingValue m.registers rt = m.registers (gpr rt) := by
    unfold MachineState.pendingValue
    rw [if_neg]
    intro heq
    apply hrt
    rw [Fin.ext_iff, gpr_val, ← h.load, heq, BitVec.toNat_ofNat, Nat.mod_eq_of_lt (by omega)]
  rw [hright, ← hreg]
  unfold MachineState.pendingValue
  split
  · rename_i heq
    rw [h.idle] at heq
    have hval := congrArg BitVec.toNat heq
    rw [BitVec.toNat_ofNat, Nat.mod_eq_of_lt (by omega)] at hval
    have hrt0 : rt = 0 := Fin.ext hval.symm
    rw [h.idleValue, hreg, hrt0, hzero]
  · rfl

theorem independent_apart {instr : Instruction} (hind : instr.Independent t) {i : Fin NumTotalRegs}
    (hi : i ∈ instr.reads ∨ i ∈ instr.writes) : i ≠ t ∨ t = gpr 0 := by
  unfold Instruction.Independent at hind
  split at hind
  · exact .inr ‹_›
  · exact .inl fun heq => hi.elim (heq ▸ hind.1) (heq ▸ hind.2)

theorem named_ne_load {instr : Instruction} {i : Fin NumTotalRegs} (hi : i ∈ instr.reads ∨ i ∈ instr.writes) :
    i ≠ LoadReg ∧ i ≠ LoadValueReg := by
  have hlt := named_lt hi
  constructor
  · rintro rfl
    exact absurd hlt (by decide)
  · rintro rfl
    exact absurd hlt (by decide)

/-- Both states have the same operands. -/
theorem Completes.read (h : Completes t m m') {instr : Instruction} (hind : instr.Independent t)
    {i : Fin NumTotalRegs} (hi : i ∈ instr.reads) : m'.registers i = m.registers i :=
  h.others i (independent_apart hind (.inl hi)) (named_ne_load (.inl hi)).1 (named_ne_load (.inl hi)).2

/-- Both states store the result in the same way. -/
theorem Completes.write (h : Completes t m m') {instr : Instruction} (hind : instr.Independent t)
    {d : Fin NumTotalRegs} (hd : d ∈ instr.writes) (v : Word) : Completes t (m.set d v) (m'.set d v) :=
  h.set (independent_apart hind (.inr hd)) (named_ne_load (.inr hd)).1 (named_ne_load (.inr hd)).2 v

/-- **An instruction that has nothing to do with the pending load** ends in the same way before and
after its completion. -/
theorem execute_completes (h : Completes t m m') (ht : t ∉ controlRegs) (hzero : m.registers (gpr 0) = 0)
    {instr : Instruction} (hind : instr.Independent t) : m'.execute instr = m.execute instr := by
  have hread := fun i (hi : i ∈ instr.reads) => h.read hind hi
  have hset := fun {n n' : MachineState} (hn : Completes t n n') d (hd : d ∈ instr.writes) v => hn.write hind hd v
  have hnext : m'.registers NextPCReg = m.registers NextPCReg :=
    h.others _ (.inl fun heq => ht (heq ▸ by decide)) (by decide) (by decide)
  obtain ⟨op, rs, rt, rd, extra⟩ := instr
  cases op with
  | addu | and | nor | sllv | slt | sltu | srav | srlv | subu | xor =>
    have hrs := hread (gpr rs) (by simp [Instruction.reads])
    have hrt := hread (gpr rt) (by simp [Instruction.reads])
    simp only [execute, hrs, hrt, hnext]
    exact (hset h (gpr rd) (by simp [Instruction.writes]) _).finish _ _ _
  | add | sub =>
    have hrs := hread (gpr rs) (by simp [Instruction.reads])
    have hrt := hread (gpr rt) (by simp [Instruction.reads])
    simp only [execute, hrs, hrt, hnext]
    rw [h.raiseException ht, (hset h (gpr rd) (by simp [Instruction.writes]) _).finish]
  | addi =>
    have hrs := hread (gpr rs) (by simp [Instruction.reads])
    simp only [execute, hrs, hnext]
    rw [h.raiseException ht, (hset h (gpr rt) (by simp [Instruction.writes]) _).finish]
  | addiu | andi | ori | slti | sltiu | xori =>
    have hrs := hread (gpr rs) (by simp [Instruction.reads])
    simp only [execute, hrs, hnext]
    exact (hset h (gpr rt) (by simp [Instruction.writes]) _).finish _ _ _
  | lui =>
    simp only [execute, hnext]
    exact (hset h (gpr rt) (by simp [Instruction.writes]) _).finish _ _ _
  | or =>
    have hrs := hread (gpr rs) (by simp [Instruction.reads])
    simp only [execute, hrs, hnext]
    exact (hset h (gpr rd) (by simp [Instruction.writes]) _).finish _ _ _
  | sll | sra | srl =>
    have hrt := hread (gpr rt) (by simp [Instruction.reads])
    simp only [execute, hrt, hnext]
    exact (hset h (gpr rd) (by simp [Instruction.writes]) _).finish _ _ _
  | mfhi =>
    have hhi := hread HiReg (by simp [Instruction.reads])
    simp only [execute, hhi, hnext]
    exact (hset h (gpr rd) (by simp [Instruction.writes]) _).finish _ _ _
  | mflo =>
    have hlo := hread LoReg (by simp [Instruction.reads])
    simp only [execute, hlo, hnext]
    exact (hset h (gpr rd) (by simp [Instruction.writes]) _).finish _ _ _
  | mthi =>
    have hrs := hread (gpr rs) (by simp [Instruction.reads])
    simp only [execute, hrs, hnext]
    exact (hset h HiReg (by simp [Instruction.writes]) _).finish _ _ _
  | mtlo =>
    have hrs := hread (gpr rs) (by simp [Instruction.reads])
    simp only [execute, hrs, hnext]
    exact (hset h LoReg (by simp [Instruction.writes]) _).finish _ _ _
  | beq | bne =>
    have hrs := hread (gpr rs) (by simp [Instruction.reads])
    have hrt := hread (gpr rt) (by simp [Instruction.reads])
    simp only [execute, hrs, hrt, hnext]
    exact h.finish _ _ _
  | bgez | bgtz | blez | bltz | jr =>
    have hrs := hread (gpr rs) (by simp [Instruction.reads])
    simp only [execute, hrs, hnext]
    exact h.finish _ _ _
  | j =>
    simp only [execute, hnext]
    exact h.finish _ _ _
  | jal =>
    simp only [execute, hnext]
    exact (hset h RetAddrReg (by simp [Instruction.writes]) _).finish _ _ _
  | bgezal | bltzal =>
    -- the test comes after the link register is written, also where it is the same register
    have hlink := hset h RetAddrReg (by simp [Instruction.writes]) (m.registers NextPCReg + 4)
    have hrs := hread (gpr rs) (by simp [Instruction.reads])
    simp only [execute, hnext, set_registers, Function.update_apply, hrs]
    exact hlink.finish _ _ _
  | jalr =>
    have hlink := hset h (gpr rd) (by simp [Instruction.writes]) (m.registers NextPCReg + 4)
    have hrs := hread (gpr rs) (by simp [Instruction.reads])
    simp only [execute, hnext, set_registers, Function.update_apply, hrs]
    exact hlink.finish _ _ _
  | div | divu =>
    have hrs := hread (gpr rs) (by simp [Instruction.reads])
    have hrt := hread (gpr rt) (by simp [Instruction.reads])
    have hlo := hset h LoReg (by simp [Instruction.writes])
    have hboth := fun lo hi => hset (hlo lo) HiReg (by simp [Instruction.writes]) hi
    simp only [execute, hrs, hrt, hnext]
    rw [(hboth _ _).finish, (hboth _ _).finish]
  | mult | multu =>
    have hrs := hread (gpr rs) (by simp [Instruction.reads])
    have hrt := hread (gpr rt) (by simp [Instruction.reads])
    simp only [execute, hrs, hrt, hnext]
    exact (hset (hset h HiReg (by simp [Instruction.writes]) _) LoReg (by simp [Instruction.writes]) _).finish _ _ _
  | lb | lbu =>
    have hrs := hread (gpr rs) (by simp [Instruction.reads])
    simp only [execute, hrs, hnext]
    exact h.readThen ht fun pageTable value _ => (h.withPages pageTable).finish _ _ _
  | lh | lhu | lw =>
    have hrs := hread (gpr rs) (by simp [Instruction.reads])
    simp only [execute, hrs, hnext]
    rw [h.raiseException ht]
    refine if_congr Iff.rfl rfl ?_
    exact h.readThen ht fun pageTable value _ => (h.withPages pageTable).finish _ _ _
  | lwl | lwr =>
    have hrs := hread (gpr rs) (by simp [Instruction.reads])
    have hpending : MachineState.pendingValue m'.registers rt = MachineState.pendingValue m.registers rt := by
      apply h.pendingValue hzero
      unfold Instruction.Independent at hind
      split at hind
      · simp at hind
      · exact fun heq => hind.1 (by simp [Instruction.reads, heq])
    simp only [execute, hrs, hnext]
    refine if_congr Iff.rfl rfl (h.readThen ht fun pageTable value _ => ?_)
    dsimp only
    rw [hpending]
    exact (h.withPages pageTable).finish _ _ _
  | sb | sh | sw =>
    have hrs := hread (gpr rs) (by simp [Instruction.reads])
    have hrt := hread (gpr rt) (by simp [Instruction.reads])
    simp only [execute, hrs, hrt, hnext]
    exact h.writeThen ht fun mainMemory pageTable => (h.withMemory mainMemory pageTable).finish _ _ _
  | swl | swr =>
    have hrs := hread (gpr rs) (by simp [Instruction.reads])
    have hrt := hread (gpr rt) (by simp [Instruction.reads])
    simp only [execute, hrs, hrt, hnext]
    refine if_congr Iff.rfl rfl (h.readThen ht fun pageTable value _ => ?_)
    exact (h.withPages pageTable).writeThen ht fun mainMemory pageTable =>
      (h.withMemory mainMemory pageTable).finish _ _ _
  | syscall | res | unimp =>
    simp only [execute]
    exact h.raiseException ht _ _
  | rfe | special | bcond => rfl

/-- The same for the word that is fetched. -/
theorem oneInstruction_completes (h : Completes t m m') (ht : t ∉ controlRegs) (hzero : m.registers (gpr 0) = 0)
    (hind : ∀ instr, m.fetched = some instr → instr.Independent t) : m'.oneInstruction = m.oneInstruction := by
  have hpc : m'.registers PCReg = m.registers PCReg :=
    h.others _ (.inl fun heq => ht (heq ▸ by decide)) (by decide) (by decide)
  unfold oneInstruction
  rw [hpc]
  refine h.readThen ht fun pageTable raw hfetch => ?_
  refine execute_completes (h.withPages pageTable) ht hzero (hind _ ?_)
  unfold fetched
  rw [hfetch]

/-- The next instruction respects the load delay slot: no load is pending, or one to a register that
the instruction neither reads nor writes. -/
def RespectsSlot (m : MachineState) : Prop :=
  (m.registers LoadReg = 0 ∧ m.registers LoadValueReg = 0) ∨
  ∃ t : Fin NumTotalRegs, t ∉ controlRegs ∧ (m.registers LoadReg).toNat = t.val ∧
    ∀ instr, m.fetched = some instr → instr.Independent t

theorem interrupts_oneInstruction (hzero : m.registers (gpr 0) = 0) (hslot : m.RespectsSlot) (n : Nat) :
    (interrupts n m).oneInstruction = m.oneInstruction := by
  cases n with
  | zero => rfl
  | succ n =>
    rw [interrupts_succ]
    rcases hslot with ⟨hload, hvalue⟩ | ⟨t, ht, hload, hind⟩
    · exact congrArg oneInstruction (interrupts_settled ⟨hzero, hload, hvalue⟩ 1)
    · exact oneInstruction_completes (interrupt_completes hload ht hzero) ht hzero hind

/-! ## How an instruction ends -/

/-- `n` has the registers of `m`, but for those in `ws`. -/
def WritesOnly (m : MachineState) (ws : List (Fin NumTotalRegs)) (n : MachineState) : Prop :=
  ∀ i, i ∉ ws → n.registers i = m.registers i

theorem WritesOnly.refl (m : MachineState) (ws : List (Fin NumTotalRegs)) : m.WritesOnly ws m := fun _ _ => rfl

theorem WritesOnly.set {ws : List (Fin NumTotalRegs)} {n : MachineState} (h : m.WritesOnly ws n)
    {d : Fin NumTotalRegs} (hd : d ∈ ws) (v : Word) : m.WritesOnly ws (n.set d v) := by
  intro i hi
  have hne : i ≠ d := fun heq => hi (heq ▸ hd)
  rw [set_registers, Function.update_of_ne hne, h i hi]

/-- `OneInstruction` comes to its end, has written registers of `ws` only and asks for a load to a
general register; or it raises an exception and has not written a register before; or it aborts. -/
inductive Ends (m : MachineState) (ws : List (Fin NumTotalRegs)) : Outcome → Prop where
  | finish {n : MachineState} {pcAfter nextLoadReg nextLoadValue : Word} (hwrites : m.WritesOnly ws n)
      (hgeneral : nextLoadReg.toNat < NumGPRegs) : Ends m ws (n.finish pcAfter nextLoadReg nextLoadValue)
  | raise {n : MachineState} {which : ExceptionType} {badVAddr : Word} (hregisters : n.registers = m.registers) :
      Ends m ws (n.raiseException which badVAddr)
  | abort : Ends m ws .abort

namespace Ends

variable {n : MachineState} {ws : List (Fin NumTotalRegs)}

/-- The end of an operation that does not load. -/
theorem plain {pcAfter : Word} (hwrites : m.WritesOnly ws n) : Ends m ws (n.finish pcAfter 0 0) :=
  .finish hwrites (by decide)

/-- The end of an operation that loads to `rt`. -/
theorem load {pcAfter value : Word} {rt : Fin 32} (hregisters : n.registers = m.registers) :
    Ends m ws (n.finish pcAfter (BitVec.ofNat 32 rt.val) value) := by
  refine .finish (fun i _ => congrFun hregisters i) ?_
  have hlt := rt.isLt
  rw [BitVec.toNat_ofNat, Nat.mod_eq_of_lt (by omega)]
  exact hlt

theorem ite {c : Prop} [Decidable c] {a b : Outcome} (ha : Ends m ws a) (hb : Ends m ws b) :
    Ends m ws (if c then a else b) := by
  split
  · exact ha
  · exact hb

theorem readThen (hregisters : n.registers = m.registers) {addr : Word} {size : Nat}
    {k : MachineState → Word → Outcome}
    (hk : ∀ pageTable value, Ends m ws (k { n with pageTable := pageTable } value)) :
    Ends m ws (n.readThen addr size k) := by
  unfold MachineState.readThen
  split
  · exact hk _ _
  · exact .raise hregisters
  · exact .abort

theorem writeThen (hregisters : n.registers = m.registers) {addr value : Word} {size : Nat}
    {k : MachineState → Outcome}
    (hk : ∀ mainMemory pageTable, Ends m ws (k { n with mainMemory := mainMemory, pageTable := pageTable })) :
    Ends m ws (n.writeThen addr size value k) := by
  unfold MachineState.writeThen
  split
  · exact hk _ _
  · exact .raise hregisters
  · exact .abort

end Ends

theorem execute_ends (m : MachineState) (instr : Instruction) : Ends m instr.writes (m.execute instr) := by
  have hrefl := WritesOnly.refl m instr.writes
  have hset := fun d (hd : d ∈ instr.writes) v => hrefl.set hd v
  obtain ⟨op, rs, rt, rd, extra⟩ := instr
  cases op with
  | add | sub => exact .ite (.raise rfl) (.plain (hset (gpr rd) (by simp [Instruction.writes]) _))
  | addi => exact .ite (.raise rfl) (.plain (hset (gpr rt) (by simp [Instruction.writes]) _))
  | addu | and | nor | or | sll | sllv | slt | sltu | sra | srav | srl | srlv | subu | xor | mfhi | mflo | jalr =>
    exact .plain (hset (gpr rd) (by simp [Instruction.writes]) _)
  | addiu | andi | lui | ori | slti | sltiu | xori => exact .plain (hset (gpr rt) (by simp [Instruction.writes]) _)
  | beq | bne | bgez | bgtz | blez | bltz | j | jr => exact .plain hrefl
  | bgezal | bltzal | jal => exact .plain (hset RetAddrReg (by simp [Instruction.writes]) _)
  | mthi => exact .plain (hset HiReg (by simp [Instruction.writes]) _)
  | mtlo => exact .plain (hset LoReg (by simp [Instruction.writes]) _)
  | mult | multu =>
    have hhi := hset HiReg (by simp [Instruction.writes])
    exact .plain ((hhi _).set (by simp [Instruction.writes]) _)
  | div =>
    have hlo := hset LoReg (by simp [Instruction.writes])
    have hboth := fun lo hi => (hlo lo).set (d := HiReg) (by simp [Instruction.writes]) hi
    exact .ite (.plain (hboth _ _)) (.ite .abort (.plain (hboth _ _)))
  | divu =>
    have hlo := hset LoReg (by simp [Instruction.writes])
    have hboth := fun lo hi => (hlo lo).set (d := HiReg) (by simp [Instruction.writes]) hi
    exact .ite (.plain (hboth _ _)) (.plain (hboth _ _))
  | lb | lbu =>
    simp only [execute]
    refine .readThen (by rfl) fun pageTable value => ?_
    exact .load rfl
  | lh | lhu | lw =>
    refine .ite (.raise rfl) (.readThen (by rfl) fun pageTable value => ?_)
    exact .load rfl
  | lwl | lwr =>
    refine .ite .abort (.readThen (by rfl) fun pageTable value => ?_)
    exact .load rfl
  | sb | sh | sw =>
    simp only [execute]
    refine .writeThen (by rfl) fun mainMemory pageTable => ?_
    exact .plain hrefl
  | swl | swr =>
    refine .ite .abort (.readThen (by rfl) fun pageTable value => ?_)
    refine .writeThen (by rfl) fun mainMemory pageTable => ?_
    exact .plain hrefl
  | syscall | res | unimp => exact .raise rfl
  | rfe | special | bcond => exact .abort

/-- The registers that the next instruction writes. -/
def written (m : MachineState) : List (Fin NumTotalRegs) := m.fetched.elim [] Instruction.writes

/-- **How an instruction ends**, whatever the word that is fetched. -/
theorem oneInstruction_ends (m : MachineState) : Ends m m.written m.oneInstruction := by
  unfold oneInstruction written fetched MachineState.readThen
  cases Machine.readMem m.pageTable m.mainMemory (m.registers PCReg) 4 with
  | ok r =>
    have hexec := execute_ends { m with pageTable := r.2 } (Instruction.decode r.1)
    dsimp only [Option.elim]
    generalize MachineState.execute { m with pageTable := r.2 } (Instruction.decode r.1) = o at hexec ⊢
    cases hexec with
    | finish hwrites hgeneral => exact .finish hwrites hgeneral
    | raise hregisters => exact .raise hregisters
    | abort => exact .abort
  | raise which => exact .raise rfl
  | abort => exact .abort

theorem oneInstruction_done (h : m.oneInstruction = .done m') :
    ∃ n pcAfter nextLoadReg nextLoadValue, m.WritesOnly m.written n ∧ nextLoadReg.toNat < NumGPRegs ∧
      n.finish pcAfter nextLoadReg nextLoadValue = .done m' := by
  have hends := oneInstruction_ends m
  generalize m.oneInstruction = o at h hends
  cases hends with
  | finish hwrites hgeneral => exact ⟨_, _, _, _, hwrites, hgeneral, h⟩
  | raise hregisters => cases h
  | abort => cases h

theorem oneInstruction_exception {which : ExceptionType} (h : m.oneInstruction = .exception which m') :
    ∃ badVAddr, m'.registers = delayedLoad 0 0 (Function.update m.registers BadVAddrReg badVAddr) := by
  have hends := oneInstruction_ends m
  generalize m.oneInstruction = o at h hends
  cases hends with
  | finish hwrites hgeneral => cases h
  | raise hregisters =>
    cases h
    rw [← hregisters]
    exact ⟨_, rfl⟩
  | abort => cases h

end MachineState

end Nachos
