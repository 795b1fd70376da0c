import Nachos.Machine.Decode
import Nachos.Machine.Translate

/-!
# Executing one instruction

`Machine::OneInstruction` and `Mult` of `machine/mipssim.cc`, and `Machine::RaiseException` of
`machine/machine.cc` up to its call of `ExceptionHandler`.  Signed arithmetic of the host wraps.  An
instruction ends in `abort` where an `ASSERT` fails, and where the host divides -2^31 by -1: a
division that has no result.

* `execute_abort_iff` — the operations and operands that abort.
* `oneInstruction_abort_iff` — the same for the word that is fetched.
-/

set_option autoImplicit false

namespace Nachos

open Instruction

/-- `class Machine`: what an instruction reads and writes. -/
structure MachineState where
  registers : Regs
  pageTable : List TranslationEntry
  mainMemory : Memory

/-- `OneInstruction` returns, or calls `ExceptionHandler`, or ends the simulator. -/
inductive Outcome where
  | done (m : MachineState)
  | exception (which : ExceptionType) (m : MachineState)
  | abort

def SIGN_BIT : Word := 0x80000000

/-- `IndexToAddr(x)`. -/
def indexToAddr (x : Word) : Word := x <<< 2

/-- The loop of `Mult`, for `n` more bits of `a`. -/
def multLoop : Nat → Word → Word → Word → Word → Word → Word × Word
  | 0, _, _, _, hi, lo => (hi, lo)
  | n + 1, a, bHi, bLo, hi, lo =>
    let (hi, lo, stop) :=
      if a &&& 1 ≠ 0 then
        let lo := lo + bLo
        let hi := if lo < bLo then hi + 1 else hi
        (hi + bHi, lo, decide (a &&& 0xfffffffe = 0))
      else (hi, lo, false)
    if stop then (hi, lo)
    else
      let bHi := bHi <<< 1
      let bHi := if bLo &&& 0x80000000 ≠ 0 then bHi ||| 1 else bHi
      multLoop n (a.sshiftRight 1) bHi (bLo <<< 1) hi lo

/-- `Mult`: the new values of `*hiPtr` and `*loPtr`. -/
def mult (a b : Word) (signedArith : Bool) : Word × Word :=
  if a = 0 ∨ b = 0 then (0, 0)
  else
    let (negative, a) := if signedArith ∧ a.toInt < 0 then (true, -a) else (false, a)
    let (negative, b) := if signedArith ∧ b.toInt < 0 then (!negative, -b) else (negative, b)
    let (hi, lo) := multLoop 32 a 0 b 0 0
    if negative then
      let hi := ~~~hi
      let lo := ~~~lo + 1
      (if lo = 0 then hi + 1 else hi, lo)
    else (hi, lo)

namespace MachineState

/-- `Machine::RaiseException`. -/
def raiseException (m : MachineState) (which : ExceptionType) (badVAddr : Word) : Outcome :=
  .exception which
    { m with registers := delayedLoad 0 0 (Function.update m.registers BadVAddrReg badVAddr) }

/-- `if (!machine->ReadMem(addr, size, &value)) return;` and what follows. -/
def readThen (m : MachineState) (addr : Word) (size : Nat) (k : MachineState → Word → Outcome) : Outcome :=
  match Machine.readMem m.pageTable m.mainMemory addr size with
  | .ok (value, pageTable) => k { m with pageTable := pageTable } value
  | .raise exception => m.raiseException exception addr
  | .abort => .abort

/-- `if (!machine->WriteMem(addr, size, value)) return;` and what follows. -/
def writeThen (m : MachineState) (addr : Word) (size : Nat) (value : Word) (k : MachineState → Outcome) :
    Outcome :=
  match Machine.writeMem m.pageTable m.mainMemory addr size value with
  | .ok (mainMemory, pageTable) => k { m with mainMemory := mainMemory, pageTable := pageTable }
  | .raise exception => m.raiseException exception addr
  | .abort => .abort

/-- `registers[i] = v`. -/
def set (m : MachineState) (i : Fin NumTotalRegs) (v : Word) : MachineState :=
  { m with registers := Function.update m.registers i v }

/-- The end of `OneInstruction`: the delayed load, then the program counters. -/
def finish (m : MachineState) (pcAfter nextLoadReg nextLoadValue : Word) : Outcome :=
  let r := delayedLoad nextLoadReg nextLoadValue m.registers
  let r := Function.update r PrevPCReg (r PCReg)
  let r := Function.update r PCReg (r NextPCReg)
  let r := Function.update r NextPCReg pcAfter
  .done { m with registers := r }

/-- The word a load to `rt` finds there: what is still on its way counts. -/
def pendingValue (r : Regs) (rt : Fin 32) : Word :=
  if r LoadReg = BitVec.ofNat 32 rt.val then r LoadValueReg else r (gpr rt)

/-- `nextLoadValue` of `OP_LWL`. -/
def lwlValue (tmp nextLoadValue value : Word) : Word :=
  if tmp &&& 3 = 0 then value
  else if tmp &&& 3 = 1 then nextLoadValue &&& 0xff ||| value <<< 8
  else if tmp &&& 3 = 2 then nextLoadValue &&& 0xffff ||| value <<< 16
  else nextLoadValue &&& 0xffffff ||| value <<< 24

/-- `nextLoadValue` of `OP_LWR`. -/
def lwrValue (tmp nextLoadValue value : Word) : Word :=
  if tmp &&& 3 = 0 then nextLoadValue &&& 0xffffff00 ||| value.sshiftRight 24 &&& 0xff
  else if tmp &&& 3 = 1 then nextLoadValue &&& 0xffff0000 ||| value.sshiftRight 16 &&& 0xffff
  else if tmp &&& 3 = 2 then nextLoadValue &&& 0xff000000 ||| value.sshiftRight 8 &&& 0xffffff
  else value

/-- `value` of `OP_SWL`. -/
def swlValue (tmp value rt : Word) : Word :=
  if tmp &&& 3 = 0 then rt
  else if tmp &&& 3 = 1 then value &&& 0xff000000 ||| rt.sshiftRight 8 &&& 0xffffff
  else if tmp &&& 3 = 2 then value &&& 0xffff0000 ||| rt.sshiftRight 16 &&& 0xffff
  else value &&& 0xffffff00 ||| rt.sshiftRight 24 &&& 0xff

/-- `value` of `OP_SWR`. -/
def swrValue (tmp value rt : Word) : Word :=
  if tmp &&& 3 = 0 then value &&& 0xffffff ||| rt <<< 24
  else if tmp &&& 3 = 1 then value &&& 0xffff ||| rt <<< 16
  else if tmp &&& 3 = 2 then value &&& 0xff ||| rt <<< 8
  else rt

/-- The switch of `OneInstruction`. -/
def execute (m : MachineState) (instr : Instruction) : Outcome :=
  let r := m.registers
  let rs := r (gpr instr.rs)
  let rt := r (gpr instr.rt)
  let extra := instr.extra
  let pcAfter := r NextPCReg + 4
  let target := r NextPCReg + indexToAddr extra
  let tmp := rs + extra
  let setRd := fun v => (m.set (gpr instr.rd) v).finish pcAfter 0 0
  let setRt := fun v => (m.set (gpr instr.rt) v).finish pcAfter 0 0
  let branch := fun (m : MachineState) (taken : Bool) => m.finish (if taken then target else pcAfter) 0 0
  let load := fun (m : MachineState) value => m.finish pcAfter (BitVec.ofNat 32 instr.rt.val) value
  match instr.opCode with
  | .add =>
    let sum := rs + rt
    if (rs ^^^ rt) &&& SIGN_BIT = 0 ∧ (rs ^^^ sum) &&& SIGN_BIT ≠ 0 then m.raiseException .overflowException 0
    else setRd sum
  | .addi =>
    let sum := rs + extra
    if (rs ^^^ extra) &&& SIGN_BIT = 0 ∧ (extra ^^^ sum) &&& SIGN_BIT ≠ 0 then
      m.raiseException .overflowException 0
    else setRt sum
  | .addiu => setRt (rs + extra)
  | .addu => setRd (rs + rt)
  | .and => setRd (rs &&& rt)
  | .andi => setRt (rs &&& (extra &&& 0xffff))
  | .beq => branch m (rs = rt)
  | .bgezal =>
    let m := m.set RetAddrReg (r NextPCReg + 4)
    branch m (m.registers (gpr instr.rs) &&& SIGN_BIT = 0)
  | .bgez => branch m (rs &&& SIGN_BIT = 0)
  | .bgtz => branch m (0 < rs.toInt)
  | .blez => branch m (rs.toInt ≤ 0)
  | .bltzal =>
    let m := m.set RetAddrReg (r NextPCReg + 4)
    branch m (m.registers (gpr instr.rs) &&& SIGN_BIT ≠ 0)
  | .bltz => branch m (rs &&& SIGN_BIT ≠ 0)
  | .bne => branch m (rs ≠ rt)
  | .div =>
    if rt = 0 then ((m.set LoReg 0).set HiReg 0).finish pcAfter 0 0
    else if rs = SIGN_BIT ∧ rt = -1 then .abort
    else ((m.set LoReg (rs.sdiv rt)).set HiReg (rs.srem rt)).finish pcAfter 0 0
  | .divu =>
    if rt = 0 then ((m.set LoReg 0).set HiReg 0).finish pcAfter 0 0
    else ((m.set LoReg (rs / rt)).set HiReg (rs % rt)).finish pcAfter 0 0
  | .jal => (m.set RetAddrReg (r NextPCReg + 4)).finish (pcAfter &&& 0xf0000000 ||| indexToAddr extra) 0 0
  | .j => m.finish (pcAfter &&& 0xf0000000 ||| indexToAddr extra) 0 0
  | .jalr =>
    let m := m.set (gpr instr.rd) (r NextPCReg + 4)
    m.finish (m.registers (gpr instr.rs)) 0 0
  | .jr => m.finish rs 0 0
  | .lb => m.readThen tmp 1 fun m value =>
      load m (if value &&& 0x80 ≠ 0 then value ||| 0xffffff00 else value &&& 0xff)
  | .lbu => m.readThen tmp 1 fun m value => load m (value &&& 0xff)
  | .lh =>
    if tmp &&& 1 ≠ 0 then m.raiseException .addressErrorException tmp
    else m.readThen tmp 2 fun m value =>
      load m (if value &&& 0x8000 ≠ 0 then value ||| 0xffff0000 else value &&& 0xffff)
  | .lhu =>
    if tmp &&& 1 ≠ 0 then m.raiseException .addressErrorException tmp
    else m.readThen tmp 2 fun m value => load m (value &&& 0xffff)
  | .lui => setRt (extra <<< 16)
  | .lw =>
    if tmp &&& 3 ≠ 0 then m.raiseException .addressErrorException tmp
    else m.readThen tmp 4 fun m value => load m value
  | .lwl =>
    if tmp &&& 3 ≠ 0 then .abort
    else m.readThen tmp 4 fun m value => load m (lwlValue tmp (pendingValue m.registers instr.rt) value)
  | .lwr =>
    if tmp &&& 3 ≠ 0 then .abort
    else m.readThen tmp 4 fun m value => load m (lwrValue tmp (pendingValue m.registers instr.rt) value)
  | .mfhi => setRd (r HiReg)
  | .mflo => setRd (r LoReg)
  | .mthi => (m.set HiReg rs).finish pcAfter 0 0
  | .mtlo => (m.set LoReg rs).finish pcAfter 0 0
  | .mult => ((m.set HiReg (mult rs rt true).1).set LoReg (mult rs rt true).2).finish pcAfter 0 0
  | .multu => ((m.set HiReg (mult rs rt false).1).set LoReg (mult rs rt false).2).finish pcAfter 0 0
  | .nor => setRd (~~~(rs ||| rt))
  -- the source combines the first operand with itself
  | .or => setRd (rs ||| rs)
  | .ori => setRt (rs ||| (extra &&& 0xffff))
  | .sb => m.writeThen tmp 1 rt fun m => m.finish pcAfter 0 0
  | .sh => m.writeThen tmp 2 rt fun m => m.finish pcAfter 0 0
  | .sll => setRd (rt <<< extra)
  | .sllv => setRd (rt <<< (rs &&& 0x1f))
  | .slt => setRd (if rs.toInt < rt.toInt then 1 else 0)
  | .slti => setRt (if rs.toInt < extra.toInt then 1 else 0)
  | .sltiu => setRt (if rs < extra then 1 else 0)
  | .sltu => setRd (if rs < rt then 1 else 0)
  | .sra => setRd (rt.sshiftRight extra.toNat)
  | .srav => setRd (rt.sshiftRight (rs &&& 0x1f).toNat)
  -- the logical shifts are done on an `int` as well
  | .srl => setRd (rt.sshiftRight extra.toNat)
  | .srlv => setRd (rt.sshiftRight (rs &&& 0x1f).toNat)
  | .sub =>
    let diff := rs - rt
    if (rs ^^^ rt) &&& SIGN_BIT ≠ 0 ∧ (rs ^^^ diff) &&& SIGN_BIT ≠ 0 then m.raiseException .overflowException 0
    else setRd diff
  | .subu => setRd (rs - rt)
  | .sw => m.writeThen tmp 4 rt fun m => m.finish pcAfter 0 0
  | .swl =>
    if tmp &&& 3 ≠ 0 then .abort
    else m.readThen (tmp &&& ~~~3) 4 fun m value =>
      m.writeThen (tmp &&& ~~~3) 4 (swlValue tmp value rt) fun m => m.finish pcAfter 0 0
  | .swr =>
    if tmp &&& 3 ≠ 0 then .abort
    else m.readThen (tmp &&& ~~~3) 4 fun m value =>
      m.writeThen (tmp &&& ~~~3) 4 (swrValue tmp value rt) fun m => m.finish pcAfter 0 0
  | .syscall => m.raiseException .syscallException 0
  | .xor => setRd (rs ^^^ rt)
  | .xori => setRt (rs ^^^ (extra &&& 0xffff))
  | .res => m.raiseException .illegalInstrException 0
  | .unimp => m.raiseException .illegalInstrException 0
  | .rfe => .abort
  | .special => .abort
  | .bcond => .abort

/-- `Machine::OneInstruction`. -/
def oneInstruction (m : MachineState) : Outcome :=
  m.readThen (m.registers PCReg) 4 fun m raw => m.execute (decode raw)

/-! ## Where the simulator aborts -/

variable {m : MachineState}

@[simp] theorem finish_ne_abort {pcAfter nextLoadReg nextLoadValue : Word} :
    m.finish pcAfter nextLoadReg nextLoadValue ≠ .abort := by
  nofun

@[simp] theorem raiseException_ne_abort {which : ExceptionType} {badVAddr : Word} :
    m.raiseException which badVAddr ≠ .abort := by
  nofun

theorem ite_abort_iff {c : Prop} [Decidable c] {a b : Outcome} :
    (if c then a else b) = .abort ↔ (c ∧ a = .abort) ∨ (¬ c ∧ b = .abort) := by
  split <;> simp_all

/-- An access by itself does not abort. -/
theorem readThen_abort_iff {addr : Word} {size : Nat} {k : MachineState → Word → Outcome}
    (hsize : size = 1 ∨ size = 2 ∨ size = 4) :
    m.readThen addr size k = .abort ↔
      ∃ value pageTable, Machine.readMem m.pageTable m.mainMemory addr size = .ok (value, pageTable) ∧
        k { m with pageTable := pageTable } value = .abort := by
  unfold readThen
  cases hr : Machine.readMem m.pageTable m.mainMemory addr size with
  | ok r =>
    obtain ⟨value, pageTable⟩ := r
    simp
  | raise e => simp
  | abort => exact absurd hr (Machine.readMem_ne_abort hsize)

theorem writeThen_abort_iff {addr value : Word} {size : Nat} {k : MachineState → Outcome}
    (hsize : size = 1 ∨ size = 2 ∨ size = 4) :
    m.writeThen addr size value k = .abort ↔
      ∃ mainMemory pageTable,
        Machine.writeMem m.pageTable m.mainMemory addr size value = .ok (mainMemory, pageTable) ∧
        k { m with mainMemory := mainMemory, pageTable := pageTable } = .abort := by
  unfold writeThen
  cases hw : Machine.writeMem m.pageTable m.mainMemory addr size value with
  | ok r =>
    obtain ⟨mainMemory, pageTable⟩ := r
    simp
  | raise e => simp
  | abort => exact absurd hw (Machine.writeMem_ne_abort hsize)

/-- The operands an operation aborts on: an unaligned address, or -2^31 divided by -1. -/
def Aborts (r : Regs) (instr : Instruction) : Prop :=
  (instr.opCode ∈ [.lwl, .lwr, .swl, .swr] ∧ (r (gpr instr.rs) + instr.extra) &&& 3 ≠ 0) ∨
  (instr.opCode = .div ∧ r (gpr instr.rs) = SIGN_BIT ∧ r (gpr instr.rt) = -1)

theorem execute_abort_iff {instr : Instruction} (h : Legal instr.opCode) :
    m.execute instr = .abort ↔ Aborts m.registers instr := by
  obtain ⟨op, rs, rt, rd, extra⟩ := instr
  cases op with
  | rfe => exact absurd rfl h.1
  | special => exact absurd rfl h.2.1
  | bcond => exact absurd rfl h.2.2
  | div =>
    -- a zero divisor is tested for, and it is not -1
    have hne : m.registers (gpr rt) = -1 → m.registers (gpr rt) ≠ 0 := by
      intro h1 h0
      rw [h1] at h0
      exact absurd h0 (by decide)
    simp only [execute, Aborts, ite_abort_iff, finish_ne_abort, List.mem_cons, reduceCtorEq, List.not_mem_nil,
      or_self, false_and, true_and, and_false, and_true, false_or, or_false]
    exact ⟨fun habort => habort.2, fun hops => ⟨hne hops.2, hops⟩⟩
  | _ => simp [execute, Aborts, ite_abort_iff, readThen_abort_iff, writeThen_abort_iff]

/-- The words and operands that end the simulator: `LWL`, `LWR`, `SWL` or `SWR` with an address that
is no multiple of 4, and `DIV` of -2^31 by -1. -/
def Crashes (r : Regs) (value : Word) : Prop :=
  (opField value ∈ [0x22, 0x26, 0x2a, 0x2e] ∧
    (r (gpr (regField value 21)) + (value.setWidth 16).signExtend 32) &&& 3 ≠ 0) ∨
  (opField value = 0 ∧ functField value = 0x1a ∧
    r (gpr (regField value 21)) = SIGN_BIT ∧ r (gpr (regField value 16)) = -1)

theorem aborts_decode_iff (r : Regs) (value : Word) : Aborts r (decode value) ↔ Crashes r value := by
  unfold Aborts Crashes
  rw [decode_unaligned, decode_div, and_assoc]
  refine or_congr ?_ Iff.rfl
  constructor
  · rintro ⟨hop, haddr⟩
    rw [decode_extra hop] at haddr
    exact ⟨hop, haddr⟩
  · rintro ⟨hop, haddr⟩
    refine ⟨hop, ?_⟩
    rw [decode_extra hop]
    exact haddr

/-- **An instruction completes or raises an exception**, whatever the word, the registers and the
page table, unless the word is one of the five that crash and its operands are such. -/
theorem oneInstruction_completes_or_raises_iff (m : MachineState) :
    m.oneInstruction ≠ .abort ↔
      ∀ value pageTable, Machine.readMem m.pageTable m.mainMemory (m.registers PCReg) 4 = .ok (value, pageTable) →
        ¬ Crashes m.registers value := by
  rw [ne_eq, oneInstruction, readThen_abort_iff (by decide)]
  simp only [execute_abort_iff (decode_legal _), aborts_decode_iff]
  push Not
  exact Iff.rfl

/-- A program of one word, in an address space of nine pages. -/
def oneWord (value rs rt : Word) : MachineState where
  registers := Function.update (Function.update (fun _ => 0) (gpr 1) rs) (gpr 2) rt
  pageTable := (List.range 9).map fun i => ⟨i, i, true, false, false, false⟩
  mainMemory := Bytes.byte value

/-- `lwl $2, 0($1)` with 1 in `$1`, and `div $1, $2` with -2^31 and -1. -/
theorem oneInstruction_aborts_oneWord :
    (oneWord 0x88220000 1 0).oneInstruction = .abort ∧
    (oneWord 0x0022001a 0x80000000 0xffffffff).oneInstruction = .abort :=
  ⟨rfl, rfl⟩

end MachineState

end Nachos
