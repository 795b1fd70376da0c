import Nachos.Machine.MipsSim

/-!
# The integer instructions

What the cases of `Machine::OneInstruction` without memory access leave in the registers, against
the results that the MIPS architecture defines.

* `oneInstruction_computes_iff` — the operations that never trap: the operands for which the
  destination receives the architecture's result.
* `oneInstruction_trapping` — `OP_ADD`, `OP_ADDI` and `OP_SUB`: overflow is recognised exactly, and
  the handler finds the registers as they were before.
-/

set_option autoImplicit false

namespace Nachos

open Instruction

/-! ## The end of an instruction -/

/-- Register `i` after the completion of a pending delayed load. -/
def completed (r : Regs) (i : Fin NumTotalRegs) : Word :=
  if (r LoadReg).toNat = i.val then r LoadValueReg else r i

theorem storeReg_apply (r : Regs) (i v : Word) (j : Fin NumTotalRegs) :
    storeReg r i v j = if i.toNat = j.val then v else r j := by
  unfold storeReg
  split
  · rename_i hi
    rw [Function.update_apply]
    simp only [Fin.ext_iff, eq_comm]
  · rename_i hi
    rw [if_neg]
    intro heq
    exact hi (heq ▸ j.isLt)

theorem gpr_val (i : Fin 32) : (gpr i).val = i.val := rfl

@[simp] theorem gpr_inj {i j : Fin 32} : gpr i = gpr j ↔ i = j := by
  rw [Fin.ext_iff, gpr_val, gpr_val, ← Fin.ext_iff]

/-- The general registers are not among the special ones. -/
theorem gpr_ne {i : Fin 32} {s : Fin NumTotalRegs} (hs : 32 ≤ s.val) : gpr i ≠ s := by
  intro heq
  have hi := i.isLt
  rw [← gpr_val, heq] at hi
  omega

theorem completed_update_of_ne (r : Regs) (d : Fin 32) (v : Word) {i : Fin NumTotalRegs} (hi : i ≠ gpr d) :
    completed (Function.update r (gpr d) v) i = completed r i := by
  unfold completed
  rw [Function.update_of_ne (gpr_ne (by decide)).symm, Function.update_of_ne (gpr_ne (by decide)).symm,
    Function.update_of_ne hi]

/-- A result is lost when a load to the same register completes after it. -/
theorem completed_update_self (r : Regs) (d : Fin 32) (v : Word) :
    completed (Function.update r (gpr d) v) (gpr d) =
      if (r LoadReg).toNat = d.val then r LoadValueReg else v := by
  unfold completed
  rw [Function.update_of_ne (gpr_ne (by decide)).symm, Function.update_of_ne (gpr_ne (by decide)).symm,
    Function.update_self, gpr_val]

/-- Without a load pending the indexed store goes to r0. -/
theorem completed_of_idle {r : Regs} (h : r LoadReg = 0) {i : Fin NumTotalRegs} (hi : i ≠ gpr 0) :
    completed r i = r i := by
  unfold completed
  rw [h, if_neg]
  exact fun hval => hi (Fin.ext hval.symm)

theorem delayedLoad_zero (nextReg nextValue : Word) (r : Regs) :
    delayedLoad nextReg nextValue r (gpr 0) = 0 := by
  unfold delayedLoad
  rw [Function.update_self]

/-- `DelayedLoad` completes the pending load and changes nothing else but the load registers and r0. -/
theorem delayedLoad_apply (nextReg nextValue : Word) (r : Regs) {i : Fin NumTotalRegs} (h0 : i ≠ gpr 0)
    (hload : i ≠ LoadReg) (hvalue : i ≠ LoadValueReg) :
    delayedLoad nextReg nextValue r i = completed r i := by
  unfold delayedLoad completed
  rw [Function.update_of_ne h0, Function.update_of_ne hvalue, Function.update_of_ne hload, storeReg_apply]

namespace MachineState

/-- What `OneInstruction` leaves behind when it gets to its end in the state `m`. -/
structure Advanced (m : MachineState) (pcAfter : Word) (m' : MachineState) : Prop where
  zero : m'.registers (gpr 0) = 0
  general : ∀ j ≠ 0, m'.registers (gpr j) = completed m.registers (gpr j)
  hi : m'.registers HiReg = completed m.registers HiReg
  lo : m'.registers LoReg = completed m.registers LoReg
  pc : m'.registers PCReg = completed m.registers NextPCReg
  nextPC : m'.registers NextPCReg = pcAfter
  memory : m'.mainMemory = m.mainMemory
  pages : m'.pageTable = m.pageTable

theorem finish_advanced (m : MachineState) (pcAfter nextLoadReg nextLoadValue : Word) :
    ∃ m', m.finish pcAfter nextLoadReg nextLoadValue = .done m' ∧ m.Advanced pcAfter m' := by
  unfold finish
  have hzero := delayedLoad_zero nextLoadReg nextLoadValue m.registers
  have hload {i : Fin NumTotalRegs} := delayedLoad_apply nextLoadReg nextLoadValue m.registers (i := i)
  generalize delayedLoad nextLoadReg nextLoadValue m.registers = d at hzero hload
  -- the program counters are updated after it, and no other register
  have hother : ∀ i, i ≠ NextPCReg → i ≠ PCReg → i ≠ PrevPCReg →
      Function.update (Function.update (Function.update d PrevPCReg (d PCReg)) PCReg
        (Function.update d PrevPCReg (d PCReg) NextPCReg)) NextPCReg pcAfter i = d i := by
    intro i hnext hpc hprev
    rw [Function.update_of_ne hnext, Function.update_of_ne hpc, Function.update_of_ne hprev]
  refine ⟨_, rfl, ?_, ?_, ?_, ?_, ?_, ?_, rfl, rfl⟩
  · exact (hother _ (gpr_ne (by decide)) (gpr_ne (by decide)) (gpr_ne (by decide))).trans hzero
  · intro j hj
    apply (hother _ (gpr_ne (by decide)) (gpr_ne (by decide)) (gpr_ne (by decide))).trans
    exact hload (by simpa using hj) (gpr_ne (by decide)) (gpr_ne (by decide))
  · apply (hother HiReg (by decide) (by decide) (by decide)).trans
    exact hload (by decide) (by decide) (by decide)
  · apply (hother LoReg (by decide) (by decide) (by decide)).trans
    exact hload (by decide) (by decide) (by decide)
  · dsimp only
    rw [Function.update_of_ne (by decide), Function.update_self, Function.update_of_ne (by decide)]
    exact hload (by decide) (by decide) (by decide)
  · dsimp only
    rw [Function.update_self]

@[simp] theorem set_registers (m : MachineState) (i : Fin NumTotalRegs) (v : Word) :
    (m.set i v).registers = Function.update m.registers i v := rfl

end MachineState

/-! ## Immediates and shift amounts -/

namespace Instruction

/-- The operations with a destination `rt` and an immediate operand. -/
def immediateOps : List OpCode := [.addi, .addiu, .andi, .ori, .xori, .lui, .slti, .sltiu]

/-- The shifts by the amount that stands in the instruction. -/
def shiftOps : List OpCode := [.sll, .srl, .sra]

/-- The immediate field of the instruction. -/
def immediate (value : Word) : BitVec 16 := value.setWidth 16

/-- The shift amount that stands in the instruction. -/
def shamt (value : Word) : Nat := ((value >>> 6).setWidth 5).toNat

theorem decode_extra_immediate {value : Word} (h : (decode value).opCode ∈ immediateOps) :
    (decode value).extra = (immediate value).signExtend 32 := by
  have hspecial : ∀ op ∈ immediateOps, ∀ i, specialTable.get i ≠ op := by decide
  have hbcond : ∀ op ∈ immediateOps, op ∉ [OpCode.bltz, .bgez, .bltzal, .bgezal, .unimp] := by decide
  have hlegal : ∀ op ∈ immediateOps, Legal op := by decide
  have hformat : ∀ i, (opTable.get i).1 ∈ immediateOps → (opTable.get i).2 = .ifmt := by decide
  have hfirst := (decode_opCode_iff (hspecial _ h) (hbcond _ h) (hlegal _ h) value).mp rfl
  rw [← hfirst] at h
  unfold immediate
  rw [← extraField_ifmt, ← hformat _ h]
  rfl

theorem decode_extra_shift {value : Word} (h : (decode value).opCode ∈ shiftOps) :
    (decode value).extra.toNat = shamt value := by
  have hfirst : (opTable.get (opField value)).1 = .special := by
    have hnone : ∀ i, (opTable.get i).1 ∉ shiftOps := by decide
    have hbcond : ∀ op ∈ [OpCode.bltz, .bgez, .bltzal, .bgezal, .unimp], op ∉ shiftOps := by decide
    simp only [decode] at h
    split at h
    · assumption
    · exact absurd h (hbcond _ (bcondOp_mem value))
    · exact absurd h (hnone _)
  have hformat : ∀ i, (opTable.get i).1 = .special → (opTable.get i).2 = .rfmt := by decide
  have hextra : (decode value).extra = (value >>> 6) &&& 0x1f := by
    show extraField value (opTable.get (opField value)).2 = _
    rw [hformat _ hfirst]
    rfl
  rw [hextra, BitVec.toNat_and, show (0x1f : Word).toNat = 2 ^ 5 - 1 from rfl, Nat.and_two_pow_sub_one_eq_mod,
    shamt, BitVec.toNat_setWidth]

theorem shamt_lt (value : Word) : shamt value < 32 := BitVec.isLt _

end Instruction

/-! ## The operations that never trap -/

/-- The integer operations without overflow. -/
def integerOps : List OpCode :=
  [.addu, .addiu, .subu, .and, .andi, .or, .ori, .xor, .xori, .nor, .lui, .sll, .sllv, .srl, .srlv, .sra, .srav,
    .slt, .slti, .sltu, .sltiu]

/-- The register that receives the result. -/
def Instruction.destination (instr : Instruction) : Fin 32 :=
  if instr.opCode ∈ immediateOps then instr.rt else instr.rd

/-- What the architecture defines an operation to compute. -/
def archResult (op : OpCode) (rs rt : Word) (imm : BitVec 16) (shamt : Nat) : Word :=
  match op with
  | .addu => rs + rt
  | .addiu => rs + imm.signExtend 32
  | .subu => rs - rt
  | .and => rs &&& rt
  | .andi => rs &&& imm.setWidth 32
  | .or => rs ||| rt
  | .ori => rs ||| imm.setWidth 32
  | .xor => rs ^^^ rt
  | .xori => rs ^^^ imm.setWidth 32
  | .nor => ~~~(rs ||| rt)
  | .lui => imm ++ (0 : BitVec 16)
  | .sll => rt <<< shamt
  | .sllv => rt <<< (rs.toNat % 32)
  | .srl => rt >>> shamt
  | .srlv => rt >>> (rs.toNat % 32)
  | .sra => rt.sshiftRight shamt
  | .srav => rt.sshiftRight (rs.toNat % 32)
  | .slt => if rs.toInt < rt.toInt then 1 else 0
  | .slti => if rs.toInt < imm.toInt then 1 else 0
  | .sltu => if rs.toNat < rt.toNat then 1 else 0
  | .sltiu => if rs.toNat < (imm.signExtend 32).toNat then 1 else 0
  | _ => 0

/-- The operands for which the simulator computes it: `OP_OR` combines rs with itself, and the two
logical right shifts keep the sign. -/
def ComputesOn (op : OpCode) (rs rt : Word) (shamt : Nat) : Prop :=
  match op with
  | .or => rt &&& ~~~rs = 0
  | .srl => shamt = 0 ∨ rt.msb = false
  | .srlv => rs.toNat % 32 = 0 ∨ rt.msb = false
  | _ => True

theorem or_self_eq_iff (rs rt : Word) : rs ||| rs = rs ||| rt ↔ rt &&& ~~~rs = 0 := by
  rw [BitVec.or_self]
  constructor
  · intro h
    rw [h, BitVec.not_or]
    ext i hi
    simp
    grind
  · intro h
    ext i hi
    have hbit := congrArg (fun w : Word => w.getLsbD i) h
    simp [hi] at hbit ⊢
    grind

/-- The two right shifts differ in the bits that come in. -/
theorem sshiftRight_eq_ushiftRight_iff (x : Word) {n : Nat} (hn : n < 32) :
    x.sshiftRight n = x >>> n ↔ n = 0 ∨ x.msb = false := by
  constructor
  · intro h
    by_cases h0 : n = 0
    · exact .inl h0
    · right
      have hbit := congrArg BitVec.msb h
      rw [BitVec.msb_sshiftRight, BitVec.msb_ushiftRight] at hbit
      simpa [h0] using hbit
  · rintro (rfl | hmsb)
    · simp
    · exact BitVec.sshiftRight_eq_of_msb_false hmsb

theorem low_five (rs : Word) : (rs &&& 0x1f).toNat = rs.toNat % 32 := by
  rw [BitVec.toNat_and, show (0x1f : Word).toNat = 2 ^ 5 - 1 from rfl, Nat.and_two_pow_sub_one_eq_mod]

theorem signExtend_and_ffff (imm : BitVec 16) : imm.signExtend 32 &&& 0xffff = imm.setWidth 32 := by
  rw [and_ffff]
  ext i hi
  by_cases hlow : i < 16
  · simp [hlow, hi, BitVec.getElem_signExtend]
  · simp [hlow, BitVec.getLsbD_of_ge imm i (by omega)]

theorem signExtend_shiftLeft (imm : BitVec 16) : imm.signExtend 32 <<< (16 : Nat) = imm ++ (0 : BitVec 16) := by
  ext i hi
  rw [BitVec.getElem_shiftLeft, BitVec.getElem_append]
  by_cases hlow : i < 16
  · simp [hlow]
  · have hbit : i - 16 < 16 := by omega
    simp [hlow, BitVec.getElem_signExtend, hbit]

namespace MachineState

/-- One of these operations stores a value in its destination, and it is the architecture's result
exactly on the operands of `ComputesOn`. -/
theorem execute_integer (m : MachineState) (instr : Instruction) {imm : BitVec 16} {shamt : Nat}
    (hop : instr.opCode ∈ integerOps) (himm : instr.opCode ∈ immediateOps → instr.extra = imm.signExtend 32)
    (hshift : instr.opCode ∈ shiftOps → instr.extra.toNat = shamt) (hshamt : shamt < 32) :
    ∃ v, m.execute instr = (m.set (gpr instr.destination) v).finish (m.registers NextPCReg + 4) 0 0 ∧
      (v = archResult instr.opCode (m.registers (gpr instr.rs)) (m.registers (gpr instr.rt)) imm shamt ↔
        ComputesOn instr.opCode (m.registers (gpr instr.rs)) (m.registers (gpr instr.rt)) shamt) := by
  obtain ⟨op, rs, rt, rd, extra⟩ := instr
  dsimp only at hop himm hshift
  cases op with
  | or => exact ⟨_, rfl, or_self_eq_iff _ _⟩
  | srl =>
    refine ⟨_, rfl, ?_⟩
    rw [← hshift (by decide)] at hshamt ⊢
    exact sshiftRight_eq_ushiftRight_iff _ hshamt
  | srlv =>
    refine ⟨_, rfl, ?_⟩
    rw [low_five]
    exact sshiftRight_eq_ushiftRight_iff _ (Nat.mod_lt _ (by decide))
  | addu => exact ⟨_, rfl, iff_of_true rfl trivial⟩
  | subu => exact ⟨_, rfl, iff_of_true rfl trivial⟩
  | and => exact ⟨_, rfl, iff_of_true rfl trivial⟩
  | xor => exact ⟨_, rfl, iff_of_true rfl trivial⟩
  | nor => exact ⟨_, rfl, iff_of_true rfl trivial⟩
  | slt => exact ⟨_, rfl, iff_of_true rfl trivial⟩
  | sltu => exact ⟨_, rfl, iff_of_true rfl trivial⟩
  | addiu =>
    refine ⟨_, rfl, iff_of_true ?_ trivial⟩
    rw [himm (by decide)]
    rfl
  | andi =>
    refine ⟨_, rfl, iff_of_true ?_ trivial⟩
    rw [himm (by decide), signExtend_and_ffff]
    rfl
  | ori =>
    refine ⟨_, rfl, iff_of_true ?_ trivial⟩
    rw [himm (by decide), signExtend_and_ffff]
    rfl
  | xori =>
    refine ⟨_, rfl, iff_of_true ?_ trivial⟩
    rw [himm (by decide), signExtend_and_ffff]
    rfl
  | lui =>
    refine ⟨_, rfl, iff_of_true ?_ trivial⟩
    rw [himm (by decide)]
    exact signExtend_shiftLeft imm
  | slti =>
    refine ⟨_, rfl, iff_of_true ?_ trivial⟩
    rw [himm (by decide), BitVec.toInt_signExtend_of_le (by omega)]
    rfl
  | sltiu =>
    refine ⟨_, rfl, iff_of_true ?_ trivial⟩
    rw [himm (by decide)]
    rfl
  | sll =>
    refine ⟨_, rfl, iff_of_true ?_ trivial⟩
    rw [← hshift (by decide)]
    rfl
  | sra =>
    refine ⟨_, rfl, iff_of_true ?_ trivial⟩
    rw [← hshift (by decide)]
    rfl
  | sllv =>
    refine ⟨_, rfl, iff_of_true ?_ trivial⟩
    rw [BitVec.shiftLeft_eq', low_five]
    rfl
  | srav =>
    refine ⟨_, rfl, iff_of_true ?_ trivial⟩
    rw [low_five]
    rfl
  | _ => exact absurd hop (by decide)

/-- The destination holds the architecture's result, and every other general register has kept its
value: r0 is 0. -/
structure Computes (m : MachineState) (value : Word) (m' : MachineState) : Prop where
  result : (decode value).destination ≠ 0 →
    m'.registers (gpr (decode value).destination) =
      archResult (decode value).opCode (m.registers (gpr (decode value).rs)) (m.registers (gpr (decode value).rt))
        (immediate value) (shamt value)
  others : ∀ j ≠ 0, j ≠ (decode value).destination → m'.registers (gpr j) = m.registers (gpr j)
  zero : m'.registers (gpr 0) = 0

/-- An instruction without a load pending leaves the general registers as they are. -/
theorem completed_idle {r : Regs} (h : r LoadReg = 0) {j : Fin 32} (hj : j ≠ 0) : completed r (gpr j) = r (gpr j) :=
  completed_of_idle h (by simpa using hj)

/-- **The integer instructions compute the MIPS results**, except that `OP_OR` needs the bits of rt
among those of rs, and `OP_SRL` and `OP_SRLV` a shift by 0 or a rt that is not negative. -/
theorem oneInstruction_computes_iff (m : MachineState) {value : Word} {pageTable : List TranslationEntry}
    (hfetch : Machine.readMem m.pageTable m.mainMemory (m.registers PCReg) 4 = .ok (value, pageTable))
    (hload : m.registers LoadReg = 0) (hop : (decode value).opCode ∈ integerOps) :
    (∃ m', m.oneInstruction = .done m' ∧ m.Computes value m') ↔
      (decode value).destination = 0 ∨
        ComputesOn (decode value).opCode (m.registers (gpr (decode value).rs)) (m.registers (gpr (decode value).rt))
          (shamt value) := by
  obtain ⟨v, hexec, hv⟩ := execute_integer { m with pageTable := pageTable } (decode value) hop
    decode_extra_immediate decode_extra_shift (shamt_lt value)
  obtain ⟨m', hdone, hadv⟩ := finish_advanced
    (({ m with pageTable := pageTable } : MachineState).set (gpr (decode value).destination) v)
    (m.registers NextPCReg + 4) 0 0
  have hone : m.oneInstruction = .done m' := by
    unfold oneInstruction readThen
    rw [hfetch]
    exact hexec.trans hdone
  have hdest : (decode value).destination ≠ 0 → m'.registers (gpr (decode value).destination) = v := by
    intro hne
    have hgeneral := hadv.general _ hne
    rw [set_registers, completed_update_self, if_neg] at hgeneral
    · exact hgeneral
    · intro heq
      rw [hload] at heq
      exact hne (Fin.ext heq.symm)
  have hothers : ∀ j ≠ 0, j ≠ (decode value).destination → m'.registers (gpr j) = m.registers (gpr j) := by
    intro j hj hne
    have hgeneral := hadv.general j hj
    rw [set_registers, completed_update_of_ne _ _ _ (by simpa using hne), completed_idle hload hj] at hgeneral
    exact hgeneral
  rw [← hv, hone]
  constructor
  · rintro ⟨m'', heq, hcomp⟩
    obtain rfl : m' = m'' := by injection heq
    by_cases hne : (decode value).destination = 0
    · exact .inl hne
    · right
      rw [← hdest hne]
      exact hcomp.result hne
  · intro hcond
    refine ⟨m', rfl, ?_, hothers, hadv.zero⟩
    intro hne
    rw [hdest hne]
    exact hcond.resolve_left hne

/-- `addu $3, $1, $2`. -/
theorem oneInstruction_computes_addu :
    ∃ m', (oneWord 0x00221821 5 0xfffffffe).oneInstruction = .done m' ∧
      (oneWord 0x00221821 5 0xfffffffe).Computes 0x00221821 m' :=
  (oneInstruction_computes_iff _ rfl rfl (by decide)).mpr (.inr trivial)

/-- `or $3, $1, $2` of 1 and 2 gives 1, and `srl $3, $2, 1` of -1 gives -1. -/
theorem oneInstruction_or_srl_wrong :
    ((oneWord 0x00221825 1 2).registers LoadReg = 0 ∧ (decode 0x00221825).opCode = .or ∧
      (∃ m', (oneWord 0x00221825 1 2).oneInstruction = .done m' ∧ m'.registers (gpr 3) = 1) ∧
      ¬ ∃ m', (oneWord 0x00221825 1 2).oneInstruction = .done m' ∧
        (oneWord 0x00221825 1 2).Computes 0x00221825 m') ∧
    (oneWord 0x00021842 0 0xffffffff).registers LoadReg = 0 ∧ (decode 0x00021842).opCode = .srl ∧
      (∃ m', (oneWord 0x00021842 0 0xffffffff).oneInstruction = .done m' ∧ m'.registers (gpr 3) = 0xffffffff) ∧
      ¬ ∃ m', (oneWord 0x00021842 0 0xffffffff).oneInstruction = .done m' ∧
        (oneWord 0x00021842 0 0xffffffff).Computes 0x00021842 m' := by
  refine ⟨⟨rfl, rfl, ⟨_, rfl, rfl⟩, ?_⟩, rfl, rfl, ⟨_, rfl, rfl⟩, ?_⟩
  · rintro ⟨m', hdone, hcomp⟩
    have hresult : m'.registers (gpr 3) = 3 := hcomp.result (by decide)
    have hreg : m'.registers (gpr 3) = 1 := by
      injection hdone with hm
      rw [← hm]
      rfl
    rw [hreg] at hresult
    exact absurd hresult (by decide)
  · rintro ⟨m', hdone, hcomp⟩
    have hresult : m'.registers (gpr 3) = 0x7fffffff := hcomp.result (by decide)
    have hreg : m'.registers (gpr 3) = 0xffffffff := by
      injection hdone with hm
      rw [← hm]
      rfl
    rw [hreg] at hresult
    exact absurd hresult (by decide)

/-! ## The operations that trap -/

/-- The operations that trap on overflow. -/
def trappingOps : List OpCode := [.add, .addi, .sub]

/-- The sum or difference that they are about. -/
def exactResult (op : OpCode) (rs rt : Word) (imm : BitVec 16) : Int :=
  match op with
  | .add => rs.toInt + rt.toInt
  | .addi => rs.toInt + imm.toInt
  | .sub => rs.toInt - rt.toInt
  | _ => 0

/-- The values of a 32-bit `int`. -/
def InIntRange (x : Int) : Prop := -2 ^ 31 ≤ x ∧ x < 2 ^ 31

instance (x : Int) : Decidable (InIntRange x) := inferInstanceAs (Decidable (_ ∧ _))

theorem and_sign_bit (x : Word) : x &&& SIGN_BIT = 0 ↔ x.msb = false := by
  show x &&& BitVec.twoPow 32 31 = 0 ↔ _
  rw [BitVec.and_twoPow, BitVec.msb_eq_getLsbD_last]
  cases x.getLsbD 31 with
  | false => simp
  | true => simp

/-- The test of `OP_ADD`, which may as well be made on the second operand. -/
theorem add_overflows_iff (x y : Word) :
    (x ^^^ y) &&& SIGN_BIT = 0 ∧ (x ^^^ (x + y)) &&& SIGN_BIT ≠ 0 ↔ ¬ InIntRange (x.toInt + y.toInt) := by
  have hadd := BitVec.saddOverflow_eq x y
  unfold BitVec.saddOverflow at hadd
  unfold InIntRange
  rw [ne_eq, and_sign_bit, and_sign_bit, BitVec.msb_xor, BitVec.msb_xor]
  generalize x.toInt + y.toInt = sum at hadd ⊢
  generalize (x + y).msb = c at hadd ⊢
  revert hadd
  cases x.msb <;> cases y.msb <;> cases c <;> simp <;> omega

/-- The test of `OP_SUB`. -/
theorem sub_overflows_iff (x y : Word) :
    (x ^^^ y) &&& SIGN_BIT ≠ 0 ∧ (x ^^^ (x - y)) &&& SIGN_BIT ≠ 0 ↔ ¬ InIntRange (x.toInt - y.toInt) := by
  have hsub := BitVec.ssubOverflow_eq x y
  unfold BitVec.ssubOverflow at hsub
  unfold InIntRange
  rw [ne_eq, ne_eq, and_sign_bit, and_sign_bit, BitVec.msb_xor, BitVec.msb_xor]
  generalize x.toInt - y.toInt = diff at hsub ⊢
  generalize (x - y).msb = c at hsub ⊢
  revert hsub
  cases x.msb <;> cases y.msb <;> cases c <;> simp <;> omega

/-- The state in which the handler is entered, for an instruction that starts in the state `m`: a
pending load is completed, and that is all. -/
structure Precise (m m' : MachineState) : Prop where
  zero : m'.registers (gpr 0) = 0
  general : ∀ j ≠ 0, m'.registers (gpr j) = completed m.registers (gpr j)
  hi : m'.registers HiReg = completed m.registers HiReg
  lo : m'.registers LoReg = completed m.registers LoReg
  pc : m'.registers PCReg = completed m.registers PCReg
  nextPC : m'.registers NextPCReg = completed m.registers NextPCReg
  memory : m'.mainMemory = m.mainMemory

theorem raiseException_precise (m : MachineState) (which : ExceptionType) (badVAddr : Word) :
    ∃ m', m.raiseException which badVAddr = .exception which m' ∧ m.Precise m' := by
  unfold raiseException
  have hbad : ∀ i ≠ BadVAddrReg,
      completed (Function.update m.registers BadVAddrReg badVAddr) i = completed m.registers i := by
    intro i hi
    unfold completed
    rw [Function.update_of_ne (by decide), Function.update_of_ne (by decide), Function.update_of_ne hi]
  have hother : ∀ i, i ≠ gpr 0 → i ≠ LoadReg → i ≠ LoadValueReg → i ≠ BadVAddrReg →
      delayedLoad 0 0 (Function.update m.registers BadVAddrReg badVAddr) i = completed m.registers i := by
    intro i h0 hload hvalue hi
    rw [delayedLoad_apply _ _ _ h0 hload hvalue, hbad i hi]
  refine ⟨_, rfl, ?_, ?_, ?_, ?_, ?_, ?_, rfl⟩
  · exact delayedLoad_zero 0 0 (Function.update m.registers BadVAddrReg badVAddr)
  · intro j hj
    exact hother _ (by simpa using hj) (gpr_ne (by decide)) (gpr_ne (by decide)) (gpr_ne (by decide))
  · exact hother HiReg (by decide) (by decide) (by decide) (by decide)
  · exact hother LoReg (by decide) (by decide) (by decide) (by decide)
  · exact hother PCReg (by decide) (by decide) (by decide) (by decide)
  · exact hother NextPCReg (by decide) (by decide) (by decide) (by decide)

/-- Such an operation raises the exception or stores the exact result. -/
theorem execute_trapping (m : MachineState) (instr : Instruction) {imm : BitVec 16}
    (hop : instr.opCode ∈ trappingOps) (himm : instr.opCode ∈ immediateOps → instr.extra = imm.signExtend 32) :
    let exact := exactResult instr.opCode (m.registers (gpr instr.rs)) (m.registers (gpr instr.rt)) imm
    (¬ InIntRange exact → m.execute instr = m.raiseException .overflowException 0) ∧
    (InIntRange exact → ∃ v, m.execute instr =
        (m.set (gpr instr.destination) v).finish (m.registers NextPCReg + 4) 0 0 ∧ v.toInt = exact) := by
  obtain ⟨op, rs, rt, rd, extra⟩ := instr
  dsimp only at hop himm
  cases op with
  | add =>
    have htest := add_overflows_iff (m.registers (gpr rs)) (m.registers (gpr rt))
    refine ⟨fun hout => if_pos (htest.mpr hout), fun hin => ⟨_, if_neg (mt htest.mp (not_not.mpr hin)), ?_⟩⟩
    rw [BitVec.toInt_add]
    exact Int.bmod_eq_of_le hin.1 hin.2
  | addi =>
    have htest := add_overflows_iff extra (m.registers (gpr rs))
    rw [BitVec.add_comm, BitVec.xor_comm extra (m.registers _), Int.add_comm] at htest
    have hext : extra.toInt = imm.toInt := by
      rw [himm (by decide), BitVec.toInt_signExtend_of_le (by omega)]
    rw [hext] at htest
    refine ⟨fun hout => if_pos (htest.mpr hout), fun hin => ⟨_, if_neg (mt htest.mp (not_not.mpr hin)), ?_⟩⟩
    rw [BitVec.toInt_add, hext]
    exact Int.bmod_eq_of_le hin.1 hin.2
  | sub =>
    have htest := sub_overflows_iff (m.registers (gpr rs)) (m.registers (gpr rt))
    refine ⟨fun hout => if_pos (htest.mpr hout), fun hin => ⟨_, if_neg (mt htest.mp (not_not.mpr hin)), ?_⟩⟩
    rw [BitVec.toInt_sub]
    exact Int.bmod_eq_of_le hin.1 hin.2
  | _ => exact absurd hop (by decide)

/-- **Overflow trapping is exact and precise**: the three operations raise the exception just when
the exact result is outside the range of an `int`.  If so, the handler finds every register but for the
pending load as it was; if not, the program counters advance and the destination holds the exact
result, or what a pending load to the same register brings after it. -/
theorem oneInstruction_trapping (m : MachineState) {value : Word} {pageTable : List TranslationEntry}
    (hfetch : Machine.readMem m.pageTable m.mainMemory (m.registers PCReg) 4 = .ok (value, pageTable))
    (hop : (decode value).opCode ∈ trappingOps) :
    let exact := exactResult (decode value).opCode (m.registers (gpr (decode value).rs))
      (m.registers (gpr (decode value).rt)) (immediate value)
    let destination := (decode value).destination
    ((∃ m', m.oneInstruction = .exception .overflowException m') ↔ ¬ InIntRange exact) ∧
    (∀ m', m.oneInstruction = .exception .overflowException m' → m.Precise m') ∧
    (InIntRange exact → ∃ m', m.oneInstruction = .done m' ∧
      (destination ≠ 0 → (m.registers LoadReg).toNat ≠ destination.val →
        (m'.registers (gpr destination)).toInt = exact) ∧
      (destination ≠ 0 → (m.registers LoadReg).toNat = destination.val →
        m'.registers (gpr destination) = m.registers LoadValueReg) ∧
      m'.registers PCReg = completed m.registers NextPCReg ∧
      m'.registers NextPCReg = m.registers NextPCReg + 4) := by
  intro exact destination
  have hone : m.oneInstruction = ({ m with pageTable := pageTable } : MachineState).execute (decode value) := by
    unfold oneInstruction readThen
    rw [hfetch]
  have hexec := execute_trapping { m with pageTable := pageTable } (decode value) hop decode_extra_immediate
  obtain ⟨hout, hin⟩ : (¬ InIntRange exact → _) ∧ (InIntRange exact → _) := hexec
  have hraises : ¬ InIntRange exact →
      ∃ m', m.oneInstruction = .exception .overflowException m' ∧ m.Precise m' := by
    intro hrange
    obtain ⟨m', hraise, hprecise⟩ := raiseException_precise { m with pageTable := pageTable } .overflowException 0
    refine ⟨m', ?_, ?_⟩
    · rw [hone, hout hrange, hraise]
    · exact { hprecise with }
  have hdone : InIntRange exact → ∃ v m', m.oneInstruction = .done m' ∧ v.toInt = exact ∧
      (({ m with pageTable := pageTable } : MachineState).set (gpr destination) v).Advanced
        (m.registers NextPCReg + 4) m' := by
    intro hrange
    obtain ⟨v, hexec, hv⟩ := hin hrange
    obtain ⟨m', hdone, hadv⟩ := finish_advanced
      (({ m with pageTable := pageTable } : MachineState).set (gpr destination) v) (m.registers NextPCReg + 4) 0 0
    exact ⟨v, m', by rw [hone, hexec]; exact hdone, hv, hadv⟩
  refine ⟨⟨?_, ?_⟩, ?_, ?_⟩
  · rintro ⟨m', hexc⟩ hrange
    obtain ⟨-, m'', hdone, -⟩ := hdone hrange
    rw [hexc] at hdone
    cases hdone
  · intro hrange
    obtain ⟨m', hexc, -⟩ := hraises hrange
    exact ⟨m', hexc⟩
  · intro m' hexc
    by_cases hrange : InIntRange exact
    · obtain ⟨-, m'', hdone, -⟩ := hdone hrange
      rw [hexc] at hdone
      cases hdone
    · obtain ⟨m'', hexc', hprecise⟩ := hraises hrange
      rw [hexc] at hexc'
      obtain rfl : m' = m'' := by injection hexc'
      exact hprecise
  · intro hrange
    obtain ⟨v, m', hdone, hv, hadv⟩ := hdone hrange
    have hresult : destination ≠ 0 → m'.registers (gpr destination) =
        if (m.registers LoadReg).toNat = destination.val then m.registers LoadValueReg else v := by
      intro hne
      exact (hadv.general _ hne).trans (completed_update_self _ _ _)
    refine ⟨m', hdone, ?_, ?_, ?_, hadv.nextPC⟩
    · intro hne hpending
      rw [hresult hne, if_neg hpending, hv]
    · intro hne hpending
      rw [hresult hne, if_pos hpending]
    · exact hadv.pc.trans (completed_update_of_ne _ _ _ (gpr_ne (by decide)).symm)

/-- `add $3, $1, $2` of 2^31 - 1 and 1. -/
theorem oneInstruction_trapping_add :
    ∃ m', (oneWord 0x00221820 0x7fffffff 1).oneInstruction = .exception .overflowException m' :=
  (oneInstruction_trapping _ rfl (by decide)).1.mpr (by decide)

/-- `m` with a delayed load on its way to a register. -/
def withLoad (m : MachineState) (nextReg nextValue : Word) : MachineState :=
  (m.set LoadReg nextReg).set LoadValueReg nextValue

/-- `add $3, $1, $2` of 1 and 1 behind a load of 7 to `$3` leaves 7 there. -/
theorem oneInstruction_add_loses :
    (decode 0x00221820).opCode = .add ∧ (decode 0x00221820).destination = 3 ∧
    InIntRange (exactResult .add 1 1 (immediate 0x00221820)) ∧
    exactResult .add 1 1 (immediate 0x00221820) = 2 ∧
    ∃ m', ((oneWord 0x00221820 1 1).withLoad 3 7).oneInstruction = .done m' ∧ m'.registers (gpr 3) = 7 :=
  ⟨rfl, rfl, by decide, rfl, _, rfl, rfl⟩

end MachineState

end Nachos
