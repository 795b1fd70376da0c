import Mathlib.Tactic.IntervalCases
import Mathlib.Tactic.SplitIfs
import Nachos.Machine.Machine

/-!
# Decoding instructions

The tables of `machine/mipssim.h` and `Instruction::Decode` of `machine/mipssim.cc`.

* `decode_legal` — every word decodes to an operation that `OneInstruction` has a case for.
* `decode_unaligned`, `decode_div` — the words that decode to the given operations.
* `extraField_ifmt` — an immediate is sign-extended.
-/

set_option autoImplicit false

namespace Nachos

/-- The `OP_` constants; `SPECIAL` and `BCOND` stand in the first table only. -/
inductive OpCode where
  | add | addi | addiu | addu | and | andi | beq | bgez | bgezal | bgtz | blez | bltz | bltzal | bne
  | div | divu | j | jal | jalr | jr | lb | lbu | lh | lhu | lui | lw | lwl | lwr
  | mfhi | mflo | mthi | mtlo | mult | multu | nor | or | ori | rfe | sb | sh
  | sll | sllv | slt | slti | sltiu | sltu | sra | srav | srl | srlv | sub | subu | sw | swl | swr
  | xor | xori | syscall | unimp | res
  | special | bcond
  deriving DecidableEq, Repr

inductive Format where
  | ifmt | jfmt | rfmt
  deriving DecidableEq, Repr

/-- `opTable`, indexed by bits 31:26 of the instruction. -/
def opTable : Vector (OpCode × Format) 64 := #v[
  (.special, .rfmt), (.bcond, .ifmt), (.j, .jfmt), (.jal, .jfmt),
  (.beq, .ifmt), (.bne, .ifmt), (.blez, .ifmt), (.bgtz, .ifmt),
  (.addi, .ifmt), (.addiu, .ifmt), (.slti, .ifmt), (.sltiu, .ifmt),
  (.andi, .ifmt), (.ori, .ifmt), (.xori, .ifmt), (.lui, .ifmt),
  (.unimp, .ifmt), (.unimp, .ifmt), (.unimp, .ifmt), (.unimp, .ifmt),
  (.res, .ifmt), (.res, .ifmt), (.res, .ifmt), (.res, .ifmt),
  (.res, .ifmt), (.res, .ifmt), (.res, .ifmt), (.res, .ifmt),
  (.res, .ifmt), (.res, .ifmt), (.res, .ifmt), (.res, .ifmt),
  (.lb, .ifmt), (.lh, .ifmt), (.lwl, .ifmt), (.lw, .ifmt),
  (.lbu, .ifmt), (.lhu, .ifmt), (.lwr, .ifmt), (.res, .ifmt),
  (.sb, .ifmt), (.sh, .ifmt), (.swl, .ifmt), (.sw, .ifmt),
  (.res, .ifmt), (.res, .ifmt), (.swr, .ifmt), (.res, .ifmt),
  (.unimp, .ifmt), (.unimp, .ifmt), (.unimp, .ifmt), (.unimp, .ifmt),
  (.res, .ifmt), (.res, .ifmt), (.res, .ifmt), (.res, .ifmt),
  (.unimp, .ifmt), (.unimp, .ifmt), (.unimp, .ifmt), (.unimp, .ifmt),
  (.res, .ifmt), (.res, .ifmt), (.res, .ifmt), (.res, .ifmt)]

/-- `specialTable`, indexed by the "funct" field of `SPECIAL` instructions. -/
def specialTable : Vector OpCode 64 := #v[
  .sll, .res, .srl, .sra, .sllv, .res, .srlv, .srav,
  .jr, .jalr, .res, .res, .syscall, .unimp, .res, .res,
  .mfhi, .mthi, .mflo, .mtlo, .res, .res, .res, .res,
  .mult, .multu, .div, .divu, .res, .res, .res, .res,
  .add, .addu, .sub, .subu, .and, .or, .xor, .nor,
  .res, .res, .slt, .sltu, .res, .res, .res, .res,
  .res, .res, .res, .res, .res, .res, .res, .res,
  .res, .res, .res, .res, .res, .res, .res, .res]

/-- `class Instruction`, decoded. -/
structure Instruction where
  opCode : OpCode
  rs : Fin 32
  rt : Fin 32
  rd : Fin 32
  extra : Word

namespace Instruction

/-- `(value >> n) & 0x1f`, the number of a register. -/
def regField (value : Word) (n : Nat) : Fin 32 := ((value >>> n).setWidth 5).toFin

/-- `(value >> 26) & 0x3f`. -/
def opField (value : Word) : Fin 64 := ((value >>> 26).setWidth 6).toFin

/-- `value & 0x3f`. -/
def functField (value : Word) : Fin 64 := (value.setWidth 6).toFin

/-- The field `extra` by format. -/
def extraField (value : Word) : Format → Word
  | .ifmt =>
    let extra := value &&& 0xffff
    if extra &&& 0x8000 ≠ 0 then extra ||| 0xffff0000 else extra
  | .rfmt => (value >>> 6) &&& 0x1f
  | .jfmt => value &&& 0x3ffffff

/-- The operation of a `BCOND` instruction. -/
def bcondOp (value : Word) : OpCode :=
  let i := value &&& 0x1f0000
  if i = 0 then .bltz
  else if i = 0x10000 then .bgez
  else if i = 0x100000 then .bltzal
  else if i = 0x110000 then .bgezal
  else .unimp

/-- `Instruction::Decode`. -/
def decode (value : Word) : Instruction :=
  let opPtr := opTable.get (opField value)
  { rs := regField value 21
    rt := regField value 16
    rd := regField value 11
    extra := extraField value opPtr.2
    opCode :=
      match opPtr.1 with
      | .special => specialTable.get (functField value)
      | .bcond => bcondOp value
      | op => op }

/-- The operations for which `OneInstruction` has a case. -/
def Legal (op : OpCode) : Prop := op ≠ .rfe ∧ op ≠ .special ∧ op ≠ .bcond

instance (op : OpCode) : Decidable (Legal op) := inferInstanceAs (Decidable (_ ∧ _ ∧ _))

theorem specialTable_legal : ∀ i, Legal (specialTable.get i) := by
  decide

theorem opTable_legal : ∀ i, (opTable.get i).1 ≠ .rfe := by
  decide

theorem bcondOp_mem (value : Word) : bcondOp value ∈ [.bltz, .bgez, .bltzal, .bgezal, .unimp] := by
  simp only [bcondOp]
  split_ifs <;> simp

/-- The `default` of the switch is never reached. -/
theorem decode_legal (value : Word) : Legal (decode value).opCode := by
  have hfirst := opTable_legal (opField value)
  simp only [decode]
  split
  · exact specialTable_legal _
  · have hmem := bcondOp_mem value
    simp only [List.mem_cons, List.not_mem_nil, or_false] at hmem
    rcases hmem with h | h | h | h | h <;> rw [h] <;> decide
  · exact ⟨hfirst, ‹_›, ‹_›⟩

/-- An operation that only the first table has. -/
theorem decode_opCode_iff {op : OpCode} (hspecial : ∀ i, specialTable.get i ≠ op)
    (hbcond : op ∉ [.bltz, .bgez, .bltzal, .bgezal, .unimp]) (hop : Legal op) (value : Word) :
    (decode value).opCode = op ↔ (opTable.get (opField value)).1 = op := by
  obtain ⟨-, h1, h2⟩ := hop
  simp only [decode]
  split
  · rename_i hs
    rw [hs]
    exact ⟨fun h => absurd h (hspecial _), fun h => absurd h.symm h1⟩
  · rename_i hb
    rw [hb]
    refine ⟨fun h => absurd ?_ hbcond, fun h => absurd h.symm h2⟩
    rw [← h]
    exact bcondOp_mem value
  · exact Iff.rfl

/-- The operations of unaligned words. -/
theorem decode_unaligned (value : Word) :
    (decode value).opCode ∈ [.lwl, .lwr, .swl, .swr] ↔ opField value ∈ [0x22, 0x26, 0x2a, 0x2e] := by
  have htable : ∀ i, (opTable.get i).1 ∈ [.lwl, .lwr, .swl, .swr] ↔ i ∈ [0x22, 0x26, 0x2a, 0x2e] := by decide
  rw [← htable]
  simp only [List.mem_cons, List.not_mem_nil, or_false]
  rw [decode_opCode_iff (by decide) (by decide) (by decide), decode_opCode_iff (by decide) (by decide) (by decide),
    decode_opCode_iff (by decide) (by decide) (by decide), decode_opCode_iff (by decide) (by decide) (by decide)]

/-- The signed division. -/
theorem decode_div (value : Word) :
    (decode value).opCode = .div ↔ opField value = 0 ∧ functField value = 0x1a := by
  have hfirst : ∀ i, (opTable.get i).1 = .special ↔ i = 0 := by decide
  have hnodiv : ∀ i, (opTable.get i).1 ≠ .div := by decide
  have hspecial : ∀ i, specialTable.get i = .div ↔ i = 0x1a := by decide
  rw [← hfirst, ← hspecial]
  simp only [decode]
  split
  · rename_i hs
    simp [hs]
  · rename_i hb
    have hmem := bcondOp_mem value
    constructor
    · intro h
      rw [h] at hmem
      simp at hmem
    · rintro ⟨h, -⟩
      rw [hb] at h
      cases h
  · rename_i hs hb
    exact ⟨fun h => absurd h (hnodiv _), fun h => absurd h.1 hs⟩

theorem and_ffff (value : Word) : value &&& 0xffff = (value.setWidth 16).setWidth 32 := by
  apply BitVec.eq_of_toNat_eq
  rw [BitVec.toNat_and, show (0xffff : Word).toNat = 2 ^ 16 - 1 from rfl, Nat.and_two_pow_sub_one_eq_mod,
    BitVec.toNat_setWidth, BitVec.toNat_setWidth]
  omega

/-- An immediate is sign-extended. -/
theorem extraField_ifmt (value : Word) : extraField value .ifmt = (value.setWidth 16).signExtend 32 := by
  have hsign : value &&& 0xffff &&& 0x8000 ≠ 0 ↔ value.getLsbD 15 = true := by
    have hbit : value &&& 0xffff &&& 0x8000 = if value.getLsbD 15 then 0x8000 else 0 := by
      rw [BitVec.and_assoc]
      show value &&& BitVec.twoPow 32 15 = _
      rw [BitVec.and_twoPow]
      rfl
    rw [hbit]
    split <;> simp_all
  have hmsb : (value.setWidth 16).msb = value.getLsbD 15 := by simp [BitVec.msb_setWidth]
  simp only [extraField, hsign]
  rw [and_ffff]
  split
  · rename_i h
    rw [BitVec.signExtend_eq_not_setWidth_not_of_msb_true (by rw [hmsb, h])]
    ext i hi
    interval_cases i <;> simp
  · rename_i h
    rw [BitVec.signExtend_eq_setWidth_of_msb_false (by rw [hmsb]; simpa using h)]

theorem decode_extra {value : Word} (h : opField value ∈ [0x22, 0x26, 0x2a, 0x2e]) :
    (decode value).extra = (value.setWidth 16).signExtend 32 := by
  have htable : ∀ i : Fin 64, i ∈ [0x22, 0x26, 0x2a, 0x2e] → (opTable.get i).2 = .ifmt := by decide
  rw [← extraField_ifmt, decode]
  simp only [htable _ h]

end Instruction

end Nachos
