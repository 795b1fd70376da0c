import Mathlib.Algebra.Ring.Nat
import Mathlib.Logic.Function.Basic

/-!
# The simulated machine: words, registers, exceptions

Constants and register file of `machine/machine.h` and `machine/disk.h`, and
`Machine::DelayedLoad` of `machine/mipssim.cc`.  A C `int` of the simulated machine is a
32-bit vector; `registers` is an array of `NumTotalRegs` words.
-/

set_option autoImplicit false

namespace Nachos

/-- A 32-bit `int` or `unsigned int` of the host. -/
abbrev Word := BitVec 32

/-- A byte of simulated memory, of a disk sector or of a file. -/
abbrev Byte := BitVec 8

/-- The interrupt level. -/
inductive IntStatus where
  | intOff
  | intOn
  deriving DecidableEq, Repr

def SectorSize : Nat := 128
def PageSize : Nat := SectorSize
def NumPhysPages : Nat := 128
def MemorySize : Nat := NumPhysPages * PageSize

def NumGPRegs : Nat := 32
def NumTotalRegs : Nat := 40

/-- `int registers[NumTotalRegs]`. -/
abbrev Regs := Fin NumTotalRegs → Word

def StackReg : Fin NumTotalRegs := ⟨29, by decide⟩
def RetAddrReg : Fin NumTotalRegs := ⟨31, by decide⟩
def HiReg : Fin NumTotalRegs := ⟨32, by decide⟩
def LoReg : Fin NumTotalRegs := ⟨33, by decide⟩
def PCReg : Fin NumTotalRegs := ⟨34, by decide⟩
def NextPCReg : Fin NumTotalRegs := ⟨35, by decide⟩
def PrevPCReg : Fin NumTotalRegs := ⟨36, by decide⟩
def LoadReg : Fin NumTotalRegs := ⟨37, by decide⟩
def LoadValueReg : Fin NumTotalRegs := ⟨38, by decide⟩
def BadVAddrReg : Fin NumTotalRegs := ⟨39, by decide⟩

/-- For the numbers of the general registers. -/
instance neZero_gprs : NeZero 32 := ⟨by decide⟩

/-- General register `n`. -/
def gpr (n : Fin 32) : Fin NumTotalRegs := n.castLE (by decide)

/-- `enum ExceptionType`. -/
inductive ExceptionType where
  | noException
  | syscallException
  | pageFaultException
  | readOnlyException
  | busErrorException
  | addressErrorException
  | overflowException
  | illegalInstrException
  | numExceptionTypes
  deriving DecidableEq, Repr

/-- `registers[i] = v` for an index computed at run time; an index outside the array is not
    a defined store and leaves the registers as they are. -/
def storeReg (r : Regs) (i v : Word) : Regs :=
  if h : i.toNat < NumTotalRegs then Function.update r ⟨i.toNat, h⟩ v else r

/-- `Machine::DelayedLoad(nextReg, nextValue)`. -/
def delayedLoad (nextReg nextValue : Word) (r : Regs) : Regs :=
  let r := storeReg r (r LoadReg) (r LoadValueReg)
  let r := Function.update r LoadReg nextReg
  let r := Function.update r LoadValueReg nextValue
  Function.update r (gpr 0) 0

end Nachos
