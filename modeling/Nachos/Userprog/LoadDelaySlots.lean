import Nachos.Machine.DelayedLoads
import Nachos.Userprog.Exception

/-!
# When interrupts fire in a run of a user program

The loop of `Machine::Run` with the exception handler under it.  All that an interrupt does to the
program is the `DelayedLoad(0, 0)` of `CheckIfDue`: what the handler and the threads it wakes up do
stays outside (`ContextSwitch`).

* `exceptionHandler_frame` — the registers that a system call leaves alone.
* `early_completion_harmless` — an instruction that has nothing to do with the pending load ends in
  the same way when the load is completed before it, and so does every run of such instructions.
-/

set_option autoImplicit false

namespace Nachos

open Partial

namespace Exception

theorem writeR2_of_ne (r : Regs) (r2 : Option Word) {i : Fin NumTotalRegs} (hi : i ≠ gpr 2) :
    writeR2 r r2 i = r i := by
  cases r2 with
  | none => rfl
  | some v => exact Function.update_of_ne hi v r

theorem advancePC_of_ne (r : Regs) {i : Fin NumTotalRegs} (hprev : i ≠ PrevPCReg) (hpc : i ≠ PCReg)
    (hnext : i ≠ NextPCReg) : advancePC r i = r i := by
  unfold advancePC
  rw [Function.update_of_ne hnext, Function.update_of_ne hpc, Function.update_of_ne hprev]

/-- The handler writes r2 and the program counters. -/
theorem exceptionHandler_frame {κ : Type} {S : Services κ} {which : ExceptionType} {r r' : Regs} {k k' : κ}
    (h : exceptionHandler S which r k = .ok (r', k')) {i : Fin NumTotalRegs} (h2 : i ≠ gpr 2) (hprev : i ≠ PrevPCReg)
    (hpc : i ≠ PCReg) (hnext : i ≠ NextPCReg) : r' i = r i := by
  cases which with
  | noException =>
    cases h
    exact advancePC_of_ne r hprev hpc hnext
  | syscallException =>
    obtain ⟨⟨leave, r2, k1⟩, -, h⟩ := bind_eq_ok.1 h
    cases leave with
    | brk =>
      cases h
      rw [advancePC_of_ne _ hprev hpc hnext, writeR2_of_ne r r2 h2]
    | ret =>
      cases h
      exact writeR2_of_ne r r2 h2
  | _ => cases h

end Exception

namespace MachineState

variable {κ : Type} (S : Services (κ × Memory × List TranslationEntry))

/-- `OneInstruction`, after `due.1` interrupts have been handled.  In the exception handler there are
`due.2` more; the registers it finds are those at its entry, whenever they fire. -/
def round (x : MachineState × κ) (due : Nat × Nat) : Except Stop (MachineState × κ) :=
  match (interrupts due.1 x.1).oneInstruction with
  | .done m => .ok (m, x.2)
  | .exception which m =>
    let m := interrupts due.2 m
    match Exception.exceptionHandler S which m.registers (x.2, m.mainMemory, m.pageTable) with
    | .ok (r, k, mainMemory, pageTable) => .ok (⟨r, pageTable, mainMemory⟩, k)
    | .error stop => .error stop
  | .abort => .error .abort

/-- `Machine::Run`, for as many instructions as `due` has entries. -/
def rounds (x : MachineState × κ) : List (Nat × Nat) → Except Stop (MachineState × κ)
  | [] => .ok x
  | d :: due => (round S x d).bind fun y => rounds y due

variable {S} {x y : MachineState × κ}

/-- Interrupts do not matter to one instruction. -/
theorem round_independent (hzero : x.1.registers (gpr 0) = 0) (hslot : x.1.RespectsSlot) (due : Nat × Nat) :
    round S x due = round S x (0, 0) := by
  unfold round
  rw [interrupts_oneInstruction hzero hslot, interrupts_oneInstruction hzero hslot]
  cases hone : x.1.oneInstruction with
  | done m => rfl
  | abort => rfl
  | exception which m =>
    obtain ⟨badVAddr, hregisters⟩ := oneInstruction_exception hone
    have hsettled : Settled m.registers := by
      rw [hregisters]
      exact settled_delayedLoad _
    dsimp only
    rw [interrupts_settled hsettled, interrupts_settled hsettled]

theorem round_zero {due : Nat × Nat} (h : round S x due = .ok y) : y.1.registers (gpr 0) = 0 := by
  unfold round at h
  generalize interrupts due.1 x.1 = m0 at h
  cases hone : m0.oneInstruction with
  | done m =>
    rw [hone] at h
    cases h
    obtain ⟨n, pcAfter, nextLoadReg, nextLoadValue, -, -, hfinish⟩ := oneInstruction_done hone
    obtain ⟨m', hdone, hadv⟩ := finish_advanced n pcAfter nextLoadReg nextLoadValue
    rw [hfinish] at hdone
    cases hdone
    exact hadv.zero
  | abort =>
    rw [hone] at h
    cases h
  | exception which m =>
    obtain ⟨badVAddr, hregisters⟩ := oneInstruction_exception hone
    have hsettled : Settled m.registers := by
      rw [hregisters]
      exact settled_delayedLoad _
    rw [hone] at h
    dsimp only at h
    rw [interrupts_settled hsettled] at h
    split at h
    · rename_i hreturns
      cases h
      exact (Exception.exceptionHandler_frame hreturns (by decide) (by decide) (by decide) (by decide)).trans
        hsettled.zero
    · cases h

/-- Interrupts do not matter to a run of which every instruction respects the load delay slot. -/
theorem rounds_independent (hzero : x.1.registers (gpr 0) = 0)
    (hslots : ∀ n y, rounds S x (List.replicate n (0, 0)) = .ok y → y.1.RespectsSlot) (due : List (Nat × Nat)) :
    rounds S x due = rounds S x (List.replicate due.length (0, 0)) := by
  induction due generalizing x with
  | nil => rfl
  | cons d due ih =>
    rw [rounds, round_independent hzero (hslots 0 x rfl) d, List.length_cons, List.replicate_succ, rounds]
    cases hround : round S x (0, 0) with
    | error stop => rfl
    | ok y =>
      refine ih (round_zero hround) fun n z hz => hslots (n + 1) z ?_
      rw [List.replicate_succ, rounds, hround]
      exact hz

/-- **Completing a pending load early is harmless**: with 0 in r0, the instruction that is fetched ends
in the same registers, memory, page table and exception if it neither reads nor writes the register of
the load, or if that is r0 and it is not `OP_LWL` or `OP_LWR`.  So the result of a run in which this
holds of every instruction does not depend on the interrupts. -/
theorem early_completion_harmless :
    (∀ (m : MachineState) (t : Fin NumTotalRegs), m.registers (gpr 0) = 0 → (m.registers LoadReg).toNat = t.val →
      t ∉ controlRegs → (∀ instr, m.fetched = some instr → instr.Independent t) →
      m.interrupt.oneInstruction = m.oneInstruction) ∧
    ∀ (κ : Type) (S : Services (κ × Memory × List TranslationEntry)) (x : MachineState × κ),
      x.1.registers (gpr 0) = 0 →
      (∀ n y, rounds S x (List.replicate n (0, 0)) = .ok y → y.1.RespectsSlot) →
      ∀ due, rounds S x due = rounds S x (List.replicate due.length (0, 0)) := by
  constructor
  · intro m t hzero hload ht hind
    exact oneInstruction_completes (interrupt_completes hload ht hzero) ht hzero hind
  · intro κ S x hzero hslots due
    exact rounds_independent hzero hslots due

/-- `syscall` with the code of `Halt`, behind a load of 7 to `$4`. -/
def haltBehindLoad : MachineState := (oneWord 0x0000000c 0 0).withLoad 4 7

theorem early_completion_harmless_halt :
    haltBehindLoad.interrupt.oneInstruction = haltBehindLoad.oneInstruction ∧
    ∀ S : Services (Unit × Memory × List TranslationEntry),
      rounds S (haltBehindLoad, ()) [(1, 2), (0, 1)] = rounds S (haltBehindLoad, ()) [(0, 0), (0, 0)] := by
  have hind : ∀ instr, haltBehindLoad.fetched = some instr → instr.Independent (gpr 4) := by
    intro instr hfetched
    cases hfetched
    decide
  refine ⟨early_completion_harmless.1 _ (gpr 4) rfl rfl (by decide) hind, fun S => ?_⟩
  refine early_completion_harmless.2 Unit S _ rfl ?_ [(1, 2), (0, 1)]
  intro n y hy
  cases n with
  | zero =>
    cases hy
    exact .inr ⟨gpr 4, by decide, rfl, hind⟩
  | succ n =>
    -- the program ends with its first instruction
    have hhalt : round S (haltBehindLoad, ()) (0, 0) = .error .halt := rfl
    rw [List.replicate_succ, rounds, hhalt] at hy
    cases hy

end MachineState

end Nachos
