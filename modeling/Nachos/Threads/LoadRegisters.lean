import Nachos.Threads.ContextSwitch
import Nachos.Userprog.LoadDelaySlots

/-!
# Delayed loads and the special registers

`DelayedLoad` stores to `registers[registers[LoadReg]]` and does not check the index.  The load
registers are written by instructions, by `RaiseException`, by `CheckIfDue` and by
`RestoreUserState`; every one of them has to leave the number of a general register there.

* `LoadsGeneral` — r0 holds 0 and the pending load goes to a general register.
* `delayedLoad_special`, `oneInstruction_special` — what that means for Hi, Lo and the program
  counters.
* `delayed_loads_general` — it holds in every state of every run of the kernel and its programs.
-/

set_option autoImplicit false

namespace Nachos

/-! ## Registers -/

/-- r0 holds 0 and the pending load goes to a general register. -/
structure LoadsGeneral (r : Regs) : Prop where
  zero : r (gpr 0) = 0
  general : (r LoadReg).toNat < NumGPRegs

/-- The registers that no load goes to and that `DelayedLoad` does not write by name. -/
def specialRegs : List (Fin NumTotalRegs) := [HiReg, LoReg, PCReg, NextPCReg, PrevPCReg, BadVAddrReg]

theorem delayedLoad_special {r : Regs} (h : (r LoadReg).toNat < NumGPRegs) {i : Fin NumTotalRegs}
    (hi : i ∈ specialRegs) (nextReg nextValue : Word) : delayedLoad nextReg nextValue r i = r i := by
  have hall : ∀ i ∈ specialRegs, i ≠ gpr 0 ∧ i ≠ LoadReg ∧ i ≠ LoadValueReg ∧ NumGPRegs ≤ i.val := by decide
  obtain ⟨h0, hload, hvalue, hge⟩ := hall i hi
  rw [delayedLoad_apply _ _ _ h0 hload hvalue, completed, if_neg]
  intro heq
  rw [heq] at h
  exact absurd h (Nat.not_lt.2 hge)

/-- `DelayedLoad` leaves r0 and the load registers in order, whatever it finds there. -/
theorem loadsGeneral_delayedLoad {nextReg : Word} (hnext : nextReg.toNat < NumGPRegs) (nextValue : Word) (r : Regs) :
    LoadsGeneral (delayedLoad nextReg nextValue r) := by
  refine ⟨delayedLoad_zero nextReg nextValue r, ?_⟩
  rw [delayedLoad_loadReg]
  exact hnext

/-- The indexed store of `DelayedLoad`. -/
theorem storeReg_general {r : Regs} (h : (r LoadReg).toNat < NumGPRegs) :
    ∃ i : Fin 32, storeReg r (r LoadReg) (r LoadValueReg) = Function.update r (gpr i) (r LoadValueReg) := by
  refine ⟨⟨(r LoadReg).toNat, h⟩, ?_⟩
  unfold storeReg
  rw [dif_pos (Nat.lt_trans h (by decide))]
  rfl

/-- As a C `int` the index is not negative. -/
theorem toInt_general {w : Word} (h : w.toNat < NumGPRegs) : 0 ≤ w.toInt ∧ w.toInt < NumGPRegs := by
  unfold NumGPRegs at h ⊢
  rw [BitVec.toInt_eq_toNat_of_lt (by omega)]
  omega

namespace MachineState

variable {m m' n : MachineState}

/-- The operations write no control register. -/
theorem written_control {i : Fin NumTotalRegs} (hi : i ∈ controlRegs) : i ∉ m.written := by
  have hall : ∀ i ∈ controlRegs, 34 ≤ i.val := by decide
  intro hw
  unfold written at hw
  cases hf : m.fetched with
  | none =>
    rw [hf] at hw
    cases hw
  | some instr =>
    rw [hf] at hw
    exact absurd (named_lt (.inr hw)) (Nat.not_lt.2 (hall i hi))

/-- An instruction that comes to its end leaves the registers in order, moves the program counters on,
and writes Hi and Lo only if the operation does. -/
theorem oneInstruction_special (h : m.oneInstruction = .done m') (hm : LoadsGeneral m.registers) :
    LoadsGeneral m'.registers ∧ m'.registers PCReg = m.registers NextPCReg ∧
      m'.registers PrevPCReg = m.registers PCReg ∧
      ∀ i ∈ [HiReg, LoReg, BadVAddrReg], i ∉ m.written → m'.registers i = m.registers i := by
  obtain ⟨n, pcAfter, nextLoadReg, nextLoadValue, hwrites, hgeneral, hfinish⟩ := oneInstruction_done h
  have hcontrol : ∀ i ∈ controlRegs, n.registers i = m.registers i := fun i hi => hwrites i (written_control hi)
  have hindex : (n.registers LoadReg).toNat < NumGPRegs := by
    rw [hcontrol LoadReg (by decide)]
    exact hm.general
  have hloads := loadsGeneral_delayedLoad hgeneral nextLoadValue n.registers
  have hspecial := fun (i : Fin NumTotalRegs) (hi : i ∈ specialRegs) =>
    delayedLoad_special hindex hi nextLoadReg nextLoadValue
  unfold finish at hfinish
  generalize delayedLoad nextLoadReg nextLoadValue n.registers = d at hfinish hloads hspecial
  -- the program counters are updated after the load
  have hother : ∀ i, i ≠ NextPCReg → i ≠ PCReg → i ≠ PrevPCReg → m'.registers i = d i := by
    intro i hnext hpc hprev
    cases hfinish
    dsimp only
    rw [Function.update_of_ne hnext, Function.update_of_ne hpc, Function.update_of_ne hprev]
  refine ⟨⟨?_, ?_⟩, ?_, ?_, ?_⟩
  · rw [hother _ (by decide) (by decide) (by decide)]
    exact hloads.zero
  · rw [hother _ (by decide) (by decide) (by decide)]
    exact hloads.general
  · rw [← hcontrol NextPCReg (by decide), ← hspecial NextPCReg (by decide)]
    cases hfinish
    rfl
  · rw [← hcontrol PCReg (by decide), ← hspecial PCReg (by decide)]
    cases hfinish
    rfl
  · intro i hi hw
    have hall : ∀ i ∈ [HiReg, LoReg, BadVAddrReg], i ≠ NextPCReg ∧ i ≠ PCReg ∧ i ≠ PrevPCReg ∧ i ∈ specialRegs := by
      decide
    obtain ⟨hnext, hpc, hprev, hmem⟩ := hall i hi
    rw [hother i hnext hpc hprev, hspecial i hmem, hwrites i hw]

/-- An exception leaves the registers in order, and the special ones as they were but for the address
of the exception. -/
theorem raise_special {r : Regs} (h : LoadsGeneral r) (badVAddr : Word) :
    LoadsGeneral (delayedLoad 0 0 (Function.update r BadVAddrReg badVAddr)) ∧
    ∀ i ∈ specialRegs, i ≠ BadVAddrReg → delayedLoad 0 0 (Function.update r BadVAddrReg badVAddr) i = r i := by
  refine ⟨loadsGeneral_delayedLoad (by decide) 0 _, ?_⟩
  intro i hi hne
  have hindex : (Function.update r BadVAddrReg badVAddr LoadReg).toNat < NumGPRegs := by
    rw [Function.update_of_ne (by decide)]
    exact h.general
  rw [delayedLoad_special hindex hi, Function.update_of_ne hne]

end MachineState

/-- Wherever `DelayedLoad` is called next, in `CheckIfDue`, in `RaiseException` or at the end of an
instruction, its indexed store goes to a general register: none of them has written `LoadReg` before.
So nothing that is not meant to changes in the special registers. -/
structure StoresGeneral (r : Regs) : Prop where
  store : ∀ r', r' LoadReg = r LoadReg → ∃ i : Fin 32,
    storeReg r' (r' LoadReg) (r' LoadValueReg) = Function.update r' (gpr i) (r' LoadValueReg)
  interrupt : ∀ i ∈ specialRegs, delayedLoad 0 0 r i = r i
  exception : ∀ (m m' : MachineState) which, m.registers = r → m.oneInstruction = .exception which m' →
    ∀ i ∈ specialRegs, i ≠ BadVAddrReg → m'.registers i = r i
  instruction : ∀ m m' : MachineState, m.registers = r → m.oneInstruction = .done m' →
    m'.registers PCReg = r NextPCReg ∧ m'.registers PrevPCReg = r PCReg ∧
    ∀ i ∈ [HiReg, LoReg, BadVAddrReg], i ∉ m.written → m'.registers i = r i

theorem LoadsGeneral.stores {r : Regs} (h : LoadsGeneral r) : StoresGeneral r := by
  refine ⟨?_, ?_, ?_, ?_⟩
  · intro r' heq
    apply storeReg_general
    rw [heq]
    exact h.general
  · exact fun i hi => delayedLoad_special h.general hi 0 0
  · rintro m m' which rfl hexc
    obtain ⟨badVAddr, hregisters⟩ := MachineState.oneInstruction_exception hexc
    rw [hregisters]
    exact (MachineState.raise_special h badVAddr).2
  · rintro m m' rfl hdone
    exact (MachineState.oneInstruction_special hdone h).2

/-! ## What runs between two switches -/

/-- What the registers of the running thread can go through at one place: an instruction of a user
program, whatever the memory and the page table, an exception that it raises or that the kernel's
`ReadMem` or `WriteMem` raises for it, and what `ExceptionHandler` writes. -/
inductive UserStep : Regs → Regs → Prop where
  | instruction {m m' : MachineState} (h : m.oneInstruction = .done m') : UserStep m.registers m'.registers
  | trap {m m' : MachineState} {which : ExceptionType} (h : m.oneInstruction = .exception which m') :
      UserStep m.registers m'.registers
  | raise {m m' : MachineState} {which : ExceptionType} {badVAddr : Word}
      (h : m.raiseException which badVAddr = .exception which m') : UserStep m.registers m'.registers
  | result {r : Regs} (r2 : Option Word) : UserStep r (Exception.writeR2 r r2)
  | advance {r : Regs} : UserStep r (Exception.advancePC r)

theorem UserStep.loads {r r' : Regs} (h : UserStep r r') (hr : LoadsGeneral r) : LoadsGeneral r' := by
  cases h with
  | instruction h => exact (MachineState.oneInstruction_special h hr).1
  | trap h =>
    obtain ⟨badVAddr, hregisters⟩ := MachineState.oneInstruction_exception h
    rw [hregisters]
    exact (MachineState.raise_special hr badVAddr).1
  | raise h =>
    cases h
    exact (MachineState.raise_special hr _).1
  | result r2 =>
    refine ⟨?_, ?_⟩
    · rw [Exception.writeR2_of_ne r r2 (by decide)]
      exact hr.zero
    · rw [Exception.writeR2_of_ne r r2 (by decide)]
      exact hr.general
  | advance =>
    refine ⟨?_, ?_⟩
    · rw [Exception.advancePC_of_ne r (by decide) (by decide) (by decide)]
      exact hr.zero
    · rw [Exception.advancePC_of_ne r (by decide) (by decide) (by decide)]
      exact hr.general

/-! ## The kernel -/

theorem initRegisters_loads (sp : SpaceRef) : LoadsGeneral (Kernel.initRegisters sp) := by
  have hload : Kernel.initRegisters sp LoadReg = 0 := rfl
  refine ⟨rfl, ?_⟩
  rw [hload]
  decide

namespace Kernel

open Transition

/-- The registers of the machine, and those that `RestoreUserState` will load there. -/
structure LoadsKept (k : Kernel) : Prop where
  loaded : LoadsGeneral k.registers
  saved : ∀ t, t ≠ k.currentThread → k.status t ≠ none → k.resume t ≠ .threadRoot → k.space t ≠ none →
    LoadsGeneral (k.userRegisters t)

variable {k : Kernel}

/-- What `LoadsKept` reads of the kernel, statuses apart. -/
def loadView (k : Kernel) := (k.currentThread, k.registers, k.userRegisters, k.resume, k.space)

/-- A step that leaves registers, stacks and spaces alone. -/
theorem LoadsKept.keep {k' : Kernel} (h : LoadsKept k) (hv : loadView k' = loadView k)
    (hlive : ∀ t, t ≠ k.currentThread → k'.status t ≠ none → k.status t ≠ none) : LoadsKept k' := by
  simp only [loadView, Prod.mk.injEq] at hv
  obtain ⟨hcur, hregs, huser, hresume, hspace⟩ := hv
  constructor
  · rw [hregs]; exact h.loaded
  · intro t hne hst
    rw [hcur] at hne
    rw [huser, hresume, hspace]
    exact h.saved t hne (hlive t hne hst)

/-- The registers of the machine are written, and nothing else. -/
theorem LoadsKept.load (h : LoadsKept k) {r : Regs} (hr : LoadsGeneral r) : LoadsKept { k with registers := r } :=
  ⟨hr, h.saved⟩

/-- `RestoreUserState`, if the thread has an address space. -/
theorem restoreState_loads (h : LoadsGeneral k.registers)
    (hsaved : k.space k.currentThread ≠ none → LoadsGeneral (k.userRegisters k.currentThread)) :
    LoadsGeneral (restoreState k).registers := by
  unfold restoreState
  cases k.threadToBeDestroyed with
  | none =>
    cases hsp : k.space k.currentThread with
    | none => simpa [hsp] using h
    | some sp => simpa [hsp] using hsaved (by simp [hsp])
  | some d =>
    cases hsp : k.space k.currentThread with
    | none => simpa [hsp] using h
    | some sp => simpa [hsp] using hsaved (by simp [hsp])

theorem LoadsKept.run {next : Tid} {after : Resume} {home : Tid → Option Place}
    (hp : Placed k (some next) false home) (h : LoadsKept k) : LoadsKept (run k next after) := by
  have hready := (hp.ready next).2 (.inr rfl)
  -- after `saveState`, the registers of the thread that leaves are saved as well
  have hsaved : ∀ t, k.status t ≠ none → (saveState k next after).resume t ≠ .threadRoot → k.space t ≠ none →
      LoadsGeneral ((saveState k next after).userRegisters t) := by
    intro t hst hresume hspace
    rcases eq_or_ne t k.currentThread with rfl | hne
    · obtain ⟨sp, hsp⟩ := Option.ne_none_iff_exists'.1 hspace
      simpa [saveState, hsp] using h.loaded
    · have huser : (saveState k next after).userRegisters t = k.userRegisters t := by
        unfold saveState
        split <;> simp [hne]
      have hres : (saveState k next after).resume t = k.resume t := by
        unfold saveState
        split <;> simp [hne]
      rw [huser]
      exact h.saved t hne hst (hres ▸ hresume) hspace
  obtain ⟨userRegisters, hsave⟩ := saveState_frame k next after
  have hrestore := @restoreState_loads (saveState k next after)
  obtain ⟨status, victim, registers, pageTable, hrest, hlive⟩ := restoreState_frame (saveState k next after)
  have hlive' : ∀ t, t ≠ next → status t ≠ none → k.status t ≠ none := by
    intro t hne hst
    simpa [hsave, hne] using hlive t hst
  rw [hrest] at hrestore
  unfold Kernel.run
  simp only [hrest]
  simp only [hsave] at hrestore hsaved ⊢
  split
  · -- first dispatch: the registers stay as they are
    refine ⟨h.loaded, ?_⟩
    intro t hne hst
    exact hsaved t (by simpa [show t ≠ next from hne] using hst)
  all_goals
    rename_i hresume
    refine ⟨hrestore h.loaded (hsaved next (by simp [hready]) (by simp [hresume])), ?_⟩
    exact fun t hne hst => hsaved t (hlive' t hne hst)

theorem LoadsKept.yield (h : LoadsKept k) : LoadsKept (yield k) := by
  unfold Kernel.yield
  simp only
  split
  · exact h.keep rfl (fun t _ hst => hst)
  · refine h.keep rfl ?_
    intro t hne hst
    simpa [readyToRun, hne] using hst

/-- A handler is invoked with the pending load completed. -/
theorem LoadsKept.checkIfDue {inc : Option Tid} {cpu : Bool} {home : Tid → Option Place}
    (hp : Placed k inc cpu home) (h : LoadsKept k) (vs : List SemId) (y : Bool) : LoadsKept (checkIfDue k vs y) := by
  obtain ⟨_, _, _, hk, hlive⟩ := hp.checkIfDue_live vs y
  rw [hk]
  refine ⟨loadsGeneral_delayedLoad (by decide) 0 k.registers, ?_⟩
  exact fun t hne hst => h.saved t hne (hlive t hst)

/-- User code and the system calls do what `UserStep` allows. -/
def UserSteps (k : Kernel) (e : KEvent) : Prop := ∀ f, e = .user f → UserStep k.registers (f k.registers)

theorem stepOutside_loads {k' : Kernel} {e : KEvent} {home : Tid → Option Place} (hp : Placed k none true home)
    (h : LoadsKept k) (hok : UserSteps k e) (hout : OutsideStep k e k') : LoadsKept k' := by
  cases hout with
  | newThread =>
    refine ⟨h.loaded, ?_⟩
    intro t hne hst hresume hspace
    -- the new thread has not been dispatched
    have htn : t ≠ k.nextTid := by
      rintro rfl
      simp at hresume
    simp only [Function.update_of_ne htn] at hst hresume hspace
    exact h.saved t hne hst hresume hspace
  | @fork t hst =>
    refine h.keep rfl ?_
    intro u _ hlive
    rcases eq_or_ne u t with rfl | hut
    · simp [hst]
    · simpa [readyToRun, call, hut] using hlive
  | yield =>
    apply LoadsKept.yield
    exact h.keep rfl (fun t _ hst => hst)
  | p => exact h.keep rfl (fun t _ hst => hst)
  | @v s =>
    have hcall : Placed (call k) none true home := hp.frame rfl
    obtain ⟨_, _, _, hv, hlive⟩ := hcall.semV_live s
    rw [hv]
    exact h.keep rfl (fun t _ hst => hlive t hst)
  | finish =>
    refine h.keep rfl ?_
    intro t hne hst
    simpa [call, hne] using hst
  | @handOver t sp hsp hjust =>
    refine ⟨initRegisters_loads sp, ?_⟩
    intro u hne hst hresume hspace
    have hut : u ≠ t := hne
    rcases eq_or_ne u k.currentThread with rfl | hu
    · simp at hst
    · simp only [Function.update_of_ne hut, Function.update_of_ne hu] at hst
      exact h.saved u hu hst hresume hspace
  | enable hon => exact h.keep rfl (fun t _ hst => hst)
  | setLevel hoff => exact h.keep rfl (fun t _ hst => hst)
  | @initFunc sp hsp hnew => exact ⟨initRegisters_loads sp, h.saved⟩
  | @user f hrunning => exact ⟨(hok f rfl).loads h.loaded, h.saved⟩
  | userTick hon => exact h.keep rfl (fun t _ hst => hst)

/-- **One step keeps the load registers in order.** -/
theorem step_loads {k' : Kernel} {e : KEvent} (hp : PlacedAt k) (h : LoadsKept k) (hok : UserSteps k e)
    (he : step k e = some k') : LoadsKept k' := by
  obtain ⟨home, hp⟩ := hp
  cases step_cases he with
  | outside hctl hout =>
    rw [hctl] at hp
    exact stepOutside_loads hp h hok hout
  | pass hctl _ => exact h.keep rfl (fun t _ hst => hst)
  | block hctl _ =>
    refine h.keep rfl ?_
    exact fun t hne hst => by simpa [hne] using hst
  | idle hctl hq => exact h.keep rfl (fun t _ hst => hst)
  | findNextToRun hctl hq => exact h.keep rfl (fun t _ hst => hst)
  | @firstHandler after vs y hctl => exact (h.checkIfDue hp vs y).keep rfl (fun t _ hst => hst)
  | halt hctl => exact h.keep rfl (fun t _ hst => hst)
  | @handler vs y hctl => exact h.checkIfDue hp vs y
  | idleDone hctl => exact h.keep rfl (fun t _ hst => hst)
  | switch hctl =>
    rw [hctl] at hp
    exact h.run hp
  | enable hctl hon => exact h.keep rfl (fun t _ hst => hst)
  | setLevel hctl hoff => exact h.keep rfl (fun t _ hst => hst)
  | tickYield hctl hy =>
    apply LoadsKept.yield
    exact h.keep rfl (fun t _ hst => hst)
  | tickDone hctl hy => exact h.keep rfl (fun t _ hst => hst)

/-- The kernel with the machine that `Machine::Machine` makes: its registers are cleared. -/
def poweredOn : System Kernel KEvent :=
  { system with init := fun k => Boot k ∧ k.registers = fun _ => 0 }

theorem boot_loads (h : Boot k) (hregisters : k.registers = fun _ => 0) : LoadsKept k := by
  constructor
  · rw [hregisters]
    exact ⟨rfl, by decide⟩
  · intro t hne hst
    rw [h.status t, if_neg hne] at hst
    exact absurd rfl hst

theorem reachable_loads (h : poweredOn.ReachableBy UserSteps k) : LoadsKept k := by
  refine System.ReachableBy.invariant (I := LoadsKept) ?_ ?_ h
  · exact fun k hk => boot_loads hk.1 hk.2
  · intro k e k' hr hi hok he
    have hreach : system.Reachable k := (hr.of_init fun _ hk => hk.1).reachable
    exact step_loads (reachable_inv hreach).1 hi hok he

/-- **Delayed loads cannot corrupt special registers.**  In every state of every run, with any user
programs, interrupts, exceptions, system calls and context switches: r0 holds 0, `LoadReg` holds the
number of a general register, and so that is where `DelayedLoad` stores. -/
theorem delayed_loads_general (h : poweredOn.ReachableBy UserSteps k) :
    k.registers (gpr 0) = 0 ∧ 0 ≤ (k.registers LoadReg).toInt ∧ (k.registers LoadReg).toInt < NumGPRegs ∧
      StoresGeneral k.registers := by
  have hloads := (reachable_loads h).loaded
  obtain ⟨hnonneg, hlt⟩ := toInt_general hloads.general
  exact ⟨hloads.zero, hnonneg, hlt, hloads.stores⟩

/-- `lw $3, 0($0)`, executed on the registers `r`. -/
def lwStep (r : Regs) : Regs :=
  match MachineState.oneInstruction { MachineState.oneWord 0x8c030000 0 0 with registers := r } with
  | .done m => m.registers
  | _ => r

theorem lwStep_instruction {r : Regs} {m' : MachineState}
    (h : MachineState.oneInstruction { MachineState.oneWord 0x8c030000 0 0 with registers := r } = .done m') :
    UserStep r (lwStep r) := by
  have hstep : lwStep r = m'.registers := by
    unfold lwStep
    rw [h]
  rw [hstep]
  exact .instruction h

/-- Process 1 takes over the CPU and executes that instruction: its load is pending. -/
theorem delayed_loads_general_lw : ∃ k, poweredOn.ReachableBy UserSteps k ∧ k.registers LoadReg = 3 ∧
    k.registers LoadValueReg = 0x8c030000 ∧ (k.registers LoadReg).toInt < NumGPRegs ∧ StoresGeneral k.registers := by
  have hother : ∀ {k e}, (∀ f, e ≠ .user f) → UserSteps k e := fun hne f he => absurd he (hne f)
  have hboot : poweredOn.ReachableBy UserSteps boot0 := .init ⟨boot0_boot, rfl⟩
  have hnew := hboot.step (e := .newThread (some ⟨0, 4⟩)) (hother nofun) rfl
  have hhand := hnew.step (e := .handOver 1) (hother nofun) rfl
  have huser := hhand.step (e := .user lwStep) (fun f hf => by cases hf; exact lwStep_instruction rfl) rfl
  obtain ⟨-, -, hlt, hstores⟩ := delayed_loads_general huser
  exact ⟨_, huser, rfl, rfl, hlt, hstores⟩

end Kernel

end Nachos
