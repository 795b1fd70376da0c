import Nachos.Lib.I386
import Nachos.Machine.Machine

/-!
# The context switch of the 80386

`SWITCH` and `ThreadRoot` of `threads/switch.s` for HOST_i386, the offsets of `threads/switch.h`, and
`Thread::StackAllocate`.  A thread is the address of its `Thread` object.

* `saveOps_spec`, `restoreOps_spec`, `switch_spec` — the two halves of `SWITCH`, and all of it.
* `stackAllocate_spec` — what a new thread finds when it is switched to.
* `threadRoot_calls` — the functions that `ThreadRoot` calls.
-/

set_option autoImplicit false

namespace Nachos

open I386

namespace Switch

/-! ## The code -/

def _ESP : Word := 0
def _EAX : Word := 4
def _EBX : Word := 8
def _ECX : Word := 12
def _EDX : Word := 16
def _EBP : Word := 20
def _ESI : Word := 24
def _EDI : Word := 28
def _PC : Word := 32

def InitialPC : Reg := .esi
def InitialArg : Reg := .edx
def WhenDonePC : Reg := .edi
def StartupPC : Reg := .ecx

/-- The registers that are saved and restored through a pointer in `eax`, in this order. -/
def calleeRegs : List (Word × Reg) :=
  [(_EBX, .ebx), (_ECX, .ecx), (_EDX, .edx), (_ESI, .esi), (_EDI, .edi), (_EBP, .ebp), (_ESP, .esp)]

/-- `SWITCH`, up to `movl %ebx,_PC(%eax)`. -/
def saveOps (_eax_save : Word) : List Op :=
  [.movl (.reg .eax) (.sym _eax_save), .movl (.disp 4 .esp) (.reg .eax)] ++ saves .eax calleeRegs ++
    [.movl (.sym _eax_save) (.reg .ebx), .movl (.reg .ebx) (.disp _EAX .eax), .movl (.disp 0 .esp) (.reg .ebx),
      .movl (.reg .ebx) (.disp _PC .eax)]

/-- The rest of it, up to `ret`. -/
def restoreOps (_eax_save : Word) : List Op :=
  [.movl (.disp 8 .esp) (.reg .eax), .movl (.disp _EAX .eax) (.reg .ebx), .movl (.reg .ebx) (.sym _eax_save)] ++
    restores .eax calleeRegs ++
    [.movl (.disp _PC .eax) (.reg .eax), .movl (.reg .eax) (.disp 4 .esp), .movl (.sym _eax_save) (.reg .eax)]

def SWITCH (_eax_save : Word) : List Instr := (saveOps _eax_save ++ restoreOps _eax_save).map .op ++ [.ret]

def ThreadRoot : List Instr :=
  [.op (.pushl .ebp), .op (.movl (.reg .esp) (.reg .ebp)), .op (.pushl InitialArg), .call StartupPC, .call InitialPC,
    .call WhenDonePC, .op (.movl (.reg .ebp) (.reg .esp)), .op (.popl .ebp), .ret]

def StackSize : Nat := 4 * 1024
def STACK_FENCEPOST : Word := 0xdeadbeef

/-- Where the linker has put things. -/
structure Symbols where
  SWITCH : Word
  ThreadRoot : Word
  _eax_save : Word
  InterruptEnable : Word
  ThreadFinish : Word

/-- The code is at its symbols. -/
structure Linked (code : Code) (sym : Symbols) : Prop where
  switch : ∃ b, Placed code sym.SWITCH (SWITCH sym._eax_save) b
  root : ∃ b, Placed code sym.ThreadRoot ThreadRoot b
  aligned : Aligned sym._eax_save

/-- `&machineState[i]` of a thread; `stackTop` is in front of it. -/
def machineState (t : Word) (i : Nat) : Word := t + BitVec.ofNat 32 (4 + 4 * i)

def PCState : Nat := _PC.toNat / 4 - 1
def InitialPCState : Nat := _ESI.toNat / 4 - 1
def InitialArgState : Nat := _EDX.toNat / 4 - 1
def WhenDonePCState : Nat := _EDI.toNat / 4 - 1
def StartupPCState : Nat := _ECX.toNat / 4 - 1

/-- `--stackTop`, in a new array at `stack`. -/
def firstTop (stack : Word) : Word := stack + BitVec.ofNat 32 (4 * (StackSize - 4)) - 4

/-- `Thread::StackAllocate`, with the new array at `stack`. -/
def stackAllocate (sym : Symbols) (t stack func arg : Word) (mem : Word → Word) : Word → Word :=
  let mem := Function.update mem (firstTop stack) sym.ThreadRoot
  let mem := Function.update mem stack STACK_FENCEPOST
  let mem := Function.update mem (t + _ESP) (firstTop stack)
  let mem := Function.update mem (machineState t PCState) sym.ThreadRoot
  let mem := Function.update mem (machineState t StartupPCState) sym.InterruptEnable
  let mem := Function.update mem (machineState t InitialPCState) func
  let mem := Function.update mem (machineState t InitialArgState) arg
  Function.update mem (machineState t WhenDonePCState) sym.ThreadFinish

/-! ## Saving and restoring -/

/-- The words of a `Thread` object that `SWITCH` uses: `stackTop` and `machineState`. -/
def area (t : Word) : List Word := [_ESP, _EAX, _EBX, _ECX, _EDX, _EBP, _ESI, _EDI, _PC].map (t + ·)

/-- The registers and the return address are in the `Thread` object. -/
structure Saved (mem : Word → Word) (t : Word) (regs : Reg → Word) (pc : Word) : Prop where
  eax : mem (t + _EAX) = regs .eax
  others : ∀ p ∈ calleeRegs, mem (t + p.1) = regs p.2
  pc : mem (t + _PC) = pc

variable {sym : Symbols} {s : State} {t next e : Word}

theorem aligned_calleeRegs : ∀ p ∈ calleeRegs, Aligned p.1 := by decide

/-- `eax` is the only register that is saved apart. -/
theorem exists_callee {r : Reg} (hr : r ≠ .eax) : ∃ p ∈ calleeRegs, p.2 = r := by
  cases r with
  | eax => exact absurd rfl hr
  | ebx => exact ⟨(_EBX, .ebx), by decide, rfl⟩
  | ecx => exact ⟨(_ECX, .ecx), by decide, rfl⟩
  | edx => exact ⟨(_EDX, .edx), by decide, rfl⟩
  | esp => exact ⟨(_ESP, .esp), by decide, rfl⟩
  | ebp => exact ⟨(_EBP, .ebp), by decide, rfl⟩
  | esi => exact ⟨(_ESI, .esi), by decide, rfl⟩
  | edi => exact ⟨(_EDI, .edi), by decide, rfl⟩

theorem mem_area_of_callee (t : Word) : ∀ p ∈ calleeRegs, t + p.1 ∈ area t := by
  intro p hp
  exact List.mem_map_of_mem (show p.1 ∈ [_ESP, _EAX, _EBX, _ECX, _EDX, _EBP, _ESI, _EDI, _PC] by
    revert p
    decide)

theorem mem_area_eax (t : Word) : t + _EAX ∈ area t := List.mem_map_of_mem (by decide)

theorem mem_area_pc (t : Word) : t + _PC ∈ area t := List.mem_map_of_mem (by decide)

theorem add_zero_word (a : Word) : a + 0 = a := BitVec.add_zero a

/-- Two displacements from one address. -/
theorem add_ne {a b : Word} (t : Word) (h : a ≠ b) : t + a ≠ t + b := fun heq => h ((BitVec.add_right_inj t).1 heq)

/-- The last instructions of the first half. -/
theorem evals_tail {regs : Reg → Word} (mem : Word → Word) (he : Aligned e) (ht : Aligned (regs .eax))
    (hsp : Aligned (regs .esp)) (hspArea : regs .esp ≠ regs .eax + _EAX) :
    ∃ s', evals ⟨regs, mem⟩ [.movl (.sym e) (.reg .ebx), .movl (.reg .ebx) (.disp _EAX .eax),
        .movl (.disp 0 .esp) (.reg .ebx), .movl (.reg .ebx) (.disp _PC .eax)] = some s' ∧
      s'.regs .esp = regs .esp ∧
      s'.mem = Function.update (Function.update mem (regs .eax + _EAX) (mem e)) (regs .eax + _PC)
        (mem (regs .esp)) := by
  have h1 : Aligned (regs .eax + _EAX) := ht.add (by decide)
  have h2 : Aligned (regs .eax + _PC) := ht.add (by decide)
  have h0 := add_zero_word (regs .esp)
  refine ⟨⟨Function.update (Function.update regs .ebx (mem e)) .ebx (mem (regs .esp)), _⟩, ?_, rfl, rfl⟩
  simp only [evals, Op.eval, State.read, State.write, State.setReg, load_eq he, Option.bind_some,
    Function.update_self, ne_eq, reduceCtorEq, not_false_eq_true, Function.update_of_ne, store_eq h1, h0, load_eq hsp,
    hspArea, store_eq h2]
  rfl

/-- **The first half** saves the registers in the object that is the first argument. -/
theorem saveOps_spec (he : Aligned e) (ht : Aligned t) (hsp : Aligned (s.regs .esp))
    (harg : s.mem (s.regs .esp + 4) = t) (he4 : s.regs .esp + 4 ≠ e) (he0 : s.regs .esp ≠ e) (heArea : e ∉ area t)
    (hspArea : s.regs .esp ∉ area t) :
    ∃ s', evals s (saveOps e) = some s' ∧ s'.regs .esp = s.regs .esp ∧
      Saved s'.mem t s.regs (s.mem (s.regs .esp)) ∧ ∀ a, a ∉ area t → a ≠ e → s'.mem a = s.mem a := by
  have h4 : Aligned (s.regs .esp + 4) := hsp.add (by decide)
  have hstart : evals s [.movl (.reg .eax) (.sym e), .movl (.disp 4 .esp) (.reg .eax)] =
      some ⟨Function.update s.regs .eax t, Function.update s.mem e (s.regs .eax)⟩ := by
    simp only [evals, Op.eval, State.read, State.write, State.setReg, store_eq he, Option.bind_some, load_eq h4, ne_eq,
      he4, not_false_eq_true, Function.update_of_ne, harg]
  have hregs : ∀ r, r ≠ .eax → Function.update s.regs .eax t r = s.regs r :=
    fun r hr => Function.update_of_ne hr _ _
  have heax : Function.update s.regs .eax t .eax = t := Function.update_self _ _ _
  generalize Function.update s.regs .eax t = regs at hstart hregs heax
  have hbase : Aligned (regs .eax) := by rw [heax]; exact ht
  -- the registers other than `eax`
  obtain ⟨mem, hsaves, hin, hout⟩ := evals_saves .eax hbase calleeRegs
    (Function.update s.mem e (s.regs .eax)) aligned_calleeRegs (by decide)
  simp only [heax] at hin hout
  have hframe : ∀ a, a ∉ area t → a ≠ e → mem a = s.mem a := by
    intro a ha hae
    rw [hout a, Function.update_of_ne hae]
    rintro p hp rfl
    exact ha (mem_area_of_callee t p hp)
  have hmem : mem e = s.regs .eax := by
    rw [hout e, Function.update_self]
    rintro p hp rfl
    exact heArea (mem_area_of_callee t p hp)
  have hpc : mem (s.regs .esp) = s.mem (s.regs .esp) := hframe _ hspArea he0
  -- `eax` itself, and the return address
  have hesp : regs .esp = s.regs .esp := hregs .esp (by decide)
  obtain ⟨s', htail, hsp', hmem'⟩ := evals_tail mem he hbase
    (by rw [hesp]; exact hsp) (by
      rw [hesp, heax]
      rintro heq
      exact hspArea (heq ▸ mem_area_eax t))
  rw [hesp, heax, hmem, hpc] at hmem'
  refine ⟨s', ?_, hsp'.trans hesp, ⟨?_, ?_, ?_⟩, ?_⟩
  · rw [saveOps, evals_append, evals_append, hstart, Option.bind_some, hsaves, Option.bind_some, htail]
  · rw [hmem', Function.update_of_ne (add_ne t (by decide)), Function.update_self]
  · intro p hp
    obtain ⟨hpc', heax', hreg⟩ : p.1 ≠ _PC ∧ p.1 ≠ _EAX ∧ p.2 ≠ .eax := by
      revert p
      decide
    rw [hmem', Function.update_of_ne (add_ne t hpc'), Function.update_of_ne (add_ne t heax'), hin p hp, hregs p.2 hreg]
  · rw [hmem', Function.update_self]
  · intro a ha hae
    rw [hmem', Function.update_of_ne, Function.update_of_ne, hframe a ha hae]
    · rintro rfl
      exact ha (mem_area_eax t)
    · rintro rfl
      exact ha (mem_area_pc t)

/-- **The second half** loads the registers from the object that is the second argument, and copies the
return address to the place above the one it is taken from. -/
theorem restoreOps_spec {regs : Reg → Word} {pc : Word} (he : Aligned e) (ht : Aligned next)
    (hsp : Aligned (s.regs .esp)) (harg : s.mem (s.regs .esp + 8) = next) (hsaved : Saved s.mem next regs pc)
    (hsp' : Aligned (regs .esp)) (he4 : regs .esp + 4 ≠ e) (heArea : e ∉ area next) :
    evals s (restoreOps e) = some ⟨regs, Function.update (Function.update s.mem e (regs .eax)) (regs .esp + 4) pc⟩ := by
  have h8 : Aligned (s.regs .esp + 8) := hsp.add (by decide)
  have h1 : Aligned (next + _EAX) := ht.add (by decide)
  have h2 : Aligned (next + _PC) := ht.add (by decide)
  have h4 : Aligned (regs .esp + 4) := hsp'.add (by decide)
  have hstart : evals s [.movl (.disp 8 .esp) (.reg .eax), .movl (.disp _EAX .eax) (.reg .ebx),
      .movl (.reg .ebx) (.sym e)] = some ⟨Function.update (Function.update s.regs .eax next) .ebx (regs .eax),
        Function.update s.mem e (regs .eax)⟩ := by
    simp only [evals, Op.eval, State.read, State.write, State.setReg, load_eq h8, harg, Option.bind_some,
      Function.update_self, load_eq h1, hsaved.eax, store_eq he]
  have heax : Function.update (Function.update s.regs .eax next) .ebx (regs .eax) .eax = next := by
    rw [Function.update_of_ne (by decide), Function.update_self]
  generalize Function.update (Function.update s.regs .eax next) .ebx (regs .eax) = regs1 at hstart heax
  have hmem : ∀ a, a ∈ area next → Function.update s.mem e (regs .eax) a = s.mem a := by
    intro a ha
    rw [Function.update_of_ne]
    rintro rfl
    exact heArea ha
  obtain ⟨regs2, hrestores, hin, hout⟩ := evals_restores .eax (Function.update s.mem e (regs .eax)) calleeRegs regs1
    (by rw [heax]; exact ht) aligned_calleeRegs (by decide) (by decide)
  have hcallee : ∀ p ∈ calleeRegs, regs2 p.2 = regs p.2 := by
    intro p hp
    rw [hin p hp, heax, hmem _ (mem_area_of_callee next p hp), hsaved.others p hp]
  have hptr : regs2 .eax = next := (hout .eax (by decide)).trans heax
  have hesp : regs2 .esp = regs .esp := hcallee (_ESP, .esp) (by decide)
  have hregs : Function.update (Function.update regs2 .eax pc) .eax (regs .eax) = regs := by
    funext r
    rcases eq_or_ne r .eax with rfl | hr
    · exact Function.update_self _ _ _
    · rw [Function.update_of_ne hr, Function.update_of_ne hr]
      obtain ⟨p, hp, rfl⟩ := exists_callee hr
      exact hcallee p hp
  rw [restoreOps, evals_append, evals_append, hstart, Option.bind_some, hrestores, Option.bind_some]
  have hpc : Function.update s.mem e (regs .eax) (next + _PC) = pc := by
    rw [hmem _ (mem_area_pc next), hsaved.pc]
  have hback : Function.update (Function.update s.mem e (regs .eax)) (regs .esp + 4) pc e = regs .eax := by
    rw [Function.update_of_ne he4.symm, Function.update_self]
  simp only [evals, Op.eval, State.read, State.write, State.setReg, hptr, load_eq h2, hpc, Option.bind_some,
    Function.update_self, ne_eq, reduceCtorEq, not_false_eq_true, Function.update_of_ne, hesp, store_eq h4, load_eq he,
    hback, hregs]

/-! ## A call of `SWITCH` -/

/-- `SWITCH(t, next)` is called, with the stack of the caller. -/
structure Called (e : Word) (s : State) (t next : Word) : Prop where
  oldThread : s.mem (s.regs .esp + 4) = t
  nextThread : s.mem (s.regs .esp + 8) = next
  object : Aligned t
  aligned : Aligned (s.regs .esp)
  save : e ∉ area t
  frame : ∀ d ∈ ([0, 4, 8] : List Word), s.regs .esp + d ∉ area t ∧ s.regs .esp + d ≠ e

/-- `next` has called `SWITCH` in state `c`, or looks as if it had. -/
structure Resumable (e : Word) (mem : Word → Word) (next : Word) (c : State) : Prop where
  saved : Saved mem next c.regs (c.mem (c.regs .esp))
  ret : mem (c.regs .esp) = c.mem (c.regs .esp)
  object : Aligned next
  aligned : Aligned (c.regs .esp)
  save : e ∉ area next
  frame : ∀ d ∈ ([0, 4] : List Word), c.regs .esp + d ≠ e

/-- What the objects of two threads and a stack have in common. -/
structure Apart (t next : Word) (c : State) : Prop where
  objects : ∀ a ∈ area next, a ∉ area t
  frame : ∀ d ∈ ([0, 4] : List Word), c.regs .esp + d ∉ area t

/-- **`SWITCH`** returns to the caller that `next` was, with its registers; `t` can be resumed in the state
that it has called in. -/
theorem switch_spec {code : Code} {c : State} (hl : Linked code sym) (hcall : Called sym._eax_save s t next)
    (hres : Resumable sym._eax_save s.mem next c) (hap : Apart t next c) :
    ∃ mem, runs code 27 ⟨sym.SWITCH, s⟩ =
        some ⟨c.mem (c.regs .esp), ⟨Function.update c.regs .esp (c.regs .esp + 4), mem⟩⟩ ∧
      Saved mem t s.regs (s.mem (s.regs .esp)) ∧
      ∀ a, a ∉ area t → a ≠ sym._eax_save → a ≠ c.regs .esp + 4 → mem a = s.mem a := by
  have he := hl.aligned
  obtain ⟨h0, h0'⟩ := hcall.frame 0 (by decide)
  obtain ⟨h4, h4'⟩ := hcall.frame 4 (by decide)
  obtain ⟨h8, h8'⟩ := hcall.frame 8 (by decide)
  rw [add_zero_word] at h0 h0'
  obtain ⟨s1, hsave, hesp, hsaved, hframe⟩ :=
    saveOps_spec he hcall.object hcall.aligned hcall.oldThread h4' h0' hcall.save h0
  have hnext : ∀ a ∈ area next, s1.mem a = s.mem a := by
    intro a ha
    refine hframe a (hap.objects a ha) ?_
    rintro rfl
    exact hres.save ha
  have hsaved' : Saved s1.mem next c.regs (c.mem (c.regs .esp)) := by
    refine ⟨?_, ?_, ?_⟩
    · rw [hnext _ (mem_area_eax next), hres.saved.eax]
    · intro p hp
      rw [hnext _ (mem_area_of_callee next p hp), hres.saved.others p hp]
    · rw [hnext _ (mem_area_pc next), hres.saved.pc]
  have hrestore := restoreOps_spec (s := s1) he hres.object (by rw [hesp]; exact hcall.aligned)
    (by rw [hesp, hframe _ h8 h8', hcall.nextThread]) hsaved' hres.aligned (hres.frame 4 (by decide)) hres.save
  obtain ⟨b, hplaced⟩ := hl.switch
  have hevals := evals_append (saveOps sym._eax_save) (restoreOps sym._eax_save) s
  rw [hsave, Option.bind_some, hrestore] at hevals
  obtain ⟨pc, ⟨_, hret, -⟩, hruns⟩ := runs_placed hplaced hevals
  have hne := add_ne (c.regs .esp) (show (0 : Word) ≠ 4 by decide)
  rw [add_zero_word] at hne
  have hframe0 := hres.frame 0 (by decide)
  have hap0 := hap.frame 0 (by decide)
  rw [add_zero_word] at hframe0 hap0
  refine ⟨Function.update (Function.update s1.mem sym._eax_save (c.regs .eax)) (c.regs .esp + 4)
    (c.mem (c.regs .esp)), ?_, ?_, ?_⟩
  · rw [show 27 = (saveOps sym._eax_save ++ restoreOps sym._eax_save).length + 1 from rfl, runs_add, hruns,
      Option.bind_some, runs, step, hret]
    simp only [State.pop, load_eq hres.aligned, State.setReg, Option.map_some, Option.bind_some, runs,
      Function.update_of_ne hne, Function.update_of_ne hframe0, hframe _ hap0 hframe0, hres.ret]
  · have hkeep : ∀ a ∈ area t, Function.update (Function.update s1.mem sym._eax_save (c.regs .eax))
        (c.regs .esp + 4) (c.mem (c.regs .esp)) a = s1.mem a := by
      intro a ha
      rw [Function.update_of_ne, Function.update_of_ne]
      · rintro rfl
        exact hcall.save ha
      · rintro rfl
        exact hap.frame 4 (by decide) ha
    refine ⟨?_, ?_, ?_⟩
    · rw [hkeep _ (mem_area_eax t), hsaved.eax]
    · intro p hp
      rw [hkeep _ (mem_area_of_callee t p hp), hsaved.others p hp]
    · rw [hkeep _ (mem_area_pc t), hsaved.pc]
  · intro a ha hae ha4
    rw [Function.update_of_ne ha4, Function.update_of_ne hae, hframe a ha hae]

/-! ## A new thread -/

/-- The registers that `SWITCH` loads. -/
def savedRegs (mem : Word → Word) (t : Word) : Reg → Word
  | .eax => mem (t + _EAX)
  | .ebx => mem (t + _EBX)
  | .ecx => mem (t + _ECX)
  | .edx => mem (t + _EDX)
  | .esp => mem (t + _ESP)
  | .ebp => mem (t + _EBP)
  | .esi => mem (t + _ESI)
  | .edi => mem (t + _EDI)

theorem saved_savedRegs (mem : Word → Word) (t : Word) : Saved mem t (savedRegs mem t) (mem (t + _PC)) := by
  refine ⟨rfl, ?_, rfl⟩
  simp only [calleeRegs, List.forall_mem_cons]
  exact ⟨rfl, rfl, rfl, rfl, rfl, rfl, rfl, List.forall_mem_nil _⟩

theorem mem_area_machineState (t : Word) : ∀ i ∈ [PCState, StartupPCState, InitialPCState, InitialArgState,
    WhenDonePCState], machineState t i ∈ area t := by
  intro i hi
  exact List.mem_map_of_mem (show BitVec.ofNat 32 (4 + 4 * i) ∈ [_ESP, _EAX, _EBX, _ECX, _EDX, _EBP, _ESI, _EDI, _PC] by
    revert i
    decide)

/-- What `ThreadRoot` expects, and the words that are not written. -/
structure Allocated (sym : Symbols) (t stack func arg : Word) (mem mem' : Word → Word) : Prop where
  esp : savedRegs mem' t .esp = firstTop stack
  startup : savedRegs mem' t StartupPC = sym.InterruptEnable
  initial : savedRegs mem' t InitialPC = func
  arg : savedRegs mem' t InitialArg = arg
  done : savedRegs mem' t WhenDonePC = sym.ThreadFinish
  pc : mem' (t + _PC) = sym.ThreadRoot
  ret : mem' (firstTop stack) = sym.ThreadRoot
  frame : ∀ a, a ∉ area t → a ≠ firstTop stack → a ≠ stack → mem' a = mem a

theorem stackAllocate_spec {stack : Word} (htop : firstTop stack ∉ area t) (hne : firstTop stack ≠ stack)
    (func arg : Word) (mem : Word → Word) :
    Allocated sym t stack func arg mem (stackAllocate sym t stack func arg mem) := by
  have hstate := mem_area_machineState t
  simp only [List.forall_mem_cons] at hstate
  obtain ⟨hpc, hstart, hinit, harg, hdone, -⟩ := hstate
  have htop' : ∀ a ∈ area t, firstTop stack ≠ a := fun a ha heq => htop (heq ▸ ha)
  have hesp : t + _ESP ∈ area t := mem_area_of_callee t (_ESP, .esp) (by decide)
  have hsep : ∀ i j : Nat, BitVec.ofNat 32 (4 + 4 * i) ≠ BitVec.ofNat 32 (4 + 4 * j) →
      machineState t i ≠ machineState t j := fun i j h => add_ne t h
  refine ⟨?_, ?_, ?_, ?_, ?_, ?_, ?_, ?_⟩
  · show stackAllocate sym t stack func arg mem (t + _ESP) = _
    have hne' : ∀ i ∈ [PCState, StartupPCState, InitialPCState, InitialArgState, WhenDonePCState],
        t + _ESP ≠ machineState t i := by
      intro i hi
      refine add_ne t ?_
      revert i
      decide
    simp only [List.forall_mem_cons] at hne'
    obtain ⟨h1, h2, h3, h4, h5, -⟩ := hne'
    simp only [stackAllocate, Function.update_self, ne_eq, h1, h2, h3, h4, h5, not_false_eq_true,
      Function.update_of_ne]
  · show stackAllocate sym t stack func arg mem (machineState t StartupPCState) = _
    rw [stackAllocate, Function.update_of_ne (hsep _ _ (by decide)), Function.update_of_ne (hsep _ _ (by decide)),
      Function.update_of_ne (hsep _ _ (by decide)), Function.update_self]
  · show stackAllocate sym t stack func arg mem (machineState t InitialPCState) = _
    rw [stackAllocate, Function.update_of_ne (hsep _ _ (by decide)), Function.update_of_ne (hsep _ _ (by decide)),
      Function.update_self]
  · show stackAllocate sym t stack func arg mem (machineState t InitialArgState) = _
    rw [stackAllocate, Function.update_of_ne (hsep _ _ (by decide)), Function.update_self]
  · show stackAllocate sym t stack func arg mem (machineState t WhenDonePCState) = _
    rw [stackAllocate, Function.update_self]
  · show stackAllocate sym t stack func arg mem (machineState t PCState) = _
    rw [stackAllocate, Function.update_of_ne (hsep _ _ (by decide)), Function.update_of_ne (hsep _ _ (by decide)),
      Function.update_of_ne (hsep _ _ (by decide)), Function.update_of_ne (hsep _ _ (by decide)), Function.update_self]
  · simp only [stackAllocate, ne_eq, htop' _ hpc, htop' _ hstart, htop' _ hinit, htop' _ harg, htop' _ hdone,
      htop' _ hesp, hne, not_false_eq_true, Function.update_of_ne, Function.update_self]
  · intro a ha hatop hastack
    have hout : ∀ b ∈ area t, a ≠ b := fun b hb heq => ha (heq ▸ hb)
    simp only [stackAllocate, ne_eq, hout _ hpc, hout _ hstart, hout _ hinit, hout _ harg, hout _ hdone, hout _ hesp,
      hatop, hastack, not_false_eq_true, Function.update_of_ne]

/-! ## Its first calls -/

/-- A function has returned to its caller, as the calling convention of C has it: its `args` arguments, and
what lies below the stack pointer, may have changed. -/
structure Returned (limit : Word) (args : Nat) (k k' : Config) : Prop where
  eip : k'.eip = k.state.mem (k.state.regs .esp)
  esp : k'.state.regs .esp = k.state.regs .esp + 4
  callee : ∀ r ∈ ([.ebx, .ebp, .esi, .edi] : List Reg), k'.state.regs r = k.state.regs r
  frame : ∀ a, (k.state.regs .esp).toNat + 4 + 4 * args ≤ a.toNat → a.toNat < limit.toNat →
    k'.state.mem a = k.state.mem a

/-- The argument is pushed, and `StartupPC` called. -/
theorem threadRoot_enable {code : Code} (hl : Linked code sym) (hsp : Aligned (s.regs .esp)) :
    ∃ b pc, Placed code pc (ThreadRoot.drop 4) b ∧ runs code 4 ⟨sym.ThreadRoot, s⟩ = some ⟨s.regs StartupPC,
      ⟨Function.update (Function.update s.regs .ebp (s.regs .esp - 4)) .esp (s.regs .esp - 4 - 4 - 4),
        Function.update (Function.update (Function.update s.mem (s.regs .esp - 4) (s.regs .ebp))
          (s.regs .esp - 4 - 4) (s.regs InitialArg)) (s.regs .esp - 4 - 4 - 4) pc⟩⟩ := by
  obtain ⟨b, hroot⟩ := hl.root
  have h4 : Aligned (s.regs .esp - 4) := hsp.sub (by decide)
  have h8 : Aligned (s.regs .esp - 4 - 4) := h4.sub (by decide)
  have hpush : evals s [.pushl .ebp, .movl (.reg .esp) (.reg .ebp), .pushl InitialArg] =
      some ⟨Function.update (Function.update s.regs .ebp (s.regs .esp - 4)) .esp (s.regs .esp - 4 - 4),
        Function.update (Function.update s.mem (s.regs .esp - 4) (s.regs .ebp)) (s.regs .esp - 4 - 4)
          (s.regs InitialArg)⟩ := by
    simp only [evals, Op.eval, State.push, State.setReg, State.read, State.write, InitialArg, store_eq h4,
      Option.bind_some, ne_eq, reduceCtorEq, not_false_eq_true, Function.update_of_ne, Function.update_self,
      store_eq h8, Function.update_idem, Function.update_comm (show Reg.esp ≠ .ebp by decide)]
  have hesp : (Function.update (Function.update s.regs .ebp (s.regs .esp - 4)) .esp (s.regs .esp - 4 - 4)) .esp =
      s.regs .esp - 4 - 4 := Function.update_self _ _ _
  obtain ⟨c, hc, hruns⟩ := runs_placed hroot hpush
  obtain ⟨pc, hpc, hcall⟩ := step_call (s := ⟨_, _⟩) hc (hesp ▸ h8)
  refine ⟨b, pc, hpc, ?_⟩
  rw [show 4 = ([.pushl .ebp, .movl (.reg .esp) (.reg .ebp), .pushl InitialArg] : List Op).length + 1 from rfl,
    runs_add, hruns, Option.bind_some, runs, hcall]
  simp only [hesp, StartupPC, ne_eq, reduceCtorEq, not_false_eq_true, Function.update_of_ne, Option.bind_some, runs,
    Function.update_idem]

/-- **`ThreadRoot`** calls `StartupPC`, then `InitialPC` with the argument, then `WhenDonePC`. -/
theorem threadRoot_calls {code : Code} {limit : Word} (hl : Linked code sym) (hsp : Aligned (s.regs .esp))
    (hlow : 12 ≤ (s.regs .esp).toNat) (hhigh : (s.regs .esp).toNat ≤ limit.toNat) :
    ∃ c₁, runs code 4 ⟨sym.ThreadRoot, s⟩ = some c₁ ∧ c₁.eip = s.regs StartupPC ∧
      ∀ c₁', Returned limit 0 c₁ c₁' →
        ∃ c₂, step code c₁' = some c₂ ∧ c₂.eip = s.regs InitialPC ∧
          c₂.state.mem (c₂.state.regs .esp + 4) = s.regs InitialArg ∧
          ∀ c₂', Returned limit 1 c₂ c₂' → ∃ c₃, step code c₂' = some c₃ ∧ c₃.eip = s.regs WhenDonePC := by
  obtain ⟨b, pc, hplaced, hruns⟩ := threadRoot_enable hl hsp
  refine ⟨_, hruns, rfl, ?_⟩
  rintro ⟨eip, s₁⟩ ⟨heip, hesp, hcallee, hframe⟩
  dsimp only at heip hesp hcallee hframe
  rw [Function.update_self] at hesp
  rw [Function.update_self, Function.update_self] at heip
  subst heip
  have hback : ∀ a : Word, a - 4 + 4 = a := fun a => BitVec.sub_add_cancel a 4
  rw [hback] at hesp
  have h8 : Aligned (s₁.regs .esp) := by
    rw [hesp]
    exact (hsp.sub (by decide)).sub (by decide)
  obtain ⟨pc', hplaced', hcall⟩ := step_call (s := s₁) hplaced h8
  refine ⟨_, hcall, ?_, ?_, ?_⟩
  · show s₁.regs InitialPC = _
    rw [hcallee InitialPC (by decide), Function.update_of_ne (by decide), Function.update_of_ne (by decide)]
  · -- the argument is above the frame of the first function
    show Function.update s₁.mem (s₁.regs .esp - 4) pc'
      (Function.update s₁.regs .esp (s₁.regs .esp - 4) .esp + 4) = _
    have hnat : (s.regs .esp - 4 - 4).toNat = (s.regs .esp).toNat - 8 := by bv_omega
    have hnat' : (s.regs .esp - 4 - 4 - 4).toNat = (s.regs .esp).toNat - 12 := by bv_omega
    rw [Function.update_self, hback, hesp, Function.update_of_ne (by bv_omega), hframe,
      Function.update_of_ne (by bv_omega), Function.update_self]
    · rw [Function.update_self, hnat, hnat']
      omega
    · rw [hnat]
      omega
  · rintro ⟨eip, s₂⟩ ⟨heip, hesp', hcallee', -⟩
    dsimp only at heip hesp' hcallee'
    rw [Function.update_self] at hesp'
    rw [Function.update_self, Function.update_self] at heip
    subst heip
    rw [hback] at hesp'
    obtain ⟨pc'', -, hcall'⟩ := step_call (s := s₂) hplaced' (by rwa [hesp'])
    refine ⟨_, hcall', ?_⟩
    show s₂.regs WhenDonePC = _
    rw [hcallee' WhenDonePC (by decide), Function.update_of_ne (by decide), hcallee WhenDonePC (by decide),
      Function.update_of_ne (by decide), Function.update_of_ne (by decide)]

end Switch

end Nachos
