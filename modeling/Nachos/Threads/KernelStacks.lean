import Nachos.Lib.Transition
import Nachos.Threads.Switch

/-!
# The stacks of the kernel's threads

The threads of the kernel on an 80386, with `SWITCH` as the only way from one to another: `Thread::Fork`
places a `Thread` object and its stack in memory, `Scheduler::Run` calls `SWITCH` and deletes threads that
are not current.  What a thread computes between these is any change that leaves the objects and the
stacks in use of suspended threads alone.

* `Inv`, `inv_of_reachable` — a suspended thread is found as it has left its registers and its stack.
* `suspended_stays` — a thread is suspended in one state until it is switched to.
* `switch_resumes` — every run: `SWITCH` returns to a thread where it was called, with the registers and
  the stack of the call.
* `thread_starts` — a new thread enables interrupts, calls its function with its argument, and finishes.
-/

set_option autoImplicit false

namespace Nachos

open I386 Transition

namespace Switch

/-! ## The system -/

/-- The words from `base` up to `limit`. -/
structure Stack where
  base : Word
  limit : Word

def Stack.Has (st : Stack) (a : Word) : Prop := st.base.toNat ≤ a.toNat ∧ a.toNat < st.limit.toNat

instance (st : Stack) (a : Word) : Decidable (st.Has a) := inferInstanceAs (Decidable (_ ∧ _))

/-- The array of a new thread. -/
def newStack (stack : Word) : Stack := ⟨stack, stack + BitVec.ofNat 32 (4 * StackSize)⟩

/-- The words that are in use, in state `c`. -/
def Stack.Live (st : Stack) (c : State) (a : Word) : Prop :=
  (c.regs .esp).toNat ≤ a.toNat ∧ a.toNat < st.limit.toNat

/-- The processor, and the threads that there are.  `suspended` is history: the machine when the thread
has called `SWITCH`. -/
structure Kernel where
  cpu : Config
  currentThread : Word
  stack : Word → Option Stack
  suspended : Word → Option State

inductive Event where
  | compute (cpu : Config)
  | fork (t stack func arg : Word)
  | switch
  | delete (t : Word)

namespace Kernel

variable (k : Kernel)

def mem : Word → Word := k.cpu.state.mem

def esp : Word := k.cpu.state.regs .esp

/-- The second argument of `SWITCH`. -/
def nextThread : Word := k.mem (k.esp + 8)

def step (code : Code) (sym : Symbols) : Event → Option Kernel
  | .compute cpu => some { k with cpu := cpu }
  | .fork t stack func arg =>
    let mem := stackAllocate sym t stack func arg k.mem
    some { k with
      cpu := ⟨k.cpu.eip, ⟨k.cpu.state.regs, mem⟩⟩
      stack := Function.update k.stack t (some (newStack stack))
      suspended := Function.update k.suspended t (some ⟨savedRegs mem t, mem⟩) }
  | .switch =>
    (runs code 27 k.cpu).map (fun cpu => { k with
      cpu := cpu
      currentThread := k.nextThread
      suspended := Function.update (Function.update k.suspended k.currentThread (some k.cpu.state)) k.nextThread none })
  | .delete t =>
    some { k with stack := Function.update k.stack t none, suspended := Function.update k.suspended t none }

end Kernel

/-- An object and a stack have a place of their own. -/
structure Fits (sym : Symbols) (places : Word → Option Stack) (t : Word) (st : Stack) : Prop where
  object : Aligned t
  save : sym._eax_save ∉ area t ∧ ¬ st.Has sym._eax_save
  own : ∀ a ∈ area t, ¬ st.Has a
  others : ∀ u st', places u = some st' → u ≠ t → ∀ a, a ∈ area t ∨ st.Has a → ¬ (a ∈ area u ∨ st'.Has a)

/-- `SWITCH` has been called on a stack. -/
structure OnStack (st : Stack) (esp : Word) : Prop where
  aligned : Aligned esp
  low : st.base.toNat ≤ esp.toNat
  high : esp.toNat + 12 ≤ st.limit.toNat

/-- What the events rely on. -/
def Allowed (sym : Symbols) (k : Kernel) : Event → Prop
  | .compute cpu => ∀ t st c a, k.stack t = some st → k.suspended t = some c → a ∈ area t ∨ st.Live c a →
      cpu.state.mem a = k.mem a
  | .fork t stack _ _ => k.stack t = none ∧ Aligned stack ∧ stack.toNat + 4 * StackSize < 2 ^ 32 ∧
      Fits sym k.stack t (newStack stack)
  | .switch => k.cpu.eip = sym.SWITCH ∧ k.mem (k.esp + 4) = k.currentThread ∧
      (∃ c, k.suspended k.nextThread = some c) ∧ ∃ st, k.stack k.currentThread = some st ∧ OnStack st k.esp
  | .delete t => t ≠ k.currentThread

/-- The main thread is running, and there is no other. -/
def Boot (sym : Symbols) (k : Kernel) : Prop :=
  ∃ st, k.stack = Function.update (fun _ => none) k.currentThread (some st) ∧ (k.suspended = fun _ => none) ∧
    Fits sym k.stack k.currentThread st

def kernels (code : Code) (sym : Symbols) : System Kernel Event := ⟨Boot sym, fun k e => k.step code sym e⟩

/-! ## The invariant -/

/-- A thread can be resumed in state `c`. -/
structure Waiting (mem : Word → Word) (t : Word) (st : Stack) (c : State) : Prop where
  saved : Saved mem t c.regs (c.mem (c.regs .esp))
  aligned : Aligned (c.regs .esp)
  low : st.base.toNat ≤ (c.regs .esp).toNat
  high : (c.regs .esp).toNat + 8 ≤ st.limit.toNat
  live : ∀ a, st.Live c a → mem a = c.mem a

structure Inv (sym : Symbols) (k : Kernel) : Prop where
  fits : ∀ t st, k.stack t = some st → Fits sym k.stack t st
  current : ∃ st, k.stack k.currentThread = some st
  running : k.suspended k.currentThread = none
  waiting : ∀ t c, k.suspended t = some c → ∃ st, k.stack t = some st ∧ Waiting k.mem t st c

variable {code : Code} {sym : Symbols} {k k' : Kernel} {t u stack func arg : Word} {st : Stack} {c : State}
  {mem mem' : Word → Word}

theorem Waiting.frame (h : Waiting mem t st c) (hobject : ∀ a ∈ area t, mem' a = mem a)
    (hlive : ∀ a, st.Live c a → mem' a = mem a) : Waiting mem' t st c := by
  refine ⟨⟨?_, ?_, ?_⟩, h.aligned, h.low, h.high, ?_⟩
  · rw [hobject _ (mem_area_eax t), h.saved.eax]
  · intro p hp
    rw [hobject _ (mem_area_of_callee t p hp), h.saved.others p hp]
  · rw [hobject _ (mem_area_pc t), h.saved.pc]
  · intro a ha
    rw [hlive a ha, h.live a ha]

/-- The words in use are on the stack. -/
theorem Waiting.has (h : Waiting mem t st c) {a : Word} (ha : st.Live c a) : st.Has a := ⟨le_trans h.low ha.1, ha.2⟩

theorem Waiting.live_add (h : Waiting mem t st c) (d : Word) (hd : d.toNat < 8) : st.Live c (c.regs .esp + d) := by
  have hhigh := h.high
  have hlt := st.limit.isLt
  unfold Stack.Live
  rw [BitVec.toNat_add]
  omega

theorem OnStack.has_add {esp : Word} (h : OnStack st esp) (d : Word) (hd : d.toNat < 12) : st.Has (esp + d) := by
  obtain ⟨-, hlow, hhigh⟩ := h
  have hlt := st.limit.isLt
  unfold Stack.Has
  rw [BitVec.toNat_add]
  omega

/-- Threads do not share a word. -/
theorem Inv.apart (hI : Inv sym k) {st' : Stack} (ht : k.stack t = some st) (hu : k.stack u = some st') (hne : u ≠ t)
    {a : Word} (ha : a ∈ area t ∨ st.Has a) : ¬ (a ∈ area u ∨ st'.Has a) :=
  (hI.fits t st ht).others u st' hu hne a ha

theorem inv_boot (h : Boot sym k) : Inv sym k := by
  obtain ⟨st, hstack, hsusp, hfits⟩ := h
  have hcur : k.stack k.currentThread = some st := by rw [hstack, Function.update_self]
  refine ⟨?_, ⟨st, hcur⟩, by rw [hsusp], ?_⟩
  · intro t st' ht
    rcases eq_or_ne t k.currentThread with rfl | hne
    · rw [hcur] at ht
      cases ht
      exact hfits
    · rw [hstack, Function.update_of_ne hne] at ht
      cases ht
  · intro t c ht
    rw [hsusp] at ht
    cases ht

theorem inv_compute (hI : Inv sym k) {cpu : Config} (hok : Allowed sym k (.compute cpu)) :
    Inv sym { k with cpu := cpu } := by
  refine ⟨hI.fits, hI.current, hI.running, ?_⟩
  intro t c hc
  obtain ⟨st, hst, hw⟩ := hI.waiting t c hc
  exact ⟨st, hst, hw.frame (fun a ha => hok t st c a hst hc (Or.inl ha)) (fun a ha => hok t st c a hst hc (Or.inr ha))⟩

/-! ## A new thread -/

theorem limit_newStack (hfit : stack.toNat + 4 * StackSize < 2 ^ 32) :
    (newStack stack).limit.toNat = stack.toNat + 4 * StackSize := by
  unfold newStack StackSize at *
  rw [BitVec.toNat_add, BitVec.toNat_ofNat]
  omega

theorem toNat_firstTop (hfit : stack.toNat + 4 * StackSize < 2 ^ 32) :
    (firstTop stack).toNat = stack.toNat + 4 * (StackSize - 4) - 4 := by
  unfold firstTop StackSize at *
  rw [BitVec.toNat_sub, BitVec.toNat_add, BitVec.toNat_ofNat]
  simp
  omega

theorem has_firstTop (hfit : stack.toNat + 4 * StackSize < 2 ^ 32) : (newStack stack).Has (firstTop stack) := by
  unfold Stack.Has
  rw [limit_newStack hfit, toNat_firstTop hfit]
  unfold StackSize newStack
  dsimp only
  omega

theorem has_base (hfit : stack.toNat + 4 * StackSize < 2 ^ 32) : (newStack stack).Has stack := by
  unfold Stack.Has
  rw [limit_newStack hfit]
  unfold StackSize newStack
  dsimp only
  omega

theorem allocated_of_fits (hfit : stack.toNat + 4 * StackSize < 2 ^ 32) (hf : Fits sym k.stack t (newStack stack))
    (func arg : Word) (mem : Word → Word) :
    Allocated sym t stack func arg mem (stackAllocate sym t stack func arg mem) := by
  refine stackAllocate_spec (fun hmem => hf.own _ hmem (has_firstTop hfit)) (fun heq => ?_) func arg mem
  have htop := toNat_firstTop hfit
  rw [heq] at htop
  unfold StackSize at htop
  omega

theorem waiting_new (hal : Aligned stack) (hfit : stack.toNat + 4 * StackSize < 2 ^ 32)
    (h : Allocated sym t stack func arg mem mem') :
    Waiting mem' t (newStack stack) ⟨savedRegs mem' t, mem'⟩ := by
  have htop := toNat_firstTop hfit
  refine ⟨?_, ?_, ?_, ?_, fun _ _ => rfl⟩
  · have hsaved := saved_savedRegs mem' t
    rw [h.pc] at hsaved
    show Saved mem' t (savedRegs mem' t) (mem' (savedRegs mem' t .esp))
    rw [h.esp, h.ret]
    exact hsaved
  · show Aligned (savedRegs mem' t .esp)
    rw [h.esp]
    exact (hal.add (by decide)).sub (by decide)
  · show (newStack stack).base.toNat ≤ (savedRegs mem' t .esp).toNat
    rw [h.esp]
    exact (has_firstTop hfit).1
  · show (savedRegs mem' t .esp).toNat + 8 ≤ _
    rw [h.esp, htop, limit_newStack hfit]
    unfold StackSize
    omega

theorem fork_eq (h : k.step code sym (.fork t stack func arg) = some k') :
    ∃ mem, mem = stackAllocate sym t stack func arg k.mem ∧ k'.mem = mem ∧ k'.currentThread = k.currentThread ∧
      k'.stack = Function.update k.stack t (some (newStack stack)) ∧
      k'.suspended = Function.update k.suspended t (some ⟨savedRegs mem t, mem⟩) := by
  cases h
  exact ⟨_, rfl, rfl, rfl, rfl, rfl⟩

/-- A new thread next to those that there are. -/
theorem fits_update {places : Word → Option Stack} (hfits : ∀ u st, places u = some st → Fits sym places u st)
    (hf : Fits sym places t st) : ∀ u st', Function.update places t (some st) u = some st' →
      Fits sym (Function.update places t (some st)) u st' := by
  intro u st' hu
  rcases eq_or_ne u t with rfl | hut
  · rw [Function.update_self] at hu
    cases hu
    refine ⟨hf.object, hf.save, hf.own, ?_⟩
    intro v st' hv hvu a ha
    rw [Function.update_of_ne hvu] at hv
    exact hf.others v st' hv hvu a ha
  · rw [Function.update_of_ne hut] at hu
    have hfu := hfits u st' hu
    refine ⟨hfu.object, hfu.save, hfu.own, ?_⟩
    intro v st'' hv hvu a ha
    rcases eq_or_ne v t with rfl | hvt
    · rw [Function.update_self] at hv
      cases hv
      exact fun hin => hf.others u st' hu hut a hin ha
    · rw [Function.update_of_ne hvt] at hv
      exact hfu.others v st'' hv hvu a ha

theorem inv_fork (hI : Inv sym k) (hok : Allowed sym k (.fork t stack func arg))
    (h : k.step code sym (.fork t stack func arg) = some k') : Inv sym k' := by
  obtain ⟨hnew, hal, hfit, hf⟩ := hok
  obtain ⟨mem, rfl, hmem, hcur, hstack, hsusp⟩ := fork_eq h
  have hspec := allocated_of_fits hfit hf func arg k.mem
  obtain ⟨st0, hst0⟩ := hI.current
  have hlive : ∀ u st, k.stack u = some st → u ≠ t := by
    rintro u st hu rfl
    rw [hnew] at hu
    cases hu
  have hne := hlive _ _ hst0
  -- the words of the threads that there were
  have hold : ∀ u st, k.stack u = some st → ∀ a, a ∈ area u ∨ st.Has a → k'.mem a = k.mem a := by
    intro u st hu a ha
    have hout : ¬ (a ∈ area t ∨ (newStack stack).Has a) := fun hin => hf.others u st hu (hlive u st hu) a hin ha
    rw [hmem]
    refine hspec.frame a (fun hin => hout (Or.inl hin)) ?_ ?_
    · rintro rfl
      exact hout (Or.inr (has_firstTop hfit))
    · rintro rfl
      exact hout (Or.inr (has_base hfit))
  refine ⟨?_, ⟨st0, ?_⟩, ?_, ?_⟩
  · rw [hstack]
    exact fits_update hI.fits hf
  · rw [hcur, hstack, Function.update_of_ne hne, hst0]
  · rw [hcur, hsusp, Function.update_of_ne hne, hI.running]
  · intro u c hu
    rw [hsusp] at hu
    rw [hstack]
    rcases eq_or_ne u t with rfl | hut
    · rw [Function.update_self] at hu
      cases hu
      rw [hmem]
      exact ⟨newStack stack, Function.update_self _ _ _, waiting_new hal hfit hspec⟩
    · rw [Function.update_of_ne hut] at hu
      obtain ⟨st, hst, hw⟩ := hI.waiting u c hu
      exact ⟨st, (Function.update_of_ne hut _ _).trans hst, hw.frame (fun a ha => hold u st hst a (Or.inl ha))
        (fun a ha => hold u st hst a (Or.inr (hw.has ha)))⟩

theorem inv_delete (hI : Inv sym k) (hok : Allowed sym k (.delete t))
    (h : k.step code sym (.delete t) = some k') : Inv sym k' := by
  cases h
  obtain ⟨st0, hst0⟩ := hI.current
  have hsub : ∀ u st, Function.update k.stack t none u = some st → u ≠ t ∧ k.stack u = some st := by
    intro u st hu
    rcases eq_or_ne u t with rfl | hut
    · rw [Function.update_self] at hu
      cases hu
    · rw [Function.update_of_ne hut] at hu
      exact ⟨hut, hu⟩
  refine ⟨?_, ⟨st0, (Function.update_of_ne (Ne.symm hok) _ _).trans hst0⟩,
    (Function.update_of_ne (Ne.symm hok) _ _).trans hI.running, ?_⟩
  · intro u st hu
    have hfu := hI.fits u st (hsub u st hu).2
    exact ⟨hfu.object, hfu.save, hfu.own, fun v st' hv => hfu.others v st' (hsub v st' hv).2⟩
  · intro u c hu
    rcases eq_or_ne u t with rfl | hut
    · exact absurd ((Function.update_self _ _ _).symm.trans hu) (by simp)
    · obtain ⟨st, hst, hw⟩ := hI.waiting u c ((Function.update_of_ne hut _ _).symm.trans hu)
      exact ⟨st, (Function.update_of_ne hut _ _).trans hst, hw⟩

/-! ## The switch -/

/-- **What a switch does**: the thread that is switched to goes on where it is suspended, and the one that
has called is suspended. -/
theorem switch_step (hl : Linked code sym) (hI : Inv sym k) (hok : Allowed sym k .switch) {c : State}
    (hc : k.suspended k.nextThread = some c) :
    ∃ st mem, k.stack k.nextThread = some st ∧ Waiting k.mem k.nextThread st c ∧
      k.step code sym .switch = some ⟨⟨c.mem (c.regs .esp), ⟨Function.update c.regs .esp (c.regs .esp + 4), mem⟩⟩,
        k.nextThread, k.stack,
        Function.update (Function.update k.suspended k.currentThread (some k.cpu.state)) k.nextThread none⟩ ∧
      Saved mem k.currentThread k.cpu.state.regs (k.mem k.esp) ∧
      ∀ a, a ∉ area k.currentThread → a ≠ sym._eax_save → a ≠ c.regs .esp + 4 → mem a = k.mem a := by
  obtain ⟨heip, hold, -, st0, hst0, hon⟩ := hok
  obtain ⟨st, hst, hw⟩ := hI.waiting _ c hc
  have hne : k.nextThread ≠ k.currentThread := by
    intro heq
    rw [heq, hI.running] at hc
    cases hc
  have hf0 := hI.fits _ _ hst0
  have hf := hI.fits _ _ hst
  have hcalled : Called sym._eax_save k.cpu.state k.currentThread k.nextThread := by
    refine ⟨hold, rfl, hf0.object, hon.aligned, hf0.save.1, ?_⟩
    intro d hd
    have hhas : st0.Has (k.esp + d) := hon.has_add d (by
      simp only [List.mem_cons, List.not_mem_nil, or_false] at hd
      rcases hd with rfl | rfl | rfl <;> decide)
    exact ⟨fun hin => hf0.own _ hin hhas, fun heq => hf0.save.2 (heq ▸ hhas)⟩
  have hstack : ∀ d ∈ ([0, 4] : List Word), st.Live c (c.regs .esp + d) := by
    intro d hd
    exact hw.live_add d (by
      simp only [List.mem_cons, List.not_mem_nil, or_false] at hd
      rcases hd with rfl | rfl <;> decide)
  have hres : Resumable sym._eax_save k.mem k.nextThread c := by
    refine ⟨hw.saved, ?_, hf.object, hw.aligned, hf.save.1, ?_⟩
    · have h0 := hw.live _ (hstack 0 (by decide))
      rwa [add_zero_word] at h0
    · exact fun d hd heq => hf.save.2 (heq ▸ hw.has (hstack d hd))
  have hap : Apart k.currentThread k.nextThread c := by
    refine ⟨fun a ha hin => hI.apart hst hst0 hne.symm (Or.inl ha) (Or.inl hin), ?_⟩
    exact fun d hd hin => hI.apart hst hst0 hne.symm (Or.inr (hw.has (hstack d hd))) (Or.inl hin)
  obtain ⟨mem, hruns, hsaved, hframe⟩ := switch_spec hl hcalled hres hap
  refine ⟨st, mem, hst, hw, ?_, hsaved, hframe⟩
  rw [Kernel.step, show k.cpu = ⟨sym.SWITCH, k.cpu.state⟩ by rw [← heip], hruns, Option.map_some]

theorem inv_switch (hl : Linked code sym) (hI : Inv sym k) (hok : Allowed sym k .switch)
    (h : k.step code sym .switch = some k') : Inv sym k' := by
  obtain ⟨c, hc⟩ := hok.2.2.1
  obtain ⟨st, mem, hst, hw, hstep, hsaved, hframe⟩ := switch_step hl hI hok hc
  obtain ⟨-, -, -, st0, hst0, hon⟩ := hok
  cases hstep.symm.trans h
  have hsep : ∀ u st', k.stack u = some st' → u ≠ k.currentThread → u ≠ k.nextThread →
      ∀ a, a ∈ area u ∨ st'.Has a → mem a = k.mem a := by
    intro u st' hu hcur hnext a ha
    refine hframe a (fun hin => hI.apart hu hst0 hcur.symm ha (Or.inl hin)) ?_ ?_
    · rintro rfl
      exact ha.elim (hI.fits u st' hu).save.1 (hI.fits u st' hu).save.2
    · rintro rfl
      exact hI.apart hu hst hnext.symm ha (Or.inr (hw.has (hw.live_add 4 (by decide))))
  refine ⟨hI.fits, ⟨st, hst⟩, Function.update_self _ _ _, ?_⟩
  intro u d hu
  have hnext : u ≠ k.nextThread := by
    rintro rfl
    exact absurd ((Function.update_self _ _ _).symm.trans hu) (by simp)
  replace hu := (Function.update_of_ne hnext _ _).symm.trans hu
  rcases eq_or_ne u k.currentThread with rfl | hcur
  · cases (Function.update_self _ _ _).symm.trans hu
    refine ⟨st0, hst0, hsaved, hon.aligned, hon.low, le_trans (Nat.add_le_add_left (by decide) _) hon.high, ?_⟩
    intro a ha
    have hhas : st0.Has a := ⟨le_trans hon.low ha.1, ha.2⟩
    refine hframe a (fun hin => (hI.fits _ _ hst0).own a hin hhas) ?_ ?_
    · rintro rfl
      exact (hI.fits _ _ hst0).save.2 hhas
    · rintro rfl
      exact hI.apart hst0 hst hnext.symm (Or.inr hhas) (Or.inr (hw.has (hw.live_add 4 (by decide))))
  · obtain ⟨st', hst', hw'⟩ := hI.waiting u d ((Function.update_of_ne hcur _ _).symm.trans hu)
    exact ⟨st', hst', hw'.frame (fun a ha => hsep u st' hst' hcur hnext a (Or.inl ha))
      (fun a ha => hsep u st' hst' hcur hnext a (Or.inr (hw'.has ha)))⟩

theorem inv_step (hl : Linked code sym) (hI : Inv sym k) {e : Event} (hok : Allowed sym k e)
    (h : k.step code sym e = some k') : Inv sym k' := by
  cases e with
  | compute cpu =>
    cases h
    exact inv_compute hI hok
  | fork t stack func arg => exact inv_fork hI hok h
  | switch => exact inv_switch hl hI hok h
  | delete t => exact inv_delete hI hok h

theorem inv_of_reachable (hl : Linked code sym) (h : (kernels code sym).ReachableBy (Allowed sym) k) : Inv sym k :=
  h.invariant (fun _ => inv_boot) (fun _ _ _ _ hI hok he => inv_step hl hI hok he)

/-! ## From one switch to the next -/

/-- Runs in which `t` is not switched to and not deleted, from `k`. -/
def Away (code : Code) (sym : Symbols) (k : Kernel) (t : Word) : Kernel → Prop :=
  System.ReachableBy ⟨(· = k), fun k e => k.step code sym e⟩
    (fun k e => Allowed sym k e ∧ (e = .switch → k.nextThread ≠ t) ∧ e ≠ .delete t)

/-- A thread stays suspended, in one state and with one stack. -/
theorem suspended_stays (hl : Linked code sym) (hI : Inv sym k) (hst : k.stack t = some st)
    (hc : k.suspended t = some c) (h : Away code sym k t k') :
    Inv sym k' ∧ k'.stack t = some st ∧ k'.suspended t = some c := by
  refine System.ReachableBy.invariant (I := fun s => Inv sym s ∧ s.stack t = some st ∧ s.suspended t = some c)
    (fun s hs => ?_) (fun s e s' _ hIH hok he => ?_) h
  · cases hs
    exact ⟨hI, hst, hc⟩
  · obtain ⟨hI', hst', hc'⟩ := hIH
    obtain ⟨hallowed, hswitch, hdelete⟩ := hok
    replace he : s.step code sym e = some s' := he
    refine ⟨inv_step hl hI' hallowed he, ?_⟩
    cases e with
    | compute cpu =>
      cases he
      exact ⟨hst', hc'⟩
    | fork u stack func arg =>
      obtain ⟨mem, -, -, -, hstack, hsusp⟩ := fork_eq he
      have hne : t ≠ u := by
        rintro rfl
        exact absurd (hst'.symm.trans hallowed.1) (by simp)
      rw [hstack, hsusp, Function.update_of_ne hne, Function.update_of_ne hne]
      exact ⟨hst', hc'⟩
    | switch =>
      obtain ⟨d, hd⟩ := hallowed.2.2.1
      obtain ⟨st', mem, -, -, hstep, -, -⟩ := switch_step hl hI' hallowed hd
      cases hstep.symm.trans he
      have hcur : t ≠ s.currentThread := by
        rintro rfl
        exact absurd (hc'.symm.trans hI'.running) (by simp)
      refine ⟨hst', ?_⟩
      show Function.update _ _ _ _ = _
      rw [Function.update_of_ne (hswitch rfl).symm, Function.update_of_ne hcur, hc']
    | delete u =>
      cases he
      have hne : t ≠ u := fun heq => hdelete (heq ▸ rfl)
      exact ⟨(Function.update_of_ne hne _ _).trans hst', (Function.update_of_ne hne _ _).trans hc'⟩

/-- `SWITCH(currentThread, next)` is called, from `ret` and with this stack pointer. -/
def Kernel.call (k : Kernel) (sym : Symbols) (esp next ret : Word) : Config :=
  ⟨sym.SWITCH, ⟨Function.update k.cpu.state.regs .esp esp,
    Function.update (Function.update (Function.update k.mem esp ret) (esp + 4) k.currentThread) (esp + 8) next⟩⟩

theorem allowed_call (hI : Inv sym k) (hst : k.stack k.currentThread = some st) {esp : Word} (hon : OnStack st esp)
    (next ret : Word) : Allowed sym k (.compute (k.call sym esp next ret)) := by
  intro u st' c a hu hc ha
  obtain ⟨st'', hst'', hw⟩ := hI.waiting u c hc
  cases hst''.symm.trans hu
  have hne : u ≠ k.currentThread := by
    rintro rfl
    exact absurd (hc.symm.trans hI.running) (by simp)
  have hout : ¬ st.Has a := fun hin => hI.apart hu hst hne.symm (ha.imp id hw.has) (Or.inr hin)
  have hsep : ∀ d : Word, d.toNat < 12 → a ≠ esp + d := fun d hd heq => hout (heq ▸ hon.has_add d hd)
  have h0 := hsep 0 (by decide)
  rw [add_zero_word] at h0
  show Function.update _ _ _ _ = _
  rw [Function.update_of_ne (hsep 8 (by decide)), Function.update_of_ne (hsep 4 (by decide)), Function.update_of_ne h0]

theorem allowed_switch_of_call (sym : Symbols) {esp next : Word} (ret : Word) (hc : k.suspended next = some c)
    (hst : k.stack k.currentThread = some st) (hon : OnStack st esp) :
    Allowed sym { k with cpu := k.call sym esp next ret } .switch ∧
      Kernel.nextThread { k with cpu := k.call sym esp next ret } = next := by
  have hesp : Kernel.esp { k with cpu := k.call sym esp next ret } = esp := by
    show Function.update k.cpu.state.regs .esp esp .esp = esp
    rw [Function.update_self]
  have hnext : Kernel.nextThread { k with cpu := k.call sym esp next ret } = next := by
    rw [Kernel.nextThread, hesp]
    show Function.update _ _ _ _ = _
    rw [Function.update_self]
  refine ⟨⟨rfl, ?_, ⟨c, by rw [hnext]; exact hc⟩, st, hst, by rwa [hesp]⟩, hnext⟩
  rw [hesp]
  show Function.update _ _ _ _ = _
  rw [Function.update_of_ne (add_ne esp (by decide)), Function.update_self]

/-! ## An example -/

def exampleSymbols : Symbols := ⟨0x100, 0x200, 0x300, 0x400, 0x500⟩

/-- Instructions of one byte each. -/
def codeFrom (base : Word) (l : List Instr) (a : Word) : Option (Instr × Word) := (l[(a - base).toNat]?).map (·, a + 1)

def exampleCode : Code := fun a =>
  (codeFrom exampleSymbols.SWITCH (SWITCH exampleSymbols._eax_save) a).orElse
    (fun _ => codeFrom exampleSymbols.ThreadRoot ThreadRoot a)

theorem linked_example : Linked exampleCode exampleSymbols := by
  refine ⟨⟨0x100 + 27, ?_⟩, ⟨0x200 + 9, ?_⟩, by decide⟩
  · repeat refine ⟨_, rfl, ?_⟩
    rfl
  · repeat refine ⟨_, rfl, ?_⟩
    rfl

/-- The main thread at 0x1000, in front of `SWITCH`. -/
def bootKernel : Kernel where
  cpu := ⟨0x1234, ⟨Function.update (fun _ => 0) .esp 0x108000, fun _ => 0⟩⟩
  currentThread := 0x1000
  stack := Function.update (fun _ => none) 0x1000 (some ⟨0x100000, 0x110000⟩)
  suspended := fun _ => none

theorem stack_bootKernel {u : Word} {st : Stack} (h : bootKernel.stack u = some st) :
    u = 0x1000 ∧ st = ⟨0x100000, 0x110000⟩ := by
  change Function.update (fun _ => none) (0x1000 : Word) (some (⟨0x100000, 0x110000⟩ : Stack)) u = some st at h
  rcases eq_or_ne u 0x1000 with rfl | hne
  · rw [Function.update_self] at h
    exact ⟨rfl, (Option.some_inj.1 h).symm⟩
  · rw [Function.update_of_ne hne] at h
    cases h

theorem toNat_of_mem_area {a : Word} (ha : a ∈ area t) (h : t.toNat + 36 < 2 ^ 32) :
    t.toNat ≤ a.toNat ∧ a.toNat < t.toNat + 36 := by
  obtain ⟨d, hd, rfl⟩ := List.mem_map.1 ha
  have hlt : d.toNat ≤ 32 := by
    simp only [List.mem_cons, List.not_mem_nil, or_false] at hd
    rcases hd with rfl | rfl | rfl | rfl | rfl | rfl | rfl | rfl | rfl <;> decide
  rw [BitVec.toNat_add]
  omega

theorem boot_example : Boot exampleSymbols bootKernel := by
  refine ⟨⟨0x100000, 0x110000⟩, rfl, rfl, by decide, ⟨by decide, by decide⟩, ?_, ?_⟩
  · intro a ha hst
    have hlt := (toNat_of_mem_area ha (by decide)).2
    exact absurd (lt_of_le_of_lt hst.1 hlt) (by decide)
  · intro u st' hu hne
    exact absurd (stack_bootKernel hu).1 hne

theorem allowed_fork_example : Allowed exampleSymbols bootKernel (.fork 0x2000 0x200000 0x600 7) := by
  refine ⟨by decide, by decide, by decide, by decide, ⟨by decide, by decide⟩, ?_, ?_⟩
  · intro a ha hst
    have hlt := (toNat_of_mem_area ha (by decide)).2
    exact absurd (lt_of_le_of_lt hst.1 hlt) (by decide)
  · intro u st' hu hne a ha
    obtain ⟨rfl, rfl⟩ := stack_bootKernel hu
    have ha' : (0x2000 ≤ a.toNat ∧ a.toNat < 0x2024) ∨ (0x200000 ≤ a.toNat ∧ a.toNat < 0x204000) :=
      ha.imp (fun h => toNat_of_mem_area (t := 0x2000) h (by decide)) id
    rintro (h | h)
    · have hlt := toNat_of_mem_area h (by decide)
      change 0x1000 ≤ _ ∧ _ < 0x1024 at hlt
      omega
    · change 0x100000 ≤ _ ∧ _ < 0x110000 at h
      omega
/-- A thread is forked at 0x2000, with its stack at 0x200000. -/
def forkedKernel : Kernel :=
  ⟨⟨0x1234, ⟨bootKernel.cpu.state.regs, stackAllocate exampleSymbols 0x2000 0x200000 0x600 7 bootKernel.mem⟩⟩, 0x1000,
    Function.update bootKernel.stack 0x2000 (some (newStack 0x200000)),
    Function.update bootKernel.suspended 0x2000 (some ⟨savedRegs (stackAllocate exampleSymbols 0x2000 0x200000 0x600 7
      bootKernel.mem) 0x2000, stackAllocate exampleSymbols 0x2000 0x200000 0x600 7 bootKernel.mem⟩)⟩

theorem fork_example :
    bootKernel.step exampleCode exampleSymbols (.fork 0x2000 0x200000 0x600 7) = some forkedKernel := rfl

theorem inv_forked : Inv exampleSymbols forkedKernel :=
  inv_fork (inv_boot boot_example) allowed_fork_example fork_example

theorem stack_forked : forkedKernel.stack forkedKernel.currentThread = some ⟨0x100000, 0x110000⟩ := rfl

theorem onStack_example : OnStack ⟨0x100000, 0x110000⟩ 0x107f00 := ⟨by decide, by decide, by decide⟩

/-- The main thread yields. -/
def yieldingKernel : Kernel := { forkedKernel with cpu := forkedKernel.call exampleSymbols 0x107f00 0x2000 0x1300 }

theorem allowed_yield : Allowed exampleSymbols yieldingKernel .switch ∧ yieldingKernel.nextThread = 0x2000 :=
  allowed_switch_of_call _ _ rfl stack_forked onStack_example

theorem reachable_yielding :
    (kernels exampleCode exampleSymbols).ReachableBy (Allowed exampleSymbols) yieldingKernel :=
  .step (.step (.init boot_example) allowed_fork_example fork_example)
    (allowed_call inv_forked stack_forked onStack_example 0x2000 0x1300) rfl

/-- The new thread runs. -/
theorem switched_example : ∃ k₁ : Kernel, yieldingKernel.step exampleCode exampleSymbols .switch = some k₁ ∧
    Inv exampleSymbols k₁ ∧ k₁.currentThread = 0x2000 ∧ k₁.stack k₁.currentThread = some (newStack 0x200000) ∧
    k₁.suspended 0x1000 = some yieldingKernel.cpu.state := by
  obtain ⟨hyield, hnext⟩ := allowed_yield
  have hI := inv_of_reachable linked_example reachable_yielding
  obtain ⟨c, hc⟩ := hyield.2.2.1
  obtain ⟨-, mem, -, -, hstep, -, -⟩ := switch_step linked_example hI hyield hc
  have hI₁ := inv_switch linked_example hI hyield hstep
  rw [hnext] at hstep hI₁
  exact ⟨_, hstep, hI₁, rfl, rfl, rfl⟩

/-! ## Every run -/

/-- **`SWITCH` returns**: a thread that has called it goes on behind the call when it is switched to, with
the registers of the call and, its first argument apart, the stack of the call.  Between the two, any
threads may have run, come and gone. -/
theorem switch_resumes (hl : Linked code sym) {k₀ k₁ k₂ : Kernel}
    (hr : (kernels code sym).ReachableBy (Allowed sym) k₀) (hok : Allowed sym k₀ .switch)
    (hcall : k₀.step code sym .switch = some k₁) (haway : Away code sym k₁ k₀.currentThread k₂)
    (hok' : Allowed sym k₂ .switch) (hback : k₂.nextThread = k₀.currentThread) :
    ∃ k₃ st, k₂.step code sym .switch = some k₃ ∧ k₃.currentThread = k₀.currentThread ∧
      k₃.cpu.eip = k₀.mem k₀.esp ∧ k₃.cpu.state.regs = Function.update k₀.cpu.state.regs .esp (k₀.esp + 4) ∧
      k₀.stack k₀.currentThread = some st ∧
      ∀ a, st.Live k₀.cpu.state a → a ≠ k₀.esp + 4 → k₃.mem a = k₀.mem a := by
  have hI := inv_of_reachable hl hr
  obtain ⟨c, hc⟩ := hok.2.2.1
  obtain ⟨st', mem, hst', -, hstep, -, -⟩ := switch_step hl hI hok hc
  have hI₁ := inv_switch hl hI hok hcall
  cases hstep.symm.trans hcall
  obtain ⟨-, -, -, st, hst, -⟩ := hok
  have hne : k₀.currentThread ≠ k₀.nextThread := by
    intro heq
    rw [← heq, hI.running] at hc
    cases hc
  obtain ⟨hI₂, hst₂, hc₂⟩ := suspended_stays hl hI₁ hst
    ((Function.update_of_ne hne _ _).trans (Function.update_self _ _ _)) haway
  obtain ⟨st'', mem', hst'', hw, hstep', -, hframe⟩ := switch_step hl hI₂ hok' (hback.symm ▸ hc₂)
  rw [hback, hst₂] at hst''
  cases hst''
  refine ⟨_, st, hstep', hback, rfl, rfl, hst, ?_⟩
  intro a ha hne4
  have hcur : k₂.currentThread ≠ k₀.currentThread := by
    intro heq
    rw [← heq, hI₂.running] at hc₂
    cases hc₂
  obtain ⟨st₂, hst₂'⟩ := hI₂.current
  have hhas := hw.has ha
  refine (hframe a (fun hin => ?_) ?_ hne4).trans (hw.live a ha)
  · exact hI₂.apart hst₂ hst₂' hcur (Or.inr hhas) (Or.inl hin)
  · rintro rfl
    exact (hI₂.fits _ _ hst₂).save.2 hhas

/-- The new thread yields, and the main thread returns from its call of `SWITCH`. -/
theorem switch_resumes_main : ∃ k₁ k₂ k₃ : Kernel, yieldingKernel.step exampleCode exampleSymbols .switch = some k₁ ∧
    k₁.currentThread = 0x2000 ∧ k₂.step exampleCode exampleSymbols .switch = some k₃ ∧ k₃.currentThread = 0x1000 ∧
    k₃.cpu.eip = 0x1300 ∧ k₃.esp = 0x107f04 ∧ k₃.mem 0x107f08 = 0x2000 := by
  obtain ⟨k₁, hstep, hI₁, hcur₁, hst₁, hc₁⟩ := switched_example
  have hon : OnStack (newStack 0x200000) 0x203000 := ⟨by decide, by decide, by decide⟩
  obtain ⟨hback, hnext⟩ := allowed_switch_of_call exampleSymbols 0x700 hc₁ hst₁ hon
  obtain ⟨k₃, st, hstep₃, hcur, heip, hregs, hst, hlive⟩ := switch_resumes linked_example reachable_yielding
    allowed_yield.1 hstep (.step (.init rfl) ⟨allowed_call hI₁ hst₁ hon 0x1000 0x700, by simp, by simp⟩ rfl) hback hnext
  refine ⟨k₁, _, k₃, hstep, hcur₁, hstep₃, hcur, heip, ?_, ?_⟩
  · show k₃.cpu.state.regs .esp = _
    rw [hregs]
    rfl
  · cases hst
    exact (hlive 0x107f08 ⟨by decide, by decide⟩ (by decide)).trans rfl

/-- **A new thread**, when it is first switched to, calls `InterruptEnable`, then its function with its
argument, then `ThreadFinish`. -/
theorem thread_starts (hl : Linked code sym) {k₀ k₁ k₂ : Kernel}
    (hr : (kernels code sym).ReachableBy (Allowed sym) k₀) (hok : Allowed sym k₀ (.fork t stack func arg))
    (hfork : k₀.step code sym (.fork t stack func arg) = some k₁) (haway : Away code sym k₁ t k₂)
    (hok' : Allowed sym k₂ .switch) (hnext : k₂.nextThread = t) :
    ∃ k₃ c₁, k₂.step code sym .switch = some k₃ ∧ k₃.currentThread = t ∧ k₃.cpu.eip = sym.ThreadRoot ∧
      runs code 4 k₃.cpu = some c₁ ∧ c₁.eip = sym.InterruptEnable ∧
      ∀ c₁', Returned (newStack stack).limit 0 c₁ c₁' →
        ∃ c₂, I386.step code c₁' = some c₂ ∧ c₂.eip = func ∧ c₂.state.mem (c₂.state.regs .esp + 4) = arg ∧
          ∀ c₂', Returned (newStack stack).limit 1 c₂ c₂' →
            ∃ c₃, I386.step code c₂' = some c₃ ∧ c₃.eip = sym.ThreadFinish := by
  have hI := inv_of_reachable hl hr
  have hI₁ := inv_fork hI hok hfork
  obtain ⟨-, hal, hfit, hf⟩ := hok
  obtain ⟨mem, rfl, -, -, hstack, hsusp⟩ := fork_eq hfork
  have hspec := allocated_of_fits hfit hf func arg k₀.mem
  generalize stackAllocate sym t stack func arg k₀.mem = mem at hspec hsusp
  have hst₁ : k₁.stack t = some (newStack stack) := by rw [hstack, Function.update_self]
  have hc₁ : k₁.suspended t = some ⟨savedRegs mem t, mem⟩ := by rw [hsusp, Function.update_self]
  obtain ⟨hI₂, hst₂, hc₂⟩ := suspended_stays hl hI₁ hst₁ hc₁ haway
  obtain ⟨-, mem', -, -, hstep, -, -⟩ := switch_step hl hI₂ hok' (by rw [hnext]; exact hc₂)
  rw [hnext] at hstep
  have htop := toNat_firstTop hfit
  have hesp : savedRegs mem t .esp = firstTop stack := hspec.esp
  have hal' : Aligned (firstTop stack + 4) := ((hal.add (by decide)).sub (by decide)).add (by decide)
  have htop' : (firstTop stack + 4).toNat = stack.toNat + 4 * (StackSize - 4) := by
    unfold StackSize at *
    rw [BitVec.toNat_add, htop, show (4 : Word).toNat = 4 from rfl]
    omega
  have hregs : ∀ r, r ≠ .esp →
      Function.update (savedRegs mem t) .esp (savedRegs mem t .esp + 4) r = savedRegs mem t r :=
    fun r hr => Function.update_of_ne hr _ _
  have hsp : Function.update (savedRegs mem t) .esp (savedRegs mem t .esp + 4) .esp = firstTop stack + 4 := by
    rw [Function.update_self, hesp]
  generalize Function.update (savedRegs mem t) .esp (savedRegs mem t .esp + 4) = regs
    at hstep hregs hsp
  have hlow : 12 ≤ (regs .esp).toNat := by
    rw [hsp, htop']
    unfold StackSize
    omega
  have hhigh : (regs .esp).toNat ≤ (newStack stack).limit.toNat := by
    rw [hsp, htop', limit_newStack hfit]
    unfold StackSize
    omega
  rw [← hsp] at hal'
  have hcalls := threadRoot_calls (s := ⟨regs, mem'⟩) hl hal' hlow hhigh
  dsimp only at hcalls
  rw [hregs StartupPC (by decide), hspec.startup, hregs InitialPC (by decide), hspec.initial,
    hregs InitialArg (by decide), hspec.arg, hregs WhenDonePC (by decide), hspec.done, ← hspec.ret, ← hesp] at hcalls
  obtain ⟨c₁, hruns, heip, hrest⟩ := hcalls
  refine ⟨_, c₁, hstep, rfl, ?_, hruns, heip, hrest⟩
  show mem (savedRegs mem t .esp) = _
  rw [hesp, hspec.ret]

theorem thread_starts_forked : ∃ k₃ c₁, yieldingKernel.step exampleCode exampleSymbols .switch = some k₃ ∧
    k₃.cpu.eip = 0x200 ∧ runs exampleCode 4 k₃.cpu = some c₁ ∧ c₁.eip = 0x400 := by
  obtain ⟨k₃, c₁, hstep, -, heip, hruns, heip', -⟩ := thread_starts linked_example (.init boot_example)
    allowed_fork_example fork_example
    (.step (.init rfl) ⟨allowed_call inv_forked stack_forked onStack_example 0x2000 0x1300, by simp, by simp⟩ rfl)
    allowed_yield.1 allowed_yield.2
  exact ⟨k₃, c₁, hstep, heip, hruns, heip'⟩

end Switch

end Nachos
