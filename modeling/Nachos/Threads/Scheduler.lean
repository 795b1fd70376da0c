import Nachos.Threads.Synch

/-!
# Threads, the scheduler and the interrupt level

Embedding of `Thread::Fork`, `Finish`, `Yield`, `Sleep` (`threads/thread.cc`),
`Scheduler::ReadyToRun`, `FindNextToRun`, `Run` (`threads/scheduler.cc`), `Semaphore::P`, `V`
(`threads/synch.cc`), `Interrupt::SetLevel`, `OneTick`, `Idle`, `CheckIfDue`
(`machine/interrupt.cc`), `init_func` and the hand-over of the CPU in `PCB::Exec`
(`threads/pcb.cc`).

There is one CPU.  `Kernel.ctl` says where it is: outside the primitives, or at one of the
places inside them at which something can still happen.  A thread that is switched out keeps
the place `SWITCH` will return to in `resume` (its kernel stack).  Devices are the events
`handler` (a due interrupt handler, which calls `V` on some semaphores and may ask for a yield)
and `noneDue` (`CheckIfDue` returns `FALSE`).

User code is seen through its register file only: `user f` is any instruction, or any register
write that the kernel does for the running thread inside one of its system calls.

A `Thread *` is an allocation number, so an address is never handed out twice.  Stacks, the
fence-post check and the statistics are not modelled.

* `step_cases` — what a step can do.  Every invariant of the kernel is proved from it.
-/

set_option autoImplicit false

namespace Nachos

/-- A `Semaphore *`. -/
abbrev SemId := Nat

inductive ThreadStatus where
  | justCreated
  | running
  | ready
  | blocked
  deriving DecidableEq, Repr

/-- What a context switch reads of an `AddrSpace`: the address of its page table, and `numPages`. -/
structure SpaceRef where
  pageTable : Nat
  numPages : Nat
  deriving DecidableEq, Repr

/-- Where a thread goes on when `SWITCH` next returns to it. -/
inductive Resume where
  /-- never dispatched: `ThreadRoot` -/
  | threadRoot
  /-- `Run`, called by `Sleep`, called by `P` -/
  | sleepInP (s : SemId) (oldLevel : IntStatus)
  /-- `Run`, called by `Sleep`, called by `Finish` -/
  | sleepInFinish
  /-- `Run`, called by `Yield` -/
  | runInYield (oldLevel : IntStatus)
  deriving DecidableEq, Repr

/-- What the CPU is executing. -/
inductive Ctl where
  /-- code of the current thread outside the primitives -/
  | outside
  /-- the loop test of `P` -/
  | inP (s : SemId) (oldLevel : IntStatus)
  /-- the loop of `Sleep`; `after` is where its `Run` will return -/
  | inSleep (after : Resume)
  /-- `Idle`, before `CheckIfDue(TRUE)` -/
  | inIdle (after : Resume)
  /-- `Idle`, in the loop over `CheckIfDue(FALSE)` -/
  | inIdleLoop (after : Resume)
  /-- `Run(next)`, up to and including `SWITCH` -/
  | atSwitch (next : Tid) (after : Resume)
  /-- the `SetLevel(oldLevel)` that ends a primitive -/
  | setLevel (oldLevel : IntStatus)
  /-- the loop over `CheckIfDue(FALSE)` in `OneTick` -/
  | inOneTick
  /-- `Interrupt::Halt` -/
  | halted
  deriving DecidableEq, Repr

/-- The kernel's global variables and the fields of its `Thread` objects. -/
structure Kernel where
  currentThread : Tid
  threadToBeDestroyed : Option Tid
  readyList : List Tid
  sems : SemId → Semaphore
  level : IntStatus
  yieldOnReturn : Bool
  /-- next allocation number of `new Thread` -/
  nextTid : Tid
  /-- `Thread::status`, `none` where there is no such object (any more) -/
  status : Tid → Option ThreadStatus
  /-- `Thread::machineState` and the kernel stack -/
  resume : Tid → Resume
  /-- `Thread::space` -/
  space : Tid → Option SpaceRef
  /-- `Thread::userRegisters` -/
  userRegisters : Tid → Regs
  /-- `Machine::registers` -/
  registers : Regs
  /-- `Machine::pageTable` and `Machine::pageTableSize` -/
  pageTable : Option SpaceRef
  ctl : Ctl
  /-- history: has called `Finish` -/
  finished : Tid → Bool
  /-- history: runs user code (`InitRegisters` has been executed for it) -/
  started : Tid → Bool
  /-- history: the interrupt level at the thread's last call of a primitive, or set by itself
      since then -/
  ownLevel : Tid → IntStatus

namespace Kernel

/-- `Scheduler::ReadyToRun`. -/
def readyToRun (k : Kernel) (t : Tid) : Kernel :=
  { k with
    status := Function.update k.status t (some .ready)
    readyList := k.readyList ++ [t] }

/-- The body of `Semaphore::V` between its two calls of `SetLevel`. -/
def semV (k : Kernel) (s : SemId) : Kernel :=
  match (k.sems s).v with
  | (sem, none) => { k with sems := Function.update k.sems s sem }
  | (sem, some t) => readyToRun { k with sems := Function.update k.sems s sem } t

/-- `AddrSpace::InitRegisters`. -/
def initRegisters (sp : SpaceRef) : Regs :=
  let r : Regs := fun _ => 0
  let r := Function.update r PCReg 0
  let r := Function.update r NextPCReg 4
  Function.update r StackReg (BitVec.ofNat 32 (sp.numPages * PageSize) - 16)

/-- `Scheduler::Run` before `SWITCH`: the old thread's user state is saved, `next` is current. -/
def saveState (k : Kernel) (next : Tid) (after : Resume) : Kernel :=
  let k := match k.space k.currentThread with
    | some _ =>
        { k with userRegisters := Function.update k.userRegisters k.currentThread k.registers }
    | none => k
  { k with
    resume := Function.update k.resume k.currentThread after
    currentThread := next
    status := Function.update k.status next (some .running) }

/-- `Scheduler::Run` after `SWITCH`, in the thread that is now current. -/
def restoreState (k : Kernel) : Kernel :=
  let k := match k.threadToBeDestroyed with
    | some d => { k with status := Function.update k.status d none, threadToBeDestroyed := none }
    | none => k
  match k.space k.currentThread with
  | some sp => { k with registers := k.userRegisters k.currentThread, pageTable := some sp }
  | none => k

/-- `Scheduler::Run(next)`.  A thread dispatched for the first time starts in `ThreadRoot`, whose
    first action is `Interrupt::Enable`; it does not return through `Run`. -/
def run (k : Kernel) (next : Tid) (after : Resume) : Kernel :=
  let k := saveState k next after
  match k.resume next with
  | .threadRoot =>
      { k with ctl := .setLevel .intOn, ownLevel := Function.update k.ownLevel next .intOn }
  | .sleepInP s oldLevel => { restoreState k with ctl := .inP s oldLevel }
  | .runInYield oldLevel => { restoreState k with ctl := .setLevel oldLevel }
  | .sleepInFinish => { restoreState k with ctl := .outside }

/-- `Thread::Yield`. -/
def yield (k : Kernel) : Kernel :=
  let oldLevel := k.level
  let k := { k with level := .intOff }
  match k.readyList with
  | [] => { k with ctl := .setLevel oldLevel }
  | next :: rest =>
      { readyToRun { k with readyList := rest } k.currentThread with
        ctl := .atSwitch next (.runInYield oldLevel) }

/-- The entry of `Interrupt::OneTick`. -/
def oneTick (k : Kernel) : Kernel := { k with level := .intOff, ctl := .inOneTick }

/-- `CheckIfDue` invokes a handler: pending loads are completed on whatever registers are
    loaded, then the handler runs. -/
def checkIfDue (k : Kernel) (vs : List SemId) (wantsYield : Bool) : Kernel :=
  vs.foldl semV
    { k with registers := delayedLoad 0 0 k.registers
             yieldOnReturn := k.yieldOnReturn || wantsYield }

/-- `V` changes semaphores, statuses and the ready list only. -/
theorem semV_frame (k : Kernel) (s : SemId) : ∃ sems status readyList,
    semV k s = { k with sems := sems, status := status, readyList := readyList } := by
  unfold semV
  split
  · exact ⟨_, _, _, rfl⟩
  · exact ⟨_, _, _, rfl⟩

theorem foldl_semV_frame (vs : List SemId) (k : Kernel) : ∃ sems status readyList,
    vs.foldl semV k = { k with sems := sems, status := status, readyList := readyList } := by
  induction vs generalizing k with
  | nil => exact ⟨_, _, _, rfl⟩
  | cons s vs ih =>
    obtain ⟨_, _, _, hs⟩ := semV_frame k s
    obtain ⟨_, _, _, hvs⟩ := ih (semV k s)
    rw [List.foldl_cons, hvs, hs]
    exact ⟨_, _, _, rfl⟩

/-- What a handler can change. -/
theorem checkIfDue_frame (k : Kernel) (vs : List SemId) (y : Bool) :
    ∃ sems status readyList, checkIfDue k vs y =
      { k with
        sems := sems, status := status, readyList := readyList
        registers := delayedLoad 0 0 k.registers, yieldOnReturn := k.yieldOnReturn || y } := by
  unfold checkIfDue
  obtain ⟨_, _, _, hvs⟩ := foldl_semV_frame vs
    { k with registers := delayedLoad 0 0 k.registers, yieldOnReturn := k.yieldOnReturn || y }
  rw [hvs]
  exact ⟨_, _, _, rfl⟩

/-- The current thread calls a primitive. -/
def call (k : Kernel) : Kernel :=
  { k with ownLevel := Function.update k.ownLevel k.currentThread k.level }

end Kernel

/-- What can happen next. -/
inductive KEvent where
  /-- the CPU goes on inside a primitive -/
  | go
  /-- `new Thread`, then `thread->space = ...` -/
  | newThread (sp : Option SpaceRef)
  /-- `Thread::Fork` of a thread that has not been forked -/
  | fork (t : Tid)
  | yield
  | p (s : SemId)
  | v (s : SemId)
  | finish
  /-- `PCB::Exec` with `ppid == -1`: `t` takes over the CPU and the old thread is deleted -/
  | handOver (t : Tid)
  /-- the thread sets the interrupt level itself -/
  | setLevel (l : IntStatus)
  /-- `init_func` of a user thread -/
  | initFunc
  /-- a user instruction, or register writes in one of the thread's own system calls -/
  | user (f : Regs → Regs)
  /-- `Machine::Run` calls `OneTick` after an instruction -/
  | userTick
  /-- a handler is due: it calls `V` on `vs` and may call `YieldOnReturn` -/
  | handler (vs : List SemId) (wantsYield : Bool)
  /-- `CheckIfDue` finds nothing due -/
  | noneDue

namespace Kernel

/-- Steps of the current thread outside the primitives. -/
def stepOutside (k : Kernel) : KEvent → Option Kernel
  | .newThread sp =>
      some { k with
        nextTid := k.nextTid + 1
        status := Function.update k.status k.nextTid (some .justCreated)
        resume := Function.update k.resume k.nextTid .threadRoot
        space := Function.update k.space k.nextTid sp }
  | .fork t =>
      if k.status t = some .justCreated then
        some { readyToRun (call k) t with level := .intOff, ctl := .setLevel k.level }
      else none
  | .yield => some (yield (call k))
  | .p s => some { call k with level := .intOff, ctl := .inP s k.level }
  | .v s => some { semV (call k) s with level := .intOff, ctl := .setLevel k.level }
  | .finish =>
      some { call k with
        level := .intOff
        threadToBeDestroyed := some k.currentThread
        finished := Function.update k.finished k.currentThread true
        status := Function.update k.status k.currentThread (some .blocked)
        ctl := .inSleep .sleepInFinish }
  | .handOver t =>
      match k.space t with
      | some sp =>
        if k.status t = some .justCreated then
          some { k with
            currentThread := t
            status := Function.update (Function.update k.status t (some .running)) k.currentThread none
            registers := initRegisters sp
            pageTable := some sp
            started := Function.update k.started t true
            ownLevel := Function.update k.ownLevel t k.level }
        else none
      | none => none
  | .setLevel l =>
      let k' := { k with ownLevel := Function.update k.ownLevel k.currentThread l }
      if l = .intOn ∧ k.level = .intOff then some (oneTick k') else some { k' with level := l }
  | .initFunc =>
      match k.space k.currentThread with
      | some sp =>
        if k.started k.currentThread = false then
          some { k with
            registers := initRegisters sp
            pageTable := some sp
            started := Function.update k.started k.currentThread true }
        else none
      | none => none
  | .user f =>
      if k.started k.currentThread = true then some { k with registers := f k.registers } else none
  | .userTick => if k.level = .intOn then some (oneTick (call k)) else none
  | _ => none

/-- One step of the kernel. -/
def step (k : Kernel) (e : KEvent) : Option Kernel :=
  match k.ctl, e with
  | .outside, e => stepOutside k e
  | .inP s oldLevel, .go =>
    match (k.sems s).p k.currentThread with
    | (sem, true) =>
        some { k with sems := Function.update k.sems s sem, ctl := .setLevel oldLevel }
    | (sem, false) =>
        some { k with
          sems := Function.update k.sems s sem
          status := Function.update k.status k.currentThread (some .blocked)
          ctl := .inSleep (.sleepInP s oldLevel) }
  | .inSleep after, .go =>
    match k.readyList with
    | [] => some { k with ctl := .inIdle after }
    | next :: rest => some { k with readyList := rest, ctl := .atSwitch next after }
  | .inIdle after, .handler vs y => some { checkIfDue k vs y with ctl := .inIdleLoop after }
  | .inIdle _, .noneDue => some { k with ctl := .halted }
  | .inIdleLoop _, .handler vs y => some (checkIfDue k vs y)
  | .inIdleLoop after, .noneDue => some { k with yieldOnReturn := false, ctl := .inSleep after }
  | .atSwitch next after, .go => some (run k next after)
  | .setLevel oldLevel, .go =>
      if oldLevel = .intOn ∧ k.level = .intOff then some (oneTick k)
      else some { k with level := oldLevel, ctl := .outside }
  | .inOneTick, .handler vs y => some (checkIfDue k vs y)
  | .inOneTick, .noneDue =>
      if k.yieldOnReturn then some (yield { k with level := .intOn, yieldOnReturn := false })
      else some { k with level := .intOn, ctl := .outside }
  | _, _ => none

/-- After `Initialize`: the main thread runs with interrupts enabled, nobody else exists, and
    every semaphore queue is empty.  Semaphore values, and the contents of memory that has not
    been written yet, are arbitrary. -/
structure Boot (k : Kernel) : Prop where
  current : k.currentThread < k.nextTid
  status : ∀ t, k.status t = if t = k.currentThread then some .running else none
  noVictim : k.threadToBeDestroyed = none
  readyList : k.readyList = []
  queues : ∀ s, (k.sems s).queue = []
  level : k.level = .intOn
  ownLevel : k.ownLevel k.currentThread = .intOn
  ctl : k.ctl = .outside
  finished : ∀ t, k.finished t = false
  started : ∀ t, k.started t = false
  space : k.space k.currentThread = none

/-- The kernel under every program and every device behaviour. -/
def system : Transition.System Kernel KEvent where
  init := Boot
  step := step

/-! ## What a step can do -/

/-- The steps outside the primitives, one case for each way through them. -/
inductive OutsideStep (k : Kernel) : KEvent → Kernel → Prop where
  | newThread {sp : Option SpaceRef} : OutsideStep k (.newThread sp)
      { k with
        nextTid := k.nextTid + 1
        status := Function.update k.status k.nextTid (some .justCreated)
        resume := Function.update k.resume k.nextTid .threadRoot
        space := Function.update k.space k.nextTid sp }
  | fork {t : Tid} (hst : k.status t = some .justCreated) : OutsideStep k (.fork t)
      { readyToRun (call k) t with level := .intOff, ctl := .setLevel k.level }
  | yield : OutsideStep k .yield (yield (call k))
  | p {s : SemId} : OutsideStep k (.p s) { call k with level := .intOff, ctl := .inP s k.level }
  | v {s : SemId} : OutsideStep k (.v s) { semV (call k) s with level := .intOff, ctl := .setLevel k.level }
  | finish : OutsideStep k .finish
      { call k with
        level := .intOff
        threadToBeDestroyed := some k.currentThread
        finished := Function.update k.finished k.currentThread true
        status := Function.update k.status k.currentThread (some .blocked)
        ctl := .inSleep .sleepInFinish }
  | handOver {t : Tid} {sp : SpaceRef} (hspace : k.space t = some sp) (hst : k.status t = some .justCreated) :
      OutsideStep k (.handOver t)
      { k with
        currentThread := t
        status := Function.update (Function.update k.status t (some .running)) k.currentThread none
        registers := initRegisters sp
        pageTable := some sp
        started := Function.update k.started t true
        ownLevel := Function.update k.ownLevel t k.level }
  | enable {l : IntStatus} (hon : l = .intOn ∧ k.level = .intOff) : OutsideStep k (.setLevel l)
      (oneTick { k with ownLevel := Function.update k.ownLevel k.currentThread l })
  | setLevel {l : IntStatus} (hoff : ¬ (l = .intOn ∧ k.level = .intOff)) : OutsideStep k (.setLevel l)
      { k with ownLevel := Function.update k.ownLevel k.currentThread l, level := l }
  | initFunc {sp : SpaceRef} (hspace : k.space k.currentThread = some sp)
      (hnew : k.started k.currentThread = false) : OutsideStep k .initFunc
      { k with
        registers := initRegisters sp
        pageTable := some sp
        started := Function.update k.started k.currentThread true }
  | user {f : Regs → Regs} (hstarted : k.started k.currentThread = true) : OutsideStep k (.user f)
      { k with registers := f k.registers }
  | userTick (hon : k.level = .intOn) : OutsideStep k .userTick (oneTick (call k))

/-- The steps of the kernel, likewise. -/
inductive KernelStep (k : Kernel) : KEvent → Kernel → Prop where
  | outside {e : KEvent} {k' : Kernel} (hctl : k.ctl = .outside) (hout : OutsideStep k e k') : KernelStep k e k'
  | pass {s : SemId} {oldLevel : IntStatus} {sem : Semaphore} (hctl : k.ctl = .inP s oldLevel)
      (hp : (k.sems s).p k.currentThread = (sem, true)) :
      KernelStep k .go { k with sems := Function.update k.sems s sem, ctl := .setLevel oldLevel }
  | block {s : SemId} {oldLevel : IntStatus} {sem : Semaphore} (hctl : k.ctl = .inP s oldLevel)
      (hp : (k.sems s).p k.currentThread = (sem, false)) : KernelStep k .go
      { k with
        sems := Function.update k.sems s sem
        status := Function.update k.status k.currentThread (some .blocked)
        ctl := .inSleep (.sleepInP s oldLevel) }
  | idle {after : Resume} (hctl : k.ctl = .inSleep after) (hq : k.readyList = []) :
      KernelStep k .go { k with ctl := .inIdle after }
  | findNextToRun {after : Resume} {next : Tid} {rest : List Tid} (hctl : k.ctl = .inSleep after)
      (hq : k.readyList = next :: rest) :
      KernelStep k .go { k with readyList := rest, ctl := .atSwitch next after }
  | firstHandler {after : Resume} {vs : List SemId} {y : Bool} (hctl : k.ctl = .inIdle after) :
      KernelStep k (.handler vs y) { checkIfDue k vs y with ctl := .inIdleLoop after }
  | halt {after : Resume} (hctl : k.ctl = .inIdle after) : KernelStep k .noneDue { k with ctl := .halted }
  | handler {vs : List SemId} {y : Bool} (hctl : k.ctl = .inOneTick ∨ ∃ after, k.ctl = .inIdleLoop after) :
      KernelStep k (.handler vs y) (checkIfDue k vs y)
  | idleDone {after : Resume} (hctl : k.ctl = .inIdleLoop after) :
      KernelStep k .noneDue { k with yieldOnReturn := false, ctl := .inSleep after }
  | switch {next : Tid} {after : Resume} (hctl : k.ctl = .atSwitch next after) : KernelStep k .go (run k next after)
  | enable {oldLevel : IntStatus} (hctl : k.ctl = .setLevel oldLevel)
      (hon : oldLevel = .intOn ∧ k.level = .intOff) : KernelStep k .go (oneTick k)
  | setLevel {oldLevel : IntStatus} (hctl : k.ctl = .setLevel oldLevel)
      (hoff : ¬ (oldLevel = .intOn ∧ k.level = .intOff)) :
      KernelStep k .go { k with level := oldLevel, ctl := .outside }
  | tickYield (hctl : k.ctl = .inOneTick) (hy : k.yieldOnReturn = true) :
      KernelStep k .noneDue (yield { k with level := .intOn, yieldOnReturn := false })
  | tickDone (hctl : k.ctl = .inOneTick) (hy : k.yieldOnReturn ≠ true) :
      KernelStep k .noneDue { k with level := .intOn, ctl := .outside }

theorem stepOutside_cases {k k' : Kernel} {e : KEvent} (he : stepOutside k e = some k') : OutsideStep k e k' := by
  cases e with
  | newThread sp =>
    cases he
    exact .newThread
  | fork t =>
    simp only [stepOutside] at he
    split at he
    · cases he
      exact .fork ‹_›
    · cases he
  | yield =>
    cases he
    exact .yield
  | p s =>
    cases he
    exact .p
  | v s =>
    cases he
    exact .v
  | finish =>
    cases he
    exact .finish
  | handOver t =>
    simp only [stepOutside] at he
    split at he
    · split at he
      · cases he
        exact .handOver ‹_› ‹_›
      · cases he
    · cases he
  | setLevel l =>
    simp only [stepOutside] at he
    split at he
    · cases he
      exact .enable ‹_›
    · cases he
      exact .setLevel ‹_›
  | initFunc =>
    simp only [stepOutside] at he
    split at he
    · split at he
      · cases he
        exact .initFunc ‹_› ‹_›
      · cases he
    · cases he
  | user f =>
    simp only [stepOutside] at he
    split at he
    · cases he
      exact .user ‹_›
    · cases he
  | userTick =>
    simp only [stepOutside] at he
    split at he
    · cases he
      exact .userTick ‹_›
    · cases he
  | go | handler _ _ | noneDue => cases he

/-- **What a step of the kernel can do.** -/
theorem step_cases {k k' : Kernel} {e : KEvent} (he : step k e = some k') : KernelStep k e k' := by
  cases hctl : k.ctl with
  | outside => exact .outside hctl (stepOutside_cases (by simpa only [step, hctl] using he))
  | inP s oldLevel =>
    cases e with
    | go =>
      simp only [step, hctl] at he
      split at he
      · cases he
        exact .pass hctl ‹_›
      · cases he
        exact .block hctl ‹_›
    | _ => simp [step, hctl] at he
  | inSleep after =>
    cases e with
    | go =>
      simp only [step, hctl] at he
      split at he
      · cases he
        exact .idle hctl ‹_›
      · cases he
        exact .findNextToRun hctl ‹_›
    | _ => simp [step, hctl] at he
  | inIdle after =>
    cases e with
    | handler vs y =>
      simp only [step, hctl] at he
      cases he
      exact .firstHandler hctl
    | noneDue =>
      simp only [step, hctl] at he
      cases he
      exact .halt hctl
    | _ => simp [step, hctl] at he
  | inIdleLoop after =>
    cases e with
    | handler vs y =>
      simp only [step, hctl] at he
      cases he
      exact .handler (.inr ⟨after, hctl⟩)
    | noneDue =>
      simp only [step, hctl] at he
      cases he
      exact .idleDone hctl
    | _ => simp [step, hctl] at he
  | atSwitch next after =>
    cases e with
    | go =>
      simp only [step, hctl] at he
      cases he
      exact .switch hctl
    | _ => simp [step, hctl] at he
  | setLevel oldLevel =>
    cases e with
    | go =>
      simp only [step, hctl] at he
      split at he
      · cases he
        exact .enable hctl ‹_›
      · cases he
        exact .setLevel hctl ‹_›
    | _ => simp [step, hctl] at he
  | inOneTick =>
    cases e with
    | handler vs y =>
      simp only [step, hctl] at he
      cases he
      exact .handler (.inl hctl)
    | noneDue =>
      simp only [step, hctl] at he
      split at he
      · cases he
        exact .tickYield hctl ‹_›
      · cases he
        exact .tickDone hctl ‹_›
    | _ => simp [step, hctl] at he
  | halted => simp [step, hctl] at he

end Kernel

end Nachos
