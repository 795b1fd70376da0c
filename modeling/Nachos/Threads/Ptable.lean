import Nachos.Lib.Transition
import Nachos.Threads.Synch
import Nachos.Userprog.BitMap

/-!
# The process table

`threads/ptable.cc` and `threads/pcb.cc` under every interleaving of `ExecUpdate`, `JoinUpdate`
and `ExitUpdate`, as `StartProcess` (the first `ExecUpdate`) and the system call handler issue
them.  A thread can lose the CPU only where it enables interrupts, that is at the end of a `P`,
`V` or `Fork` and inside the file system, so `Pc` has one value for each of these places and a
step is the code up to the next one.

A thread is named by the address of its `Thread`, as in the table.  `new Thread` may place it at
any address where there is no `Thread` (`opened`), also where a thread was that the scheduler has
deleted since (`deleted`); the entries of the table still name such threads, so the search for
`currentThread` can stop at the slot of another process.

`fileSystem->Open` answers anything (`opened`), and `new AddrSpace` may not return (it aborts the
kernel when one of its assertions fails); the `loaded` event is its return.  `Thread::Finish`
does not return, so the statements after it in `ExitUpdate` are not part of any step.
Following a `NULL` entry of the table sets `fault`.

`exitsem`, `ExitWait`, `ExitRelease`, `isExist`, `Remove`, `GetName` and `SetName` are not used
by the three functions and are left out.
-/

set_option autoImplicit false

namespace Nachos

/-- The characters of a C string before its `NUL`. -/
abbrev Name := List Byte

def MAX_PROCESS : Nat := 10

/-- `class PCB`. -/
structure PCB where
  processName : Name
  processId : Int
  parentId : Int
  numwait : Int
  exitcode : Word
  thread : Option Tid
  joinsem : Semaphore
  multex : Semaphore
  deriving DecidableEq, Repr

/-- `PCB::PCB`. -/
def PCB.new : PCB where
  processName := []
  processId := -1
  parentId := -1
  numwait := 0
  exitcode := 0
  thread := none
  joinsem := ⟨0, []⟩
  multex := ⟨1, []⟩

/-- Where the thread at an address is. -/
inductive Pc where
  /-- no `Thread` is at this address -/
  | dead
  /-- made by `new Thread`, not started yet -/
  | created
  /-- the main thread before `StartProcess` calls `ExecUpdate` -/
  | boot
  /-- in user code -/
  | user
  /-- `ExecUpdate`: at `bmsem->P()` -/
  | execP (name : Option Name)
  /-- `ExecUpdate`: `bmsem` is held -/
  | execBody (name : Option Name)
  /-- `PCB::Exec`: at `multex->P()` -/
  | execMultex (name : Name) (pid : Nat) (ppid : Int)
  /-- `PCB::Exec`: in `fileSystem->Open` -/
  | execOpen (pid : Nat) (ppid : Int)
  /-- `PCB::Exec`: in `new AddrSpace` -/
  | execSpace (pid : Nat) (ppid : Int)
  /-- `PCB::Exec`: the new thread is ready or running; at `multex->V()` -/
  | execUnlock (pid : Nat)
  /-- `ExecUpdate`: at the last `bmsem->V()` -/
  | execRelease (pid : Nat)
  /-- `ExecUpdate`: `Exec` has returned -1 -/
  | execUndo (pid : Nat)
  /-- `JoinUpdate(pid)`: in `joinsem->P()` of slot `which` -/
  | joinP (which pid : Nat)
  /-- `JoinUpdate(pid)`: back from `JoinWait` -/
  | joinReturn (which pid : Nat)
  /-- `ExitUpdate`: after `JoinRelease` -/
  | exiting
  /-- `ExitUpdate` of the first process: in `Halt` -/
  | halting
  /-- `Thread::Finish` has been called -/
  | finished
  deriving DecidableEq, Repr

/-- What has happened, for the statements about whole runs. -/
inductive PLog where
  /-- the process of this slot has got its thread started -/
  | created (slot : Nat)
  /-- the process of this slot has executed `ExitUpdate(ecd)`, which has released `pcb[parent]` -/
  | exited (slot parent : Nat) (ecd : Word)
  /-- `JoinUpdate(pid)`, whose caller was found in slot `which`, has returned `v` -/
  | joined (which pid : Nat) (v : Word)
  deriving DecidableEq, Repr

/-- The table, the threads that use it, and the log (newest first).  `home` and `top` are not data
    of the table: the search for `currentThread` knows addresses only. -/
structure PState where
  pcb : Nat → Option PCB
  bm : BitMap
  bmsem : Semaphore
  pc : Tid → Pc
  threadName : Tid → Name
  /-- the slot whose process the thread was made for; the main thread has none -/
  home : Tid → Option Nat
  /-- no `Thread` has been placed at an address from here on -/
  top : Tid
  fault : Bool
  log : List PLog

inductive PEvent where
  | callExec (t : Tid) (name : Option Name)
  | callJoin (t : Tid) (pid : Int)
  | callExit (t : Tid) (ecd : Word)
  /-- thread `t` goes on inside its call -/
  | go (t : Tid)
  /-- `fileSystem->Open` returns without a file, or with one, and `new Thread` is placed at `thread` -/
  | opened (t : Tid) (thread : Option Tid)
  /-- `new AddrSpace` returns -/
  | loaded (t : Tid)
  /-- the scheduler deletes a thread that has finished -/
  | deleted (t : Tid)
  deriving DecidableEq, Repr

namespace PState

/-- The main thread. -/
def mainTid : Tid := 0

def setPc (s : PState) (t : Tid) (p : Pc) : PState := { s with pc := Function.update s.pc t p }

def setPcb (s : PState) (i : Nat) (c : Option PCB) : PState :=
  { s with pcb := Function.update s.pcb i c }

/-- The loop that finds the slot of `currentThread`. -/
def slotOf (s : PState) (t : Tid) : Option Nat :=
  (List.range MAX_PROCESS).find? (fun i =>
    match s.pcb i with
    | some c => c.thread == some t
    | none => false)

/-- `strncmp(a, b, 49) == 0`. -/
def sameName (a b : Name) : Bool := a.take 49 == b.take 49

/-- What follows a return of `ExecUpdate`: the system call handler goes back to user code.
    `StartProcess` calls `machine->Run()` whatever the result; the main thread has no page table,
    and the first instruction fetch aborts the kernel. -/
def afterExec (home : Option Nat) : Pc := if home = none then .dead else .user

/-- `bmsem->V(); return -1;` -/
def execFail (s : PState) (t : Tid) : PState :=
  { s with bmsem := s.bmsem.v.1 }.setPc t (afterExec (s.home t))

/-- `pcb[pid] = new PCB(); pcb[pid]->Exec(name, pid, ppid)`. -/
def newPcb (s : PState) (t : Tid) (name : Name) (pid : Nat) (ppid : Int) : PState :=
  (s.setPcb pid (some PCB.new)).setPc t (.execMultex name pid ppid)

/-- `ExecUpdate` between `bmsem->P()` and `multex->P()`. -/
def execBody (s : PState) (t : Tid) (name : Option Name) : PState :=
  match name with
  | none => s.execFail t
  | some name =>
    if s.bm.numClear = MAX_PROCESS then
      newPcb { s with bm := s.bm.setBit 0 } t name 0 (-1)
    else if sameName (s.threadName t) name then s.execFail t
    else
      match s.slotOf t with
      | none => s.execFail t
      | some ppid =>
        match s.bm.find with
        | (none, _) => s.execFail t
        | (some pid, bm) => newPcb { s with bm := bm } t name pid ppid

/-- `PCB::Exec` from `multex->P()` to `fileSystem->Open`.  Its test `!name || pid < 0` never
    holds for the arguments `ExecUpdate` passes. -/
def execMultex (s : PState) (t : Tid) (name : Name) (pid : Nat) (ppid : Int) : PState :=
  match s.pcb pid with
  | none => { s with fault := true }
  | some c =>
    match c.multex.p t with
    | (multex, false) => s.setPcb pid (some { c with multex := multex })
    | (multex, true) =>
      if c.thread.isSome then
        -- already has a thread: `multex->V(); return -1;`
        (s.setPcb pid (some { c with multex := multex.v.1 })).setPc t (.execUndo pid)
      else
        (s.setPcb pid (some { c with
          multex := multex, processId := pid, parentId := ppid
          processName := name.take 50 })).setPc t (.execOpen pid ppid)

/-- `PCB::Exec` after `fileSystem->Open`. -/
def execOpened (s : PState) (t : Tid) (pid : Nat) (ppid : Int) (thread : Option Tid) : PState :=
  match s.pcb pid with
  | none => { s with fault := true }
  | some c =>
    match thread with
    | some u =>
      { ((s.setPcb pid (some { c with thread := some u })).setPc u .created).setPc t
          (.execSpace pid ppid) with
        threadName := Function.update s.threadName u c.processName
        home := Function.update s.home u (some pid)
        top := max s.top (u + 1) }
    | none => (s.setPcb pid (some { c with multex := c.multex.v.1 })).setPc t (.execUndo pid)

/-- `PCB::Exec` after `new AddrSpace`: `Fork`, or the new thread takes over from the main one. -/
def execLoaded (s : PState) (t : Tid) (pid : Nat) (ppid : Int) : PState :=
  match s.pcb pid with
  | none => { s with fault := true }
  | some c =>
    match c.thread with
    | none => { s with fault := true }
    | some child =>
      if ppid = -1 then
        { ((s.setPc t .dead).setPc child (.execUnlock pid)) with log := .created pid :: s.log }
      else
        { ((s.setPc child .user).setPc t (.execUnlock pid)) with log := .created pid :: s.log }

/-- `multex->V(); return 0;` -/
def execUnlock (s : PState) (t : Tid) (pid : Nat) : PState :=
  match s.pcb pid with
  | none => { s with fault := true }
  | some c => (s.setPcb pid (some { c with multex := c.multex.v.1 })).setPc t (.execRelease pid)

/-- `bmsem->V(); return pid;`.  The first process goes on in `machine->Run()`. -/
def execRelease (s : PState) (t : Tid) : PState := { s with bmsem := s.bmsem.v.1 }.setPc t .user

/-- `bm->Clear(pid); delete pcb[pid]; pcb[pid] = NULL; bmsem->V(); return -1;` -/
def execUndo (s : PState) (t : Tid) (pid : Nat) : PState :=
  ({ s with bm := s.bm.clearBit pid }.setPcb pid none).execFail t

/-- `JoinUpdate(pid)` up to `joinsem->P()`.  A return of -1 changes nothing. -/
def callJoin (s : PState) (t : Tid) (pid : Int) : PState :=
  if pid < 0 ∨ 10 ≤ pid then s
  else
    match s.slotOf t with
    | none => s
    | some which =>
      match s.pcb pid.toNat, s.pcb which with
      | some target, some c =>
        if target.parentId ≠ which then s
        else (s.setPcb which (some { c with numwait := c.numwait + 1 })).setPc t
          (.joinP which pid.toNat)
      | none, _ => s
      | _, none => { s with fault := true }

/-- One turn of `joinsem->P()`. -/
def joinP (s : PState) (t : Tid) (which pid : Nat) : PState :=
  match s.pcb which with
  | none => { s with fault := true }
  | some c =>
    match c.joinsem.p t with
    | (joinsem, false) => s.setPcb which (some { c with joinsem := joinsem })
    | (joinsem, true) =>
        (s.setPcb which (some { c with joinsem := joinsem })).setPc t (.joinReturn which pid)

/-- `return pcb[which]->GetExitCode();` -/
def joinReturn (s : PState) (t : Tid) (which pid : Nat) : PState :=
  match s.pcb which with
  | none => { s with fault := true }
  | some c => { s.setPc t .user with log := .joined which pid c.exitcode :: s.log }

/-- `ExitUpdate(ecd)` up to `Finish`; a return of -1 changes nothing.  The log names the process
    that exits; the parent is that of the slot where the search has stopped. -/
def callExit (s : PState) (t : Tid) (ecd : Word) : PState :=
  match s.slotOf t with
  | none => s
  | some which =>
    match s.pcb which with
    | none => { s with fault := true }
    | some c =>
      if c.parentId = -1 then s.setPc t .halting
      else
        match s.pcb c.parentId.toNat with
        | none => { s with fault := true }
        | some p =>
          { (s.setPcb c.parentId.toNat (some { p with
              exitcode := ecd, numwait := p.numwait - 1, joinsem := p.joinsem.v.1 })).setPc t
              .exiting with
            log := (s.home t).toList.map (.exited · c.parentId.toNat ecd) ++ s.log }

/-- Nobody runs once the machine halts or a `NULL` entry has been followed. -/
def stopped (s : PState) : Prop := s.fault = true ∨ ∃ t < s.top, s.pc t = .halting

instance (s : PState) : Decidable s.stopped := inferInstanceAs (Decidable (_ ∨ _))

/-- One step. -/
def step (s : PState) (e : PEvent) : Option PState :=
  if s.stopped then none
  else
    match e with
    | .callExec t name =>
      match s.pc t with
      | .user | .boot => some (s.setPc t (.execP name))
      | _ => none
    | .callJoin t pid => if s.pc t = .user then some (s.callJoin t pid) else none
    | .callExit t ecd => if s.pc t = .user then some (s.callExit t ecd) else none
    | .opened t thread =>
      match s.pc t with
      | .execOpen pid ppid =>
        -- the allocator answers with an address where nobody is
        if ∀ u ∈ thread, s.pc u = .dead then some (s.execOpened t pid ppid thread) else none
      | _ => none
    | .loaded t =>
      match s.pc t with
      | .execSpace pid ppid => some (s.execLoaded t pid ppid)
      | _ => none
    | .deleted t => if s.pc t = .finished then some (s.setPc t .dead) else none
    | .go t =>
      match s.pc t with
      | .execP name =>
        -- a thread on the queue sleeps until a `V` takes it off
        if t ∈ s.bmsem.queue then none
        else
          match s.bmsem.p t with
          | (bmsem, false) => some { s with bmsem := bmsem }
          | (bmsem, true) => some ({ s with bmsem := bmsem }.setPc t (.execBody name))
      | .execBody name => some (s.execBody t name)
      | .execMultex name pid ppid =>
        if (s.pcb pid).elim false (fun c => t ∈ c.multex.queue) then none
        else some (s.execMultex t name pid ppid)
      | .execUnlock pid => some (s.execUnlock t pid)
      | .execRelease _ => some (s.execRelease t)
      | .execUndo pid => some (s.execUndo t pid)
      | .joinP which pid =>
        if (s.pcb which).elim false (fun c => t ∈ c.joinsem.queue) then none
        else some (s.joinP t which pid)
      | .joinReturn which pid => some (s.joinReturn t which pid)
      | .exiting => some (s.setPc t .finished)
      | _ => none

/-- `Ptable::Ptable`, with the main thread about to start the first process. -/
structure Boot (s : PState) : Prop where
  pcb : ∀ i, s.pcb i = none
  numBits : s.bm.numBits = MAX_PROCESS
  bits : ∀ i < MAX_PROCESS, s.bm.bit i = false
  bmsem : s.bmsem = ⟨1, []⟩
  pc : ∀ t, s.pc t = if t = mainTid then .boot else .dead
  home : ∀ t, s.home t = none
  top : s.top = mainTid + 1
  fault : s.fault = false
  log : s.log = []

def system : Transition.System PState PEvent where
  init := Boot
  step := step

end PState

end Nachos
