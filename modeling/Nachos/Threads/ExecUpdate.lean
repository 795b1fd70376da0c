import Nachos.Threads.PtableInv
import Nachos.Userprog.LoaderAborts

/-!
# One call of `ExecUpdate`

`Ptable::ExecUpdate`, `PCB::Exec` and the constructor of the address space in one piece, as they run
when no other thread gets the CPU in between: with the frames, main memory, the ready list and the
running thread.  `Ptable` is about the same functions under every interleaving.

A `P` on a semaphore that is taken would let another thread run: it ends in `Stop.forever`.  An
`ASSERT` that fails ends in `Stop.abort`; `Lseek` has one against a negative offset.

* `execUpdate_fails` — what is left of a call that returns -1.
* `execUpdate_copes_iff` — when a call returns at all.
-/

set_option autoImplicit false

namespace Nachos

/-- The part of the kernel that a call of `ExecUpdate` works on. -/
structure ExecKernel where
  pcb : Nat → Option PCB
  bm : BitMap
  bmsem : Semaphore
  threadName : Tid → Name
  space : Tid → Option (List TranslationEntry)
  gPhysPageBitmap : BitMap
  mainMemory : Memory
  readyList : List Tid
  currentThread : Tid

namespace ExecKernel

open Partial

def setPcb (k : ExecKernel) (i : Nat) (c : Option PCB) : ExecKernel := { k with pcb := Function.update k.pcb i c }

/-- `scheduler->ReadyToRun`, for the thread that a `V` takes off a queue. -/
def wake (k : ExecKernel) (woken : Option Tid) : ExecKernel := { k with readyList := k.readyList ++ woken.toList }

/-- `P` without waiting. -/
def acquire (k : ExecKernel) (s : Semaphore) : Except Stop Semaphore :=
  match s.p k.currentThread with
  | (s, true) => .ok s
  | (_, false) => .error .forever

/-- The loop that finds the slot of `currentThread`. -/
def slotOf (k : ExecKernel) : Option Nat :=
  (List.range MAX_PROCESS).find? (fun i =>
    match k.pcb i with
    | some c => c.thread == some k.currentThread
    | none => false)

/-- `multex->V()`, with the other changes of `pcb[pid]` made before. -/
def multexV (k : ExecKernel) (pid : Nat) (c : PCB) : ExecKernel :=
  (k.setPcb pid (some { c with multex := c.multex.v.1 })).wake c.multex.v.2

/-- The new thread takes over from the main one, or is put on the ready list. -/
def start (k : ExecKernel) (thread : Tid) (ppid : Int) : ExecKernel :=
  if ppid = -1 then { k with currentThread := thread } else { k with readyList := k.readyList ++ [thread] }

/-- `PCB::Exec(name, pid, ppid)` of `pcb[pid]`.  `files` are those that `fileSystem->Open` opens, and `thread`
is where `new Thread` places the new thread.  The test `!name || pid < 0` never holds for the arguments
`ExecUpdate` passes. -/
def exec (files : Name → Option (List Byte)) (junk : Nat → Byte) (thread : Tid) (k : ExecKernel) (name : Name)
    (pid : Nat) (ppid : Int) : Except Stop (Int × ExecKernel) :=
  match k.pcb pid with
  | none => .error .undefined
  | some c => do
    let multex ← k.acquire c.multex
    if c.thread.isSome then .ok (-1, k.multexV pid { c with multex := multex })
    else
      let c := { c with
        multex := multex, processId := pid, parentId := ppid
        processName := name.take 50 }
      match files name with
      | none => .ok (-1, k.multexV pid c)
      | some file =>
        let (pageTable, bm, mem) ← AddrSpace.construct junk file k.gPhysPageBitmap k.mainMemory
        let k := { k with
          threadName := Function.update k.threadName thread c.processName
          space := Function.update k.space thread (some pageTable)
          gPhysPageBitmap := bm
          mainMemory := mem }
        .ok (0, (k.start thread ppid).multexV pid { c with thread := some thread })

/-- `bmsem->V()`. -/
def bmsemV (k : ExecKernel) : ExecKernel := { k with bmsem := k.bmsem.v.1 }.wake k.bmsem.v.2

/-- `ExecUpdate` from `pcb[pid] = new PCB()` on. -/
def execSlot (files : Name → Option (List Byte)) (junk : Nat → Byte) (thread : Tid) (k : ExecKernel) (name : Name)
    (pid : Nat) (ppid : Int) : Except Stop (Int × ExecKernel) := do
  let (rslt, k) ← (k.setPcb pid (some PCB.new)).exec files junk thread name pid ppid
  if rslt = -1 then
    let k := { k with bm := k.bm.clearBit pid }
    .ok (-1, (k.setPcb pid none).bmsemV)
  else .ok (pid, k.bmsemV)

/-- `Ptable::ExecUpdate(name)`. -/
def execUpdate (files : Name → Option (List Byte)) (junk : Nat → Byte) (thread : Tid) (k : ExecKernel)
    (name : Option Name) : Except Stop (Int × ExecKernel) := do
  let bmsem ← k.acquire k.bmsem
  let k := { k with bmsem := bmsem }
  match name with
  | none => .ok (-1, k.bmsemV)
  | some name =>
    if k.bm.numClear = MAX_PROCESS then
      execSlot files junk thread { k with bm := k.bm.setBit 0 } name 0 (-1)
    else if PState.sameName (k.threadName k.currentThread) name then .ok (-1, k.bmsemV)
    else
      match k.slotOf with
      | none => .ok (-1, k.bmsemV)
      | some ppid =>
        match k.bm.find with
        | (none, _) => .ok (-1, k.bmsemV)
        | (some pid, bm) => execSlot files junk thread { k with bm := bm } name pid ppid

/-! ## What a call does -/

variable {files : Name → Option (List Byte)} {junk : Nat → Byte} {k k' : ExecKernel} {name : Name} {pid : Nat}
  {ppid : Int} {thread : Tid}

@[simp] theorem wake_none (k : ExecKernel) : k.wake none = k := by
  rw [wake, Option.toList_none, List.append_nil]

/-- The new process of slot `pid`, with its address space. -/
def launched (thread : Tid) (k : ExecKernel) (name : Name) (pid : Nat) (ppid : Int)
    (built : List TranslationEntry × BitMap × Memory) : ExecKernel :=
  let k' := { k with
    threadName := Function.update k.threadName thread (name.take 50)
    space := Function.update k.space thread (some built.1)
    gPhysPageBitmap := built.2.1
    mainMemory := built.2.2 }
  (k'.start thread ppid).setPcb pid (some { PCB.new with
    processId := pid, parentId := ppid, processName := name.take 50, thread := some thread })

/-- Nobody waits for the `multex` of a new PCB. -/
theorem multexV_free {c : PCB} (hc : c.multex = ⟨0, []⟩) :
    k.multexV pid c = k.setPcb pid (some { c with multex := ⟨1, []⟩ }) := by
  have hv : c.multex.v = (⟨1, []⟩, none) := by
    rw [hc]
    rfl
  rw [multexV, hv, wake_none]

/-- `PCB::Exec` of a new PCB. -/
theorem exec_new (hnew : k.pcb pid = some PCB.new) : exec files junk thread k name pid ppid =
    match files name with
    | none => .ok (-1, k.setPcb pid (some { PCB.new with
        processId := pid, parentId := ppid, processName := name.take 50 }))
    | some file => AddrSpace.construct junk file k.gPhysPageBitmap k.mainMemory >>= fun built =>
        .ok (0, k.launched thread name pid ppid built) := by
  have hmultex : k.acquire PCB.new.multex = .ok ⟨0, []⟩ := rfl
  unfold exec
  rw [hnew]
  simp only [hmultex, ok_bind]
  rw [if_neg (show ¬ PCB.new.thread.isSome = true from Bool.false_ne_true)]
  cases files name with
  | none =>
    simp only
    rw [multexV_free rfl]
    rfl
  | some file =>
    simp only
    apply congrArg (_ >>= ·)
    funext built
    rw [multexV_free rfl]
    rfl

theorem launched_setPcb (k : ExecKernel) (c : Option PCB) (built : List TranslationEntry × BitMap × Memory) :
    (k.setPcb pid c).launched thread name pid ppid built = k.launched thread name pid ppid built := by
  unfold launched start
  simp only
  split
  · simp only [setPcb, Function.update_idem]
  · simp only [setPcb, Function.update_idem]

/-- **`ExecUpdate` with a free slot.** -/
theorem execSlot_eq : execSlot files junk thread k name pid ppid =
    match files name with
    | none => .ok (-1, ({ k with bm := k.bm.clearBit pid }.setPcb pid none).bmsemV)
    | some file => AddrSpace.construct junk file k.gPhysPageBitmap k.mainMemory >>= fun built =>
        .ok (pid, (k.launched thread name pid ppid built).bmsemV) := by
  have hget : (k.setPcb pid (some PCB.new)).pcb pid = some PCB.new := Function.update_self _ _ _
  unfold execSlot
  rw [exec_new hget]
  cases files name with
  | none =>
    simp only [ok_bind, if_true, setPcb, Function.update_idem]
  | some file =>
    show (AddrSpace.construct junk file k.gPhysPageBitmap k.mainMemory >>= _) >>= _ = _ >>= _
    cases AddrSpace.construct junk file k.gPhysPageBitmap k.mainMemory with
    | error e => rfl
    | ok built =>
      simp only [ok_bind]
      rw [if_neg (by decide), launched_setPcb]

/-! ## A call that fails -/

/-- The kernel after `bmsem` has been taken and released again. -/
def released (k : ExecKernel) : ExecKernel :=
  { k with
    bmsem := ⟨k.bmsem.value, k.bmsem.queue.tail⟩
    readyList := k.readyList ++ k.bmsem.queue.head?.toList }

/-- The table of `k` is that of `s`. -/
structure Agrees (k : ExecKernel) (s : PState) : Prop where
  pcb : k.pcb = s.pcb
  bm : k.bm = s.bm
  bmsem : k.bmsem = s.bmsem
  threadName : k.threadName = s.threadName

theorem acquire_of_ok {sem sem' : Semaphore} (h : k.acquire sem = .ok sem') :
    sem' = { sem with value := sem.value - 1 } := by
  unfold acquire Semaphore.p at h
  split at h
  · rename_i heq
    split at heq
    · cases heq
    · cases heq
      cases h
      rfl
  · cases h

theorem bmsemV_acquired (k : ExecKernel) :
    ({ k with bmsem := { k.bmsem with value := k.bmsem.value - 1 } } : ExecKernel).bmsemV = k.released := by
  obtain ⟨pcb, bm, ⟨value, queue⟩, threadName, space, frames, mem, readyList, currentThread⟩ := k
  cases queue with
  | nil => simp only [bmsemV, released, Semaphore.v, BitVec.sub_add_cancel, wake, List.tail_nil, List.head?_nil]
  | cons t queue =>
    simp only [bmsemV, released, Semaphore.v, BitVec.sub_add_cancel, wake, List.tail_cons, List.head?_cons]

/-- A slot that is taken and given back. -/
theorem undo_slot {s : PState} (hs : PState.system.Reachable s) (hk : Agrees k s) (hlt : pid < MAX_PROCESS)
    (hbit : k.bm.bit pid = false) :
    ({ k with bm := (k.bm.setBit pid).clearBit pid } : ExecKernel).setPcb pid none = k := by
  have hslots := (PState.reachable_inv hs).slots
  have hnum : k.bm.numBits = MAX_PROCESS := by
    rw [hk.bm]
    exact hslots.numBits
  have hnone : k.pcb pid = none := by
    have hshape : PState.shapes s pid = none := by
      by_contra hne
      have := (hslots.bits pid hlt).2 hne
      rw [← hk.bm, hbit] at this
      cases this
    rw [hk.pcb]
    exact Option.map_eq_none_iff.1 hshape
  rw [BitMap.clearBit_setBit (by rw [hnum]; exact hlt) hbit, setPcb]
  show ({ k with pcb := Function.update k.pcb pid none } : ExecKernel) = k
  rw [← hnone, Function.update_eq_self]

/-- **`ExecUpdate` that returns -1** has taken `bmsem` and released it, and that is all. -/
theorem execUpdate_fails {s : PState} {name : Option Name} (hs : PState.system.Reachable s) (hk : Agrees k s)
    (h : execUpdate files junk thread k name = .ok (-1, k')) : k' = k.released := by
  have hslots := (PState.reachable_inv hs).slots
  have hnum : k.bm.numBits = MAX_PROCESS := by
    rw [hk.bm]
    exact hslots.numBits
  obtain ⟨bmsem, hacquire, h⟩ := bind_eq_ok.1 h
  obtain rfl := acquire_of_ok hacquire
  -- a slot `pid` was free: the file could not be opened
  have hslot : ∀ (pid : Nat) (ppid : Int) (name : Name), pid < MAX_PROCESS → k.bm.bit pid = false →
      execSlot files junk thread { k with bmsem := { k.bmsem with value := k.bmsem.value - 1 }, bm := k.bm.setBit pid }
        name pid ppid = .ok (-1, k') → k' = k.released := by
    intro pid ppid name hlt hbit hexec
    rw [execSlot_eq] at hexec
    split at hexec
    · cases hexec
      have hundo := undo_slot hs hk hlt hbit
      rw [← bmsemV_acquired k]
      apply congrArg bmsemV
      exact congrArg (fun k1 : ExecKernel => { k1 with bmsem := { k.bmsem with value := k.bmsem.value - 1 } }) hundo
    · obtain ⟨built, -, hexec⟩ := bind_eq_ok.1 hexec
      have := congrArg Prod.fst (Except.ok.inj hexec)
      simp only at this
      omega
  have hfail : (Except.ok ((-1 : Int), ({ k with bmsem := { k.bmsem with value := k.bmsem.value - 1 } } :
      ExecKernel).bmsemV) : Except Stop _) = .ok (-1, k') → k' = k.released := by
    intro heq
    cases heq
    exact bmsemV_acquired k
  cases name with
  | none => exact hfail h
  | some name =>
    simp only at h
    split at h
    · rename_i hfirst
      refine hslot 0 (-1) name (by decide) ?_ h
      exact BitMap.numClear_eq_numBits.1 (hfirst.trans hnum.symm) 0 (by rw [hnum]; decide)
    · split at h
      · exact hfail h
      · split at h
        · exact hfail h
        · rcases k.bm.find_spec with ⟨pid, hfind, hlt, hbit, -⟩ | ⟨hfind, -⟩
          · simp only [hfind] at h
            exact hslot pid _ name (by rw [← hnum]; exact hlt) hbit h
          · simp only [hfind] at h
            exact hfail h

/-- **A failed `ExecUpdate` leaves no trace**, in every reachable state of the table and for every file
system: everything is as before, but that a thread that waits for `bmsem` is ready now. -/
theorem failed_exec_leaves_no_trace {s : PState} {name : Option Name} (hs : PState.system.Reachable s) (hk : Agrees k s)
    (h : execUpdate files junk thread k name = .ok (-1, k')) :
    k'.pcb = k.pcb ∧ k'.bm = k.bm ∧ k'.gPhysPageBitmap = k.gPhysPageBitmap ∧ k'.mainMemory = k.mainMemory ∧
    k'.currentThread = k.currentThread ∧ k'.bmsem.value = k.bmsem.value ∧
    (k.bmsem.queue = [] → k'.readyList = k.readyList) ∧
    ∀ t queue, k.bmsem.queue = t :: queue → k'.readyList = k.readyList ++ [t] ∧ k'.bmsem.queue = queue := by
  rw [execUpdate_fails hs hk h]
  refine ⟨rfl, rfl, rfl, rfl, rfl, rfl, ?_, ?_⟩
  · intro hempty
    simp [released, hempty]
  · intro t queue hqueue
    simp [released, hqueue]

/-- A kernel with the table of `s`, in which thread `t` runs. -/
def ofTable (s : PState) (t : Tid) (readyList : List Tid) : ExecKernel where
  pcb := s.pcb
  bm := s.bm
  bmsem := s.bmsem
  threadName := s.threadName
  space := fun _ => none
  gPhysPageBitmap := AddrSpace.freeMap
  mainMemory := fun _ => 0
  readyList := readyList
  currentThread := t

theorem agrees_ofTable (s : PState) (t : Tid) (readyList : List Tid) : Agrees (ofTable s t readyList) s :=
  ⟨rfl, rfl, rfl, rfl⟩

/-- A thread that calls `ExecUpdate` with its own name. -/
theorem execUpdate_ownName (hfree : k.bmsem.value ≠ 0) (hused : k.bm.numClear ≠ MAX_PROCESS)
    (hname : k.threadName k.currentThread = name) :
    execUpdate files junk thread k (some name) = .ok (-1, k.released) := by
  have hacquire : k.acquire k.bmsem = .ok { k.bmsem with value := k.bmsem.value - 1 } := by
    rw [acquire, Semaphore.p_pos hfree]
  have hsame : PState.sameName (k.threadName k.currentThread) name = true := by
    rw [hname, PState.sameName, beq_self_eq_true]
  rw [execUpdate, hacquire, ok_bind]
  simp only
  rw [if_neg hused, if_pos hsame, bmsemV_acquired]

open PState in
theorem failed_exec_first : ∃ s, system.Reachable s ∧ ∃ k', Agrees (ofTable s 1 []) s ∧
    execUpdate (fun _ => none) (fun _ => 0) 2 (ofTable s 1 []) (some [1]) = .ok (-1, k') ∧ k'.readyList = [] := by
  have hrun : (system.run boot0 firstRun).map
      (fun s => (s.bmsem.value, s.bmsem.queue, s.bm.numClear, s.threadName 1)) = some (1, [], 9, [1]) := by
    decide +kernel
  obtain ⟨s, hs, hproj⟩ := Option.map_eq_some_iff.1 hrun
  simp only [Prod.mk.injEq] at hproj
  obtain ⟨hvalue, hqueue, hclear, hname⟩ := hproj
  have hreach := Transition.System.reachable_of_run _ boot0_boot hs
  have hcall : execUpdate (fun _ => none) (fun _ => 0) 2 (ofTable s 1 []) (some [1]) = .ok (-1, (ofTable s 1 []).released) := by
    refine execUpdate_ownName ?_ ?_ hname
    · show s.bmsem.value ≠ 0
      rw [hvalue]
      decide
    · show s.bm.numClear ≠ MAX_PROCESS
      rw [hclear]
      decide
  refine ⟨s, hreach, _, agrees_ofTable s 1 [], hcall, ?_⟩
  exact (failed_exec_leaves_no_trace hreach (agrees_ofTable s 1 []) hcall).2.2.2.2.2.2.1 hqueue

/-- Threads 2 and 3 wait for `bmsem` while thread 1 calls `ExecUpdate` with its own name, which wakes thread 2. -/
def contended : List PEvent :=
  PState.firstRun ++ PState.execRun 1 2 [2] ++ PState.execRun 1 3 [3] ++
    [.callExec 1 (some [1]), .go 1, .callExec 2 (some [4]), .go 2, .callExec 3 (some [4]), .go 3, .go 1]

open PState in
/-- When thread 1 calls it again, thread 3 is put on the ready list. -/
theorem failed_exec_wakes : ∃ s, system.Reachable s ∧ ∃ k', Agrees (ofTable s 1 [2]) s ∧
    execUpdate (fun _ => none) (fun _ => 0) 4 (ofTable s 1 [2]) (some [1]) = .ok (-1, k') ∧ k'.readyList = [2, 3] := by
  have hrun : (system.run boot0 contended).map
      (fun s => (s.bmsem.value, s.bmsem.queue, s.bm.numClear, s.threadName 1)) = some (1, [3], 7, [1]) := by
    decide +kernel
  obtain ⟨s, hs, hproj⟩ := Option.map_eq_some_iff.1 hrun
  simp only [Prod.mk.injEq] at hproj
  obtain ⟨hvalue, hqueue, hclear, hname⟩ := hproj
  refine ⟨s, Transition.System.reachable_of_run _ boot0_boot hs, (ofTable s 1 [2]).released, agrees_ofTable s 1 [2], ?_, ?_⟩
  · refine execUpdate_ownName ?_ ?_ hname
    · show s.bmsem.value ≠ 0
      rw [hvalue]
      decide
    · show s.bm.numClear ≠ MAX_PROCESS
      rw [hclear]
      decide
  · show [2] ++ s.bmsem.queue.head?.toList = [2, 3]
    rw [hqueue]
    rfl

/-! ## A call that returns -/

/-- `ExecUpdate` returns -1 before it looks at the file. -/
def Refused (k : ExecKernel) : Option Name → Prop
  | none => True
  | some name => k.bm.numClear ≠ MAX_PROCESS ∧
      (PState.sameName (k.threadName k.currentThread) name = true ∨ k.slotOf = none ∨ k.bm.numClear = 0)

/-- The call returns a pid, or -1; and -1, with the table and the frames as before, for a file that is not in
NOFF format or needs more pages than are free. -/
def Copes (files : Name → Option (List Byte)) (junk : Nat → Byte) (thread : Tid) (k : ExecKernel)
    (name : Option Name) : Prop :=
  ∃ rslt k', execUpdate files junk thread k name = .ok (rslt, k') ∧
    (rslt = -1 ∨ ∃ pid : Nat, rslt = pid ∧ ∃ c, k'.pcb pid = some c ∧ c.processId = pid ∧ c.thread = some thread) ∧
    ∀ file, name.bind files = some file →
      ((AddrSpace.readHeader junk file).noffMagic ≠ NOFFMAGIC ∨
        k.gPhysPageBitmap.numClear < AddrSpace.numPages (AddrSpace.readHeader junk file)) →
      rslt = -1 ∧ k'.pcb = k.pcb ∧ k'.bm = k.bm ∧ k'.gPhysPageBitmap = k.gPhysPageBitmap

theorem acquire_free {sem : Semaphore} (h : sem.value ≠ 0) :
    k.acquire sem = .ok { sem with value := sem.value - 1 } := by
  rw [acquire, Semaphore.p_pos h]

theorem execUpdate_refused {name : Option Name} (hfree : k.bmsem.value ≠ 0) (h : Refused k name) :
    execUpdate files junk thread k name = .ok (-1, k.released) := by
  rw [execUpdate, acquire_free hfree, ok_bind]
  cases name with
  | none => exact congrArg (fun k => Except.ok ((-1 : Int), k)) (bmsemV_acquired k)
  | some name =>
    obtain ⟨hused, hcause⟩ := h
    simp only
    rw [if_neg hused, bmsemV_acquired]
    by_cases hsame : PState.sameName (k.threadName k.currentThread) name = true
    · rw [if_pos hsame]
    · rw [if_neg hsame]
      have hslot : slotOf { k with bmsem := { k.bmsem with value := k.bmsem.value - 1 } } = k.slotOf := rfl
      rw [hslot]
      cases hppid : k.slotOf with
      | none => rfl
      | some ppid =>
        have hfull : k.bm.numClear = 0 := by
          rcases hcause with h1 | h2 | h3
          · exact absurd h1 hsame
          · rw [h2] at hppid
            cases hppid
          · exact h3
        rcases k.bm.find_spec with ⟨pid, -, hlt, hbit, -⟩ | ⟨hfind, -⟩
        · have hpos : 0 < k.bm.numClear := BitMap.numClear_pos.2 ⟨pid, hlt, hbit⟩
          omega
        · simp only [hfind]

/-- A call that is not refused takes a slot. -/
theorem execUpdate_accepted (files : Name → Option (List Byte)) (junk : Nat → Byte) (thread : Tid)
    (hfree : k.bmsem.value ≠ 0) (h : ¬ Refused k (some name)) :
    ∃ pid ppid bm, execUpdate files junk thread k (some name) =
      execSlot files junk thread { k with bmsem := { k.bmsem with value := k.bmsem.value - 1 }, bm := bm } name pid ppid := by
  rw [execUpdate, acquire_free hfree, ok_bind]
  simp only
  by_cases hfirst : k.bm.numClear = MAX_PROCESS
  · rw [if_pos hfirst]
    exact ⟨0, -1, k.bm.setBit 0, rfl⟩
  · simp only [Refused, not_and_or, not_not, not_or] at h
    obtain ⟨hsame, hslot, hclear⟩ := h.resolve_left hfirst
    rw [if_neg hfirst, if_neg hsame]
    have hslot' : slotOf { k with bmsem := { k.bmsem with value := k.bmsem.value - 1 } } = k.slotOf := rfl
    rw [hslot']
    obtain ⟨ppid, hppid⟩ := Option.ne_none_iff_exists'.1 hslot
    rw [hppid]
    obtain ⟨pid, hfind, -⟩ := BitMap.find_of_numClear_pos (Nat.pos_of_ne_zero hclear)
    simp only [hfind]
    exact ⟨pid, ppid, k.bm.setBit pid, rfl⟩

end ExecKernel

/-- **`ExecUpdate` copes with a file**, for every content of it, any free frames and wherever the new thread is
placed, exactly if it returns -1 before it opens the file, or the file cannot be opened, or its header loads. -/
theorem execUpdate_copes_iff {files : Name → Option (List Byte)} {junk : Nat → Byte} {thread : Tid} {k : ExecKernel}
    {name : Option Name} (hfree : k.bmsem.value ≠ 0) (hframes : k.gPhysPageBitmap.numBits = NumPhysPages) :
    k.Copes files junk thread name ↔ k.Refused name ∨ ∀ file, name.bind files = some file →
      AddrSpace.Loads (AddrSpace.readHeader junk file) k.gPhysPageBitmap := by
  by_cases href : k.Refused name
  · refine iff_of_true ⟨-1, k.released, ExecKernel.execUpdate_refused hfree href, .inl rfl, ?_⟩ (.inl href)
    exact fun _ _ _ => ⟨rfl, rfl, rfl, rfl⟩
  · rw [or_iff_right href]
    cases name with
    | none => exact absurd trivial href
    | some name =>
      obtain ⟨pid, ppid, bm, hcall⟩ := ExecKernel.execUpdate_accepted files junk thread hfree href
      unfold ExecKernel.Copes
      rw [hcall, ExecKernel.execSlot_eq, Option.bind_some]
      cases hfile : files name with
      | none =>
        refine iff_of_true ⟨-1, _, rfl, .inl rfl, ?_⟩ ?_
        · rintro file ⟨⟩
        · rintro file ⟨⟩
      | some file =>
        simp only [Option.some.injEq, forall_eq']
        have hconstruct := AddrSpace.construct_ok_iff junk file k.mainMemory hframes
        rw [← hconstruct]
        constructor
        · rintro ⟨rslt, k', hok, -⟩
          obtain ⟨built, hbuilt, -⟩ := Partial.bind_eq_ok.1 hok
          exact ⟨built, hbuilt⟩
        · rintro ⟨built, hbuilt⟩
          have hloads := hconstruct.1 ⟨built, hbuilt⟩
          refine ⟨pid, _, Partial.bind_eq_ok.2 ⟨built, hbuilt, rfl⟩, .inr ⟨pid, rfl, ?_⟩, ?_⟩
          · exact ⟨_, Function.update_self _ _ _, rfl, rfl⟩
          · rintro (hmagic | hpages)
            · exact absurd hloads.magic hmagic
            · exact absurd hpages (Nat.not_lt.2 hloads.pages)

/-- A file with four bytes of code loads. -/
theorem execUpdate_copes_codeAt_zero : ∃ k : ExecKernel, k.bmsem.value ≠ 0 ∧
    k.Copes (fun _ => some (AddrSpace.codeAt [0, 0, 0, 0])) (fun _ => 0) 1 (some [1]) := by
  refine ⟨ExecKernel.ofTable PState.boot0 0 [], by decide, ?_⟩
  refine (execUpdate_copes_iff (by decide) rfl).2 (.inr ?_)
  rintro file ⟨⟩
  rw [AddrSpace.header_codeAt_zero]
  refine ⟨rfl, ?_, ?_⟩
  · show _ ≤ AddrSpace.freeMap.numClear
    rw [AddrSpace.numClear_freeMap]
    decide
  · intro seg hseg hsize
    rcases List.mem_cons.1 hseg with rfl | hseg
    · refine ⟨by decide, .inl (by decide), by decide, by decide, ?_⟩
      intro i hi _ hin
      -- four bytes hold no page boundary
      change (i : Int) * (128 : Nat) < 4 at hin
      omega
    · obtain rfl := List.mem_singleton.1 hseg
      exact absurd hsize (by decide)

open PState in
/-- When a process executes an empty file the kernel aborts. -/
theorem execUpdate_aborts_empty : ∃ s, system.Reachable s ∧ s.pc 1 = .user ∧
    (ExecKernel.ofTable s 1 []).execUpdate (fun _ => some []) (fun _ => 0) 2 (some [2]) = .error .abort := by
  have hrun : (system.run boot0 firstRun).map
      (fun s => (s.bmsem.value, s.bm.numClear, s.threadName 1, s.slotOf 1, s.pc 1)) = some (1, 9, [1], some 0, .user) := by
    decide +kernel
  obtain ⟨s, hs, hproj⟩ := Option.map_eq_some_iff.1 hrun
  simp only [Prod.mk.injEq] at hproj
  obtain ⟨hvalue, hclear, hname, hslot, hpc⟩ := hproj
  have hfree : (ExecKernel.ofTable s 1 []).bmsem.value ≠ 0 := by
    show s.bmsem.value ≠ 0
    rw [hvalue]
    decide
  have haccepted : ¬ (ExecKernel.ofTable s 1 []).Refused (some [2]) := by
    rintro ⟨-, hcause⟩
    change sameName (s.threadName 1) [2] = true ∨ s.slotOf 1 = none ∨ s.bm.numClear = 0 at hcause
    rw [hname, hslot, hclear] at hcause
    exact absurd hcause (by decide)
  obtain ⟨pid, ppid, bm, hcall⟩ := ExecKernel.execUpdate_accepted (fun _ => some []) (fun _ => 0) 2 hfree haccepted
  refine ⟨s, Transition.System.reachable_of_run _ boot0_boot hs, hpc, ?_⟩
  rw [hcall, ExecKernel.execSlot_eq]
  have hmagic : (AddrSpace.readHeader (fun _ => 0) []).noffMagic ≠ NOFFMAGIC := by decide
  simp only [AddrSpace.construct, if_pos hmagic]
  rfl

end Nachos
