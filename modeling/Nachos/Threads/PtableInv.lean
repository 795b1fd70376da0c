import Nachos.Lib.Forest
import Nachos.Threads.Ptable

/-!
# The process table is a tree

`ExecUpdate` builds a slot in several steps while other processes join and exit without taking
`bmsem`.  Of a slot only its shape matters here: the thread and the two ids.  A slot is
*established* once it has a thread.  `Find` hands out the first free slot and established slots are
never cleared, so below a slot in use all are established, and the parent of a slot is below it
(`Slots`), at whatever addresses the threads are.  `bmsem` is a lock (`Mutex`), so at most one slot
is not established, and its builder knows its stage (`PcOk`).

* `step_inv` — one step keeps the invariant.
* `table_tree` — every reachable state in which `bmsem` is free describes a tree, and no `NULL`
  entry is ever followed.
-/

set_option autoImplicit false

namespace Nachos

namespace PState

open Transition

/-! ## Shapes -/

structure Shape where
  thread : Option Tid
  processId : Int
  parentId : Int
  deriving DecidableEq, Repr

def shape (c : PCB) : Shape := ⟨c.thread, c.processId, c.parentId⟩

def shapes (s : PState) (i : Nat) : Option Shape := (s.pcb i).map shape

/-- The slot has got its thread. -/
def Established (f : Nat → Option Shape) (i : Nat) : Prop :=
  ∃ c u, f i = some c ∧ c.thread = some u

/-- Slot `i` is the root, or its parent is below it. -/
def Lineage (i : Nat) (parentId : Int) : Prop :=
  (i = 0 ∧ parentId = -1) ∨ ∃ p : Nat, parentId = p ∧ p < i

structure Slots (f : Nat → Option Shape) (bm : BitMap) : Prop where
  numBits : bm.numBits = MAX_PROCESS
  range : ∀ i, f i ≠ none → i < MAX_PROCESS
  bits : ∀ i < MAX_PROCESS, bm.bit i = true ↔ f i ≠ none
  born : ∀ i c u, f i = some c → c.thread = some u → c.processId = i ∧ Lineage i c.parentId
  dense : ∀ i j, i < j → f j ≠ none → Established f i

/-- The slot exists and has no thread yet. -/
def Unborn (f : Nat → Option Shape) (i : Nat) : Prop := ∃ c, f i = some c ∧ c.thread = none

/-- Inside the critical section of `bmsem`. -/
def inLock : Pc → Bool
  | .execBody _ | .execMultex _ _ _ | .execOpen _ _ | .execSpace _ _ | .execUnlock _
  | .execRelease _ | .execUndo _ => true
  | _ => false

/-- The slot that the thread is building and that still has no thread. -/
def building : Pc → Option Nat
  | .execMultex _ pid _ | .execOpen pid _ | .execUndo pid => some pid
  | _ => none

/-- What a thread in the middle of a call relies on. -/
def PcOk (f : Nat → Option Shape) (pc : Tid → Pc) : Pc → Prop
  | .execMultex _ pid ppid => Unborn f pid ∧ Lineage pid ppid
  | .execOpen pid ppid => f pid = some ⟨none, pid, ppid⟩ ∧ Lineage pid ppid
  | .execSpace pid ppid => ∃ u, f pid = some ⟨some u, pid, ppid⟩ ∧ pc u = .created
  | .execUndo pid => Unborn f pid
  | .execUnlock pid => Established f pid
  | .joinP which _ | .joinReturn which _ => Established f which
  | _ => True

/-- Where the thread of a slot, or the main thread, can be: the main thread builds the first
    process and does nothing else. -/
def homeOk : Option Nat → Pc → Bool
  | none, .dead | none, .boot | none, .execP _ | none, .execBody _ | none, .execUndo _ => true
  | none, .execMultex _ _ ppid | none, .execOpen _ ppid | none, .execSpace _ ppid => ppid == -1
  | none, _ => false
  | some _, .boot => false
  | some _, .execMultex _ _ ppid | some _, .execOpen _ ppid | some _, .execSpace _ ppid => ppid != -1
  | some _, _ => true

/-- A thread is named by the slot it was made for, as long as it is there; the main thread is named
    by none. -/
structure Homes (f : Nat → Option Shape) (pc : Tid → Pc) (home : Tid → Option Nat) : Prop where
  owner : ∀ u i, pc u ≠ .dead → home u = some i → ∃ c, f i = some c ∧ c.thread = some u
  unnamed : ∀ u, pc u ≠ .dead → home u = none → ∀ i c, f i = some c → c.thread ≠ some u
  place : ∀ u, homeOk (home u) (pc u) = true

structure Inv (s : PState) : Prop where
  slots : Slots (shapes s) s.bm
  mutex : Mutex (fun t => inLock (s.pc t)) s.bmsem.value
  fresh : ∀ t, s.top ≤ t → s.pc t = .dead
  pcs : ∀ t, PcOk (shapes s) s.pc (s.pc t)
  unborn : ∀ i, Unborn (shapes s) i → ∃ t, building (s.pc t) = some i
  homes : Homes (shapes s) s.pc s.home
  fault : s.fault = false

/-! ## The table -/

section Table

variable {f : Nat → Option Shape} {bm : BitMap}

theorem Unborn.not_established {i : Nat} (h : Unborn f i) : ¬ Established f i := by
  obtain ⟨c, hc, hnone⟩ := h
  rintro ⟨c', u, hc', hu⟩
  rw [hc] at hc'
  cases hc'
  rw [hnone] at hu
  cases hu

theorem Established.update {i j : Nat} {x : Option Shape} (h : Established f j)
    (hi : ¬ Established f i) : Established (Function.update f i x) j := by
  obtain ⟨c, u, hc, hu⟩ := h
  have hne : j ≠ i := by
    rintro rfl
    exact hi ⟨c, u, hc, hu⟩
  exact ⟨c, u, by rw [Function.update_of_ne hne]; exact hc, hu⟩

/-- The parent of a slot in use has its thread. -/
theorem Slots.parent (h : Slots f bm) {i p : Nat} (hi : f i ≠ none) (hp : p < i) : Established f p :=
  h.dense p i hp hi

/-- A slot that is not established is changed into one that is not. -/
theorem Slots.setUnborn (h : Slots f bm) {i : Nat} (hi : ¬ Established f i) {x : Option Shape}
    {bm' : BitMap} (hx : ∀ c, x = some c → c.thread = none) (hnum : bm'.numBits = bm.numBits)
    (hlt : i < MAX_PROCESS) (hbits : ∀ j, bm'.bit j = if j = i then x.isSome else bm.bit j)
    (hbelow : x ≠ none → ∀ j < i, Established f j) : Slots (Function.update f i x) bm' := by
  refine ⟨hnum.trans h.numBits, ?_, ?_, ?_, ?_⟩
  · intro j hj
    rcases eq_or_ne j i with rfl | hne
    · exact hlt
    · rw [Function.update_of_ne hne] at hj
      exact h.range j hj
  · intro j hj
    rw [hbits]
    rcases eq_or_ne j i with rfl | hne
    · simp [Option.isSome_iff_ne_none]
    · rw [if_neg hne, Function.update_of_ne hne]
      exact h.bits j hj
  · intro j c u hc hu
    rcases eq_or_ne j i with rfl | hne
    · rw [Function.update_self] at hc
      rw [hx c hc] at hu
      cases hu
    · rw [Function.update_of_ne hne] at hc
      exact h.born j c u hc hu
  · intro a b hab hb
    rcases eq_or_ne b i with rfl | hne
    · rw [Function.update_self] at hb
      exact (hbelow hb a hab).update hi
    · rw [Function.update_of_ne hne] at hb
      exact (h.dense a b hab hb).update hi

/-- The slot gets its thread. -/
theorem Slots.setThread (h : Slots f bm) {pid : Nat} {ppid : Int} (hf : f pid = some ⟨none, pid, ppid⟩)
    (hp : Lineage pid ppid) (u : Tid) : Slots (Function.update f pid (some ⟨some u, pid, ppid⟩)) bm := by
  have hun : ¬ Established f pid := Unborn.not_established ⟨_, hf, rfl⟩
  have hocc : ∀ j, Function.update f pid (some ⟨some u, pid, ppid⟩) j ≠ none ↔ f j ≠ none := by
    intro j
    rcases eq_or_ne j pid with rfl | hne
    · simp [hf]
    · rw [Function.update_of_ne hne]
  refine ⟨h.numBits, ?_, ?_, ?_, ?_⟩
  · intro j hj
    exact h.range j ((hocc j).1 hj)
  · intro j hj
    rw [hocc]
    exact h.bits j hj
  · intro j c w hc hw
    rcases eq_or_ne j pid with rfl | hne
    · rw [Function.update_self] at hc
      cases hc
      exact ⟨rfl, hp⟩
    · rw [Function.update_of_ne hne] at hc
      exact h.born j c w hc hw
  · intro a b hab hb
    exact (h.dense a b hab ((hocc b).1 hb)).update hun

variable {pc : Tid → Pc} {home : Tid → Option Nat}

/-- A thread moves on, or is deleted. -/
theorem Homes.move (h : Homes f pc home) {t : Tid} {p : Pc} (ht : pc t ≠ .dead)
    (hp : homeOk (home t) p = true) : Homes f (Function.update pc t p) home := by
  have hlive : ∀ u, Function.update pc t p u ≠ .dead → pc u ≠ .dead := by
    intro u hu
    rcases eq_or_ne u t with rfl | hne
    · exact ht
    · rwa [Function.update_of_ne hne] at hu
  refine ⟨fun u i hu => h.owner u i (hlive u hu), fun u hu => h.unnamed u (hlive u hu), ?_⟩
  intro u
  rcases eq_or_ne u t with rfl | hne
  · rw [Function.update_self]
    exact hp
  · rw [Function.update_of_ne hne]
    exact h.place u

/-- A slot that is not established is changed into one that is not. -/
theorem Homes.setUnborn (h : Homes f pc home) {i : Nat} (hi : ¬ Established f i) {x : Option Shape}
    (hx : ∀ c, x = some c → c.thread = none) : Homes (Function.update f i x) pc home := by
  refine ⟨?_, ?_, h.place⟩
  · intro u j hu hj
    obtain ⟨c, hc, hcu⟩ := h.owner u j hu hj
    have hne : j ≠ i := by
      rintro rfl
      exact hi ⟨c, u, hc, hcu⟩
    exact ⟨c, by rw [Function.update_of_ne hne]; exact hc, hcu⟩
  · intro u hu hnone j c hc
    rcases eq_or_ne j i with rfl | hne
    · rw [Function.update_self] at hc
      rw [hx c hc]
      exact nofun
    · rw [Function.update_of_ne hne] at hc
      exact h.unnamed u hu hnone j c hc

/-- `new Thread`, at an address where there is none. -/
theorem Homes.create (h : Homes f pc home) {pid : Nat} (hi : ¬ Established f pid) {u : Tid} {c : Shape}
    (hu : pc u = .dead) (hc : c.thread = some u) :
    Homes (Function.update f pid (some c)) (Function.update pc u .created)
      (Function.update home u (some pid)) := by
  refine ⟨?_, ?_, ?_⟩
  · intro v i hv hhome
    rcases eq_or_ne v u with rfl | hne
    · rw [Function.update_self] at hhome
      cases hhome
      exact ⟨c, Function.update_self _ _ _, hc⟩
    · rw [Function.update_of_ne hne] at hv hhome
      obtain ⟨d, hd, hdv⟩ := h.owner v i hv hhome
      have hip : i ≠ pid := by
        rintro rfl
        exact hi ⟨d, v, hd, hdv⟩
      exact ⟨d, by rw [Function.update_of_ne hip]; exact hd, hdv⟩
  · intro v hv hnone i d hd
    rcases eq_or_ne v u with rfl | hne
    · rw [Function.update_self] at hnone
      cases hnone
    · rw [Function.update_of_ne hne] at hv hnone
      rcases eq_or_ne i pid with rfl | hip
      · rw [Function.update_self] at hd
        cases hd
        rw [hc]
        exact fun heq => hne (Option.some.inj heq).symm
      · rw [Function.update_of_ne hip] at hd
        exact h.unnamed v hv hnone i d hd
  · intro v
    rcases eq_or_ne v u with rfl | hne
    · rw [Function.update_self, Function.update_self]
      rfl
    · rw [Function.update_of_ne hne, Function.update_of_ne hne]
      exact h.place v

end Table

/-! ## The threads -/

variable {s : PState}

theorem inLock_of_building {p : Pc} {i : Nat} (h : building p = some i) : inLock p = true := by
  cases p <;> simp_all [building, inLock]

/-- The thread has been started. -/
def running : Pc → Bool
  | .dead | .created => false
  | _ => true

theorem running_of_inLock {p : Pc} (h : inLock p = true) : running p = true := by
  cases p <;> simp_all [running, inLock]

theorem ne_dead_of_running {p : Pc} (h : running p = true) : p ≠ .dead := by
  rintro rfl
  cases h

/-- The threads outside the lock rely on established slots only. -/
theorem PcOk.mono {f f' : Nat → Option Shape} {pc pc' : Tid → Pc} {p : Pc} (h : PcOk f pc p)
    (hp : inLock p = false) (hest : ∀ i, Established f i → Established f' i) : PcOk f' pc' p := by
  cases p <;> simp_all [PcOk, inLock]

theorem PcOk.congr {f : Nat → Option Shape} {pc pc' : Tid → Pc} {p : Pc} (h : PcOk f pc p)
    (hcreated : ∀ u, pc u = .created → pc' u = .created) : PcOk f pc' p := by
  cases p with
  | execSpace pid ppid =>
    obtain ⟨u, hu, hd⟩ := h
    exact ⟨u, hu, hcreated u hd⟩
  | _ => exact h

/-- A thread that has not been started stays where it is when another one moves. -/
theorem waits_update {pc : Tid → Pc} {t : Tid} {p q : Pc} (ht : running (pc t) = true)
    (hq : running q = false) (u : Tid) (hu : pc u = q) : Function.update pc t p u = q := by
  have hne : u ≠ t := by
    rintro rfl
    rw [hu, hq] at ht
    cases ht
  rw [Function.update_of_ne hne]
  exact hu

theorem inLock_update (pc : Tid → Pc) (t : Tid) (p : Pc) :
    (fun u => inLock (Function.update pc t p u)) =
      Function.update (fun u => inLock (pc u)) t (inLock p) :=
  Function.comp_update inLock pc t p

/-- Whoever can be at `p` can be at `q`. -/
theorem Inv.homeOk_next (h : Inv s) {t : Tid} {p q : Pc} (hpc : s.pc t = p)
    (hq : ∀ home, homeOk home p = true → homeOk home q = true) : homeOk (s.home t) q = true := by
  subst hpc
  exact hq _ (h.homes.place t)

/-- A thread moves on and the shapes stay. -/
theorem Inv.move {s' : PState} (h : Inv s) (t : Tid) (p : Pc) (hshapes : shapes s' = shapes s)
    (hrest : (s'.bm, s'.home, s'.top, s'.fault, s'.pc) =
      (s.bm, s.home, s.top, s.fault, Function.update s.pc t p))
    (ht : running (s.pc t) = true) (hok : PcOk (shapes s) s.pc p) (hb : building p = building (s.pc t))
    (hplace : homeOk (s.home t) p = true)
    (hmutex : Mutex (Function.update (fun u => inLock (s.pc u)) t (inLock p)) s'.bmsem.value) :
    Inv s' := by
  simp only [Prod.mk.injEq] at hrest
  obtain ⟨hbm, hhome, htop, hfault, hpc⟩ := hrest
  have hcreated := waits_update (p := p) (q := .created) ht rfl
  refine ⟨?_, ?_, ?_, ?_, ?_, ?_, hfault.trans h.fault⟩
  · rw [hshapes, hbm]; exact h.slots
  · rw [hpc, inLock_update]; exact hmutex
  · intro u hu
    rw [htop] at hu
    rw [hpc]
    exact waits_update ht rfl u (h.fresh u hu)
  · intro u
    rw [hshapes, hpc]
    rcases eq_or_ne u t with rfl | hne
    · rw [Function.update_self]; exact hok.congr hcreated
    · rw [Function.update_of_ne hne]; exact (h.pcs u).congr hcreated
  · intro i hi
    rw [hshapes] at hi
    obtain ⟨u, hu⟩ := h.unborn i hi
    rw [hpc]
    rcases eq_or_ne u t with rfl | hne
    · exact ⟨u, by rw [Function.update_self, hb, hu]⟩
    · exact ⟨u, by rw [Function.update_of_ne hne, hu]⟩
  · rw [hshapes, hpc, hhome]
    exact h.homes.move (ne_dead_of_running ht) hplace

/-- `move` by a thread that stays inside, or outside, the lock. -/
theorem Inv.moveSame {s' : PState} (h : Inv s) (t : Tid) (p : Pc) (hshapes : shapes s' = shapes s)
    (hrest : (s'.bm, s'.home, s'.top, s'.fault, s'.pc) =
      (s.bm, s.home, s.top, s.fault, Function.update s.pc t p))
    (ht : running (s.pc t) = true) (hok : PcOk (shapes s) s.pc p) (hb : building p = building (s.pc t))
    (hplace : homeOk (s.home t) p = true) (hl : inLock p = inLock (s.pc t))
    (hv : s'.bmsem.value = s.bmsem.value) : Inv s' := by
  apply h.move t p hshapes hrest ht hok hb hplace
  rw [hl, hv, Function.update_eq_self t (fun u => inLock (s.pc u))]
  exact h.mutex

/-- A thread in the lock keeps it. -/
theorem Inv.keepLock (h : Inv s) {t : Tid} (ht : inLock (s.pc t) = true) :
    Mutex (Function.update (fun u => inLock (s.pc u)) t true) s.bmsem.value := by
  have hself := Function.update_eq_self t (fun u => inLock (s.pc u))
  rw [ht] at hself
  rw [hself]
  exact h.mutex

/-- `bmsem->V()` by the holder. -/
theorem Inv.leaveLock (h : Inv s) {t : Tid} (ht : inLock (s.pc t) = true) :
    Mutex (Function.update (fun u => inLock (s.pc u)) t false) s.bmsem.v.1.value := by
  rw [Semaphore.v_value]
  exact h.mutex.release ht

/-- Inside the lock, the only slot without a thread is the holder's. -/
theorem Inv.unborn_holder (h : Inv s) {t : Tid} (ht : inLock (s.pc t) = true) {i : Nat}
    (hi : Unborn (shapes s) i) : building (s.pc t) = some i := by
  obtain ⟨u, hu⟩ := h.unborn i hi
  rw [h.mutex.excl t u ht (inLock_of_building hu)]
  exact hu

/-- Nobody else is in the lock. -/
theorem Inv.outside (h : Inv s) {t u : Tid} (ht : inLock (s.pc t) = true) (hu : u ≠ t) :
    inLock (s.pc u) = false := by
  rcases hl : inLock (s.pc u) with _ | _
  · rfl
  · exact absurd (h.mutex.excl u t hl ht) hu

/-- The holder of the lock changes a slot that is not established, and moves on; it may place a new
    thread. -/
theorem Inv.build {s' : PState} (h : Inv s) (t : Tid) (p : Pc) (i : Nat) (x : Option Shape)
    (ht : inLock (s.pc t) = true) (hpc : s'.pc t = p)
    (hother : ∀ u, u ≠ t → s'.pc u = s.pc u ∨ s'.pc u = .created)
    (hshapes : shapes s' = Function.update (shapes s) i x) (hno : ¬ Established (shapes s) i)
    (hown : ∀ j, building (s.pc t) = some j → j = i) (hslots : Slots (shapes s') s'.bm)
    (hfresh : ∀ u, s'.top ≤ u → s'.pc u = .dead) (hfault : s'.fault = s.fault)
    (hok : PcOk (shapes s') s'.pc p)
    (hunborn : ∀ c, x = some c → c.thread = none → building p = some i)
    (hhomes : Homes (shapes s') s'.pc s'.home)
    (hmutex : Mutex (Function.update (fun u => inLock (s.pc u)) t (inLock p)) s'.bmsem.value) :
    Inv s' := by
  refine ⟨hslots, ?_, hfresh, ?_, ?_, hhomes, hfault.trans h.fault⟩
  · convert hmutex using 1
    funext u
    rcases eq_or_ne u t with rfl | hne
    · rw [hpc, Function.update_self]
    · rw [Function.update_of_ne hne]
      rcases hother u hne with hsame | hnew
      · rw [hsame]
      · rw [hnew, h.outside ht hne]
        rfl
  · intro u
    rcases eq_or_ne u t with rfl | hne
    · rw [hpc]; exact hok
    · rcases hother u hne with hsame | hnew
      · rw [hsame, hshapes]
        exact (h.pcs u).mono (h.outside ht hne) (fun j hj => hj.update hno)
      · rw [hnew]
        trivial
  · intro j hj
    rw [hshapes] at hj
    obtain ⟨c, hc, hn⟩ := hj
    rcases eq_or_ne j i with rfl | hne
    · rw [Function.update_self] at hc
      exact ⟨t, by rw [hpc]; exact hunborn c hc hn⟩
    · rw [Function.update_of_ne hne] at hc
      exact absurd (hown j (h.unborn_holder ht ⟨c, hc, hn⟩)) hne

/-- `build` without a new thread. -/
theorem Inv.buildSlot {s' : PState} (h : Inv s) (t : Tid) (p : Pc) (i : Nat) (x : Option Shape)
    (ht : inLock (s.pc t) = true) (hrest : (s'.home, s'.top, s'.fault, s'.pc) =
      (s.home, s.top, s.fault, Function.update s.pc t p))
    (hshapes : shapes s' = Function.update (shapes s) i x) (hno : ¬ Established (shapes s) i)
    (hown : ∀ j, building (s.pc t) = some j → j = i) (hslots : Slots (shapes s') s'.bm)
    (hok : PcOk (shapes s') s'.pc p) (hx : ∀ c, x = some c → c.thread = none ∧ building p = some i)
    (hplace : homeOk (s.home t) p = true)
    (hmutex : Mutex (Function.update (fun u => inLock (s.pc u)) t (inLock p)) s'.bmsem.value) :
    Inv s' := by
  simp only [Prod.mk.injEq] at hrest
  obtain ⟨hhome, htop, hfault, hpc⟩ := hrest
  have hrun := running_of_inLock ht
  refine h.build t p i x ht (by rw [hpc, Function.update_self]) ?_ hshapes hno hown hslots ?_ hfault
    hok (fun c hc _ => (hx c hc).2) ?_ hmutex
  · intro u hu
    rw [hpc, Function.update_of_ne hu]
    exact .inl rfl
  · intro u hu
    rw [htop] at hu
    rw [hpc]
    exact waits_update hrun rfl u (h.fresh u hu)
  · rw [hshapes, hpc, hhome]
    exact (h.homes.setUnborn hno (fun c hc => (hx c hc).1)).move (ne_dead_of_running hrun) hplace

theorem shapes_setPcb (s : PState) (i : Nat) (c : PCB) :
    shapes (s.setPcb i (some c)) = Function.update (shapes s) i (some (shape c)) := by
  funext j
  rcases eq_or_ne j i with rfl | hne
  · simp [shapes, setPcb]
  · simp [shapes, setPcb, hne]

/-- Semaphores, counters and exit codes are not part of the shape. -/
theorem shapes_setPcb_same {i : Nat} {c c' : PCB} (hc : s.pcb i = some c)
    (hs : shape c' = shape c) : shapes (s.setPcb i (some c')) = shapes s := by
  have hself := Function.update_eq_self i (shapes s)
  rw [shapes_setPcb, hs]
  rw [shapes, hc] at hself
  exact hself

theorem shapes_setPc (s : PState) (t : Tid) (p : Pc) : shapes (s.setPc t p) = shapes s := rfl

/-- The slot that the search loop finds has the thread it looks for. -/
theorem slotOf_spec {t : Tid} {i : Nat} (h : s.slotOf t = some i) :
    i < MAX_PROCESS ∧ ∃ c, s.pcb i = some c ∧ c.thread = some t := by
  have hmem := List.mem_of_find?_eq_some h
  have hp := List.find?_some h
  refine ⟨List.mem_range.1 hmem, ?_⟩
  split at hp
  · rename_i c hc
    exact ⟨c, hc, by simpa using hp⟩
  · cases hp

theorem slotOf_established {t : Tid} {i : Nat} (h : s.slotOf t = some i) :
    Established (shapes s) i := by
  obtain ⟨-, c, hc, ht⟩ := slotOf_spec h
  exact ⟨shape c, t, by simp [shapes, hc], ht⟩

/-! ## The step -/

theorem afterExec_spec (home : Option Nat) : inLock (afterExec home) = false ∧
    building (afterExec home) = none ∧ homeOk home (afterExec home) = true ∧
    ∀ f pc, PcOk f pc (afterExec home) := by
  cases home with
  | none => exact ⟨rfl, rfl, rfl, fun _ _ => trivial⟩
  | some i => exact ⟨rfl, rfl, rfl, fun _ _ => trivial⟩

theorem execFail_inv (h : Inv s) {t : Tid} (ht : inLock (s.pc t) = true)
    (hb : building (s.pc t) = none) : Inv (s.execFail t) := by
  obtain ⟨hl, hbuild, hplace, hok⟩ := afterExec_spec (s.home t)
  refine h.move t (afterExec (s.home t)) rfl rfl (running_of_inLock ht) (hok _ _) (by rw [hb, hbuild])
    hplace ?_
  rw [hl]
  exact h.leaveLock ht

/-- `new PCB()` in a free slot. -/
theorem newPcb_inv (h : Inv s) {t : Tid} (ht : inLock (s.pc t) = true)
    (hb : building (s.pc t) = none) (name : Name) {pid : Nat} {ppid : Int} (hlt : pid < MAX_PROCESS)
    (hfree : shapes s pid = none) (hp : Lineage pid ppid)
    (hbelow : ∀ j < pid, Established (shapes s) j)
    (hplace : homeOk (s.home t) (.execMultex name pid ppid) = true) :
    Inv (newPcb { s with bm := s.bm.setBit pid } t name pid ppid) := by
  have hno : ¬ Established (shapes s) pid := by
    rintro ⟨c, u, hc, -⟩
    rw [hfree] at hc
    cases hc
  have hshapes : shapes (newPcb { s with bm := s.bm.setBit pid } t name pid ppid) =
      Function.update (shapes s) pid (some ⟨none, -1, -1⟩) := shapes_setPcb _ pid PCB.new
  refine h.buildSlot t (.execMultex name pid ppid) pid _ ht rfl hshapes hno ?_ ?_ ?_ ?_ hplace
    (h.keepLock ht)
  · intro j hj
    rw [hb] at hj
    cases hj
  · rw [hshapes]
    refine h.slots.setUnborn hno ?_ rfl hlt ?_ (fun _ => hbelow)
    · intro c hc
      cases hc
      rfl
    · intro j
      exact BitMap.bit_setBit (by rw [h.slots.numBits]; exact hlt) j
  · rw [hshapes]
    exact ⟨⟨_, Function.update_self _ _ _, rfl⟩, hp⟩
  · intro c hc
    cases hc
    exact ⟨rfl, rfl⟩

theorem execBody_inv (h : Inv s) {t : Tid} {name : Option Name} (hpc : s.pc t = .execBody name) :
    Inv (s.execBody t name) := by
  have ht : inLock (s.pc t) = true := by rw [hpc]; rfl
  have hb : building (s.pc t) = none := by rw [hpc]; rfl
  have hhome := h.homes.place t
  rw [hpc] at hhome
  have hclear : ∀ i < MAX_PROCESS, s.bm.bit i = false → shapes s i = none := by
    intro i hi hbit
    by_contra hne
    rw [(h.slots.bits i hi).2 hne] at hbit
    cases hbit
  -- nobody else builds, so a slot in use has its thread
  have hborn : ∀ i, shapes s i ≠ none → Established (shapes s) i := by
    intro i hi
    obtain ⟨c, hc⟩ := Option.ne_none_iff_exists'.1 hi
    rcases hu : c.thread with _ | u
    · have hown := h.unborn_holder ht ⟨c, hc, hu⟩
      rw [hb] at hown
      cases hown
    · exact ⟨c, u, hc, hu⟩
  unfold execBody
  split
  · exact execFail_inv h ht hb
  · rename_i nm
    split
    · -- the first process: the table is empty, so this is the main thread
      rename_i hnum
      rw [← h.slots.numBits] at hnum
      have hall : ∀ i, shapes s i = none := by
        intro i
        by_contra hne
        have hlt := h.slots.range i hne
        exact hne (hclear i hlt (BitMap.numClear_eq_numBits.1 hnum i (by rw [h.slots.numBits]; exact hlt)))
      refine newPcb_inv h ht hb nm (by decide) (hall 0) (.inl ⟨rfl, rfl⟩) (fun j hj => absurd hj (Nat.not_lt_zero j)) ?_
      cases hslot : s.home t with
      | none => rfl
      | some i =>
        obtain ⟨c, hc, -⟩ := h.homes.owner t i (by rw [hpc]; simp) hslot
        rw [hall i] at hc
        cases hc
    · split
      · exact execFail_inv h ht hb
      · split
        · exact execFail_inv h ht hb
        · rename_i ppid hslot
          rcases s.bm.find_spec with ⟨i, hf, hi, hbit, hfirst⟩ | ⟨hf, -⟩
          · rw [hf]
            rw [h.slots.numBits] at hi
            obtain ⟨hplt, c, hc, hct⟩ := slotOf_spec hslot
            have hbelow : ∀ j < i, Established (shapes s) j := by
              intro j hj
              exact hborn j ((h.slots.bits j (Nat.lt_trans hj hi)).1 (hfirst j hj))
            have hfree := hclear i hi hbit
            have hpi : ppid < i := by
              by_contra hge
              have hin : Established (shapes s) i := by
                rcases Nat.eq_or_lt_of_le (Nat.le_of_not_lt hge) with rfl | hlt
                · exact slotOf_established hslot
                · exact h.slots.dense i ppid hlt (by simp [shapes, hc])
              obtain ⟨x, -, hx, -⟩ := hin
              rw [hfree] at hx
              cases hx
            refine newPcb_inv h ht hb nm hi hfree (.inr ⟨ppid, rfl, hpi⟩) hbelow ?_
            cases hhm : s.home t with
            | none =>
              exact absurd hct (h.homes.unnamed t (by rw [hpc]; simp) hhm ppid (shape c) (by simp [shapes, hc]))
            | some k =>
              show ((ppid : Int) != -1) = true
              simp
          · rw [hf]
            exact execFail_inv h ht hb

/-- A slot of the table and the entry behind it. -/
theorem pcb_of_shape {i : Nat} {x : Shape} (h : shapes s i = some x) :
    ∃ c, s.pcb i = some c ∧ shape c = x := by
  obtain ⟨c, hc, hx⟩ := Option.map_eq_some_iff.1 h
  exact ⟨c, hc, hx⟩

theorem pcb_of_established {i : Nat} (h : Established (shapes s) i) :
    ∃ c u, s.pcb i = some c ∧ c.thread = some u := by
  obtain ⟨x, u, hx, hu⟩ := h
  obtain ⟨c, hc, rfl⟩ := pcb_of_shape hx
  exact ⟨c, u, hc, hu⟩

theorem execMultex_inv (h : Inv s) {t : Tid} {name : Name} {pid : Nat} {ppid : Int}
    (hpc : s.pc t = .execMultex name pid ppid) : Inv (s.execMultex t name pid ppid) := by
  have ht : inLock (s.pc t) = true := by rw [hpc]; rfl
  have hok := h.pcs t
  rw [hpc] at hok
  obtain ⟨hun, hpar⟩ := hok
  obtain ⟨x, hx, hnone⟩ := hun
  obtain ⟨c, hc, rfl⟩ := pcb_of_shape hx
  have hno : ¬ Established (shapes s) pid := Unborn.not_established ⟨_, hx, hnone⟩
  have hthread : c.thread = none := hnone
  unfold execMultex
  rw [hc]
  rcases eq_or_ne c.multex.value 0 with hz | hz
  · simp only [Semaphore.p_zero hz]
    refine h.moveSame t (.execMultex name pid ppid) (shapes_setPcb_same hc rfl) ?_ (running_of_inLock ht)
      ⟨⟨_, hx, hnone⟩, hpar⟩ (by rw [hpc]) (hpc ▸ h.homes.place t) (by rw [hpc]) rfl
    rw [← hpc, Function.update_eq_self]
    rfl
  · simp only [Semaphore.p_pos hz, hthread, Option.isSome_none, Bool.false_eq_true, if_false]
    rw [← hthread]
    generalize hs' : PState.setPc _ t (.execOpen pid ppid) = s'
    have hshapes : shapes s' = Function.update (shapes s) pid (some ⟨none, pid, ppid⟩) := by
      rw [← hs', shapes_setPc, shapes_setPcb]
      simp [shape, hthread]
    subst hs'
    refine h.buildSlot t (.execOpen pid ppid) pid _ ht rfl hshapes hno ?_ ?_ ?_ ?_
      (h.homeOk_next hpc (by rintro (_ | _) <;> simp [homeOk])) (h.keepLock ht)
    · intro j hj
      rw [hpc] at hj
      cases hj
      rfl
    · rw [hshapes]
      have hlt := h.slots.range pid (by rw [hx]; simp)
      refine h.slots.setUnborn hno ?_ rfl hlt ?_ ?_
      · intro c hc
        cases hc
        rfl
      · intro j
        rcases eq_or_ne j pid with rfl | hne
        · rw [if_pos rfl]
          exact (h.slots.bits j hlt).2 (by rw [hx]; simp)
        · rw [if_neg hne]
          rfl
      · exact fun _ j hj => h.slots.dense j pid hj (by rw [hx]; simp)
    · rw [hshapes]
      exact ⟨Function.update_self _ _ _, hpar⟩
    · intro c hc
      cases hc
      exact ⟨rfl, rfl⟩

/-- The file is open, and `new Thread` is placed at `u`. -/
theorem execOpened_some_inv (h : Inv s) {t u : Tid} {pid : Nat} {ppid : Int}
    (hpc : s.pc t = .execOpen pid ppid) (hu : s.pc u = .dead) : Inv (s.execOpened t pid ppid (some u)) := by
  have ht : inLock (s.pc t) = true := by rw [hpc]; rfl
  have hok := h.pcs t
  rw [hpc] at hok
  obtain ⟨hx, hpar⟩ := hok
  obtain ⟨c, hc, hshape⟩ := pcb_of_shape hx
  have hids : c.processId = pid ∧ c.parentId = ppid := by
    simp only [shape, Shape.mk.injEq] at hshape
    exact hshape.2
  have hno : ¬ Established (shapes s) pid := Unborn.not_established ⟨_, hx, rfl⟩
  have hne : t ≠ u := by
    rintro rfl
    rw [hpc] at hu
    cases hu
  unfold execOpened
  rw [hc]
  simp only
  generalize hs' : ({ PState.setPc (PState.setPc _ u .created) t (.execSpace pid ppid) with
    threadName := _, home := _, top := _ } : PState) = s'
  have hshapes : shapes s' = Function.update (shapes s) pid (some ⟨some u, pid, ppid⟩) := by
    rw [← hs']
    show shapes (PState.setPcb s pid _) = _
    rw [shapes_setPcb, shape, hids.1, hids.2]
  have hpcs : s'.pc = Function.update (Function.update s.pc u .created) t (.execSpace pid ppid) := by
    rw [← hs']
    rfl
  have hbm : s'.bm = s.bm ∧ s'.bmsem = s.bmsem ∧ s'.fault = s.fault ∧ s'.top = max s.top (u + 1) ∧
      s'.home = Function.update s.home u (some pid) := by
    rw [← hs']
    exact ⟨rfl, rfl, rfl, rfl, rfl⟩
  obtain ⟨hbm, hsem, hfault, htop, hhome⟩ := hbm
  refine h.build t (.execSpace pid ppid) pid _ ht (by rw [hpcs, Function.update_self]) ?_ hshapes hno ?_ ?_ ?_
    hfault ?_ ?_ ?_ ?_
  · intro v hv
    rw [hpcs, Function.update_of_ne hv]
    rcases eq_or_ne v u with rfl | hvu
    · exact .inr (Function.update_self _ _ _)
    · exact .inl (Function.update_of_ne hvu _ _)
  · intro j hj
    rw [hpc] at hj
    cases hj
    rfl
  · rw [hshapes, hbm]
    exact h.slots.setThread hx hpar u
  · intro v hv
    rw [htop] at hv
    have hvt : v ≠ t := by
      rintro rfl
      rw [h.fresh v (Nat.le_trans (Nat.le_max_left _ _) hv)] at hpc
      cases hpc
    have hvu : v ≠ u := Nat.ne_of_gt (Nat.lt_of_lt_of_le (Nat.lt_succ_self u) (Nat.le_trans (Nat.le_max_right _ _) hv))
    rw [hpcs, Function.update_of_ne hvt, Function.update_of_ne hvu]
    exact h.fresh v (Nat.le_trans (Nat.le_max_left _ _) hv)
  · rw [hshapes]
    refine ⟨u, Function.update_self _ _ _, ?_⟩
    rw [hpcs, Function.update_of_ne hne.symm, Function.update_self]
  · intro c hc hn
    cases hc
    cases hn
  · have hhomes := h.homes.create (c := ⟨some u, pid, ppid⟩) hno hu rfl
    rw [hshapes, hpcs, hhome]
    refine hhomes.move ?_ ?_
    · rw [Function.update_of_ne hne, hpc]
      simp
    · rw [Function.update_of_ne hne]
      exact h.homeOk_next hpc (by rintro (_ | _) <;> simp [homeOk])
  · rw [hsem]
    exact h.keepLock ht

theorem execOpened_inv (h : Inv s) {t : Tid} {pid : Nat} {ppid : Int} {thread : Option Tid}
    (hpc : s.pc t = .execOpen pid ppid) (hdead : ∀ u ∈ thread, s.pc u = .dead) :
    Inv (s.execOpened t pid ppid thread) := by
  cases thread with
  | some u => exact execOpened_some_inv h hpc (hdead u rfl)
  | none =>
    have hok := h.pcs t
    rw [hpc] at hok
    obtain ⟨hx, -⟩ := hok
    obtain ⟨c, hc, -⟩ := pcb_of_shape hx
    unfold execOpened
    rw [hc]
    exact h.moveSame t (.execUndo pid) (shapes_setPcb_same hc rfl) rfl (by rw [hpc]; rfl) ⟨_, hx, rfl⟩
      (by rw [hpc]; rfl) (h.homeOk_next hpc (by rintro (_ | _) <;> simp [homeOk])) (by rw [hpc]; rfl) rfl

/-- The new thread starts, and one of it and the builder goes on with the lock. -/
theorem Inv.startThread {s' : PState} (h : Inv s) {t child : Tid} {pid : Nat} {ppid : Int}
    (hpc : s.pc t = .execSpace pid ppid) (hchild : s.pc child = .created) {p q : Pc}
    (hshapes : shapes s' = shapes s)
    (hrest : (s'.bm, s'.home, s'.top, s'.fault, s'.bmsem, s'.pc) =
      (s.bm, s.home, s.top, s.fault, s.bmsem, Function.update (Function.update s.pc t p) child q))
    (hp : PcOk (shapes s) s'.pc p) (hq : PcOk (shapes s) s'.pc q)
    (hhp : homeOk (s.home t) p = true) (hhq : homeOk (s.home child) q = true)
    (hl : inLock p = !inLock q) : Inv s' := by
  simp only [Prod.mk.injEq] at hrest
  obtain ⟨hbm, hhome, htop, hfault, hsem, hpc'⟩ := hrest
  have ht : inLock (s.pc t) = true := by rw [hpc]; rfl
  have hne : t ≠ child := by
    rintro rfl
    rw [hpc] at hchild
    cases hchild
  have hself : s'.pc t = p := by rw [hpc', Function.update_of_ne hne, Function.update_self]
  have hcself : s'.pc child = q := by rw [hpc', Function.update_self]
  have hother : ∀ u, u ≠ t → u ≠ child → s'.pc u = s.pc u := by
    intro u h1 h2
    rw [hpc', Function.update_of_ne h2, Function.update_of_ne h1]
  refine ⟨?_, ?_, ?_, ?_, ?_, ?_, hfault.trans h.fault⟩
  · rw [hshapes, hbm]; exact h.slots
  · have hholder : ∀ u, inLock (s'.pc u) = true → u = if inLock p then t else child := by
      intro u hu
      by_cases h1 : u = t
      · subst h1
        rw [hself] at hu
        rw [if_pos hu]
      · by_cases h2 : u = child
        · subst h2
          rw [hcself] at hu
          rw [hl, hu]
          rfl
        · rw [hother u h1 h2, h.outside ht h1] at hu
          cases hu
    refine ⟨?_, ?_, ?_⟩
    · intro u w hu hw
      rw [hholder u hu, hholder w hw]
    · intro _ _
      rw [hsem]
      exact h.mutex.locked t ht
    · intro hnone
      have h1 := hnone t
      have h2 := hnone child
      simp only [hself, hcself] at h1 h2
      rw [h1, h2] at hl
      cases hl
  · intro u hu
    rw [htop] at hu
    have hdead := h.fresh u hu
    have h1 : u ≠ t := by
      rintro rfl
      rw [hdead] at hpc
      cases hpc
    have h2 : u ≠ child := by
      rintro rfl
      rw [hdead] at hchild
      cases hchild
    rw [hother u h1 h2]
    exact hdead
  · intro u
    rw [hshapes]
    by_cases h1 : u = t
    · rw [h1, hself]; exact hp
    · by_cases h2 : u = child
      · rw [h2, hcself]; exact hq
      · rw [hother u h1 h2]
        exact (h.pcs u).mono (h.outside ht h1) (fun i hi => hi)
  · intro i hi
    rw [hshapes] at hi
    have hb := h.unborn_holder ht hi
    rw [hpc] at hb
    cases hb
  · rw [hshapes, hpc', hhome]
    refine (h.homes.move (p := p) (by rw [hpc]; simp) hhp).move ?_ hhq
    rw [Function.update_of_ne hne.symm, hchild]
    simp

theorem execLoaded_inv (h : Inv s) {t : Tid} {pid : Nat} {ppid : Int}
    (hpc : s.pc t = .execSpace pid ppid) : Inv (s.execLoaded t pid ppid) := by
  have hok := h.pcs t
  rw [hpc] at hok
  have hplace := h.homes.place t
  rw [hpc] at hplace
  obtain ⟨child, hx, hcreated⟩ := hok
  obtain ⟨c, hc, hshape⟩ := pcb_of_shape hx
  have hthread : c.thread = some child := congrArg Shape.thread hshape
  have hest : Established (shapes s) pid := ⟨_, child, hx, rfl⟩
  have hne : child ≠ t := by
    rintro rfl
    rw [hpc] at hcreated
    cases hcreated
  -- the new thread is not the main one
  have hhome : ∀ p, homeOk (some pid) p = true → homeOk (s.home child) p = true := by
    intro p hp
    cases hhm : s.home child with
    | none => exact absurd rfl (h.homes.unnamed child (by rw [hcreated]; simp) hhm pid _ hx)
    | some i =>
      cases p <;> first | rfl | exact hp
  unfold execLoaded
  simp only [hc, hthread]
  split
  · refine h.startThread hpc hcreated rfl rfl (p := .dead) (q := .execUnlock pid) trivial hest ?_
      (hhome _ rfl) rfl
    cases s.home t <;> rfl
  · rename_i hppid
    refine h.startThread hpc hcreated rfl ?_ (p := .execUnlock pid) (q := .user) hest trivial ?_
      (hhome _ rfl) rfl
    · rw [Function.update_comm (Ne.symm hne)]
      rfl
    · cases hhm : s.home t with
      | none =>
        rw [hhm] at hplace
        exact absurd (by simpa [homeOk] using hplace) hppid
      | some i => rfl

theorem execUnlock_inv (h : Inv s) {t : Tid} {pid : Nat} (hpc : s.pc t = .execUnlock pid) :
    Inv (s.execUnlock t pid) := by
  have hok := h.pcs t
  rw [hpc] at hok
  obtain ⟨c, u, hc, -⟩ := pcb_of_established hok
  unfold execUnlock
  rw [hc]
  exact h.moveSame t (.execRelease pid) (shapes_setPcb_same hc rfl) rfl (by rw [hpc]; rfl) trivial
    (by rw [hpc]; rfl) (h.homeOk_next hpc (by rintro (_ | _) <;> simp [homeOk])) (by rw [hpc]; rfl) rfl

theorem execRelease_inv (h : Inv s) {t : Tid} {pid : Nat} (hpc : s.pc t = .execRelease pid) :
    Inv (s.execRelease t) :=
  h.move t .user rfl rfl (by rw [hpc]; rfl) trivial (by rw [hpc]; rfl)
    (h.homeOk_next hpc (by rintro (_ | _) <;> simp [homeOk])) (h.leaveLock (by rw [hpc]; rfl))

theorem execUndo_inv (h : Inv s) {t : Tid} {pid : Nat} (hpc : s.pc t = .execUndo pid) :
    Inv (s.execUndo t pid) := by
  have ht : inLock (s.pc t) = true := by rw [hpc]; rfl
  have hun := h.pcs t
  rw [hpc] at hun
  have hno := hun.not_established
  obtain ⟨x, hx, -⟩ := hun
  have hlt := h.slots.range pid (by rw [hx]; simp)
  obtain ⟨hl, -, hplace, hok⟩ := afterExec_spec (s.home t)
  have hshapes : shapes (s.execUndo t pid) = Function.update (shapes s) pid none := by
    funext j
    rcases eq_or_ne j pid with rfl | hne
    · simp [shapes, execUndo, execFail, setPcb, setPc]
    · simp [shapes, execUndo, execFail, setPcb, setPc, hne]
  refine h.buildSlot t (afterExec (s.home t)) pid none ht rfl hshapes hno ?_ ?_ (hok _ _)
    (fun _ hc => nomatch hc) hplace ?_
  · intro j hj
    rw [hpc] at hj
    cases hj
    rfl
  · rw [hshapes]
    refine h.slots.setUnborn hno (fun _ hc => nomatch hc) rfl hlt ?_ (fun h0 => absurd rfl h0)
    intro j
    exact BitMap.bit_clearBit (by rw [h.slots.numBits]; exact hlt) j
  · rw [hl]
    exact h.leaveLock ht

/-- A process that runs has a home. -/
theorem Inv.home_of_user (h : Inv s) {t : Tid} {p : Pc} (hpc : s.pc t = p) (hp : homeOk none p = false) :
    ∃ i c, s.home t = some i ∧ s.pcb i = some c ∧ c.thread = some t := by
  have hlive : s.pc t ≠ .dead := by
    intro hd
    rw [← hpc, hd] at hp
    cases hp
  cases hhm : s.home t with
  | none =>
    have hplace := h.homes.place t
    rw [hhm, hpc, hp] at hplace
    cases hplace
  | some i =>
    obtain ⟨x, hx, hxt⟩ := h.homes.owner t i hlive hhm
    obtain ⟨c, hc, rfl⟩ := pcb_of_shape hx
    exact ⟨i, c, rfl, hc, hxt⟩

theorem callJoin_inv (h : Inv s) {t : Tid} (pid : Int) (hpc : s.pc t = .user) :
    Inv (s.callJoin t pid) := by
  unfold callJoin
  split
  · exact h
  · split
    · exact h
    · rename_i which hslot
      obtain ⟨-, c, hc, -⟩ := slotOf_spec hslot
      have hest := slotOf_established hslot
      rw [hc]
      cases s.pcb pid.toNat with
      | none => exact h
      | some target =>
        simp only
        split
        · exact h
        · exact h.moveSame t (.joinP which pid.toNat) (shapes_setPcb_same hc rfl) rfl
            (by rw [hpc]; rfl) hest (by rw [hpc]; rfl)
            (h.homeOk_next hpc (by rintro (_ | _) <;> simp [homeOk])) (by rw [hpc]; rfl) rfl

theorem joinP_inv (h : Inv s) {t : Tid} {which pid : Nat} (hpc : s.pc t = .joinP which pid) :
    Inv (s.joinP t which pid) := by
  have hest := h.pcs t
  rw [hpc] at hest
  obtain ⟨c, u, hc, -⟩ := pcb_of_established hest
  have hself : Function.update s.pc t (.joinP which pid) = s.pc := by
    rw [← hpc, Function.update_eq_self]
  unfold joinP
  rw [hc]
  rcases eq_or_ne c.joinsem.value 0 with hz | hz
  · simp only [Semaphore.p_zero hz]
    refine h.moveSame t (.joinP which pid) (shapes_setPcb_same hc rfl) ?_
      (by rw [hpc]; rfl) hest (by rw [hpc]) (hpc ▸ h.homes.place t) (by rw [hpc]) rfl
    rw [hself]
    rfl
  · simp only [Semaphore.p_pos hz]
    exact h.moveSame t (.joinReturn which pid) (shapes_setPcb_same hc rfl) rfl
      (by rw [hpc]; rfl) hest (by rw [hpc]; rfl)
      (h.homeOk_next hpc (by rintro (_ | _) <;> simp [homeOk])) (by rw [hpc]; rfl) rfl

theorem joinReturn_inv (h : Inv s) {t : Tid} {which pid : Nat}
    (hpc : s.pc t = .joinReturn which pid) : Inv (s.joinReturn t which pid) := by
  have hest := h.pcs t
  rw [hpc] at hest
  obtain ⟨c, u, hc, -⟩ := pcb_of_established hest
  unfold joinReturn
  rw [hc]
  exact h.moveSame t .user rfl rfl (by rw [hpc]; rfl) trivial (by rw [hpc]; rfl)
    (h.homeOk_next hpc (by rintro (_ | _) <;> simp [homeOk])) (by rw [hpc]; rfl) rfl

/-- The parent of a slot with a thread is there, unless the slot is the root. -/
theorem Inv.parent (h : Inv s) {i : Nat} {c : PCB} {u : Tid} (hc : s.pcb i = some c)
    (hu : c.thread = some u) : (i = 0 ∧ c.parentId = -1) ∨
      (i ≠ 0 ∧ ∃ (p : Nat) (cp : PCB) (up : Tid), c.parentId = p ∧ s.pcb p = some cp ∧
        cp.thread = some up ∧ p < i) := by
  rcases (h.slots.born i (shape c) u (by simp [shapes, hc]) hu).2 with hroot | ⟨p, hp, hlt⟩
  · exact .inl hroot
  · obtain ⟨cp, up, hcp, hup⟩ := pcb_of_established (h.slots.dense p i hlt (by simp [shapes, hc]))
    exact .inr ⟨Nat.ne_of_gt (Nat.zero_lt_of_lt hlt), p, cp, up, hp, hcp, hup, hlt⟩

theorem callExit_inv (h : Inv s) {t : Tid} (ecd : Word) (hpc : s.pc t = .user) :
    Inv (s.callExit t ecd) := by
  unfold callExit
  split
  · exact h
  · rename_i which hslot
    obtain ⟨-, c, hc, ht⟩ := slotOf_spec hslot
    rw [hc]
    simp only
    rcases h.parent hc ht with ⟨-, hpar⟩ | ⟨-, p, cp, up, hpar, hcp, -, -⟩
    · rw [if_pos hpar]
      exact h.moveSame t .halting rfl rfl (by rw [hpc]; rfl) trivial (by rw [hpc]; rfl)
        (h.homeOk_next hpc (by rintro (_ | _) <;> simp [homeOk])) (by rw [hpc]; rfl) rfl
    · rw [if_neg (by rw [hpar]; omega), hpar, Int.toNat_natCast, hcp]
      exact h.moveSame t .exiting (shapes_setPcb_same hcp rfl) rfl (by rw [hpc]; rfl) trivial
        (by rw [hpc]; rfl) (h.homeOk_next hpc (by rintro (_ | _) <;> simp [homeOk])) (by rw [hpc]; rfl) rfl

/-- `bmsem->P()`. -/
theorem execP_inv (h : Inv s) {t : Tid} {name : Option Name} (hpc : s.pc t = .execP name)
    {s' : PState} (he : (match s.bmsem.p t with
      | (bmsem, false) => some { s with bmsem := bmsem }
      | (bmsem, true) => some ({ s with bmsem := bmsem }.setPc t (.execBody name))) = some s') :
    Inv s' := by
  have hself : Function.update s.pc t (.execP name) = s.pc := by
    rw [← hpc, Function.update_eq_self]
  rcases eq_or_ne s.bmsem.value 0 with hz | hz
  · rw [Semaphore.p_zero hz] at he
    cases he
    refine h.moveSame t (.execP name) rfl ?_ (by rw [hpc]; rfl) trivial (by rw [hpc])
      (hpc ▸ h.homes.place t) (by rw [hpc]) rfl
    rw [hself]
  · rw [Semaphore.p_pos hz] at he
    cases he
    exact h.move t (.execBody name) rfl rfl (by rw [hpc]; rfl) trivial (by rw [hpc]; rfl)
      (h.homeOk_next hpc (by rintro (_ | _) <;> simp [homeOk])) (h.mutex.acquire hz t)

/-- **One step keeps the table in shape.** -/
theorem step_inv {s' : PState} {e : PEvent} (h : Inv s) (he : step s e = some s') : Inv s' := by
  unfold step at he
  split at he
  · cases he
  · cases e with
    | callExec t name =>
      simp only at he
      split at he
      · rename_i hpc
        cases he
        exact h.moveSame t (.execP name) rfl rfl (by rw [hpc]; rfl) trivial (by rw [hpc]; rfl)
          (h.homeOk_next hpc (by rintro (_ | _) <;> simp [homeOk])) (by rw [hpc]; rfl) rfl
      · rename_i hpc
        cases he
        exact h.moveSame t (.execP name) rfl rfl (by rw [hpc]; rfl) trivial (by rw [hpc]; rfl)
          (h.homeOk_next hpc (by rintro (_ | _) <;> simp [homeOk])) (by rw [hpc]; rfl) rfl
      · cases he
    | callJoin t pid =>
      simp only at he
      split at he
      · cases he
        exact callJoin_inv h pid (by assumption)
      · cases he
    | callExit t ecd =>
      simp only at he
      split at he
      · cases he
        exact callExit_inv h ecd (by assumption)
      · cases he
    | opened t thread =>
      simp only at he
      split at he
      · split at he
        · cases he
          exact execOpened_inv h (by assumption) (by assumption)
        · cases he
      · cases he
    | loaded t =>
      simp only at he
      split at he
      · cases he
        exact execLoaded_inv h (by assumption)
      · cases he
    | deleted t =>
      simp only at he
      split at he
      · rename_i hpc
        cases he
        exact h.moveSame t .dead rfl rfl (by rw [hpc]; rfl) trivial (by rw [hpc]; rfl)
          (h.homeOk_next hpc (by rintro (_ | _) <;> simp [homeOk])) (by rw [hpc]; rfl) rfl
      · cases he
    | go t =>
      simp only at he
      split at he
      · split at he
        · cases he
        · exact execP_inv h (by assumption) he
      · cases he; exact execBody_inv h (by assumption)
      · split at he
        · cases he
        · cases he; exact execMultex_inv h (by assumption)
      · cases he; exact execUnlock_inv h (by assumption)
      · cases he; exact execRelease_inv h (by assumption)
      · cases he; exact execUndo_inv h (by assumption)
      · split at he
        · cases he
        · cases he; exact joinP_inv h (by assumption)
      · cases he; exact joinReturn_inv h (by assumption)
      · rename_i hpc
        cases he
        exact h.moveSame t .finished rfl rfl (by rw [hpc]; rfl) trivial (by rw [hpc]; rfl)
          (h.homeOk_next hpc (by rintro (_ | _) <;> simp [homeOk])) (by rw [hpc]; rfl) rfl
      · cases he

theorem boot_inv (h : Boot s) : Inv s := by
  have hshapes : ∀ i, shapes s i = none := by
    intro i
    rw [shapes, h.pcb]
    rfl
  have hpc : ∀ t, inLock (s.pc t) = false := by
    intro t
    rw [h.pc]
    split <;> rfl
  refine ⟨⟨h.numBits, ?_, ?_, ?_, ?_⟩, ⟨?_, ?_, ?_⟩, ?_, ?_, ?_, ⟨?_, ?_, ?_⟩, h.fault⟩
  · exact fun i hi => absurd (hshapes i) hi
  · intro i hi
    rw [h.bits i hi, hshapes]
    simp
  · intro i c u hc
    rw [hshapes] at hc
    cases hc
  · exact fun i j _ hj => absurd (hshapes j) hj
  · intro t u ht
    rw [hpc] at ht
    cases ht
  · intro t ht
    rw [hpc] at ht
    cases ht
  · intro _
    rw [h.bmsem]
  · intro t ht
    rw [h.top] at ht
    rw [h.pc, if_neg (Nat.ne_of_gt ht)]
  · intro t
    rw [h.pc]
    split <;> trivial
  · rintro i ⟨c, hc, -⟩
    rw [hshapes] at hc
    cases hc
  · intro u i _ hi
    rw [h.home] at hi
    cases hi
  · intro u _ _ i c hc
    rw [hshapes] at hc
    cases hc
  · intro u
    rw [h.home, h.pc]
    split <;> rfl

theorem reachable_inv (h : system.Reachable s) : Inv s :=
  System.Reachable.invariant (I := Inv) (fun _ hb => boot_inv hb)
    (fun _ _ _ _ hi he => step_inv hi he) h

/-! ## The tree -/

/-- Follow `parent_id` once. -/
def parentSlot (s : PState) (i : Nat) : Option Nat :=
  match s.pcb i with
  | some c => if 0 ≤ c.parentId then some c.parentId.toNat else none
  | none => none

/-- While nobody holds `bmsem`, every slot in use has its thread. -/
theorem Inv.established (h : Inv s) (hfree : s.bmsem.value ≠ 0) {i : Nat} {c : PCB}
    (hc : s.pcb i = some c) : ∃ u, c.thread = some u := by
  rcases hu : c.thread with _ | u
  · obtain ⟨t, ht⟩ := h.unborn i ⟨shape c, by simp [shapes, hc], hu⟩
    have hlock := inLock_of_building ht
    have hnot := h.mutex.free hfree t
    rw [hlock] at hnot
    cases hnot
  · exact ⟨u, rfl⟩

theorem Inv.climbs (h : Inv s) (hfree : s.bmsem.value ≠ 0) {i : Nat} (hi : s.pcb i ≠ none) :
    ∃ n, Forest.climb (parentSlot s) n i = some 0 := by
  refine Forest.climb_reaches (fun i => s.pcb i ≠ none) id ?_ hi
  intro j hj hj0
  obtain ⟨c, hc⟩ := Option.ne_none_iff_exists'.1 hj
  obtain ⟨u, hu⟩ := h.established hfree hc
  rcases h.parent hc hu with ⟨h0, -⟩ | ⟨-, p, cp, up, hp, hcp, -, hlt⟩
  · exact absurd h0 hj0
  · exact ⟨p, by simp [parentSlot, hc, hp], by rw [hcp]; simp, hlt⟩

/-- **The process table describes a tree** whenever `bmsem` is free, over every interleaving of
    `ExecUpdate`, `JoinUpdate` and `ExitUpdate`; and no step of any run follows a `NULL` entry. -/
theorem table_tree (s : PState) (h : system.Reachable s) :
    (s.bmsem.value ≠ 0 →
      (∀ i < MAX_PROCESS, s.bm.bit i = true ↔ s.pcb i ≠ none) ∧
      (∀ i c, s.pcb i = some c →
        i < MAX_PROCESS ∧ c.processId = i ∧ (c.parentId = -1 ↔ i = 0) ∧
        (i ≠ 0 → ∃ p : Nat, c.parentId = p ∧ p ≠ i ∧ s.pcb p ≠ none) ∧
        s.pcb 0 ≠ none ∧ ∃ n, Forest.climb (parentSlot s) n i = some 0)) ∧
    (∀ t which c, s.slotOf t = some which → s.pcb which = some c → c.parentId ≠ -1 →
      s.pcb c.parentId.toNat ≠ none) ∧
    (∀ t which pid, s.pc t = .joinReturn which pid → s.pcb which ≠ none) ∧
    s.fault = false := by
  have hi := reachable_inv h
  have hocc : ∀ i, shapes s i ≠ none ↔ s.pcb i ≠ none := by
    intro i
    simp [shapes]
  refine ⟨?_, ?_, ?_, hi.fault⟩
  · intro hfree
    refine ⟨?_, ?_⟩
    · intro i hlt
      rw [hi.slots.bits i hlt, hocc]
    · intro i c hc
      have hne : s.pcb i ≠ none := by rw [hc]; simp
      obtain ⟨u, hu⟩ := hi.established hfree hc
      obtain ⟨hid, -⟩ := hi.slots.born i (shape c) u (by simp [shapes, hc]) hu
      refine ⟨hi.slots.range i ((hocc i).2 hne), hid, ?_, ?_, ?_, hi.climbs hfree hne⟩
      · rcases hi.parent hc hu with ⟨h0, hp⟩ | ⟨h0, p, -, -, hp, -⟩
        · simp [h0, hp]
        · constructor
          · intro hm
            rw [hp] at hm
            omega
          · exact fun h0' => absurd h0' h0
      · intro h0
        rcases hi.parent hc hu with ⟨h0', -⟩ | ⟨-, p, cp, up, hp, hcp, hup, hlt⟩
        · exact absurd h0' h0
        · exact ⟨p, hp, Nat.ne_of_lt hlt, by rw [hcp]; simp⟩
      · rcases eq_or_ne i 0 with rfl | h0
        · exact hne
        · obtain ⟨x, -, hx, -⟩ := hi.slots.dense 0 i (Nat.pos_of_ne_zero h0) ((hocc i).2 hne)
          rw [← hocc, hx]
          simp
  · intro t which c hslot hc hne
    obtain ⟨-, c', hc', ht⟩ := slotOf_spec hslot
    rw [hc] at hc'
    cases hc'
    rcases hi.parent hc ht with ⟨-, hp⟩ | ⟨-, p, cp, -, hp, hcp, -, -⟩
    · exact absurd hp hne
    · rw [hp, Int.toNat_natCast, hcp]
      simp
  · intro t which pid hpc
    have hest := hi.pcs t
    rw [hpc] at hest
    obtain ⟨c, -, hc, -⟩ := pcb_of_established hest
    rw [hc]
    simp

/-- The kernel before `StartProcess`. -/
def boot0 : PState where
  pcb := fun _ => none
  bm := ⟨MAX_PROCESS, [0], rfl⟩
  bmsem := ⟨1, []⟩
  pc := fun t => if t = mainTid then .boot else .dead
  threadName := fun _ => []
  home := fun _ => none
  top := 1
  fault := false
  log := []

theorem boot0_boot : Boot boot0 :=
  ⟨fun _ => rfl, rfl, by decide, rfl, fun _ => rfl, fun _ => rfl, rfl, rfl, rfl⟩

/-- A whole successful `ExecUpdate` by thread `t`; the new thread is placed at `u`. -/
def execRun (t u : Tid) (name : Name) : List PEvent :=
  [.callExec t (some name), .go t, .go t, .go t, .opened t (some u), .loaded t, .go t, .go t]

/-- The first process, thread 1, is started by the main thread, which does not come back. -/
def firstRun : List PEvent :=
  [.callExec 0 (some [1]), .go 0, .go 0, .go 0, .opened 0 (some 1), .loaded 0, .go 1, .go 1]

theorem table_tree_firstRun : ∃ s, system.run boot0 (firstRun ++ execRun 1 2 [2]) = some s ∧
    s.pcb 1 ≠ none ∧ ∃ n, Forest.climb (parentSlot s) n 1 = some 0 := by
  have hrun : (system.run boot0 (firstRun ++ execRun 1 2 [2])).map
      (fun s => (s.bmsem.value, (s.pcb 1).isSome)) = some (1, true) := by
    decide +kernel
  obtain ⟨s, hs, hproj⟩ := Option.map_eq_some_iff.1 hrun
  simp only [Prod.mk.injEq] at hproj
  obtain ⟨hv, hocc⟩ := hproj
  obtain ⟨c, hc⟩ := Option.isSome_iff_exists.1 hocc
  have htree := (table_tree s (System.reachable_of_run _ boot0_boot hs)).1 (by rw [hv]; decide)
  exact ⟨s, hs, by rw [hc]; simp, (htree.2 1 c hc).2.2.2.2.2⟩

/-- The child in slot 1 exits and is deleted, and the next thread is placed where it was. -/
def reusedRun : List PEvent :=
  firstRun ++ execRun 1 2 [2] ++ [.callExit 2 5, .go 2, .deleted 2] ++ execRun 1 2 [3] ++ execRun 2 3 [4]

/-- The process of slot 2 is found in slot 1, which becomes the parent of its child. -/
example : ((system.run boot0 reusedRun).bind (fun s => s.pcb 3)).map PCB.parentId = some 1 := by
  decide +kernel

end PState

end Nachos
