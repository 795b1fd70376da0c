import Nachos.Lib.Queues
import Nachos.Threads.Scheduler

/-!
# No thread is lost or duplicated

The ready list and the semaphore queues form one family of queues (`queueOf`), and every thread
has at most one home in it.  `Placed` ties the homes to the status of the threads in every state
of the kernel, also inside the primitives; `Levels` says that every `oldLevel` on a kernel stack
is the level its thread had when it called.

* `step_placed`, `step_levels` — one step keeps them.
* `scheduler_partition` — in every reachable state in which a thread executes outside the
  primitives, threads are partitioned between the CPU, the ready list and the semaphore queues,
  and the running thread has its own interrupt level; every `SWITCH` is done with interrupts off.
-/

set_option autoImplicit false

namespace Nachos

namespace Kernel

open Queues

/-! ## Homes -/

/-- The queues a thread can be on. -/
inductive Place where
  | ready
  | sem (s : SemId)
  deriving DecidableEq, Repr

def queueOf (k : Kernel) : Place → List Tid
  | .ready => k.readyList
  | .sem s => (k.sems s).queue

/-- Homes and statuses agree.  `inc` is a thread that `FindNextToRun` has taken off the ready
    list and that is not current yet; `cpu` says whether the current thread is executing, rather
    than giving up the CPU. -/
structure Placed (k : Kernel) (inc : Option Tid) (cpu : Bool) (home : Tid → Option Place) :
    Prop where
  homed : Homed (queueOf k) home
  ready : ∀ t, k.status t = some .ready ↔ home t = some .ready ∨ inc = some t
  inc : ∀ t, inc = some t → home t = none
  blocked : ∀ t, k.status t = some .blocked ∧ k.finished t = false ↔ ∃ s, home t = some (.sem s)
  running : ∀ t, k.status t = some .running ↔ cpu = true ∧ t = k.currentThread
  fresh : ∀ t, k.nextTid ≤ t → k.status t = none ∧ k.finished t = false
  finished : ∀ t, k.finished t = true → k.status t = some .blocked ∨ k.status t = none
  victim : ∀ t, k.threadToBeDestroyed = some t → k.finished t = true

theorem queueOf_ready (k : Kernel) (l : List Tid) :
    queueOf { k with readyList := l } = Function.update (queueOf k) .ready l := by
  funext p
  cases p with
  | ready => simp [queueOf]
  | sem s => simp [queueOf]

theorem queueOf_sem (k : Kernel) (s : SemId) (sem : Semaphore) :
    queueOf { k with sems := Function.update k.sems s sem } =
      Function.update (queueOf k) (.sem s) sem.queue := by
  funext p
  cases p with
  | ready => simp [queueOf]
  | sem u =>
    rcases eq_or_ne u s with rfl | hu
    · simp [queueOf]
    · simp [queueOf, hu]

/-- What `Placed` reads of the kernel. -/
def view (k : Kernel) :=
  (queueOf k, k.status, k.finished, k.currentThread, k.nextTid, k.threadToBeDestroyed)

/-- A semaphore whose queue is as before. -/
theorem view_sem_queue {k : Kernel} {s : SemId} {sem : Semaphore}
    (h : sem.queue = (k.sems s).queue) :
    view { k with sems := Function.update k.sems s sem } = view k := by
  have hq : Function.update (queueOf k) (.sem s) sem.queue = queueOf k := by
    rw [h]
    exact Function.update_eq_self (Place.sem s) (queueOf k)
  rw [view, queueOf_sem, hq]
  rfl

variable {k : Kernel} {inc : Option Tid} {cpu : Bool} {home : Tid → Option Place}

namespace Placed

/-- Registers, levels, spaces and kernel stacks do not matter here. -/
theorem frame {k' : Kernel} (h : Placed k inc cpu home) (hv : view k' = view k) :
    Placed k' inc cpu home := by
  simp only [view, Prod.mk.injEq] at hv
  obtain ⟨hq, hs, hf, hc, hn, hd⟩ := hv
  constructor
  · rw [hq]; exact h.homed
  · rw [hs]; exact h.ready
  · exact h.inc
  · rw [hs, hf]; exact h.blocked
  · rw [hs, hc]; exact h.running
  · rw [hs, hf, hn]; exact h.fresh
  · rw [hs, hf]; exact h.finished
  · rw [hd, hf]; exact h.victim

/-- Only ready and sleeping threads have a home. -/
theorem home_none (h : Placed k inc cpu home) {t : Tid} (hr : k.status t ≠ some .ready)
    (hb : k.status t = some .blocked → k.finished t = true) : home t = none := by
  rcases hh : home t with _ | (_ | s)
  · rfl
  · exact absurd ((h.ready t).2 (.inl hh)) hr
  · have := (h.blocked t).2 ⟨s, hh⟩
    rw [hb this.1] at this
    exact absurd this.2 (by simp)

theorem current_running (h : Placed k inc true home) :
    k.status k.currentThread = some .running :=
  (h.running _).2 ⟨rfl, rfl⟩

theorem current_home (h : Placed k inc true home) : home k.currentThread = none :=
  h.home_none (by simp [h.current_running]) (by simp [h.current_running])

theorem not_finished (h : Placed k inc cpu home) {t : Tid} {st : ThreadStatus}
    (hst : k.status t = some st) (hb : st ≠ .blocked) : k.finished t = false := by
  rcases hf : k.finished t with _ | _
  · rfl
  · rcases h.finished t hf with h1 | h1 <;> rw [hst] at h1 <;> simp_all

theorem lt_next (h : Placed k inc cpu home) {t : Tid} {st : ThreadStatus}
    (hst : k.status t = some st) : t < k.nextTid := by
  by_contra hlt
  rw [(h.fresh t (Nat.le_of_not_lt hlt)).1] at hst
  cases hst

/-- One thread changes status and place.  What has to be shown is about that thread; of the
    others, that nothing they depend on has changed. -/
theorem move {k' : Kernel} {inc' : Option Tid} {cpu' : Bool} (h : Placed k inc cpu home)
    (t : Tid) (st : Option ThreadStatus) (p : Option Place)
    (hhomed : Homed (queueOf k') (Function.update home t p))
    (hstatus : k'.status = Function.update k.status t st)
    (hother : ∀ u, u ≠ t → (inc' = some u ↔ inc = some u) ∧
      (cpu' = true ∧ u = k'.currentThread ↔ cpu = true ∧ u = k.currentThread) ∧
      k'.finished u = k.finished u ∧ (k'.nextTid ≤ u → k.nextTid ≤ u))
    (hready : st = some .ready ↔ p = some .ready ∨ inc' = some t)
    (hinc : inc' = some t → p = none)
    (hblocked : st = some .blocked ∧ k'.finished t = false ↔ ∃ s, p = some (.sem s))
    (hrunning : st = some .running ↔ cpu' = true ∧ t = k'.currentThread)
    (hfresh : t < k'.nextTid)
    (hfinished : k'.finished t = true → st = some .blocked ∨ st = none)
    (hvictim : ∀ u, k'.threadToBeDestroyed = some u → k'.finished u = true) :
    Placed k' inc' cpu' (Function.update home t p) := by
  have hself : k'.status t = st := by rw [hstatus, Function.update_self]
  have hne : ∀ u, u ≠ t → k'.status u = k.status u := by
    intro u hu
    rw [hstatus, Function.update_of_ne hu]
  refine ⟨hhomed, ?_, ?_, ?_, ?_, ?_, ?_, hvictim⟩
  all_goals
    intro u
    rcases eq_or_ne u t with rfl | hu
  · rw [hself, Function.update_self]; exact hready
  · rw [hne u hu, Function.update_of_ne hu, (hother u hu).1]; exact h.ready u
  · rw [Function.update_self]; exact hinc
  · rw [Function.update_of_ne hu, (hother u hu).1]; exact h.inc u
  · rw [hself, Function.update_self]; exact hblocked
  · rw [hne u hu, Function.update_of_ne hu, (hother u hu).2.2.1]; exact h.blocked u
  · rw [hself]; exact hrunning
  · rw [hne u hu, (hother u hu).2.1]; exact h.running u
  · exact fun hle => absurd hfresh (Nat.not_lt.2 hle)
  · rw [hne u hu, (hother u hu).2.2.1]; exact fun hle => h.fresh u ((hother u hu).2.2.2 hle)
  · rw [hself]; exact hfinished
  · rw [hne u hu, (hother u hu).2.2.1]; exact h.finished u

/-- `move` for a thread that is on no queue and stays so. -/
theorem moveOff {k' : Kernel} {inc' : Option Tid} {cpu' : Bool} (h : Placed k inc cpu home)
    (t : Tid) (st : Option ThreadStatus) (ht : home t = none) (hqueues : queueOf k' = queueOf k)
    (hstatus : k'.status = Function.update k.status t st)
    (hother : ∀ u, u ≠ t → (inc' = some u ↔ inc = some u) ∧
      (cpu' = true ∧ u = k'.currentThread ↔ cpu = true ∧ u = k.currentThread) ∧
      k'.finished u = k.finished u ∧ (k'.nextTid ≤ u → k.nextTid ≤ u))
    (hready : st = some .ready ↔ inc' = some t)
    (hblocked : st = some .blocked → k'.finished t = true)
    (hrunning : st = some .running ↔ cpu' = true ∧ t = k'.currentThread)
    (hfresh : t < k'.nextTid)
    (hfinished : k'.finished t = true → st = some .blocked ∨ st = none)
    (hvictim : ∀ u, k'.threadToBeDestroyed = some u → k'.finished u = true) :
    Placed k' inc' cpu' home := by
  have hself : Function.update home t none = home := by
    rw [← ht]
    exact Function.update_eq_self t home
  rw [← hself]
  refine h.move t st none ?_ hstatus hother ?_ (fun _ => rfl) ?_ hrunning hfresh hfinished hvictim
  · rw [hself, hqueues]; exact h.homed
  · simpa using hready
  · simpa using hblocked

/-- `ReadyToRun` of a live thread that is on no queue and does not keep the CPU. -/
theorem readyToRun (h : Placed k inc cpu home) (t : Tid) (cpu' : Bool) {st : ThreadStatus}
    (ht : home t = none) (hst : k.status t = some st) (hf : k.finished t = false)
    (hinc : inc ≠ some t) (ht' : ¬ (cpu' = true ∧ t = k.currentThread))
    (hcpu : ∀ u, u ≠ t → (cpu' = true ∧ u = k.currentThread ↔ cpu = true ∧ u = k.currentThread)) :
    Placed (k.readyToRun t) inc cpu' (Function.update home t (some .ready)) := by
  refine h.move t (some .ready) (some .ready) ?_ rfl ?_ (by simp) ?_ (by simp) ?_ (h.lt_next hst)
    ?_ h.victim
  · exact queueOf_ready k (k.readyList ++ [t]) ▸ h.homed.append ht .ready
  · exact fun u hu => ⟨Iff.rfl, hcpu u hu, rfl, id⟩
  · exact fun hi => absurd hi hinc
  · simpa [Kernel.readyToRun] using ht'
  · exact fun hfin => by simp [Kernel.readyToRun, hf] at hfin

/-- `V` moves the head of the semaphore's queue, if any, to the end of the ready list. -/
theorem semV (h : Placed k inc cpu home) (s : SemId) :
    ∃ home', Placed (k.semV s) inc cpu home' ∧
      ∀ t, (k.semV s).status t ≠ none → k.status t ≠ none := by
  unfold Kernel.semV Semaphore.v
  cases hq : (k.sems s).queue with
  | nil =>
    exact ⟨home, h.frame (view_sem_queue hq.symm), fun t ht => ht⟩
  | cons t q =>
    have hhome : home t = some (.sem s) := (h.homed.mem (.sem s) t).1 (by simp [queueOf, hq])
    obtain ⟨hst, hfin⟩ := (h.blocked t).2 ⟨s, hhome⟩
    have happ := (h.homed.pop (i := .sem s) (a := t) hq).append (a := t) (by simp) .ready
    rw [Function.update_idem, ← queueOf_sem k s ⟨(k.sems s).value + 1, q⟩] at happ
    refine ⟨_, h.move t (some .ready) (some .ready) ?_ rfl ?_ (by simp) ?_ (by simp) ?_
      (h.lt_next hst) ?_ h.victim, ?_⟩
    · exact queueOf_ready _ _ ▸ happ
    · exact fun u hu => ⟨Iff.rfl, Iff.rfl, rfl, id⟩
    · intro hi
      rw [h.inc t hi] at hhome
      cases hhome
    · have hrun := h.running t
      rw [hst] at hrun
      simpa [Kernel.readyToRun] using hrun
    · exact fun hf => by simp [Kernel.readyToRun, hfin] at hf
    · intro u hu
      rcases eq_or_ne u t with rfl | hut
      · simp [hst]
      · simpa [Kernel.readyToRun, hut] using hu

/-- A due interrupt handler only calls `V`; it brings no thread back to life. -/
theorem checkIfDue (h : Placed k inc cpu home) (vs : List SemId) (y : Bool) :
    ∃ home', Placed (k.checkIfDue vs y) inc cpu home' ∧
      ∀ t, (k.checkIfDue vs y).status t ≠ none → k.status t ≠ none := by
  unfold Kernel.checkIfDue
  have h0 : Placed { k with registers := delayedLoad 0 0 k.registers,
                            yieldOnReturn := k.yieldOnReturn || y } inc cpu home :=
    h.frame rfl
  rw [show k.status = { k with registers := delayedLoad 0 0 k.registers,
                               yieldOnReturn := k.yieldOnReturn || y }.status from rfl]
  generalize { k with registers := delayedLoad 0 0 k.registers,
                      yieldOnReturn := k.yieldOnReturn || y } = k1 at h0 ⊢
  clear h
  induction vs generalizing k1 home with
  | nil => exact ⟨home, h0, fun t ht => ht⟩
  | cons s vs ih =>
    obtain ⟨home', h', hlive⟩ := h0.semV s
    obtain ⟨home'', h'', hlive'⟩ := ih (k1.semV s) h'
    exact ⟨home'', h'', fun t ht => hlive t (hlive' t ht)⟩

/-- The two with what they change: statuses of live threads, at most. -/
theorem semV_live (h : Placed k inc cpu home) (s : SemId) : ∃ sems status readyList,
    k.semV s = { k with sems := sems, status := status, readyList := readyList } ∧
    ∀ t, status t ≠ none → k.status t ≠ none := by
  obtain ⟨_, _, hlive⟩ := h.semV s
  obtain ⟨sems, status, readyList, hv⟩ := semV_frame k s
  rw [hv] at hlive
  exact ⟨sems, status, readyList, hv, hlive⟩

theorem checkIfDue_live (h : Placed k inc cpu home) (vs : List SemId) (y : Bool) : ∃ sems status readyList,
    k.checkIfDue vs y = { k with
      sems := sems, status := status, readyList := readyList
      registers := delayedLoad 0 0 k.registers, yieldOnReturn := k.yieldOnReturn || y } ∧
    ∀ t, status t ≠ none → k.status t ≠ none := by
  obtain ⟨_, _, hlive⟩ := h.checkIfDue vs y
  obtain ⟨sems, status, readyList, hk⟩ := checkIfDue_frame k vs y
  rw [hk] at hlive
  exact ⟨sems, status, readyList, hk, hlive⟩

/-- The head of the ready list is taken off. -/
theorem findNextToRun (h : Placed k none cpu home) {next : Tid} {rest : List Tid}
    (hq : k.readyList = next :: rest) :
    Placed { k with readyList := rest } (some next) cpu (Function.update home next none) := by
  have hhome : home next = some .ready := (h.homed.mem .ready next).1 (by simp [queueOf, hq])
  have hst := (h.ready next).2 (.inl hhome)
  refine h.move next (some .ready) none ?_ ?_ ?_ (by simp) (by simp) (by simp) ?_ (h.lt_next hst)
    ?_ h.victim
  · exact queueOf_ready k rest ▸ h.homed.pop (i := .ready) hq
  · rw [← hst]; exact (Function.update_eq_self next k.status).symm
  · exact fun u hu => ⟨by simp [Ne.symm hu], Iff.rfl, rfl, id⟩
  · rw [← hst]; exact h.running next
  · rw [← hst]; exact h.finished next

/-- The current thread, with `value = 0`, appends itself to the queue of a semaphore. -/
theorem block (h : Placed k none true home) (s : SemId) :
    Placed { k with
        sems := Function.update k.sems s { k.sems s with queue := (k.sems s).queue ++ [k.currentThread] }
        status := Function.update k.status k.currentThread (some .blocked) }
      none false (Function.update home k.currentThread (some (.sem s))) := by
  have hrun := h.current_running
  refine h.move k.currentThread (some .blocked) (some (.sem s)) ?_ rfl ?_ (by simp) (by simp) ?_
    (by simp) (h.lt_next hrun) (by simp) h.victim
  · exact queueOf_sem k s _ ▸ h.homed.append h.current_home (.sem s)
  · exact fun u hu => ⟨Iff.rfl, by simp [hu], rfl, id⟩
  · simp [h.not_finished hrun]

/-- `Finish`: the current thread blocks on no queue. -/
theorem finish (h : Placed k none true home) :
    Placed { k with
        threadToBeDestroyed := some k.currentThread
        finished := Function.update k.finished k.currentThread true
        status := Function.update k.status k.currentThread (some .blocked) }
      none false home := by
  refine h.moveOff k.currentThread (some .blocked) h.current_home rfl rfl ?_ (by simp) (by simp)
    (by simp) (h.lt_next h.current_running) (by simp) (by simp)
  exact fun u hu => ⟨Iff.rfl, by simp [hu], by simp [hu], id⟩

/-- `new Thread` takes a number that nobody has used. -/
theorem newThread (h : Placed k none true home) :
    Placed { k with
        nextTid := k.nextTid + 1
        status := Function.update k.status k.nextTid (some .justCreated) } none true home := by
  obtain ⟨hst, hfin⟩ := h.fresh k.nextTid (Nat.le_refl _)
  have hhome : home k.nextTid = none := h.home_none (by simp [hst]) (by simp [hst])
  have hne : k.nextTid ≠ k.currentThread := (Nat.ne_of_lt (h.lt_next h.current_running)).symm
  refine h.moveOff k.nextTid (some .justCreated) hhome rfl rfl ?_ (by simp) (by simp)
    (by simpa using hne) (Nat.lt_succ_self _) ?_ h.victim
  · exact fun u hu => ⟨Iff.rfl, Iff.rfl, rfl, fun hle => Nat.le_of_succ_le hle⟩
  · exact fun hf => by simp [hfin] at hf

/-- `delete threadToBeDestroyed`: a finished thread is on no queue. -/
theorem destroy (h : Placed k inc cpu home) {d : Tid} (hd : k.threadToBeDestroyed = some d) :
    Placed { k with status := Function.update k.status d none, threadToBeDestroyed := none }
      inc cpu home := by
  have hfin := h.victim d hd
  have hst := h.finished d hfin
  have hhome : home d = none :=
    h.home_none (by rcases hst with hst | hst <;> simp [hst]) (fun _ => hfin)
  have hlt : d < k.nextTid := by
    by_contra hle
    rw [(h.fresh d (Nat.le_of_not_lt hle)).2] at hfin
    cases hfin
  refine h.moveOff d none hhome rfl rfl ?_ ?_ (by simp) ?_ hlt (by simp) (by simp)
  · exact fun u hu => ⟨Iff.rfl, Iff.rfl, rfl, id⟩
  · have hr := h.ready d
    rw [hhome] at hr
    rcases hst with hst | hst <;> simpa [hst] using hr
  · have hr := h.running d
    rcases hst with hst | hst <;> simpa [hst] using hr

/-- `Run` makes the thread it was given current. -/
theorem dispatch {next : Tid} (h : Placed k (some next) false home) :
    Placed { k with
        currentThread := next
        status := Function.update k.status next (some .running) } none true home := by
  have hst := (h.ready next).2 (.inr rfl)
  refine h.moveOff next (some .running) (h.inc next rfl) rfl rfl ?_ (by simp) (by simp) (by simp)
    (h.lt_next hst) ?_ h.victim
  · exact fun u hu => ⟨by simp [Ne.symm hu], by simp [hu], rfl, id⟩
  · exact fun hf => by simp [h.not_finished hst] at hf

/-- `PCB::Exec` for the first process: `currentThread` is replaced and deleted. -/
theorem handOver (h : Placed k none true home) {t : Tid}
    (ht : k.status t = some .justCreated) :
    Placed { k with
        currentThread := t
        status := Function.update (Function.update k.status t (some .running)) k.currentThread none }
      none true home := by
  have hrun := h.current_running
  have hne : t ≠ k.currentThread := by
    rintro rfl
    rw [ht] at hrun
    cases hrun
  have hdel : Placed { k with status := Function.update k.status k.currentThread none }
      none false home := by
    refine h.moveOff k.currentThread none h.current_home rfl rfl ?_ (by simp) (by simp) (by simp)
      (h.lt_next hrun) (by simp) h.victim
    exact fun u hu => ⟨Iff.rfl, by simp [hu], rfl, id⟩
  rw [Function.update_comm hne]
  refine hdel.moveOff t (some .running) ?_ rfl rfl ?_ (by simp) (by simp) (by simp)
    (h.lt_next ht) ?_ h.victim
  · exact h.home_none (by simp [ht]) (by simp [ht])
  · exact fun u hu => ⟨Iff.rfl, by simp [hu], rfl, id⟩
  · exact fun hf => by simp [h.not_finished ht] at hf

theorem saveState {next : Tid} (h : Placed k (some next) false home) (after : Resume) :
    Placed (k.saveState next after) none true home := by
  unfold Kernel.saveState
  split
  · exact h.dispatch.frame rfl
  · exact h.dispatch.frame rfl

theorem restoreState (h : Placed k inc cpu home) : Placed k.restoreState inc cpu home := by
  unfold Kernel.restoreState
  cases hd : k.threadToBeDestroyed with
  | none =>
    simp only
    split
    · exact h.frame rfl
    · exact h
  | some d =>
    simp only
    split
    · exact (h.destroy hd).frame rfl
    · exact h.destroy hd

end Placed

/-! ## The step -/

/-- The thread that `FindNextToRun` has returned, before `Run` makes it current. -/
def incoming : Ctl → Option Tid
  | .atSwitch next _ => some next
  | _ => none

/-- The current thread is executing, not giving up the CPU. -/
def onCpu : Ctl → Bool
  | .outside | .inP _ _ | .setLevel _ | .inOneTick => true
  | _ => false

/-- `Placed`, with what the place of the CPU says about the two threads that are on no queue. -/
def PlacedAt (k : Kernel) : Prop := ∃ home, Placed k (incoming k.ctl) (onCpu k.ctl) home

theorem run_placed {next : Tid} (h : Placed k (some next) false home) (after : Resume) :
    PlacedAt (run k next after) := by
  have h1 := h.saveState after
  unfold run
  refine ⟨home, ?_⟩
  simp only
  split
  · exact h1.frame rfl
  all_goals exact h1.restoreState.frame rfl

theorem yield_placed (h : Placed k none true home) : PlacedAt (yield k) := by
  unfold yield
  simp only
  split
  · exact ⟨home, h.frame rfl⟩
  · rename_i next rest hq
    have hpop := h.findNextToRun hq
    have hrun := h.current_running
    have hne : next ≠ k.currentThread := by
      rintro rfl
      have := (hpop.ready k.currentThread).2 (.inr rfl)
      rw [show ({ k with readyList := rest } : Kernel).status = k.status from rfl, hrun] at this
      cases this
    have hput := hpop.readyToRun k.currentThread false
      (by rw [Function.update_of_ne (Ne.symm hne)]; exact h.current_home) hrun
      (h.not_finished hrun (by simp)) (by simpa using hne) (by simp) (fun u hu => by simp [hu])
    exact ⟨_, hput.frame rfl⟩

theorem stepOutside_placed {k' : Kernel} {e : KEvent} (h : Placed k none true home)
    (hctl : k.ctl = .outside) (hout : OutsideStep k e k') : PlacedAt k' := by
  have hcall : Placed (call k) none true home := h.frame rfl
  cases hout with
  | newThread => exact ⟨home, by rw [hctl]; exact h.newThread.frame rfl⟩
  | @fork t hst =>
    have hne : t ≠ k.currentThread := by
      rintro rfl
      rw [h.current_running] at hst
      cases hst
    have hput := hcall.readyToRun t true
      (h.home_none (by simp [hst]) (by simp [hst])) hst (h.not_finished hst (by simp)) (by simp)
      (by simpa [call] using hne) (fun u _ => Iff.rfl)
    exact ⟨_, hput.frame rfl⟩
  | yield => exact yield_placed hcall
  | p => exact ⟨home, h.frame rfl⟩
  | @v s =>
    obtain ⟨home', h', _⟩ := hcall.semV s
    exact ⟨home', h'.frame rfl⟩
  | finish => exact ⟨home, h.finish.frame rfl⟩
  | handOver hspace hst => exact ⟨home, by rw [hctl]; exact (h.handOver hst).frame rfl⟩
  | enable hon => exact ⟨home, h.frame rfl⟩
  | setLevel hoff => exact ⟨home, by rw [hctl]; exact h.frame rfl⟩
  | initFunc hspace hnew => exact ⟨home, by rw [hctl]; exact h.frame rfl⟩
  | user hstarted => exact ⟨home, by rw [hctl]; exact h.frame rfl⟩
  | userTick hon => exact ⟨home, h.frame rfl⟩

/-- **One step of the kernel loses no thread and duplicates none.** -/
theorem step_placed {k' : Kernel} {e : KEvent} (hp : PlacedAt k) (he : step k e = some k') :
    PlacedAt k' := by
  obtain ⟨home, h⟩ := hp
  cases step_cases he with
  | outside hctl hout =>
    rw [hctl] at h
    exact stepOutside_placed h hctl hout
  | @pass s oldLevel sem hctl hp =>
    rw [hctl] at h
    rcases eq_or_ne (k.sems s).value 0 with hz | hz
    · rw [Semaphore.p_zero hz] at hp
      cases hp
    · rw [Semaphore.p_pos hz] at hp
      cases hp
      exact ⟨home, h.frame (view_sem_queue rfl)⟩
  | @block s oldLevel sem hctl hp =>
    rw [hctl] at h
    rcases eq_or_ne (k.sems s).value 0 with hz | hz
    · rw [Semaphore.p_zero hz] at hp
      cases hp
      exact ⟨_, (h.block s).frame rfl⟩
    · rw [Semaphore.p_pos hz] at hp
      cases hp
  | idle hctl hq =>
    rw [hctl] at h
    exact ⟨home, h.frame rfl⟩
  | findNextToRun hctl hq =>
    rw [hctl] at h
    exact ⟨_, (h.findNextToRun hq).frame rfl⟩
  | @firstHandler after vs y hctl =>
    rw [hctl] at h
    obtain ⟨home', h', _⟩ := h.checkIfDue vs y
    exact ⟨home', h'.frame rfl⟩
  | halt hctl =>
    rw [hctl] at h
    exact ⟨home, h.frame rfl⟩
  | @handler vs y hctl =>
    obtain ⟨home', h', _⟩ := h.checkIfDue vs y
    obtain ⟨_, _, _, hk⟩ := checkIfDue_frame k vs y
    exact ⟨home', by rw [show (checkIfDue k vs y).ctl = k.ctl by rw [hk]]; exact h'⟩
  | idleDone hctl =>
    rw [hctl] at h
    exact ⟨home, h.frame rfl⟩
  | switch hctl =>
    rw [hctl] at h
    exact run_placed h _
  | enable hctl hon =>
    rw [hctl] at h
    exact ⟨home, h.frame rfl⟩
  | setLevel hctl hoff =>
    rw [hctl] at h
    exact ⟨home, h.frame rfl⟩
  | tickYield hctl hy =>
    rw [hctl] at h
    exact yield_placed (h.frame rfl)
  | tickDone hctl hy =>
    rw [hctl] at h
    exact ⟨home, h.frame rfl⟩

theorem boot_placed (h : Boot k) : PlacedAt k := by
  refine ⟨fun _ => none, ?_⟩
  rw [h.ctl]
  have hq : queueOf k = fun _ => [] := by
    funext p
    cases p with
    | ready => exact h.readyList
    | sem s => exact h.queues s
  constructor
  · rw [hq]; exact homed_empty
  · intro t; rw [h.status]; split <;> simp [incoming]
  · exact fun t _ => rfl
  · intro t; rw [h.status]; split <;> simp
  · intro t; rw [h.status]; split <;> simp_all [onCpu]
  · intro t ht
    have hne : t ≠ k.currentThread := (Nat.ne_of_lt (Nat.lt_of_lt_of_le h.current ht)).symm
    rw [h.status, if_neg hne]
    exact ⟨rfl, h.finished t⟩
  · intro t ht; simp [h.finished t] at ht
  · intro t ht; simp [h.noVictim] at ht

/-! ## Interrupt levels -/

/-- The level that a switched-out thread will restore is its own. -/
def ResumeOk (k : Kernel) (t : Tid) : Resume → Prop
  | .threadRoot => True
  | .sleepInP _ oldLevel => k.ownLevel t = oldLevel
  | .runInYield oldLevel => k.ownLevel t = oldLevel
  | .sleepInFinish => k.finished t = true

/-- The interrupt level and the level to be restored, at each place of the CPU. -/
def LevelOk (k : Kernel) : Ctl → Prop
  | .outside => k.level = k.ownLevel k.currentThread
  | .inP _ oldLevel => k.level = .intOff ∧ k.ownLevel k.currentThread = oldLevel
  | .inSleep after | .inIdle after | .inIdleLoop after | .atSwitch _ after =>
      k.level = .intOff ∧ ResumeOk k k.currentThread after
  | .setLevel oldLevel => k.ownLevel k.currentThread = oldLevel
  | .inOneTick => k.level = .intOff ∧ k.ownLevel k.currentThread = .intOn
  | .halted => True

structure Levels (k : Kernel) : Prop where
  stack : ∀ t, t ≠ k.currentThread → k.status t ≠ none → ResumeOk k t (k.resume t)
  cpu : LevelOk k k.ctl

theorem ResumeOk.congr {k' : Kernel} {t : Tid} {r : Resume} (h : ResumeOk k t r)
    (hown : k'.ownLevel t = k.ownLevel t) (hfin : k'.finished t = k.finished t) :
    ResumeOk k' t r := by
  cases r with
  | threadRoot => trivial
  | sleepInP s oldLevel => exact hown.trans h
  | runInYield oldLevel => exact hown.trans h
  | sleepInFinish => exact hfin.trans h

/-- A step of the current thread touches no other thread's stack or level. -/
theorem Levels.keep {k' : Kernel} (h : Levels k) (hcur : k'.currentThread = k.currentThread)
    (hresume : k'.resume = k.resume)
    (hother : ∀ t, t ≠ k.currentThread → k'.status t ≠ none →
      k.status t ≠ none ∧ k'.ownLevel t = k.ownLevel t ∧ k'.finished t = k.finished t)
    (hcpu : LevelOk k' k'.ctl) : Levels k' := by
  refine ⟨?_, hcpu⟩
  intro t hne hst
  rw [hcur] at hne
  obtain ⟨hlive, hown, hfin⟩ := hother t hne hst
  rw [hresume]
  exact (h.stack t hne hlive).congr hown hfin

/-- What `restoreState` can change: it deletes a thread and loads registers. -/
theorem restoreState_frame (k : Kernel) : ∃ status victim registers pageTable,
    restoreState k = { k with
      status := status, threadToBeDestroyed := victim, registers := registers, pageTable := pageTable } ∧
    ∀ t, status t ≠ none → k.status t ≠ none := by
  unfold restoreState
  cases hd : k.threadToBeDestroyed with
  | none =>
    simp only
    split
    · exact ⟨_, _, _, _, rfl, fun t ht => ht⟩
    · exact ⟨_, _, _, _, rfl, fun t ht => ht⟩
  | some d =>
    have hdel : ∀ t, Function.update k.status d none t ≠ none → k.status t ≠ none := by
      intro t ht
      rcases eq_or_ne t d with rfl | hne
      · simp at ht
      · simpa [hne] using ht
    simp only
    split
    · exact ⟨_, _, _, _, rfl, hdel⟩
    · exact ⟨_, _, _, _, rfl, hdel⟩

theorem saveState_frame (k : Kernel) (next : Tid) (after : Resume) : ∃ userRegisters,
    saveState k next after = { k with
      userRegisters := userRegisters
      resume := Function.update k.resume k.currentThread after
      currentThread := next
      status := Function.update k.status next (some .running) } := by
  unfold saveState
  split
  · exact ⟨_, rfl⟩
  · exact ⟨_, rfl⟩

theorem run_levels {next : Tid} {after : Resume} (hp : Placed k (some next) false home)
    (h : Levels k) (hctl : k.ctl = .atSwitch next after) : Levels (run k next after) := by
  have hcpu := h.cpu
  rw [hctl] at hcpu
  obtain ⟨hoff, hafter⟩ := hcpu
  -- every stack is in order, that of the thread that is leaving included
  have hstacks : ∀ t, k.status t ≠ none →
      ResumeOk k t (Function.update k.resume k.currentThread after t) := by
    intro t hst
    rcases eq_or_ne t k.currentThread with rfl | hne
    · rw [Function.update_self]; exact hafter
    · rw [Function.update_of_ne hne]; exact h.stack t hne hst
  have hready := (hp.ready next).2 (.inr rfl)
  have hnext := hstacks next (by simp [hready])
  obtain ⟨regs, hsave⟩ := saveState_frame k next after
  obtain ⟨status, victim, registers, pageTable, hrest, hlive⟩ :=
    restoreState_frame (saveState k next after)
  have hlive' : ∀ t, t ≠ next → status t ≠ none → k.status t ≠ none := by
    intro t hne hst
    simpa [hsave, hne] using hlive t hst
  unfold run
  simp only [hrest]
  split <;> rename_i hr <;> simp only [hsave] at hr ⊢ <;> rw [hr] at hnext
  · -- first dispatch
    refine ⟨?_, ?_⟩
    · intro t hne hst
      exact (hstacks t (by simpa [show t ≠ next from hne] using hst)).congr
        (Function.update_of_ne hne _ _) rfl
    · simp [LevelOk]
  · exact ⟨fun t hne hst => (hstacks t (hlive' t hne hst)).congr rfl rfl, hoff, hnext⟩
  · exact ⟨fun t hne hst => (hstacks t (hlive' t hne hst)).congr rfl rfl, hnext⟩
  · -- a finished thread is not ready
    have hfin := hp.not_finished hready (by simp)
    rw [show k.finished next = true from hnext] at hfin
    cases hfin

theorem yield_levels (h : ∀ t, t ≠ k.currentThread → k.status t ≠ none → ResumeOk k t (k.resume t))
    (hlevel : k.level = k.ownLevel k.currentThread) : Levels (yield k) := by
  unfold yield
  simp only
  split
  · exact ⟨fun t hne hst => (h t hne hst).congr rfl rfl, hlevel.symm⟩
  · refine ⟨?_, rfl, hlevel.symm⟩
    intro t hne hst
    have hne' : t ≠ k.currentThread := hne
    exact (h t hne (by simpa [readyToRun, hne'] using hst)).congr rfl rfl

theorem stepOutside_levels {k' : Kernel} {e : KEvent} (hp : Placed k none true home)
    (h : Levels k) (hctl : k.ctl = .outside) (hout : OutsideStep k e k') : Levels k' := by
  have hcpu := h.cpu
  rw [hctl] at hcpu
  cases hout with
  | newThread =>
    refine ⟨?_, by rw [hctl]; exact hcpu⟩
    intro t hne hst
    rcases eq_or_ne t k.nextTid with rfl | hnew
    · simp [ResumeOk]
    · simp only [Function.update_of_ne hnew] at hst ⊢
      exact (h.stack t hne hst).congr rfl rfl
  | @fork t hst =>
    refine h.keep rfl rfl ?_ ?_
    · intro u hu hlive
      refine ⟨?_, Function.update_of_ne hu _ _, rfl⟩
      rcases eq_or_ne u t with rfl | hut
      · simp [hst]
      · simpa [readyToRun, call, hut] using hlive
    · simp [LevelOk, readyToRun, call]
  | yield =>
    refine yield_levels ?_ ?_
    · intro t hne hst
      exact (h.stack t hne hst).congr (Function.update_of_ne hne _ _) rfl
    · simp [call]
  | p =>
    refine h.keep rfl rfl ?_ ⟨rfl, by simp [call]⟩
    exact fun t hne hst => ⟨hst, Function.update_of_ne hne _ _, rfl⟩
  | @v s =>
    have hcall : Placed (call k) none true home := hp.frame rfl
    obtain ⟨_, _, _, hv, hlive⟩ := hcall.semV_live s
    rw [hv]
    refine h.keep rfl rfl ?_ (by simp [LevelOk, call])
    exact fun t hne hst => ⟨hlive t hst, Function.update_of_ne hne _ _, rfl⟩
  | finish =>
    refine h.keep rfl rfl ?_ ⟨rfl, by simp [ResumeOk, call]⟩
    intro t hne hst
    exact ⟨by simpa [call, hne] using hst, Function.update_of_ne hne _ _,
      Function.update_of_ne hne _ _⟩
  | @handOver t sp hspace hjust =>
    refine ⟨?_, by rw [hctl]; simp [LevelOk]⟩
    intro u hne hst
    have hne' : u ≠ t := hne
    rcases eq_or_ne u k.currentThread with rfl | hu
    · simp at hst
    · exact (h.stack u hu (by simpa [hu, hne'] using hst)).congr
        (Function.update_of_ne hne _ _) rfl
  | enable hon =>
    refine h.keep rfl rfl ?_ ⟨rfl, by simp [oneTick, hon.1]⟩
    exact fun t hne hst => ⟨hst, Function.update_of_ne hne _ _, rfl⟩
  | setLevel hoff =>
    refine h.keep rfl rfl ?_ (by rw [hctl]; simp [LevelOk])
    exact fun t hne hst => ⟨hst, Function.update_of_ne hne _ _, rfl⟩
  | initFunc hspace hnew =>
    exact h.keep rfl rfl (fun t _ hst => ⟨hst, rfl, rfl⟩) (by rw [hctl]; exact hcpu)
  | user hstarted =>
    exact h.keep rfl rfl (fun t _ hst => ⟨hst, rfl, rfl⟩) (by rw [hctl]; exact hcpu)
  | userTick hon =>
    refine h.keep rfl rfl ?_ ⟨rfl, by simp [oneTick, call, hon]⟩
    exact fun t hne hst => ⟨hst, Function.update_of_ne hne _ _, rfl⟩

/-- A handler leaves levels and stacks alone. -/
theorem Levels.checkIfDue (h : Levels k) (hp : Placed k inc cpu home) (vs : List SemId) (y : Bool)
    (ctl : Ctl) (hctl : LevelOk k k.ctl → LevelOk k ctl) :
    Levels { checkIfDue k vs y with ctl := ctl } := by
  obtain ⟨_, _, _, hk, hlive⟩ := hp.checkIfDue_live vs y
  rw [hk]
  refine h.keep rfl rfl (fun t _ hst => ⟨hlive t hst, rfl, rfl⟩) ?_
  have hcpu := hctl h.cpu
  cases ctl <;> exact hcpu

/-- **One step of the kernel keeps every saved interrupt level.** -/
theorem step_levels {k' : Kernel} {e : KEvent} (hp : PlacedAt k) (h : Levels k)
    (he : step k e = some k') : Levels k' := by
  obtain ⟨home, hp⟩ := hp
  have hcpu := h.cpu
  cases step_cases he with
  | outside hctl hout =>
    rw [hctl] at hp
    exact stepOutside_levels hp h hctl hout
  | pass hctl _ =>
    rw [hctl] at hcpu
    exact h.keep rfl rfl (fun t _ hst => ⟨hst, rfl, rfl⟩) hcpu.2
  | block hctl _ =>
    rw [hctl] at hcpu
    refine h.keep rfl rfl ?_ hcpu
    exact fun t hne hst => ⟨by simpa [hne] using hst, rfl, rfl⟩
  | idle hctl hq =>
    rw [hctl] at hcpu
    exact h.keep rfl rfl (fun t _ hst => ⟨hst, rfl, rfl⟩) hcpu
  | findNextToRun hctl hq =>
    rw [hctl] at hcpu
    exact h.keep rfl rfl (fun t _ hst => ⟨hst, rfl, rfl⟩) hcpu
  | @firstHandler after vs y hctl => exact h.checkIfDue hp vs y _ (by rw [hctl]; exact id)
  | halt hctl => exact h.keep rfl rfl (fun t _ hst => ⟨hst, rfl, rfl⟩) trivial
  | @handler vs y hctl =>
    obtain ⟨_, _, _, hk⟩ := checkIfDue_frame k vs y
    have := h.checkIfDue hp vs y k.ctl id
    rwa [hk] at this ⊢
  | idleDone hctl =>
    rw [hctl] at hcpu
    exact h.keep rfl rfl (fun t _ hst => ⟨hst, rfl, rfl⟩) hcpu
  | switch hctl =>
    rw [hctl] at hp
    exact run_levels hp h hctl
  | enable hctl hon =>
    rw [hctl] at hcpu
    exact h.keep rfl rfl (fun t _ hst => ⟨hst, rfl, rfl⟩) ⟨rfl, hcpu.trans hon.1⟩
  | setLevel hctl hoff =>
    rw [hctl] at hcpu
    exact h.keep rfl rfl (fun t _ hst => ⟨hst, rfl, rfl⟩) (Eq.symm hcpu)
  | tickYield hctl hy =>
    rw [hctl] at hcpu
    exact yield_levels (fun t hne hst => (h.stack t hne hst).congr rfl rfl) hcpu.2.symm
  | tickDone hctl hy =>
    rw [hctl] at hcpu
    exact h.keep rfl rfl (fun t _ hst => ⟨hst, rfl, rfl⟩) hcpu.2.symm

theorem boot_levels (h : Boot k) : Levels k := by
  refine ⟨?_, ?_⟩
  · intro t hne hst
    rw [h.status, if_neg hne] at hst
    exact absurd rfl hst
  · rw [h.ctl, LevelOk, h.level, h.ownLevel]

/-! ## Whole runs -/

theorem reachable_inv (h : system.Reachable k) : PlacedAt k ∧ Levels k := by
  refine Transition.System.Reachable.invariant (I := fun k => PlacedAt k ∧ Levels k) ?_ ?_ h
  · exact fun k hboot => ⟨boot_placed hboot, boot_levels hboot⟩
  · exact fun k e k' _ hi he => ⟨step_placed hi.1 he, step_levels hi.1 hi.2 he⟩

/-- **No thread is lost or duplicated**, over every program and every device behaviour.
    Outside the primitives, the running thread is `currentThread` and on no queue, a ready thread
    is on the ready list once and nowhere else, and a blocked thread that has not finished is on
    one semaphore queue once and nowhere else.  The current thread has the interrupt level of its
    last call, and nobody is switched with interrupts on. -/
theorem scheduler_partition (k : Kernel) (h : system.Reachable k) :
    (k.ctl = .outside →
      (∀ t, k.status t = some .running ↔ t = k.currentThread) ∧
      (k.currentThread ∉ k.readyList ∧ ∀ s, k.currentThread ∉ (k.sems s).queue) ∧
      (∀ t, k.status t = some .ready → k.readyList.count t = 1 ∧ ∀ s, t ∉ (k.sems s).queue) ∧
      (∀ t, k.status t = some .blocked → k.finished t = false →
        t ∉ k.readyList ∧
        ∃ s, (k.sems s).queue.count t = 1 ∧ ∀ s', t ∈ (k.sems s').queue → s' = s) ∧
      k.level = k.ownLevel k.currentThread) ∧
    (∀ next after, k.ctl = .atSwitch next after → k.level = .intOff) := by
  obtain ⟨⟨home, hp⟩, hl⟩ := reachable_inv h
  have hcpu := hl.cpu
  constructor
  · intro hctl
    rw [hctl] at hp hcpu
    refine ⟨?_, ⟨?_, ?_⟩, ?_, ?_, hcpu⟩
    · intro t
      rw [hp.running t]
      simp [onCpu]
    · exact hp.homed.not_mem (i := .ready) (by simp [hp.current_home])
    · exact fun s => hp.homed.not_mem (i := .sem s) (by simp [hp.current_home])
    · intro t hst
      have hhome : home t = some .ready := by simpa [incoming] using (hp.ready t).1 hst
      exact ⟨hp.homed.count_home hhome, fun s => hp.homed.not_mem (i := .sem s) (by simp [hhome])⟩
    · intro t hst hfin
      obtain ⟨s, hhome⟩ := (hp.blocked t).1 ⟨hst, hfin⟩
      refine ⟨hp.homed.not_mem (i := .ready) (by simp [hhome]), s, hp.homed.count_home hhome, ?_⟩
      intro s' hmem
      have hhome' := (hp.homed.mem (.sem s') t).1 hmem
      rw [hhome] at hhome'
      cases hhome'
      rfl
  · intro next after hctl
    rw [hctl] at hcpu
    exact hcpu.1

/-- The kernel just after `Initialize`, with every semaphore at 0. -/
def boot0 : Kernel where
  currentThread := 0
  threadToBeDestroyed := none
  readyList := []
  sems := fun _ => ⟨0, []⟩
  level := .intOn
  yieldOnReturn := false
  nextTid := 1
  status := fun t => if t = 0 then some .running else none
  resume := fun _ => .threadRoot
  space := fun _ => none
  userRegisters := fun _ _ => 0
  registers := fun _ => 0
  pageTable := none
  ctl := .outside
  finished := fun _ => false
  started := fun _ => false
  ownLevel := fun _ => .intOn

theorem boot0_boot : Boot boot0 :=
  ⟨by decide, fun _ => rfl, rfl, rfl, fun _ => rfl, rfl, rfl, rfl, fun _ => rfl, fun _ => rfl, rfl⟩

/-- The main thread forks thread 1 and sleeps on semaphore 0; thread 1 is dispatched. -/
def forkAndSleep : List KEvent :=
  [.newThread none, .fork 1, .go, .noneDue, .p 0, .go, .go, .go, .go, .noneDue]

theorem scheduler_partition_forkAndSleep : ∃ k, system.run boot0 forkAndSleep = some k ∧
    k.ctl = .outside ∧ k.currentThread = 1 ∧ k.status 0 = some .blocked ∧
    0 ∉ k.readyList ∧ k.level = k.ownLevel 1 := by
  refine ⟨_, rfl, rfl, rfl, rfl, ?_⟩
  have hpart := (scheduler_partition _
    (Transition.System.reachable_of_run forkAndSleep boot0_boot rfl)).1 rfl
  exact ⟨(hpart.2.2.2.1 0 rfl rfl).1, hpart.2.2.2.2⟩

end Kernel

end Nachos
