import Nachos.Lib.Fifo
import Nachos.Threads.SchedulerInv

/-!
# Threads are served in the order in which they queue

The ready list and the queues of the semaphores in every run of the kernel, with its interrupts and
time slices.

* `readyList_moves`, `queue_moves` — what one step does to them.
* `first_come_first_served` — a ready thread is dispatched after those that were ready before it,
  and a sleeping one is made ready after those that went to sleep before it; nobody overtakes them.
-/

set_option autoImplicit false

namespace Nachos

namespace Kernel

open Transition Fifo

/-- The thread that `FindNextToRun` has just returned. -/
def found (k : Kernel) : List Tid :=
  match k.ctl with
  | .atSwitch next _ => [next]
  | _ => []

/-- The thread that is dispatched in a step. -/
def dispatch (k : Kernel) (e : KEvent) : List Tid := (step k e).elim [] found

/-- The semaphores that are signalled in a step. -/
def signals : KEvent → List SemId
  | .v s => [s]
  | .handler vs _ => vs
  | _ => []

/-- The threads that a step wakes from semaphore `s`. -/
def wake (s : SemId) (k : Kernel) (e : KEvent) : List Tid := (k.sems s).queue.take ((signals e).count s)

variable {k k' : Kernel} {e : KEvent}

/-! ## `V` -/

/-- `V` takes the first thread off the queue of its semaphore. -/
theorem semV_queue (k : Kernel) (s u : SemId) :
    ((semV k s).sems u).queue = (k.sems u).queue.drop ([s].count u) := by
  have hother {sem : Semaphore} (hne : u ≠ s) : Function.update k.sems s sem u = k.sems u :=
    Function.update_of_ne hne _ _
  unfold semV Semaphore.v
  rcases eq_or_ne u s with rfl | hne
  · rw [List.count_singleton_self]
    cases hq : (k.sems u).queue with
    | nil => simp only [Function.update_self, List.drop_nil]
    | cons t q => simp only [readyToRun, Function.update_self, List.drop_succ_cons, List.drop_zero]
  · rw [List.count_singleton, beq_false_of_ne (Ne.symm hne)]
    cases hq : (k.sems s).queue with
    | nil => simp only [hother hne, Bool.false_eq_true, if_false, List.drop_zero]
    | cons t q => simp only [readyToRun, hother hne, Bool.false_eq_true, if_false, List.drop_zero]

/-- The thread that it takes off joins the ready list. -/
theorem semV_readyList (k : Kernel) (s : SemId) :
    (semV k s).readyList = k.readyList ++ (k.sems s).queue.take 1 := by
  unfold semV Semaphore.v
  cases hq : (k.sems s).queue with
  | nil => simp only [List.take_nil, List.append_nil]
  | cons t q => simp only [readyToRun, List.take_succ_cons, List.take_zero]

theorem foldl_semV_queue (vs : List SemId) (k : Kernel) (u : SemId) :
    ((vs.foldl semV k).sems u).queue = (k.sems u).queue.drop (vs.count u) := by
  induction vs generalizing k with
  | nil => rfl
  | cons s vs ih =>
    rw [List.foldl_cons, ih, semV_queue, List.drop_drop, ← List.count_append, List.singleton_append]

theorem foldl_semV_readyList (vs : List SemId) (k : Kernel) : ∃ joined,
    (vs.foldl semV k).readyList = k.readyList ++ joined ∧
      ∀ u, ∀ t ∈ (k.sems u).queue.take (vs.count u), t ∈ joined := by
  induction vs generalizing k with
  | nil => exact ⟨[], (List.append_nil _).symm, fun u t ht => ht⟩
  | cons s vs ih =>
    obtain ⟨joined, hlist, hjoined⟩ := ih (semV k s)
    refine ⟨(k.sems s).queue.take 1 ++ joined, ?_, ?_⟩
    · rw [List.foldl_cons, hlist, semV_readyList, List.append_assoc]
    · intro u t ht
      rw [← List.singleton_append, List.count_append, List.take_add] at ht
      rcases List.mem_append.1 ht with ht | ht
      · rcases eq_or_ne u s with rfl | hne
        · rw [List.count_singleton_self] at ht
          exact List.mem_append_left _ ht
        · rw [List.count_singleton, beq_false_of_ne (Ne.symm hne)] at ht
          cases ht
      · refine List.mem_append_right _ (hjoined u t ?_)
        rwa [semV_queue]

/-! ## Each step -/

theorem run_frame (k : Kernel) (next : Tid) (after : Resume) :
    (run k next after).readyList = k.readyList ∧ (run k next after).sems = k.sems ∧ found (run k next after) = [] := by
  obtain ⟨userRegisters, hsave⟩ := saveState_frame k next after
  obtain ⟨status, victim, registers, pageTable, hrestore, -⟩ := restoreState_frame (saveState k next after)
  unfold run
  simp only [hrestore]
  rw [hsave]
  split
  · exact ⟨rfl, rfl, rfl⟩
  · exact ⟨rfl, rfl, rfl⟩
  · exact ⟨rfl, rfl, rfl⟩
  · exact ⟨rfl, rfl, rfl⟩

theorem yield_moves (k : Kernel) : Moves k.readyList (found (yield k)) (yield k).readyList := by
  unfold yield
  cases hq : k.readyList with
  | nil => exact .refl _
  | cons next rest => exact ⟨[k.currentThread], rfl⟩

theorem yield_sems (k : Kernel) : (yield k).sems = k.sems := by
  unfold yield
  dsimp only
  split
  · rfl
  · rfl

theorem found_of_ctl {l : Kernel} (h : ∀ next after, l.ctl ≠ .atSwitch next after) : found l = [] := by
  unfold found
  split
  · rename_i next after hctl
    exact absurd hctl (h next after)
  · rfl

theorem OutsideStep.readyList_moves (h : OutsideStep k e k') (hctl : k.ctl = .outside) :
    Moves k.readyList (found k') k'.readyList := by
  have hstay {l : Kernel} (hl : l.ctl = k.ctl) : Moves k.readyList (found l) k.readyList := by
    rw [found_of_ctl]
    · exact .refl _
    · rw [hl, hctl]
      intro next after h
      cases h
  cases h with
  | newThread => exact hstay rfl
  | fork hst => exact .join _ _
  | yield => exact yield_moves (call k)
  | p => exact .refl _
  | v =>
    rename_i s
    change Moves k.readyList [] (semV (call k) s).readyList
    rw [semV_readyList]
    exact .join _ _
  | finish => exact .refl _
  | handOver hspace hst => exact hstay rfl
  | enable hon => exact .refl _
  | setLevel hoff => exact hstay rfl
  | initFunc hspace hnew => exact hstay rfl
  | user hstarted => exact hstay rfl
  | userTick hon => exact .refl _

theorem checkIfDue_ctl (k : Kernel) (vs : List SemId) (y : Bool) : (checkIfDue k vs y).ctl = k.ctl := by
  obtain ⟨sems, status, readyList, hdue⟩ := checkIfDue_frame k vs y
  rw [hdue]

theorem checkIfDue_moves (k : Kernel) (vs : List SemId) (y : Bool) :
    Moves k.readyList [] (checkIfDue k vs y).readyList := by
  obtain ⟨joined, hlist, -⟩ := foldl_semV_readyList vs
    { k with registers := delayedLoad 0 0 k.registers, yieldOnReturn := k.yieldOnReturn || y }
  rw [checkIfDue, hlist]
  exact .join _ _

/-- **The ready list**: who is dispatched is at its front. -/
theorem readyList_moves (he : step k e = some k') : Moves k.readyList (dispatch k e) k'.readyList := by
  rw [dispatch, he]
  change Moves k.readyList (found k') k'.readyList
  cases step_cases he with
  | outside hctl hout => exact hout.readyList_moves hctl
  | pass hctl hp => exact .refl _
  | block hctl hp => exact .refl _
  | idle hctl hq => exact .refl _
  | findNextToRun hctl hq =>
    rw [hq]
    exact .leave 1 _
  | firstHandler hctl => exact checkIfDue_moves k _ _
  | halt hctl => exact .refl _
  | handler hctl =>
    rename_i vs y
    rw [found_of_ctl]
    · exact checkIfDue_moves k vs y
    · rw [checkIfDue_ctl]
      rcases hctl with hctl | ⟨after, hctl⟩
      · rw [hctl]
        intro next after h
        cases h
      · rw [hctl]
        intro next after h
        cases h
  | idleDone hctl => exact .refl _
  | switch hctl =>
    rename_i next after
    obtain ⟨hlist, -, hfound⟩ := run_frame k next after
    rw [hlist, hfound]
    exact .refl _
  | enable hctl hon => exact .refl _
  | setLevel hctl hoff => exact .refl _
  | tickYield hctl hy => exact yield_moves { k with level := .intOn, yieldOnReturn := false }
  | tickDone hctl hy => exact .refl _

/-- `P` of a semaphore that is 0 joins the queue. -/
theorem p_moves {sem sem' : Semaphore} {t : Tid} {b : Bool} (hp : sem.p t = (sem', b)) :
    Moves sem.queue [] sem'.queue := by
  rcases eq_or_ne sem.value 0 with hz | hz
  · rw [Semaphore.p_zero hz] at hp
    cases hp
    exact .join _ _
  · rw [Semaphore.p_pos hz] at hp
    cases hp
    exact .refl _

theorem update_moves {s u : SemId} {sem : Semaphore} (h : Moves (k.sems s).queue [] sem.queue) :
    Moves (k.sems u).queue [] (Function.update k.sems s sem u).queue := by
  rcases eq_or_ne u s with rfl | hne
  · rw [Function.update_self]
    exact h
  · rw [Function.update_of_ne hne]
    exact .refl _

theorem checkIfDue_queue (k : Kernel) (vs : List SemId) (y : Bool) (u : SemId) :
    Moves (k.sems u).queue (wake u k (.handler vs y)) ((checkIfDue k vs y).sems u).queue := by
  rw [checkIfDue, foldl_semV_queue]
  exact .leave _ _

/-- **The queue of a semaphore**: who is woken is at its front. -/
theorem queue_moves (he : step k e = some k') (u : SemId) :
    Moves (k.sems u).queue (wake u k e) (k'.sems u).queue := by
  cases step_cases he with
  | outside hctl hout =>
    cases hout with
    | v =>
      rename_i s
      change Moves (k.sems u).queue (wake u k (.v s)) ((semV (call k) s).sems u).queue
      rw [semV_queue]
      exact .leave _ _
    | yield =>
      rw [yield_sems]
      exact .refl _
    | _ => exact .refl _
  | pass hctl hp => exact update_moves (p_moves hp)
  | block hctl hp => exact update_moves (p_moves hp)
  | firstHandler hctl => exact checkIfDue_queue k _ _ u
  | handler hctl => exact checkIfDue_queue k _ _ u
  | switch hctl =>
    rename_i next after
    rw [(run_frame k next after).2.1]
    exact .refl _
  | tickYield hctl hy =>
    rw [yield_sems]
    exact .refl _
  | _ => exact .refl _

/-- Who is woken is on the ready list after the step. -/
theorem wake_ready (he : step k e = some k') {u : SemId} {t : Tid} (ht : t ∈ wake u k e) : t ∈ k'.readyList := by
  have hdue (vs : List SemId) (y : Bool) (h : t ∈ wake u k (.handler vs y)) : t ∈ (checkIfDue k vs y).readyList := by
    obtain ⟨joined, hlist, hjoined⟩ := foldl_semV_readyList vs
      { k with registers := delayedLoad 0 0 k.registers, yieldOnReturn := k.yieldOnReturn || y }
    rw [checkIfDue, hlist]
    exact List.mem_append_right _ (hjoined u t h)
  cases step_cases he with
  | outside hctl hout =>
    cases hout with
    | v =>
      rename_i s
      obtain ⟨joined, hlist, hjoined⟩ := foldl_semV_readyList [s] (call k)
      change t ∈ (semV (call k) s).readyList
      rw [show semV (call k) s = [s].foldl semV (call k) from rfl, hlist]
      exact List.mem_append_right _ (hjoined u t ht)
    | _ => cases ht
  | firstHandler hctl => exact hdue _ _ ht
  | handler hctl => exact hdue _ _ ht
  | _ => cases ht

/-! ## Runs -/

/-- The threads that are dispatched during a run. -/
def dispatched (k : Kernel) (es : List KEvent) : List Tid := outs system dispatch k es

/-- The threads that are woken from semaphore `s` during a run. -/
def woken (s : SemId) (k : Kernel) (es : List KEvent) : List Tid := outs system (wake s) k es

/-- **First come, first served.**  The thread at place `i` of the ready list waits for `i` others and is dispatched
next, and the thread at place `i` of a semaphore's queue is woken after `i` others, and is ready then. -/
theorem first_come_first_served {es : List KEvent} (h : system.run k es = some k') :
    (∀ i t, k.readyList[i]? = some t →
      (i < (dispatched k es).length → (dispatched k es)[i]? = some t) ∧
      ((dispatched k es).length ≤ i → k'.readyList[i - (dispatched k es).length]? = some t)) ∧
    ∀ s i t, (k.sems s).queue[i]? = some t →
      (i < (woken s k es).length → (woken s k es)[i]? = some t ∧
        ∃ n k₁, system.run k (es.take n) = some k₁ ∧ t ∈ k₁.readyList) ∧
      ((woken s k es).length ≤ i → (k'.sems s).queue[i - (woken s k es).length]? = some t) := by
  have hready : Moves k.readyList (dispatched k es) k'.readyList :=
    run_moves (S := system) (fun _ _ _ he => readyList_moves he) h
  refine ⟨fun i t hi => ⟨hready.leaves hi, hready.waits hi⟩, ?_⟩
  intro s i t hi
  have hqueue : Moves (k.sems s).queue (woken s k es) (k'.sems s).queue :=
    run_moves (S := system) (q := fun k => (k.sems s).queue) (fun _ _ _ he => queue_moves he s) h
  refine ⟨?_, hqueue.waits hi⟩
  intro hlt
  have hout := hqueue.leaves hi hlt
  obtain ⟨n, u, e, u', -, he, hrun, hmem⟩ := exists_of_mem_outs (S := system) h (List.mem_of_getElem? hout)
  exact ⟨hout, n + 1, u', hrun, wake_ready he hmem⟩

/-- The main thread forks threads 1 and 2. -/
def forkTwo : List KEvent :=
  [.newThread none, .newThread none, .fork 1, .go, .noneDue, .fork 2, .go, .noneDue]

/-- The main thread gives up the CPU, then thread 1 does. -/
def yieldTwice : List KEvent := [.yield, .go, .go, .noneDue, .yield, .go]

theorem first_come_first_served_yieldTwice : ∃ k k', system.run boot0 forkTwo = some k ∧
    system.run k yieldTwice = some k' ∧ k.readyList = [1, 2] ∧ (dispatched k yieldTwice)[1]? = some 2 ∧
    k'.currentThread = 2 := by
  refine ⟨_, _, rfl, rfl, rfl, ?_, rfl⟩
  exact ((first_come_first_served rfl).1 1 2 rfl).1 (by decide)

end Kernel

end Nachos
