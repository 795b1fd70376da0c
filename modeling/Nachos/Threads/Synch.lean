import Mathlib.Data.Set.Card
import Nachos.Lib.Transition
import Nachos.Machine.Machine

/-!
# Semaphores

`Semaphore::P` and `Semaphore::V` of `threads/synch.cc`.  Both run with interrupts off, so the
unit of interleaving is one evaluation of the loop test of `P` (`Semaphore.p`) and one whole
`V` (`Semaphore.v`).  `value` is a 32-bit `int`; `queue` is the FIFO `List` of sleeping threads.

`Synch` is the system of any number of threads that call `P` and `V` on one semaphore.  A
thread taken off the queue by `V` (phase `woken`) tests `value` again whenever the scheduler
resumes it, in any order and after any number of other calls.

Principal results: `Synch.step_inv` (one step keeps the accounting and the wake-up bound) and
`Synch.accounting` (every reachable state).
-/

set_option autoImplicit false

namespace Nachos

/-- A `Thread *`: the number of its allocation. -/
abbrev Tid := Nat

/-- `class Semaphore`, without its debugging name. -/
structure Semaphore where
  value : Word
  queue : List Tid
  deriving DecidableEq, Repr

namespace Semaphore

/-- One turn of the loop of `Semaphore::P` by thread `t`: `true` if `P` completes, `false` if
    `t` has appended itself to the queue and goes to sleep. -/
def p (s : Semaphore) (t : Tid) : Semaphore × Bool :=
  if s.value = 0 then ({ s with queue := s.queue ++ [t] }, false)
  else ({ s with value := s.value - 1 }, true)

/-- `Semaphore::V`, with the thread it hands to `Scheduler::ReadyToRun`, if any. -/
def v (s : Semaphore) : Semaphore × Option Tid :=
  match s.queue with
  | [] => ({ s with value := s.value + 1 }, none)
  | t :: q => ({ value := s.value + 1, queue := q }, some t)

theorem p_zero {s : Semaphore} (h : s.value = 0) (t : Tid) :
    s.p t = ({ s with queue := s.queue ++ [t] }, false) := by
  rw [p, if_pos h]

theorem p_pos {s : Semaphore} (h : s.value ≠ 0) (t : Tid) :
    s.p t = ({ s with value := s.value - 1 }, true) := by
  rw [p, if_neg h]

theorem v_value (s : Semaphore) : s.v.1.value = s.value + 1 := by
  unfold v
  split <;> rfl

end Semaphore

/-- Decrementing a positive `int`. -/
theorem toInt_sub_one {x : Word} (h : 0 < x.toInt) : (x - 1).toInt = x.toInt - 1 := by
  have h1 := BitVec.two_mul_toInt_lt (x := x)
  rw [BitVec.toInt_sub, show (1 : Word).toInt = 1 from rfl]
  exact Int.bmod_eq_of_le (by omega) (by omega)

/-- Incrementing an `int` that stays below `2 ^ 31`. -/
theorem toInt_add_one {x : Word} (h0 : 0 ≤ x.toInt) (h : x.toInt + 1 < 2 ^ 31) :
    (x + 1).toInt = x.toInt + 1 := by
  rw [BitVec.toInt_add, show (1 : Word).toInt = 1 from rfl]
  exact Int.bmod_eq_of_le (by omega) (by omega)

theorem toInt_eq_zero {x : Word} : x.toInt = 0 ↔ x = 0 :=
  ⟨fun h => BitVec.eq_of_toInt_eq (by simpa using h), fun h => by simp [h]⟩

/-! ## A semaphore used as a lock -/

/-- A semaphore that starts at 1 and whose `P` and `V` bracket a critical section; `holds` are
    the threads inside. -/
structure Mutex (holds : Tid → Bool) (value : Word) : Prop where
  excl : ∀ t u, holds t = true → holds u = true → t = u
  locked : ∀ t, holds t = true → value = 0
  unlocked : (∀ t, holds t = false) → value = 1

namespace Mutex

variable {holds : Tid → Bool} {value : Word}

theorem free (h : Mutex holds value) (hv : value ≠ 0) (t : Tid) : holds t = false := by
  rcases hh : holds t with _ | _
  · rfl
  · exact absurd (h.locked t hh) hv

theorem acquire (h : Mutex holds value) (hv : value ≠ 0) (t : Tid) :
    Mutex (Function.update holds t true) (value - 1) := by
  have hfree := h.free hv
  have hone := h.unlocked hfree
  have hself : ∀ u, Function.update holds t true u = true → u = t := by
    intro u hu
    rcases eq_or_ne u t with rfl | hne
    · rfl
    · rw [Function.update_of_ne hne, hfree] at hu
      cases hu
  refine ⟨?_, ?_, ?_⟩
  · intro u w hu hw
    rw [hself u hu, hself w hw]
  · intro _ _
    rw [hone]
    rfl
  · intro hnone
    have := hnone t
    rw [Function.update_self] at this
    cases this

theorem release (h : Mutex holds value) {t : Tid} (ht : holds t = true) :
    Mutex (Function.update holds t false) (value + 1) := by
  have hnone : ∀ u, Function.update holds t false u = false := by
    intro u
    rcases eq_or_ne u t with rfl | hne
    · rw [Function.update_self]
    · rw [Function.update_of_ne hne]
      rcases hu : holds u with _ | _
      · rfl
      · exact absurd (h.excl u t hu ht) hne
  refine ⟨?_, ?_, ?_⟩
  · intro u w hu
    rw [hnone u] at hu
    cases hu
  · intro u hu
    rw [hnone u] at hu
    cases hu
  · intro _
    rw [h.locked t ht]
    rfl

end Mutex

/-! ## Any number of threads on one semaphore -/

namespace Synch

/-- Where a thread is with respect to the semaphore. -/
inductive Phase where
  | outside
  /-- in `Thread::Sleep`, called from the loop of `P` -/
  | asleep
  /-- handed to the scheduler by `V`, has not tested `value` again yet -/
  | woken
  deriving DecidableEq, Repr

/-- The semaphore, the phase of every thread, and the number of completed calls. -/
structure State where
  sem : Semaphore
  phase : Tid → Phase
  pDone : Nat
  vDone : Nat

inductive Event where
  /-- a thread calls `P` -/
  | p (t : Tid)
  /-- the scheduler resumes a woken thread inside `P` -/
  | resume (t : Tid)
  /-- a thread or an interrupt handler calls `V` -/
  | v
  deriving DecidableEq, Repr

/-- Thread `t` evaluates the loop test of `P`. -/
def turn (s : State) (t : Tid) : State :=
  match s.sem.p t with
  | (sem, true) =>
      { s with sem := sem, phase := Function.update s.phase t .outside, pDone := s.pDone + 1 }
  | (sem, false) => { s with sem := sem, phase := Function.update s.phase t .asleep }

def step (s : State) : Event → Option State
  | .p t => if s.phase t = .outside then some (turn s t) else none
  | .resume t => if s.phase t = .woken then some (turn s t) else none
  | .v =>
    match s.sem.v with
    | (sem, none) => some { s with sem := sem, vDone := s.vDone + 1 }
    | (sem, some t) =>
        some { s with sem := sem, phase := Function.update s.phase t .woken, vDone := s.vDone + 1 }

/-- `Semaphore::Semaphore(name, v0)` with nobody in a call. -/
def start (v0 : Word) : State := ⟨⟨v0, []⟩, fun _ => .outside, 0, 0⟩

def system (v0 : Word) : Transition.System State Event where
  init := fun s => s = start v0
  step := step

/-- The accounting invariant.  `woken` is the bound behind "no lost wake-up": while somebody is
    queued, every unit of `value` is matched by a woken thread that has yet to test it. -/
structure Inv (v0 : Word) (s : State) : Prop where
  balance : s.sem.value.toInt = v0.toInt + s.vDone - s.pDone
  nonneg : 0 ≤ s.sem.value.toInt
  nodup : s.sem.queue.Nodup
  asleep : ∀ t, t ∈ s.sem.queue ↔ s.phase t = .asleep
  woken : ∃ W : Finset Tid, (∀ t, t ∈ W ↔ s.phase t = .woken) ∧
    (s.sem.queue ≠ [] → s.sem.value.toInt ≤ W.card)

theorem start_inv {v0 : Word} (h : 0 ≤ v0.toInt) : Inv v0 (start v0) :=
  ⟨by simp [start], h, by simp [start], by simp [start], ∅, by simp [start], by simp [start]⟩

/-- A thread that finds `value = 0` queues itself; the bound is then trivial. -/
theorem turn_zero_inv {v0 : Word} {s : State} {t : Tid} (hi : Inv v0 s)
    (hph : s.phase t ≠ .asleep) (hz : s.sem.value = 0) : Inv v0 (turn s t) := by
  obtain ⟨hb, hn, hd, ha, W, hW, _⟩ := hi
  have ht : t ∉ s.sem.queue := fun h => hph ((ha t).1 h)
  rw [turn, Semaphore.p_zero hz]
  refine ⟨hb, hn, ?_, ?_, W.erase t, ?_, ?_⟩
  · exact List.nodup_append.2 ⟨hd, by simp, by simpa using fun x hx (he : x = t) => ht (he ▸ hx)⟩
  · intro u
    by_cases hu : u = t
    · simp [hu]
    · simp [hu, ha]
  · intro u
    by_cases hu : u = t
    · simp [hu]
    · simp [hu, hW]
  · intro _
    have : s.sem.value.toInt = 0 := toInt_eq_zero.2 hz
    simp only [this]
    omega

/-- A thread that finds `value > 0` takes a unit.  If it was woken it also leaves the set of
    pending threads, so the bound moves with it; a newcomer only makes `value` smaller. -/
theorem turn_pos_inv {v0 : Word} {s : State} {t : Tid} (hi : Inv v0 s)
    (hph : s.phase t ≠ .asleep) (hz : s.sem.value ≠ 0) : Inv v0 (turn s t) := by
  obtain ⟨hb, hn, hd, ha, W, hW, hle⟩ := hi
  have hpos : 0 < s.sem.value.toInt := by
    have := mt toInt_eq_zero.1 hz
    omega
  have hval := toInt_sub_one hpos
  rw [turn, Semaphore.p_pos hz]
  refine ⟨?_, ?_, hd, ?_, W.erase t, ?_, ?_⟩
  · simp only [hval]; push_cast; omega
  · simp only [hval]; omega
  · intro u
    by_cases hu : u = t
    · subst hu; simp [ha, hph]
    · simp [hu, ha]
  · intro u
    by_cases hu : u = t
    · simp [hu]
    · simp [hu, hW]
  · intro hq
    have h1 := hle hq
    have h2 : W.card - 1 ≤ (W.erase t).card := Finset.pred_card_le_card_erase
    simp only [hval]
    omega

theorem turn_inv {v0 : Word} {s : State} {t : Tid} (hi : Inv v0 s) (hph : s.phase t ≠ .asleep) :
    Inv v0 (turn s t) := by
  by_cases hz : s.sem.value = 0
  · exact turn_zero_inv hi hph hz
  · exact turn_pos_inv hi hph hz

/-- **One step keeps the accounting**, as long as the number of units stays below `2 ^ 31`. -/
theorem step_inv {v0 : Word} {s s' : State} {e : Event} (hi : Inv v0 s) (he : step s e = some s')
    (hlt : v0.toInt + s'.vDone < 2 ^ 31) : Inv v0 s' := by
  cases e with
  | p t =>
    simp only [step] at he
    split at he
    · rename_i hp
      cases he
      exact turn_inv hi (by simp [hp])
    · cases he
  | resume t =>
    simp only [step] at he
    split at he
    · rename_i hp
      cases he
      exact turn_inv hi (by simp [hp])
    · cases he
  | v =>
    obtain ⟨hb, hn, hd, ha, W, hW, hle⟩ := hi
    simp only [step, Semaphore.v] at he
    cases hq : s.sem.queue with
    | nil =>
      rw [hq] at he
      cases he
      have hval := toInt_add_one hn (by simp only at hlt; push_cast at hlt; omega)
      rw [hq] at ha
      exact ⟨by simp only [hval]; push_cast; omega, by simp only [hval]; omega, by simp, ha, W, hW,
        fun h => absurd rfl h⟩
    | cons t q =>
      rw [hq] at he
      cases he
      have hval := toInt_add_one hn (by simp only at hlt; push_cast at hlt; omega)
      rw [hq] at hd ha hle
      obtain ⟨htq, hdq⟩ := List.nodup_cons.1 hd
      have htW : t ∉ W := by
        rw [hW, (ha t).1 List.mem_cons_self]
        simp
      refine ⟨by simp only [hval]; push_cast; omega, by simp only [hval]; omega, hdq, ?_,
        insert t W, ?_, ?_⟩
      · intro u
        by_cases hu : u = t
        · subst hu; simp [htq]
        · simp [hu, ← ha]
      · intro u
        by_cases hu : u = t
        · simp [hu]
        · simp [hu, hW]
      · intro _
        have h1 := hle (by simp)
        rw [Finset.card_insert_of_notMem htW]
        simp only [hval]
        push_cast
        omega

theorem vDone_le_step {s s' : State} {e : Event} (he : step s e = some s') :
    s.vDone ≤ s'.vDone := by
  have hturn : ∀ t, (turn s t).vDone = s.vDone := by
    intro t
    unfold turn
    split <;> rfl
  cases e <;> simp only [step] at he <;> split at he <;> cases he
  case p.isTrue t _ => rw [hturn]
  case resume.isTrue t _ => rw [hturn]
  all_goals exact Nat.le_succ _

theorem reachable_inv {v0 : Word} (h0 : 0 ≤ v0.toInt) {s : State}
    (h : (system v0).Reachable s) : v0.toInt + s.vDone < 2 ^ 31 → Inv v0 s := by
  refine Transition.System.Reachable.invariant (I := fun s => v0.toInt + s.vDone < 2 ^ 31 → Inv v0 s)
    ?_ ?_ h
  · rintro s rfl _
    exact start_inv h0
  · intro s e s' _ hi he hlt
    have := vDone_le_step he
    exact step_inv (hi (by omega)) he hlt

/-- **Semaphore accounting and no lost wake-up**, over every interleaving of `P`, `V` and
    resumptions by any number of threads. -/
theorem accounting (v0 : Word) (h0 : 0 ≤ v0.toInt) {s : State} (h : (system v0).Reachable s)
    (hlt : v0.toInt + s.vDone < 2 ^ 31) :
    0 ≤ s.sem.value.toInt ∧
    s.sem.value.toInt = v0.toInt + s.vDone - s.pDone ∧
    (∀ t, s.phase t = .asleep → s.sem.queue.count t = 1) ∧
    (s.sem.queue ≠ [] → s.sem.value.toInt ≤ Set.ncard {t | s.phase t = .woken}) ∧
    ((∀ t, s.phase t ≠ .woken) → s.sem.queue ≠ [] → s.sem.value = 0) := by
  obtain ⟨hb, hn, hd, ha, W, hW, hle⟩ := reachable_inv h0 h hlt
  have hset : {t | s.phase t = .woken} = (W : Set Tid) := by
    ext t
    simp [hW]
  refine ⟨hn, hb, ?_, ?_, ?_⟩
  · intro t ht
    exact List.count_eq_one_of_mem hd ((ha t).2 ht)
  · intro hq
    rw [hset, Set.ncard_coe_finset]
    exact hle hq
  · intro hno hq
    have hempty : W = ∅ := Finset.eq_empty_of_forall_notMem fun t ht => hno t ((hW t).1 ht)
    have h1 := hle hq
    simp only [hempty, Finset.card_empty] at h1
    exact toInt_eq_zero.1 (by omega)

/-- Thread 1 sleeps, is woken by `V`, and loses the unit to thread 2 before it is resumed. -/
def stealRun : List Event := [.p 1, .v, .p 2, .resume 1]

theorem accounting_stealRun : ∃ s, (system 0).run (start 0) stealRun = some s ∧
    s.phase 1 = .asleep ∧ s.sem.queue.count 1 = 1 ∧ s.sem.value = 0 := by
  refine ⟨_, rfl, rfl, ?_, ?_⟩
  · exact (accounting 0 (by decide) (Transition.System.reachable_of_run stealRun rfl rfl)
      (by decide)).2.2.1 1 rfl
  · exact rfl

end Synch

end Nachos
