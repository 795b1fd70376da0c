import Nachos.Lib.SortedList
import Nachos.Lib.Transition
import Nachos.Machine.Machine

/-!
# The interrupt simulator

`machine/interrupt.cc` with `List::SortedInsert` and `SortedRemove` of `threads/list.cc` and the
tick counters of `machine/stats.h`.  An `int` counter is an integer: the tick counts are taken to
stay below 2^31.

A handler is a function of the state of the kernel and of the time; what it can do to the
simulator is to call `Schedule` and `YieldOnReturn`.  The loop `while (CheckIfDue(FALSE))` takes
fuel, `none` is a failed `ASSERT` or no fuel.  `serial`, `scheduled` and `fired` are history
variables: they number the calls of `Schedule` and list the interrupts whose handler was called.

* `checkIfDue_spec` — one call of `CheckIfDue(FALSE)`.
* `checkAll_spec` — the loop ends, and what it leaves.
* `ticks_on_time` — every reachable state.
-/

set_option autoImplicit false

namespace Nachos

open Transition

inductive MachineStatus where
  | idleMode
  | systemMode
  | userMode
  deriving DecidableEq, Repr

inductive IntType where
  | timerInt
  | diskInt
  | consoleWriteInt
  | consoleReadInt
  | networkSendInt
  | networkRecvInt
  deriving DecidableEq, Repr

def UserTick : Int := 1
def SystemTick : Int := 10

structure Statistics where
  totalTicks : Int
  idleTicks : Int
  systemTicks : Int
  userTicks : Int
  deriving DecidableEq, Repr

/-! ## Sorted lists -/

structure ListElement (α : Type) where
  item : α
  key : Int
  deriving DecidableEq, Repr

/-- `List::SortedInsert`. -/
def sortedInsert {α : Type} (l : List (ListElement α)) (item : α) (sortKey : Int) : List (ListElement α) :=
  SortedList.insert ListElement.key ⟨item, sortKey⟩ l

/-- `List::SortedRemove`, with the key. -/
def sortedRemove {α : Type} : List (ListElement α) → Option (α × Int × List (ListElement α))
  | [] => none
  | first :: rest => some (first.item, first.key, rest)

/-! ## The simulator -/

/-- A pending interrupt; `η` are the functions that `handler` can point to. -/
structure PendingInterrupt (η : Type) where
  handler : η
  arg : Int
  when : Int
  type : IntType
  serial : Nat
  deriving DecidableEq, Repr

/-- The arguments of `Schedule`. -/
structure Request (η : Type) where
  handler : η
  arg : Int
  fromNow : Int
  type : IntType
  deriving DecidableEq, Repr

/-- What the handlers do, given their argument, the time and the state of the kernel: the kernel
afterwards, the calls of `Schedule`, and whether `YieldOnReturn` was called. -/
structure Handlers (η κ : Type) where
  call : η → Int → Int → κ → κ × List (Request η) × Bool
  fromNow_pos : ∀ h arg time k, ∀ r ∈ (call h arg time k).2.1, 0 < r.fromNow

structure Interrupt (η κ : Type) where
  level : IntStatus
  pending : List (ListElement (PendingInterrupt η))
  inHandler : Bool
  yieldOnReturn : Bool
  status : MachineStatus
  stats : Statistics
  kernel : κ
  -- the local variable `old` of every `OneTick` that is inside `Yield`
  suspended : List MachineStatus
  halted : Bool
  scheduled : Nat
  fired : List (PendingInterrupt η)
  deriving DecidableEq

namespace Interrupt

variable {η κ : Type}

/-- `Interrupt::Interrupt`, with the statistics all zero. -/
def init (k : κ) : Interrupt η κ where
  level := .intOff
  pending := []
  inHandler := false
  yieldOnReturn := false
  status := .systemMode
  stats := ⟨0, 0, 0, 0⟩
  kernel := k
  suspended := []
  halted := false
  scheduled := 0
  fired := []

/-- `Interrupt::Schedule`. -/
def schedule (s : Interrupt η κ) (r : Request η) : Option (Interrupt η κ) :=
  let when := s.stats.totalTicks + r.fromNow
  let toOccur : PendingInterrupt η := ⟨r.handler, r.arg, when, r.type, s.scheduled⟩
  if 0 < r.fromNow then
    some { s with pending := sortedInsert s.pending toOccur when, scheduled := s.scheduled + 1 }
  else
    none

/-- The call `(*(toOccur->handler))(toOccur->arg)`. -/
def callHandler (H : Handlers η κ) (s : Interrupt η κ) (toOccur : PendingInterrupt η) :
    Option (Interrupt η κ) :=
  let (k, requests, yield) := H.call toOccur.handler toOccur.arg s.stats.totalTicks s.kernel
  requests.foldlM schedule
    { s with kernel := k, yieldOnReturn := s.yieldOnReturn || yield, fired := s.fired ++ [toOccur] }

/-- `Interrupt::CheckIfDue`, from the test for `IdleMode` on; `old` is the status at the call. -/
def fire (H : Handlers η κ) (s : Interrupt η κ) (old : MachineStatus) (toOccur : PendingInterrupt η)
    (when : Int) : Option (Bool × Interrupt η κ) :=
  if s.status = .idleMode ∧ toOccur.type = .timerInt ∧ s.pending = [] then
    some (false, { s with pending := sortedInsert s.pending toOccur when })
  else do
    let s ← callHandler H { s with inHandler := true, status := .systemMode } toOccur
    some (true, { s with status := old, inHandler := false })

/-- `Interrupt::CheckIfDue`. -/
def checkIfDue (H : Handlers η κ) (advanceClock : Bool) (s : Interrupt η κ) :
    Option (Bool × Interrupt η κ) :=
  let old := s.status
  if s.level ≠ .intOff then
    none
  else
    match sortedRemove s.pending with
    | none => some (false, s)
    | some (toOccur, when, rest) =>
      if advanceClock ∧ when > s.stats.totalTicks then
        let stats := { s.stats with
          idleTicks := s.stats.idleTicks + (when - s.stats.totalTicks), totalTicks := when }
        fire H { s with pending := rest, stats := stats } old toOccur when
      else if when > s.stats.totalTicks then
        some (false, { s with pending := sortedInsert rest toOccur when })
      else
        fire H { s with pending := rest } old toOccur when

/-- `while (CheckIfDue(FALSE));`. -/
def checkAll (H : Handlers η κ) : Nat → Interrupt η κ → Option (Interrupt η κ)
  | 0, _ => none
  | fuel + 1, s => do
    let (due, s) ← checkIfDue H false s
    if due then checkAll H fuel s else some s

/-- The clock in `OneTick`. -/
def advance (s : Interrupt η κ) : Interrupt η κ :=
  let stats := s.stats
  if s.status = .systemMode then
    { s with stats := { stats with
        totalTicks := stats.totalTicks + SystemTick, systemTicks := stats.systemTicks + SystemTick } }
  else
    { s with stats := { stats with
        totalTicks := stats.totalTicks + UserTick, userTicks := stats.userTicks + UserTick } }

/-- `OneTick` after its loop, up to `currentThread->Yield()` if that is called; `old` is the status
at the start. -/
def enable (s : Interrupt η κ) (old : MachineStatus) : Interrupt η κ :=
  let s := { s with level := .intOn }
  if s.yieldOnReturn then
    { s with yieldOnReturn := false, status := .systemMode, suspended := old :: s.suspended }
  else
    s

/-- `Interrupt::OneTick`. -/
def oneTick (H : Handlers η κ) (fuel : Nat) (s : Interrupt η κ) : Option (Interrupt η κ) := do
  let old := s.status
  let s ← checkAll H fuel { advance s with level := .intOff }
  some (s.enable old)

/-- `status = old` in `OneTick`, when the `Yield` of the `i`-th suspended call returns. -/
def resume (s : Interrupt η κ) (i : Nat) : Option (Interrupt η κ) := do
  let old ← s.suspended[i]?
  some { s with status := old, suspended := s.suspended.eraseIdx i }

/-- `Interrupt::SetLevel`. -/
def setLevel (H : Handlers η κ) (fuel : Nat) (s : Interrupt η κ) (now : IntStatus) :
    Option (Interrupt η κ) :=
  let old := s.level
  if now = .intOff ∨ s.inHandler = false then
    let s := { s with level := now }
    if now = .intOn ∧ old = .intOff then oneTick H fuel s else some s
  else
    none

/-- `Interrupt::Idle`. -/
def idle (H : Handlers η κ) (fuel : Nat) (s : Interrupt η κ) : Option (Interrupt η κ) := do
  let (due, s) ← checkIfDue H true { s with status := .idleMode }
  if due then
    let s ← checkAll H fuel s
    some { s with yieldOnReturn := false, status := .systemMode }
  else
    some { s with halted := true }

/-- What is called from outside the simulator.  `compute` is everything that the threads and the
devices do in between. -/
inductive Event (η κ : Type) where
  | schedule (r : Request η)
  | setLevel (fuel : Nat) (now : IntStatus)
  | oneTick (fuel : Nat)
  | resume (i : Nat)
  | idle (fuel : Nat)
  | setUserMode
  | setSystemMode
  | compute (k : κ)

def step (H : Handlers η κ) (s : Interrupt η κ) (e : Event η κ) : Option (Interrupt η κ) :=
  if s.halted then
    none
  else
    match e with
    | .schedule r => schedule s r
    | .setLevel fuel now => setLevel H fuel s now
    | .oneTick fuel => oneTick H fuel s
    | .resume i => resume s i
    | .idle fuel => idle H fuel s
    | .setUserMode => some { s with status := .userMode }
    | .setSystemMode => some { s with status := .systemMode }
    | .compute k => some { s with kernel := k }

def system (H : Handlers η κ) : System (Interrupt η κ) (Event η κ) where
  init := fun s => ∃ k, s = init k
  step := step H

variable {H : Handlers η κ} {s s' : Interrupt η κ}

/-! ## The handlers -/

theorem schedule_some {r : Request η} (h : schedule s r = some s') :
    0 < r.fromNow ∧ s' = { s with
      pending := sortedInsert s.pending ⟨r.handler, r.arg, s.stats.totalTicks + r.fromNow, r.type, s.scheduled⟩
        (s.stats.totalTicks + r.fromNow), scheduled := s.scheduled + 1 } := by
  simp only [schedule] at h
  split at h
  · rename_i hpos
    exact ⟨hpos, (Option.some.inj h).symm⟩
  · cases h

/-- What every call of `Schedule` keeps, a handler keeps. -/
theorem foldlM_schedule {I : Interrupt η κ → Prop} (hI : ∀ s r s', I s → schedule s r = some s' → I s') :
    ∀ (requests : List (Request η)) (s s' : Interrupt η κ), requests.foldlM schedule s = some s' → I s → I s' := by
  intro requests
  induction requests with
  | nil =>
    intro s s' h hs
    cases h
    exact hs
  | cons r requests ih =>
    intro s s' h hs
    obtain ⟨u, hu, hrest⟩ := Option.bind_eq_some_iff.1 h
    exact ih u s' hrest (hI s r u hs hu)

theorem foldlM_schedule_ne_none :
    ∀ (requests : List (Request η)) (s : Interrupt η κ), (∀ r ∈ requests, 0 < r.fromNow) →
      ∃ s', requests.foldlM schedule s = some s' := by
  intro requests
  induction requests with
  | nil => exact fun s _ => ⟨s, rfl⟩
  | cons r requests ih =>
    intro s hpos
    have hr : ∃ u, schedule s r = some u := by
      simp only [schedule]
      rw [if_pos (hpos r List.mem_cons_self)]
      exact ⟨_, rfl⟩
    obtain ⟨u, hu⟩ := hr
    obtain ⟨s', hs'⟩ := ih u (fun x hx => hpos x (List.mem_cons_of_mem r hx))
    exact ⟨s', by rw [List.foldlM_cons, hu]; exact hs'⟩

/-- `s'` is `s` with interrupts added that are not due. -/
structure Adds (s s' : Interrupt η κ) : Prop where
  stats : s'.stats = s.stats
  status : s'.status = s.status
  level : s'.level = s.level
  inHandler : s'.inHandler = s.inHandler
  suspended : s'.suspended = s.suspended
  halted : s'.halted = s.halted
  fired : s'.fired = s.fired
  sorted : SortedList.Sorted ListElement.key s.pending → SortedList.Sorted ListElement.key s'.pending
  pending : ∃ new, s'.pending.Perm (new ++ s.pending) ∧
    ∀ e ∈ new, s.stats.totalTicks < e.key ∧ e.item.when = e.key

theorem Adds.refl (s : Interrupt η κ) : Adds s s :=
  ⟨rfl, rfl, rfl, rfl, rfl, rfl, rfl, id, [], List.Perm.refl _, by simp⟩

theorem Adds.schedule (h : Adds s s') {r : Request η} {s'' : Interrupt η κ}
    (hr : Interrupt.schedule s' r = some s'') : Adds s s'' := by
  obtain ⟨hpos, rfl⟩ := schedule_some hr
  refine ⟨h.stats, h.status, h.level, h.inHandler, h.suspended, h.halted, h.fired,
    fun hs => SortedList.sorted_insert (h.sorted hs), ?_⟩
  obtain ⟨new, hperm, hnew⟩ := h.pending
  refine ⟨_ :: new, (SortedList.insert_perm).trans (hperm.cons _), ?_⟩
  intro e he
  rcases List.mem_cons.1 he with rfl | he
  · refine ⟨?_, rfl⟩
    rw [h.stats]
    show s.stats.totalTicks < s.stats.totalTicks + r.fromNow
    omega
  · exact hnew e he

/-- **One handler** fails no assertion; it adds interrupts that are not due. -/
theorem callHandler_spec (H : Handlers η κ) (s : Interrupt η κ) (p : PendingInterrupt η) :
    ∃ k y s', callHandler H s p = some s' ∧
      Adds { s with kernel := k, yieldOnReturn := y, fired := s.fired ++ [p] } s' := by
  have hpos := H.fromNow_pos p.handler p.arg s.stats.totalTicks s.kernel
  obtain ⟨s', hs'⟩ := foldlM_schedule_ne_none _
    { s with
      kernel := (H.call p.handler p.arg s.stats.totalTicks s.kernel).1
      yieldOnReturn := s.yieldOnReturn || (H.call p.handler p.arg s.stats.totalTicks s.kernel).2.2
      fired := s.fired ++ [p] } hpos
  have hadds := foldlM_schedule (fun _ _ _ h hr => h.schedule hr) _ _ s' hs' (Adds.refl _)
  exact ⟨_, _, s', hs', hadds⟩

/-! ## CheckIfDue -/

/-- `s'` is `s` after the handler of `p`. -/
def Called (s : Interrupt η κ) (p : PendingInterrupt η) (s' : Interrupt η κ) : Prop :=
  ∃ k y, Adds { s with kernel := k, yieldOnReturn := y, inHandler := false, fired := s.fired ++ [p] } s'

/-- `fire` puts the interrupt back, or calls its handler. -/
theorem fire_spec (H : Handlers η κ) (s : Interrupt η κ) (p : PendingInterrupt η) (when : Int) :
    (s.status = .idleMode ∧ p.type = .timerInt ∧ s.pending = [] ∧
      fire H s s.status p when = some (false, { s with pending := [⟨p, when⟩] })) ∨
    (∃ s', fire H s s.status p when = some (true, s') ∧ Called s p s') := by
  unfold fire
  split
  · rename_i hidle
    refine .inl ⟨hidle.1, hidle.2.1, hidle.2.2, ?_⟩
    rw [hidle.2.2]
    rfl
  · obtain ⟨k, y, s', hs', hadds⟩ := callHandler_spec H { s with inHandler := true, status := .systemMode } p
    refine .inr ⟨{ s' with status := s.status, inHandler := false }, by rw [hs']; rfl, ?_⟩
    exact ⟨k, y, hadds.stats, rfl, hadds.level, rfl, hadds.suspended, hadds.halted, hadds.fired, hadds.sorted,
      hadds.pending⟩

/-- **`CheckIfDue(FALSE)`** with interrupts off: nothing is pending, the first is not yet due or
stays, or its handler is called. -/
theorem checkIfDue_spec (H : Handlers η κ) (hoff : s.level = .intOff) :
    (s.pending = [] ∧ checkIfDue H false s = some (false, s)) ∨
    (∃ e rest, s.pending = e :: rest ∧ s.stats.totalTicks < e.key ∧
      checkIfDue H false s = some (false, { s with pending := sortedInsert rest e.item e.key })) ∨
    (∃ e, s.status = .idleMode ∧ e.item.type = .timerInt ∧ s.pending = [e] ∧ e.key ≤ s.stats.totalTicks ∧
      checkIfDue H false s = some (false, s)) ∨
    (∃ e rest s', s.pending = e :: rest ∧ e.key ≤ s.stats.totalTicks ∧
      checkIfDue H false s = some (true, s') ∧ Called { s with pending := rest } e.item s') := by
  unfold checkIfDue
  rw [if_neg (not_not.2 hoff)]
  cases hp : s.pending with
  | nil => exact .inl ⟨rfl, rfl⟩
  | cons e rest =>
    simp only [sortedRemove, Bool.false_eq_true, false_and, if_false]
    by_cases hdue : e.key > s.stats.totalTicks
    · rw [if_pos hdue]
      exact .inr (.inl ⟨e, rest, rfl, hdue, rfl⟩)
    · rw [if_neg hdue]
      rcases fire_spec H { s with pending := rest } e.item e.key with ⟨h1, h2, h3, h4⟩ | ⟨s', h1, h2⟩
      · refine .inr (.inr (.inl ⟨e, h1, h2, ?_, not_lt.1 hdue, ?_⟩))
        · rw [show rest = [] from h3]
        · rw [h4]
          have hs : { s with pending := [⟨e.item, e.key⟩] } = s := by
            have h3' : rest = [] := h3
            subst h3'
            cases s
            simp only at hp
            subst hp
            rfl
          rw [← hs]
      · exact .inr (.inr (.inr ⟨e, rest, s', rfl, not_lt.1 hdue, h1, h2⟩))

/-! ## The loop -/

/-- The pending list is sorted by `when`, and every tick is accounted for. -/
structure Timed (s : Interrupt η κ) : Prop where
  sorted : SortedList.Sorted ListElement.key s.pending
  whens : ∀ e ∈ s.pending, e.item.when = e.key
  ticks : s.stats.totalTicks = s.stats.idleTicks + s.stats.systemTicks + s.stats.userTicks

/-- The number of interrupts that are due. -/
def due (s : Interrupt η κ) : Nat := s.pending.countP (fun e => e.key ≤ s.stats.totalTicks)

theorem Adds.timed (h : Adds s s') (ht : Timed s) : Timed s' := by
  refine ⟨h.sorted ht.sorted, ?_, by rw [h.stats]; exact ht.ticks⟩
  obtain ⟨new, hperm, hnew⟩ := h.pending
  intro e he
  rcases List.mem_append.1 (hperm.mem_iff.1 he) with he | he
  · exact (hnew e he).2
  · exact ht.whens e he

theorem Adds.due_eq (h : Adds s s') : s'.due = s.due := by
  obtain ⟨new, hperm, hnew⟩ := h.pending
  have hzero : new.countP (fun e => decide (e.key ≤ s.stats.totalTicks)) = 0 := by
    rw [List.countP_eq_zero]
    intro e he
    have := (hnew e he).1
    simpa using this
  rw [due, due, h.stats, hperm.countP_eq, List.countP_append, hzero, Nat.zero_add]

/-- Every interrupt was there before, or is later than now. -/
theorem Adds.mem_pending (h : Adds s s') {e : ListElement (PendingInterrupt η)} (he : e ∈ s'.pending) :
    e ∈ s.pending ∨ s.stats.totalTicks < e.key := by
  obtain ⟨new, hperm, hnew⟩ := h.pending
  rcases List.mem_append.1 (hperm.mem_iff.1 he) with he | he
  · exact .inr (hnew e he).1
  · exact .inl he

theorem Timed.tail {e : ListElement (PendingInterrupt η)} {rest : List (ListElement (PendingInterrupt η))}
    (ht : Timed s) (hp : s.pending = e :: rest) : Timed { s with pending := rest } := by
  refine ⟨?_, fun x hx => ht.whens x (by rw [hp]; exact List.mem_cons_of_mem e hx), ht.ticks⟩
  have := ht.sorted
  rw [hp] at this
  exact (List.pairwise_cons.1 this).2

/-- The first interrupt is put back. -/
theorem Timed.putBack {e : ListElement (PendingInterrupt η)} {rest : List (ListElement (PendingInterrupt η))}
    (ht : Timed s) (hp : s.pending = e :: rest) :
    Timed { s with pending := sortedInsert rest e.item e.key } := by
  refine ⟨SortedList.sorted_insert (ht.tail hp).sorted, ?_, ht.ticks⟩
  intro x hx
  rcases SortedList.mem_insert.1 hx with rfl | hx
  · exact ht.whens e (by rw [hp]; exact List.mem_cons_self)
  · exact (ht.tail hp).whens x hx

/-- The loop ended in `s'`, and `new` are the interrupts whose handlers were called. -/
structure Drained (s : Interrupt η κ) (new : List (PendingInterrupt η)) (s' : Interrupt η κ) : Prop where
  stats : s'.stats = s.stats
  fired : s'.fired = s.fired ++ new
  onTime : ∀ p ∈ new, p.when ≤ s.stats.totalTicks
  ordered : new.Pairwise (fun p q => p.when ≤ q.when)
  bound : ∀ b, (∀ e ∈ s.pending, b ≤ e.key) → b ≤ s.stats.totalTicks → ∀ p ∈ new, b ≤ p.when
  late : ∀ e ∈ s'.pending, s.stats.totalTicks < e.key ∧ e.item.when = e.key

/-- **The loop ends** after at most one call of `CheckIfDue` for every interrupt that is due, and
one more.  The induction is on their number: a handler adds none. -/
theorem checkAll_spec (H : Handlers η κ) : ∀ (n : Nat) (s : Interrupt η κ), s.due = n → Timed s →
    s.level = .intOff → s.status ≠ .idleMode →
    ∃ new s', (∀ fuel, n < fuel → checkAll H fuel s = some s') ∧ Drained s new s' := by
  intro n
  induction n with
  | zero =>
    intro s hdue ht hoff hidle
    have hlate : ∀ e ∈ s.pending, s.stats.totalTicks < e.key := by
      intro e he
      have := List.countP_eq_zero.1 hdue e he
      simpa using this
    rcases checkIfDue_spec H hoff with ⟨hp, hcheck⟩ | ⟨e, rest, hp, hlt, hcheck⟩ | ⟨e, hi, -⟩ |
      ⟨e, rest, s', hp, hle, -⟩
    · refine ⟨[], s, ?_, rfl, by simp, by simp, List.Pairwise.nil, by simp, ?_⟩
      · intro fuel hfuel
        obtain ⟨fuel, rfl⟩ := Nat.exists_eq_add_of_lt hfuel
        rw [checkAll, hcheck]
        rfl
      · exact fun e he => ⟨hlate e he, ht.whens e he⟩
    · refine ⟨[], { s with pending := sortedInsert rest e.item e.key }, ?_, rfl, by simp, by simp,
        List.Pairwise.nil, by simp, ?_⟩
      · intro fuel hfuel
        obtain ⟨fuel, rfl⟩ := Nat.exists_eq_add_of_lt hfuel
        rw [checkAll, hcheck]
        rfl
      · intro x hx
        refine ⟨?_, (ht.putBack hp).whens x hx⟩
        rcases SortedList.mem_insert.1 hx with rfl | hx
        · exact hlt
        · exact hlate x (by rw [hp]; exact List.mem_cons_of_mem e hx)
    · exact absurd hi hidle
    · have := hlate e (by rw [hp]; exact List.mem_cons_self)
      omega
  | succ n ih =>
    intro s hdue ht hoff hidle
    have hpos : 0 < s.due := by omega
    obtain ⟨x, hx, hxdue⟩ := List.countP_pos_iff.1 hpos
    have hxdue' : x.key ≤ s.stats.totalTicks := by simpa using hxdue
    rcases checkIfDue_spec H hoff with ⟨hp, -⟩ | ⟨e, rest, hp, hlt, -⟩ | ⟨e, hi, -⟩ |
      ⟨e, rest, u, hp, hle, hcheck, k, y, hadds⟩
    · rw [hp] at hx
      cases hx
    · -- the first is not due, but it is the earliest
      have hs := ht.sorted
      rw [hp] at hs hx
      rcases List.mem_cons.1 hx with rfl | hx
      · omega
      · have := (List.pairwise_cons.1 hs).1 x hx
        omega
    · exact absurd hi hidle
    · have hrest : ∀ z ∈ rest, e.key ≤ z.key := by
        have hs := ht.sorted
        rw [hp] at hs
        exact (List.pairwise_cons.1 hs).1
      have hwhen : e.item.when = e.key := ht.whens e (by rw [hp]; exact List.mem_cons_self)
      have hcount : u.due = n := by
        have hcons : s.due = rest.countP (fun e => decide (e.key ≤ s.stats.totalTicks)) + 1 := by
          rw [due, hp, List.countP_cons, if_pos (by simpa using hle)]
        have hsame : u.due = rest.countP (fun e => decide (e.key ≤ s.stats.totalTicks)) := hadds.due_eq
        omega
      have htu : Timed u := by
        have htail := ht.tail hp
        exact hadds.timed ⟨htail.sorted, htail.whens, htail.ticks⟩
      have hstats : u.stats = s.stats := hadds.stats
      obtain ⟨new, s', hrun, hd⟩ := ih u hcount htu (hadds.level.trans hoff)
        (by rw [hadds.status]; exact hidle)
      have hmem : ∀ z ∈ u.pending, z ∈ rest ∨ s.stats.totalTicks < z.key := fun z hz => hadds.mem_pending hz
      refine ⟨e.item :: new, s', ?_, hd.stats.trans hstats, ?_, ?_, ?_, ?_, ?_⟩
      · intro fuel hfuel
        obtain ⟨fuel, rfl⟩ := Nat.exists_eq_add_of_lt hfuel
        rw [checkAll, hcheck]
        exact hrun _ (by omega)
      · rw [hd.fired, hadds.fired, List.append_assoc, List.singleton_append]
      · intro p hp'
        rcases List.mem_cons.1 hp' with rfl | hp'
        · omega
        · rw [← hstats]
          exact hd.onTime p hp'
      · refine List.pairwise_cons.2 ⟨?_, hd.ordered⟩
        refine hd.bound e.item.when ?_ (by rw [hstats]; omega)
        intro z hz
        rcases hmem z hz with hz | hz
        · rw [hwhen]
          exact hrest z hz
        · omega
      · intro b hb hbt p hp'
        rcases List.mem_cons.1 hp' with rfl | hp'
        · rw [hwhen]
          exact hb e (by rw [hp]; exact List.mem_cons_self)
        · refine hd.bound b ?_ (by rw [hstats]; exact hbt) p hp'
          intro z hz
          rcases hmem z hz with hz | hz
          · exact hb z (by rw [hp]; exact List.mem_cons_of_mem e hz)
          · omega
      · rw [← hstats]
        exact hd.late

/-! ## Runs -/

/-- The clock does not go back, and the status is as before. -/
structure Later (s s' : Interrupt η κ) : Prop where
  ticks : s.stats.totalTicks ≤ s'.stats.totalTicks
  status : s'.status = s.status
  suspended : s'.suspended = s.suspended
  halted : s'.halted = s.halted

theorem Later.trans {s'' : Interrupt η κ} (h : Later s s') (h' : Later s' s'') : Later s s'' :=
  ⟨h.ticks.trans h'.ticks, h'.status.trans h.status, h'.suspended.trans h.suspended,
    h'.halted.trans h.halted⟩

theorem fire_later {p : PendingInterrupt η} {when : Int} {due : Bool}
    (h : fire H s s.status p when = some (due, s')) (ht : Timed s) (hp : p.when = when) :
    Timed s' ∧ Later s s' := by
  rcases fire_spec H s p when with ⟨-, -, -, hf⟩ | ⟨u, hf, k, y, hadds⟩
  · rw [hf] at h
    cases h
    refine ⟨⟨List.pairwise_singleton _ _, ?_, ht.ticks⟩, le_refl _, rfl, rfl, rfl⟩
    intro e he
    rw [List.mem_singleton.1 he]
    exact hp
  · rw [hf] at h
    cases h
    refine ⟨hadds.timed ⟨ht.sorted, ht.whens, ht.ticks⟩, ?_, hadds.status, hadds.suspended, hadds.halted⟩
    rw [hadds.stats]

theorem checkIfDue_later {advanceClock due : Bool} (h : checkIfDue H advanceClock s = some (due, s'))
    (ht : Timed s) : Timed s' ∧ Later s s' := by
  unfold checkIfDue at h
  split at h
  · cases h
  · cases hp : s.pending with
    | nil =>
      rw [hp] at h
      cases h
      exact ⟨ht, le_refl _, rfl, rfl, rfl⟩
    | cons e rest =>
      have htail := ht.tail hp
      have hwhen := ht.whens e (by rw [hp]; exact List.mem_cons_self)
      rw [hp] at h
      simp only [sortedRemove] at h
      split at h
      · -- the clock is advanced to the first interrupt
        rename_i hadv
        obtain ⟨ht', hl⟩ := fire_later h ⟨htail.sorted, htail.whens, by have := ht.ticks; simp only; omega⟩ hwhen
        refine ⟨ht', ?_, hl.status, hl.suspended, hl.halted⟩
        have h1 := hl.ticks
        have h2 := hadv.2
        simp only at h1
        omega
      · split at h
        · cases h
          exact ⟨ht.putBack hp, le_refl _, rfl, rfl, rfl⟩
        · obtain ⟨ht', hl⟩ := fire_later h htail hwhen
          exact ⟨ht', hl.ticks, hl.status, hl.suspended, hl.halted⟩

theorem checkAll_later : ∀ (fuel : Nat) (s : Interrupt η κ), checkAll H fuel s = some s' → Timed s →
    Timed s' ∧ Later s s' := by
  intro fuel
  induction fuel with
  | zero => intro s h; cases h
  | succ fuel ih =>
    intro s h ht
    obtain ⟨⟨due, u⟩, hu, hrest⟩ := Option.bind_eq_some_iff.1 h
    obtain ⟨htu, hlu⟩ := checkIfDue_later hu ht
    cases due with
    | true =>
      obtain ⟨ht', hl'⟩ := ih u hrest htu
      exact ⟨ht', hlu.trans hl'⟩
    | false =>
      cases hrest
      exact ⟨htu, hlu⟩

theorem advance_timed (s : Interrupt η κ) (ht : Timed s) : Timed s.advance ∧ Later s s.advance := by
  have hticks := ht.ticks
  unfold advance
  split
  · refine ⟨⟨ht.sorted, ht.whens, ?_⟩, ?_, rfl, rfl, rfl⟩
    · simp only
      omega
    · simp only [SystemTick]
      omega
  · refine ⟨⟨ht.sorted, ht.whens, ?_⟩, ?_, rfl, rfl, rfl⟩
    · simp only
      omega
    · simp only [UserTick]
      omega

/-- Between two calls. -/
structure Good (s : Interrupt η κ) : Prop extends Timed s where
  awake : s.halted = false → s.status ≠ .idleMode
  olds : ∀ old ∈ s.suspended, old ≠ .idleMode

theorem enable_same (s : Interrupt η κ) (old : MachineStatus) :
    (s.enable old).stats = s.stats ∧ (s.enable old).fired = s.fired ∧ (s.enable old).pending = s.pending := by
  unfold enable
  dsimp only
  split
  · exact ⟨rfl, rfl, rfl⟩
  · exact ⟨rfl, rfl, rfl⟩

theorem enable_good {old : MachineStatus} (ht : Timed s) (hstatus : s.status ≠ .idleMode)
    (hold : old ≠ .idleMode) (holds : ∀ x ∈ s.suspended, x ≠ .idleMode) : Good (s.enable old) := by
  unfold enable
  dsimp only
  split
  · refine ⟨⟨ht.sorted, ht.whens, ht.ticks⟩, by simp, ?_⟩
    intro x hx
    rcases List.mem_cons.1 hx with rfl | hx
    · exact hold
    · exact holds x hx
  · exact ⟨⟨ht.sorted, ht.whens, ht.ticks⟩, fun _ => hstatus, holds⟩

theorem oneTick_good {fuel : Nat} (h : oneTick H fuel s = some s') (hg : Good s) (hrun : s.halted = false) :
    Good s' ∧ s.stats.totalTicks ≤ s'.stats.totalTicks := by
  obtain ⟨hta, hla⟩ := advance_timed s hg.toTimed
  obtain ⟨u, hu, hrest⟩ := Option.bind_eq_some_iff.1 h
  obtain ⟨htu, hlu⟩ := checkAll_later fuel _ hu ⟨hta.sorted, hta.whens, hta.ticks⟩
  have hstatus : u.status = s.status := hlu.status.trans hla.status
  have hsusp : u.suspended = s.suspended := hlu.suspended.trans hla.suspended
  cases hrest
  refine ⟨enable_good htu ?_ (hg.awake hrun) ?_, ?_⟩
  · rw [hstatus]
    exact hg.awake hrun
  · rw [hsusp]
    exact hg.olds
  · rw [(enable_same u s.status).1]
    exact hla.ticks.trans hlu.ticks

theorem idle_good {fuel : Nat} (h : idle H fuel s = some s') (hg : Good s) :
    Good s' ∧ s.stats.totalTicks ≤ s'.stats.totalTicks := by
  obtain ⟨⟨due, u⟩, hu, hrest⟩ := Option.bind_eq_some_iff.1 h
  obtain ⟨htu, hlu⟩ := checkIfDue_later hu ⟨hg.sorted, hg.whens, hg.ticks⟩
  cases due with
  | true =>
    obtain ⟨v, hv, hlast⟩ := Option.bind_eq_some_iff.1 hrest
    obtain ⟨htv, hlv⟩ := checkAll_later fuel u hv htu
    have hl := hlu.trans hlv
    cases hlast
    refine ⟨⟨⟨htv.sorted, htv.whens, htv.ticks⟩, by simp, ?_⟩, hl.ticks⟩
    show ∀ old ∈ v.suspended, old ≠ .idleMode
    rw [hl.suspended]
    exact hg.olds
  | false =>
    cases hrest
    refine ⟨⟨⟨htu.sorted, htu.whens, htu.ticks⟩, fun hfalse => (by cases hfalse), ?_⟩, hlu.ticks⟩
    show ∀ old ∈ u.suspended, old ≠ .idleMode
    rw [hlu.suspended]
    exact hg.olds

theorem step_good {e : Event η κ} (h : step H s e = some s') (hg : Good s) :
    Good s' ∧ s.stats.totalTicks ≤ s'.stats.totalTicks := by
  unfold step at h
  split at h
  · cases h
  · rename_i hhalted
    have hrun : s.halted = false := by simpa using hhalted
    cases e with
    | schedule r =>
      have hadds := (Adds.refl s).schedule h
      refine ⟨⟨hadds.timed hg.toTimed, ?_, ?_⟩, by rw [hadds.stats]⟩
      · rw [hadds.status, hadds.halted]
        exact hg.awake
      · rw [hadds.suspended]
        exact hg.olds
    | setLevel fuel now =>
      simp only [setLevel] at h
      split at h
      · split at h
        · have hg' : Good { s with level := now } := ⟨⟨hg.sorted, hg.whens, hg.ticks⟩, hg.awake, hg.olds⟩
          have hgood := oneTick_good h hg' hrun
          exact hgood
        · cases h
          exact ⟨⟨⟨hg.sorted, hg.whens, hg.ticks⟩, hg.awake, hg.olds⟩, le_refl _⟩
      · cases h
    | oneTick fuel => exact oneTick_good h hg hrun
    | resume i =>
      obtain ⟨old, hold, hrest⟩ := Option.bind_eq_some_iff.1 h
      cases hrest
      refine ⟨⟨⟨hg.sorted, hg.whens, hg.ticks⟩, fun _ => hg.olds old (List.mem_of_getElem? hold), ?_⟩, le_refl _⟩
      exact fun x hx => hg.olds x (List.mem_of_mem_eraseIdx hx)
    | idle fuel => exact idle_good h hg
    | setUserMode =>
      cases h
      exact ⟨⟨⟨hg.sorted, hg.whens, hg.ticks⟩, by simp, hg.olds⟩, le_refl _⟩
    | setSystemMode =>
      cases h
      exact ⟨⟨⟨hg.sorted, hg.whens, hg.ticks⟩, by simp, hg.olds⟩, le_refl _⟩
    | compute k =>
      cases h
      exact ⟨⟨⟨hg.sorted, hg.whens, hg.ticks⟩, hg.awake, hg.olds⟩, le_refl _⟩

theorem reachable_good (h : (system H).Reachable s) : Good s := by
  refine System.Reachable.invariant (I := Good) ?_ ?_ h
  · rintro s ⟨k, rfl⟩
    exact ⟨⟨List.Pairwise.nil, by simp [init], rfl⟩, by simp [init], by simp [init]⟩
  · intro s e s' _ hg he
    exact (step_good he hg).1

/-- **Interrupts are on time.**  In every reachable state the loop of `OneTick` ends; the handlers
it calls were due, they are called in the order of `when`, and what is pending afterwards is later
than now.  Simulated time never decreases, and is the sum of its three parts. -/
theorem ticks_on_time (H : Handlers η κ) {s : Interrupt η κ} (h : (system H).Reachable s) :
    (s.halted = false → ∃ n new s', (∀ fuel, n < fuel → oneTick H fuel s = some s') ∧
      s'.stats = s.advance.stats ∧ s'.fired = s.fired ++ new ∧
      (∀ p ∈ new, p.when ≤ s'.stats.totalTicks) ∧
      new.Pairwise (fun p q => p.when ≤ q.when) ∧
      (∀ e ∈ s'.pending, s'.stats.totalTicks < e.item.when)) ∧
    s.stats.totalTicks = s.stats.idleTicks + s.stats.systemTicks + s.stats.userTicks ∧
    (∀ e s', step H s e = some s' → s.stats.totalTicks ≤ s'.stats.totalTicks) := by
  have hg := reachable_good h
  refine ⟨?_, hg.ticks, fun e s' he => (step_good he hg).2⟩
  intro hrun
  obtain ⟨hta, hla⟩ := advance_timed s hg.toTimed
  have hidle : s.advance.status ≠ .idleMode := by
    rw [hla.status]
    exact hg.awake hrun
  obtain ⟨new, u, hloop, hd⟩ := checkAll_spec H _ { s.advance with level := .intOff } rfl
    ⟨hta.sorted, hta.whens, hta.ticks⟩ rfl hidle
  obtain ⟨hstats, hfired, hpending⟩ := enable_same u s.status
  have hlog : s.advance.fired = s.fired := by
    unfold advance
    split
    · rfl
    · rfl
  refine ⟨s.advance.due, new, u.enable s.status, ?_, hstats.trans hd.stats, ?_, ?_, hd.ordered, ?_⟩
  · intro fuel hfuel
    rw [oneTick, hloop fuel hfuel]
    rfl
  · rw [hfired, hd.fired, ← hlog]
  · rw [hstats, hd.stats]
    exact hd.onTime
  · rw [hstats, hpending, hd.stats]
    intro e he
    obtain ⟨hlt, hwhen⟩ := hd.late e he
    rw [hwhen]
    exact hlt

/-- Two handlers: the first does nothing, the second schedules the first. -/
def twoHandlers : Handlers Bool Unit where
  call := fun h _ _ k => (k, if h then [⟨false, 0, 5, .diskInt⟩] else [], false)
  fromNow_pos := by
    intro h arg time k r hr
    cases h with
    | false => cases hr
    | true =>
      rw [List.mem_singleton.1 hr]
      decide

/-- An interrupt after 7 ticks schedules another one, while the loop runs at tick 10. -/
theorem ticks_on_time_oneTick : ∃ s : Interrupt Bool Unit, (system twoHandlers).Reachable s ∧
    s.stats.totalTicks = s.stats.idleTicks + s.stats.systemTicks + s.stats.userTicks ∧
    s.fired.map (·.when) = [7] ∧ s.pending.map (·.key) = [15] := by
  have hrun : ((system twoHandlers).run (init ()) [.schedule ⟨true, 0, 7, .timerInt⟩, .setLevel 3 .intOn]).map
      (fun s => (s.fired.map (·.when), s.pending.map (·.key))) = some ([7], [15]) := by decide +kernel
  obtain ⟨s, hs, hproj⟩ := Option.map_eq_some_iff.1 hrun
  rw [Prod.mk.injEq] at hproj
  have hinit : (system twoHandlers).init (init ()) := ⟨(), rfl⟩
  have hreach := System.reachable_of_run _ hinit hs
  exact ⟨s, hreach, (ticks_on_time twoHandlers hreach).2.1, hproj.1, hproj.2⟩

end Interrupt

end Nachos
