import Nachos.Threads.Stable
import Nachos.Userprog.PrintCalls

/-!
# The programs `printa` and `printb`

The test `test/print_dongbo.c`: two processes that take turns through the semaphores "a" and "b".
`printa` repeats `Wait("a"); PrintString("A"); Signal("b")`, and `printb` the same with the letters
exchanged.  The calls go through the table of `Stable` and the console of `PrintCalls`; between any
two steps of one process the other may run, and a process that was woken tests its semaphore again
whenever it is resumed.

* `Turn` — whose turn it is: the values of both semaphores, where both programs are, and what is on
  the display.
* `step_turn`, `output_alternates` — every step, and every run.
-/

set_option autoImplicit false

namespace Nachos

open CString Transition

/-- The two programs. -/
inductive Printer where
  | a
  | b
  deriving DecidableEq, Repr

namespace Printer

def other : Printer → Printer
  | a => b
  | b => a

/-- The name of the semaphore that the program waits for. -/
def name : Printer → List Byte
  | a => [97]
  | b => [98]

/-- What it prints. -/
def letter : Printer → Byte
  | a => 65
  | b => 66

theorem other_other (w : Printer) : w.other.other = w := by cases w <;> rfl

theorem other_ne (w : Printer) : w.other ≠ w := by cases w <;> nofun

theorem name_other_ne (w : Printer) : w.other.name ≠ w.name := by cases w <;> decide

theorem eq_or_other (v w : Printer) : v = w ∨ v = w.other := by cases v <;> cases w <;> simp [other]

end Printer

/-- The test: the number of rounds, the threads, and where the strings of each program are. -/
structure Dongbo where
  rounds : Nat
  tid : Printer → Tid
  read : Printer → Word → Option Byte
  own : Printer → Word
  others : Printer → Word
  tid_ne : tid .a ≠ tid .b
  own_ne : ∀ w, own w ≠ 0
  others_ne : ∀ w, others w ≠ 0
  own_string : ∀ w, SemState.HasString (read w) (own w) w.name
  others_string : ∀ w, SemState.HasString (read w) (others w) w.other.name

namespace Dongbo

/-- Where a program is: before a system call, or inside one. -/
inductive Pc where
  | wait
  | inWait
  | print
  | inPrint
  | signal
  deriving DecidableEq, Repr

structure State where
  sems : SemState
  prints : PrintState
  pc : Printer → Pc
  round : Printer → Nat

inductive Event where
  | go (w : Printer)
  | writeDone

variable (D : Dongbo)

/-- The program `w` after a turn of `Wait`. -/
def afterWait (s : State) (w : Printer) (sems : SemState) : State :=
  { s with
    sems := sems, pc := Function.update s.pc w (if (sems.waiting (D.tid w)).isNone then .print else .inWait) }

/-- The next step of program `w`. -/
def go (s : State) (w : Printer) : Option State :=
  match s.pc w with
  | .wait =>
      if s.round w < D.rounds then
        (s.sems.step (.wait (D.tid w) (D.read w) (D.own w))).map (D.afterWait s w)
      else
        none
  | .inWait => (s.sems.step (.resume (D.tid w))).map (D.afterWait s w)
  | .print =>
      (s.prints.step (.print (D.tid w) (.printString (padded [w.letter])))).map (fun p => { s with
        prints := p, pc := Function.update s.pc w .inPrint })
  | .inPrint =>
      (s.prints.step (.go (D.tid w))).map (fun p => { s with
        prints := p, pc := Function.update s.pc w (if (p.job (D.tid w)).isNone then .signal else .inPrint) })
  | .signal =>
      (s.sems.step (.signal (D.tid w) (D.read w) (D.others w))).map (fun sems => { s with
        sems := sems, pc := Function.update s.pc w .wait, round := Function.update s.round w (s.round w + 1) })

def step (s : State) : Event → Option State
  | .go w => D.go s w
  | .writeDone => (s.prints.step .writeDone).map (fun p => { s with prints := p })

/-- `CreateSemaphore("a", 1)` and `CreateSemaphore("b", 0)` have been done, and both programs are at
their first `Wait`. -/
structure Created (s : State) : Prop where
  sems : SemState.system.Reachable s.sems
  a : s.sems.stab.find Printer.a.name = some ⟨1, []⟩
  b : s.sems.stab.find Printer.b.name = some ⟨0, []⟩
  outside : ∀ w, s.sems.waiting (D.tid w) = none
  prints : s.prints = PrintState.start
  pc : ∀ w, s.pc w = .wait
  round : ∀ w, s.round w = 0

def system : System State Event where
  init := D.Created
  step := D.step

/-! ## Whose turn it is -/

/-- The first `m` letters of ABAB... -/
def text (m : Nat) : List Byte := (List.range m).map (fun i => if i % 2 = 0 then 65 else 66)

/-- The semaphore with a name has a value. -/
def HasValue (s : SemState) (l : List Byte) (v : Word) : Prop := ∃ sem, s.stab.find l = some sem ∧ sem.value = v

/-- The program is at `Wait`, or inside. -/
def Pc.Waits (p : Pc) : Prop := p = .wait ∨ p = .inWait

instance (p : Pc) : Decidable p.Waits := inferInstanceAs (Decidable (p = .wait ∨ p = .inWait))

/-- The number of letters whose `PrintString` has begun. -/
def begun (s : State) (w : Printer) : Nat :=
  s.round .a + s.round .b + if s.pc w = .inPrint ∨ s.pc w = .signal then 1 else 0

/-! ## The semaphores -/

section Semaphores

variable {s s' : SemState} {t : Tid} {l : List Byte} {v : Word}

theorem HasValue.slot_some (h : HasValue s l v) :
    ∃ i x, s.stab.slot l = some i ∧ s.stab.semtab i = some x ∧ x.sem.value = v := by
  obtain ⟨sem, hfind, hv⟩ := h
  cases hs : s.stab.slot l with
  | none =>
    rw [Stable.find_eq_none.2 hs] at hfind
    cases hfind
  | some i =>
    obtain ⟨-, x, hx, -⟩ := Stable.slot_some hs
    rw [Stable.find_of_slot hs hx] at hfind
    cases hfind
    exact ⟨i, x, rfl, hx, hv⟩

/-- The semaphore with value `v` was tested once by thread `t`. -/
structure Tried (s s' : SemState) (t : Tid) (l : List Byte) (v : Word) : Prop where
  inv : s'.Inv
  slot : s'.stab.slot = s.stab.slot
  others : ∀ u, u ≠ t → s'.waiting u = s.waiting u
  find : ∀ l', l' ≠ l → s'.stab.find l' = s.stab.find l'
  waiting : s'.waiting t = if v = 0 then s.stab.slot l else none
  value : HasValue s' l (if v = 0 then 0 else v - 1)

theorem turn_tried (h : s.Inv) (hv : HasValue s l v) {i : Nat} (hs : s.stab.slot l = some i)
    (he : s.turn t i = some s') : Tried s s' t l v := by
  obtain ⟨i', x, hs', hx, rfl⟩ := hv.slot_some
  rw [hs] at hs'
  cases hs'
  obtain ⟨u, hu, hstab, hfind, hpos, hzero, hothers⟩ := SemState.turn_spec (t := t) h.good hs hx
  rw [he, Option.some.injEq] at hu
  subst hu
  refine ⟨SemState.turn_inv h hs hx he, ?_, hothers, ?_, ?_, (x.sem.p t).1, ?_, ?_⟩
  · rw [hstab, Stable.setSem_slot hx]
  · intro l' hl'
    rw [hfind, Function.update_of_ne hl']
  · by_cases hz : x.sem.value = 0
    · rw [(hzero hz).2, if_pos hz, hs]
    · rw [(hpos hz).2, if_neg hz]
  · rw [hfind, Function.update_self]
  · by_cases hz : x.sem.value = 0
    · rw [Semaphore.p_zero hz, if_pos hz]
      exact hz
    · rw [Semaphore.p_pos hz, if_neg hz]

theorem wait_tried {read : Word → Option Byte} {name : Word} (h : s.Inv) (hv : HasValue s l v)
    (hw : s.waiting t = none) (hn : name ≠ 0) (hstr : SemState.HasString read name l)
    (he : s.step (.wait t read name) = some s') : Tried s s' t l v := by
  obtain ⟨i, x, hs, -, -⟩ := hv.slot_some
  rw [SemState.wait_eq hw hn hstr, hs] at he
  exact turn_tried h hv hs he

theorem resume_tried (h : s.Inv) (hv : HasValue s l v) (hw : s.waiting t = s.stab.slot l)
    (he : s.step (.resume t) = some s') : Tried s s' t l v := by
  obtain ⟨i, x, hs, hx, -⟩ := hv.slot_some
  simp only [SemState.step, SemState.resume, hw, hs, hx, Option.bind_eq_bind, Option.bind_some] at he
  split at he
  · cases he
  · exact turn_tried h hv hs he

theorem signal_value {read : Word → Option Byte} {name : Word} (h : s.Inv) (hv : HasValue s l v)
    (hw : s.waiting t = none) (hn : name ≠ 0) (hstr : SemState.HasString read name l)
    (he : s.step (.signal t read name) = some s') :
    s'.Inv ∧ s'.stab.slot = s.stab.slot ∧ s'.waiting = s.waiting ∧
      (∀ l', l' ≠ l → s'.stab.find l' = s.stab.find l') ∧ HasValue s' l (v + 1) := by
  have hinv := SemState.step_inv h he
  obtain ⟨i, x, hs, hx, rfl⟩ := hv.slot_some
  rw [SemState.signal_eq hw hn hstr hs hx] at he
  cases he
  have hfind := (Stable.setSem_find h.good hs hx x.sem.v.1).1
  refine ⟨hinv, Stable.setSem_slot hx _, ?_, ?_, x.sem.v.1, ?_, Semaphore.v_value _⟩
  · funext u
    rcases eq_or_ne u t with rfl | hne
    · simp [SemState.returns, hw]
    · simp [SemState.returns, hne]
  · intro l' hl'
    rw [← Function.update_of_ne hl' (some x.sem.v.1) s.stab.find, ← hfind]
    rfl
  · rw [← Function.update_self l (some x.sem.v.1) s.stab.find, ← hfind]
    rfl

end Semaphores

/-! ## Where the programs are -/

variable {D} {s s' : State} {v w : Printer}

theorem tid_other (D : Dongbo) (w : Printer) : D.tid w.other ≠ D.tid w := by
  cases w with
  | a => exact D.tid_ne.symm
  | b => exact D.tid_ne

/-- A program is inside `Wait` exactly when its process is, and on its own semaphore; and inside
`PrintString` exactly when its process is. -/
structure Placed (D : Dongbo) (s : State) : Prop where
  sems : s.sems.Inv
  prints : s.prints.Inv
  waiting : ∀ w, s.sems.waiting (D.tid w) = if s.pc w = .inWait then s.sems.stab.slot w.name else none
  printing : ∀ w, s.prints.job (D.tid w) ≠ none ↔ s.pc w = .inPrint
  rounds : ∀ w, s.round w ≤ D.rounds ∧ (s.pc w ≠ .wait → s.round w < D.rounds)

/-- It is enough to look at the program that took the step. -/
theorem forall_printer {P : Printer → Prop} (hw : P w) (hother : P w.other) : ∀ u, P u := by
  intro u
  rcases Printer.eq_or_other u w with rfl | rfl
  · exact hw
  · exact hother

theorem placed_tried {sems : SemState} {x : Word} (h : Placed D s) (hv : HasValue s.sems w.name x)
    (ht : Tried s.sems sems (D.tid w) w.name x) (hpc : (s.pc w).Waits) (hr : s.round w < D.rounds) :
    Placed D (D.afterWait s w sems) ∧
      (D.afterWait s w sems).pc = Function.update s.pc w (if x = 0 then .inWait else .print) := by
  have hpc' : (D.afterWait s w sems).pc = Function.update s.pc w (if x = 0 then .inWait else .print) := by
    obtain ⟨i, y, hs, -, -⟩ := hv.slot_some
    simp only [afterWait, ht.waiting]
    by_cases hx : x = 0
    · rw [if_pos hx, if_pos hx, hs]
      rfl
    · rw [if_neg hx, if_neg hx]
      rfl
  have hself : (D.afterWait s w sems).pc w = if x = 0 then .inWait else .print := by
    rw [hpc', Function.update_self]
  have hother : (D.afterWait s w sems).pc w.other = s.pc w.other := by
    rw [hpc', Function.update_of_ne w.other_ne]
  refine ⟨⟨ht.inv, h.prints, ?_, ?_, ?_⟩, hpc'⟩
  · refine forall_printer (w := w) ?_ ?_
    · rw [hself]
      show sems.waiting (D.tid w) = _
      rw [ht.waiting]
      by_cases hx : x = 0
      · simp only [if_pos hx, if_true]
        exact congrFun ht.slot.symm w.name
      · simp only [if_neg hx, reduceCtorEq, if_false]
    · rw [hother]
      show sems.waiting (D.tid w.other) = if _ then sems.stab.slot _ else none
      rw [ht.others _ (tid_other D w), ht.slot]
      exact h.waiting w.other
  · refine forall_printer (w := w) ?_ ?_
    · rw [hself]
      have hno : s.pc w ≠ .inPrint := by
        rcases hpc with hpc | hpc <;> rw [hpc] <;> nofun
      refine ⟨fun hj => absurd ((h.printing w).1 hj) hno, fun hp => ?_⟩
      by_cases hx : x = 0
      · rw [if_pos hx] at hp
        cases hp
      · rw [if_neg hx] at hp
        cases hp
    · rw [hother]
      exact h.printing w.other
  · refine forall_printer (w := w) ?_ ?_
    · exact ⟨le_of_lt hr, fun _ => hr⟩
    · rw [hother]
      exact h.rounds w.other

/-! ## Whose turn it is -/

/-- It is the turn of `w`: its semaphore has the value 1 until it has passed `Wait`, the other is at
0, and the other program waits. -/
structure Turn (D : Dongbo) (s : State) (w : Printer) : Prop where
  placed : Placed D s
  rounds : s.round .a = s.round .b + (if w = .a then 0 else 1)
  others : (s.pc w.other).Waits
  othersValue : HasValue s.sems w.other.name 0
  ownValue : HasValue s.sems w.name (if (s.pc w).Waits then 1 else 0)
  display : s.prints.display ++ s.prints.pending (D.tid w) = text (begun s w)

theorem text_succ (m : Nat) : text (m + 1) = text m ++ [if m % 2 = 0 then 65 else 66] := by
  rw [text, List.range_succ, List.map_append]
  rfl

theorem Turn.letter (h : Turn D s w) :
    (if (s.round .a + s.round .b) % 2 = 0 then 65 else 66) = w.letter := by
  have hr := h.rounds
  cases w with
  | a =>
    simp only [if_true, Nat.add_zero] at hr
    rw [if_pos (by omega)]
    rfl
  | b =>
    simp only [reduceCtorEq, if_false] at hr
    rw [if_neg (by omega)]
    rfl

/-- A program that is not inside `PrintString` has nothing to print. -/
theorem Placed.pending_eq_nil (h : Placed D s) (hpc : s.pc w ≠ .inPrint) : s.prints.pending (D.tid w) = [] := by
  have hjob : s.prints.job (D.tid w) = none := by
    by_contra hne
    exact hpc ((h.printing w).1 hne)
  rw [PrintState.pending, hjob]

theorem waits_ne {p : Pc} (h : p.Waits) : p ≠ .inPrint ∧ p ≠ .signal ∧ p ≠ .print := by
  rcases h with rfl | rfl
  · exact ⟨nofun, nofun, nofun⟩
  · exact ⟨nofun, nofun, nofun⟩

/-- The other program tests its semaphore, and waits. -/
theorem other_turn {sems : SemState} (h : Turn D s w) (ht : Tried s.sems sems (D.tid w.other) w.other.name 0)
    (hr : s.round w.other < D.rounds) : Turn D (D.afterWait s w.other sems) w := by
  obtain ⟨hplaced, hpc⟩ := placed_tried h.placed h.othersValue ht h.others hr
  have hself : (D.afterWait s w.other sems).pc w = s.pc w := by
    rw [hpc, Function.update_of_ne w.other_ne.symm]
  refine ⟨hplaced, h.rounds, ?_, ht.value, ?_, ?_⟩
  · rw [hpc, Function.update_self]
    exact .inr rfl
  · obtain ⟨sem, hfind, hv⟩ := h.ownValue
    rw [hself]
    exact ⟨sem, (ht.find _ w.name_other_ne.symm).trans hfind, hv⟩
  · rw [begun, hself]
    exact h.display

/-- The program whose turn it is passes `Wait`. -/
theorem own_turn {sems : SemState} (h : Turn D s w) (hpc : (s.pc w).Waits)
    (ht : Tried s.sems sems (D.tid w) w.name 1) (hr : s.round w < D.rounds) :
    Turn D (D.afterWait s w sems) w := by
  have hvalue : HasValue s.sems w.name 1 := by
    have hv := h.ownValue
    rwa [if_pos hpc] at hv
  obtain ⟨hplaced, hpc'⟩ := placed_tried h.placed hvalue ht hpc hr
  have hself : (D.afterWait s w sems).pc w = .print := by
    rw [hpc', Function.update_self]
    rfl
  refine ⟨hplaced, h.rounds, ?_, ?_, ?_, ?_⟩
  · rw [hpc', Function.update_of_ne w.other_ne]
    exact h.others
  · obtain ⟨sem, hfind, hv⟩ := h.othersValue
    exact ⟨sem, (ht.find _ w.name_other_ne).trans hfind, hv⟩
  · rw [hself]
    exact ht.value
  · obtain ⟨hp, hsig, -⟩ := waits_ne hpc
    have hdisp := h.display
    simp only [begun, hp, hsig, or_self, if_false] at hdisp
    simp only [begun, hself, reduceCtorEq, or_self, if_false]
    exact hdisp

/-- What is kept when program `w` goes on inside or around `PrintString`. -/
theorem print_placed {p : PrintState} {q : Pc} (h : Placed D s) (hinv : p.Inv)
    (hold : s.pc w = .print ∨ s.pc w = .inPrint) (hnew : q = .inPrint ∨ q = .signal)
    (hself : p.job (D.tid w) ≠ none ↔ q = .inPrint)
    (hother : p.job (D.tid w.other) = s.prints.job (D.tid w.other)) :
    Placed D { s with prints := p, pc := Function.update s.pc w q } := by
  have hwait : s.pc w ≠ .inWait ∧ q ≠ .inWait ∧ s.pc w ≠ .wait := by
    rcases hold with hold | hold <;> rcases hnew with rfl | rfl <;> rw [hold] <;> exact ⟨nofun, nofun, nofun⟩
  refine ⟨h.sems, hinv, ?_, ?_, ?_⟩
  · refine forall_printer (w := w) ?_ ?_
    · have hw := h.waiting w
      rw [if_neg hwait.1] at hw
      simp only [Function.update_self, if_neg hwait.2.1]
      exact hw
    · simp only [Function.update_of_ne w.other_ne]
      exact h.waiting w.other
  · refine forall_printer (w := w) ?_ ?_
    · simp only [Function.update_self]
      exact hself
    · simp only [Function.update_of_ne w.other_ne, hother]
      exact h.printing w.other
  · refine forall_printer (w := w) ?_ ?_
    · exact ⟨(h.rounds w).1, fun _ => (h.rounds w).2 hwait.2.2⟩
    · simp only [Function.update_of_ne w.other_ne]
      exact h.rounds w.other

theorem letter_output (w : Printer) : (PrintCall.printString (padded [w.letter])).output = [w.letter] := by
  cases w with
  | a => rfl
  | b => rfl

/-- `PrintString` begins. -/
theorem begin_turn {p : PrintState} (h : Turn D s w) (hpc : s.pc w = .print)
    (he : s.prints.step (.print (D.tid w) (.printString (padded [w.letter]))) = some p) :
    Turn D { s with prints := p, pc := Function.update s.pc w .inPrint } w := by
  have hb := PrintState.print_spec he
  have hinv := h.placed.prints
  have hplaced : Placed D { s with prints := p, pc := Function.update s.pc w .inPrint } := by
    refine print_placed h.placed (PrintState.step_inv hinv he) (.inl hpc) (.inl rfl) ?_ (hb.others _ (tid_other D w))
    rw [hb.job]
    exact ⟨fun _ => rfl, fun _ => nofun⟩
  refine ⟨hplaced, h.rounds, ?_, h.othersValue, ?_, ?_⟩
  · simp only [Function.update_of_ne w.other_ne]
    exact h.others
  · have hv := h.ownValue
    rw [hpc] at hv
    simp only [Function.update_self]
    exact hv
  · have hdisp := h.display
    rw [h.placed.pending_eq_nil (by rw [hpc]; nofun), List.append_nil] at hdisp
    simp only [begun, hpc, reduceCtorEq, or_self, if_false, Nat.add_zero] at hdisp
    simp only [begun, Function.update_self, true_or, if_true]
    rw [hb.pending_self hinv, letter_output, PrintState.display, hb.console, text_succ, h.letter, ← hdisp]
    rfl

/-- `PrintString` goes on, or returns. -/
theorem print_turn {p : PrintState} (h : Turn D s w) (hpc : s.pc w = .inPrint)
    (he : s.prints.step (.go (D.tid w)) = some p) :
    Turn D { s with
      prints := p, pc := Function.update s.pc w (if (p.job (D.tid w)).isNone then .signal else .inPrint) } w := by
  obtain ⟨j, out, hg⟩ := PrintState.go_spec he
  have hinv := h.placed.prints
  have hq : ((if (p.job (D.tid w)).isNone then Pc.signal else .inPrint) = .inPrint ∧ p.job (D.tid w) ≠ none) ∨
      ((if (p.job (D.tid w)).isNone then Pc.signal else .inPrint) = .signal ∧ p.job (D.tid w) = none) := by
    cases hjob : p.job (D.tid w) with
    | none => exact .inr ⟨rfl, rfl⟩
    | some k => exact .inl ⟨rfl, nofun⟩
  generalize (if (p.job (D.tid w)).isNone then Pc.signal else Pc.inPrint) = q at hq ⊢
  have hnew : q = .inPrint ∨ q = .signal := hq.imp And.left And.left
  have hplaced : Placed D { s with prints := p, pc := Function.update s.pc w q } := by
    refine print_placed h.placed (PrintState.step_inv hinv he) (.inr hpc) hnew ?_ (hg.others _ (tid_other D w)).1
    rcases hq with ⟨hq, hjob⟩ | ⟨rfl, hjob⟩
    · exact ⟨fun _ => hq, fun _ => hjob⟩
    · exact ⟨fun hne => absurd hjob hne, nofun⟩
  refine ⟨hplaced, h.rounds, ?_, h.othersValue, ?_, ?_⟩
  · simp only [Function.update_of_ne w.other_ne]
    exact h.others
  · have hv := h.ownValue
    rw [hpc] at hv
    simp only [Function.update_self]
    rcases hnew with rfl | rfl
    · exact hv
    · exact hv
  · have hdisp := h.display
    simp only [begun, hpc, true_or, if_true] at hdisp
    simp only [begun, Function.update_self, hnew, if_true]
    rw [← hdisp, hg.display, hg.pending, List.append_assoc]

/-- `Signal` passes the turn on. -/
theorem signal_turn {sems : SemState} (h : Turn D s w) (hpc : s.pc w = .signal)
    (he : s.sems.step (.signal (D.tid w) (D.read w) (D.others w)) = some sems) :
    Turn D { s with
      sems := sems, pc := Function.update s.pc w .wait
      round := Function.update s.round w (s.round w + 1) } w.other := by
  have hidle : s.sems.waiting (D.tid w) = none := by
    rw [h.placed.waiting w, hpc]
    rfl
  obtain ⟨hinv, hslot, hwaiting, hfind, hvalue⟩ :=
    signal_value h.placed.sems h.othersValue hidle (D.others_ne w) (D.others_string w) he
  have hrounds := h.placed.rounds w
  refine ⟨⟨hinv, h.placed.prints, ?_, ?_, ?_⟩, ?_, ?_, ?_, ?_, ?_⟩
  · refine forall_printer (w := w) ?_ ?_
    · simp only [Function.update_self, reduceCtorEq, if_false]
      rw [hwaiting, hidle]
    · simp only [Function.update_of_ne w.other_ne, hwaiting, hslot]
      exact h.placed.waiting w.other
  · refine forall_printer (w := w) ?_ ?_
    · have hp := h.placed.printing w
      rw [hpc] at hp
      simp only [Function.update_self, reduceCtorEq, iff_false] at hp ⊢
      exact hp
    · simp only [Function.update_of_ne w.other_ne]
      exact h.placed.printing w.other
  · refine forall_printer (w := w) ?_ ?_
    · simp only [Function.update_self]
      exact ⟨hrounds.2 (by rw [hpc]; nofun), fun hne => absurd rfl hne⟩
    · simp only [Function.update_of_ne w.other_ne]
      exact h.placed.rounds w.other
  · have hr := h.rounds
    cases w with
    | a => simpa [Function.update, Printer.other] using hr
    | b => simpa [Function.update, Printer.other] using hr
  · simp only [w.other_other, Function.update_self]
    exact .inl rfl
  · obtain ⟨sem, hsem, hv⟩ := h.ownValue
    rw [hpc] at hv
    rw [w.other_other]
    exact ⟨sem, (hfind _ w.name_other_ne.symm).trans hsem, hv⟩
  · simp only [Function.update_of_ne w.other_ne, if_pos h.others]
    exact hvalue
  · obtain ⟨hp, hsig, -⟩ := waits_ne h.others
    have hdisp := h.display
    rw [h.placed.pending_eq_nil (by rw [hpc]; nofun)] at hdisp
    simp only [begun, hpc, or_true, if_true] at hdisp
    simp only [begun, Function.update_of_ne w.other_ne, hp, hsig, or_self, if_false, Nat.add_zero]
    rw [h.placed.pending_eq_nil hp, hdisp]
    congr 1
    cases w with
    | a =>
      simp only [Function.update_self, Function.update_of_ne (show Printer.b ≠ .a by nofun)]
      omega
    | b =>
      simp only [Function.update_self, Function.update_of_ne (show Printer.a ≠ .b by nofun)]
      omega

/-- A program at `Wait`, or inside, tests its semaphore. -/
theorem go_tried {x : Word} (h : Placed D s) (hv : HasValue s.sems v.name x) (hpc : (s.pc v).Waits)
    (he : D.go s v = some s') :
    ∃ sems, s' = D.afterWait s v sems ∧ Tried s.sems sems (D.tid v) v.name x ∧ s.round v < D.rounds := by
  have hw := h.waiting v
  unfold go at he
  rcases hpc with hpc | hpc
  · rw [hpc] at he hw
    simp only at he
    split at he
    · rename_i hr
      obtain ⟨sems, hstep, rfl⟩ := Option.map_eq_some_iff.1 he
      exact ⟨sems, rfl, wait_tried h.sems hv hw (D.own_ne v) (D.own_string v) hstep, hr⟩
    · cases he
  · rw [hpc] at he hw
    obtain ⟨sems, hstep, rfl⟩ := Option.map_eq_some_iff.1 he
    exact ⟨sems, rfl, resume_tried h.sems hv hw hstep, (h.rounds v).2 (by rw [hpc]; nofun)⟩

/-- A step of either program. -/
theorem go_turn (h : Turn D s w) (he : D.go s v = some s') : ∃ w', Turn D s' w' := by
  rcases Printer.eq_or_other v w with rfl | rfl
  · by_cases hpc : (s.pc v).Waits
    · have hv := h.ownValue
      rw [if_pos hpc] at hv
      obtain ⟨sems, rfl, ht, hr⟩ := go_tried h.placed hv hpc he
      exact ⟨v, own_turn h hpc ht hr⟩
    · unfold go at he
      cases hp : s.pc v with
      | wait => exact absurd (.inl hp) hpc
      | inWait => exact absurd (.inr hp) hpc
      | print =>
        rw [hp] at he
        obtain ⟨p, hstep, rfl⟩ := Option.map_eq_some_iff.1 he
        exact ⟨v, begin_turn h hp hstep⟩
      | inPrint =>
        rw [hp] at he
        obtain ⟨p, hstep, rfl⟩ := Option.map_eq_some_iff.1 he
        exact ⟨v, print_turn h hp hstep⟩
      | signal =>
        rw [hp] at he
        obtain ⟨sems, hstep, rfl⟩ := Option.map_eq_some_iff.1 he
        exact ⟨v.other, signal_turn h hp hstep⟩
  · obtain ⟨sems, rfl, ht, hr⟩ := go_tried h.placed h.othersValue h.others he
    exact ⟨w, other_turn h ht hr⟩

/-- **Every step.** -/
theorem step_turn {e : Event} (h : Turn D s w) (he : D.step s e = some s') : ∃ w', Turn D s' w' := by
  cases e with
  | go v => exact go_turn h he
  | writeDone =>
    obtain ⟨p, hstep, rfl⟩ := Option.map_eq_some_iff.1 he
    obtain ⟨hjob, -, -, -, hdisp, hplace⟩ := PrintState.writeDone_spec hstep
    have hpend : p.pending (D.tid w) = s.prints.pending (D.tid w) :=
      PrintState.pending_congr (by rw [hjob]) (by rw [hplace])
    have hplaced : Placed D { s with prints := p } := by
      refine ⟨h.placed.sems, PrintState.step_inv h.placed.prints hstep, h.placed.waiting, ?_, h.placed.rounds⟩
      simp only [hjob]
      exact h.placed.printing
    refine ⟨w, hplaced, h.rounds, h.others, h.othersValue, h.ownValue, ?_⟩
    show p.display ++ p.pending (D.tid w) = _
    rw [hdisp, hpend]
    exact h.display

theorem created_turn (h : D.Created s) : Turn D s .a := by
  refine ⟨⟨SemState.reachable_inv h.sems, ?_, ?_, ?_, ?_⟩, ?_, .inl (h.pc _), ⟨_, h.b, rfl⟩, ?_, ?_⟩
  · rw [h.prints]
    exact PrintState.start_inv
  · intro w
    rw [h.outside w, h.pc w]
    rfl
  · intro w
    rw [h.prints, h.pc w]
    exact ⟨fun hne => absurd rfl hne, nofun⟩
  · intro w
    rw [h.round w, h.pc w]
    exact ⟨Nat.zero_le _, fun hne => absurd rfl hne⟩
  · rw [h.round, h.round]
    rfl
  · rw [h.pc]
    exact ⟨_, h.a, rfl⟩
  · rw [begun, h.prints, h.round, h.round, h.pc]
    rfl

theorem reachable_turn (h : D.system.Reachable s) : ∃ w, Turn D s w := by
  refine h.invariant (I := fun s => ∃ w, Turn D s w) ?_ ?_
  · exact fun s hs => ⟨.a, created_turn hs⟩
  · rintro s e s' - ⟨w, hw⟩ he
    exact step_turn hw he

theorem text_prefix {m n : Nat} (h : m ≤ n) : text m <+: text n := by
  obtain ⟨k, rfl⟩ := Nat.exists_eq_add_of_le h
  rw [text, text, List.range_add, List.map_append]
  exact List.prefix_append _ _

theorem text_eq (n : Nat) : text (2 * n) = (List.replicate n [65, 66]).flatten := by
  induction n with
  | zero => rfl
  | succ n ih =>
    rw [show 2 * (n + 1) = 2 * n + 1 + 1 from rfl, text_succ, text_succ, if_pos (by omega), if_neg (by omega), ih,
      List.replicate_succ', List.flatten_append, List.append_assoc]
    rfl

theorem Turn.begun_le (h : Turn D s w) : begun s w ≤ 2 * D.rounds := by
  have ha := h.placed.rounds .a
  have hb := h.placed.rounds .b
  have hw := h.placed.rounds w
  unfold begun
  split
  · rename_i hpc
    have hlt := hw.2 (by rcases hpc with hpc | hpc <;> rw [hpc] <;> nofun)
    cases w with
    | a => omega
    | b => omega
  · omega

end Dongbo

/-- **Named semaphores give strict alternation**: whatever the number of rounds, the threads and the
interleaving, the display shows a prefix of (AB)^n. -/
theorem output_alternates {D : Dongbo} {s : Dongbo.State} (h : D.system.Reachable s) :
    s.prints.display <+: (List.replicate D.rounds [65, 66]).flatten := by
  obtain ⟨w, hw⟩ := Dongbo.reachable_turn h
  calc s.prints.display
    _ <+: s.prints.display ++ s.prints.pending (D.tid w) := List.prefix_append _ _
    _ = Dongbo.text (Dongbo.begun s w) := hw.display
    _ <+: Dongbo.text (2 * D.rounds) := Dongbo.text_prefix hw.begun_le
    _ = (List.replicate D.rounds [65, 66]).flatten := Dongbo.text_eq D.rounds

namespace Dongbo

/-- A memory with the strings "a" at 4 and "b" at 8. -/
def names (x : Word) : Option Byte := if x = 4 then some 97 else if x = 8 then some 98 else some 0

theorem names_string {name : Word} {c : Byte} (h0 : names name = some c) (h1 : names (name + 1) = some 0)
    (hc : c ≠ 0) : SemState.HasString names name [c] := by
  refine ⟨padded [c], ?_, Stable.str_name ⟨by simpa using hc, by simp⟩⟩
  intro i _ hnz
  match i with
  | 0 => simpa [padded] using h0
  | 1 => simpa [padded] using h1
  | i + 2 => exact absurd rfl (hnz 1 (by omega))

/-- One round of each program. -/
def oneRound : Dongbo where
  rounds := 1
  tid := fun w => match w with
    | .a => 1
    | .b => 2
  read := fun _ => names
  own := fun w => match w with
    | .a => 4
    | .b => 8
  others := fun w => match w with
    | .a => 8
    | .b => 4
  tid_ne := by decide
  own_ne := by
    intro w
    cases w <;> decide
  others_ne := by
    intro w
    cases w <;> decide
  own_string := by
    intro w
    cases w with
    | a => exact names_string rfl rfl (by decide)
    | b => exact names_string rfl rfl (by decide)
  others_string := by
    intro w
    cases w with
    | a => exact names_string rfl rfl (by decide)
    | b => exact names_string rfl rfl (by decide)

/-- What `print_dongbo` does before it starts the two processes. -/
def creates : List SemState.SemCall := [.createSem 0 names 4 1, .createSem 0 names 8 0]

/-- `printb` waits first; it is woken by the `Signal` of `printa`. -/
def oneRoundRun : List Event :=
  [.go .b, .go .a, .go .a, .go .a, .go .a, .go .a, .go .a, .writeDone, .go .a, .go .a, .go .a, .go .a,
    .go .b, .go .b, .go .b, .go .b, .go .b]

end Dongbo

open Dongbo in
theorem output_alternates_oneRound : ∃ s : Dongbo.State, s.prints.display = [65, 66] ∧
    s.prints.display <+: (List.replicate 1 [65, 66]).flatten := by
  have hcreate : ∃ sems, SemState.system.run SemState.start creates = some sems ∧
      sems.stab.find Printer.a.name = some ⟨1, []⟩ ∧ sems.stab.find Printer.b.name = some ⟨0, []⟩ ∧
      (oneRound.system.run ⟨sems, PrintState.start, fun _ => .wait, fun _ => 0⟩ oneRoundRun).map
        (fun s => s.prints.display) = some [65, 66] ∧ ∀ w, sems.waiting (oneRound.tid w) = none := by
    refine ⟨_, rfl, by decide, by decide, by decide +kernel, ?_⟩
    intro w
    cases w <;> rfl
  obtain ⟨sems, hsems, ha, hb, hrun, hidle⟩ := hcreate
  obtain ⟨s, hs, hdisp⟩ := Option.map_eq_some_iff.1 hrun
  have hinit : oneRound.Created ⟨sems, PrintState.start, fun _ => .wait, fun _ => 0⟩ :=
    ⟨System.reachable_of_run creates ⟨0, rfl⟩ hsems, ha, hb, hidle, rfl, fun _ => rfl, fun _ => rfl⟩
  exact ⟨s, hdisp, output_alternates (System.reachable_of_run (S := oneRound.system) oneRoundRun hinit hs)⟩

end Nachos
