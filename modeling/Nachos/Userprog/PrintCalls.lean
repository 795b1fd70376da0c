import Nachos.Lib.Tagged
import Nachos.Threads.SynchConsole
import Nachos.Userprog.Exception

/-!
# The print system calls

`PrintString`, `PrintInt` and `PrintChar` of `userprog/exception.cc`, made by any number of
processes.  The line lock is held by one `SynchConsole::Write`, and a call makes as many of them as
`PrintCall.writes` says; between two of them the thread holds nothing.

`running` is the thread that is inside a print call and has not gone to sleep since; a thread that is
not preempted is switched only when there is none.  `trace` is history: every byte of the display with
the number of the call that wrote it.

* `printString_eq`, `printInt_eq`, `printChar_eq` — the handler makes these calls of `Write`.
* `go_spec`, `step_inv` — what a step of a thread inside a print call does, and what every step keeps.
* `step_calm` — what it keeps while nobody prints between two `Write`s of another.
* `print_output_contiguous` — every run in which threads are switched when they block.
* `fitting_output_contiguous` — with preemption, every run of calls that fit.
-/

set_option autoImplicit false

namespace Nachos

open CString Partial Tagged Transition

/-- A call, with what it prints; `buf` is what `User2System` returned. -/
inductive PrintCall where
  | printString (buf : Nat → Byte)
  | printInt (n : Word)
  | printChar (ch : Word)

namespace PrintCall

/-- The digits of `n` as `SC_PrintInt` leaves them in `s`. -/
def digitsOf (n : Word) : List Byte :=
  let s := Exception.intDigits MAX_INT_LENGTH n
  Exception.reverseLoop s.length (s.length / 2) s.length s

/-- The buffers that the handler passes to `gSynchConsole->Write`. -/
def writes : PrintCall → List (List Byte)
  | printString buf => (str buf 0 (LIMIT + 1)).map (fun c => [c])
  | printInt n => if n.toInt < 0 then [[45], digitsOf (-n)] else [digitsOf n]
  | printChar ch => [[ch.setWidth 8]]

/-- What the call prints. -/
def output (c : PrintCall) : List Byte := c.writes.flatten

end PrintCall

section Handler

variable {κ : Type} (S : Services κ) {k : κ}

/-- The calls of `Write`, one after the other. -/
def consoleWrites (k : κ) (ws : List (List Byte)) : Except Stop κ := ws.foldlM S.consoleWrite k

theorem consoleWrites_cons (w : List Byte) (ws : List (List Byte)) :
    consoleWrites S k (w :: ws) = S.consoleWrite k w >>= fun k => consoleWrites S k ws := rfl

theorem printString_eq {bufAddr : Word} {buf : Nat → Byte} {k' : κ}
    (h : Exception.userString S k bufAddr (BitVec.ofNat 32 LIMIT) = .ok (buf, k')) :
    Exception.printString S k bufAddr =
      (consoleWrites S k' (PrintCall.printString buf).writes >>= fun k => .ok (none, k)) := by
  rw [Exception.printString, h]
  simp only [ok_bind, consoleWrites, PrintCall.writes, Exception.writeChars, List.foldlM_map]

theorem printChar_eq (ch : Word) :
    Exception.printChar S k ch =
      (consoleWrites S k (PrintCall.printChar ch).writes >>= fun k => .ok (none, k)) := by
  rw [PrintCall.writes, consoleWrites_cons, bind_assoc]
  rfl

/-- With less than ten digits nothing is stored outside of `s`. -/
theorem printInt_eq {n : Word}
    (h : (Exception.intDigits MAX_INT_LENGTH (if n.toInt < 0 then -n else n)).length < MAX_INT_LENGTH) :
    Exception.printInt S k n =
      (consoleWrites S k (PrintCall.printInt n).writes >>= fun k => .ok (none, k)) := by
  rw [Exception.printInt, Exception.printSign, PrintCall.writes]
  by_cases hneg : n.toInt < 0
  · rw [if_pos hneg] at h
    rw [if_pos hneg, if_pos hneg, consoleWrites_cons, bind_assoc]
    cases S.consoleWrite k [45] with
    | error e => rfl
    | ok k' =>
      rw [ok_bind, consoleWrites_cons, bind_assoc]
      exact if_neg (Nat.not_le.2 h)
  · rw [if_neg hneg] at h
    rw [if_neg hneg, if_neg hneg, consoleWrites_cons, bind_assoc]
    exact if_neg (Nat.not_le.2 h)

end Handler

/-! ## The processes -/

/-- A print call in progress; `todo` are the calls of `Write` it has not made yet. -/
structure Job where
  number : Nat
  call : PrintCall
  todo : List (List Byte)

structure PrintState where
  console : Serial ConsoleOut WriteCall
  job : Tid → Option Job
  running : Option Tid
  issued : List PrintCall
  trace : List (Nat × Byte)

inductive PrintEvent where
  | print (t : Tid) (c : PrintCall)
  | go (t : Tid)
  | writeDone

namespace PrintState

def display (s : PrintState) : List Byte := s.console.shared.display

/-- Nobody has printed anything. -/
def start : PrintState := ⟨Serial.init ConsoleOut.start, fun _ => none, none, [], []⟩

/-- Thread `t` sleeps in `WLineBlock->P()` or in `synchWriteAvail->P()`. -/
def asleep (c : Serial ConsoleOut WriteCall) (t : Tid) : Bool :=
  match c.place t with
  | .outside => false
  | .waiting _ => decide (t ∈ c.lock.queue)
  | .inside a => a.inP && decide (t ∈ c.shared.synchWriteAvail.queue)

/-- A thread that is inside a print call goes on: with `Write`, with the next `Write`, or back to
its program. -/
def go (s : PrintState) (t : Tid) : Option PrintState := do
  let j ← s.job t
  match s.console.place t, j.todo with
  | .outside, [] => some { s with job := Function.update s.job t none, running := none }
  | .outside, w :: ws => do
    let console ← Serial.step WriteCall.routine s.console (.call t w)
    some { s with
      console := console, job := Function.update s.job t (some { j with todo := ws }), running := some t }
  | _, _ => do
    let console ← Serial.step WriteCall.routine s.console (.go t)
    let new := console.shared.display.drop s.display.length
    some { s with
      console := console, running := if asleep console t then none else some t
      trace := s.trace ++ new.map (fun b => (j.number, b)) }

def step (s : PrintState) : PrintEvent → Option PrintState
  | .print t c =>
      if (s.job t).isNone then
        some { s with
          job := Function.update s.job t (some ⟨s.issued.length, c, c.writes⟩), running := some t
          issued := s.issued ++ [c] }
      else
        none
  | .go t => s.go t
  | .writeDone => (Serial.step WriteCall.routine s.console (.device ())).map (fun c => { s with console := c })

def system : System PrintState PrintEvent where
  init := fun s => s = start
  step := step

/-- The thread of the event runs already, or the one that ran has blocked or is back in its program. -/
def SwitchesWhenBlocked (s : PrintState) : PrintEvent → Prop
  | .print t _ => s.running = none ∨ s.running = some t
  | .go t => s.running = none ∨ s.running = some t
  | .writeDone => True

instance : (s : PrintState) → (e : PrintEvent) → Decidable (SwitchesWhenBlocked s e)
  | s, .print t _ => inferInstanceAs (Decidable (s.running = none ∨ s.running = some t))
  | s, .go t => inferInstanceAs (Decidable (s.running = none ∨ s.running = some t))
  | _, .writeDone => inferInstanceAs (Decidable True)

end PrintState

/-! ## One step -/

/-- What a call of `Write` has still to put on the display. -/
def WriteCall.left (a : WriteCall) : List Byte := a.buffer.drop (a.loop + a.inP.toNat)

namespace PrintState

variable {s s' : PrintState} {t : Tid}

def leftAt : Serial.Place WriteCall → List Byte
  | .outside => []
  | .waiting a => a.left
  | .inside a => a.left

/-- A step of the body of `Write` puts out at most the next byte. -/
theorem body_left {a a' : WriteCall} {c c' : ConsoleOut} (h : a.body t c = some (c', a')) :
    ∃ out, c'.display = c.display ++ out ∧ a.left = out ++ a'.left := by
  unfold WriteCall.body at h
  split at h
  · rename_i hin
    split at h
    · cases h
    · split at h
      · cases h
        exact ⟨[], (List.append_nil _).symm, by simp [WriteCall.left, hin]⟩
      · cases h
        exact ⟨[], (List.append_nil _).symm, rfl⟩
  · rename_i hin
    obtain ⟨ch, hch, h⟩ := Option.bind_eq_some_iff.1 h
    obtain ⟨c1, hput, h⟩ := Option.bind_eq_some_iff.1 h
    cases h
    unfold ConsoleOut.putChar at hput
    split at hput
    · cases hput
    · cases hput
      obtain ⟨hlt, hget⟩ := List.getElem?_eq_some_iff.1 hch
      refine ⟨[ch], rfl, ?_⟩
      simp [WriteCall.left, hin, ← hget]

/-- A step of a thread inside `Write`. -/
theorem write_go {c c' : Serial ConsoleOut WriteCall} (h : Serial.go WriteCall.routine c t = some c') :
    c.place t ≠ .outside ∧ (∀ u, u ≠ t → c'.place u = c.place u) ∧
    ((c.place t).isInside = true → (c'.place t).isInside = true ∨ c'.place t = .outside) ∧
    ((c.place t).isInside = false → (c'.place t).isInside = true ∨ c.lock.value = 0) ∧
    ∃ out, c'.shared.display = c.shared.display ++ out ∧ leftAt (c.place t) = out ++ leftAt (c'.place t) ∧
      (out = [] ∨ (c.place t).isInside = true ∧ (c'.place t).isInside = true) := by
  have hin : ∀ a, (Function.update c.place t (.inside a) t).isInside = true := by
    intro a
    rw [Function.update_self]
    rfl
  unfold Serial.go at h
  cases hp : c.place t with
  | outside =>
    rw [hp] at h
    cases h
  | waiting a =>
    rw [hp] at h
    simp only at h
    split at h
    · cases h
    · by_cases hz : c.lock.value = 0
      · rw [Semaphore.p_zero hz] at h
        cases h
        refine ⟨by simp, fun u hu => rfl, by simp [Serial.Place.isInside], fun _ => .inr hz, [],
          (List.append_nil _).symm, ?_, .inl rfl⟩
        simp [leftAt, hp]
      · rw [Semaphore.p_pos hz] at h
        cases h
        refine ⟨by simp, fun u hu => Function.update_of_ne hu _ _, by simp [Serial.Place.isInside],
          fun _ => .inl (hin a), [], (List.append_nil _).symm, ?_, .inl rfl⟩
        simp [leftAt]
  | inside a =>
    rw [hp] at h
    simp only at h
    split at h
    · rename_i hdone
      cases h
      simp only [WriteCall.routine, Bool.and_eq_true, Bool.not_eq_true', decide_eq_true_eq] at hdone
      refine ⟨by simp, fun u hu => Function.update_of_ne hu _ _, fun _ => .inr (Function.update_self _ _ _),
        by simp [Serial.Place.isInside], [], (List.append_nil _).symm, ?_, .inl rfl⟩
      simp [leftAt, WriteCall.left, hdone.1, hdone.2]
    · obtain ⟨⟨d', a'⟩, hbody, rfl⟩ := Option.map_eq_some_iff.1 h
      obtain ⟨out, hdisp, hleft⟩ := body_left hbody
      refine ⟨by simp, fun u hu => Function.update_of_ne hu _ _, fun _ => .inl (hin a'),
        by simp [Serial.Place.isInside], out, hdisp, ?_, .inr ⟨rfl, hin a'⟩⟩
      simpa [leftAt] using hleft

/-- What a thread has still to print. -/
def pending (s : PrintState) (t : Tid) : List Byte :=
  match s.job t with
  | none => []
  | some j => leftAt (s.console.place t) ++ j.todo.flatten

theorem pending_congr (hjob : s'.job t = s.job t) (hplace : s'.console.place t = s.console.place t) :
    s'.pending t = s.pending t := by
  rw [pending, hjob, hplace]
  rfl

/-- The calls of `Write` that a thread has not finished. -/
def writesLeft (s : PrintState) (t : Tid) : Nat :=
  match s.job t with
  | none => 0
  | some j => j.todo.length + if s.console.place t matches .outside then 0 else 1

theorem writesLeft_congr (hjob : s'.job t = s.job t) (hplace : s'.console.place t = s.console.place t) :
    s'.writesLeft t = s.writesLeft t := by
  rw [writesLeft, hjob, hplace]
  rfl

/-- What a step of thread `t` with job `j` does: `out` is what it prints. -/
structure Goes (s s' : PrintState) (t : Tid) (j : Job) (out : List Byte) : Prop where
  job : s.job t = some j
  issued : s'.issued = s.issued
  display : s'.display = s.display ++ out
  trace : s'.trace = s.trace ++ out.map (fun b => (j.number, b))
  pending : s.pending t = out ++ s'.pending t
  after : (s'.job t = none ∧ s'.console.place t = .outside ∧ s.pending t = []) ∨
    ∃ todo, s'.job t = some { j with todo := todo }
  others : ∀ u, u ≠ t → s'.job u = s.job u ∧ s'.console.place u = s.console.place u
  inside : out = [] ∨ (s.console.place t).isInside = true ∧ (s'.console.place t).isInside = true
  leaves : (s.console.place t).isInside = true → s'.job t = s.job t ∧
    ((s'.console.place t).isInside = true ∨ s'.console.place t = .outside)
  writesLeft : s'.writesLeft t ≤ s.writesLeft t
  running : s'.job t ≠ none → (s'.console.place t).isInside = false → s'.running = some t ∨
    (s.console.place t).isInside = false ∧ s.console.lock.value = 0

theorem go_spec (h : s.go t = some s') : ∃ j out, Goes s s' t j out := by
  unfold go at h
  obtain ⟨j, hj, h⟩ := Option.bind_eq_some_iff.1 h
  split at h
  · rename_i hplace htodo
    cases h
    have hpend : s.pending t = [] := by simp [PrintState.pending, hj, hplace, leftAt, htodo]
    have hjob : Function.update s.job t none t = none := Function.update_self _ _ _
    refine ⟨j, [], hj, rfl, (List.append_nil _).symm, (List.append_nil _).symm, ?_, .inl ⟨hjob, hplace, hpend⟩, ?_,
      .inl rfl, ?_, ?_, fun hne => absurd hjob hne⟩
    · rw [hpend]
      simp [PrintState.pending]
    · exact fun u hu => ⟨Function.update_of_ne hu _ _, rfl⟩
    · rw [hplace]
      exact nofun
    · simp [PrintState.writesLeft]
  · rename_i w ws hplace htodo
    obtain ⟨c, hc, h⟩ := Option.bind_eq_some_iff.1 h
    cases h
    simp only [Serial.step, hplace, if_true] at hc
    cases hc
    refine ⟨j, [], hj, rfl, (List.append_nil _).symm, (List.append_nil _).symm, ?_, .inr ⟨ws, ?_⟩, ?_, .inl rfl,
      ?_, ?_, fun _ _ => .inl rfl⟩
    · simp [PrintState.pending, hj, hplace, leftAt, htodo, WriteCall.left, WriteCall.routine]
    · exact Function.update_self _ _ _
    · exact fun u hu => ⟨Function.update_of_ne hu _ _, Function.update_of_ne hu _ _⟩
    · rw [hplace]
      exact nofun
    · simp [PrintState.writesLeft, hj, hplace, htodo]
  · obtain ⟨c, hc, h⟩ := Option.bind_eq_some_iff.1 h
    cases h
    obtain ⟨hne, hothers, hleaves, henters, out, hdisp, hleft, hin⟩ := write_go hc
    have hnew : c.shared.display.drop s.display.length = out := by
      rw [hdisp]
      exact List.drop_left
    refine ⟨j, out, hj, rfl, hdisp, by rw [hnew], ?_, .inr ⟨j.todo, hj⟩, fun u hu => ⟨rfl, hothers u hu⟩, hin,
      fun hp => ⟨rfl, hleaves hp⟩, ?_, ?_⟩
    · simp only [PrintState.pending, hj]
      rw [hleft, List.append_assoc]
    · simp only [PrintState.writesLeft, hj]
      have hbusy : ∀ p : Serial.Place WriteCall, (if p matches .outside then 0 else 1) ≤ 1 := by
        intro p
        split
        · exact Nat.zero_le _
        · exact Nat.le_refl _
      cases hp : s.console.place t with
      | outside => exact absurd hp hne
      | waiting a => exact Nat.add_le_add_left (hbusy _) _
      | inside a => exact Nat.add_le_add_left (hbusy _) _
    · intro _ hout
      cases hp : (s.console.place t).isInside with
      | true =>
        -- it has left `Write`, and does not sleep
        have hplace := (hleaves hp).resolve_left (by simp [hout])
        refine .inl ?_
        simp [asleep, hplace]
      | false => exact .inr ⟨rfl, (henters hp).resolve_left (by simp [hout])⟩

/-- What the start of a call does. -/
structure Begins (s s' : PrintState) (t : Tid) (c : PrintCall) : Prop where
  free : s.job t = none
  job : s'.job t = some ⟨s.issued.length, c, c.writes⟩
  others : ∀ u, u ≠ t → s'.job u = s.job u
  console : s'.console = s.console
  running : s'.running = some t
  issued : s'.issued = s.issued ++ [c]
  trace : s'.trace = s.trace

theorem print_spec {c : PrintCall} (h : step s (.print t c) = some s') : Begins s s' t c := by
  simp only [step] at h
  split at h
  · rename_i hfree
    cases h
    exact ⟨Option.isNone_iff_eq_none.1 hfree, Function.update_self _ _ _,
      fun u hu => Function.update_of_ne hu _ _, rfl, rfl, rfl, rfl⟩
  · cases h

/-- The interrupt prints nothing. -/
theorem writeDone_spec (h : step s .writeDone = some s') :
    s'.job = s.job ∧ s'.running = s.running ∧ s'.issued = s.issued ∧ s'.trace = s.trace ∧
      s'.display = s.display ∧ s'.console.place = s.console.place := by
  obtain ⟨c, hc, rfl⟩ := Option.map_eq_some_iff.1 h
  obtain ⟨d, hd, rfl⟩ := Option.map_eq_some_iff.1 hc
  refine ⟨rfl, rfl, rfl, rfl, ?_, rfl⟩
  change s.console.shared.writeDone = some d at hd
  unfold ConsoleOut.writeDone at hd
  split at hd
  · cases hd
  · cases hd
    rfl

/-! ## Every run -/

/-- What a call has printed and what it has still to print make its output. -/
structure Inv (s : PrintState) : Prop where
  serial : Serial.Serialised WriteCall.routine ConsoleOut.Emitted s.console
  outside : ∀ t, s.job t = none → s.console.place t = .outside
  number : ∀ t j, s.job t = some j → s.issued[j.number]? = some j.call
  distinct : ∀ t u j k, s.job t = some j → s.job u = some k → j.number = k.number → t = u
  progress : ∀ t j, s.job t = some j → ofTag j.number s.trace ++ s.pending t = j.call.output
  finished : ∀ i c, s.issued[i]? = some c → (∀ t j, s.job t = some j → j.number ≠ i) → ofTag i s.trace = c.output
  fresh : ∀ i, s.issued.length ≤ i → ofTag i s.trace = []
  display : s.trace.map Prod.snd = s.display
  writesLeft : ∀ t j, s.job t = some j → s.writesLeft t ≤ j.call.writes.length
  between : ∀ t j, s.job t = some j → j.call.writes.length ≤ 1 → (s.console.place t).isInside = false →
    ofTag j.number s.trace = [] ∨ s.pending t = []

theorem go_serial (h : Serial.Serialised WriteCall.routine ConsoleOut.Emitted s.console) (he : s.go t = some s') :
    Serial.Serialised WriteCall.routine ConsoleOut.Emitted s'.console := by
  unfold go at he
  obtain ⟨j, -, he⟩ := Option.bind_eq_some_iff.1 he
  split at he
  · cases he
    exact h
  · obtain ⟨c, hc, he⟩ := Option.bind_eq_some_iff.1 he
    cases he
    exact Serial.step_serialised ConsoleOut.write_rule h hc
  · obtain ⟨c, hc, he⟩ := Option.bind_eq_some_iff.1 he
    cases he
    exact Serial.step_serialised ConsoleOut.write_rule h hc

variable {j : Job} {out : List Byte}

/-- The jobs after a step are the jobs before it, but for the calls of `Write` made. -/
theorem Goes.job_after (hg : Goes s s' t j out) {u : Tid} {k : Job} (hk : s'.job u = some k) :
    ∃ k0, s.job u = some k0 ∧ k.number = k0.number ∧ k.call = k0.call := by
  rcases eq_or_ne u t with rfl | hne
  · rcases hg.after with ⟨hnone, -⟩ | ⟨todo, htodo⟩
    · rw [hnone] at hk
      cases hk
    · rw [htodo] at hk
      cases hk
      exact ⟨j, hg.job, rfl, rfl⟩
  · rw [(hg.others u hne).1] at hk
    exact ⟨k, hk, rfl, rfl⟩

theorem Goes.ofTag_self (hg : Goes s s' t j out) : ofTag j.number s'.trace = ofTag j.number s.trace ++ out := by
  rw [hg.trace, ofTag_append, ofTag_map_self]

theorem Goes.ofTag_other (hg : Goes s s' t j out) {i : Nat} (hi : j.number ≠ i) :
    ofTag i s'.trace = ofTag i s.trace := by
  rw [hg.trace, ofTag_append, ofTag_map_of_ne hi, List.append_nil]

/-- Another thread that is inside a print call. -/
theorem Goes.other_job (hg : Goes s s' t j out) (h : Inv s) {u : Tid} {k : Job} (hne : u ≠ t)
    (hk : s'.job u = some k) : s.job u = some k ∧ s'.console.place u = s.console.place u ∧
      s'.pending u = s.pending u ∧ s'.writesLeft u = s.writesLeft u ∧
      ofTag k.number s'.trace = ofTag k.number s.trace := by
  obtain ⟨hjob, hplace⟩ := hg.others u hne
  have hk' := hk
  rw [hjob] at hk'
  refine ⟨hk', hplace, pending_congr hjob hplace, writesLeft_congr hjob hplace, hg.ofTag_other ?_⟩
  intro heq
  exact hne (h.distinct u t k j hk' hg.job heq.symm)

/-- A call with one `Write` that is not inside of it has not begun, or has printed everything. -/
theorem go_between (h : Inv s) (hg : Goes s s' t j out) {k : Job} (hk : s'.job t = some k)
    (hone : j.call.writes.length ≤ 1) (hout : (s'.console.place t).isInside = false) :
    ofTag j.number s'.trace = [] ∨ s'.pending t = [] := by
  by_cases hin : (s.console.place t).isInside = true
  · obtain ⟨hjob, hplace⟩ := hg.leaves hin
    replace hplace : s'.console.place t = .outside := by
      rcases hplace with hin' | hplace
      · rw [hin'] at hout
        cases hout
      · exact hplace
    rw [hk, hg.job] at hjob
    cases hjob
    -- it was inside its only `Write`
    have hbusy : j.todo.length + 1 ≤ 1 := by
      have hleft := h.writesLeft t j hg.job
      cases hp : s.console.place t with
      | outside | waiting a =>
        rw [hp] at hin
        cases hin
      | inside a =>
        simp only [PrintState.writesLeft, hg.job, hp] at hleft
        exact le_trans hleft hone
    have htodo : j.todo = [] := List.eq_nil_of_length_eq_zero (by omega)
    refine .inr ?_
    simp [PrintState.pending, hk, hplace, leftAt, htodo]
  · have hnil : out = [] := by
      rcases hg.inside with hnil | ⟨hin', -⟩
      · exact hnil
      · exact absurd hin' hin
    rw [hg.ofTag_self, hnil, List.append_nil]
    have hpend := hg.pending
    rw [hnil, List.nil_append] at hpend
    rw [← hpend]
    exact h.between t j hg.job hone (by simpa using hin)

theorem go_inv (h : Inv s) (hg : Goes s s' t j out)
    (hserial : Serial.Serialised WriteCall.routine ConsoleOut.Emitted s'.console) : Inv s' := by
  refine ⟨hserial, ?_, ?_, ?_, ?_, ?_, ?_, ?_, ?_, ?_⟩
  · intro u hu
    rcases eq_or_ne u t with rfl | hne
    · rcases hg.after with ⟨-, hplace, -⟩ | ⟨todo, hjob⟩
      · exact hplace
      · rw [hjob] at hu
        cases hu
    · obtain ⟨hjob, hplace⟩ := hg.others u hne
      rw [hplace]
      exact h.outside u (hjob ▸ hu)
  · intro u k hk
    obtain ⟨k0, hk0, hnum, hcall⟩ := hg.job_after hk
    rw [hg.issued, hnum, hcall]
    exact h.number u k0 hk0
  · intro u v k l hk hl heq
    obtain ⟨k0, hk0, hknum, -⟩ := hg.job_after hk
    obtain ⟨l0, hl0, hlnum, -⟩ := hg.job_after hl
    exact h.distinct u v k0 l0 hk0 hl0 (by rw [← hknum, ← hlnum, heq])
  · intro u k hk
    rcases eq_or_ne u t with rfl | hne
    · obtain ⟨k0, hk0, hnum, hcall⟩ := hg.job_after hk
      rw [hg.job] at hk0
      cases hk0
      rw [hnum, hcall, hg.ofTag_self, List.append_assoc, ← hg.pending]
      exact h.progress u j hg.job
    · obtain ⟨hk0, -, hpend, -, htag⟩ := hg.other_job h hne hk
      rw [hpend, htag]
      exact h.progress u k hk0
  · intro i c hc hfree
    rw [hg.issued] at hc
    by_cases hi : j.number = i
    · subst hi
      -- the call is over: nothing was pending
      rcases hg.after with ⟨-, -, hpend⟩ | ⟨todo, hjob⟩
      · have hnum := h.number t j hg.job
        rw [hc] at hnum
        cases hnum
        have hout : out = [] := (List.append_eq_nil_iff.1 (hg.pending.symm.trans hpend)).1
        have hprog := h.progress t j hg.job
        rw [hpend, List.append_nil] at hprog
        rw [hg.ofTag_self, hout, List.append_nil, hprog]
      · exact absurd rfl (hfree t { j with todo := todo } hjob)
    · rw [hg.ofTag_other hi]
      apply h.finished i c hc
      intro u k hk
      rcases eq_or_ne u t with rfl | hne
      · rw [hg.job] at hk
        cases hk
        exact hi
      · rw [← (hg.others u hne).1] at hk
        exact hfree u k hk
  · intro i hi
    rw [hg.issued] at hi
    have hlt := (List.getElem?_eq_some_iff.1 (h.number t j hg.job)).1
    rw [hg.ofTag_other (by omega)]
    exact h.fresh i hi
  · rw [hg.trace, hg.display, List.map_append, h.display, List.map_map]
    congr 1
    exact List.map_id _
  · intro u k hk
    rcases eq_or_ne u t with rfl | hne
    · obtain ⟨k0, hk0, -, hcall⟩ := hg.job_after hk
      rw [hg.job] at hk0
      cases hk0
      rw [hcall]
      exact le_trans hg.writesLeft (h.writesLeft u j hg.job)
    · obtain ⟨hk0, -, -, hleft, -⟩ := hg.other_job h hne hk
      rw [hleft]
      exact h.writesLeft u k hk0
  · intro u k hk hone hout
    rcases eq_or_ne u t with rfl | hne
    · obtain ⟨k0, hk0, hnum, hcall⟩ := hg.job_after hk
      rw [hg.job] at hk0
      cases hk0
      rw [hcall] at hone
      rw [hnum]
      exact go_between h hg hk hone hout
    · obtain ⟨hk0, hplace, hpend, -, htag⟩ := hg.other_job h hne hk
      rw [hpend, htag]
      exact h.between u k hk0 hone (hplace ▸ hout)

theorem Begins.pending_self {c : PrintCall} (hb : Begins s s' t c) (h : Inv s) : s'.pending t = c.output := by
  simp only [PrintState.pending, hb.job, hb.console, h.outside t hb.free, leftAt, List.nil_append]
  rfl

/-- The jobs after a call has begun. -/
theorem Begins.job_after {c : PrintCall} (hb : Begins s s' t c) (h : Inv s) {u : Tid} {k : Job}
    (hk : s'.job u = some k) : (u = t ∧ k = ⟨s.issued.length, c, c.writes⟩) ∨
      (u ≠ t ∧ s.job u = some k ∧ k.number < s.issued.length) := by
  rcases eq_or_ne u t with rfl | hne
  · rw [hb.job] at hk
    cases hk
    exact .inl ⟨rfl, rfl⟩
  · rw [hb.others u hne] at hk
    exact .inr ⟨hne, hk, (List.getElem?_eq_some_iff.1 (h.number u k hk)).1⟩

theorem print_inv (h : Inv s) {c : PrintCall} (hb : Begins s s' t c) : Inv s' := by
  have hplace : ∀ u, s'.console.place u = s.console.place u := fun u => by rw [hb.console]
  have hpend : ∀ u, u ≠ t → s'.pending u = s.pending u := fun u hu => pending_congr (hb.others u hu) (hplace u)
  have hleft : ∀ u, u ≠ t → s'.writesLeft u = s.writesLeft u := fun u hu =>
    writesLeft_congr (hb.others u hu) (hplace u)
  have hnew : ofTag s.issued.length s.trace = [] := h.fresh _ (le_refl _)
  refine ⟨?_, ?_, ?_, ?_, ?_, ?_, ?_, ?_, ?_, ?_⟩
  · rw [hb.console]
    exact h.serial
  · intro u hu
    rw [hplace]
    rcases eq_or_ne u t with rfl | hne
    · exact h.outside u hb.free
    · exact h.outside u (hb.others u hne ▸ hu)
  · intro u k hk
    rw [hb.issued]
    rcases hb.job_after h hk with ⟨-, rfl⟩ | ⟨-, hk, hlt⟩
    · simp
    · rw [List.getElem?_append_left hlt]
      exact h.number u k hk
  · intro u v k l hk hl heq
    rcases hb.job_after h hk with ⟨rfl, rfl⟩ | ⟨-, hk, hlt⟩
    · rcases hb.job_after h hl with ⟨rfl, rfl⟩ | ⟨-, hl, hlt⟩
      · rfl
      · simp only at heq
        omega
    · rcases hb.job_after h hl with ⟨rfl, rfl⟩ | ⟨-, hl, -⟩
      · simp only at heq
        omega
      · exact h.distinct u v k l hk hl heq
  · intro u k hk
    rw [hb.trace]
    rcases hb.job_after h hk with ⟨rfl, rfl⟩ | ⟨hne, hk, -⟩
    · rw [hb.pending_self h, hnew, List.nil_append]
    · rw [hpend u hne]
      exact h.progress u k hk
  · intro i d hd hfree
    rw [hb.issued] at hd
    rw [hb.trace]
    have hi : i < s.issued.length := by
      have hlt := (List.getElem?_eq_some_iff.1 hd).1
      have hne := hfree t _ hb.job
      simp only [List.length_append, List.length_singleton] at hlt
      simp only at hne
      omega
    rw [List.getElem?_append_left hi] at hd
    apply h.finished i d hd
    intro u k hk
    have hne : u ≠ t := by
      rintro rfl
      rw [hb.free] at hk
      cases hk
    exact hfree u k (by rw [hb.others u hne, hk])
  · intro i hi
    rw [hb.trace]
    apply h.fresh
    rw [hb.issued, List.length_append] at hi
    omega
  · rw [hb.trace, display, hb.console]
    exact h.display
  · intro u k hk
    rcases hb.job_after h hk with ⟨rfl, rfl⟩ | ⟨hne, hk, -⟩
    · simp only [PrintState.writesLeft, hb.job, hplace, h.outside u hb.free]
      exact le_refl _
    · rw [hleft u hne]
      exact h.writesLeft u k hk
  · intro u k hk hone hout
    rw [hb.trace]
    rcases hb.job_after h hk with ⟨rfl, rfl⟩ | ⟨hne, hk, -⟩
    · exact .inl hnew
    · rw [hpend u hne]
      exact h.between u k hk hone (hplace u ▸ hout)

/-- **Every step.** -/
theorem step_inv {e : PrintEvent} (h : Inv s) (he : step s e = some s') : Inv s' := by
  cases e with
  | print t c => exact print_inv h (print_spec he)
  | go t =>
    obtain ⟨j, out, hg⟩ := go_spec he
    exact go_inv h hg (go_serial h.serial he)
  | writeDone =>
    obtain ⟨-, -, -, -, hdisp, -⟩ := writeDone_spec he
    obtain ⟨c, hc, rfl⟩ := Option.map_eq_some_iff.1 he
    have hserial := Serial.step_serialised ConsoleOut.write_rule h.serial hc
    obtain ⟨d, -, rfl⟩ := Option.map_eq_some_iff.1 hc
    exact ⟨hserial, h.outside, h.number, h.distinct, h.progress, h.finished, h.fresh,
      h.display.trans hdisp.symm, h.writesLeft, h.between⟩

theorem start_inv : Inv start where
  serial := Serial.init_serialised ConsoleOut.write_rule
  outside := fun _ _ => rfl
  number := nofun
  distinct := nofun
  progress := nofun
  finished := nofun
  fresh := fun _ _ => rfl
  display := rfl
  writesLeft := nofun
  between := nofun

theorem reachable_inv (h : system.Reachable s) : Inv s := by
  refine h.invariant ?_ (fun _ _ _ _ => step_inv)
  rintro _ rfl
  exact start_inv

/-! ## One call after the other -/

/-- Call `i` has printed everything. -/
def Complete (s : PrintState) (i : Nat) : Prop := ∀ c, s.issued[i]? = some c → ofTag i s.trace = c.output

/-- While a thread prints, no other call has printed a part of its output. -/
def Undisturbed (s : PrintState) : Prop :=
  ∀ t, (s.console.place t).isInside = true → s.pending t ≠ [] → ∀ u k, u ≠ t → s.job u = some k →
    ofTag k.number s.trace = [] ∨ s.pending u = []

/-- The calls that have printed something did so one after the other. -/
structure Calm (s : PrintState) (ids : List Nat) : Prop where
  grouped : Grouped ids s.trace
  begun : ∀ i ∈ ids, ofTag i s.trace ≠ []
  complete : ∀ i ∈ ids.dropLast, s.Complete i

theorem Calm.others_complete {ids : List Nat} (hc : Calm s ids) (h : Inv s) (hu : Undisturbed s)
    (hj : s.job t = some j) (hin : (s.console.place t).isInside = true) (hpend : s.pending t ≠ []) {i : Nat}
    (hi : i ∈ ids) (hne : i ≠ j.number) : s.Complete i := by
  intro c hci
  by_cases hfree : ∀ u k, s.job u = some k → k.number ≠ i
  · exact h.finished i c hci hfree
  · push Not at hfree
    obtain ⟨u, k, hk, rfl⟩ := hfree
    have hut : u ≠ t := by
      rintro rfl
      rw [hj] at hk
      cases hk
      exact hne rfl
    have hcall := h.number u k hk
    rw [hci] at hcall
    cases hcall
    have hprog := h.progress u k hk
    have hnil := (hu t hin hpend u k hut hk).resolve_left (hc.begun _ hi)
    rwa [hnil, List.append_nil] at hprog

theorem Goes.complete_other (hg : Goes s s' t j out) {i : Nat} (hne : j.number ≠ i) (hc : s.Complete i) :
    s'.Complete i := by
  intro c hci
  rw [hg.ofTag_other hne]
  exact hc c (hg.issued ▸ hci)

theorem Goes.begun (hg : Goes s s' t j out) {ids : List Nat} (hb : ∀ i ∈ ids, ofTag i s.trace ≠ []) :
    ∀ i ∈ ids, ofTag i s'.trace ≠ [] := by
  intro i hi
  rw [hg.trace, ofTag_append]
  exact List.append_ne_nil_of_left_ne_nil (hb i hi) _

/-- A thread that prints continues the last group, or begins one after complete ones. -/
theorem go_calm {ids : List Nat} (hc : Calm s ids) (h : Inv s) (hu : Undisturbed s) (hg : Goes s s' t j out) :
    ∃ ids', Calm s' ids' := by
  by_cases hnil : out = []
  · subst hnil
    have htrace : s'.trace = s.trace := by rw [hg.trace, List.map_nil, List.append_nil]
    refine ⟨ids, htrace ▸ hc.grouped, hg.begun hc.begun, ?_⟩
    intro i hi c hci
    rw [htrace]
    exact hc.complete i hi c (hg.issued ▸ hci)
  · obtain ⟨hin, -⟩ := hg.inside.resolve_left hnil
    have hpend : s.pending t ≠ [] := by
      rw [hg.pending]
      exact List.append_ne_nil_of_left_ne_nil hnil _
    have hother : ∀ i ∈ ids, i ≠ j.number → s'.Complete i := fun i hi hne =>
      hg.complete_other (Ne.symm hne) (hc.others_complete h hu hg.job hin hpend hi hne)
    by_cases hmem : j.number ∈ ids
    · obtain ⟨l, i, rfl⟩ := List.eq_nil_or_concat ids |>.resolve_left (List.ne_nil_of_mem hmem)
      rw [List.concat_eq_append] at *
      have hlast : j.number = i := by
        rcases List.mem_append.1 hmem with hl | hl
        · -- it has printed everything already
          have hcomplete := hc.complete j.number (by rwa [List.dropLast_concat]) j.call (h.number t j hg.job)
          have hprog := h.progress t j hg.job
          rw [hcomplete] at hprog
          exact absurd (List.append_cancel_left (hprog.trans (List.append_nil _).symm)) hpend
        · exact List.mem_singleton.1 hl
      subst hlast
      have hgrouped := hc.grouped.snoc out
      rw [← hg.trace] at hgrouped
      refine ⟨_, hgrouped, hg.begun hc.begun, ?_⟩
      rw [List.dropLast_concat]
      intro i hi
      apply hother i (List.mem_append_left _ hi)
      rintro rfl
      exact (List.nodup_append.1 hgrouped.nodup).2.2 _ hi _ (List.mem_singleton.2 rfl) rfl
    · have hgrouped := (hc.grouped.push hmem).snoc out
      rw [← hg.trace] at hgrouped
      refine ⟨_, hgrouped, ?_, ?_⟩
      · intro i hi
        rcases List.mem_append.1 hi with hi | hi
        · exact hg.begun hc.begun i hi
        · rw [List.mem_singleton.1 hi, hg.ofTag_self]
          exact List.append_ne_nil_of_right_ne_nil _ hnil
      · rw [List.dropLast_concat]
        intro i hi
        apply hother i hi
        rintro rfl
        exact hmem hi

theorem print_calm {ids : List Nat} (hc : Calm s ids) (h : Inv s) {c : PrintCall} (hb : Begins s s' t c) :
    Calm s' ids := by
  refine ⟨hb.trace ▸ hc.grouped, hb.trace ▸ hc.begun, ?_⟩
  intro i hi d hd
  have hlt : i < s.issued.length := by
    by_contra hge
    exact hc.begun i (List.mem_of_mem_dropLast hi) (h.fresh i (Nat.not_lt.1 hge))
  rw [hb.issued, List.getElem?_append_left hlt] at hd
  rw [hb.trace]
  exact hc.complete i hi d hd

theorem step_calm {e : PrintEvent} (hi : Inv s) (hu : Undisturbed s) (hc : ∃ ids, Calm s ids)
    (he : step s e = some s') : ∃ ids, Calm s' ids := by
  obtain ⟨ids, hc⟩ := hc
  cases e with
  | print t c => exact ⟨ids, print_calm hc hi (print_spec he)⟩
  | go t =>
    obtain ⟨j, out, hg⟩ := go_spec he
    exact go_calm hc hi hu hg
  | writeDone =>
    obtain ⟨-, -, hissued, htrace, -, -⟩ := writeDone_spec he
    refine ⟨ids, htrace ▸ hc.grouped, htrace ▸ hc.begun, ?_⟩
    intro i hmem c hci
    rw [htrace]
    exact hc.complete i hmem c (hissued ▸ hci)

/-- What call `i` prints. -/
def outputOf (s : PrintState) (i : Nat) : List Byte := (s.issued[i]?).elim [] PrintCall.output

/-- The display is the whole outputs of calls, one after the other, and then a part of the output of
one that is in progress; no byte stands between two bytes of another call. -/
def PrintsWhole (s : PrintState) : Prop :=
  s.trace.map Prod.snd = s.display ∧ Contiguous (s.trace.map Prod.fst) ∧
  ∃ (whole : List Nat) (rest : List Byte), whole.Nodup ∧ s.display = whole.flatMap s.outputOf ++ rest ∧
    (rest = [] ∨ ∃ t j, s.job t = some j ∧ j.number ∉ whole ∧ rest <+: j.call.output)

theorem outputOf_complete (h : Inv s) {i : Nat} (hc : s.Complete i) : ofTag i s.trace = s.outputOf i := by
  unfold outputOf
  cases hi : s.issued[i]? with
  | none => exact h.fresh i (List.getElem?_eq_none_iff.1 hi)
  | some c => exact hc c hi

theorem Calm.printsWhole {ids : List Nat} (hc : Calm s ids) (h : Inv s) : s.PrintsWhole := by
  refine ⟨h.display, hc.grouped.contiguous, ?_⟩
  have hdisp : s.display = ids.flatMap (fun i => ofTag i s.trace) := by
    rw [← h.display]
    exact hc.grouped.map_snd
  have hwhole : ∀ l : List Nat, (∀ i ∈ l, s.Complete i) → l.flatMap (fun i => ofTag i s.trace) = l.flatMap s.outputOf :=
    fun l hl => List.flatMap_congr (fun i hi => outputOf_complete h (hl i hi))
  by_cases hall : ∀ i ∈ ids, s.Complete i
  · exact ⟨ids, [], hc.grouped.nodup, by rw [hdisp, hwhole ids hall, List.append_nil], .inl rfl⟩
  · -- the last call that has begun to print is in progress
    push Not at hall
    obtain ⟨i, hi, hincomplete⟩ := hall
    obtain ⟨l, k, rfl⟩ := List.eq_nil_or_concat ids |>.resolve_left (List.ne_nil_of_mem hi)
    rw [List.concat_eq_append] at *
    have hcomplete : ∀ i ∈ l, s.Complete i := fun i hi => hc.complete i (by rwa [List.dropLast_concat])
    have hik : i = k := by
      rcases List.mem_append.1 hi with hl | hl
      · exact absurd (hcomplete i hl) hincomplete
      · exact List.mem_singleton.1 hl
    subst hik
    have hbusy : ¬ ∀ t j, s.job t = some j → j.number ≠ i := fun hfree =>
      hincomplete (fun c hci => h.finished i c hci hfree)
    push Not at hbusy
    obtain ⟨t, j, hj, rfl⟩ := hbusy
    obtain ⟨hnodup, -, hdisjoint⟩ := List.nodup_append.1 hc.grouped.nodup
    refine ⟨l, ofTag j.number s.trace, hnodup, ?_, .inr ⟨t, j, hj, ?_, ?_⟩⟩
    · rw [hdisp, List.flatMap_append, hwhole l hcomplete, List.flatMap_singleton]
    · exact fun hmem => hdisjoint _ hmem _ (List.mem_singleton.2 rfl) rfl
    · rw [← h.progress t j hj]
      exact List.prefix_append _ _

/-- **The rule**: what has to be shown of the runs that `ok` allows. -/
theorem printsWhole_of_undisturbed {ok : PrintState → PrintEvent → Prop}
    (hu : ∀ s, system.ReachableBy ok s → Undisturbed s) (h : system.ReachableBy ok s) : s.PrintsWhole := by
  have hcalm : ∃ ids, Calm s ids := by
    refine h.invariant (I := fun s => ∃ ids, Calm s ids) ?_ ?_
    · rintro _ rfl
      exact ⟨[], Grouped.nil, nofun, nofun⟩
    · intro s e s' hs hc _ he
      exact step_calm (reachable_inv hs.reachable) (hu s hs) hc he
  obtain ⟨ids, hc⟩ := hcalm
  exact hc.printsWhole (reachable_inv h.reachable)

/-! ## Threads that are switched when they block -/

/-- Thread `t` is between two `Write`s of one call. -/
structure Between (s : PrintState) (t : Tid) (j : Job) : Prop where
  job : s.job t = some j
  outside : (s.console.place t).isInside = false
  begun : ofTag j.number s.trace ≠ []
  pending : s.pending t ≠ []

/-- Such a thread is the running one, and the line is free. -/
def RunsOn (s : PrintState) : Prop :=
  ∀ t j, Between s t j → s.running = some t ∧ ∀ u, (s.console.place u).isInside = false

theorem RunsOn.undisturbed (hr : RunsOn s) (h : Inv s) : Undisturbed s := by
  intro t hin hpend u k hut hk
  by_contra hnot
  push Not at hnot
  have hout : (s.console.place u).isInside = false := by
    cases hu : (s.console.place u).isInside with
    | false => rfl
    | true => exact absurd (h.serial.1.excl u t hu hin) hut
  have hfree := (hr u k ⟨hk, hout, hnot.1, hnot.2⟩).2 t
  rw [hin] at hfree
  cases hfree

/-- After a step of `t`: it has just left `Write`, or it was between two `Write`s before. -/
theorem Goes.between_before (hg : Goes s s' t j out) {k : Job} (hb : Between s' t k)
    (hout : (s.console.place t).isInside = false) : Between s t j := by
  have hnil : out = [] := by
    rcases hg.inside with hnil | ⟨hin, -⟩
    · exact hnil
    · rw [hout] at hin
      cases hin
  obtain ⟨k0, hk0, hnum, -⟩ := hg.job_after hb.job
  rw [hg.job] at hk0
  cases hk0
  refine ⟨hg.job, hout, ?_, ?_⟩
  · have hbegun := hb.begun
    rw [hnum, hg.ofTag_self, hnil, List.append_nil] at hbegun
    exact hbegun
  · rw [hg.pending, hnil]
    exact hb.pending

/-- A thread that is between two `Write`s finds the line free, so it does not sleep before the next. -/
theorem go_runsOn (hr : RunsOn s) (h : Inv s) (hg : Goes s s' t j out)
    (hok : s.running = none ∨ s.running = some t) : RunsOn s' := by
  intro u k hb
  rcases eq_or_ne u t with rfl | hne
  · have hjob : s'.job u ≠ none := by
      rw [hb.job]
      exact nofun
    have hnobody : (∀ v, v ≠ u → (s.console.place v).isInside = false) →
        ∀ v, (s'.console.place v).isInside = false := by
      intro hfree v
      rcases eq_or_ne v u with rfl | hvu
      · exact hb.outside
      · rw [(hg.others v hvu).2]
        exact hfree v hvu
    cases hin : (s.console.place u).isInside with
    | true =>
      refine ⟨(hg.running hjob hb.outside).resolve_right (by simp [hin]), hnobody ?_⟩
      intro v hvu
      cases hv : (s.console.place v).isInside with
      | false => rfl
      | true => exact absurd (h.serial.1.excl v u hv hin) hvu
    | false =>
      have hfree := (hr u j (hg.between_before hb hin)).2
      have hvalue : s.console.lock.value = 1 := h.serial.1.unlocked hfree
      refine ⟨(hg.running hjob hb.outside).resolve_right ?_, hnobody (fun v _ => hfree v)⟩
      rintro ⟨-, hzero⟩
      rw [hvalue] at hzero
      cases hzero
  · -- `u` runs, and nobody else can take a step
    obtain ⟨hk, hplace, hpend, -, htag⟩ := hg.other_job h hne hb.job
    have hrun := (hr u k ⟨hk, hplace ▸ hb.outside, htag ▸ hb.begun, hpend ▸ hb.pending⟩).1
    rw [hrun] at hok
    rcases hok with hok | hok
    · cases hok
    · exact absurd (Option.some.inj hok) hne

theorem print_runsOn (hr : RunsOn s) (h : Inv s) {c : PrintCall} (hb : Begins s s' t c)
    (hok : s.running = none ∨ s.running = some t) : RunsOn s' := by
  intro u k hbetween
  rcases hb.job_after h hbetween.job with ⟨rfl, rfl⟩ | ⟨hne, hk, -⟩
  · -- a call that begins has printed nothing
    have hbegun := hbetween.begun
    rw [hb.trace] at hbegun
    exact absurd (h.fresh _ (le_refl _)) hbegun
  · have hpend : s'.pending u = s.pending u := pending_congr (hb.others u hne) (by rw [hb.console])
    have hrun := (hr u k ⟨hk, hb.console ▸ hbetween.outside, hb.trace ▸ hbetween.begun,
      hpend ▸ hbetween.pending⟩).1
    rw [hrun] at hok
    rcases hok with hok | hok
    · cases hok
    · exact absurd (Option.some.inj hok) hne

theorem step_runsOn {e : PrintEvent} (hr : RunsOn s) (h : Inv s) (hok : SwitchesWhenBlocked s e)
    (he : step s e = some s') : RunsOn s' := by
  cases e with
  | print t c => exact print_runsOn hr h (print_spec he) hok
  | go t =>
    obtain ⟨j, out, hg⟩ := go_spec he
    exact go_runsOn hr h hg hok
  | writeDone =>
    obtain ⟨hjob, hrunning, -, htrace, -, hplace⟩ := writeDone_spec he
    intro t j hb
    have hpend : s'.pending t = s.pending t := pending_congr (by rw [hjob]) (by rw [hplace])
    rw [hrunning, hplace]
    exact hr t j ⟨hjob ▸ hb.job, hplace ▸ hb.outside, htrace ▸ hb.begun, hpend ▸ hb.pending⟩

end PrintState

open PrintState in
/-- **The output of a print call is contiguous**, for any number of processes that print and any
interleaving in which a thread is switched when it blocks on a semaphore of the console. -/
theorem print_output_contiguous {s : PrintState} (h : PrintState.system.ReachableBy SwitchesWhenBlocked s) :
    s.PrintsWhole := by
  refine printsWhole_of_undisturbed ?_ h
  intro s hs
  have hinv := reachable_inv hs.reachable
  refine RunsOn.undisturbed ?_ hinv
  refine hs.invariant ?_ ?_
  · rintro _ rfl t j hb
    cases hb.job
  · intro s e s' hr hruns hok he
    exact step_runsOn hruns (reachable_inv hr.reachable) hok he

namespace PrintState

/-- Thread 1 prints "Hi" and thread 2 "X": thread 2 starts when thread 1 blocks, is woken after the
first character, and finds the line taken again. -/
def twoPrinters : List PrintEvent :=
  [.print 1 (.printString (padded [72, 105])), .go 1, .go 1, .go 1, .go 1, .print 2 (.printChar 88), .go 2, .go 2,
    .writeDone, .go 1, .go 1, .go 1, .go 1, .go 1, .go 1, .go 2, .writeDone, .go 1, .go 1, .go 1, .go 2, .go 2]

end PrintState

open PrintState in
theorem print_output_contiguous_twoPrinters : ∃ s : PrintState, s.display = [72, 105, 88] ∧
    s.trace.map Prod.fst = [0, 0, 1] ∧ s.PrintsWhole := by
  have hrun : (PrintState.system.runBy SwitchesWhenBlocked start twoPrinters).map
      (fun s => (s.display, s.trace.map Prod.fst)) = some ([72, 105, 88], [0, 0, 1]) := by
    decide +kernel
  obtain ⟨s, hs, hproj⟩ := Option.map_eq_some_iff.1 hrun
  rw [Prod.mk.injEq] at hproj
  have hstart : PrintState.system.ReachableBy SwitchesWhenBlocked start := .init rfl
  exact ⟨s, hproj.1, hproj.2, print_output_contiguous (hstart.runBy hs)⟩

/-! ## Preemption -/

/-- Calls that may overlap: each makes at most one `Write`, or one of them prints nothing. -/
def PrintCall.Fits (c d : PrintCall) : Prop :=
  (c.writes.length ≤ 1 ∧ d.writes.length ≤ 1) ∨ c.output = [] ∨ d.output = []

theorem PrintCall.Fits.symm {c d : PrintCall} (h : c.Fits d) : d.Fits c := by
  rcases h with ⟨hc, hd⟩ | hc | hd
  · exact .inl ⟨hd, hc⟩
  · exact .inr (.inr hc)
  · exact .inr (.inl hd)

namespace PrintState

variable {s s' : PrintState} {t : Tid} {j : Job} {out : List Byte}

/-- A call begins while only calls that fit it are in progress. -/
def Fitting (s : PrintState) : PrintEvent → Prop
  | .print _ c => ∀ u j, s.job u = some j → c.Fits j.call
  | _ => True

/-- Any two calls in progress fit. -/
def AllFit (s : PrintState) : Prop :=
  ∀ t u j k, s.job t = some j → s.job u = some k → t ≠ u → j.call.Fits k.call

theorem AllFit.undisturbed (hf : AllFit s) (h : Inv s) : Undisturbed s := by
  intro t hin hpend u k hut hk
  cases hj : s.job t with
  | none =>
    rw [PrintState.pending, hj] at hpend
    exact absurd rfl hpend
  | some j =>
    have hprog := h.progress u k hk
    rcases hf t u j k hj hk hut.symm with ⟨-, hone⟩ | hnone | hnone
    · -- only `t` is inside `Write`
      apply h.between u k hk hone
      cases hu : (s.console.place u).isInside with
      | false => rfl
      | true => exact absurd (h.serial.1.excl u t hu hin) hut
    · have hprog := h.progress t j hj
      rw [hnone] at hprog
      exact absurd (List.append_eq_nil_iff.1 hprog).2 hpend
    · rw [hnone] at hprog
      exact .inl (List.append_eq_nil_iff.1 hprog).1

theorem step_allFit {e : PrintEvent} (hf : AllFit s) (h : Inv s) (hok : Fitting s e) (he : step s e = some s') :
    AllFit s' := by
  cases e with
  | print t c =>
    have hb := print_spec he
    intro u v k l hk hl hne
    rcases hb.job_after h hk with ⟨rfl, rfl⟩ | ⟨-, hk, -⟩
    · rcases hb.job_after h hl with ⟨rfl, rfl⟩ | ⟨-, hl, -⟩
      · exact absurd rfl hne
      · exact hok v l hl
    · rcases hb.job_after h hl with ⟨rfl, rfl⟩ | ⟨-, hl, -⟩
      · exact (hok u k hk).symm
      · exact hf u v k l hk hl hne
  | go t =>
    obtain ⟨j, out, hg⟩ := go_spec he
    intro u v k l hk hl hne
    obtain ⟨k0, hk0, -, hkcall⟩ := hg.job_after hk
    obtain ⟨l0, hl0, -, hlcall⟩ := hg.job_after hl
    rw [hkcall, hlcall]
    exact hf u v k0 l0 hk0 hl0 hne
  | writeDone =>
    obtain ⟨hjob, -⟩ := writeDone_spec he
    unfold AllFit
    rw [hjob]
    exact hf

/-- With preemption at any point, the output is contiguous when calls that overlap fit. -/
theorem fitting_output_contiguous (h : system.ReachableBy Fitting s) : s.PrintsWhole := by
  refine printsWhole_of_undisturbed ?_ h
  intro s hs
  refine AllFit.undisturbed ?_ (reachable_inv hs.reachable)
  refine hs.invariant ?_ ?_
  · rintro _ rfl t u j k hj
    cases hj
  · intro s e s' hr hf hok he
    exact step_allFit hf (reachable_inv hr.reachable) hok he

/-- Thread 1 is preempted after `WLineBlock->V()`, before its second `Write`. -/
def preempted : List PrintEvent :=
  [.print 1 (.printString (padded [72, 105])), .go 1, .go 1, .go 1, .writeDone, .go 1, .go 1,
    .print 2 (.printChar 88), .go 2, .go 2, .go 2, .writeDone, .go 2, .go 2, .go 2, .go 1, .go 1, .go 1, .writeDone,
    .go 1, .go 1, .go 1]

/-- Calls that do not fit may be separated by preemption. -/
theorem preempted_separates : ∃ s : PrintState, system.Reachable s ∧ s.display = [72, 88, 105] ∧
    ¬ s.PrintsWhole := by
  have hrun : (system.run start preempted).map (fun s => (s.display, s.trace.map Prod.fst)) =
      some ([72, 88, 105], [0, 1, 0]) := by
    decide +kernel
  obtain ⟨s, hs, hproj⟩ := Option.map_eq_some_iff.1 hrun
  rw [Prod.mk.injEq] at hproj
  refine ⟨s, System.reachable_of_run preempted rfl hs, hproj.1, ?_⟩
  rintro ⟨-, hcontiguous, -⟩
  rw [hproj.2] at hcontiguous
  exact absurd hcontiguous (by decide)

end PrintState

end Nachos
