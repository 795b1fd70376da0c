import Nachos.Threads.CriticalSection

/-!
# The synchronous console

`SynchConsole::Write` and `Read` of `threads/synchcons.cc` over the device of
`machine/console.cc`, as routines under `WLineBlock` and `RLineBlock`.  The devices act through
`ConsoleWriteDone` and `ConsoleReadPoll`.

* `console_output_serial` — no call finds the display busy, and the output is that of one call
  after the other.
* `console_input_segments` — the calls of `Read` take consecutive segments of the input.
-/

set_option autoImplicit false

namespace Nachos

open Transition

/-! ## Output -/

/-- The output side of the device.  `writeDones` counts the pending `ConsoleWriteDone` interrupts,
`display` is what was written to `writeFileNo`. -/
structure ConsoleOut where
  putBusy : Bool
  writeDones : Nat
  display : List Byte
  synchWriteAvail : Semaphore
  deriving DecidableEq, Repr

namespace ConsoleOut

/-- `SynchConsole::SynchConsole`. -/
def start : ConsoleOut := ⟨false, 0, [], ⟨0, []⟩⟩

/-- `Console::PutChar`; `none` is the failed `ASSERT(putBusy == FALSE)`. -/
def putChar (c : ConsoleOut) (ch : Byte) : Option ConsoleOut :=
  if c.putBusy then none
  else some { c with display := c.display ++ [ch], putBusy := true, writeDones := c.writeDones + 1 }

/-- `Console::WriteDone`, when the interrupt is delivered. -/
def writeDone (c : ConsoleOut) : Option ConsoleOut :=
  if c.writeDones = 0 then none
  else some { c with
    putBusy := false, writeDones := c.writeDones - 1, synchWriteAvail := c.synchWriteAvail.v.1 }

end ConsoleOut

/-- The local variables of `Write`; `inP` is set from `PutChar` until `synchWriteAvail->P()` returns. -/
structure WriteCall where
  buffer : List Byte
  loop : Nat
  inP : Bool
  deriving DecidableEq, Repr

namespace WriteCall

/-- One step of the loop of `Write`. -/
def body (t : Tid) (a : WriteCall) (c : ConsoleOut) : Option (ConsoleOut × WriteCall) :=
  if a.inP then
    if t ∈ c.synchWriteAvail.queue then
      none
    else
      match c.synchWriteAvail.p t with
      | (sem, true) => some ({ c with synchWriteAvail := sem }, { a with loop := a.loop + 1, inP := false })
      | (sem, false) => some ({ c with synchWriteAvail := sem }, a)
  else do
    let ch ← a.buffer[a.loop]?
    let c ← c.putChar ch
    some (c, { a with inP := true })

/-- `SynchConsole::Write`. -/
def routine : Routine ConsoleOut WriteCall (List Byte) Unit where
  start := fun buffer => ⟨buffer, 0, false⟩
  arg := buffer
  done := fun a => !a.inP && decide (a.buffer.length ≤ a.loop)
  body := body
  device := fun _ c => c.writeDone
  arg_start := fun _ => rfl
  arg_body := by
    intro t a c c' a' h
    unfold body at h
    split at h
    · split at h
      · cases h
      · split at h
        · cases h
          rfl
        · cases h
          rfl
    · obtain ⟨ch, -, h⟩ := Option.bind_eq_some_iff.1 h
      obtain ⟨c1, -, h⟩ := Option.bind_eq_some_iff.1 h
      cases h
      rfl

/-- What a call has written so far. -/
def written (a : WriteCall) : List Byte := a.buffer.take (a.loop + a.inP.toNat)

end WriteCall

namespace ConsoleOut

/-- No character is under way. -/
def Quiet (c : ConsoleOut) : Prop := c.putBusy = false ∧ c.writeDones = 0 ∧ c.synchWriteAvail = ⟨0, []⟩

/-- Thread `t` has put a character: the interrupt is pending, or has been delivered. -/
def UnderWay (t : Tid) (c : ConsoleOut) : Prop :=
  (c.putBusy = true ∧ c.writeDones = 1 ∧ (c.synchWriteAvail = ⟨0, []⟩ ∨ c.synchWriteAvail = ⟨0, [t]⟩)) ∨
  (c.putBusy = false ∧ c.writeDones = 0 ∧ c.synchWriteAvail = ⟨1, []⟩)

/-- The handshake between the call in progress and the device. -/
def Handshake (c : ConsoleOut) : Option (Tid × WriteCall) → Prop
  | none => c.Quiet
  | some (t, a) =>
      if a.inP then a.loop < a.buffer.length ∧ c.UnderWay t else a.loop ≤ a.buffer.length ∧ c.Quiet

/-- The output is that of the finished calls, and then of the one in progress. -/
structure Emitted (f : List (Tid × WriteCall)) (x : Option (Tid × WriteCall)) (c : ConsoleOut) : Prop where
  handshake : c.Handshake x
  display : c.display = (f.map (fun y => y.2.buffer)).flatten ++ (x.toList.map (fun y => y.2.written)).flatten

/-- `PutChar` finds the display idle, and the character goes out. -/
theorem body_put {f : List (Tid × WriteCall)} {t : Tid} {a a' : WriteCall} {c c' : ConsoleOut}
    (h : Emitted f (some (t, a)) c) (hin : a.inP = false) (hb : a.body t c = some (c', a')) :
    Emitted f (some (t, a')) c' := by
  obtain ⟨hhand, hdisp⟩ := h
  simp only [Handshake, hin, Bool.false_eq_true, if_false] at hhand
  obtain ⟨hle, hbusy, hdones, havail⟩ := hhand
  simp only [WriteCall.body, hin, Bool.false_eq_true, if_false, putChar, hbusy] at hb
  obtain ⟨ch, hch, hb⟩ := Option.bind_eq_some_iff.1 hb
  cases hb
  obtain ⟨hlt, hget⟩ := List.getElem?_eq_some_iff.1 hch
  constructor
  · simp only [Handshake, if_true]
    exact ⟨hlt, .inl ⟨rfl, by simp [hdones], .inl havail⟩⟩
  · simp only [hdisp, Option.toList_some, List.map_cons, List.map_nil, List.flatten_cons, List.flatten_nil,
      List.append_nil, WriteCall.written, hin, Bool.toNat_false, Bool.toNat_true, Nat.add_zero, List.append_assoc]
    rw [List.take_add_one, hch, Option.toList_some]

/-- `synchWriteAvail->P()` completes after the interrupt only. -/
theorem body_wait {f : List (Tid × WriteCall)} {t : Tid} {a a' : WriteCall} {c c' : ConsoleOut}
    (h : Emitted f (some (t, a)) c) (hin : a.inP = true) (hb : a.body t c = some (c', a')) :
    Emitted f (some (t, a')) c' := by
  obtain ⟨hhand, hdisp⟩ := h
  simp only [Handshake, hin, if_true] at hhand
  obtain ⟨hlt, hway⟩ := hhand
  simp only [WriteCall.body, hin, if_true] at hb
  split at hb
  · cases hb
  · rename_i hq
    rcases hway with ⟨hbusy, hdones, havail⟩ | ⟨hbusy, hdones, havail⟩
    · have hnil : c.synchWriteAvail = ⟨0, []⟩ := by
        rcases havail with havail | havail
        · exact havail
        · rw [havail] at hq
          simp at hq
      rw [hnil, Semaphore.p_zero rfl] at hb
      cases hb
      refine ⟨?_, hdisp⟩
      simp only [Handshake, hin, if_true]
      exact ⟨hlt, .inl ⟨hbusy, hdones, .inr rfl⟩⟩
    · rw [havail, Semaphore.p_pos (by decide)] at hb
      cases hb
      constructor
      · simp only [Handshake, Bool.false_eq_true, if_false]
        exact ⟨hlt, hbusy, hdones, rfl⟩
      · simp only [hdisp, Option.toList_some, List.map_cons, List.map_nil, List.flatten_cons, List.flatten_nil,
          WriteCall.written, hin, Bool.toNat_false, Bool.toNat_true, Nat.add_zero]

theorem writeDone_emitted {f : List (Tid × WriteCall)} {x : Option (Tid × WriteCall)} {c c' : ConsoleOut}
    (h : Emitted f x c) (hd : c.writeDone = some c') : Emitted f x c' := by
  obtain ⟨hhand, hdisp⟩ := h
  unfold writeDone at hd
  split at hd
  · cases hd
  · rename_i hne
    -- an interrupt is pending, so somebody has put a character
    cases x with
    | none => exact absurd hhand.2.1 hne
    | some y =>
      obtain ⟨t, a⟩ := y
      simp only [Handshake] at hhand
      split at hhand
      · rename_i hin
        obtain ⟨hlt, hway⟩ := hhand
        rcases hway with ⟨hbusy, hdones, havail⟩ | ⟨-, hdones, -⟩
        · cases hd
          refine ⟨?_, hdisp⟩
          simp only [Handshake, hin, if_true]
          refine ⟨hlt, .inr ⟨rfl, by simp [hdones], ?_⟩⟩
          rcases havail with havail | havail
          · rw [havail]
            rfl
          · rw [havail]
            rfl
        · exact absurd hdones hne
      · exact absurd hhand.2.2.1 hne

theorem write_rule : WriteCall.routine.Rule start Emitted := by
  refine ⟨⟨⟨rfl, rfl, rfl⟩, rfl⟩, ?_, ?_, ?_, ?_⟩
  · intro f t buffer c h
    refine ⟨?_, h.display⟩
    simp only [Handshake, WriteCall.routine, Bool.false_eq_true, if_false]
    exact ⟨Nat.zero_le _, h.handshake⟩
  · intro f t a c c' a' h _ hb
    cases hin : a.inP with
    | true => exact body_wait h hin hb
    | false => exact body_put h hin hb
  · intro f t a c h hdone
    simp only [WriteCall.routine, Bool.and_eq_true, Bool.not_eq_true', decide_eq_true_eq] at hdone
    obtain ⟨hin, hlen⟩ := hdone
    obtain ⟨hhand, hdisp⟩ := h
    simp only [Handshake, hin, Bool.false_eq_true, if_false] at hhand
    refine ⟨hhand.2, ?_⟩
    rw [hdisp]
    simp [WriteCall.written, hin, List.take_of_length_le hlen]
  · exact fun f x _ c c' h hd => writeDone_emitted h hd

end ConsoleOut

/-- **Console output is serialised**, for any number of threads that call `Write` and any
interleaving with the interrupts: `PutChar` never finds the display busy; at most one call is in
progress, every call that obtained `WLineBlock` before it is done; and the output is the buffers of
those calls, in that order, and then a prefix of the buffer of the one in progress. -/
theorem console_output_serial {s : Serial ConsoleOut WriteCall}
    (h : (Serial.system WriteCall.routine ConsoleOut.start).Reachable s) :
    (∀ t a ch, s.place t = .inside a → a.inP = false → a.buffer[a.loop]? = some ch →
      s.shared.putChar ch ≠ none) ∧
    ∃ x : Option (Tid × WriteCall), (∀ t a, s.place t = .inside a ↔ x = some (t, a)) ∧
      s.obtained.map (fun y => (y.1, y.2.buffer)) =
        s.finished.map (fun y => (y.1, y.2.buffer)) ++ x.toList.map (fun y => (y.1, y.2.buffer)) ∧
      s.shared.display =
        (s.finished.map (fun y => y.2.buffer)).flatten ++ (x.toList.map (fun y => y.2.written)).flatten ∧
      ∀ y ∈ x, y.2.written <+: y.2.buffer := by
  obtain ⟨x, hx, hhand, hdisp⟩ := Serial.reachable_rule ConsoleOut.write_rule h
  refine ⟨?_, x, hx.inside, hx.obtained, hdisp, fun y _ => List.take_prefix _ _⟩
  intro t a ch hp hin _
  rw [(hx.inside t a).1 hp] at hhand
  simp only [ConsoleOut.Handshake, hin, Bool.false_eq_true, if_false] at hhand
  simp [ConsoleOut.putChar, hhand.2.1]

/-- Thread 1 writes two bytes while thread 2 waits for the line, then thread 2 starts. -/
def twoWriters : List (SerialEvent (List Byte) Unit) :=
  [.call 1 [65, 66], .call 2 [67], .go 1, .go 2, .go 1, .go 1, .device (), .go 1, .go 1, .device (), .go 1,
    .go 1, .go 2, .go 2]

theorem console_output_serial_twoWriters : ∃ s : Serial ConsoleOut WriteCall,
    (Serial.system WriteCall.routine ConsoleOut.start).Reachable s ∧ s.finished.length = 1 ∧
    s.shared.display = [65, 66, 67] ∧
    ∃ x : Option (Tid × WriteCall), ∀ t a, s.place t = .inside a ↔ x = some (t, a) := by
  have hrun : ((Serial.system WriteCall.routine ConsoleOut.start).run (Serial.init ConsoleOut.start)
      twoWriters).map (fun s => (s.finished.length, s.shared.display)) = some (1, [65, 66, 67]) := by
    decide +kernel
  obtain ⟨s, hs, hproj⟩ := Option.map_eq_some_iff.1 hrun
  rw [Prod.mk.injEq] at hproj
  have hreach := System.reachable_of_run (S := Serial.system WriteCall.routine ConsoleOut.start) twoWriters rfl hs
  obtain ⟨-, x, hx, -⟩ := console_output_serial hreach
  exact ⟨s, hreach, hproj.1, hproj.2, x, hx⟩

/-! ## Input -/

/-- `EOF` as a `char`. -/
def EOFChar : Byte := 255

/-- The input side of the device; `typed` is what was read from `readFileNo`. -/
structure ConsoleIn where
  incoming : Byte
  typed : List Byte
  synchReadAvail : Semaphore
  deriving DecidableEq, Repr

namespace ConsoleIn

/-- `SynchConsole::SynchConsole`. -/
def start : ConsoleIn := ⟨EOFChar, [], ⟨0, []⟩⟩

/-- `Console::CheckCharAvail`; `key` is the next byte, if `PollFile` finds one. -/
def checkCharAvail (c : ConsoleIn) (key : Option Byte) : ConsoleIn :=
  match key with
  | none => c
  | some b =>
      if c.incoming ≠ EOFChar then c
      else { incoming := b, typed := c.typed ++ [b], synchReadAvail := c.synchReadAvail.v.1 }

/-- `Console::GetChar`. -/
def getChar (c : ConsoleIn) : Byte × ConsoleIn := (c.incoming, { c with incoming := EOFChar })

end ConsoleIn

/-- The local variables of `Read`; `atGet` is set between `synchReadAvail->P()` and `GetChar`. -/
structure ReadCall where
  numBytes : { n : Nat // 0 < n }
  into : List Byte
  loop : Nat
  eolncond : Bool
  ch : Byte
  atGet : Bool
  deriving DecidableEq

namespace ReadCall

/-- What `Read` does with the character it got. -/
def store (a : ReadCall) (ch : Byte) : ReadCall :=
  let a := { a with ch := ch, atGet := false }
  if ch = EOFChar then a
  else if ch = 10 ∨ ch = 1 then { a with eolncond := true }
  else { a with into := a.into.set a.loop ch, loop := a.loop + 1 }

/-- One step of the loops of `Read`. -/
def body (t : Tid) (a : ReadCall) (c : ConsoleIn) : Option (ConsoleIn × ReadCall) :=
  if a.atGet then
    some (c.getChar.2, a.store c.getChar.1)
  else if t ∈ c.synchReadAvail.queue then
    none
  else
    match c.synchReadAvail.p t with
    | (sem, true) => some ({ c with synchReadAvail := sem }, { a with atGet := true })
    | (sem, false) => some ({ c with synchReadAvail := sem }, a)

theorem store_numBytes (a : ReadCall) (ch : Byte) : (a.store ch).numBytes = a.numBytes := by
  simp only [store]
  split
  · rfl
  · split
    · rfl
    · rfl

/-- `SynchConsole::Read`. -/
def routine : Routine ConsoleIn ReadCall { n : Nat // 0 < n } (Option Byte) where
  start := fun n => ⟨n, List.replicate n 0, 0, false, 0, false⟩
  arg := numBytes
  done := fun a => !a.atGet && !(decide (a.loop < a.numBytes.1) && !a.eolncond)
  body := body
  device := fun key c => some (c.checkCharAvail key)
  arg_start := fun _ => rfl
  arg_body := by
    intro t a c c' a' h
    unfold body at h
    split at h
    · cases h
      exact store_numBytes a _
    · split at h
      · cases h
      · split at h
        · cases h
          rfl
        · cases h
          rfl

/-- What `Read` returns. -/
def result (a : ReadCall) : Int := if a.ch = 1 then -1 else a.loop

/-- What was stored. -/
def stored (a : ReadCall) : List Byte := a.into.take a.loop

/-- The character that ended the line, if any. -/
def terminator (a : ReadCall) : Option Byte := if a.eolncond then some a.ch else none

/-- What a call has taken from the input. -/
def segment (a : ReadCall) : List Byte := a.stored ++ a.terminator.toList

structure WellFormed (a : ReadCall) : Prop where
  length : a.into.length = a.numBytes.1
  loop : a.loop ≤ a.numBytes.1
  line : a.eolncond = true → a.ch = 10 ∨ a.ch = 1
  unended : a.eolncond = false → a.ch ≠ 1
  atGet : a.atGet = true → a.loop < a.numBytes.1 ∧ a.eolncond = false

/-- A character goes to the buffer, or ends the line, or is dropped. -/
theorem store_spec {a : ReadCall} (h : WellFormed a) (hget : a.atGet = true) (ch : Byte) :
    WellFormed (a.store ch) ∧ (a.store ch).segment = a.segment ++ (if ch = EOFChar then [] else [ch]) := by
  obtain ⟨hlt, heol⟩ := h.atGet hget
  have hlen := h.length
  unfold store
  by_cases heof : ch = EOFChar
  · rw [if_pos heof, if_pos heof]
    refine ⟨⟨hlen, h.loop, ?_, ?_, by simp⟩, by simp [segment, stored, terminator, heol]⟩
    · simp [heol]
    · rw [heof]
      simp [EOFChar]
  · rw [if_neg heof, if_neg heof]
    by_cases hline : ch = 10 ∨ ch = 1
    · rw [if_pos hline]
      exact ⟨⟨hlen, h.loop, fun _ => hline, by simp, by simp⟩, by simp [segment, stored, terminator, heol]⟩
    · rw [if_neg hline]
      refine ⟨⟨by simp [hlen], hlt, by simp [heol], fun _ h1 => hline (.inr h1), by simp⟩, ?_⟩
      have hset : (a.into.set a.loop ch).take (a.loop + 1) = a.into.take a.loop ++ [ch] := by
        rw [List.take_add_one, List.getElem?_set_self (by omega), Option.toList_some,
          List.take_set_of_le (le_refl _)]
      simp [segment, stored, terminator, heol, hset]

end ReadCall

namespace ConsoleIn

/-- The character in the buffer of the device, if any. -/
def buffered (c : ConsoleIn) : List Byte := if c.incoming = EOFChar then [] else [c.incoming]

/-- The input without `EOF` bytes is what the finished calls took, then what the one in progress
took, then the character in the buffer. -/
structure Consumed (f : List (Tid × ReadCall)) (x : Option (Tid × ReadCall)) (c : ConsoleIn) : Prop where
  typed : c.typed.filter (· ≠ EOFChar) = (f.map (fun y => y.2.segment)).flatten ++
    (x.toList.map (fun y => y.2.segment)).flatten ++ c.buffered
  finished : ∀ y ∈ f, y.2.WellFormed
  current : ∀ y ∈ x, y.2.WellFormed

theorem read_body {f : List (Tid × ReadCall)} {t : Tid} {a a' : ReadCall} {c c' : ConsoleIn}
    (h : Consumed f (some (t, a)) c) (hdone : ReadCall.routine.done a = false)
    (hb : a.body t c = some (c', a')) : Consumed f (some (t, a')) c' := by
  obtain ⟨htyped, hf, hx⟩ := h
  have hwf : a.WellFormed := hx _ rfl
  unfold ReadCall.body at hb
  split at hb
  · rename_i hget
    obtain ⟨hwf', hseg⟩ := ReadCall.store_spec hwf hget c.incoming
    cases hb
    refine ⟨?_, hf, ?_⟩
    · simp only [getChar, htyped, Option.toList_some, List.map_cons, List.map_nil, List.flatten_cons,
        List.flatten_nil, List.append_nil, hseg, buffered, if_true, List.append_assoc]
    · intro y hy
      cases hy
      exact hwf'
  · rename_i hget
    -- the loop goes on, so there is room and the line has not ended
    have hopen : a.loop < a.numBytes.1 ∧ a.eolncond = false := by
      simpa [ReadCall.routine, hget] using hdone
    split at hb
    · cases hb
    · split at hb
      · cases hb
        refine ⟨htyped, hf, ?_⟩
        intro y hy
        cases hy
        exact ⟨hwf.length, hwf.loop, hwf.line, hwf.unended, fun _ => hopen⟩
      · cases hb
        exact ⟨htyped, hf, hx⟩

/-- A poll reads a byte only when the buffer is empty; a byte equal to `EOF` leaves it so. -/
theorem checkCharAvail_consumed {f : List (Tid × ReadCall)} {x : Option (Tid × ReadCall)} {c : ConsoleIn}
    (h : Consumed f x c) (key : Option Byte) : Consumed f x (c.checkCharAvail key) := by
  unfold checkCharAvail
  cases key with
  | none => exact h
  | some b =>
    simp only
    split
    · exact h
    · rename_i hempty
      obtain ⟨htyped, hf, hx⟩ := h
      refine ⟨?_, hf, hx⟩
      have hnone : c.buffered = [] := if_pos (not_not.1 hempty)
      have hone : [b].filter (· ≠ EOFChar) = if b = EOFChar then [] else [b] := by
        by_cases hb : b = EOFChar
        · simp [hb]
        · simp [hb]
      rw [hnone, List.append_nil] at htyped
      rw [List.filter_append, htyped, hone]
      rfl

theorem read_rule : ReadCall.routine.Rule start Consumed := by
  refine ⟨⟨rfl, by simp, by simp⟩, ?_, ?_, ?_, ?_⟩
  · intro f t n c h
    refine ⟨?_, h.finished, ?_⟩
    · rw [h.typed]
      simp [ReadCall.routine, ReadCall.segment, ReadCall.stored, ReadCall.terminator]
    · intro y hy
      cases hy
      exact ⟨by simp [ReadCall.routine], Nat.zero_le _, by simp [ReadCall.routine],
        by simp [ReadCall.routine], by simp [ReadCall.routine]⟩
  · exact fun f t a c c' a' h hdone hb => read_body h hdone hb
  · intro f t a c h _
    refine ⟨?_, ?_, by simp⟩
    · rw [h.typed]
      simp
    · intro y hy
      rcases List.mem_append.1 hy with hy | hy
      · exact h.finished y hy
      · rw [List.mem_singleton.1 hy]
        exact h.current _ rfl
  · intro f x key c c' h hd
    cases hd
    exact checkCharAvail_consumed h key

end ConsoleIn

/-- **Console input is taken in segments**, for any number of threads that call `Read` and any
interleaving with the polls: at most one call is in progress, every call that obtained `RLineBlock`
before it is done; the input without the bytes that equal `EOF` is the segments of those calls, in
that order, and then what nobody has returned yet.  A segment is what its call stored and at most
one terminator. -/
theorem console_input_segments {s : Serial ConsoleIn ReadCall}
    (h : (Serial.system ReadCall.routine ConsoleIn.start).Reachable s) :
    ∃ x : Option (Tid × ReadCall), (∀ t a, s.place t = .inside a ↔ x = some (t, a)) ∧
      s.obtained.map (fun y => (y.1, y.2.numBytes)) =
        s.finished.map (fun y => (y.1, y.2.numBytes)) ++ x.toList.map (fun y => (y.1, y.2.numBytes)) ∧
      s.shared.typed.filter (· ≠ EOFChar) = (s.finished.map (fun y => y.2.segment)).flatten ++
        ((x.toList.map (fun y => y.2.segment)).flatten ++ s.shared.buffered) ∧
      ∀ y ∈ s.finished, ∃ term : Option Byte, y.2.segment = y.2.stored ++ term.toList ∧
        (∀ b ∈ term, b = 10 ∨ b = 1) ∧
        y.2.result = if term = some 1 then -1 else (y.2.stored.length : Int) := by
  obtain ⟨x, hx, htyped, hf, -⟩ := Serial.reachable_rule ConsoleIn.read_rule h
  refine ⟨x, hx.inside, hx.obtained, by rw [htyped, List.append_assoc], ?_⟩
  intro y hy
  have hwf := hf y hy
  have hlen : y.2.stored.length = y.2.loop := by
    rw [ReadCall.stored, List.length_take, hwf.length]
    exact Nat.min_eq_left hwf.loop
  refine ⟨y.2.terminator, rfl, ?_, ?_⟩
  · intro b hb
    unfold ReadCall.terminator at hb
    split at hb
    · rename_i heol
      cases hb
      exact hwf.line heol
    · cases hb
  · rw [hlen]
    unfold ReadCall.result ReadCall.terminator
    cases heol : y.2.eolncond with
    | true => simp
    | false => simpa using hwf.unended heol

/-- Thread 1 reads up to three bytes of the input "A", EOF, newline, "B"; thread 2 gets the rest. -/
def twoReaders : List (SerialEvent { n : Nat // 0 < n } (Option Byte)) :=
  [.call 1 ⟨3, by decide⟩, .call 2 ⟨1, by decide⟩, .go 1, .go 2, .go 1, .device (some 65), .go 1, .go 1,
    .device (some 255), .device (some 10), .go 1, .go 1, .go 1, .device (some 66), .go 2, .go 2, .go 2,
    .go 2]

theorem console_input_segments_twoReaders : ∃ s : Serial ConsoleIn ReadCall,
    (Serial.system ReadCall.routine ConsoleIn.start).Reachable s ∧
    s.finished.map (fun y => y.2.stored) = [[65], [66]] ∧
    ∃ rest, s.shared.typed.filter (· ≠ EOFChar) = (s.finished.map (fun y => y.2.segment)).flatten ++ rest := by
  have hrun : ((Serial.system ReadCall.routine ConsoleIn.start).run (Serial.init ConsoleIn.start)
      twoReaders).map (fun s => s.finished.map (fun y => y.2.stored)) = some [[65], [66]] := by
    decide +kernel
  obtain ⟨s, hs, hproj⟩ := Option.map_eq_some_iff.1 hrun
  have hreach := System.reachable_of_run (S := Serial.system ReadCall.routine ConsoleIn.start) twoReaders rfl hs
  obtain ⟨x, -, -, hseg, -⟩ := console_input_segments hreach
  exact ⟨s, hreach, hproj, _, hseg⟩

end Nachos
