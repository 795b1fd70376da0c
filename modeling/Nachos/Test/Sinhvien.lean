import Nachos.Lib.Progress
import Nachos.Test.Voinuoc

/-!
# The students and the water taps

`test/sinhvien.c` against `test/voinuoc.c`: a student process and any number of tap processes (the student
executes one, and those of the turns before are still there), which share files and the semaphores
`sem_sinhvien` and `sem_voinuoc`.  A step is one access to a file or a semaphore; any process may take the
next one.  A tap process that leaves its loop returns from `main`, which halts the machine.

* `Inv` — who may run, and what remains to be written to `rslt.txt`.
* `inv_step` — every step keeps it, and comes closer to the end.
* `students_served` — every interleaving ends, and `rslt.txt` is what the taps write one after the other.
-/

set_option autoImplicit false

namespace Nachos

open CInt Decimal Stub Transition Voinuoc

namespace Sinhvien

/-! ## The processes -/

structure Disk where
  turn : List Byte
  rslt : List Byte
  require : List Byte
  first : List Byte
  second : List Byte
  tap : List Byte

def Disk.files (d : Disk) : Files := ⟨d.first, d.second⟩

/-- Where the student is. -/
inductive Pc where
  | createFirst | writeFirst | createSecond | writeSecond
  | loop | readTurn | writeRequire | signal | wait | readTap | writeTap | writeBlank | exited
  deriving DecidableEq, Repr

/-- The student: its variables, and the positions in its files. -/
structure Student where
  pc : Pc
  buf : Byte
  endof : Bool
  turnPos : Nat
  requirePos : Nat
  rsltPos : Nat

/-- A tap process, with its variables; `one` is whether it is the first tap that serves. -/
inductive Tap where
  | wait
  | readRequire (required : Word) (position : Nat)
  | readFirst (required first : Word) (position : Nat)
  | readSecond (required first second : Word) (position : Nat)
  | createTap (required first second : Word)
  | writeTap (required first second : Word)
  | zero (one : Bool)
  | digits (one : Bool) (total d : Word) (position : Nat)
  | signal
  | returned

structure State (ι : Type) where
  disk : Disk
  sem_sinhvien : Nat
  sem_voinuoc : Nat
  sinhvien : Student
  voinuoc : ι → Tap
  halted : Bool

inductive Event (ι : Type) where
  | sinhvien
  | voinuoc (i : ι)

variable {ι : Type} [DecidableEq ι]

/-- `buf[0] >= '0' && buf[0] <= '9'`. -/
def numeric (c : Byte) : Bool := (48 : Byte).sle c && c.sle 57

/-- The next step of the student. -/
def stepStudent (s : State ι) : Option (State ι) :=
  let d := s.disk
  let p := s.sinhvien
  match p.pc with
  | .createFirst => some { s with disk := { d with first := [] }, sinhvien := { p with pc := .writeFirst } }
  | .writeFirst =>
    some { s with
      disk := { d with first := overwrite d.first 0 [48] }, sinhvien := { p with pc := .createSecond, buf := 48 } }
  | .createSecond => some { s with disk := { d with second := [] }, sinhvien := { p with pc := .writeSecond } }
  | .writeSecond =>
    some { s with
      disk := { d with second := overwrite d.second 0 [48] }, sinhvien := { p with pc := .loop, buf := 48 } }
  | .loop =>
    if p.endof then some { s with sinhvien := { p with pc := .exited } }
    else
      some { s with disk := { d with require := [] }, sinhvien := { p with pc := .readTurn, requirePos := 0 } }
  | .readTurn =>
    match d.turn[p.turnPos]? with
    | none => some { s with sinhvien := { p with pc := .signal, endof := true } }
    | some c =>
      some { s with sinhvien := { p with
        pc := if numeric c then .writeRequire else .signal
        buf := c
        turnPos := p.turnPos + 1 } }
  | .writeRequire =>
    some { s with
      disk := { d with require := overwrite d.require p.requirePos [p.buf] }
      sinhvien := { p with pc := .readTurn, requirePos := p.requirePos + 1 } }
  | .signal => some { s with sem_voinuoc := s.sem_voinuoc + 1, sinhvien := { p with pc := .wait } }
  | .wait =>
    if s.sem_sinhvien = 0 then none
    else some { s with sem_sinhvien := s.sem_sinhvien - 1, sinhvien := { p with pc := .readTap } }
  | .readTap => some { s with sinhvien := { p with pc := .writeTap, buf := d.tap.headD p.buf } }
  | .writeTap =>
    some { s with
      disk := { d with rslt := overwrite d.rslt p.rsltPos [p.buf] }
      sinhvien := { p with pc := .writeBlank, buf := 32, rsltPos := p.rsltPos + 1 } }
  | .writeBlank =>
    some { s with
      disk := { d with rslt := overwrite d.rslt p.rsltPos [p.buf] }
      sinhvien := { p with pc := .loop, rsltPos := p.rsltPos + 1 } }
  | .exited => none

/-- One round of a loop that reads a number. -/
def readDigit (content : List Byte) (number : Word) (position : Nat) (again : Word → Nat → Tap) (done : Word → Tap) :
    Tap :=
  match content[position]? with
  | none => done number
  | some c => if numeric c then again (10 * number + (c.signExtend 32 - 48)) (position + 1) else done number

/-- What is written to the file of the tap: 0, or the digits of the total. -/
def startTotal (one : Bool) (total : Word) : Option Tap :=
  if total = 0 then some (.zero one) else (scaleLoop 32 total 1).map (fun d => .digits one total d 0)

/-- `first.txt` or `second.txt`. -/
def Disk.total (d : Disk) (one : Bool) : List Byte := if one then d.first else d.second

def Disk.setTotal (d : Disk) (one : Bool) (c : List Byte) : Disk :=
  if one then { d with first := c } else { d with second := c }

/-- The next step of a tap process: the files, and the process. -/
def stepFiles (d : Disk) : Tap → Option (Disk × Tap)
  | .readRequire required position =>
    some (d, readDigit d.require required position .readRequire
      (fun required => if required = 0 then .returned else .readFirst required 0 0))
  | .readFirst required first position =>
    some (d, readDigit d.first first position (.readFirst required) (fun first => .readSecond required first 0 0))
  | .readSecond required first second position =>
    some (d, readDigit d.second second position (.readSecond required first) (.createTap required first))
  | .createTap required first second => some ({ d with tap := [] }, .writeTap required first second)
  | .writeTap required first second =>
    if first.sle second then
      (startTotal true (first + required)).map (fun t => ({ d with tap := overwrite d.tap 0 [49] }, t))
    else (startTotal false (second + required)).map (fun t => ({ d with tap := overwrite d.tap 0 [50] }, t))
  | .zero one => some (d.setTotal one (overwrite (d.total one) 0 [48]), .signal)
  | .digits one total e position =>
    if (0 : Word).slt total then
      -- a division by zero
      if e = 0 then none
      else
        some (d.setTotal one (overwrite (d.total one) position [(48 + total.sdiv e).setWidth 8]),
          .digits one (total.srem e) (e.sdiv 10) (position + 1))
    else some (d, .signal)
  | _ => none

def stepTap (s : State ι) (i : ι) : Option (State ι) :=
  match s.voinuoc i with
  | .wait =>
    if s.sem_voinuoc = 0 then none
    else some { s with
      sem_voinuoc := s.sem_voinuoc - 1
      voinuoc := Function.update s.voinuoc i (.readRequire 0 0) }
  | .signal =>
    some { s with sem_sinhvien := s.sem_sinhvien + 1, voinuoc := Function.update s.voinuoc i .wait }
  | .returned => some { s with halted := true }
  | t => (stepFiles s.disk t).map (fun r => { s with
      disk := r.1
      voinuoc := Function.update s.voinuoc i r.2 })

def step (s : State ι) (e : Event ι) : Option (State ι) :=
  if s.halted then none
  else
    match e with
    | .sinhvien => stepStudent s
    | .voinuoc i => stepTap s i

/-- The student has just opened `turn.txt` and created `rslt.txt`; the files have what they had. -/
structure Start (turn : List Byte) (s : State ι) : Prop where
  turn : s.disk.turn = turn
  rslt : s.disk.rslt = []
  sem_sinhvien : s.sem_sinhvien = 0
  sem_voinuoc : s.sem_voinuoc = 0
  pc : s.sinhvien.pc = .createFirst
  endof : s.sinhvien.endof = false
  turnPos : s.sinhvien.turnPos = 0
  rsltPos : s.sinhvien.rsltPos = 0
  voinuoc : ∀ i, s.voinuoc i = .wait
  halted : s.halted = false

def processes (ι : Type) [DecidableEq ι] (turn : List Byte) : System (State ι) (Event ι) := ⟨Start turn, step⟩

/-! ## What they are for -/

/-- The amounts in `turn.txt`: the digits up to the next byte that is none.  `require` is what there is of
the first one. -/
def requires : List Byte → List Byte → List (List Byte)
  | require, [] => [require]
  | require, c :: l => if numeric c then requires (require ++ [c]) l else require :: requires [] l

/-- What the student writes to `rslt.txt` if the taps serve these amounts one after the other. -/
def output (f : Files) (rs : List (List Byte)) : List Byte := (serve f rs).flatMap (fun t => t.tap ++ [32])

/-- No amount is taken for 0. -/
def AllServed (rs : List (List Byte)) : Prop := ∀ r ∈ rs, readNumber 0 r ≠ 0

instance (rs : List (List Byte)) : Decidable (AllServed rs) := inferInstanceAs (Decidable (∀ r ∈ rs, _))

/-! ## The invariant -/

/-- The amounts that the student has not read. -/
def Student.remaining (p : Student) (turn : List Byte) : List (List Byte) :=
  if p.endof then [] else requires [] (turn.drop p.turnPos)

/-- `rslt`, with the answers for `rs` behind it, is what the student has to write in the end. -/
def Owes (turn rslt : List Byte) (f : Files) (rs : List (List Byte)) : Prop :=
  rslt ++ output f rs = output ⟨[48], [48]⟩ (requires [] turn) ∧ (AllServed rs ↔ AllServed (requires [] turn))

/-- How much of `turn.txt` is left; `late` is 1 behind the last byte of an amount. -/
def Student.rank (p : Student) (turn : List Byte) (late : Nat) : Nat :=
  2 * (2 * (turn.length - p.turnPos) + (if p.endof then 0 else 1)) + late

/-- The student runs: the state and its rank. -/
def Studies (p : Student) (d : Disk) (b : Nat × Nat × Nat) : Prop :=
  p.rsltPos = d.rslt.length ∧
  match p.pc with
  | .createFirst => Owes d.turn d.rslt ⟨[48], [48]⟩ (p.remaining d.turn) ∧ b = (p.rank d.turn 0, 9, 0)
  | .writeFirst =>
    d.first = [] ∧ Owes d.turn d.rslt ⟨[48], [48]⟩ (p.remaining d.turn) ∧ b = (p.rank d.turn 0, 8, 0)
  | .createSecond =>
    d.first = [48] ∧ Owes d.turn d.rslt ⟨[48], [48]⟩ (p.remaining d.turn) ∧ b = (p.rank d.turn 0, 7, 0)
  | .writeSecond =>
    d.first = [48] ∧ d.second = [] ∧ Owes d.turn d.rslt ⟨[48], [48]⟩ (p.remaining d.turn) ∧
      b = (p.rank d.turn 0, 6, 0)
  | .loop => Owes d.turn d.rslt d.files (p.remaining d.turn) ∧ b = (p.rank d.turn 0, 5, 0)
  | .writeRequire =>
    p.endof = false ∧ p.requirePos = d.require.length ∧
      Owes d.turn d.rslt d.files (requires (d.require ++ [p.buf]) (d.turn.drop p.turnPos)) ∧ b = (p.rank d.turn 0, 4, 0)
  | .readTurn =>
    p.endof = false ∧ p.requirePos = d.require.length ∧
      Owes d.turn d.rslt d.files (requires d.require (d.turn.drop p.turnPos)) ∧ b = (p.rank d.turn 0, 3, 0)
  | .signal => Owes d.turn d.rslt d.files (d.require :: p.remaining d.turn) ∧ b = (p.rank d.turn 1, 30, 0)
  | .wait => False
  | .readTap =>
    (∃ c, d.tap = [c] ∧ Owes d.turn (d.rslt ++ [c, 32]) d.files (p.remaining d.turn)) ∧ b = (p.rank d.turn 1, 20, 0)
  | .writeTap =>
    Owes d.turn (d.rslt ++ [p.buf, 32]) d.files (p.remaining d.turn) ∧ b = (p.rank d.turn 1, 19, 0)
  | .writeBlank =>
    p.buf = 32 ∧ Owes d.turn (d.rslt ++ [32]) d.files (p.remaining d.turn) ∧ b = (p.rank d.turn 1, 18, 0)
  | .exited => Owes d.turn d.rslt d.files [] ∧ b = (p.rank d.turn 0, 0, 0)

/-- The byte of a tap. -/
def tapByte (one : Bool) : Byte := if one then 49 else 50

/-- The files when `final` has been written to the file of the tap. -/
def Disk.served (d : Disk) (one : Bool) (final : List Byte) : Files := (d.setTotal one final).files

/-- A tap process runs: `rs` are the amounts behind the one it serves. -/
def Serves (d : Disk) (rs : List (List Byte)) (a : Nat) (b : Nat × Nat × Nat) : Tap → Prop
  | .readRequire required position =>
    readNumber required (d.require.drop position) = readNumber 0 d.require ∧
      Owes d.turn d.rslt d.files (d.require :: rs) ∧ b = (a, 28, d.require.length - position)
  | .readFirst required first position =>
    required = readNumber 0 d.require ∧ required ≠ 0 ∧ readNumber first (d.first.drop position) = readNumber 0 d.first ∧
      Owes d.turn d.rslt d.files (d.require :: rs) ∧ b = (a, 27, d.first.length - position)
  | .readSecond required first second position =>
    required = readNumber 0 d.require ∧ required ≠ 0 ∧ first = readNumber 0 d.first ∧
      readNumber second (d.second.drop position) = readNumber 0 d.second ∧
      Owes d.turn d.rslt d.files (d.require :: rs) ∧ b = (a, 26, d.second.length - position)
  | .createTap required first second =>
    required = readNumber 0 d.require ∧ required ≠ 0 ∧ first = readNumber 0 d.first ∧
      second = readNumber 0 d.second ∧ Owes d.turn d.rslt d.files (d.require :: rs) ∧ b = (a, 25, 0)
  | .writeTap required first second =>
    d.tap = [] ∧ required = readNumber 0 d.require ∧ required ≠ 0 ∧ first = readNumber 0 d.first ∧
      second = readNumber 0 d.second ∧ Owes d.turn d.rslt d.files (d.require :: rs) ∧ b = (a, 24, 0)
  | .zero one =>
    d.tap = [tapByte one] ∧
      Owes d.turn (d.rslt ++ [tapByte one, 32]) (d.served one (overwrite (d.total one) 0 [48])) rs ∧ b = (a, 23, 0)
  | .digits one total e position =>
    d.tap = [tapByte one] ∧ ∃ fuel final, writeLoop fuel total e (d.total one) position = some final ∧
      Owes d.turn (d.rslt ++ [tapByte one, 32]) (d.served one final) rs ∧ b = (a, 23, fuel)
  | .signal => (∃ c, d.tap = [c] ∧ Owes d.turn (d.rslt ++ [c, 32]) d.files rs) ∧ b = (a, 22, 0)
  | .returned =>
    d.rslt = output ⟨[48], [48]⟩ (requires [] d.turn) ∧ ¬ AllServed (requires [] d.turn) ∧ b = (a, 21, 0)
  | .wait => False

/-- Who runs, and the rank of the state: the student; nobody yet, but a tap may; the tap `i`; nobody yet, but
the student may; nobody any more. -/
inductive Inv (turn : List Byte) (s : State ι) (b : Nat × Nat × Nat) : Prop where
  | student (hturn : s.disk.turn = turn) (hhalted : s.halted = false) (hs : s.sem_sinhvien = 0) (hv : s.sem_voinuoc = 0)
      (htaps : ∀ i, s.voinuoc i = .wait) (h : Studies s.sinhvien s.disk b)
  | offered (hturn : s.disk.turn = turn) (hhalted : s.halted = false) (hs : s.sem_sinhvien = 0) (hv : s.sem_voinuoc = 1)
      (htaps : ∀ i, s.voinuoc i = .wait) (hpc : s.sinhvien.pc = .wait) (hpos : s.sinhvien.rsltPos = s.disk.rslt.length)
      (h : Owes s.disk.turn s.disk.rslt s.disk.files (s.disk.require :: s.sinhvien.remaining s.disk.turn))
      (hb : b = (s.sinhvien.rank s.disk.turn 1, 29, 0))
  | serving (i : ι) (hturn : s.disk.turn = turn) (hhalted : s.halted = false) (hs : s.sem_sinhvien = 0)
      (hv : s.sem_voinuoc = 0) (htaps : ∀ j ≠ i, s.voinuoc j = .wait) (hpc : s.sinhvien.pc = .wait)
      (hpos : s.sinhvien.rsltPos = s.disk.rslt.length)
      (h : Serves s.disk (s.sinhvien.remaining s.disk.turn) (s.sinhvien.rank s.disk.turn 1) b (s.voinuoc i))
  | served (hturn : s.disk.turn = turn) (hhalted : s.halted = false) (hs : s.sem_sinhvien = 1) (hv : s.sem_voinuoc = 0)
      (htaps : ∀ i, s.voinuoc i = .wait) (hpc : s.sinhvien.pc = .wait) (hpos : s.sinhvien.rsltPos = s.disk.rslt.length)
      (h : ∃ c, s.disk.tap = [c] ∧
        Owes s.disk.turn (s.disk.rslt ++ [c, 32]) s.disk.files (s.sinhvien.remaining s.disk.turn))
      (hb : b = (s.sinhvien.rank s.disk.turn 1, 21, 0))
  | halted (i : ι) (hhalted : s.halted = true) (htaps : ∀ j ≠ i, s.voinuoc j = .wait) (hpc : s.sinhvien.pc = .wait)
      (hrslt : s.disk.rslt = output ⟨[48], [48]⟩ (requires [] turn))
      (hnot : ¬ AllServed (requires [] turn))

/-! ## Amounts and answers -/

variable {turn rslt : List Byte} {f f' : Files} {r : List Byte} {rs : List (List Byte)} {t : Turn}

/-- What one turn adds. -/
theorem Owes.serves (h : Owes turn rslt f (r :: rs)) (ht : Voinuoc.turn f r = some (t, f')) (hr : readNumber 0 r ≠ 0) :
    Owes turn (rslt ++ (t.tap ++ [32])) f' rs := by
  obtain ⟨hout, hall⟩ := h
  constructor
  · rw [← hout, output, output, serve, ht, List.flatMap_cons, List.append_assoc]
  · rw [← hall, AllServed, AllServed, List.forall_mem_cons]
    exact ⟨fun h => ⟨hr, h⟩, fun h => h.2⟩

/-- The amount 0 is the last one. -/
theorem Owes.zero (h : Owes turn rslt f (r :: rs)) (hr : readNumber 0 r = 0) :
    rslt = output ⟨[48], [48]⟩ (requires [] turn) ∧ ¬ AllServed (requires [] turn) := by
  obtain ⟨hout, hall⟩ := h
  constructor
  · rw [← hout, output, serve, Voinuoc.turn, if_pos hr]
    exact (List.append_nil rslt).symm
  · rw [← hall]
    exact fun h => h r List.mem_cons_self hr

/-- The student reads a byte of `turn.txt`. -/
theorem requires_drop {l : List Byte} {c : Byte} {position : Nat} (h : l[position]? = some c) (r : List Byte) :
    requires r (l.drop position) =
      if numeric c then requires (r ++ [c]) (l.drop (position + 1)) else r :: requires [] (l.drop (position + 1)) := by
  obtain ⟨hlt, rfl⟩ := List.getElem?_eq_some_iff.1 h
  rw [List.drop_eq_getElem_cons hlt, requires]

theorem requires_end {l : List Byte} {position : Nat} (h : l[position]? = none) (r : List Byte) :
    requires r (l.drop position) = [r] := by
  rw [List.drop_eq_nil_of_le (List.getElem?_eq_none_iff.1 h), requires]

/-- A round of a loop that reads a number, and what it reads in the end. -/
theorem readDigit_cases {content : List Byte} {number : Word} {position : Nat} (again : Word → Nat → Tap)
    (done : Word → Tap) (h : readNumber number (content.drop position) = readNumber 0 content) :
    (∃ number', position < content.length ∧ readDigit content number position again done = again number' (position + 1) ∧
      readNumber number' (content.drop (position + 1)) = readNumber 0 content) ∨
    readDigit content number position again done = done (readNumber 0 content) := by
  unfold readDigit
  cases hc : content[position]? with
  | none =>
    right
    rw [List.drop_eq_nil_of_le (List.getElem?_eq_none_iff.1 hc), readNumber] at h
    dsimp only
    rw [h]
  | some c =>
    obtain ⟨hlt, rfl⟩ := List.getElem?_eq_some_iff.1 hc
    rw [List.drop_eq_getElem_cons hlt, readNumber] at h
    dsimp only
    by_cases hn : numeric content[position] = true
    · left
      rw [if_pos hn]
      exact ⟨_, hlt, rfl, by rwa [if_pos (show (_ && _) = true from hn)] at h⟩
    · right
      rw [if_neg hn]
      rw [if_neg (show ¬ (_ && _) = true from hn)] at h
      rw [h]

/-! ## The steps of a tap -/

variable {d : Disk} {one : Bool} {a : Nat} {b : Nat × Nat × Nat}

@[simp] theorem setTotal_tap (c : List Byte) : (d.setTotal one c).tap = d.tap := by cases one <;> rfl

@[simp] theorem setTotal_turn (c : List Byte) : (d.setTotal one c).turn = d.turn := by cases one <;> rfl

@[simp] theorem setTotal_rslt (c : List Byte) : (d.setTotal one c).rslt = d.rslt := by cases one <;> rfl

@[simp] theorem total_setTotal (c : List Byte) : (d.setTotal one c).total one = c := by cases one <;> rfl

@[simp] theorem setTotal_setTotal (c c' : List Byte) : (d.setTotal one c).setTotal one c' = d.setTotal one c' := by
  cases one <;> rfl

@[simp] theorem setTotal_total : d.setTotal one (d.total one) = d := by cases one <;> rfl

/-- The totals do not depend on `tap.txt`. -/
theorem total_tap (l : List Byte) : { d with tap := l }.total one = d.total one := by cases one <;> rfl

theorem served_tap (l final : List Byte) : { d with tap := l }.served one final = d.served one final := by
  cases one <;> rfl

/-- Which loop writes a total. -/
theorem startTotal_cases {total : Word} {c final : List Byte} (one : Bool) (h : writeNumber total c = some final) :
    (startTotal one total = some (.zero one) ∧ final = overwrite c 0 [48]) ∨
      ∃ e, startTotal one total = some (.digits one total e 0) ∧ writeLoop 32 total e c 0 = some final := by
  unfold writeNumber at h
  unfold startTotal
  split at h
  · rename_i hzero
    cases h
    exact .inl ⟨if_pos hzero, rfl⟩
  · rename_i hzero
    obtain ⟨e, hscale, hwrite⟩ := Option.bind_eq_some_iff.1 h
    exact .inr ⟨e, by rw [if_neg hzero, hscale, Option.map_some], hwrite⟩

/-- A tap has chosen: `one` serves. -/
theorem serves_startTotal {total : Word} (hone : d.tap = [tapByte one]) {final : List Byte}
    (hwrite : writeNumber total (d.total one) = some final)
    (howes : Owes d.turn (d.rslt ++ [tapByte one, 32]) (d.served one final) rs) :
    ∃ t, startTotal one total = some t ∧ ∃ b', Below b' (a, 24, 0) ∧ Serves d rs a b' t := by
  rcases startTotal_cases one hwrite with ⟨hstart, rfl⟩ | ⟨e, hstart, hloop⟩
  · exact ⟨_, hstart, (a, 23, 0), below_snd (by omega), hone, howes, rfl⟩
  · exact ⟨_, hstart, (a, 23, 32), below_snd (by omega), hone, 32, final, hloop, howes, rfl⟩

theorem readNumber_total (d : Disk) (one : Bool) :
    readNumber 0 (d.total one) = if one then readNumber 0 d.first else readNumber 0 d.second := by
  cases one <;> rfl

/-- The turn that the files stand for. -/
theorem turn_files (hone : (readNumber 0 d.first).sle (readNumber 0 d.second) = one) (hne : readNumber 0 d.require ≠ 0)
    {final : List Byte} (hwrite : writeNumber (readNumber 0 (d.total one) + readNumber 0 d.require) (d.total one) =
      some final) :
    Voinuoc.turn d.files d.require =
      some (⟨readNumber 0 d.first, readNumber 0 d.second, [tapByte one]⟩, d.served one final) := by
  cases one with
  | true =>
    change writeNumber (readNumber 0 d.first + readNumber 0 d.require) d.first = some final at hwrite
    simp only [Voinuoc.turn, Disk.files, hne, hone, hwrite, if_false, if_true, Option.map_some]
    rfl
  | false =>
    change writeNumber (readNumber 0 d.second + readNumber 0 d.require) d.second = some final at hwrite
    simp only [Voinuoc.turn, Disk.files, hne, hone, hwrite, if_false, Bool.false_eq_true, Option.map_some]
    rfl

theorem stepFiles_writeTap {required first second : Word} (hone : first.sle second = one) :
    stepFiles d (.writeTap required first second) =
      (startTotal one ((if one then first else second) + required)).map
        (fun t => ({ d with tap := overwrite d.tap 0 [tapByte one] }, t)) := by
  cases one with
  | true => rw [stepFiles, if_pos hone, if_pos rfl, tapByte, if_pos rfl]
  | false => rw [stepFiles, hone, if_neg (by decide), if_neg (by decide), tapByte, if_neg (by decide)]

/-- **A step of the tap that runs**, before it gives the semaphore back. -/
theorem serves_step {t : Tap} (h : Serves d rs a b t) (hsignal : t ≠ .signal) (hreturned : t ≠ .returned) :
    ∃ d' t', stepFiles d t = some (d', t') ∧ d'.turn = d.turn ∧ d'.rslt = d.rslt ∧
      ∃ b', Below b' b ∧ Serves d' rs a b' t' := by
  cases t with
  | wait => exact h.elim
  | signal => exact absurd rfl hsignal
  | returned => exact absurd rfl hreturned
  | readRequire required position =>
    obtain ⟨hread, howes, rfl⟩ := h
    refine ⟨d, _, rfl, rfl, rfl, ?_⟩
    rcases readDigit_cases Tap.readRequire
      (fun required => if required = 0 then .returned else .readFirst required 0 0) hread with
      ⟨number, hlt, heq, hread'⟩ | heq
    · rw [heq]
      exact ⟨_, below_trd (by omega), hread', howes, rfl⟩
    · rw [heq]
      split
      · rename_i hzero
        obtain ⟨hrslt, hnot⟩ := howes.zero hzero
        exact ⟨_, below_snd (by omega), hrslt, hnot, rfl⟩
      · rename_i hne
        exact ⟨_, below_snd (by omega), rfl, hne, rfl, howes, rfl⟩
  | readFirst required first position =>
    obtain ⟨hreq, hne, hread, howes, rfl⟩ := h
    refine ⟨d, _, rfl, rfl, rfl, ?_⟩
    rcases readDigit_cases (Tap.readFirst required) (fun first => .readSecond required first 0 0) hread with
      ⟨number, hlt, heq, hread'⟩ | heq
    · rw [heq]
      exact ⟨_, below_trd (by omega), hreq, hne, hread', howes, rfl⟩
    · rw [heq]
      exact ⟨_, below_snd (by omega), hreq, hne, rfl, rfl, howes, rfl⟩
  | readSecond required first second position =>
    obtain ⟨hreq, hne, hfirst, hread, howes, rfl⟩ := h
    refine ⟨d, _, rfl, rfl, rfl, ?_⟩
    rcases readDigit_cases (Tap.readSecond required first) (Tap.createTap required first) hread with
      ⟨number, hlt, heq, hread'⟩ | heq
    · rw [heq]
      exact ⟨_, below_trd (by omega), hreq, hne, hfirst, hread', howes, rfl⟩
    · rw [heq]
      exact ⟨_, below_snd (by omega), hreq, hne, hfirst, rfl, howes, rfl⟩
  | createTap required first second =>
    obtain ⟨hreq, hne, hfirst, hsecond, howes, rfl⟩ := h
    exact ⟨{ d with tap := [] }, _, rfl, rfl, rfl, _, below_snd (by omega), rfl, hreq, hne, hfirst, hsecond, howes, rfl⟩
  | writeTap required first second =>
    obtain ⟨htap, hreq, hne, hfirst, hsecond, howes, rfl⟩ := h
    subst hreq hfirst hsecond
    generalize hone : (readNumber 0 d.first).sle (readNumber 0 d.second) = one
    obtain ⟨final, hwrite⟩ := writeNumber_isSome (readNumber 0 (d.total one) + readNumber 0 d.require) (d.total one)
    have htaken : Owes d.turn (d.rslt ++ [tapByte one, 32]) (d.served one final) rs :=
      howes.serves (turn_files hone hne hwrite) hne
    obtain ⟨t, hstart, b', hlt, hserves⟩ := serves_startTotal (d := { d with tap := [tapByte one] }) (a := a) rfl
      ((total_tap _).symm ▸ hwrite) ((served_tap _ _).symm ▸ htaken)
    refine ⟨{ d with tap := [tapByte one] }, t, ?_, rfl, rfl, b', hlt, hserves⟩
    rw [total_tap] at hstart
    rw [stepFiles_writeTap hone, ← readNumber_total, hstart, htap]
    rfl
  | zero one =>
    obtain ⟨htap, howes, rfl⟩ := h
    refine ⟨_, _, rfl, setTotal_turn _, setTotal_rslt _, (a, 22, 0), below_snd (by omega), ⟨tapByte one, ?_, ?_⟩, rfl⟩
    · rw [setTotal_tap, htap]
    · rw [setTotal_turn, setTotal_rslt]
      exact howes
  | digits one total e position =>
    obtain ⟨htap, fuel, final, hloop, howes, rfl⟩ := h
    cases fuel with
    | zero => cases hloop
    | succ fuel =>
      rw [writeLoop] at hloop
      rw [stepFiles]
      split at hloop
      · rename_i hpos
        split at hloop
        · cases hloop
        · rename_i hne
          rw [if_pos hpos, if_neg hne]
          refine ⟨_, _, rfl, setTotal_turn _, setTotal_rslt _, (a, 23, fuel), below_trd (by omega), ?_, fuel, final, ?_, ?_,
            rfl⟩
          · rw [setTotal_tap, htap]
          · rw [total_setTotal]
            exact hloop
          · rw [setTotal_turn, setTotal_rslt, Disk.served, setTotal_setTotal]
            exact howes
      · rename_i hpos
        cases hloop
        rw [if_neg hpos]
        refine ⟨d, _, rfl, rfl, rfl, (a, 22, 0), below_snd (by omega), ⟨tapByte one, htap, ?_⟩, rfl⟩
        rwa [Disk.served, setTotal_total] at howes

/-! ## The steps of the student -/

/-- To write at the end of a file is to append. -/
theorem overwrite_length (l : List Byte) (c : Byte) : overwrite l l.length [c] = l ++ [c] := by
  rw [overwrite, if_neg (List.cons_ne_nil c []), Nat.sub_self, List.replicate_zero, List.append_nil, List.take_length,
    List.drop_eq_nil_of_le (Nat.le_add_right _ _), List.append_nil]

theorem length_snoc (l : List Byte) (c : Byte) : l.length + 1 = (l ++ [c]).length := by
  rw [List.length_append, List.length_singleton]

omit [DecidableEq ι] in
/-- **A step of the student**, while it runs and before it lets a tap serve. -/
theorem studies_step {s s' : State ι} (h : Studies s.sinhvien s.disk b) (hsignal : s.sinhvien.pc ≠ .signal)
    (hstep : stepStudent s = some s') :
    ∃ d' p', s' = { s with disk := d', sinhvien := p' } ∧ d'.turn = s.disk.turn ∧
      ∃ b', Below b' b ∧ Studies p' d' b' := by
  obtain ⟨d, sem_sinhvien, sem_voinuoc, ⟨pc, buf, endof, turnPos, requirePos, rsltPos⟩, taps, halted⟩ := s
  obtain ⟨hpos, h⟩ := h
  change rsltPos = d.rslt.length at hpos
  cases pc with
  | createFirst =>
    obtain ⟨howes, rfl⟩ := h
    cases hstep
    exact ⟨_, _, rfl, rfl, _, below_snd (by omega), hpos, rfl, howes, rfl⟩
  | writeFirst =>
    obtain ⟨hfirst, howes, rfl⟩ := h
    cases hstep
    refine ⟨_, _, rfl, rfl, _, below_snd (by omega), hpos, ?_, howes, rfl⟩
    change overwrite d.first 0 [48] = [48]
    rw [hfirst]
    rfl
  | createSecond =>
    obtain ⟨hfirst, howes, rfl⟩ := h
    cases hstep
    exact ⟨_, _, rfl, rfl, _, below_snd (by omega), hpos, hfirst, rfl, howes, rfl⟩
  | writeSecond =>
    obtain ⟨hfirst, hsecond, howes, rfl⟩ := h
    cases hstep
    refine ⟨_, _, rfl, rfl, _, below_snd (by omega), hpos, ?_, rfl⟩
    have hfiles : Disk.files { d with second := overwrite d.second 0 [48] } = ⟨[48], [48]⟩ := by
      rw [Disk.files, hfirst, hsecond]
      rfl
    rw [hfiles]
    exact howes
  | loop =>
    obtain ⟨howes, rfl⟩ := h
    cases endof with
    | true =>
      cases hstep
      exact ⟨_, _, rfl, rfl, _, below_snd (by omega), hpos, howes, rfl⟩
    | false =>
      cases hstep
      exact ⟨_, _, rfl, rfl, _, below_snd (by omega), hpos, rfl, rfl, howes, rfl⟩
  | readTurn =>
    obtain ⟨hend, hreq, howes, rfl⟩ := h
    change endof = false at hend
    subst hend
    change Owes d.turn d.rslt d.files (requires d.require (d.turn.drop turnPos)) at howes
    cases hread : d.turn[turnPos]? with
    | none =>
      simp only [stepStudent, hread, Option.some.injEq] at hstep
      subst hstep
      rw [requires_end hread] at howes
      refine ⟨_, _, rfl, rfl, _, below_fst ?_, hpos, howes, rfl⟩
      simp only [Student.rank, if_true, Bool.false_eq_true, if_false]
      omega
    | some c =>
      simp only [stepStudent, hread, Option.some.injEq] at hstep
      subst hstep
      have hlt : turnPos < d.turn.length := (List.getElem?_eq_some_iff.1 hread).1
      rw [requires_drop hread] at howes
      by_cases hn : numeric c = true
      · rw [if_pos hn] at howes
        simp only [hn, if_true]
        refine ⟨_, _, rfl, rfl, _, below_fst ?_, hpos, rfl, hreq, howes, rfl⟩
        simp only [Student.rank, Bool.false_eq_true, if_false]
        omega
      · rw [if_neg hn] at howes
        simp only [hn]
        refine ⟨_, _, rfl, rfl, _, below_fst ?_, hpos, howes, rfl⟩
        simp only [Student.rank, Bool.false_eq_true, if_false]
        omega
  | writeRequire =>
    obtain ⟨hend, hreq, howes, rfl⟩ := h
    cases hstep
    change requirePos = d.require.length at hreq
    subst hreq
    rw [overwrite_length]
    exact ⟨_, _, rfl, rfl, _, below_snd (by omega), hpos, hend, length_snoc d.require buf, howes, rfl⟩
  | signal => exact absurd rfl hsignal
  | wait => exact h.elim
  | readTap =>
    obtain ⟨⟨c, htap, howes⟩, rfl⟩ := h
    cases hstep
    rw [htap]
    exact ⟨_, _, rfl, rfl, _, below_snd (by omega), hpos, howes, rfl⟩
  | writeTap =>
    obtain ⟨howes, rfl⟩ := h
    cases hstep
    subst hpos
    rw [overwrite_length]
    refine ⟨_, _, rfl, rfl, _, below_snd (by omega), length_snoc d.rslt buf, rfl, ?_, rfl⟩
    rw [List.append_assoc]
    exact howes
  | writeBlank =>
    obtain ⟨hbuf, howes, rfl⟩ := h
    cases hstep
    subst hpos
    change buf = 32 at hbuf
    subst hbuf
    rw [overwrite_length]
    refine ⟨_, _, rfl, rfl, _, below_fst ?_, length_snoc d.rslt 32, howes, rfl⟩
    simp only [Student.rank]
    omega
  | exited => cases hstep

/-! ## The invariant holds -/

omit [DecidableEq ι] in
theorem inv_start {turn : List Byte} {s : State ι} (h : Start turn s) : ∃ b, Inv turn s b := by
  refine ⟨(s.sinhvien.rank s.disk.turn 0, 9, 0),
    .student h.turn h.halted h.sem_sinhvien h.sem_voinuoc h.voinuoc ⟨?_, ?_⟩⟩
  · rw [h.rsltPos, h.rslt]
    rfl
  · rw [h.pc]
    refine ⟨⟨?_, ?_⟩, rfl⟩
    · rw [h.rslt, Student.remaining, h.endof, h.turnPos]
      rfl
    · rw [Student.remaining, h.endof, h.turnPos]
      exact Iff.rfl

theorem step_sinhvien {s : State ι} (h : s.halted = false) : step s .sinhvien = stepStudent s := by
  rw [step.eq_def, h, if_neg (by decide)]

theorem step_voinuoc {s : State ι} (h : s.halted = false) (i : ι) : step s (.voinuoc i) = stepTap s i := by
  rw [step.eq_def, h, if_neg (by decide)]

theorem stepTap_files {s : State ι} {i : ι} (hwait : s.voinuoc i ≠ .wait) (hsignal : s.voinuoc i ≠ .signal)
    (hreturned : s.voinuoc i ≠ .returned) :
    stepTap s i = (stepFiles s.disk (s.voinuoc i)).map (fun r => { s with
      disk := r.1
      voinuoc := Function.update s.voinuoc i r.2 }) := by
  unfold stepTap
  split
  · exact absurd ‹_› hwait
  · exact absurd ‹_› hsignal
  · exact absurd ‹_› hreturned
  · rfl

/-- A tap that waits does not run as long as the semaphore is 0. -/
theorem stepTap_wait {s : State ι} {j : ι} (htap : s.voinuoc j = .wait) (hv : s.sem_voinuoc = 0) :
    stepTap s j = none := by
  simp only [stepTap, htap, hv, if_true]

omit [DecidableEq ι] in
/-- The student that waits does not run as long as the semaphore is 0. -/
theorem stepStudent_wait {s : State ι} (hpc : s.sinhvien.pc = .wait) (hs : s.sem_sinhvien = 0) : stepStudent s = none := by
  simp only [stepStudent, hpc, hs, if_true]

/-- The student does not move the taps. -/
theorem step_sinhvien_voinuoc {s s' : State ι} (h : step s .sinhvien = some s') (j : ι) : s'.voinuoc j = s.voinuoc j := by
  rw [step.eq_def] at h
  split at h
  · cases h
  · dsimp only [stepStudent] at h
    repeat' split at h
    all_goals cases h
    all_goals rfl

/-- A tap moves itself only. -/
theorem step_voinuoc_ne {s s' : State ι} {i j : ι} (h : step s (.voinuoc i) = some s') (hj : j ≠ i) :
    s'.voinuoc j = s.voinuoc j := by
  rw [step.eq_def] at h
  split at h
  · cases h
  · dsimp only [stepTap] at h
    split at h
    · split at h
      · cases h
      · cases h
        exact Function.update_of_ne hj _ _
    · cases h
      exact Function.update_of_ne hj _ _
    · cases h
      rfl
    · obtain ⟨r, -, rfl⟩ := Option.map_eq_some_iff.1 h
      exact Function.update_of_ne hj _ _

/-- The tap that runs takes its next step. -/
theorem inv_serving {turn : List Byte} {s s' : State ι} {b : Nat × Nat × Nat} {i : ι} (hturn : s.disk.turn = turn)
    (hhalted : s.halted = false) (hs : s.sem_sinhvien = 0) (hv : s.sem_voinuoc = 0)
    (htaps : ∀ j ≠ i, s.voinuoc j = .wait) (hpc : s.sinhvien.pc = .wait) (hpos : s.sinhvien.rsltPos = s.disk.rslt.length)
    (h : Serves s.disk (s.sinhvien.remaining s.disk.turn) (s.sinhvien.rank s.disk.turn 1) b (s.voinuoc i))
    (hstep : stepTap s i = some s') : ∃ b', Below b' b ∧ Inv turn s' b' := by
  have hupdate (t : Tap) : ∀ j ≠ i, Function.update s.voinuoc i t j = .wait := by
    intro j hj
    rw [Function.update_of_ne hj, htaps j hj]
  have hself (t : Tap) : Function.update s.voinuoc i t i = t :=
    Function.update_self (β := fun _ => Tap) i t s.voinuoc
  by_cases hsignal : s.voinuoc i = .signal
  · rw [hsignal] at h
    obtain ⟨htap, rfl⟩ := h
    simp only [stepTap, hsignal, Option.some.injEq] at hstep
    subst hstep
    refine ⟨_, below_snd (by omega), .served hturn hhalted (congrArg (· + 1) hs) hv ?_ hpc hpos htap rfl⟩
    intro j
    by_cases hj : j = i
    · rw [hj]
      exact hself .wait
    · exact hupdate .wait j hj
  · by_cases hreturned : s.voinuoc i = .returned
    · rw [hreturned] at h
      obtain ⟨hrslt, hnot, rfl⟩ := h
      simp only [stepTap, hreturned, Option.some.injEq] at hstep
      subst hstep
      rw [hturn] at hrslt hnot
      exact ⟨(s.sinhvien.rank s.disk.turn 1, 0, 0), below_snd (by omega), .halted i rfl htaps hpc hrslt hnot⟩
    · obtain ⟨d', t', hfiles, hturn', hrslt', b', hlt, h'⟩ := serves_step h hsignal hreturned
      have hwait : s.voinuoc i ≠ .wait := by
        intro hwait
        rw [hwait] at h
        exact h
      rw [stepTap_files hwait hsignal hreturned, hfiles, Option.map_some, Option.some.injEq] at hstep
      subst hstep
      refine ⟨b', hlt, .serving i (hturn'.trans hturn) hhalted hs hv (hupdate t') hpc ?_ ?_⟩
      · exact hpos.trans (congrArg List.length hrslt'.symm)
      · show Serves d' (s.sinhvien.remaining d'.turn) (s.sinhvien.rank d'.turn 1) b' (Function.update s.voinuoc i t' i)
        rw [hself, hturn']
        exact h'

/-- **Every step keeps the invariant**, and lowers the rank. -/
theorem inv_step {turn : List Byte} {s s' : State ι} {b : Nat × Nat × Nat} {e : Event ι} (h : Inv turn s b)
    (hstep : step s e = some s') : ∃ b', Below b' b ∧ Inv turn s' b' := by
  cases h with
  | student hturn hhalted hs hv htaps h =>
    cases e with
    | sinhvien =>
      rw [step_sinhvien hhalted] at hstep
      by_cases hpc : s.sinhvien.pc = .signal
      · obtain ⟨hpos, h⟩ := h
        rw [hpc] at h
        obtain ⟨howes, rfl⟩ := h
        simp only [stepStudent, hpc, Option.some.injEq] at hstep
        subst hstep
        exact ⟨_, below_snd (by omega), .offered hturn hhalted hs (congrArg (· + 1) hv) htaps rfl hpos howes rfl⟩
      · obtain ⟨d', p', rfl, hturn', b', hlt, h'⟩ := studies_step h hpc hstep
        exact ⟨b', hlt, .student (hturn'.trans hturn) hhalted hs hv htaps h'⟩
    | voinuoc i =>
      rw [step_voinuoc hhalted] at hstep
      have hnone := stepTap_wait (htaps i) hv
      rw [hnone] at hstep
      cases hstep
  | offered hturn hhalted hs hv htaps hpc hpos h hb =>
    subst hb
    cases e with
    | sinhvien =>
      rw [step_sinhvien hhalted] at hstep
      rw [stepStudent_wait hpc hs] at hstep
      cases hstep
    | voinuoc i =>
      rw [step_voinuoc hhalted] at hstep
      simp only [stepTap, htaps i, hv, Nat.one_ne_zero, if_false, Option.some.injEq] at hstep
      subst hstep
      refine ⟨(s.sinhvien.rank s.disk.turn 1, 28, s.disk.require.length - 0), below_snd (by omega),
        .serving i hturn hhalted hs rfl ?_ hpc hpos ?_⟩
      · intro j hj
        exact (Function.update_of_ne hj _ _).trans (htaps j)
      · show Serves s.disk _ _ _ (Function.update s.voinuoc i (Tap.readRequire 0 0) i)
        rw [Function.update_self]
        exact ⟨rfl, h, rfl⟩
  | serving i hturn hhalted hs hv htaps hpc hpos h =>
    cases e with
    | sinhvien =>
      rw [step_sinhvien hhalted] at hstep
      rw [stepStudent_wait hpc hs] at hstep
      cases hstep
    | voinuoc j =>
      rw [step_voinuoc hhalted] at hstep
      by_cases hj : j = i
      · subst hj
        exact inv_serving hturn hhalted hs hv htaps hpc hpos h hstep
      · rw [stepTap_wait (htaps j hj) hv] at hstep
        cases hstep
  | served hturn hhalted hs hv htaps hpc hpos h hb =>
    subst hb
    cases e with
    | sinhvien =>
      rw [step_sinhvien hhalted] at hstep
      simp only [stepStudent, hpc, hs, Nat.one_ne_zero, if_false, Option.some.injEq] at hstep
      subst hstep
      exact ⟨_, below_snd (by omega), .student hturn hhalted rfl hv htaps ⟨hpos, h, rfl⟩⟩
    | voinuoc i =>
      rw [step_voinuoc hhalted] at hstep
      rw [stepTap_wait (htaps i) hv] at hstep
      cases hstep
  | halted i hhalted =>
    rw [step.eq_def, if_pos hhalted] at hstep
    cases hstep

theorem ranked (ι : Type) [DecidableEq ι] (turn : List Byte) : (processes ι turn).Ranked Below (Inv turn) where
  wf := wellFounded_below
  init := fun _ h => inv_start h
  step := fun _ _ _ _ h hstep => inv_step h hstep

/-! ## The end -/

omit [DecidableEq ι] in
/-- The student that runs is not stuck before it exits. -/
theorem stepStudent_isSome {s : State ι} (h : Studies s.sinhvien s.disk b) (hpc : s.sinhvien.pc ≠ .exited) :
    ∃ s', stepStudent s = some s' := by
  obtain ⟨d, sem_sinhvien, sem_voinuoc, ⟨pc, buf, endof, turnPos, requirePos, rsltPos⟩, taps, halted⟩ := s
  obtain ⟨-, h⟩ := h
  cases pc with
  | exited => exact absurd rfl hpc
  | wait => exact h.elim
  | loop =>
    cases endof with
    | true => exact ⟨_, rfl⟩
    | false => exact ⟨_, rfl⟩
  | readTurn =>
    cases hread : d.turn[turnPos]? with
    | none =>
      simp only [stepStudent, hread]
      exact ⟨_, rfl⟩
    | some c =>
      simp only [stepStudent, hread]
      exact ⟨_, rfl⟩
  | _ => exact ⟨_, rfl⟩

/-- The tap that runs is not stuck. -/
theorem stepTap_isSome {s : State ι} {i : ι} (h : Serves s.disk rs a b (s.voinuoc i)) : ∃ s', stepTap s i = some s' := by
  by_cases hsignal : s.voinuoc i = .signal
  · unfold stepTap
    rw [hsignal]
    exact ⟨_, rfl⟩
  · by_cases hreturned : s.voinuoc i = .returned
    · unfold stepTap
      rw [hreturned]
      exact ⟨_, rfl⟩
    · obtain ⟨d', t', hfiles, -⟩ := serves_step h hsignal hreturned
      have hwait : s.voinuoc i ≠ .wait := by
        intro hwait
        rw [hwait] at h
        exact h
      rw [stepTap_files hwait hsignal hreturned, hfiles]
      exact ⟨_, rfl⟩

omit [DecidableEq ι] in
/-- The student has exited. -/
theorem Inv.exited {turn : List Byte} {s : State ι} (h : Inv turn s b) (hpc : s.sinhvien.pc = .exited) :
    s.disk.rslt = output ⟨[48], [48]⟩ (requires [] turn) ∧ s.halted = false ∧ s.sem_sinhvien = 0 ∧ s.sem_voinuoc = 0 ∧
      (∀ i, s.voinuoc i = .wait) ∧ AllServed (requires [] turn) := by
  have hwait (hpc' : s.sinhvien.pc = .wait) : False := by
    rw [hpc] at hpc'
    cases hpc'
  cases h with
  | student hturn hhalted hs hv htaps h =>
    obtain ⟨-, h⟩ := h
    rw [hpc, hturn] at h
    obtain ⟨⟨hout, hall⟩, -⟩ := h
    exact ⟨(List.append_nil _).symm.trans hout, hhalted, hs, hv, htaps, hall.1 (List.forall_mem_nil _)⟩
  | offered _ _ _ _ _ hpc' => exact (hwait hpc').elim
  | serving _ _ _ _ _ _ hpc' => exact (hwait hpc').elim
  | served _ _ _ _ _ hpc' => exact (hwait hpc').elim
  | halted _ _ _ hpc' => exact (hwait hpc').elim

omit [DecidableEq ι] in
/-- A tap has halted the machine. -/
theorem Inv.of_halted {turn : List Byte} {s : State ι} (h : Inv turn s b) (hhalted : s.halted = true) :
    s.disk.rslt = output ⟨[48], [48]⟩ (requires [] turn) ∧ ¬ AllServed (requires [] turn) := by
  have hrunning (hhalted' : s.halted = false) : False := by
    rw [hhalted] at hhalted'
    cases hhalted'
  cases h with
  | student _ hhalted' => exact (hrunning hhalted').elim
  | offered _ hhalted' => exact (hrunning hhalted').elim
  | serving _ _ hhalted' => exact (hrunning hhalted').elim
  | served _ hhalted' => exact (hrunning hhalted').elim
  | halted _ _ _ _ hrslt hnot => exact ⟨hrslt, hnot⟩

/-- **Nobody is stuck**: the student can go on, or the tap that serves, or any tap `j`. -/
theorem Inv.progress {turn : List Byte} {s : State ι} (h : Inv turn s b) (hhalted : s.halted = false)
    (hpc : s.sinhvien.pc ≠ .exited) (j : ι) :
    ∃ e s', step s e = some s' ∧ ∀ i, e = .voinuoc i → i = j ∨ s.voinuoc i ≠ .wait := by
  cases h with
  | student _ _ _ _ _ h =>
    obtain ⟨s', hstep⟩ := stepStudent_isSome h hpc
    refine ⟨.sinhvien, s', (step_sinhvien hhalted).trans hstep, ?_⟩
    rintro i ⟨⟩
  | offered _ _ _ hv htaps =>
    obtain ⟨s', hstep⟩ : ∃ s', stepTap s j = some s' := by
      simp only [stepTap, htaps j, hv, Nat.one_ne_zero, if_false]
      exact ⟨_, rfl⟩
    refine ⟨.voinuoc j, s', (step_voinuoc hhalted j).trans hstep, ?_⟩
    rintro i ⟨⟩
    exact .inl rfl
  | serving k _ _ _ _ _ _ _ h =>
    obtain ⟨s', hstep⟩ := stepTap_isSome h
    refine ⟨.voinuoc k, s', (step_voinuoc hhalted k).trans hstep, ?_⟩
    rintro i ⟨⟩
    refine .inr fun hwait => ?_
    rw [hwait] at h
    exact h
  | served _ _ hs _ _ hpc' =>
    obtain ⟨s', hstep⟩ : ∃ s', stepStudent s = some s' := by
      simp only [stepStudent, hpc', hs, Nat.one_ne_zero, if_false]
      exact ⟨_, rfl⟩
    refine ⟨.sinhvien, s', (step_sinhvien hhalted).trans hstep, ?_⟩
    rintro i ⟨⟩
  | halted _ hhalted' =>
    rw [hhalted] at hhalted'
    cases hhalted'

/-- **At the end**, the student has exited, or a tap has halted the machine. -/
theorem final_cases [Nonempty ι] {turn : List Byte} {s : State ι} (h : Inv turn s b) (hfinal : ∀ e, step s e = none) :
    s.sinhvien.pc = .exited ∨ s.halted = true := by
  by_contra hnot
  obtain ⟨hpc, hhalted⟩ := not_or.1 hnot
  obtain ⟨j⟩ := ‹Nonempty ι›
  obtain ⟨e, s', hstep, -⟩ := h.progress (Bool.eq_false_iff.2 hhalted) hpc j
  rw [hfinal e] at hstep
  cases hstep

omit [DecidableEq ι] in
/-- At most one tap runs, and only while the student waits. -/
theorem Inv.excludes {turn : List Byte} {s : State ι} {b : Nat × Nat × Nat} (h : Inv turn s b) {i : ι}
    (hi : s.voinuoc i ≠ .wait) : s.sinhvien.pc = .wait ∧ ∀ j ≠ i, s.voinuoc j = .wait := by
  have hrunning {k : ι} (htaps : ∀ j ≠ k, s.voinuoc j = .wait) : ∀ j ≠ i, s.voinuoc j = .wait := by
    have hik : i = k := by
      by_contra hne
      exact hi (htaps i hne)
    rw [hik]
    exact htaps
  cases h with
  | student _ _ _ _ htaps => exact absurd (htaps i) hi
  | offered _ _ _ _ htaps => exact absurd (htaps i) hi
  | serving k _ _ _ _ htaps hpc => exact ⟨hpc, hrunning htaps⟩
  | served _ _ _ _ htaps => exact absurd (htaps i) hi
  | halted k _ htaps hpc => exact ⟨hpc, hrunning htaps⟩

/-- **The students and the taps**, however many tap processes there are and however they interleave: no two
processes are ever between their `Wait` and their `Signal`, no run goes on forever, and at the end `rslt.txt`
is what the taps write if they serve the amounts of `turn.txt` one after the other.  The student has exited
then, and every tap waits for the next turn; unless an amount was taken for 0, which halts the machine. -/
theorem students_served (ι : Type) [DecidableEq ι] [Nonempty ι] (turn : List Byte) :
    (processes ι turn).Terminates ∧
      ∀ s, (processes ι turn).Reachable s →
        (∀ i, s.voinuoc i ≠ .wait → s.sinhvien.pc = .wait ∧ ∀ j ≠ i, s.voinuoc j = .wait) ∧
        ((processes ι turn).Final s →
          s.disk.rslt = output ⟨[48], [48]⟩ (requires [] turn) ∧
          if AllServed (requires [] turn) then
            s.halted = false ∧ s.sinhvien.pc = .exited ∧ s.sem_sinhvien = 0 ∧ s.sem_voinuoc = 0 ∧
              ∀ i, s.voinuoc i = .wait
          else s.halted = true) := by
  refine ⟨(ranked ι turn).terminates, ?_⟩
  intro s hs
  obtain ⟨b, hb⟩ := (ranked ι turn).invariant hs
  refine ⟨fun i hi => hb.excludes hi, ?_⟩
  intro hfinal
  rcases final_cases hb hfinal with hpc | hhalted
  · obtain ⟨hrslt, hhalted, hsem, hvoi, htaps, hall⟩ := hb.exited hpc
    rw [if_pos hall]
    exact ⟨hrslt, hhalted, hpc, hsem, hvoi, htaps⟩
  · obtain ⟨hrslt, hnot⟩ := hb.of_halted hhalted
    rw [if_neg hnot]
    exact ⟨hrslt, hhalted⟩

/-- The turn `7 15 8` with two tap processes: the taps 1, 2 and 1 serve. -/
theorem students_served_two : (processes (Fin 2) [55, 32, 49, 53, 32, 56]).Terminates ∧
    ∀ s, (processes (Fin 2) [55, 32, 49, 53, 32, 56]).Reachable s →
      (processes (Fin 2) [55, 32, 49, 53, 32, 56]).Final s → s.disk.rslt = [49, 32, 50, 32, 49, 32] ∧ s.halted = false := by
  obtain ⟨hends, h⟩ := students_served (Fin 2) [55, 32, 49, 53, 32, 56]
  refine ⟨hends, ?_⟩
  intro s hs hfinal
  obtain ⟨hrslt, hserved⟩ := (h s hs).2 hfinal
  rw [if_pos (by decide)] at hserved
  exact ⟨hrslt.trans (by decide), hserved.1⟩

end Sinhvien

end Nachos
