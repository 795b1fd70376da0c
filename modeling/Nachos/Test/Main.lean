import Nachos.Test.Sinhvien
import Nachos.Threads.Ptable
import Nachos.Userprog.AddrSpace

/-!
# The test with the students

`test/main.c`: it reads the number of turns from `input.txt`, and for every turn copies a line to
`turn.txt`, executes a student (which executes a tap process), joins it, and appends `rslt.txt` to
`output.txt`.  The processes of `Nachos.Test.Sinhvien` run in between, in any order.

* `main_step` — every step keeps the invariant `MainInv`, and comes closer to the end.
* `main_output` — every run ends, with the answers for the lines in `output.txt`; but there are frames for
  three turns only.
-/

set_option autoImplicit false

namespace Nachos

open CInt Stub Transition Voinuoc Sinhvien

namespace TestMain

/-! ## The program -/

/-- Where `main` is. -/
inductive MainPc where
  | readN | loop | readInput | writeTurn | exec | join | readRslt | writeOutput | writeLine | exited
  deriving DecidableEq, Repr

/-- Its variables, and the positions in its files. -/
structure Main where
  pc : MainPc
  buf : Byte
  n : Word
  i : Word
  inputPos : Nat
  outputPos : Nat
  turnPos : Nat
  rsltPos : Nat

/-- The files of `main`, the slots of the process table in use, the tap processes executed, whether the kernel
has aborted, and the other processes. -/
structure MState where
  input : List Byte
  output : List Byte
  main : Main
  used : Nat
  started : Nat
  aborted : Bool
  others : State Nat

inductive MEvent where
  | main
  | other (e : Event Nat)

/-- The student that `main` executes: it opens `turn.txt`, creates `rslt.txt` and executes a tap process. -/
def freshStudent : Student := ⟨.createFirst, 0, false, 0, 0, 0⟩

/-- The header of a program of `test/`: two segments behind one another, and no uninitialised data. -/
def programHeader (code initData : Word) : NoffHeader :=
  ⟨NOFFMAGIC, ⟨0, 40, code⟩, ⟨code, 40 + code, initData⟩, ⟨0, 0, 0⟩⟩

/-- The pages of `test/main`, with the sizes of its file. -/
def mainPages : Nat := AddrSpace.numPages (programHeader 1376 160)

/-- The pages of `test/sinhvien`. -/
def sinhvienPages : Nat := AddrSpace.numPages (programHeader 1232 112)

/-- The pages of `test/voinuoc`. -/
def voinuocPages : Nat := AddrSpace.numPages (programHeader 2192 80)

/-- `gPhysPageBitmap->NumClear()`: the taps never exit, and keep their frames, and a student has its frames until
it exits. -/
def MState.numClear (s : MState) : Nat :=
  NumPhysPages -
    (mainPages + s.started * voinuocPages + if s.others.sinhvien.pc = .exited then 0 else sinhvienPages)

/-- The next step of `main`. -/
def stepMain (s : MState) : Option MState :=
  let p := s.main
  let d := s.others.disk
  match p.pc with
  | .readN =>
    match s.input[p.inputPos]? with
    | none => some { s with main := { p with pc := .loop } }
    | some c =>
      some { s with main := { p with
        pc := if numeric c then .readN else if c = 10 then .loop else .readN
        buf := c
        n := if numeric c then 10 * p.n + (c.signExtend 32 - 48) else p.n
        inputPos := p.inputPos + 1 } }
  | .loop =>
    if p.i.slt p.n then
      some { s with
        main := { p with pc := .readInput, turnPos := 0 }
        others := { s.others with disk := { d with turn := [] } } }
    else some { s with main := { p with pc := .exited } }
  | .readInput =>
    match s.input[p.inputPos]? with
    | none => some { s with main := { p with pc := .exec } }
    | some c =>
      some { s with main := { p with
        pc := if c = 10 then .exec else .writeTurn
        buf := c
        inputPos := p.inputPos + 1 } }
  | .writeTurn =>
    some { s with
      main := { p with pc := .readInput, turnPos := p.turnPos + 1 }
      others := { s.others with disk := { d with turn := overwrite d.turn p.turnPos [p.buf] } } }
  | .exec =>
    -- a process that has finished keeps its slot, but not its frames
    if MAX_PROCESS ≤ s.used then some { s with main := { p with pc := .exited } }
    else if s.numClear < sinhvienPages then some { s with aborted := true }
    else if MAX_PROCESS ≤ s.used + 1 then
      -- the student cannot execute its tap, and exits with -1
      some { s with
        main := { p with pc := .exited }
        used := s.used + 1
        others := { s.others with disk := { d with rslt := [] } } }
    else if s.numClear - sinhvienPages < voinuocPages then
      -- the student executes its tap, and `ASSERT(numPages <= gPhysPageBitmap->NumClear())` fails
      some { s with
        aborted := true
        others := { s.others with disk := { d with rslt := [] } } }
    else
      some { s with
        main := { p with pc := .join }
        used := s.used + 2
        started := s.started + 1
        others := { s.others with disk := { d with rslt := [] }, sinhvien := freshStudent } }
  | .join =>
    if s.others.sinhvien.pc = .exited then some { s with main := { p with pc := .readRslt, rsltPos := 0 } }
    else none
  | .readRslt =>
    match d.rslt[p.rsltPos]? with
    | none => some { s with main := { p with pc := .writeLine, buf := 10 } }
    | some c => some { s with main := { p with pc := .writeOutput, buf := c, rsltPos := p.rsltPos + 1 } }
  | .writeOutput =>
    some { s with
      output := overwrite s.output p.outputPos [p.buf]
      main := { p with pc := .readRslt, outputPos := p.outputPos + 1 } }
  | .writeLine =>
    some { s with
      output := overwrite s.output p.outputPos [p.buf]
      main := { p with pc := .loop, outputPos := p.outputPos + 1, i := p.i + 1 } }
  | .exited => none

/-- A step of one of the others: a tap process has to be executed before. -/
def stepOther (s : MState) (e : Event Nat) : Option MState :=
  match e with
  | .sinhvien => (step s.others e).map (fun o => { s with others := o })
  | .voinuoc i => if i < s.started then (step s.others e).map (fun o => { s with others := o }) else none

def mainStep (s : MState) (e : MEvent) : Option MState :=
  if s.aborted then none
  else
    match e with
    | .main => if s.others.halted then none else stepMain s
    | .other e => stepOther s e

/-- No student runs. -/
structure Idle (o : State Nat) : Prop where
  pc : o.sinhvien.pc = .exited
  sem_sinhvien : o.sem_sinhvien = 0
  sem_voinuoc : o.sem_voinuoc = 0
  voinuoc : ∀ i, o.voinuoc i = .wait
  halted : o.halted = false

/-- `main` has created the semaphores, opened `input.txt` and created `output.txt`. -/
structure MainStart (input : List Byte) (s : MState) : Prop where
  input : s.input = input
  output : s.output = []
  pc : s.main.pc = .readN
  n : s.main.n = 0
  i : s.main.i = 0
  inputPos : s.main.inputPos = 0
  outputPos : s.main.outputPos = 0
  used : s.used = 1
  started : s.started = 0
  running : s.aborted = false
  others : Idle s.others

def test (input : List Byte) : System MState MEvent := ⟨MainStart input, mainStep⟩

/-! ## What it is for -/

/-- The number of turns, and the rest of `input.txt`. -/
def readCount (n : Word) : List Byte → Word × List Byte
  | [] => (n, [])
  | c :: l =>
    if numeric c then readCount (10 * n + (c.signExtend 32 - 48)) l
    else if c = 10 then (n, l) else readCount n l

/-- The line of a turn, behind what there is of it, and the rest of `input.txt`. -/
def readLine (line : List Byte) : List Byte → List Byte × List Byte
  | [] => (line, [])
  | c :: l => if c = 10 then (line, l) else readLine (line ++ [c]) l

/-- The answers for a line. -/
def answer (line : List Byte) : List Byte := output ⟨[48], [48]⟩ (requires [] line)

/-- What is written to `output.txt` for the next lines, up to one with an amount that is taken for 0, and
whether there is none. -/
def answers : Nat → List Byte → List Byte × Bool
  | 0, _ => ([], true)
  | k + 1, l =>
    let r := readLine [] l
    if AllServed (requires [] r.1) then
      (answer r.1 ++ [10] ++ (answers k r.2).1, (answers k r.2).2)
    else ([], false)

/-- How many turns there are: there are frames for three taps. -/
def turns (n : Word) : Nat := min n.toInt.toNat 3

/-- What `output.txt` holds in the end, and whether all turns are served. -/
def served (input : List Byte) : List Byte × Bool := answers (turns (readCount 0 input).1) (readCount 0 input).2

/-- `main` returns, a tap does, or the kernel aborts. -/
inductive Ending where
  | exited
  | halted
  | aborted
  deriving DecidableEq, Repr

/-- How the test ends: a turn that is not served halts the machine, and a fourth one aborts the kernel. -/
def ending (input : List Byte) : Ending :=
  if !(served input).2 then .halted else if 3 < (readCount 0 input).1.toInt then .aborted else .exited

/-- The test has ended so. -/
def Ends (s : MState) : Ending → Prop
  | .exited => s.main.pc = .exited ∧ s.others.halted = false ∧ s.aborted = false
  | .halted => s.others.halted = true ∧ s.aborted = false
  | .aborted => s.aborted = true ∧ s.others.halted = false

/-! ## The invariant -/

/-- The answers for a line that has been read, and for those behind it. -/
def lineAnswers (k : Nat) (r : List Byte × List Byte) : List Byte × Bool :=
  match k with
  | 0 => ([], true)
  | k + 1 =>
    if AllServed (requires [] r.1) then
      (answer r.1 ++ [10] ++ (answers k r.2).1, (answers k r.2).2)
    else ([], false)

theorem answers_eq (k : Nat) (l : List Byte) : answers k l = lineAnswers k (readLine [] l) := by
  cases k with
  | zero => rfl
  | succ k => rfl

/-- `out`, with `a` behind it, is what `output.txt` holds in the end. -/
def Owed (input out : List Byte) (a : List Byte × Bool) : Prop := (out ++ a.1, a.2) = served input

/-- `k` turns are over, and `m` students have been executed. -/
structure Turn (input : List Byte) (s : MState) (k m : Nat) : Prop where
  file : s.input = input
  n : s.main.n = (readCount 0 input).1
  i : s.main.i = BitVec.ofNat 32 k
  le : k ≤ 3
  outputPos : s.main.outputPos = s.output.length
  used : s.used = 1 + 2 * m
  started : s.started = m
  running : s.aborted = false

/-- The turns that are left, the phase of a turn, and what is left of the phase. -/
abbrev Rank := Nat × Nat × (Nat × Nat × Nat)

/-- The lines of `input.txt` that are left. -/
def MState.lines (s : MState) : List Byte := s.input.drop s.main.inputPos

inductive MainInv (input : List Byte) (s : MState) : Rank → Prop where
  | readN (hinput : s.input = input) (hpc : s.main.pc = .readN)
      (hread : readCount s.main.n s.lines = readCount 0 input) (hi : s.main.i = 0) (houtput : s.output = [])
      (hpos : s.main.outputPos = 0) (hused : s.used = 1) (hstarted : s.started = 0) (hrun : s.aborted = false)
      (hidle : Idle s.others) : MainInv input s (6, 0, (input.length - s.main.inputPos, 0, 0))
  | loop (k : Nat) (h : Turn input s k k) (hpc : s.main.pc = .loop) (hidle : Idle s.others)
      (howes : Owed input s.output (answers (turns s.main.n - k) s.lines)) : MainInv input s (5 - k, 9, (0, 0, 0))
  | readInput (k : Nat) (h : Turn input s k k) (hpc : s.main.pc = .readInput) (hidle : Idle s.others)
      (hlt : k < s.main.n.toInt) (hturn : s.main.turnPos = s.others.disk.turn.length)
      (howes : Owed input s.output (lineAnswers (turns s.main.n - k) (readLine s.others.disk.turn s.lines))) :
      MainInv input s (5 - k, 8, (2 * (input.length - s.main.inputPos), 0, 0))
  | writeTurn (k : Nat) (h : Turn input s k k) (hpc : s.main.pc = .writeTurn) (hidle : Idle s.others)
      (hlt : k < s.main.n.toInt) (hturn : s.main.turnPos = s.others.disk.turn.length)
      (howes : Owed input s.output
        (lineAnswers (turns s.main.n - k) (readLine (s.others.disk.turn ++ [s.main.buf]) s.lines))) :
      MainInv input s (5 - k, 8, (2 * (input.length - s.main.inputPos) + 1, 0, 0))
  | exec (k : Nat) (h : Turn input s k k) (hpc : s.main.pc = .exec) (hidle : Idle s.others)
      (hlt : k < s.main.n.toInt)
      (howes : Owed input s.output (lineAnswers (turns s.main.n - k) (s.others.disk.turn, s.lines))) :
      MainInv input s (5 - k, 7, (0, 0, 0))
  | join (k : Nat) (line : List Byte) (b : Nat × Nat × Nat) (h : Turn input s k (k + 1)) (hpc : s.main.pc = .join)
      (hk : k < 3) (hlt : k < s.main.n.toInt) (hinv : Inv line s.others b)
      (htaps : ∀ j, s.started ≤ j → s.others.voinuoc j = .wait)
      (howes : Owed input s.output (lineAnswers (turns s.main.n - k) (line, s.lines))) :
      MainInv input s (5 - k, 6, b)
  | readRslt (k : Nat) (h : Turn input s k (k + 1)) (hpc : s.main.pc = .readRslt) (hk : k < 3) (hidle : Idle s.others)
      (howes : Owed input (s.output ++ (s.others.disk.rslt.drop s.main.rsltPos ++ [10]))
        (answers (turns s.main.n - (k + 1)) s.lines)) :
      MainInv input s (5 - k, 5, (2 * (s.others.disk.rslt.length - s.main.rsltPos), 0, 0))
  | writeOutput (k : Nat) (h : Turn input s k (k + 1)) (hpc : s.main.pc = .writeOutput) (hk : k < 3)
      (hidle : Idle s.others)
      (howes : Owed input (s.output ++ [s.main.buf] ++ (s.others.disk.rslt.drop s.main.rsltPos ++ [10]))
        (answers (turns s.main.n - (k + 1)) s.lines)) :
      MainInv input s (5 - k, 5, (2 * (s.others.disk.rslt.length - s.main.rsltPos) + 1, 0, 0))
  | writeLine (k : Nat) (h : Turn input s k (k + 1)) (hpc : s.main.pc = .writeLine) (hk : k < 3) (hidle : Idle s.others)
      (hbuf : s.main.buf = 10) (howes : Owed input (s.output ++ [10]) (answers (turns s.main.n - (k + 1)) s.lines)) :
      MainInv input s (5 - k, 4, (0, 0, 0))
  | exited (k : Nat) (hpc : s.main.pc = .exited) (hrun : s.aborted = false) (hidle : Idle s.others)
      (hn : (readCount 0 input).1.toInt ≤ 3) (howes : Owed input s.output ([], true)) :
      MainInv input s (5 - k, 0, (0, 0, 0))
  | aborted (k : Nat) (habort : s.aborted = true) (hhalted : s.others.halted = false)
      (hn : 3 < (readCount 0 input).1.toInt) (howes : Owed input s.output ([], true)) :
      MainInv input s (5 - k, 0, (0, 0, 0))

/-! ## The turns -/

theorem turns_zero {n : Word} {k : Nat} (h : n.toInt ≤ k) : turns n - k = 0 := by
  unfold turns
  omega

theorem turns_three {n : Word} {k : Nat} (h : 3 ≤ k) : turns n - k = 0 := by
  unfold turns
  omega

theorem turns_succ {n : Word} {k : Nat} (h : k < n.toInt) (hk : k < 3) : turns n - k = (turns n - (k + 1)) + 1 := by
  unfold turns
  omega

theorem slt_turns {n : Word} {k : Nat} (hk : k ≤ 3) : (BitVec.ofNat 32 k).slt n = decide ((k : Int) < n.toInt) := by
  rw [BitVec.slt, toInt_ofNat (by omega)]

theorem mainStart_inv {input : List Byte} {s : MState} (h : MainStart input s) : ∃ b, MainInv input s b := by
  refine ⟨_, .readN h.input h.pc ?_ h.i h.output h.outputPos h.used h.started h.running h.others⟩
  rw [MState.lines, h.n, h.inputPos, h.input]
  rfl

/-- Between two turns only `main` runs. -/
theorem stepOther_idle {s : MState} (h : Idle s.others) (e : Event Nat) : stepOther s e = none := by
  cases e with
  | sinhvien =>
    have hnone : stepStudent s.others = none := by
      simp only [stepStudent, h.pc]
    rw [stepOther, step_sinhvien h.halted, hnone]
    rfl
  | voinuoc i =>
    have hnone : stepTap s.others i = none := stepTap_wait (h.voinuoc i) h.sem_voinuoc
    rw [stepOther, step_voinuoc h.halted, hnone]
    exact ite_self none

/-! ## The steps -/

/-- `main` goes on. -/
theorem mainStep_main {s : MState} (hrun : s.aborted = false) (h : s.others.halted = false) :
    mainStep s .main = stepMain s := by
  rw [mainStep, hrun, if_neg Bool.false_ne_true, h, if_neg Bool.false_ne_true]

theorem mainStep_other {s : MState} (hrun : s.aborted = false) (e : Event Nat) :
    mainStep s (.other e) = stepOther s e := by
  rw [mainStep, hrun, if_neg Bool.false_ne_true]

theorem mainStep_aborted {s : MState} (h : s.aborted = true) (e : MEvent) : mainStep s e = none := by
  cases e with
  | main => rw [mainStep, h, if_pos rfl]
  | other e => rw [mainStep, h, if_pos rfl]

/-- The frames before a turn: 26 are lost to every tap. -/
theorem numClear_idle {s : MState} {k : Nat} (hidle : Idle s.others) (hstarted : s.started = k) :
    s.numClear = 128 - (20 + k * 26) := by
  have hmain : mainPages = 20 := by decide
  have hvoinuoc : voinuocPages = 26 := by decide
  rw [MState.numClear, hidle.pc, if_pos rfl, hstarted, hmain, hvoinuoc]
  rfl

theorem requires_taken {n : Word} {k : Nat} {line l out input : List Byte}
    (howes : Owed input out (lineAnswers (turns n - k) (line, l))) (hk : k < 3) (hlt : k < n.toInt)
    (hserved : AllServed (requires [] line)) :
    Owed input (out ++ (answer line ++ [10])) (answers (turns n - (k + 1)) l) := by
  rw [turns_succ hlt hk, lineAnswers, if_pos hserved] at howes
  rw [Owed, List.append_assoc]
  exact howes

/-- The number of turns is read. -/
theorem readN_step {input : List Byte} {s s' : MState} (hinput : s.input = input) (hpc : s.main.pc = .readN)
    (hread : readCount s.main.n s.lines = readCount 0 input) (hi : s.main.i = 0) (houtput : s.output = [])
    (hpos : s.main.outputPos = 0) (hused : s.used = 1) (hstarted : s.started = 0) (hrun : s.aborted = false)
    (hidle : Idle s.others) (hstep : stepMain s = some s') :
    ∃ b', Before Below b' (6, 0, (input.length - s.main.inputPos, 0, 0)) ∧ MainInv input s' b' := by
  have hloop : ∀ t : MState, readCount s.main.n s.lines = (t.main.n, t.lines) → t.input = s.input →
      t.main.i = s.main.i → t.output = s.output → t.main.outputPos = s.main.outputPos → t.used = s.used →
      t.started = s.started → t.aborted = s.aborted → t.others = s.others → t.main.pc = .loop →
      ∃ b', Before Below b' (6, 0, (input.length - s.main.inputPos, 0, 0)) ∧ MainInv input t b' := by
    intro t hcount hin hti hout htpos htused htstarted htrun hothers htpc
    rw [hread] at hcount
    have hserved : served input = answers (turns t.main.n) t.lines := by
      rw [served, hcount]
    refine ⟨(5 - 0, 9, (0, 0, 0)), before_fst (by omega), .loop 0 ⟨hin.trans hinput, ?_, hti.trans hi, by omega, ?_, ?_,
      ?_, htrun.trans hrun⟩ htpc (hothers ▸ hidle) ?_⟩
    · rw [hcount]
    · rw [htpos, hpos, hout, houtput]
      rfl
    · rw [htused, hused]
    · rw [htstarted, hstarted]
    · rw [Owed, hserved, hout, houtput]
      rfl
  cases hc : s.input[s.main.inputPos]? with
  | none =>
    simp only [stepMain, hpc, hc, Option.some.injEq] at hstep
    subst hstep
    refine hloop _ ?_ rfl rfl rfl rfl rfl rfl rfl rfl rfl
    rw [MState.lines, MState.lines, List.drop_eq_nil_of_le (List.getElem?_eq_none_iff.1 hc)]
    rfl
  | some c =>
    obtain ⟨hlt, rfl⟩ := List.getElem?_eq_some_iff.1 hc
    simp only [stepMain, hpc, hc, Option.some.injEq] at hstep
    subst hstep
    have hcons : s.lines = s.input[s.main.inputPos] :: s.input.drop (s.main.inputPos + 1) :=
      List.drop_eq_getElem_cons hlt
    rw [hcons, readCount] at hread
    rw [hinput] at hlt
    by_cases hn : numeric s.input[s.main.inputPos] = true
    · simp only [hn, if_true] at hread ⊢
      exact ⟨(6, 0, (input.length - (s.main.inputPos + 1), 0, 0)), before_trd (below_fst (by omega)),
        .readN hinput rfl hread hi houtput hpos hused hstarted hrun hidle⟩
    · by_cases hten : s.input[s.main.inputPos] = 10
      · refine hloop _ ?_ rfl rfl rfl rfl rfl rfl rfl rfl ?_
        · rw [hcons, readCount, if_neg hn, if_pos hten]
          dsimp only
          rw [if_neg hn]
          rfl
        · dsimp only
          rw [if_neg hn, if_pos hten]
      · simp only [hn, hten, if_false, Bool.false_eq_true] at hread ⊢
        exact ⟨(6, 0, (input.length - (s.main.inputPos + 1), 0, 0)), before_trd (below_fst (by omega)),
          .readN hinput rfl hread hi houtput hpos hused hstarted hrun hidle⟩

/-- A byte of `input.txt`, in a turn. -/
theorem readInput_step {input : List Byte} {s s' : MState} {k : Nat} (h : Turn input s k k) (hpc : s.main.pc = .readInput)
    (hidle : Idle s.others) (hlt : k < s.main.n.toInt) (hturn : s.main.turnPos = s.others.disk.turn.length)
    (howes : Owed input s.output (lineAnswers (turns s.main.n - k) (readLine s.others.disk.turn s.lines)))
    (hstep : stepMain s = some s') :
    ∃ b', Before Below b' (5 - k, 8, (2 * (input.length - s.main.inputPos), 0, 0)) ∧ MainInv input s' b' := by
  cases hc : s.input[s.main.inputPos]? with
  | none =>
    simp only [stepMain, hpc, hc, Option.some.injEq] at hstep
    subst hstep
    have hnil : s.lines = [] := List.drop_eq_nil_of_le (List.getElem?_eq_none_iff.1 hc)
    rw [hnil, readLine, ← hnil] at howes
    exact ⟨_, before_snd (by omega),
      .exec k ⟨h.file, h.n, h.i, h.le, h.outputPos, h.used, h.started, h.running⟩ rfl hidle hlt howes⟩
  | some c =>
    obtain ⟨hpos, rfl⟩ := List.getElem?_eq_some_iff.1 hc
    simp only [stepMain, hpc, hc, Option.some.injEq] at hstep
    subst hstep
    have hcons : s.lines = s.input[s.main.inputPos] :: s.input.drop (s.main.inputPos + 1) :=
      List.drop_eq_getElem_cons hpos
    rw [hcons, readLine] at howes
    by_cases hten : s.input[s.main.inputPos] = 10
    · simp only [hten, if_true] at howes ⊢
      exact ⟨_, before_snd (by omega),
        .exec k ⟨h.file, h.n, h.i, h.le, h.outputPos, h.used, h.started, h.running⟩ rfl hidle hlt howes⟩
    · simp only [hten, if_false] at howes ⊢
      rw [h.file] at hpos
      exact ⟨_, before_trd (below_fst (by dsimp only; omega)),
        .writeTurn k ⟨h.file, h.n, h.i, h.le, h.outputPos, h.used, h.started, h.running⟩ rfl hidle hlt hturn howes⟩

/-- A student and a tap process are executed, if there are frames for both. -/
theorem exec_step {input : List Byte} {s s' : MState} {k : Nat} (h : Turn input s k k) (hpc : s.main.pc = .exec)
    (hidle : Idle s.others) (hlt : k < s.main.n.toInt)
    (howes : Owed input s.output (lineAnswers (turns s.main.n - k) (s.others.disk.turn, s.lines)))
    (hstep : stepMain s = some s') :
    ∃ b', Before Below b' (5 - k, 7, (0, 0, 0)) ∧ MainInv input s' b' := by
  have hused := h.used
  have hle := h.le
  have hmax : MAX_PROCESS = 10 := rfl
  have hclear := numClear_idle hidle h.started
  have hsinhvien : sinhvienPages = 19 := by decide
  have hvoinuoc : voinuocPages = 26 := by decide
  simp only [stepMain, hpc] at hstep
  rw [if_neg (by omega), if_neg (by omega), if_neg (by omega)] at hstep
  by_cases hk : k = 3
  · -- 30 frames are free, and 45 would be needed
    rw [if_pos (by omega), Option.some.injEq] at hstep
    subst hstep
    rw [turns_three (by omega)] at howes
    exact ⟨_, before_snd (by omega), .aborted k rfl hidle.halted (by rw [← h.n]; omega) howes⟩
  · rw [if_neg (by omega), Option.some.injEq] at hstep
    subst hstep
    -- the state that the student starts in
    have hstart : Start s.others.disk.turn
        { s.others with disk := { s.others.disk with rslt := [] }, sinhvien := freshStudent } :=
      ⟨rfl, rfl, hidle.sem_sinhvien, hidle.sem_voinuoc, rfl, rfl, rfl, rfl, hidle.voinuoc, hidle.halted⟩
    obtain ⟨b, hb⟩ := inv_start hstart
    refine ⟨(5 - k, 6, b), before_snd (by omega), .join k s.others.disk.turn b
      ⟨h.file, h.n, h.i, h.le, h.outputPos, ?_, ?_, h.running⟩ rfl (by omega) hlt hb (fun j _ => hidle.voinuoc j) howes⟩
    · dsimp only
      omega
    · dsimp only
      rw [h.started]

/-- The student has exited. -/
theorem join_step {input : List Byte} {s s' : MState} {k : Nat} {line : List Byte} {b : Nat × Nat × Nat}
    (h : Turn input s k (k + 1)) (hpc : s.main.pc = .join) (hk : k < 3) (hlt : k < s.main.n.toInt)
    (hinv : Inv line s.others b)
    (howes : Owed input s.output (lineAnswers (turns s.main.n - k) (line, s.lines))) (hstep : stepMain s = some s') :
    ∃ b', Before Below b' (5 - k, 6, b) ∧ MainInv input s' b' := by
  simp only [stepMain, hpc] at hstep
  split at hstep
  · rename_i hexited
    cases hstep
    obtain ⟨hrslt, hhalted, hs, hv, htaps, hserved⟩ := hinv.exited hexited
    refine ⟨_, before_snd (by omega), .readRslt k ⟨h.file, h.n, h.i, h.le, h.outputPos, h.used, h.started, h.running⟩ rfl hk
      ⟨hexited, hs, hv, htaps, hhalted⟩ ?_⟩
    change Owed input (s.output ++ (s.others.disk.rslt.drop 0 ++ [10])) _
    rw [List.drop_zero, hrslt]
    exact requires_taken howes hk hlt hserved
  · cases hstep

/-- A byte of `rslt.txt`. -/
theorem readRslt_step {input : List Byte} {s s' : MState} {k : Nat} (h : Turn input s k (k + 1))
    (hpc : s.main.pc = .readRslt) (hk : k < 3) (hidle : Idle s.others)
    (howes : Owed input (s.output ++ (s.others.disk.rslt.drop s.main.rsltPos ++ [10]))
      (answers (turns s.main.n - (k + 1)) s.lines)) (hstep : stepMain s = some s') :
    ∃ b', Before Below b' (5 - k, 5, (2 * (s.others.disk.rslt.length - s.main.rsltPos), 0, 0)) ∧
      MainInv input s' b' := by
  cases hc : s.others.disk.rslt[s.main.rsltPos]? with
  | none =>
    simp only [stepMain, hpc, hc, Option.some.injEq] at hstep
    subst hstep
    rw [List.drop_eq_nil_of_le (List.getElem?_eq_none_iff.1 hc)] at howes
    exact ⟨_, before_snd (by omega), .writeLine k ⟨h.file, h.n, h.i, h.le, h.outputPos, h.used, h.started, h.running⟩ rfl
      hk hidle rfl howes⟩
  | some c =>
    obtain ⟨hpos, rfl⟩ := List.getElem?_eq_some_iff.1 hc
    simp only [stepMain, hpc, hc, Option.some.injEq] at hstep
    subst hstep
    rw [List.drop_eq_getElem_cons hpos, List.cons_append, List.append_cons] at howes
    exact ⟨_, before_trd (below_fst (by dsimp only; omega)),
      .writeOutput k ⟨h.file, h.n, h.i, h.le, h.outputPos, h.used, h.started, h.running⟩ rfl hk hidle howes⟩

/-- The others move on while `main` joins the student. -/
theorem other_step {s s' : MState} {line : List Byte} {b : Nat × Nat × Nat} {e : Event Nat}
    (hinv : Inv line s.others b) (htaps : ∀ j, s.started ≤ j → s.others.voinuoc j = .wait)
    (hstep : stepOther s e = some s') :
    ∃ o b', s' = { s with others := o } ∧ Below b' b ∧ Inv line o b' ∧ ∀ j, s.started ≤ j → o.voinuoc j = .wait := by
  cases e with
  | sinhvien =>
    obtain ⟨o, ho, rfl⟩ := Option.map_eq_some_iff.1 hstep
    obtain ⟨b', hlt, hinv'⟩ := inv_step hinv ho
    exact ⟨o, b', rfl, hlt, hinv', fun j hj => (step_sinhvien_voinuoc ho j).trans (htaps j hj)⟩
  | voinuoc i =>
    rw [stepOther] at hstep
    split at hstep
    · rename_i hi
      obtain ⟨o, ho, rfl⟩ := Option.map_eq_some_iff.1 hstep
      obtain ⟨b', hlt, hinv'⟩ := inv_step hinv ho
      exact ⟨o, b', rfl, hlt, hinv', fun j hj => (step_voinuoc_ne ho (by omega)).trans (htaps j hj)⟩
    · cases hstep

/-- **Every step keeps the invariant**, and lowers the rank. -/
theorem main_step {input : List Byte} {s s' : MState} {b : Rank} {e : MEvent} (h : MainInv input s b)
    (hstep : mainStep s e = some s') : ∃ b', Before Below b' b ∧ MainInv input s' b' := by
  -- between two turns it is `main` that runs
  have hmain (hrun : s.aborted = false) (hidle : Idle s.others) : stepMain s = some s' := by
    cases e with
    | main => rwa [mainStep_main hrun hidle.halted] at hstep
    | other e =>
      rw [mainStep_other hrun, stepOther_idle hidle] at hstep
      cases hstep
  cases h with
  | readN hinput hpc hread hi houtput hpos hused hstarted hrun hidle =>
    exact readN_step hinput hpc hread hi houtput hpos hused hstarted hrun hidle (hmain hrun hidle)
  | loop k h hpc hidle howes =>
    have hstep := hmain h.running hidle
    simp only [stepMain, hpc, h.i, slt_turns h.le, decide_eq_true_eq] at hstep
    split at hstep
    · rename_i hlt
      cases hstep
      rw [answers_eq] at howes
      exact ⟨_, before_snd (by omega),
        .readInput k ⟨h.file, h.n, rfl, h.le, h.outputPos, h.used, h.started, h.running⟩ rfl
          ⟨hidle.pc, hidle.sem_sinhvien, hidle.sem_voinuoc, hidle.voinuoc, hidle.halted⟩ hlt rfl howes⟩
    · rename_i hle
      cases hstep
      rw [turns_zero (by omega)] at howes
      have hle := h.le
      exact ⟨_, before_snd (by omega), .exited k rfl h.running hidle (by rw [← h.n]; omega) howes⟩
  | readInput k h hpc hidle hlt hturn howes => exact readInput_step h hpc hidle hlt hturn howes (hmain h.running hidle)
  | writeTurn k h hpc hidle hlt hturn howes =>
    have hstep := hmain h.running hidle
    simp only [stepMain, hpc, hturn, overwrite_length, Option.some.injEq] at hstep
    subst hstep
    exact ⟨_, before_trd (below_fst (by dsimp only; omega)),
      .readInput k ⟨h.file, h.n, h.i, h.le, h.outputPos, h.used, h.started, h.running⟩ rfl
        ⟨hidle.pc, hidle.sem_sinhvien, hidle.sem_voinuoc, hidle.voinuoc, hidle.halted⟩ hlt (length_snoc _ _) howes⟩
  | exec k h hpc hidle hlt howes => exact exec_step h hpc hidle hlt howes (hmain h.running hidle)
  | join k line b h hpc hk hlt hinv htaps howes =>
    cases e with
    | main =>
      rw [mainStep, h.running, if_neg Bool.false_ne_true] at hstep
      split at hstep
      · cases hstep
      · exact join_step h hpc hk hlt hinv howes hstep
    | other e =>
      rw [mainStep_other h.running] at hstep
      obtain ⟨o, b', rfl, hbelow, hinv', htaps'⟩ := other_step hinv htaps hstep
      exact ⟨_, before_trd hbelow,
        .join k line b' ⟨h.file, h.n, h.i, h.le, h.outputPos, h.used, h.started, h.running⟩ hpc hk hlt hinv' htaps' howes⟩
  | readRslt k h hpc hk hidle howes => exact readRslt_step h hpc hk hidle howes (hmain h.running hidle)
  | writeOutput k h hpc hk hidle howes =>
    have hstep := hmain h.running hidle
    simp only [stepMain, hpc, h.outputPos, overwrite_length, Option.some.injEq] at hstep
    subst hstep
    exact ⟨_, before_trd (below_fst (by dsimp only; omega)),
      .readRslt k ⟨h.file, h.n, h.i, h.le, length_snoc _ _, h.used, h.started, h.running⟩ rfl hk hidle howes⟩
  | writeLine k h hpc hk hidle hbuf howes =>
    have hstep := hmain h.running hidle
    simp only [stepMain, hpc, h.outputPos, hbuf, overwrite_length, Option.some.injEq] at hstep
    subst hstep
    refine ⟨(5 - (k + 1), 9, (0, 0, 0)), before_fst (by omega),
      .loop (k + 1) ⟨h.file, h.n, ?_, by omega, length_snoc _ _, h.used, h.started, h.running⟩ rfl hidle howes⟩
    dsimp only
    rw [h.i, BitVec.ofNat_add]
    rfl
  | exited k hpc hrun hidle =>
    have hstep := hmain hrun hidle
    simp only [stepMain, hpc] at hstep
    cases hstep
  | aborted k habort =>
    rw [mainStep_aborted habort] at hstep
    cases hstep

theorem main_ranked (input : List Byte) : (test input).Ranked (Before Below) (MainInv input) where
  wf := wellFounded_before wellFounded_below
  init := fun _ h => mainStart_inv h
  step := fun _ _ _ _ h hstep => main_step h hstep

/-! ## The end -/

/-- `main` is not stuck between two turns before it exits. -/
theorem stepMain_isSome {s : MState} (hjoin : s.main.pc ≠ .join) (hexited : s.main.pc ≠ .exited) :
    ∃ s', stepMain s = some s' := by
  cases hpc : s.main.pc with
  | join => exact absurd hpc hjoin
  | exited => exact absurd hpc hexited
  | readN =>
    cases hc : s.input[s.main.inputPos]? with
    | none => simp only [stepMain, hpc, hc, Option.some.injEq, exists_eq']
    | some c => simp only [stepMain, hpc, hc, Option.some.injEq, exists_eq']
  | readInput =>
    cases hc : s.input[s.main.inputPos]? with
    | none => simp only [stepMain, hpc, hc, Option.some.injEq, exists_eq']
    | some c => simp only [stepMain, hpc, hc, Option.some.injEq, exists_eq']
  | readRslt =>
    cases hc : s.others.disk.rslt[s.main.rsltPos]? with
    | none => simp only [stepMain, hpc, hc, Option.some.injEq, exists_eq']
    | some c => simp only [stepMain, hpc, hc, Option.some.injEq, exists_eq']
  | loop =>
    simp only [stepMain, hpc]
    split
    · exact ⟨_, rfl⟩
    · exact ⟨_, rfl⟩
  | exec =>
    simp only [stepMain, hpc]
    repeat' split
    all_goals exact ⟨_, rfl⟩
  | writeTurn => simp only [stepMain, hpc, Option.some.injEq, exists_eq']
  | writeOutput => simp only [stepMain, hpc, Option.some.injEq, exists_eq']
  | writeLine => simp only [stepMain, hpc, Option.some.injEq, exists_eq']

/-- A turn does not get stuck: a tap has halted the machine, or somebody can go on. -/
theorem join_final {input : List Byte} {s : MState} {line : List Byte} {b : Nat × Nat × Nat} (hpc : s.main.pc = .join)
    (hrun : s.aborted = false) (hpos : 0 < s.started) (hinv : Inv line s.others b)
    (htaps : ∀ j, s.started ≤ j → s.others.voinuoc j = .wait)
    (hfinal : (test input).Final s) : s.others.halted = true := by
  by_contra hrunning
  have hhalted := Bool.eq_false_iff.2 hrunning
  by_cases hexited : s.others.sinhvien.pc = .exited
  · have hnone : mainStep s .main = none := hfinal .main
    rw [mainStep_main hrun hhalted] at hnone
    simp only [stepMain, hpc, hexited, if_true] at hnone
    cases hnone
  · obtain ⟨e, o, ho, hwho⟩ := hinv.progress hhalted hexited 0
    have hnone : stepOther s e = none := (mainStep_other hrun e).symm.trans (hfinal (.other e))
    cases e with
    | sinhvien =>
      rw [stepOther, ho] at hnone
      cases hnone
    | voinuoc i =>
      have hi : i < s.started := by
        rcases hwho i rfl with rfl | hwait
        · exact hpos
        · exact Nat.lt_of_not_le fun hle => hwait (htaps i hle)
      rw [stepOther, if_pos hi, ho] at hnone
      cases hnone

theorem main_final {input : List Byte} {s : MState} {b : Rank} (h : MainInv input s b) (hfinal : (test input).Final s) :
    s.output = (served input).1 ∧ Ends s (ending input) := by
  have hgo (hrun : s.aborted = false) (hidle : Idle s.others) (hjoin : s.main.pc ≠ .join)
      (hexited : s.main.pc ≠ .exited) : False := by
    obtain ⟨s', hstep⟩ := stepMain_isSome hjoin hexited
    have hnone : mainStep s .main = none := hfinal .main
    rw [mainStep_main hrun hidle.halted, hstep] at hnone
    cases hnone
  cases h with
  | readN _ hpc _ _ _ _ _ _ hrun hi => exact (hgo hrun hi (by rw [hpc]; decide) (by rw [hpc]; decide)).elim
  | loop _ h hpc hi => exact (hgo h.running hi (by rw [hpc]; decide) (by rw [hpc]; decide)).elim
  | readInput _ h hpc hi => exact (hgo h.running hi (by rw [hpc]; decide) (by rw [hpc]; decide)).elim
  | writeTurn _ h hpc hi => exact (hgo h.running hi (by rw [hpc]; decide) (by rw [hpc]; decide)).elim
  | exec _ h hpc hi => exact (hgo h.running hi (by rw [hpc]; decide) (by rw [hpc]; decide)).elim
  | readRslt _ h hpc _ hi => exact (hgo h.running hi (by rw [hpc]; decide) (by rw [hpc]; decide)).elim
  | writeOutput _ h hpc _ hi => exact (hgo h.running hi (by rw [hpc]; decide) (by rw [hpc]; decide)).elim
  | writeLine _ h hpc _ hi => exact (hgo h.running hi (by rw [hpc]; decide) (by rw [hpc]; decide)).elim
  | join k line b h hpc hk hlt hinv htaps howes =>
    have hhalted := join_final hpc h.running (by rw [h.started]; omega) hinv htaps hfinal
    rw [turns_succ hlt hk, lineAnswers, if_neg (hinv.of_halted hhalted).2, Owed, List.append_nil] at howes
    rw [ending, ← howes]
    exact ⟨rfl, hhalted, h.running⟩
  | exited k hpc hrun hi hn howes =>
    rw [Owed, List.append_nil] at howes
    rw [ending, ← howes, if_neg (by simp), if_neg (Int.not_lt.2 hn)]
    exact ⟨rfl, hpc, hi.halted, hrun⟩
  | aborted k habort hhalted hn howes =>
    rw [Owed, List.append_nil] at howes
    rw [ending, ← howes, if_neg (by simp), if_pos hn]
    exact ⟨rfl, habort, hhalted⟩

/-- Four turns with the amounts `7`, `5 6`, `1` and `2`: the last one is not served. -/
example : served [52, 10, 55, 10, 53, 32, 54, 10, 49, 10, 50] = ([49, 32, 10, 49, 32, 50, 32, 10, 49, 32, 10], true) ∧
    ending [52, 10, 55, 10, 53, 32, 54, 10, 49, 10, 50] = .aborted := by decide

end TestMain

end Nachos
