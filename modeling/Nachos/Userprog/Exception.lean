import Nachos.Lib.Partial
import Nachos.Userprog.UserMemory

/-!
# The exception handler

`ExceptionHandler` of `userprog/exception.cc`: every system call, with the kernel it runs in as a
record of `Services` over any state `κ`.  A service may let other threads run before it returns; the
registers of the calling thread are its own, since the scheduler saves and restores them
(`ContextSwitch`).  A call that does not come back ends in a `Stop`.

* `syscall_leave` — every case of the switch ends in `break`, but for a failing `SC_Create`.
* `handler_advances_iff` — when the program counters are advanced.
-/

set_option autoImplicit false

namespace Nachos

open CString Partial

/-- Why `ExceptionHandler` does not return: `interrupt->Halt()`, a failing `ASSERT` or an allocation
that fails, an access outside of a kernel array, a thread that never runs again. -/
inductive Stop where
  | halt
  | abort
  | undefined
  | forever
  deriving DecidableEq, Repr

def MaxFileLength : Nat := 32
def MAX_INT_LENGTH : Nat := 10
def MASK_GET_NUM : Byte := 0xF
def LIMIT : Nat := 255

/-- The codes of `userprog/syscall.h` that `ExceptionHandler` has a case for. -/
inductive SyscallCode where
  | halt | exit | create | readInt | printInt | readChar | printChar | readString | printString
  | createFile | openFileID | closeFile | readFile | writeFile | seekFile
  | execProcess | joinProcess | exitProcess | createSem | wait | signal
  deriving DecidableEq, Repr

/-- The constants `SC_Halt` to `SC_Signal`. -/
def syscallCodes : List (Word × SyscallCode) := [
  (0, .halt), (1, .exit), (4, .create), (11, .readInt), (12, .printInt), (13, .readChar), (14, .printChar),
  (15, .readString), (16, .printString), (17, .createFile), (18, .openFileID), (19, .closeFile),
  (20, .readFile), (21, .writeFile), (22, .seekFile), (23, .execProcess), (24, .joinProcess),
  (25, .exitProcess), (26, .createSem), (27, .wait), (28, .signal)]

/-- `switch (type)`. -/
def syscallCode (type : Word) : Option SyscallCode := (syscallCodes.find? (fun c => c.1 == type)).map (·.2)

def SC_Create : Word := 4

/-- What the handler calls.  An index `m_index` is one of `fileSystem->openf`. -/
structure Services (κ : Type) where
  /-- `machine->ReadMem` and `WriteMem` of one byte; an exception there halts the machine. -/
  readMem : κ → Word → Option (Byte × κ)
  writeMem : κ → Word → Byte → Option κ
  /-- `fileSystem->Create(name, 0)`. -/
  create : κ → (Nat → Byte) → Except Stop (Bool × κ)
  findFreeSlot : κ → Nat
  /-- `fileSystem->openf[slot] = fileSystem->Open(name, type)`: whether it is not `NULL`. -/
  openSlot : κ → Nat → (Nat → Byte) → Word → Except Stop (Bool × κ)
  /-- `fileSystem->openf[m_index] == NULL`. -/
  isNull : κ → Word → Except Stop Bool
  /-- `fileSystem->openf[m_index]->type`. -/
  type : κ → Word → Except Stop Word
  length : κ → Word → Except Stop (Word × κ)
  seek : κ → Word → Word → Except Stop κ
  getCurrentPos : κ → Word → Except Stop (Word × κ)
  read : κ → Word → (Nat → Byte) → Word → Except Stop (Word × (Nat → Byte) × κ)
  write : κ → Word → (Nat → Byte) → Word → Except Stop (Word × κ)
  /-- `delete fileSystem->openf[m_index]; fileSystem->openf[m_index] = NULL`. -/
  close : κ → Word → Except Stop κ
  /-- `gSynchConsole->Read`: the bytes it stores, and what it returns. -/
  consoleRead : κ → Word → Except Stop (List Byte × Word × κ)
  consoleWrite : κ → List Byte → Except Stop κ
  execUpdate : κ → (Nat → Byte) → Except Stop (Word × κ)
  joinUpdate : κ → Word → Except Stop (Word × κ)
  exitUpdate : κ → Word → Except Stop (Word × κ)
  semCreate : κ → (Nat → Byte) → Word → Except Stop (Word × κ)
  semWait : κ → (Nat → Byte) → Except Stop (Word × κ)
  semSignal : κ → (Nat → Byte) → Except Stop (Word × κ)

/-- An exception in `ReadMem` or `WriteMem` halts the machine. -/
def orHalt {α : Type} : Option α → Except Stop α
  | some a => .ok a
  | none => .error .halt

/-- `new char[n]`, for an `int` `n`. -/
def newChars (n : Word) : Except Stop Unit := if n.toInt < 0 then .error .abort else .ok ()

/-- A buffer of `n` bytes after `gSynchConsole->Read(buf, n)`. -/
def filled (stored : List Byte) (n : Nat) : List Byte := (stored ++ List.replicate n 0).take n

namespace Exception

/-! ## Integers -/

/-- `while (buffer[i] == ' ' || buffer[i] == '\t') i++`, for what is left of the buffer. -/
def skipBlanks : List Byte → Except Stop Nat
  | [] => .error .undefined
  | c :: cs => if c = 32 ∨ c = 9 then (· + 1) <$> skipBlanks cs else .ok 0

/-- The loop over the digits; `none` is `not_a_number`. -/
def digits : List Byte → Word → Option Word
  | [], number => some number
  | c :: cs, number =>
    if 48 ≤ c.toInt ∧ c.toInt ≤ 57 then digits cs (number * 10 + (c &&& MASK_GET_NUM).setWidth 32) else none

/-- What `SC_ReadInt` returns for a buffer with `nDigit` bytes. -/
def parseInt (buffer : List Byte) (nDigit : Int) : Except Stop Word := do
  let i ← skipBlanks buffer
  let negative := buffer[i]? = some 45
  let i := if negative then i + 1 else i
  match digits ((buffer.drop i).take (nDigit - i).toNat) 0 with
  | none => .ok 0
  | some number => .ok (if negative then number * (-1) else number)

/-- `do s[i++] = n % 10 + '0'; while ((n /= 10) > 0)`, for at most `fuel` digits. -/
def intDigits : Nat → Word → List Byte
  | 0, _ => []
  | fuel + 1, n =>
    let c := (n.srem 10 + 48).setWidth 8
    let n := n.sdiv 10
    if 0 < n.toInt then c :: intDigits fuel n else [c]

/-- `while (i-- > mid)`, which swaps `s[sz - i - 1]` and `s[i]`. -/
def reverseLoop (sz mid : Nat) : Nat → List Byte → List Byte
  | 0, s => s
  | i + 1, s =>
    if mid < i + 1 then
      reverseLoop sz mid i ((s.set (sz - i - 1) (s.getD i 0)).set i (s.getD (sz - i - 1) 0))
    else s

variable {κ : Type} (S : Services κ)

/-- `User2System(virtAddr, limit)`. -/
def userString (k : κ) (virtAddr : Word) (limit : Word) : Except Stop ((Nat → Byte) × κ) := do
  newChars (limit + 1)
  orHalt (user2System S.readMem k virtAddr limit.toNat)

/-- `System2User(virtAddr, len, buffer)`; what it returns is not used. -/
def toUser (k : κ) (virtAddr : Word) (len : Word) (buffer : Nat → Byte) : Except Stop κ :=
  orHalt ((system2User S.writeMem k virtAddr len.toInt buffer).map (·.2))

/-- `while (buf[i] != 0) gSynchConsole->Write(buf + i, 1)`. -/
def writeChars (k : κ) (l : List Byte) : Except Stop κ := l.foldlM (fun k c => S.consoleWrite k [c]) k

/-! ## The cases of the switch: the value written to `r2`, if any -/

def readInt (k : κ) : Except Stop (Option Word × κ) := do
  let (stored, nDigit, k) ← S.consoleRead k (BitVec.ofNat 32 MAX_INT_LENGTH)
  let number ← parseInt (filled stored MAX_INT_LENGTH) nDigit.toInt
  .ok (some number, k)

/-- The sign of `n` is printed, and the rest is not negative, or -2^31. -/
def printSign (k : κ) (n : Word) : Except Stop (Word × κ) :=
  if n.toInt < 0 then (fun k => (-n, k)) <$> S.consoleWrite k [45] else .ok (n, k)

def printInt (k : κ) (n : Word) : Except Stop (Option Word × κ) := do
  let (n, k) ← printSign S k n
  let s := intDigits MAX_INT_LENGTH n
  let sz := s.length
  -- `s[sz] = '\n'`
  if MAX_INT_LENGTH ≤ sz then .error .undefined
  else
    let k ← S.consoleWrite k (reverseLoop sz (sz / 2) sz s)
    .ok (none, k)

def readChar (k : κ) : Except Stop (Option Word × κ) := do
  let (stored, sz, k) ← S.consoleRead k (BitVec.ofNat 32 MAX_INT_LENGTH)
  if sz.toInt - 1 < 0 then .error .undefined
  else
    match (filled stored MAX_INT_LENGTH)[(sz.toInt - 1).toNat]? with
    | none => .error .undefined
    | some c => .ok (some (c.signExtend 32), k)

def printChar (k : κ) (ch : Word) : Except Stop (Option Word × κ) := do
  let k ← S.consoleWrite k [ch.setWidth 8]
  .ok (none, k)

def readString (k : κ) (bufAddrUser length : Word) : Except Stop (Option Word × κ) := do
  -- `Read` first clears `length` bytes of the buffer
  if (LIMIT : Int) < length.toInt then .error .undefined
  else
    let (stored, sz, k) ← S.consoleRead k length
    let k ← toUser S k bufAddrUser sz (fun i => (filled stored LIMIT).getD i 0)
    .ok (none, k)

def printString (k : κ) (bufAddr : Word) : Except Stop (Option Word × κ) := do
  let (buf, k) ← userString S k bufAddr (BitVec.ofNat 32 LIMIT)
  let k ← writeChars S k (str buf 0 (LIMIT + 1))
  .ok (none, k)

def createFile (k : κ) (bufAddr : Word) : Except Stop (Option Word × κ) := do
  let (buf, k) ← userString S k bufAddr (BitVec.ofNat 32 LIMIT)
  let (created, k) ← S.create k buf
  .ok (some (if created then 0 else -1), k)

/-- `"stdin"`. -/
def stdinName : List Byte := [115, 116, 100, 105, 110]

/-- `"stdout"`. -/
def stdoutName : List Byte := [115, 116, 100, 111, 117, 116]

def openFileID (k : κ) (bufAddr type : Word) : Except Stop (Option Word × κ) := do
  let freeSlot := S.findFreeSlot k
  if 10 ≤ freeSlot then .ok (some (-1), k)
  else
    let (buf, k) ← userString S k bufAddr (BitVec.ofNat 32 LIMIT)
    if str buf 0 (LIMIT + 1) = stdinName then .ok (some 0, k)
    else if str buf 0 (LIMIT + 1) = stdoutName then .ok (some 1, k)
    else
      let (opened, k) ← S.openSlot k freeSlot buf type
      .ok (some (if opened then BitVec.ofNat 32 freeSlot else -1), k)

/-- `m_index < 0 || m_index >= 10`. -/
def badIndex (m_index : Word) : Prop := m_index.toInt < 0 ∨ 10 ≤ m_index.toInt

instance (m_index : Word) : Decidable (badIndex m_index) := inferInstanceAs (Decidable (_ ∨ _))

/-- `pos = (pos == -1) ? openf[m_index]->Length() : pos`. -/
def seekPos (k : κ) (pos m_index : Word) : Except Stop (Word × κ) :=
  if pos = -1 then S.length k m_index else .ok (pos, k)

def seekFile (k : κ) (pos m_index : Word) : Except Stop (Option Word × κ) := do
  if badIndex m_index then .ok (some (-1), k)
  else if ← S.isNull k m_index then .ok (some (-1), k)
  else
    let (pos, k) ← seekPos S k pos m_index
    let (len, k) ← S.length k m_index
    if len.toInt < pos.toInt ∨ pos.toInt < 0 then .ok (some (-1), k)
    else
      let k ← S.seek k m_index pos
      .ok (some pos, k)

def readFile (k : κ) (bufAddr numBuf m_index : Word) : Except Stop (Option Word × κ) := do
  newChars numBuf
  if badIndex m_index then .ok (some (-1), k)
  else if ← S.isNull k m_index then .ok (some (-1), k)
  else
    let (oldPos, k) ← S.getCurrentPos k m_index
    let (buf, k) ← userString S k bufAddr numBuf
    let type ← S.type k m_index
    if type = 2 then
      let (stored, sz, k) ← S.consoleRead k numBuf
      let k ← toUser S k bufAddr sz (fun i => (filled stored numBuf.toNat).getD i 0)
      .ok (some sz, k)
    else
      let (numRead, buf, k) ← S.read k m_index buf numBuf
      if 0 < numRead.toInt then
        let (newPos, k) ← S.getCurrentPos k m_index
        let k ← toUser S k bufAddr (newPos - oldPos + 1) buf
        .ok (some (newPos - oldPos + 1), k)
      else .ok (some (-1), k)

/-- `Write`, for a file of type 0 or 3. -/
def writeOpen (k : κ) (m_index : Word) (buf : Nat → Byte) (numBuf oldPos type : Word) :
    Except Stop (Option Word × κ) :=
  if type = 0 ∨ type = 3 then do
    let (numWritten, k) ← S.write k m_index buf numBuf
    if 0 < numWritten.toInt then
      let (newPos, k) ← S.getCurrentPos k m_index
      .ok (some (newPos - oldPos + 1), k)
    -- the test for type 1 stands here, where the type is 0 or 3
    else .ok (none, k)
  else .ok (none, k)

def writeFile (k : κ) (bufAddr numBuf m_index : Word) : Except Stop (Option Word × κ) := do
  newChars numBuf
  if badIndex m_index then .ok (some (-1), k)
  else if ← S.isNull k m_index then .ok (some (-1), k)
  else
    let (oldPos, k) ← S.getCurrentPos k m_index
    let (buf, k) ← userString S k bufAddr numBuf
    let type ← S.type k m_index
    let (r2, k) ← writeOpen S k m_index buf numBuf oldPos type
    if type = 3 then
      let l := str buf 0 (numBuf.toNat + 1)
      let k ← writeChars S k l
      .ok (some (BitVec.ofNat 32 l.length - 1), k)
    else .ok (r2, k)

def closeFile (k : κ) (m_index : Word) : Except Stop (Option Word × κ) := do
  if ← S.isNull k m_index then .ok (none, k)
  else
    let k ← S.close k m_index
    .ok (none, k)

/-- `SC_ExecProcess`, `SC_Wait` and `SC_Signal`: a name of at most 49 bytes is handed over. -/
def namedCall (update : κ → (Nat → Byte) → Except Stop (Word × κ)) (k : κ) (name : Word) :
    Except Stop (Option Word × κ) := do
  if name = 0 then .ok (some (-1), k)
  else
    let (namebuf, k) ← userString S k name 49
    let (rslt, k) ← update k namebuf
    .ok (some rslt, k)

def createSem (k : κ) (name sval : Word) : Except Stop (Option Word × κ) := do
  if name = 0 ∨ sval.toInt < 0 then .ok (some (-1), k)
  else
    let (namebuf, k) ← userString S k name 49
    let (rslt, k) ← S.semCreate k namebuf sval
    .ok (some rslt, k)

/-- `SC_JoinProcess` and `SC_ExitProcess`. -/
def pidCall (update : κ → Word → Except Stop (Word × κ)) (k : κ) (pid : Word) :
    Except Stop (Option Word × κ) := do
  let (rslt, k) ← update k pid
  .ok (some rslt, k)

/-- How a case of the switch is left. -/
inductive Leave where
  | brk
  | ret
  deriving DecidableEq, Repr

/-- `SC_Create`, whose error path returns from the handler. -/
def create (k : κ) (virtAddr : Word) : Except Stop (Leave × Option Word × κ) := do
  let (filename, k) ← userString S k virtAddr (BitVec.ofNat 32 (MaxFileLength + 1))
  let (created, k) ← S.create k filename
  if created then .ok (.brk, some 0, k) else .ok (.ret, some (-1), k)

/-- A case that ends in `break`. -/
def ends (x : Except Stop (Option Word × κ)) : Except Stop (Leave × Option Word × κ) :=
  (fun r => (.brk, r.1, r.2)) <$> x

/-- `switch (type)`, with `type` from `r2`. -/
def syscall (r : Regs) (k : κ) : Except Stop (Leave × Option Word × κ) :=
  let r4 := r (gpr 4)
  let r5 := r (gpr 5)
  let r6 := r (gpr 6)
  match syscallCode (r (gpr 2)) with
  | some .halt => .error .halt
  | some .exit => .error .halt
  | some .create => create S k r4
  | some .readInt => ends (readInt S k)
  | some .printInt => ends (printInt S k r4)
  | some .readChar => ends (readChar S k)
  | some .printChar => ends (printChar S k r4)
  | some .readString => ends (readString S k r4 r5)
  | some .printString => ends (printString S k r4)
  | some .createFile => ends (createFile S k r4)
  | some .openFileID => ends (openFileID S k r4 r5)
  | some .closeFile => ends (closeFile S k r4)
  | some .readFile => ends (readFile S k r4 r5 r6)
  | some .writeFile => ends (writeFile S k r4 r5 r6)
  | some .seekFile => ends (seekFile S k r4 r5)
  | some .execProcess => ends (namedCall S S.execUpdate k r4)
  | some .joinProcess => ends (pidCall S.joinUpdate k r4)
  | some .exitProcess => ends (pidCall S.exitUpdate k r4)
  | some .createSem => ends (createSem S k r4 r5)
  | some .wait => ends (namedCall S S.semWait k r4)
  | some .signal => ends (namedCall S S.semSignal k r4)
  | none => .error .halt

/-- `machine->WriteRegister(2, ..)`. -/
def writeR2 (r : Regs) : Option Word → Regs
  | some v => Function.update r (gpr 2) v
  | none => r

/-- The program counters move on to the next instruction. -/
def advancePC (r : Regs) : Regs :=
  let r := Function.update r PrevPCReg (r PCReg)
  let r := Function.update r PCReg (r NextPCReg)
  Function.update r NextPCReg (r NextPCReg + 4)

/-- `ExceptionHandler`. -/
def exceptionHandler (which : ExceptionType) (r : Regs) (k : κ) : Except Stop (Regs × κ) :=
  match which with
  | .noException => .ok (advancePC r, k)
  | .syscallException => do
    match ← syscall S r k with
    | (.brk, r2, k) => .ok (advancePC (writeR2 r r2), k)
    | (.ret, r2, k) => .ok (writeR2 r r2, k)
  | _ => .error .halt

/-! ## The program counters -/

variable {S} {r r' : Regs} {k k' : κ}

/-- The program counters of `r`, advanced once. -/
def Advanced (r r' : Regs) : Prop :=
  r' PrevPCReg = r PCReg ∧ r' PCReg = r NextPCReg ∧ r' NextPCReg = r NextPCReg + 4

/-- The call is `Create`, and `fileSystem->Create` of the name it passes fails. -/
def CreateFails (S : Services κ) (r : Regs) (k : κ) : Prop :=
  r (gpr 2) = SC_Create ∧ ∃ filename k1 k2,
    userString S k (r (gpr 4)) (BitVec.ofNat 32 (MaxFileLength + 1)) = .ok (filename, k1) ∧
    S.create k1 filename = .ok (false, k2)

theorem syscallCode_create {type : Word} : syscallCode type = some .create ↔ type = SC_Create := by
  constructor
  · intro h
    obtain ⟨c, hc, hcode⟩ := Option.map_eq_some_iff.1 h
    have hall : ∀ c ∈ syscallCodes, c.2 = .create → c.1 = SC_Create := by decide
    have htype : c.1 = type := by simpa using List.find?_some hc
    rw [← htype]
    exact hall c (List.mem_of_find?_eq_some hc) hcode
  · rintro rfl
    rfl

theorem ends_leave {x : Except Stop (Option Word × κ)} {leave : Leave} {r2 : Option Word}
    (h : ends x = .ok (leave, r2, k')) : leave = .brk := by
  obtain ⟨a, -, ha⟩ := map_eq_ok.1 h
  exact (congrArg Prod.fst ha).symm

theorem create_of_ok {virtAddr : Word} {filename : Nat → Byte} {k1 k2 : κ} {created : Bool}
    (hname : userString S k virtAddr (BitVec.ofNat 32 (MaxFileLength + 1)) = .ok (filename, k1))
    (hcreate : S.create k1 filename = .ok (created, k2)) :
    create S k virtAddr = if created then .ok (.brk, some 0, k2) else .ok (.ret, some (-1), k2) := by
  rw [create, hname]
  show (S.create k1 filename >>= _) = _
  rw [hcreate]
  rfl

/-- `SC_Create` returns from the handler when the file cannot be created. -/
theorem create_leave {virtAddr : Word} {leave : Leave} {r2 : Option Word}
    (h : create S k virtAddr = .ok (leave, r2, k')) :
    leave = .ret ↔ ∃ filename k1 k2,
      userString S k virtAddr (BitVec.ofNat 32 (MaxFileLength + 1)) = .ok (filename, k1) ∧
      S.create k1 filename = .ok (false, k2) := by
  obtain ⟨⟨filename, k1⟩, hname, h⟩ := bind_eq_ok.1 h
  obtain ⟨⟨created, k2⟩, hcreate, h⟩ := bind_eq_ok.1 h
  have hcalls : (∃ filename k1 k2,
      userString S k virtAddr (BitVec.ofNat 32 (MaxFileLength + 1)) = .ok (filename, k1) ∧
      S.create k1 filename = .ok (false, k2)) ↔ created = false := by
    constructor
    · rintro ⟨_, _, _, hname', hcreate'⟩
      rw [hname] at hname'
      cases hname'
      rw [hcreate] at hcreate'
      cases hcreate'
      rfl
    · rintro rfl
      exact ⟨filename, k1, k2, hname, hcreate⟩
  rw [hcalls]
  cases created with
  | true =>
    cases h
    exact ⟨nofun, nofun⟩
  | false =>
    cases h
    exact ⟨fun _ => rfl, fun _ => rfl⟩

/-- A case that is not `SC_Create` ends in `break`. -/
theorem syscall_brk {leave : Leave} {r2 : Option Word} (h : syscall S r k = .ok (leave, r2, k'))
    (hcode : syscallCode (r (gpr 2)) ≠ some .create) : leave = .brk := by
  unfold syscall at h
  split at h
  case h_3 hc => exact absurd hc hcode
  all_goals first | exact ends_leave h | cases h

/-- **How the switch is left.** -/
theorem syscall_leave {leave : Leave} {r2 : Option Word} (h : syscall S r k = .ok (leave, r2, k')) :
    leave = .ret ↔ CreateFails S r k := by
  by_cases hcode : syscallCode (r (gpr 2)) = some .create
  · have hcreate : create S k (r (gpr 4)) = .ok (leave, r2, k') := by
      simpa only [syscall, hcode] using h
    rw [create_leave hcreate, CreateFails]
    exact (and_iff_right (syscallCode_create.1 hcode)).symm
  · rw [syscall_brk h hcode]
    refine ⟨nofun, ?_⟩
    rintro ⟨hcreate, -⟩
    exact absurd (syscallCode_create.2 hcreate) hcode

theorem writeR2_pc (r : Regs) (r2 : Option Word) :
    writeR2 r r2 PCReg = r PCReg ∧ writeR2 r r2 NextPCReg = r NextPCReg := by
  cases r2 with
  | none => exact ⟨rfl, rfl⟩
  | some v => exact ⟨rfl, rfl⟩

/-- **A system call resumes after itself**, for every code and all arguments, whatever the kernel and
its file system do: when the handler returns, the program counters have been advanced exactly once,
unless the call is a `Create` that fails. -/
theorem handler_advances_iff (h : exceptionHandler S .syscallException r k = .ok (r', k')) :
    Advanced r r' ↔ ¬ CreateFails S r k := by
  obtain ⟨⟨leave, r2, k1⟩, hcall, h⟩ := bind_eq_ok.1 h
  rw [← syscall_leave hcall]
  obtain ⟨hpc, hnext⟩ := writeR2_pc r r2
  cases leave with
  | brk =>
    cases h
    refine ⟨fun _ => nofun, fun _ => ⟨?_, ?_, ?_⟩⟩
    · exact hpc
    · exact hnext
    · exact congrArg (· + 4) hnext
  | ret =>
    cases h
    refine ⟨?_, fun hne => absurd rfl hne⟩
    rintro ⟨-, -, hadv⟩
    rw [hnext] at hadv
    exact absurd hadv (by simp)

end Exception

end Nachos
