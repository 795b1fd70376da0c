import Nachos.Userprog.Exception
import Nachos.Userprog.UserSpace

/-!
# The stub file system

`OpenFile` and `FileSystem` of the FILESYS_STUB build, `filesys/openfile.h` and `filesys/filesys.h`,
over files of the host with POSIX semantics (`machine/sysdep.cc`): the services that the file system
calls use.

* `overwrite_window` — what is written can be read back.
* `Kernel.services` — the services, for the handler.
-/

set_option autoImplicit false

namespace Nachos

open CString Exception Partial

namespace Stub

/-- The largest offset of a host file. -/
def OFFSET_MAX : Nat := 2 ^ 31 - 1

/-- The files of the host.  `inode` has the names that can be opened, `refused` those that the host
does not create. -/
structure Host where
  inode : List Byte → Option Nat
  content : Nat → List Byte
  nextInode : Nat
  refused : List Byte → Bool
  bounded : ∀ i, (content i).length ≤ OFFSET_MAX

def Host.setContent (h : Host) (i : Nat) (c : List Byte) (hc : c.length ≤ OFFSET_MAX) : Host :=
  { h with
    content := Function.update h.content i c
    bounded := by
      intro j
      rcases eq_or_ne j i with rfl | hne
      · rw [Function.update_self]
        exact hc
      · rw [Function.update_of_ne hne]
        exact h.bounded j }

/-- `write`: `l` at offset `p` of a file. -/
def overwrite (c : List Byte) (p : Nat) (l : List Byte) : List Byte :=
  if l = [] then c else (c ++ List.replicate (p - c.length) 0).take p ++ l ++ c.drop (p + l.length)

theorem length_overwrite_le (c : List Byte) (p : Nat) (l : List Byte) :
    (overwrite c p l).length ≤ max c.length (p + l.length) := by
  unfold overwrite
  split
  · omega
  · simp only [List.length_append, List.length_take, List.length_replicate, List.length_drop]
    omega

/-- What is written can be read back. -/
theorem overwrite_window {c l : List Byte} {p : Nat} (hl : l ≠ []) :
    ((overwrite c p l).drop p).take l.length = l := by
  have hlen : ((c ++ List.replicate (p - c.length) 0).take p).length = p := by
    simp only [List.length_take, List.length_append, List.length_replicate]
    omega
  rw [overwrite, if_neg hl, List.append_assoc, List.drop_left' hlen, List.take_left]

theorem length_overwrite {c l : List Byte} {p : Nat} (hl : l ≠ []) :
    (overwrite c p l).length = max c.length (p + l.length) := by
  simp only [overwrite, if_neg hl, List.length_append, List.length_take, List.length_replicate, List.length_drop]
  omega

/-- `OpenForWrite`, then `Close`; `none` is the failed `ASSERT(fd >= 0)`. -/
def Host.create (h : Host) (name : List Byte) : Option Host :=
  match h.inode name with
  | some i => some (h.setContent i [] (Nat.zero_le _))
  | none =>
    if h.refused name then none
    else some { h.setContent h.nextInode [] (Nat.zero_le _) with
      inode := Function.update h.inode name (some h.nextInode)
      nextInode := h.nextInode + 1 }

/-- `class OpenFile`; `file` is an open file of the host, which keeps its `offset`. -/
structure OpenFile where
  file : Nat
  offset : Nat
  currentOffset : Nat
  type : Word
  deriving DecidableEq, Repr

namespace OpenFile

/-- `OpenFile::ReadAt`: the bytes read. -/
def readAt (f : OpenFile) (h : Host) (numBytes position : Nat) : List Byte × OpenFile :=
  let data := ((h.content f.file).drop position).take numBytes
  (data, { f with offset := position + data.length })

/-- `OpenFile::WriteAt`; a write that is cut short fails an `ASSERT`. -/
def writeAt (f : OpenFile) (h : Host) (data : List Byte) (position : Nat) : Except Stop (Host × OpenFile) :=
  if hle : position + data.length ≤ OFFSET_MAX then
    .ok (h.setContent f.file (overwrite (h.content f.file) position data)
        (Nat.le_trans (length_overwrite_le _ _ _) (Nat.max_le.2 ⟨h.bounded _, hle⟩)),
      { f with offset := position + data.length })
  else .error .abort

/-- `OpenFile::Read`. -/
def read (f : OpenFile) (h : Host) (numBytes : Nat) : List Byte × OpenFile :=
  let (data, f) := f.readAt h numBytes f.currentOffset
  (data, { f with currentOffset := f.currentOffset + data.length })

/-- `OpenFile::Write`. -/
def write (f : OpenFile) (h : Host) (data : List Byte) : Except Stop (Host × OpenFile) := do
  let (h, f) ← f.writeAt h data f.currentOffset
  .ok (h, { f with currentOffset := f.currentOffset + data.length })

/-- `OpenFile::Length`, which seeks to the end and back. -/
def length (f : OpenFile) (h : Host) : Nat × OpenFile :=
  ((h.content f.file).length, { f with offset := f.currentOffset })

/-- `OpenFile::GetCurrentPos`. -/
def getCurrentPos (f : OpenFile) : Nat × OpenFile := (f.offset, { f with currentOffset := f.offset })

/-- `OpenFile::Seek`. -/
def seek (f : OpenFile) (pos : Nat) : OpenFile := { f with offset := pos, currentOffset := pos }

end OpenFile

/-- The kernel, as far as the file system calls go: the memory of the calling process, `openf`, the
host's files and the console.  `ch` is what the stack holds where `SynchConsole::Read` keeps its
character. -/
structure Kernel where
  user : UserSpace
  openf : Fin 10 → Option OpenFile
  host : Host
  input : List Byte
  output : List Byte
  ch : Byte

/-- The loop of `SynchConsole::Read` for `n` more bytes: what it stores, whether it ended with
Ctrl-A, and the input that is left; `none` if it waits for ever. -/
def consoleLine : List Byte → Nat → Option (List Byte × Bool × List Byte)
  | input, 0 => some ([], false, input)
  | [], _ + 1 => none
  | c :: input, n + 1 =>
    if c = 255 then consoleLine input (n + 1)
    else if c = 10 then some ([], false, input)
    else if c = 1 then some ([], true, input)
    else (consoleLine input n).map fun r => (c :: r.1, r.2)

namespace Kernel

/-- For the numbers of the slots. -/
instance neZero_slots : NeZero 10 := ⟨by decide⟩

/-- `openf[m_index]` is inside of the array. -/
def slot (m_index : Word) : Except Stop (Fin 10) :=
  if h : 0 ≤ m_index.toInt ∧ m_index.toInt < 10 then .ok ⟨m_index.toInt.toNat, by omega⟩ else .error .undefined

/-- `openf[m_index]->`, which is not `NULL`. -/
def file (k : Kernel) (m_index : Word) : Except Stop (Fin 10 × OpenFile) := do
  let i ← slot m_index
  match k.openf i with
  | some f => .ok (i, f)
  | none => .error .undefined

/-- `openf[i] = f`. -/
def setFile (k : Kernel) (i : Fin 10) (f : Option OpenFile) : Kernel :=
  { k with openf := Function.update k.openf i f }

/-- `FileSystem::findFreeSlot`. -/
def findFreeSlot (k : Kernel) : Nat :=
  (((List.finRange 10).find? fun i => decide (2 ≤ i.val) && (k.openf i).isNone).map (·.val)).getD 10

/-- `FileSystem::Open(name, type)`. -/
def openHost (h : Host) (name : List Byte) (type : Word) : Option OpenFile :=
  (h.inode name).map fun i => ⟨i, 0, 0, type⟩

/-- `SynchConsole::Read`. -/
def consoleRead (k : Kernel) (numBytes : Word) : Except Stop (List Byte × Word × Kernel) :=
  if numBytes.toInt ≤ 0 then .ok ([], if k.ch = 1 then -1 else 0, k)
  else
    match consoleLine k.input numBytes.toNat with
    | none => .error .forever
    | some (stored, ctrlA, input) =>
      .ok (stored, if ctrlA then -1 else BitVec.ofNat 32 stored.length, { k with input := input })

/-- The services of the file system calls; the others are any `S`. -/
def services (S : Services Kernel) : Services Kernel :=
  { S with
    readMem := fun k addr => (k.user.readByte addr).map fun r => (r.1, { k with user := r.2 })
    writeMem := fun k addr c => (k.user.writeByte addr c).map fun u => { k with user := u }
    create := fun k name =>
      match k.host.create (str name 0 (LIMIT + 1)) with
      | some h => .ok (true, { k with host := h })
      | none => .error .abort
    findFreeSlot := findFreeSlot
    openSlot := fun k freeSlot name type => do
      let i ← slot (BitVec.ofNat 32 freeSlot)
      let f := openHost k.host (str name 0 (LIMIT + 1)) type
      .ok (f.isSome, k.setFile i f)
    isNull := fun k m_index => (fun i => (k.openf i).isNone) <$> slot m_index
    type := fun k m_index => (fun r => r.2.type) <$> k.file m_index
    length := fun k m_index => do
      let (i, f) ← k.file m_index
      let (len, f) := f.length k.host
      .ok (BitVec.ofNat 32 len, k.setFile i (some f))
    seek := fun k m_index pos => do
      let (i, f) ← k.file m_index
      if pos.toInt < 0 then .error .abort else .ok (k.setFile i (some (f.seek pos.toNat)))
    getCurrentPos := fun k m_index => do
      let (i, f) ← k.file m_index
      let (pos, f) := f.getCurrentPos
      .ok (BitVec.ofNat 32 pos, k.setFile i (some f))
    read := fun k m_index buf numBytes => do
      let (i, f) ← k.file m_index
      let (data, f) := f.read k.host numBytes.toNat
      .ok (BitVec.ofNat 32 data.length, fun j => data.getD j (buf j), k.setFile i (some f))
    write := fun k m_index buf numBytes => do
      let (i, f) ← k.file m_index
      let (h, f) ← f.write k.host ((List.range numBytes.toNat).map buf)
      .ok (numBytes, { k.setFile i (some f) with host := h })
    close := fun k m_index => do
      let (i, _) ← k.file m_index
      .ok (k.setFile i none)
    consoleRead := consoleRead
    consoleWrite := fun k l => .ok { k with output := k.output ++ l } }

/-- `FileSystem::FileSystem`. -/
def boot (h : Host) : Option ((Fin 10 → Option OpenFile) × Host) := do
  let h ← h.create stdinName
  let h ← h.create stdoutName
  let openf := Function.update (fun _ => none) 0 (openHost h stdinName 2)
  some (Function.update openf 1 (openHost h stdoutName 3), h)

end Kernel

end Stub

end Nachos
