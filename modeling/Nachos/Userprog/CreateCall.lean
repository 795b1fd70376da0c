import Nachos.Filesys.FileSystem
import Nachos.Userprog.Exception
import Nachos.Userprog.UserSpace

/-!
# `SC_Create` in the FILESYS build

The handler over `FileSystem::Create` of `filesys/filesys.cc` and the memory of a process.

* `create_returns` — the call, for any result of `FileSystem::Create`.
-/

set_option autoImplicit false

namespace Nachos

open CString Exception

/-- The memory of the calling process, and the file system. -/
structure FilesysKernel where
  user : UserSpace
  fs : FileSystem

namespace FilesysKernel

/-- The services that `SC_Create` uses; the others are any `S`. -/
def services (junk : Nat → Buffer) (S : Services FilesysKernel) : Services FilesysKernel :=
  { S with
    readMem := fun k addr => (k.user.readByte addr).map fun r => (r.1, { k with user := r.2 })
    create := fun k name =>
      match FileSystem.create k.fs junk (str name 0 (MaxFileLength + 2)) 0 with
      | some (created, fs) => .ok (created, { k with fs := fs })
      | none => .error .abort }

/-- A process of nine pages with the string "a" at address 0. -/
def process : UserSpace where
  pageTable := (List.range 9).map fun i => ⟨i, i, true, false, false, false⟩
  mainMemory := Function.update (fun _ => 0) 0 97

/-- `Create("a")`, called at address 0. -/
def createCall : Regs := Function.update (Function.update (fun _ => 0) (gpr 2) SC_Create) NextPCReg 4

/-- The call, for any result of `FileSystem::Create`. -/
theorem create_returns (S : Services FilesysKernel) {fs fs' : FileSystem} {created : Bool}
    (h : FileSystem.create fs (fun _ _ => 0) [97] 0 = some (created, fs')) :
    ∃ k', exceptionHandler (services (fun _ _ => 0) S) .syscallException createCall ⟨process, fs⟩ =
      .ok (if created then advancePC (writeR2 createCall (some 0)) else writeR2 createCall (some (-1)), k') ∧
      (CreateFails (services (fun _ _ => 0) S) createCall ⟨process, fs⟩ ↔ created = false) := by
  have hread : ∃ name user', userString (services (fun _ _ => 0) S) ⟨process, fs⟩ 0 33 = .ok (name, ⟨user', fs⟩) ∧
      str name 0 34 = [97] := ⟨_, _, rfl, rfl⟩
  obtain ⟨name, user', hname, hstr⟩ := hread
  have hcreate : (services (fun _ _ => 0) S).create ⟨user', fs⟩ name = .ok (created, ⟨user', fs'⟩) := by
    simp only [services, MaxFileLength, hstr, h]
  have hcall : syscall (services (fun _ _ => 0) S) createCall ⟨process, fs⟩ =
      if created then .ok (.brk, some 0, ⟨user', fs'⟩) else .ok (.ret, some (-1), ⟨user', fs'⟩) :=
    create_of_ok hname hcreate
  cases created with
  | true => exact ⟨_, by rw [exceptionHandler, hcall]; rfl, by rw [← syscall_leave hcall]; decide⟩
  | false => exact ⟨_, by rw [exceptionHandler, hcall]; rfl, by rw [← syscall_leave hcall]; decide⟩

/-- "a" can be created on a fresh disk, and not twice. -/
theorem create_twice : ∃ fs fs1 fs2, FileSystem.format (fun _ => 0) (fun _ _ => 0) = some fs ∧
    FileSystem.create fs (fun _ _ => 0) [97] 0 = some (true, fs1) ∧
    FileSystem.create fs1 (fun _ _ => 0) [97] 0 = some (false, fs2) := by
  have hrun : ((FileSystem.format (fun _ => 0) (fun _ _ => 0)).bind fun fs =>
      (FileSystem.create fs (fun _ _ => 0) [97] 0).bind fun r =>
        (FileSystem.create r.2 (fun _ _ => 0) [97] 0).map fun r' => (r.1, r'.1)) = some (true, false) := by
    decide +kernel
  obtain ⟨fs, hfs, h⟩ := Option.bind_eq_some_iff.1 hrun
  obtain ⟨⟨created1, fs1⟩, h1, h⟩ := Option.bind_eq_some_iff.1 h
  obtain ⟨⟨created2, fs2⟩, h2, h⟩ := Option.map_eq_some_iff.1 h
  cases h
  exact ⟨fs, fs1, fs2, hfs, h1, h2⟩

/-- `Create("a")` on a fresh disk goes on behind the call. -/
theorem handler_advances_firstCreate : ∃ fs, FileSystem.format (fun _ => 0) (fun _ _ => 0) = some fs ∧
    ∀ S, ∃ r' k', exceptionHandler (services (fun _ _ => 0) S) .syscallException createCall ⟨process, fs⟩ =
      .ok (r', k') ∧ Advanced createCall r' := by
  obtain ⟨fs, fs1, -, hfs, hcreate, -⟩ := create_twice
  refine ⟨fs, hfs, ?_⟩
  intro S
  obtain ⟨k', hreturns, hfails⟩ := create_returns S hcreate
  exact ⟨_, k', hreturns, (handler_advances_iff hreturns).2 (fun hf => nomatch hfails.1 hf)⟩

/-- Called again, it fails and the process stays at the call. -/
theorem handler_stays_secondCreate : ∃ fs fs1, FileSystem.format (fun _ => 0) (fun _ _ => 0) = some fs ∧
    FileSystem.create fs (fun _ _ => 0) [97] 0 = some (true, fs1) ∧
    ∀ S, ∃ r' k', exceptionHandler (services (fun _ _ => 0) S) .syscallException createCall ⟨process, fs1⟩ =
      .ok (r', k') ∧ r' PCReg = createCall PCReg ∧ ¬ Advanced createCall r' := by
  obtain ⟨fs, fs1, fs2, hfs, h1, h2⟩ := create_twice
  refine ⟨fs, fs1, hfs, h1, ?_⟩
  intro S
  obtain ⟨k', hreturns, -⟩ := create_returns S h2
  refine ⟨_, k', hreturns, rfl, ?_⟩
  rintro ⟨-, -, hnext⟩
  exact absurd hnext (by decide)

end FilesysKernel

end Nachos
