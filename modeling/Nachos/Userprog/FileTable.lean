import Nachos.Filesys.Stub
import Nachos.Lib.CInt
import Nachos.Lib.Transition

/-!
# The table of open files

The calls `OpenFileID`, `CloseFile`, `SeekFile`, `ReadFile` and `WriteFile` in the FILESYS_STUB build,
in any order and from any processes.  A call runs in the memory of its process (`user`) and with what
is typed from then on (`input`).

* `Keeps` — every slot denotes the same file; `SeekFile`, `ReadFile` and `WriteFile` keep it.
* `file_table_safe` — every state that is reached without closing a console file or a slot that
  does not exist, and every call there.
-/

set_option autoImplicit false

namespace Nachos

open CString Exception Partial Transition

namespace Stub

inductive FileCall where
  | openFileID (bufAddr type : Word)
  | closeFile (m_index : Word)
  | seekFile (pos m_index : Word)
  | readFile (bufAddr numBuf m_index : Word)
  | writeFile (bufAddr numBuf m_index : Word)

/-- A call, with the memory and the input it finds. -/
structure FileEvent where
  user : UserSpace
  input : List Byte
  ch : Byte
  call : FileCall

namespace Kernel

def call (S : Services Kernel) (k : Kernel) : FileCall → Except Stop (Option Word × Kernel)
  | .openFileID bufAddr type => openFileID (services S) k bufAddr type
  | .closeFile m_index => closeFile (services S) k m_index
  | .seekFile pos m_index => seekFile (services S) k pos m_index
  | .readFile bufAddr numBuf m_index => readFile (services S) k bufAddr numBuf m_index
  | .writeFile bufAddr numBuf m_index => writeFile (services S) k bufAddr numBuf m_index

/-- The kernel when the call is made. -/
def enter (k : Kernel) (e : FileEvent) : Kernel := { k with user := e.user, input := e.input, ch := e.ch }

/-- A call that comes back. -/
def step (S : Services Kernel) (k : Kernel) (e : FileEvent) : Option Kernel :=
  match (k.enter e).call S e.call with
  | .ok r => some r.2
  | .error _ => none

/-- From a new `FileSystem` on, over any files of the host. -/
def system (S : Services Kernel) : System Kernel FileEvent where
  init := fun k => ∃ h, boot h = some (k.openf, k.host)
  step := step S

/-! ## What the services keep -/

variable {S : Services Kernel} {k k' k'' : Kernel} {m_index : Word}

/-- Neither the table nor a file has changed. -/
def SameFiles (k k' : Kernel) : Prop := k'.openf = k.openf ∧ k'.host = k.host

theorem SameFiles.trans (h : SameFiles k k') (h' : SameFiles k' k'') : SameFiles k k'' :=
  ⟨h'.1.trans h.1, h'.2.trans h.2⟩

/-- Every slot denotes what it has denoted, and every name. -/
structure Keeps (k k' : Kernel) : Prop where
  some : ∀ i f, k.openf i = some f → ∃ f', k'.openf i = some f' ∧ f'.file = f.file ∧ f'.type = f.type
  none : ∀ i, k.openf i = none → k'.openf i = none
  inode : k'.host.inode = k.host.inode

theorem SameFiles.keeps (h : SameFiles k k') : Keeps k k' where
  some := fun i f hf => ⟨f, by rw [h.1]; exact hf, rfl, rfl⟩
  none := fun i hf => by rw [h.1]; exact hf
  inode := by rw [h.2]

theorem Keeps.refl (k : Kernel) : Keeps k k := SameFiles.keeps ⟨rfl, rfl⟩

theorem Keeps.trans (h : Keeps k k') (h' : Keeps k' k'') : Keeps k k'' where
  some := by
    intro i f hf
    obtain ⟨f1, hf1, hfile1, htype1⟩ := h.some i f hf
    obtain ⟨f2, hf2, hfile2, htype2⟩ := h'.some i f1 hf1
    exact ⟨f2, hf2, hfile2.trans hfile1, htype2.trans htype1⟩
  none := fun i hf => h'.none i (h.none i hf)
  inode := h'.inode.trans h.inode

/-- `openf[m_index]` is a file. -/
def Open (k : Kernel) (m_index : Word) : Prop := ∃ i f, slot m_index = .ok i ∧ k.openf i = some f

theorem Keeps.open (h : Keeps k k') (ho : Open k m_index) : Open k' m_index := by
  obtain ⟨i, f, hi, hf⟩ := ho
  obtain ⟨f', hf', -⟩ := h.some i f hf
  exact ⟨i, f', hi, hf'⟩

theorem file_eq {i : Fin 10} {f : OpenFile} (hi : slot m_index = .ok i) (hf : k.openf i = some f) :
    k.file m_index = .ok (i, f) := by
  rw [file, hi]
  simp only [ok_bind, hf]

/-- Another state of the same file in its slot. -/
theorem keeps_setFile {i : Fin 10} {f f' : OpenFile} (hf : k.openf i = some f) (hfile : f'.file = f.file)
    (htype : f'.type = f.type) : Keeps k (k.setFile i (some f')) where
  some := by
    intro j g hg
    rcases eq_or_ne j i with rfl | hne
    · rw [hf] at hg
      cases hg
      exact ⟨f', by simp [setFile], hfile, htype⟩
    · exact ⟨g, by simpa [setFile, hne] using hg, rfl, rfl⟩
  none := by
    intro j hj
    rcases eq_or_ne j i with rfl | hne
    · rw [hf] at hj
      cases hj
    · simpa [setFile, hne] using hj
  inode := rfl

theorem ends_orHalt {α : Type} {x : Option α} {P : α → Prop} (h : ∀ a, x = some a → P a) :
    Ends .undefined (orHalt x) P := by
  cases x with
  | none => exact (nofun : Stop.halt ≠ .undefined)
  | some a => exact h a rfl

theorem ends_newChars (n : Word) : Ends .undefined (newChars n) fun _ => True := by
  unfold newChars
  split
  · exact (nofun : Stop.abort ≠ .undefined)
  · trivial

/-- Reading from the process changes no file. -/
theorem ends_userString (k : Kernel) (virtAddr limit : Word) :
    Ends .undefined (userString (services S) k virtAddr limit) fun r => SameFiles k r.2 := by
  refine (ends_newChars _).bind (fun _ _ => ends_orHalt ?_)
  rintro ⟨buf, k'⟩ h
  refine user2SystemFrom_keeps (J := SameFiles k) ?_ _ _ _ _ _ _ ⟨rfl, rfl⟩ h
  intro k1 a b k2 h1 hread
  obtain ⟨r, -, hr⟩ := Option.map_eq_some_iff.1 hread
  cases hr
  exact h1

theorem ends_toUser (k : Kernel) (virtAddr len : Word) (buffer : Nat → Byte) :
    Ends .undefined (toUser (services S) k virtAddr len buffer) fun k' => SameFiles k k' := by
  apply ends_orHalt
  intro k' h
  obtain ⟨r, hr, rfl⟩ := Option.map_eq_some_iff.1 h
  rw [system2User] at hr
  split at hr
  · cases hr
    exact ⟨rfl, rfl⟩
  · obtain ⟨⟨m, k2⟩, hfrom, heq⟩ := Option.map_eq_some_iff.1 hr
    cases heq
    refine system2UserFrom_keeps (J := SameFiles k) ?_ _ _ _ _ _ ⟨rfl, rfl⟩ hfrom
    intro k3 a b k4 h3 hwrite
    obtain ⟨u, -, rfl⟩ := Option.map_eq_some_iff.1 hwrite
    exact h3

theorem ends_writeChars (l : List Byte) (k : Kernel) :
    Ends .undefined (writeChars (services S) k l) fun k' => SameFiles k k' := by
  induction l generalizing k with
  | nil => exact ⟨rfl, rfl⟩
  | cons c l ih => exact (ih _).mono (fun k' h => SameFiles.trans ⟨rfl, rfl⟩ h)

theorem ends_consoleRead (k : Kernel) (n : Word) :
    Ends .undefined (consoleRead k n) fun r => SameFiles k r.2.2 := by
  unfold consoleRead
  refine Ends.ite (fun _ => ⟨rfl, rfl⟩) (fun _ => ?_)
  split
  · exact (nofun : Stop.forever ≠ .undefined)
  · exact ⟨rfl, rfl⟩

/-- A write leaves the file what it is. -/
theorem ends_writeHost (f : OpenFile) (h : Host) (data : List Byte) :
    Ends .undefined (f.write h data) fun r =>
      r.2.file = f.file ∧ r.2.type = f.type ∧ r.1.inode = h.inode := by
  unfold OpenFile.write OpenFile.writeAt
  split
  · exact ⟨rfl, rfl, rfl⟩
  · exact (nofun : Stop.abort ≠ .undefined)

section OpenFiles

variable (ho : Open k m_index)

include ho

theorem ends_length : Ends .undefined ((services S).length k m_index) fun r => Keeps k r.2 := by
  obtain ⟨i, f, hi, hf⟩ := ho
  simp only [services, file_eq hi hf]
  exact keeps_setFile hf rfl rfl

theorem ends_getCurrentPos : Ends .undefined ((services S).getCurrentPos k m_index) fun r => Keeps k r.2 := by
  obtain ⟨i, f, hi, hf⟩ := ho
  simp only [services, file_eq hi hf]
  exact keeps_setFile hf rfl rfl

theorem ends_seek (pos : Word) : Ends .undefined ((services S).seek k m_index pos) fun k' => Keeps k k' := by
  obtain ⟨i, f, hi, hf⟩ := ho
  simp only [services, file_eq hi hf]
  exact Ends.ite (fun _ => (nofun : Stop.abort ≠ .undefined)) (fun _ => keeps_setFile hf rfl rfl)

theorem ends_read (buf : Nat → Byte) (numBytes : Word) :
    Ends .undefined ((services S).read k m_index buf numBytes) fun r => Keeps k r.2.2 := by
  obtain ⟨i, f, hi, hf⟩ := ho
  simp only [services, file_eq hi hf]
  exact keeps_setFile hf rfl rfl

theorem ends_write (buf : Nat → Byte) (numBytes : Word) :
    Ends .undefined ((services S).write k m_index buf numBytes) fun r => Keeps k r.2 := by
  obtain ⟨i, f, hi, hf⟩ := ho
  simp only [services, file_eq hi hf]
  apply (ends_writeHost f k.host _).bind
  rintro ⟨h, f'⟩ ⟨hfile, htype, hinode⟩
  have hkeeps := keeps_setFile hf hfile htype
  exact ⟨hkeeps.some, hkeeps.none, hinode⟩

theorem ends_type : Ends .undefined ((services S).type k m_index) fun _ => True := by
  obtain ⟨i, f, hi, hf⟩ := ho
  simp only [services, file_eq hi hf]
  trivial

end OpenFiles

theorem isNull_eq {i : Fin 10} (hi : slot m_index = .ok i) :
    (services S).isNull k m_index = .ok (k.openf i).isNone := by
  simp only [services, hi]
  rfl

/-! ## The calls -/

theorem slot_of_range (h : ¬ badIndex m_index) : ∃ i, slot m_index = .ok i := by
  unfold badIndex at h
  exact ⟨_, dif_pos ⟨by omega, by omega⟩⟩

/-- The two checks in front of `SeekFile`, `ReadFile` and `WriteFile`. -/
theorem ends_checked {x : Except Stop (Option Word × Kernel)}
    (hopen : Open k m_index → Ends .undefined x fun r => Keeps k r.2) :
    Ends .undefined (if badIndex m_index then .ok (some (-1), k)
      else (services S).isNull k m_index >>= fun isNull => if isNull = true then .ok (some (-1), k) else x)
      fun r => Keeps k r.2 ∧ (¬ Open k m_index → r.2 = k) := by
  refine Ends.ite (fun _ => ⟨Keeps.refl k, fun _ => rfl⟩) (fun hrange => ?_)
  obtain ⟨i, hi⟩ := slot_of_range hrange
  rw [isNull_eq hi]
  cases hf : k.openf i with
  | none => exact ⟨Keeps.refl k, fun _ => rfl⟩
  | some f =>
    have ho : Open k m_index := ⟨i, f, hi, hf⟩
    exact (hopen ho).mono (fun r hr => ⟨hr, fun hn => absurd ho hn⟩)

theorem ends_seekFile (k : Kernel) (pos m_index : Word) :
    Ends .undefined (seekFile (services S) k pos m_index) fun r =>
      Keeps k r.2 ∧ (¬ Open k m_index → r.2 = k) := by
  apply ends_checked
  intro ho
  have hpos : Ends .undefined (seekPos (services S) k pos m_index) fun r => Keeps k r.2 :=
    Ends.ite (fun _ => ends_length ho) (fun _ => Keeps.refl k)
  apply hpos.bind
  rintro ⟨pos, k1⟩ h1
  apply (ends_length (h1.open ho)).bind
  rintro ⟨len, k2⟩ h2
  refine Ends.ite (fun _ => h1.trans h2) (fun _ => ?_)
  apply (ends_seek ((h1.trans h2).open ho) pos).bind
  intro k3 h3
  exact (h1.trans h2).trans h3

theorem ends_readFile (k : Kernel) (bufAddr numBuf m_index : Word) :
    Ends .undefined (readFile (services S) k bufAddr numBuf m_index) fun r =>
      Keeps k r.2 ∧ (¬ Open k m_index → r.2 = k) := by
  refine (ends_newChars numBuf).bind (fun _ _ => ends_checked ?_)
  intro ho
  apply (ends_getCurrentPos ho).bind
  rintro ⟨oldPos, k1⟩ h1
  apply (ends_userString k1 bufAddr numBuf).bind
  rintro ⟨buf, k2⟩ h2
  have h12 : Keeps k k2 := h1.trans h2.keeps
  apply (ends_type (h12.open ho)).bind
  rintro type -
  refine Ends.ite (fun _ => ?_) (fun _ => ?_)
  · apply (ends_consoleRead k2 numBuf).bind
    rintro ⟨stored, sz, k3⟩ h3
    apply (ends_toUser k3 bufAddr sz _).bind
    intro k4 h4
    exact h12.trans (h3.trans h4).keeps
  · apply (ends_read (h12.open ho) buf numBuf).bind
    rintro ⟨numRead, buf, k3⟩ h3
    have h13 : Keeps k k3 := h12.trans h3
    refine Ends.ite (fun _ => ?_) (fun _ => h13)
    apply (ends_getCurrentPos (h13.open ho)).bind
    rintro ⟨newPos, k4⟩ h4
    apply (ends_toUser k4 bufAddr _ buf).bind
    intro k5 h5
    exact (h13.trans h4).trans h5.keeps

theorem ends_writeOpen (ho : Open k m_index) (buf : Nat → Byte) (numBuf oldPos type : Word) :
    Ends .undefined (writeOpen (services S) k m_index buf numBuf oldPos type) fun r => Keeps k r.2 := by
  refine Ends.ite (fun _ => ?_) (fun _ => Keeps.refl k)
  apply (ends_write ho buf numBuf).bind
  rintro ⟨numWritten, k1⟩ h1
  refine Ends.ite (fun _ => ?_) (fun _ => h1)
  apply (ends_getCurrentPos (h1.open ho)).bind
  rintro ⟨newPos, k2⟩ h2
  exact h1.trans h2

theorem ends_writeFile (k : Kernel) (bufAddr numBuf m_index : Word) :
    Ends .undefined (writeFile (services S) k bufAddr numBuf m_index) fun r =>
      Keeps k r.2 ∧ (¬ Open k m_index → r.2 = k) := by
  refine (ends_newChars numBuf).bind (fun _ _ => ends_checked ?_)
  intro ho
  apply (ends_getCurrentPos ho).bind
  rintro ⟨oldPos, k1⟩ h1
  apply (ends_userString k1 bufAddr numBuf).bind
  rintro ⟨buf, k2⟩ h2
  have h12 : Keeps k k2 := h1.trans h2.keeps
  apply (ends_type (h12.open ho)).bind
  rintro type -
  apply (ends_writeOpen (h12.open ho) buf numBuf oldPos type).bind
  rintro ⟨r2, k3⟩ h3
  refine Ends.ite (fun _ => ?_) (fun _ => h12.trans h3)
  apply (ends_writeChars _ k3).bind
  intro k4 h4
  exact (h12.trans h3).trans h4.keeps

theorem findFreeSlot_lt (h : ¬ 10 ≤ k.findFreeSlot) :
    ∃ i : Fin 10, k.findFreeSlot = i.val ∧ 2 ≤ i.val ∧ k.openf i = none := by
  unfold findFreeSlot at h ⊢
  cases hfind : (List.finRange 10).find? fun i => decide (2 ≤ i.val) && (k.openf i).isNone with
  | none =>
    rw [hfind] at h
    exact absurd (Nat.le_refl 10) h
  | some i =>
    have hi := List.find?_some hfind
    simp only [Bool.and_eq_true, decide_eq_true_eq, Option.isNone_iff_eq_none] at hi
    exact ⟨i, rfl, hi.1, hi.2⟩

theorem slot_ofNat : ∀ i : Fin 10, slot (BitVec.ofNat 32 i.val) = .ok i := by
  decide

theorem eq_ofNat_of_slot {i : Fin 10} (h : slot m_index = .ok i) : m_index = BitVec.ofNat 32 i.val := by
  unfold slot at h
  split at h
  · rename_i hrange
    cases h
    obtain ⟨a, ha, rfl⟩ := CInt.exists_ofNat hrange.1
    show _ = BitVec.ofNat 32 (BitVec.ofNat 32 a).toInt.toNat
    rw [CInt.toInt_ofNat ha, Int.toNat_natCast]
  · cases h

/-- What `OpenFileID` can do: return -1 or a console descriptor, or open the file it names in a slot
that was `NULL`. -/
def Opened (S : Services Kernel) (k : Kernel) (bufAddr type : Word) (r : Option Word × Kernel) : Prop :=
  (SameFiles k r.2 ∧ (r.1 = some (-1) ∨ r.1 = some 0 ∨ r.1 = some 1)) ∨
  ∃ (i : Fin 10) (f : OpenFile) (buf : Nat → Byte) (k1 : Kernel), 2 ≤ i.val ∧ k.openf i = none ∧
    r.1 = some (BitVec.ofNat 32 i.val) ∧
    userString (services S) k bufAddr (BitVec.ofNat 32 LIMIT) = .ok (buf, k1) ∧
    k.host.inode (str buf 0 (LIMIT + 1)) = some f.file ∧ f.type = type ∧
    r.2.openf = Function.update k.openf i (some f) ∧ r.2.host = k.host

theorem ends_openFileID (k : Kernel) (bufAddr type : Word) :
    Ends .undefined (openFileID (services S) k bufAddr type) (Opened S k bufAddr type) := by
  refine Ends.ite (fun _ => .inl ⟨⟨rfl, rfl⟩, .inl rfl⟩) (fun hfree => ?_)
  obtain ⟨i, hi, hi2, hnull⟩ := findFreeSlot_lt hfree
  have hname := ends_userString (S := S) k bufAddr (BitVec.ofNat 32 LIMIT)
  cases hread : userString (services S) k bufAddr (BitVec.ofNat 32 LIMIT) with
  | error e =>
    rw [hread] at hname
    exact hname
  | ok r =>
    obtain ⟨buf, k1⟩ := r
    obtain ⟨hopenf, hhost⟩ := hname.of_ok hread
    refine Ends.ite (fun _ => .inl ⟨⟨hopenf, hhost⟩, .inr (.inl rfl)⟩) (fun _ => ?_)
    refine Ends.ite (fun _ => .inl ⟨⟨hopenf, hhost⟩, .inr (.inr rfl)⟩) (fun _ => ?_)
    simp only at hopenf hhost
    have hslot : (services S).openSlot k1 ((services S).findFreeSlot k) buf type =
        .ok ((openHost k1.host (str buf 0 (LIMIT + 1)) type).isSome,
          k1.setFile i (openHost k1.host (str buf 0 (LIMIT + 1)) type)) := by
      show (slot (BitVec.ofNat 32 k.findFreeSlot) >>= _) = _
      rw [hi, slot_ofNat]
      rfl
    rw [hslot, hhost]
    cases hopen : openHost k.host (str buf 0 (LIMIT + 1)) type with
    | none =>
      refine .inl ⟨⟨?_, hhost⟩, .inl rfl⟩
      show Function.update k1.openf i none = k.openf
      rw [hopenf, ← hnull, Function.update_eq_self]
    | some f =>
      obtain ⟨inode, hinode, rfl⟩ := Option.map_eq_some_iff.1 hopen
      refine .inr ⟨i, ⟨inode, 0, 0, type⟩, buf, k1, hi2, hnull, ?_, hread, hinode, rfl, ?_, hhost⟩
      · show some (BitVec.ofNat 32 k.findFreeSlot) = _
        rw [hi]
      · show Function.update k1.openf i _ = _
        rw [hopenf]

/-- What `CloseFile` of a slot can do. -/
def Closed (k : Kernel) (m_index : Word) (r : Option Word × Kernel) : Prop :=
  r.2 = k ∨ ∃ i, slot m_index = .ok i ∧ r.2.openf = Function.update k.openf i none ∧ r.2.host = k.host

theorem ends_closeFile (k : Kernel) (hrange : ¬ badIndex m_index) :
    Ends .undefined (closeFile (services S) k m_index) (Closed k m_index) := by
  obtain ⟨i, hi⟩ := slot_of_range hrange
  rw [closeFile, isNull_eq hi]
  cases hf : k.openf i with
  | none => exact .inl rfl
  | some f =>
    have hclose : (services S).close k m_index = .ok (k.setFile i none) := by
      simp only [services, file_eq hi hf]
      rfl
    show Ends Stop.undefined ((services S).close k m_index >>= fun k => .ok (none, k)) _
    rw [hclose]
    exact .inr ⟨i, hi, rfl, rfl⟩

/-- `CloseFile` does not check its argument. -/
theorem closeFile_badIndex (k : Kernel) (h : badIndex m_index) :
    closeFile (services S) k m_index = .error .undefined := by
  have hslot : slot m_index = .error .undefined := by
    unfold badIndex at h
    exact dif_neg (by omega)
  simp only [closeFile, services, hslot]
  rfl

end Kernel

/-! ## Runs -/

/-- The descriptor a call is given. -/
def FileCall.descriptor : FileCall → Option Word
  | .openFileID _ _ => none
  | .closeFile m_index => some m_index
  | .seekFile _ m_index => some m_index
  | .readFile _ _ m_index => some m_index
  | .writeFile _ _ m_index => some m_index

/-- A call of `CloseFile` is given a slot that is not one of the console. -/
def FileCall.ClosesRegular : FileCall → Prop
  | .closeFile m_index => 2 ≤ m_index.toInt ∧ m_index.toInt ≤ 9
  | _ => True

namespace Kernel

variable {S : Services Kernel} {k k' : Kernel}

/-- Slots 0 and 1 are the console files. -/
structure Console (k : Kernel) : Prop where
  stdin : ∃ f, k.openf 0 = some f ∧ f.type = 2 ∧ k.host.inode stdinName = some f.file
  stdout : ∃ f, k.openf 1 = some f ∧ f.type = 3 ∧ k.host.inode stdoutName = some f.file

/-- What a call does when it comes back. -/
def Effect (S : Services Kernel) (k : Kernel) (r : Option Word × Kernel) : FileCall → Prop
  | .openFileID bufAddr type => Opened S k bufAddr type r
  | .closeFile m_index => Closed k m_index r
  | .seekFile _ m_index => Keeps k r.2 ∧ (¬ Open k m_index → r.2 = k)
  | .readFile _ _ m_index => Keeps k r.2 ∧ (¬ Open k m_index → r.2 = k)
  | .writeFile _ _ m_index => Keeps k r.2 ∧ (¬ Open k m_index → r.2 = k)

theorem ends_call (k : Kernel) {c : FileCall} (hc : c.ClosesRegular) :
    Ends .undefined (k.call S c) fun r => Effect S k r c := by
  cases c with
  | openFileID bufAddr type => exact ends_openFileID k bufAddr type
  | closeFile m_index =>
    apply ends_closeFile k
    unfold badIndex
    have := hc.1
    have := hc.2
    omega
  | seekFile pos m_index => exact ends_seekFile k pos m_index
  | readFile bufAddr numBuf m_index => exact ends_readFile k bufAddr numBuf m_index
  | writeFile bufAddr numBuf m_index => exact ends_writeFile k bufAddr numBuf m_index

/-- The effect of a call, whatever its arguments. -/
theorem effect_of_ok {c : FileCall} {r : Option Word × Kernel} (h : k.call S c = .ok r) : Effect S k r c := by
  cases c with
  | openFileID bufAddr type => exact (ends_openFileID k bufAddr type).of_ok h
  | closeFile m_index =>
    by_cases hbad : badIndex m_index
    · rw [call, closeFile_badIndex k hbad] at h
      cases h
    · exact (ends_closeFile k hbad).of_ok h
  | seekFile pos m_index => exact (ends_seekFile k pos m_index).of_ok h
  | readFile bufAddr numBuf m_index => exact (ends_readFile k bufAddr numBuf m_index).of_ok h
  | writeFile bufAddr numBuf m_index => exact (ends_writeFile k bufAddr numBuf m_index).of_ok h

/-- A slot other than the one that is closed denotes the same file after a call. -/
theorem effect_some {c : FileCall} {r : Option Word × Kernel} (h : Effect S k r c) {i : Fin 10} {f : OpenFile}
    (hf : k.openf i = some f) (hc : c ≠ .closeFile (BitVec.ofNat 32 i.val)) :
    (∃ f', r.2.openf i = some f' ∧ f'.file = f.file ∧ f'.type = f.type) ∧ r.2.host.inode = k.host.inode := by
  have hsame : ∀ openf', openf' i = k.openf i → r.2.openf = openf' →
      ∃ f', r.2.openf i = some f' ∧ f'.file = f.file ∧ f'.type = f.type := by
    intro openf' h1 h2
    exact ⟨f, by rw [h2, h1, hf], rfl, rfl⟩
  cases c with
  | openFileID bufAddr type =>
    rcases h with ⟨⟨hopenf, hhost⟩, -⟩ | ⟨j, g, -, -, -, hnull, -, -, -, -, hopenf, hhost⟩
    · exact ⟨hsame _ rfl hopenf, by rw [hhost]⟩
    · have hij : i ≠ j := by
        rintro rfl
        rw [hnull] at hf
        cases hf
      exact ⟨hsame _ (Function.update_of_ne hij _ _) hopenf, by rw [hhost]⟩
  | closeFile m_index =>
    rcases h with heq | ⟨j, hj, hopenf, hhost⟩
    · rw [heq]
      exact ⟨⟨f, hf, rfl, rfl⟩, rfl⟩
    · have hij : i ≠ j := by
        rintro rfl
        exact hc (by rw [eq_ofNat_of_slot hj])
      exact ⟨hsame _ (Function.update_of_ne hij _ _) hopenf, by rw [hhost]⟩
  | seekFile pos m_index => exact ⟨h.1.some i f hf, h.1.inode⟩
  | readFile bufAddr numBuf m_index => exact ⟨h.1.some i f hf, h.1.inode⟩
  | writeFile bufAddr numBuf m_index => exact ⟨h.1.some i f hf, h.1.inode⟩

theorem effect_console {c : FileCall} {r : Option Word × Kernel} (hc : c.ClosesRegular) (h : Effect S k r c)
    (hk : Console k) : Console r.2 := by
  have hslot : ∀ i : Fin 10, i.val < 2 → c ≠ .closeFile (BitVec.ofNat 32 i.val) := by
    rintro i hi rfl
    have := hc.1
    rw [CInt.toInt_ofNat (by omega)] at this
    omega
  obtain ⟨f0, hf0, ht0, hi0⟩ := hk.stdin
  obtain ⟨f1, hf1, ht1, hi1⟩ := hk.stdout
  obtain ⟨⟨g0, hg0, hfile0, htype0⟩, hinode⟩ := effect_some h hf0 (hslot 0 (by decide))
  obtain ⟨⟨g1, hg1, hfile1, htype1⟩, -⟩ := effect_some h hf1 (hslot 1 (by decide))
  exact ⟨⟨g0, hg0, htype0.trans ht0, by rw [hinode, hi0, hfile0]⟩,
    ⟨g1, hg1, htype1.trans ht1, by rw [hinode, hi1, hfile1]⟩⟩

theorem step_ok {e : FileEvent} (h : step S k e = some k') :
    ∃ r2, (k.enter e).call S e.call = .ok (r2, k') := by
  unfold step at h
  split at h
  · rename_i r hr
    cases h
    exact ⟨r.1, hr⟩
  · cases h

/-- A name that has been created can be opened. -/
theorem create_inode {h h' : Host} {name : List Byte} (hc : h.create name = some h') :
    (∃ i, h'.inode name = some i) ∧ ∀ n, (∃ i, h.inode n = some i) → ∃ i, h'.inode n = some i := by
  unfold Host.create at hc
  split at hc
  · rename_i i hi
    cases hc
    exact ⟨⟨i, hi⟩, fun n hn => hn⟩
  · split at hc
    · cases hc
    · cases hc
      refine ⟨⟨h.nextInode, Function.update_self _ _ _⟩, ?_⟩
      rintro n ⟨i, hi⟩
      rcases eq_or_ne n name with rfl | hne
      · exact ⟨h.nextInode, Function.update_self _ _ _⟩
      · exact ⟨i, by rw [← hi]; exact Function.update_of_ne hne _ _⟩

/-- The constructor opens the console files. -/
theorem boot_console {h : Host} (hb : boot h = some (k.openf, k.host)) : Console k := by
  obtain ⟨h1, hc1, hb⟩ := Option.bind_eq_some_iff.1 hb
  obtain ⟨h2, hc2, hb⟩ := Option.bind_eq_some_iff.1 hb
  simp only [Option.some.injEq, Prod.mk.injEq] at hb
  obtain ⟨hopenf, rfl⟩ := hb
  obtain ⟨i1, hi1⟩ := (create_inode hc2).1
  obtain ⟨i0, hi0⟩ := (create_inode hc2).2 _ (create_inode hc1).1
  refine ⟨⟨⟨i0, 0, 0, 2⟩, ?_, rfl, hi0⟩, ⟨⟨i1, 0, 0, 3⟩, ?_, rfl, hi1⟩⟩
  · rw [← hopenf, Function.update_of_ne (by decide), Function.update_self, openHost, hi0]
    rfl
  · rw [← hopenf, Function.update_self, openHost, hi1]
    rfl

theorem reachable_console (h : (system S).ReachableBy (fun _ e => e.call.ClosesRegular) k) : Console k := by
  refine System.ReachableBy.invariant ?_ ?_ h
  · rintro k ⟨host, hb⟩
    exact boot_console hb
  · rintro k e k' - hk hc he
    obtain ⟨r2, hr⟩ := step_ok he
    have hk' : Console (k.enter e) := ⟨hk.stdin, hk.stdout⟩
    exact effect_console hc (effect_of_ok hr) hk'

/-- A descriptor denotes the same file until it is closed. -/
theorem run_some {i : Fin 10} : ∀ (es : List FileEvent) (k k' : Kernel) (f : OpenFile),
    (system S).run k es = some k' → k.openf i = some f →
    (∀ e ∈ es, e.call ≠ .closeFile (BitVec.ofNat 32 i.val)) →
    ∃ f', k'.openf i = some f' ∧ f'.file = f.file ∧ f'.type = f.type := by
  intro es
  induction es with
  | nil =>
    intro k k' f hrun hf _
    cases hrun
    exact ⟨f, hf, rfl, rfl⟩
  | cons e es ih =>
    intro k k' f hrun hf hc
    obtain ⟨k1, he, hrun⟩ := Option.bind_eq_some_iff.1 hrun
    obtain ⟨r2, hr⟩ := step_ok he
    have hf' : (k.enter e).openf i = some f := hf
    obtain ⟨⟨f1, hf1, hfile1, htype1⟩, -⟩ := effect_some (effect_of_ok hr) hf' (hc e List.mem_cons_self)
    obtain ⟨f2, hf2, hfile2, htype2⟩ := ih k1 k' f1 hrun hf1 (fun e' he' => hc e' (List.mem_cons_of_mem _ he'))
    exact ⟨f2, hf2, hfile2.trans hfile1, htype2.trans htype1⟩

/-- A call with a descriptor that is not open changes no slot and no file. -/
theorem effect_not_open {c : FileCall} {r : Option Word × Kernel} (h : Effect S k r c) {m_index : Word}
    (hm : c.descriptor = some m_index) (ho : ¬ Open k m_index) : SameFiles k r.2 := by
  cases c with
  | openFileID bufAddr type => cases hm
  | closeFile m =>
    cases hm
    rcases h with heq | ⟨i, hi, hopenf, hhost⟩
    · rw [heq]
      exact ⟨rfl, rfl⟩
    · cases hf : k.openf i with
      | some f => exact absurd ⟨i, f, hi, hf⟩ ho
      | none => exact ⟨by rw [hopenf, ← hf, Function.update_eq_self], hhost⟩
  | seekFile pos m =>
    cases hm
    rw [h.2 ho]
    exact ⟨rfl, rfl⟩
  | readFile bufAddr numBuf m =>
    cases hm
    rw [h.2 ho]
    exact ⟨rfl, rfl⟩
  | writeFile bufAddr numBuf m =>
    cases hm
    rw [h.2 ho]
    exact ⟨rfl, rfl⟩

end Kernel

open Nachos.Stub.Kernel in
/-- **The table of open files**, after any calls of any processes in which every argument of
`CloseFile` is in 2..9: the console files are in slots 0 and 1; no further such call leaves the table;
a file is opened in a slot of 2..9 that was `NULL`, and no other slot changes; a descriptor denotes its
file until it is closed; and a call with a descriptor that is not open changes no slot and no file. -/
theorem file_table_safe {S : Services Kernel} {k : Kernel}
    (h : (system S).ReachableBy (fun _ e => e.call.ClosesRegular) k) :
    Console k ∧
    (∀ e, e.call.ClosesRegular → (k.enter e).call S e.call ≠ .error .undefined) ∧
    (∀ e bufAddr type r, e.call = .openFileID bufAddr type → (k.enter e).call S e.call = .ok r →
      Opened S (k.enter e) bufAddr type r) ∧
    (∀ es k' i f, (system S).run k es = some k' → k.openf i = some f →
      (∀ e ∈ es, e.call ≠ .closeFile (BitVec.ofNat 32 i.val)) →
      ∃ f', k'.openf i = some f' ∧ f'.file = f.file ∧ f'.type = f.type) ∧
    (∀ e m_index r, e.call.descriptor = some m_index → ¬ Open k m_index → (k.enter e).call S e.call = .ok r →
      r.2.openf = k.openf ∧ r.2.host = k.host) := by
  refine ⟨reachable_console h, ?_, ?_, ?_, ?_⟩
  · intro e hc
    exact (ends_call (k.enter e) hc).ne_bad
  · intro e bufAddr type r hcall hr
    have heff := effect_of_ok hr
    rw [hcall] at heff
    exact heff
  · intro es k' i f hrun hf hc
    exact run_some es k k' f hrun hf hc
  · intro e m_index r hm ho hr
    have ho' : ¬ Open (k.enter e) m_index := ho
    have hsame : SameFiles (k.enter e) r.2 := effect_not_open (effect_of_ok hr) hm ho'
    exact hsame

namespace Kernel

/-- A host without files. -/
def emptyHost : Host := ⟨fun _ => none, fun _ => [], 0, fun _ => false, fun _ => Nat.zero_le _⟩

/-- A new kernel over it. -/
def started : Kernel where
  user := ⟨[], fun _ => 0⟩
  openf := ((boot emptyHost).get rfl).1
  host := ((boot emptyHost).get rfl).2
  input := []
  output := []
  ch := 0

theorem boot_started : boot emptyHost = some (started.openf, started.host) :=
  (Option.some_get (x := boot emptyHost) rfl).symm

end Kernel

open Nachos.Stub.Kernel in
theorem file_table_safe_started : boot emptyHost = some (started.openf, started.host) ∧
    ∀ S, Console started ∧ ∀ user,
      (started.enter ⟨user, [], 0, .closeFile 2⟩).call S (.closeFile 2) ≠ .error .undefined := by
  refine ⟨boot_started, ?_⟩
  intro S
  obtain ⟨hconsole, hcalls, -⟩ := file_table_safe (S := S) (.init ⟨_, boot_started⟩)
  exact ⟨hconsole, fun user => hcalls ⟨user, [], 0, .closeFile 2⟩ ⟨by decide, by decide⟩⟩

open Nachos.Stub.Kernel in
/-- `CloseFile(10)` leaves the table, and `CloseFile(0)` closes the console. -/
theorem closeFile_unsafe_started : boot emptyHost = some (started.openf, started.host) ∧
    ∀ S, started.call S (.closeFile 10) = .error .undefined ∧
      ∃ k', started.call S (.closeFile 0) = .ok (none, k') ∧ k'.openf 0 = none := by
  refine ⟨boot_started, ?_⟩
  intro S
  exact ⟨closeFile_badIndex started (.inr (by decide)), _, rfl, rfl⟩

end Stub

end Nachos
