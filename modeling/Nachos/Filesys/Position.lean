import Nachos.Lib.Answers
import Nachos.Userprog.FileCalls

/-!
# The implicit position of an open file

The methods of the FILESYS_STUB `OpenFile`, in any order, against the contract of
`filesys/openfile.h`: one position, where `Read` and `Write` start, and which `ReadAt` and `WriteAt`
bypass.  The class holds the position twice, in `currentOffset` and in the host's descriptor.

* `stub_position_iff` — the two answer alike exactly if no `GetCurrentPos` is called while the
  descriptor is elsewhere.
-/

set_option autoImplicit false

namespace Nachos

open Answers CString Exception Partial

namespace Stub

/-- The calls on an open file. -/
inductive Method where
  | readAt (numBytes position : Nat)
  | writeAt (data : List Byte) (position : Nat)
  | read (numBytes : Nat)
  | write (data : List Byte)
  | length
  | getCurrentPos
  | seek (pos : Nat)

/-- What a call returns: the bytes it has read, or a number. -/
inductive Result where
  | bytes (data : List Byte)
  | number (n : Nat)

namespace OpenFile

/-- One call on an open file.  Its answer is the result and the files of the host after it. -/
def call (x : Host × OpenFile) : Method → Except Stop ((Result × Host) × Host × OpenFile)
  | .readAt numBytes position =>
    let (data, f) := x.2.readAt x.1 numBytes position
    .ok ((.bytes data, x.1), x.1, f)
  | .writeAt data position => do
    let (h, f) ← x.2.writeAt x.1 data position
    .ok ((.number data.length, h), h, f)
  | .read numBytes =>
    let (data, f) := x.2.read x.1 numBytes
    .ok ((.bytes data, x.1), x.1, f)
  | .write data => do
    let (h, f) ← x.2.write x.1 data
    .ok ((.number data.length, h), h, f)
  | .length =>
    let (len, f) := x.2.length x.1
    .ok ((.number len, x.1), x.1, f)
  | .getCurrentPos =>
    let (pos, f) := x.2.getCurrentPos
    .ok ((.number pos, x.1), x.1, f)
  | .seek pos =>
    let f := x.2.seek pos
    .ok ((.number f.currentOffset, x.1), x.1, f)

end OpenFile

/-! ## The contract -/

/-- The bytes of a file from `position` on. -/
def Host.bytesFrom (h : Host) (file numBytes position : Nat) : List Byte :=
  ((h.content file).drop position).take numBytes

/-- A file with `data` at `position`; a host file does not grow beyond `OFFSET_MAX`. -/
def Host.store (h : Host) (file : Nat) (data : List Byte) (position : Nat) : Except Stop Host :=
  if hle : position + data.length ≤ OFFSET_MAX then
    .ok (h.setContent file (overwrite (h.content file) position data)
      (Nat.le_trans (length_overwrite_le _ _ _) (Nat.max_le.2 ⟨h.bounded _, hle⟩)))
  else .error .abort

/-- One call on the host's file `file`, whose implicit position is `x.2`. -/
def contract (file : Nat) (x : Host × Nat) : Method → Except Stop ((Result × Host) × Host × Nat)
  | .readAt numBytes position => .ok ((.bytes (x.1.bytesFrom file numBytes position), x.1), x)
  | .writeAt data position => do
    let h ← x.1.store file data position
    .ok ((.number data.length, h), h, x.2)
  | .read numBytes =>
    let data := x.1.bytesFrom file numBytes x.2
    .ok ((.bytes data, x.1), x.1, x.2 + data.length)
  | .write data => do
    let h ← x.1.store file data x.2
    .ok ((.number data.length, h), h, x.2 + data.length)
  | .length => .ok ((.number (x.1.content file).length, x.1), x)
  | .getCurrentPos => .ok ((.number x.2, x.1), x)
  | .seek pos => .ok ((.number pos, x.1), x.1, pos)

namespace OpenFile

/-- A `GetCurrentPos` is called where the descriptor is at `currentOffset`. -/
def InStep (x : Host × OpenFile) : Method → Prop
  | .getCurrentPos => x.2.offset = x.2.currentOffset
  | _ => True

/-- The same files, and `currentOffset` is the position. -/
def AtPosition (file : Nat) (x : Host × OpenFile) (y : Host × Nat) : Prop :=
  x.1 = y.1 ∧ x.2.file = file ∧ x.2.currentOffset = y.2

variable {file : Nat} {x : Host × OpenFile} {y : Host × Nat}

theorem writeAt_eq (f : OpenFile) (h : Host) (data : List Byte) (position : Nat) :
    f.writeAt h data position =
      (fun h' => (h', { f with offset := position + data.length })) <$> h.store f.file data position := by
  unfold writeAt Host.store
  split
  · rfl
  · rfl

theorem write_eq (f : OpenFile) (h : Host) (data : List Byte) :
    f.write h data =
      (fun h' => (h', { f with
        offset := f.currentOffset + data.length, currentOffset := f.currentOffset + data.length })) <$>
        h.store f.file data f.currentOffset := by
  rw [write, writeAt_eq, bind_map_left]
  exact bind_pure_comp _ _

/-- A call of `WriteAt` or `Write`, with what it does to `currentOffset`. -/
theorem alike_store {e : Method} (data : List Byte) (position : Nat) (f : OpenFile) {pos : Nat}
    (hcall : call x e = (fun h => ((.number data.length, h), h, f)) <$> x.1.store file data position)
    (hcontract : contract file y e = (fun h => ((.number data.length, h), h, pos)) <$> y.1.store file data position)
    (hxy : x.1 = y.1) (hfile : f.file = file) (hpos : f.currentOffset = pos) :
    Alike call (contract file) (AtPosition file) x y e := by
  rw [hxy] at hcall
  cases hstore : y.1.store file data position with
  | error b =>
    left
    rw [hstore] at hcall hcontract
    exact ⟨b, hcall, hcontract⟩
  | ok h =>
    right
    rw [hstore] at hcall hcontract
    exact ⟨_, _, _, hcall, hcontract, rfl, hfile, hpos⟩

/-- **One call** in step is answered as the contract has it. -/
theorem call_alike (hR : AtPosition file x y) {e : Method} (hin : InStep x e) :
    Alike call (contract file) (AtPosition file) x y e := by
  obtain ⟨h, f⟩ := x
  obtain ⟨h', pos⟩ := y
  obtain ⟨hhost, hfile, hpos⟩ := hR
  simp only at hhost hfile hpos
  subst hhost hfile hpos
  cases e with
  | readAt numBytes position => exact .inr ⟨_, _, _, rfl, rfl, rfl, rfl, rfl⟩
  | read numBytes => exact .inr ⟨_, _, _, rfl, rfl, rfl, rfl, rfl⟩
  | length => exact .inr ⟨_, _, _, rfl, rfl, rfl, rfl, rfl⟩
  | seek pos => exact .inr ⟨_, _, _, rfl, rfl, rfl, rfl, rfl⟩
  | getCurrentPos =>
    right
    have hsame : f.offset = f.currentOffset := hin
    refine ⟨(.number f.offset, h), (h, { f with currentOffset := f.offset }), (h, f.currentOffset), rfl, ?_, rfl, rfl,
      hsame⟩
    rw [contract, hsame]
  | writeAt data position =>
    refine alike_store data position { f with offset := position + data.length } ?_ ?_ rfl rfl rfl
    · rw [call, writeAt_eq, bind_map_left]
      exact bind_pure_comp _ _
    · rw [contract]
      exact bind_pure_comp _ _
  | write data =>
    refine alike_store data f.currentOffset
      { f with offset := f.currentOffset + data.length, currentOffset := f.currentOffset + data.length } ?_ ?_
      rfl rfl rfl
    · rw [call, write_eq, bind_map_left]
      exact bind_pure_comp _ _
    · rw [contract]
      exact bind_pure_comp _ _

/-- Out of step, `GetCurrentPos` returns the place of the descriptor. -/
theorem call_apart (hR : AtPosition file x y) {e : Method} (hin : ¬ InStep x e) :
    Apart call (contract file) x y e := by
  cases e with
  | getCurrentPos =>
    refine ⟨_, _, _, _, rfl, rfl, ?_⟩
    intro heq
    have hnum := Result.number.inj (Prod.mk.inj heq).1
    exact hin (hnum.trans hR.2.2.symm)
  | _ => exact absurd trivial hin

end OpenFile

namespace Kernel

variable {S : Services Kernel} {k k' : Kernel} {m_index pos : Word} {i : Fin 10} {f : OpenFile}

/-! ## SeekFile -/

theorem length_eq (hi : slot m_index = .ok i) (hf : k.openf i = some f) :
    (services S).length k m_index = .ok (BitVec.ofNat 32 (k.host.content f.file).length,
      k.setFile i (some { f with offset := f.currentOffset })) := by
  simp only [services, file_eq hi hf]
  rfl

/-- `Length` leaves nothing for another one to do. -/
theorem length_again (hi : slot m_index = .ok i) (f' : OpenFile) (hsame : f'.offset = f'.currentOffset) :
    (services S).length (k.setFile i (some f')) m_index =
      .ok (BitVec.ofNat 32 (k.host.content f'.file).length, k.setFile i (some f')) := by
  have hf' : (k.setFile i (some f')).openf i = some f' := Function.update_self _ _ _
  have hback : ({ f' with offset := f'.currentOffset } : OpenFile) = f' :=
    congrArg (fun o => ({ f' with offset := o } : OpenFile)) hsame.symm
  rw [length_eq hi hf', hback, setFile, setFile, Function.update_idem]

/-- The position that `SeekFile(pos)` asks for. -/
def wanted (k : Kernel) (f : OpenFile) (pos : Word) : Word :=
  if pos = -1 then BitVec.ofNat 32 (k.host.content f.file).length else pos

/-- **`SeekFile` of an open file.** -/
theorem seekFile_open (hi : slot m_index = .ok i) (hf : k.openf i = some f) :
    seekFile (services S) k pos m_index =
      if (BitVec.ofNat 32 (k.host.content f.file).length).toInt < (wanted k f pos).toInt ∨
          (wanted k f pos).toInt < 0 then
        .ok (some (-1), k.setFile i (some { f with offset := f.currentOffset }))
      else .ok (some (wanted k f pos), k.setFile i (some (f.seek (wanted k f pos).toNat))) := by
  have hnull : (services S).isNull k m_index = .ok false := by rw [isNull_eq hi, hf]; rfl
  have hlen : ∃ k1, seekPos (services S) k pos m_index = .ok (wanted k f pos, k1) ∧
      (services S).length k1 m_index = .ok (BitVec.ofNat 32 (k.host.content f.file).length,
        k.setFile i (some { f with offset := f.currentOffset })) := by
    unfold seekPos wanted
    split
    · exact ⟨_, length_eq hi hf, length_again hi { f with offset := f.currentOffset } rfl⟩
    · exact ⟨k, rfl, length_eq hi hf⟩
  obtain ⟨k1, hpos, hlen⟩ := hlen
  simp only [seekFile, if_neg (not_badIndex hi), hnull, ok_bind, Bool.false_eq_true, if_false, hpos, hlen]
  split
  · rfl
  · rename_i hrange
    have hf1 : (k.setFile i (some { f with offset := f.currentOffset })).openf i =
        some { f with offset := f.currentOffset } := Function.update_self _ _ _
    have hseek : (services S).seek (k.setFile i (some { f with offset := f.currentOffset })) m_index (wanted k f pos) =
        .ok (k.setFile i (some (f.seek (wanted k f pos).toNat))) := by
      simp only [services, file_eq hi hf1, ok_bind]
      rw [if_neg (by omega), setFile, setFile, Function.update_idem]
      rfl
    rw [hseek, ok_bind]

/-- A call of `SeekFile` that fails: the position of every open file is as before. -/
theorem seekFile_fails (h : seekFile (services S) k pos m_index = .ok (some (-1), k')) :
    k'.host = k.host ∧ ∀ j g, k.openf j = some g → ∃ g', k'.openf j = some g' ∧ g'.file = g.file ∧
      g'.currentOffset = g.currentOffset := by
  by_cases ho : Open k m_index
  · obtain ⟨i, f, hi, hf⟩ := ho
    rw [seekFile_open hi hf] at h
    split at h
    · cases h
      refine ⟨rfl, ?_⟩
      intro j g hg
      rcases eq_or_ne j i with rfl | hne
      · rw [hf] at hg
        cases hg
        exact ⟨_, Function.update_self _ _ _, rfl, rfl⟩
      · exact ⟨g, by simpa [setFile, hne] using hg, rfl, rfl⟩
    · rename_i hrange
      -- the position that is returned is not negative
      have hneg : wanted k f pos = -1 := Option.some.inj (Prod.mk.inj (Except.ok.inj h)).1
      rw [hneg] at hrange
      exact absurd (.inr (by decide)) hrange
  · have hsame : k' = k := ((ends_seekFile k pos m_index).of_ok h).2 ho
    rw [hsame]
    exact ⟨rfl, fun j g hg => ⟨g, hg, rfl, rfl⟩⟩

/-- One that returns `p`: both copies of the position are `p`. -/
theorem seekFile_succeeds {p : Word} (hp : p ≠ -1)
    (h : seekFile (services S) k pos m_index = .ok (some p, k')) :
    ∃ i f, slot m_index = .ok i ∧ k.openf i = some f ∧ k' = k.setFile i (some (f.seek p.toNat)) := by
  unfold seekFile at h
  split at h
  · cases h
    exact absurd rfl hp
  · rename_i hrange
    obtain ⟨i, hi⟩ := slot_of_range hrange
    cases hf : k.openf i with
    | none =>
      rw [isNull_eq hi, hf] at h
      cases h
      exact absurd rfl hp
    | some f =>
      have hopen : seekFile (services S) k pos m_index = _ := seekFile_open hi hf
      rw [seekFile, if_neg hrange, h] at hopen
      split at hopen
      · cases hopen
        exact absurd rfl hp
      · cases hopen
        exact ⟨i, f, hi, hf, rfl⟩

end Kernel

open Nachos.Stub.Kernel in
/-- **The implicit position**, for every sequence of calls on a file that has been opened: the answers are
those of the contract exactly if every `GetCurrentPos` finds the descriptor at `currentOffset`.  A
`SeekFile` that returns -1 leaves every position, and after one that returns `p` the next `ReadFile`
starts at `p`. -/
theorem stub_position_iff {S : Services Kernel} (h : Host) (file : Nat) (type : Word) (calls : List Method) :
    (answers OpenFile.call (h, ⟨file, 0, 0, type⟩) calls = answers (contract file) (h, 0) calls ↔
      Along OpenFile.call OpenFile.InStep (h, ⟨file, 0, 0, type⟩) calls) ∧
    (∀ k pos m_index k', seekFile (services S) k pos m_index = .ok (some (-1), k') → k'.host = k.host ∧
      ∀ j g, k.openf j = some g → ∃ g', k'.openf j = some g' ∧ g'.file = g.file ∧
        g'.currentOffset = g.currentOffset) ∧
    (∀ k pos m_index p k', p ≠ -1 → seekFile (services S) k pos m_index = .ok (some p, k') →
      ∃ i f, slot m_index = .ok i ∧ k.openf i = some f ∧
        ∀ k1 bufAddr numBuf r2 k2, k1.openf = k'.openf →
          readFile (services S) k1 bufAddr numBuf m_index = .ok (r2, k2) →
          AfterRead k1 k2 i (f.seek p.toNat) bufAddr numBuf r2) := by
  refine ⟨?_, fun k pos m_index k' hseek => seekFile_fails hseek, ?_⟩
  · exact answers_eq_iff (fun _ _ _ hR hin => OpenFile.call_alike hR hin)
      (fun _ _ _ hR hin => OpenFile.call_apart hR hin) ⟨rfl, rfl, rfl⟩ calls
  · intro k pos m_index p k' hp hseek
    obtain ⟨i, f, hi, hf, hk'⟩ := seekFile_succeeds hp hseek
    refine ⟨i, f, hi, hf, ?_⟩
    intro k1 bufAddr numBuf r2 k2 hopen hread
    have hf1 : k1.openf i = some (f.seek p.toNat) := by
      rw [hopen, hk']
      exact Function.update_self _ _ _
    exact (readFile_of_ok hi hf1 hread).2

/-- After `ReadAt` of one byte, `GetCurrentPos` returns 1 for a file at its start. -/
theorem readAt_moves_position : ¬ ∀ (h : Host) (file : Nat) (type : Word) (calls : List Method),
    answers OpenFile.call (h, ⟨file, 0, 0, type⟩) calls = answers (contract file) (h, 0) calls := by
  intro hall
  have hrun := hall ⟨fun _ => none, fun _ => [97], 0, fun _ => false, fun _ => by decide⟩ 0 0
    [.readAt 1 0, .getCurrentPos]
  have hpos := (List.cons.inj (List.cons.inj hrun).2).1
  exact absurd (Result.number.inj (Prod.mk.inj (Except.ok.inj hpos)).1) (by decide)

end Stub

end Nachos
