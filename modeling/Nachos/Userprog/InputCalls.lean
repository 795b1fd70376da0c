import Nachos.Userprog.FileCalls

/-!
# The buffers of the input calls

Which bytes of main memory `ReadFile` and `ReadString` change, for any page table: those that the
process sees in its buffer, or one more.

* `input_inside_buffer_iff` — when an input call stays inside of its buffer.
-/

set_option autoImplicit false

namespace Nachos

open CString Exception Partial

namespace Stub

namespace Kernel

/-! ## Inside of the buffer -/

/-- `ReadFile` and `ReadString`. -/
inductive InputCall where
  | readFile (bufAddr numBuf m_index : Word)
  | readString (bufAddr length : Word)

def InputCall.bufAddr : InputCall → Word
  | .readFile bufAddr _ _ => bufAddr
  | .readString bufAddr _ => bufAddr

def InputCall.count : InputCall → Word
  | .readFile _ numBuf _ => numBuf
  | .readString _ length => length

def InputCall.run (S : Services Kernel) (k : Kernel) : InputCall → Except Stop (Option Word × Kernel)
  | .readFile bufAddr numBuf m_index => Exception.readFile (services S) k bufAddr numBuf m_index
  | .readString bufAddr length => Exception.readString (services S) k bufAddr length

/-- The call leaves no kernel array, and when it comes back every byte of main memory that has changed
belongs to the buffer. -/
def Inside (S : Services Kernel) (k : Kernel) (c : InputCall) : Prop :=
  c.run S k ≠ .error .undefined ∧ ∀ r2 k', c.run S k = .ok (r2, k') →
    ∀ pa, k'.user.mainMemory pa ≠ k.user.mainMemory pa →
      ∃ j < c.count.toNat, UserSpace.physAddr k.user.pageTable (c.bufAddr + BitVec.ofNat 32 j) true = some pa

/-- `ReadFile` of a file with `n` more bytes, none of them zero, where the byte behind the buffer can be
written, is not zero and is not one of the buffer's; or `ReadString` of more bytes than the kernel's buffer
has. -/
def Overruns (k : Kernel) : InputCall → Prop
  | .readFile bufAddr numBuf m_index => ∃ i f pa, slot m_index = .ok i ∧ k.openf i = some f ∧ f.type ≠ 2 ∧
      1 ≤ numBuf.toNat ∧ numBuf.toNat + 1 < 2 ^ 31 ∧
      f.offset + numBuf.toNat ≤ (k.host.content f.file).length ∧ 0 ∉ next k f numBuf.toNat ∧
      (∀ j < numBuf.toNat, k.user.writable (bufAddr + BitVec.ofNat 32 j)) ∧
      UserSpace.physAddr k.user.pageTable (bufAddr + BitVec.ofNat 32 numBuf.toNat) true = some pa ∧
      k.user.mainMemory pa ≠ 0 ∧
      ∀ j < numBuf.toNat, UserSpace.physAddr k.user.pageTable (bufAddr + BitVec.ofNat 32 j) true ≠ some pa
  | .readString _ length => LIMIT < length.toNat

variable {S : Services Kernel} {k k' : Kernel} {m_index bufAddr numBuf : Word} {i : Fin 10} {f : OpenFile}

theorem toInt_eq_toNat {w : Word} (h : 0 ≤ w.toInt) : w.toInt = w.toNat := by
  obtain ⟨n, hn, rfl⟩ := CInt.exists_ofNat h
  rw [CInt.toInt_ofNat hn, CInt.toNat_ofNat hn]

/-- What has been written at `n` addresses is inside of `n` bytes. -/
theorem changed_inside {u u' : UserSpace} {buffer : Nat → Byte} {m n pa : Nat} (h : u.Wrote u' bufAddr buffer 0 m)
    (hm : m ≤ n) (hne : u'.mainMemory pa ≠ u.mainMemory pa) :
    ∃ j < n, UserSpace.physAddr u.pageTable (bufAddr + BitVec.ofNat 32 j) true = some pa := by
  obtain ⟨j, hj, hpa⟩ := h.changed pa hne
  rw [Nat.zero_add] at hpa
  exact ⟨j, by omega, hpa⟩

theorem inside_readString_iff {length : Word} (hn : 0 ≤ length.toInt) :
    Inside S k (.readString bufAddr length) ↔ ¬ LIMIT < length.toNat := by
  have hnat := toInt_eq_toNat hn
  by_cases hlim : LIMIT < length.toNat
  · have hundef : readString (services S) k bufAddr length = .error .undefined := by
      rw [readString, if_pos (by rw [hnat]; exact_mod_cast hlim)]
    exact iff_of_false (fun h => h.1 hundef) (not_not.2 hlim)
  · refine iff_of_true ⟨?_, ?_⟩ hlim
    · show readString (services S) k bufAddr length ≠ .error .undefined
      rw [readString, if_neg (by rw [hnat]; exact_mod_cast hlim)]
      refine Ends.ne_bad ((ends_consoleRead k length).bind (R := fun _ => True) (fun r _ => ?_))
      exact (ends_toUser _ _ _ _).bind (fun _ _ => trivial)
    · intro r2 k' h pa hne
      change readString (services S) k bufAddr length = .ok (r2, k') at h
      rw [readString, if_neg (by rw [hnat]; exact_mod_cast hlim)] at h
      obtain ⟨⟨stored, sz, k1⟩, hread, h⟩ := bind_eq_ok.1 h
      obtain ⟨k2, hcopy, h⟩ := bind_eq_ok.1 h
      cases h
      obtain ⟨hle, hk1⟩ := consoleRead_le hread
      obtain ⟨-, hwrote⟩ := toUser_of_ok hcopy
      have huser : k1.user = k.user := by rw [hk1]
      rw [huser] at hwrote
      refine changed_inside hwrote ?_ hne
      calc sent _ 0 sz.toInt.toNat ≤ sz.toInt.toNat := sent_le _ _ _
        _ ≤ length.toInt.toNat := hle
        _ = length.toNat := by rw [hnat, Int.toNat_natCast]

/-- The kernel's buffer has a zero behind `n` bytes that have been read. -/
theorem getD_behind (b : Nat → Byte) {data : List Byte} {n : Nat} (hlen : data.length = n) :
    data.getD n (padded (str b 0 n) n) = 0 := by
  rw [List.getD_eq_getElem?_getD, List.getElem?_eq_none (by omega), Option.getD_none, padded_apply,
    List.getElem?_eq_none (length_str_le b 0 n), Option.getD_none]

theorem getD_ne_zero_iff (b : Nat → Byte) {data : List Byte} {n : Nat} (hlen : data.length = n) :
    (∀ j < n, data.getD j (b j) ≠ 0) ↔ 0 ∉ data := by
  subst hlen
  constructor
  · intro h hmem
    obtain ⟨j, hj, hz⟩ := List.getElem_of_mem hmem
    apply h j hj
    rw [List.getD_eq_getElem?_getD, List.getElem?_eq_getElem hj, Option.getD_some, hz]
  · intro h j hj hz
    rw [List.getD_eq_getElem?_getD, List.getElem?_eq_getElem hj, Option.getD_some] at hz
    exact h (hz ▸ List.getElem_mem hj)

theorem length_next_eq {n : Nat} : (next k f n).length = n ↔ n ≤ (k.host.content f.file).length - f.offset := by
  rw [next, List.length_take, List.length_drop]
  omega

/-- A `ReadFile` that does not overrun. -/
theorem inside_readFile (hn : 0 ≤ numBuf.toInt) (hnot : ¬ Overruns k (.readFile bufAddr numBuf m_index)) :
    Inside S k (.readFile bufAddr numBuf m_index) := by
  refine ⟨(ends_readFile k bufAddr numBuf m_index).ne_bad, ?_⟩
  intro r2 k' h pa hne
  by_cases ho : Open k m_index
  · obtain ⟨i, f, hi, hf⟩ := ho
    obtain ⟨hlt, hafter⟩ := readFile_of_ok hi hf h
    show ∃ j < numBuf.toNat, UserSpace.physAddr k.user.pageTable (bufAddr + BitVec.ofNat 32 j) true = some pa
    by_cases htype : f.type = 2
    · obtain ⟨stored, sz, hread, -, hwrote⟩ := hafter.console htype
      refine changed_inside hwrote ?_ hne
      calc sent _ 0 sz.toInt.toNat ≤ sz.toInt.toNat := sent_le _ _ _
        _ ≤ numBuf.toInt.toNat := (consoleRead_le hread).1
        _ = numBuf.toNat := by rw [toInt_eq_toNat hn, Int.toNat_natCast]
    · rcases Nat.eq_zero_or_pos (next k f numBuf.toNat).length with hzero | hpos
      · rw [(hafter.none htype hzero).2] at hne
        exact absurd rfl hne
      · obtain ⟨-, hwrote⟩ := hafter.some htype hpos
        have hsent := sent_le (fun j => (next k f numBuf.toNat).getD j
          (padded (str (k.user.bytesAt bufAddr) 0 numBuf.toNat) j)) 0 ((next k f numBuf.toNat).length + 1)
        have hlen := length_next_le k f numBuf.toNat
        obtain ⟨j, hj, hpa⟩ := hwrote.changed pa hne
        rw [Nat.zero_add] at hpa
        by_contra hout
        push Not at hout
        -- only the byte behind the buffer is left
        have hjn : j = numBuf.toNat := by
          by_contra hjn
          exact hout j (by omega) hpa
        have hfull : (next k f numBuf.toNat).length = numBuf.toNat := by omega
        rw [hfull] at hj hsent hwrote
        have hall : sent (fun j => (next k f numBuf.toNat).getD j
            (padded (str (k.user.bytesAt bufAddr) 0 numBuf.toNat) j)) 0 (numBuf.toNat + 1) = numBuf.toNat + 1 := by
          omega
        have hlast := hwrote.last numBuf.toNat pa hall (by rw [Nat.zero_add, ← hjn]; exact hpa)
        rw [Nat.zero_add, getD_behind _ hfull] at hlast
        have hnz := (sent_succ_eq_iff _ _ _).1 hall
        simp only [Nat.zero_add] at hnz
        have hleft := length_next_eq.1 hfull
        refine hnot ⟨i, f, pa, hi, hf, htype, by omega, hlt, by omega,
          (getD_ne_zero_iff _ hfull).1 hnz, ?_, ?_, ?_, hout⟩
        · intro l hl
          have := hwrote.writable l (by omega)
          rwa [Nat.zero_add] at this
        · rw [← hjn]
          exact hpa
        · rw [hlast] at hne
          exact hne.symm
  · have hsame : k' = k := ((ends_readFile k bufAddr numBuf m_index).of_ok h).2 ho
    rw [hsame] at hne
    exact absurd rfl hne

/-- `ReadFile` comes back if the buffer, and the byte behind it, can be written. -/
theorem readFile_isOk (hi : slot m_index = .ok i) (hf : k.openf i = some f) (htype : f.type ≠ 2)
    (hlt : numBuf.toNat + 1 < 2 ^ 31) (hpos : 0 < (next k f numBuf.toNat).length)
    (hw : ∀ j < numBuf.toNat + 1, k.user.writable (bufAddr + BitVec.ofNat 32 j)) :
    ∃ r2 k', readFile (services S) k bufAddr numBuf m_index = .ok (r2, k') := by
  obtain ⟨n, hn, rfl⟩ : ∃ n, n + 1 < 2 ^ 31 ∧ numBuf = BitVec.ofNat 32 n :=
    ⟨numBuf.toNat, hlt, by rw [BitVec.ofNat_toNat, BitVec.setWidth_eq]⟩
  rw [CInt.toNat_ofNat (by omega)] at hw hpos
  have hview : ∀ j < n, ((k.atPos i f).user.view (bufAddr + BitVec.ofNat 32 j)).isSome := by
    intro j hj
    obtain ⟨pa, hpa⟩ := Option.isSome_iff_exists.1 (hw j (by omega))
    show (k.user.view _).isSome
    rw [UserSpace.view, UserSpace.physAddr_of_writable hpa]
    rfl
  obtain ⟨⟨buf, k2⟩, hstr⟩ := userString_isOk (S := S) hn hview
  obtain ⟨-, -, hk2, hquiet⟩ := userString_of_ok hstr
  have hnext : next k2 f n = next k f n := by
    rw [hk2]
    rfl
  have hlen := length_next_le k f n
  have hw2 : ∀ j < sent (fun j => (next k f n).getD j (buf j)) 0 ((next k f n).length + 1),
      (k2.setFile i (some (advance f (next k f n).length))).user.writable (bufAddr + BitVec.ofNat 32 j) := by
    intro j hj
    have hsent := sent_le (fun j => (next k f n).getD j (buf j)) 0 ((next k f n).length + 1)
    show k2.user.writable _
    rw [hquiet.writable_eq]
    exact hw j (by omega)
  obtain ⟨k3, hcopy⟩ := toUser_isOk (S := S) (by omega) hw2
  refine ⟨some (BitVec.ofNat 32 ((next k f n).length + 1)), k3, ?_⟩
  rw [readFile_open hi hf, newChars_ofNat (by omega), ok_bind, hstr, ok_bind, readOpen, if_neg htype]
  simp only [CInt.toNat_ofNat (show n < 2 ^ 31 by omega), hnext, if_pos hpos, hcopy, ok_bind]

/-- One that does changes the byte behind the buffer. -/
theorem not_inside_readFile (hover : Overruns k (.readFile bufAddr numBuf m_index)) :
    ¬ Inside S k (.readFile bufAddr numBuf m_index) := by
  obtain ⟨i, f, pa, hi, hf, htype, hn1, hlt, hleft, hnz, hw, hpa, hmem, hout⟩ := hover
  have hfull : (next k f numBuf.toNat).length = numBuf.toNat := length_next_eq.2 (by omega)
  have hw' : ∀ j < numBuf.toNat + 1, k.user.writable (bufAddr + BitVec.ofNat 32 j) := by
    intro j hj
    rcases Nat.lt_or_eq_of_le (Nat.le_of_lt_succ hj) with hlt | rfl
    · exact hw j hlt
    · exact Option.isSome_iff_exists.2 ⟨pa, hpa⟩
  have hall : sent (fun j => (next k f numBuf.toNat).getD j
      (padded (str (k.user.bytesAt bufAddr) 0 numBuf.toNat) j)) 0 (numBuf.toNat + 1) = numBuf.toNat + 1 := by
    rw [sent_succ_eq_iff]
    simp only [Nat.zero_add]
    exact (getD_ne_zero_iff _ hfull).2 hnz
  obtain ⟨r2, k', h⟩ := readFile_isOk (S := S) hi hf htype hlt (by omega) hw'
  rintro ⟨-, hin⟩
  obtain ⟨-, hafter⟩ := readFile_of_ok hi hf h
  obtain ⟨-, hwrote⟩ := hafter.some htype (by omega)
  rw [hfull] at hwrote
  have hlast := hwrote.last numBuf.toNat pa hall (by rw [Nat.zero_add]; exact hpa)
  rw [Nat.zero_add, getD_behind _ hfull] at hlast
  obtain ⟨j, hj, hja⟩ := hin r2 k' h pa (by rw [hlast]; exact hmem.symm)
  exact hout j hj hja

end Kernel

open Nachos.Stub.Kernel in
/-- **An input call stays inside of its buffer**, for every file, every input and any page table, exactly if
it does not overrun it. -/
theorem input_inside_buffer_iff {S : Services Kernel} {k : Kernel} {c : InputCall} (hn : 0 ≤ c.count.toInt) :
    Inside S k c ↔ ¬ Overruns k c := by
  cases c with
  | readFile bufAddr numBuf m_index => exact ⟨fun h hover => not_inside_readFile hover h, inside_readFile hn⟩
  | readString bufAddr length => exact inside_readString_iff hn

namespace Kernel

/-- A kernel where `"f"` holds `"a"`, and a process with `"bc"` at address 8. -/
def oneByte : Kernel :=
  { withFile [0, 0, 0, 0, 0, 0, 0, 0, 98, 99] 1 with
    host := (withFile [] 1).host.setContent 2 [97] (by decide) }

end Kernel

open Nachos.Stub.Kernel in
/-- `ReadFile` of four bytes stores the only one of the file. -/
theorem input_inside_buffer_short : (0 : Int) ≤ (BitVec.ofNat 32 4).toInt ∧
    ∀ S, Inside S oneByte (.readFile 8 4 2) ∧ ∃ k', readFile (services S) oneByte 8 4 2 = .ok (some 2, k') ∧
      k'.user.view 8 = some 97 ∧ k'.user.view 9 = some 99 := by
  refine ⟨by decide, ?_⟩
  intro S
  refine ⟨(input_inside_buffer_iff (by decide)).2 ?_, _, rfl, rfl, rfl⟩
  rintro ⟨i, f, pa, hi, hf, -, -, -, hleft, -⟩
  cases hi
  cases hf
  exact absurd hleft (by decide)

open Nachos.Stub.Kernel in
/-- `ReadFile` of one byte changes the byte behind it. -/
theorem readFile_overruns_one : oneByte.user.view 9 = some 99 ∧
    ∀ S, ∃ k', readFile (services S) oneByte 8 1 2 = .ok (some 2, k') ∧ k'.user.view 8 = some 97 ∧
      k'.user.view 9 = some 0 := by
  refine ⟨rfl, ?_⟩
  intro S
  exact ⟨_, rfl, rfl, rfl⟩

end Stub

end Nachos
