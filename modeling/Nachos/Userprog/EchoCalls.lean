import Nachos.Userprog.ConsoleLines
import Nachos.Userprog.InputCalls

/-!
# Echoing a line

`ReadString` and then `PrintString` of the same buffer.  `ReadString` copies the bytes of the line and
nothing behind them; `PrintString` goes on to the next zero.

* `readString_line` — the buffer after `ReadString`.
* `printString_output` — what `PrintString` prints.
* `echo_iff` — when the line is echoed.
-/

set_option autoImplicit false

namespace Nachos

open CString Exception Partial

namespace Stub

/-- `ReadString(buf, length)`, then `PrintString(buf)`: exactly `line` is printed. -/
def Echoes (S : Services Kernel) (k : Kernel) (buf length : Word) (line : List Byte) : Prop :=
  ∃ k1 k2, readString (Kernel.services S) k buf length = .ok (none, k1) ∧
    printString (Kernel.services S) k1 buf = .ok (none, k2) ∧ k2.output = k.output ++ line

namespace Kernel

variable {S : Services Kernel} {k : Kernel} {buf length : Word} {line rest : List Byte}

theorem sent_all {b : Nat → Byte} {n : Nat} (h : ∀ j < n, b j ≠ 0) : sent b 0 n = n := by
  cases n with
  | zero => rfl
  | succ n =>
    rw [sent_succ_eq_iff]
    intro j hj
    rw [Nat.zero_add]
    exact h j (Nat.lt_succ_of_lt hj)

theorem sub_base (addr : Word) {j : Nat} (hj : j < 2 ^ 32) : (addr + BitVec.ofNat 32 j - addr).toNat = j := by
  rw [BitVec.add_comm, BitVec.add_sub_cancel, BitVec.toNat_ofNat, Nat.mod_eq_of_lt hj]

/-- **`ReadString`** of a line that is shorter than the buffer: its bytes are copied, and no zero behind
them. -/
theorem readString_line (hd : k.user.Distinct) (hlim : length.toInt ≤ LIMIT) (hl : IsLine line) (hz : 0 ∉ line)
    (hlen : line.length < length.toInt) (hin : k.input = line ++ 10 :: rest)
    (hw : ∀ j < line.length, k.user.writable (buf + BitVec.ofNat 32 j)) :
    ∃ u, readString (services S) k buf length = .ok (none, { k with input := rest, user := u }) ∧ u.Distinct ∧
      ∀ j < 2 ^ 32, u.view (buf + BitVec.ofNat 32 j) =
        if j < line.length then some (padded line j) else k.user.view (buf + BitVec.ofNat 32 j) := by
  have hnat := toInt_eq_toNat (show 0 ≤ length.toInt by omega)
  have hsmall : LIMIT < 2 ^ 31 := by decide
  have hread : (services S).consoleRead k length = .ok (line, BitVec.ofNat 32 line.length, { k with input := rest }) :=
    consoleRead_short (by omega) hl (by omega) hin
  -- the kernel's buffer holds the line
  have hbuf : ∀ j < line.length, (filled line LIMIT).getD j 0 = padded line j := by
    intro j hj
    have hget : (line ++ List.replicate LIMIT 0)[j]? = (line)[j]? := List.getElem?_append_left hj
    rw [padded_apply, List.getD_eq_getElem?_getD, filled, List.getElem?_take_of_lt (by omega), hget]
  have hsent : sent (fun j => (filled line LIMIT).getD j 0) 0 line.length = line.length := by
    apply sent_all
    intro j hj hzero
    rw [hbuf j hj, padded_apply, List.getElem?_eq_getElem hj, Option.getD_some] at hzero
    exact hz (hzero ▸ List.getElem_mem hj)
  have hwrite : ∀ j < sent (fun j => (filled line LIMIT).getD j 0) 0 line.length,
      ({ k with input := rest } : Kernel).user.writable (buf + BitVec.ofNat 32 j) := by
    rw [hsent]
    exact hw
  obtain ⟨u, hcopy, hdu, -, hview⟩ := toUser_eq (S := S) (k := { k with input := rest }) (by omega) hd hwrite
  refine ⟨u, ?_, hdu, ?_⟩
  · rw [readString, if_neg (by omega), hread]
    simp only [ok_bind, hcopy]
  · intro j hj
    rw [hview, sub_base buf hj, hsent]
    split
    · rename_i hlt
      rw [hbuf j hlt]
    · rfl

/-- **`PrintString`** prints the string at `buf`. -/
theorem printString_output {k' : Kernel} {r2 : Option Word} (h : printString (services S) k buf = .ok (r2, k')) :
    k'.output = k.output ++ str (k.user.bytesAt buf) 0 LIMIT := by
  obtain ⟨⟨b, k1⟩, hstr, h⟩ := bind_eq_ok.1 h
  obtain ⟨-, rfl, hk1, -⟩ := userString_of_ok hstr
  simp only [writeChars_eq, ok_bind] at h
  cases h
  show k1.output ++ str (padded (str (k.user.bytesAt buf) 0 LIMIT)) 0 (LIMIT + 1) = _
  rw [str_padded_str, hk1]

/-- It comes back if the bytes up to a zero can be read. -/
theorem printString_isOk {m : Nat → Byte} (hd : k.user.Distinct)
    (hm : ∀ j < LIMIT, (∀ l < j, m l ≠ 0) → k.user.view (buf + BitVec.ofNat 32 j) = some (m j)) :
    ∃ k', printString (services S) k buf = .ok (none, k') ∧ k'.output = k.output ++ str m 0 LIMIT := by
  obtain ⟨u, hstr, -⟩ := userString_eq (S := S) (by decide) hd hm
  refine ⟨{ k with user := u, output := k.output ++ str m 0 LIMIT }, ?_, rfl⟩
  rw [printString, hstr]
  simp only [ok_bind, writeChars_eq, str_padded_str]

end Kernel

open Nachos.Stub.Kernel in
/-- **A line is echoed**, for any buffer of `length` bytes that can be written and any line that is shorter
than it, exactly if the byte behind the line was zero before. -/
theorem echo_iff {S : Services Kernel} {k : Kernel} {buf length : Word} {line rest : List Byte}
    (hd : k.user.Distinct) (hlim : length.toInt < LIMIT)
    (hw : ∀ j < length.toNat, k.user.writable (buf + BitVec.ofNat 32 j)) (hl : IsLine line) (hz : 0 ∉ line)
    (hlen : line.length < length.toInt) (hin : k.input = line ++ 10 :: rest) :
    Echoes S k buf length line ↔ k.user.view (buf + BitVec.ofNat 32 line.length) = some 0 := by
  have hnat := toInt_eq_toNat (show 0 ≤ length.toInt by omega)
  have hsmall : LIMIT < 2 ^ 31 := by decide
  obtain ⟨u, hread, hdu, hview⟩ := readString_line (S := S) hd (Int.le_of_lt hlim) hl hz hlen hin
    (fun j hj => hw j (by omega))
  have hend := hview line.length (by omega)
  rw [if_neg (Nat.lt_irrefl _)] at hend
  constructor
  · rintro ⟨k1, k2, hread', hprint, hout⟩
    cases hread.symm.trans hread'
    rw [printString_output hprint] at hout
    have hstr : str (u.bytesAt buf) 0 LIMIT = line := List.append_cancel_left hout
    -- the string ends behind the line
    have hzero := (str_apply (u.bytesAt buf) 0 LIMIT).2 (by rw [hstr]; omega)
    rw [hstr, Nat.zero_add, UserSpace.bytesAt, hend] at hzero
    obtain ⟨pa, hpa⟩ := Option.isSome_iff_exists.1 (hw line.length (by omega))
    rw [UserSpace.view, UserSpace.physAddr_of_writable hpa] at hzero ⊢
    exact congrArg some hzero
  · intro hzero
    have hm : ∀ j < LIMIT, (∀ l < j, padded line l ≠ 0) →
        u.view (buf + BitVec.ofNat 32 j) = some (padded line j) := by
      intro j hj hnz
      have hlast : padded line line.length = 0 := by
        rw [padded_apply, List.getElem?_eq_none (Nat.le_refl _), Option.getD_none]
      rw [hview j (by omega)]
      split
      · rfl
      · rename_i hge
        have hje : j = line.length := by
          by_contra hne
          exact hnz line.length (by omega) hlast
        rw [hje, hzero, hlast]
    obtain ⟨k2, hprint, hout⟩ := printString_isOk (S := S) (k := { k with input := rest, user := u }) hdu hm
    refine ⟨_, k2, hread, hprint, ?_⟩
    rw [hout, str_padded (fun x hx hx0 => hz (hx0 ▸ hx)), List.drop_zero, List.take_of_length_le (by omega)]

namespace Kernel

/-- `"a"` is typed, and the memory of the process starts with the bytes `l`. -/
def typingA (l : List Byte) : Kernel := { typing [[97]] with user := onePage l }

theorem writable_onePage (l : List Byte) : ∀ j < (2 : Word).toNat, (onePage l).writable (0 + BitVec.ofNat 32 j) := by
  intro j hj
  have htwo : j < 2 := hj
  obtain rfl | rfl : j = 0 ∨ j = 1 := by omega
  · rfl
  · rfl

theorem isLine_a : IsLine [97] := by
  unfold IsLine
  decide

end Kernel

open Nachos.Stub.Kernel in
/-- `"a"` is echoed in memory that was zero. -/
theorem echo_a : (onePage []).Distinct ∧ (2 : Word).toInt < LIMIT ∧
    (∀ j < (2 : Word).toNat, (typingA []).user.writable (0 + BitVec.ofNat 32 j)) ∧ IsLine [97] ∧ 0 ∉ ([97] : List Byte) ∧
    (([97] : List Byte).length : Int) < (2 : Word).toInt ∧ (typingA []).input = [97] ++ 10 :: [] ∧
    ∀ S, Echoes S (typingA []) 0 2 [97] := by
  have hlim : (2 : Word).toInt < LIMIT := by decide
  have hz : 0 ∉ ([97] : List Byte) := by decide
  have hlen : (([97] : List Byte).length : Int) < (2 : Word).toInt := by decide
  refine ⟨distinct_onePage [], hlim, writable_onePage [], isLine_a, hz, hlen, rfl, ?_⟩
  intro S
  exact (echo_iff (distinct_onePage []) hlim (writable_onePage []) isLine_a hz hlen rfl).2 rfl

open Nachos.Stub.Kernel in
/-- `"ab"` is printed for `"a"` in a buffer that held `"bb"`. -/
theorem echo_appends : (onePage [98, 98]).Distinct ∧ (2 : Word).toInt < LIMIT ∧
    (∀ j < (2 : Word).toNat, (typingA [98, 98]).user.writable (0 + BitVec.ofNat 32 j)) ∧ IsLine [97] ∧
    (typingA [98, 98]).input = [97] ++ 10 :: [] ∧ ∀ S, ¬ Echoes S (typingA [98, 98]) 0 2 [97] := by
  refine ⟨distinct_onePage _, by decide, writable_onePage _, isLine_a, rfl, ?_⟩
  rintro S ⟨k1, k2, hread, hprint, hout⟩
  obtain ⟨k', hrun, hview, hsame⟩ : ∃ k', readString (services S) (typingA [98, 98]) 0 2 = .ok (none, k') ∧
      k'.user.view 1 = some 98 ∧ k'.output = (typingA [98, 98]).output := ⟨_, rfl, rfl, rfl⟩
  have hk1 : k1 = k' := (Prod.mk.inj (Except.ok.inj (hread.symm.trans hrun))).2
  rw [hk1] at hprint
  rw [printString_output hprint, hsame] at hout
  have hstr : str (k'.user.bytesAt 0) 0 LIMIT = [97] := List.append_cancel_left hout
  have hzero := (str_apply (k'.user.bytesAt 0) 0 LIMIT).2 (by rw [hstr]; decide)
  rw [hstr] at hzero
  have hbyte : k'.user.bytesAt 0 1 = 98 := congrArg (Option.getD · 0) hview
  exact absurd (hbyte.symm.trans hzero) (by decide)

end Stub

end Nachos
