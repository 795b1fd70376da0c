import Nachos.Lib.Decimal
import Nachos.Userprog.ConsoleLines
import Nachos.Userprog.PrintCalls

/-!
# Printing and reading integers

`PrintInt` and `ReadInt` of `userprog/exception.cc`, which work in a buffer of `MAX_INT_LENGTH`
bytes.

* `intDigits_ofNat`, `reverseLoop_eq` — the digits, and the swap that puts them in order.
* `printInt_iff` — when `PrintInt` prints the numeral of its argument.
* `parseInt_denotes`, `parseInt_otherwise` — what `ReadInt` makes of a line.
* `readInt_iff` — when `ReadInt` takes a line and returns its number, and when it reads back what
  `PrintInt` has printed.
-/

set_option autoImplicit false

namespace Nachos

open CString Decimal Exception Partial

namespace Exception

/-! ## The digits -/

theorem digit_ofNat {n : Nat} (hn : n < 2 ^ 31) :
    (((BitVec.ofNat 32 n).srem 10 + 48).setWidth 8 : Byte) = digit (n % 10) := by
  have h10 : (10 : Word) = BitVec.ofNat 32 10 := rfl
  have h48 : (48 : Word) = BitVec.ofNat 32 48 := rfl
  rw [h10, h48, CInt.srem_ofNat hn (by decide), ← BitVec.ofNat_add]
  apply BitVec.eq_of_toNat_eq
  rw [toNat_digit (Nat.mod_lt n (by decide)), BitVec.toNat_setWidth, CInt.toNat_ofNat (by omega)]
  omega

/-- **The loop over the digits**, with room for all of them. -/
theorem intDigits_ofNat (fuel : Nat) {n : Nat} (hfuel : 0 < fuel) (hn : n < 2 ^ 31) (hlen : n < 10 ^ fuel) :
    intDigits fuel (BitVec.ofNat 32 n) = reversed n := by
  induction fuel generalizing n with
  | zero => cases hfuel
  | succ fuel ih =>
    have hdiv : (BitVec.ofNat 32 n).sdiv 10 = BitVec.ofNat 32 (n / 10) := CInt.sdiv_ofNat hn (by decide)
    rw [intDigits, reversed_eq, digit_ofNat hn, hdiv, CInt.toInt_ofNat (by omega)]
    by_cases hmore : 0 < n / 10
    · rw [if_pos hmore]
      simp only [Int.natCast_pos, hmore, if_true]
      rw [Nat.pow_succ] at hlen
      have hfuel' : 0 < fuel := by
        rcases Nat.eq_zero_or_pos fuel with rfl | hpos
        · rw [Nat.pow_zero] at hlen
          omega
        · exact hpos
      rw [ih hfuel' (by omega) (by omega)]
    · rw [if_neg hmore]
      simp only [Int.natCast_pos, hmore, if_false]

theorem getD_set (l : List Byte) (i j : Nat) (a : Byte) :
    (l.set i a).getD j 0 = if i = j ∧ j < l.length then a else l.getD j 0 := by
  simp only [List.getD_eq_getElem?_getD, List.getElem?_set]
  by_cases hij : i = j
  · subst hij
    by_cases hlt : i < l.length
    · simp [hlt]
    · simp [hlt]
  · simp [hij]

/-- The swap loop: outside of the part between the two indices the list is reversed. -/
theorem reverseLoop_getD (s : List Byte) : ∀ (i : Nat) (t : List Byte), i ≤ s.length → s.length / 2 ≤ i →
    t.length = s.length →
    (∀ m < s.length, t.getD m 0 = if m < s.length - i ∨ i ≤ m then s.getD (s.length - 1 - m) 0 else s.getD m 0) →
    (reverseLoop s.length (s.length / 2) i t).length = s.length ∧
      ∀ m < s.length, (reverseLoop s.length (s.length / 2) i t).getD m 0 = s.getD (s.length - 1 - m) 0 := by
  intro i
  induction i with
  | zero =>
    intro t _ hmid hlen ht
    rw [reverseLoop]
    refine ⟨hlen, fun m hm => ?_⟩
    rw [ht m hm, if_pos (.inr (Nat.zero_le m))]
  | succ i ih =>
    intro t hi hmid hlen ht
    rw [reverseLoop]
    split
    · rename_i hmore
      apply ih _ (by omega) (by omega) (by rw [List.length_set, List.length_set, hlen])
      intro m hm
      -- the two bytes that are swapped have not been touched
      have hfar := ht i (by omega)
      have hnear := ht (s.length - i - 1) (by omega)
      rw [if_neg (by omega)] at hfar
      rw [if_neg (by omega)] at hnear
      rw [getD_set, getD_set, List.length_set, hlen, hfar, hnear]
      by_cases h1 : i = m
      · subst h1
        rw [if_pos ⟨rfl, hm⟩, if_pos (.inr (Nat.le_refl i))]
        congr 1
        omega
      · rw [if_neg (fun h => h1 h.1)]
        by_cases h2 : s.length - i - 1 = m
        · rw [if_pos ⟨h2, hm⟩, if_pos (.inl (by omega))]
          congr 1
          omega
        · rw [if_neg (fun h => h2 h.1), ht m hm]
          congr 1
          rw [eq_iff_iff]
          omega
    · refine ⟨hlen, fun m hm => ?_⟩
      rw [ht m hm, if_pos (by omega)]

/-- **The digits are reversed in place.** -/
theorem reverseLoop_eq (s : List Byte) : reverseLoop s.length (s.length / 2) s.length s = s.reverse := by
  obtain ⟨hlen, hget⟩ := reverseLoop_getD s s.length s (Nat.le_refl _) (Nat.div_le_self _ _) rfl (by
    intro m hm
    rw [if_neg (by omega)])
  apply List.ext_getElem (by rw [hlen, List.length_reverse])
  intro m h1 h2
  rw [hlen] at h1
  have hm := hget m h1
  rw [List.getD_eq_getElem?_getD, List.getD_eq_getElem?_getD, List.getElem?_eq_getElem (by omega),
    List.getElem?_eq_getElem (by omega), Option.getD_some, Option.getD_some] at hm
  rw [hm, List.getElem_reverse]

end Exception

/-! ## PrintInt -/

/-- What is left of `n` when its sign has been printed. -/
def magnitude (n : Word) : Word := if n.toInt < 0 then -n else n

/-- The only `int` without an absolute value. -/
def INT_MIN : Word := BitVec.intMin 32

theorem magnitude_eq {n : Word} (h : n ≠ INT_MIN) :
    magnitude n = BitVec.ofNat 32 n.toInt.natAbs ∧ n.toInt.natAbs < 2 ^ 31 := by
  have hneg := BitVec.toInt_neg_of_ne_intMin h
  have hlow : -(2 ^ 31 : Int) ≤ n.toInt := BitVec.le_toInt n
  have hlow' : -(2 ^ 31 : Int) ≤ (-n).toInt := BitVec.le_toInt (-n)
  have hhigh : n.toInt < 2 ^ 31 := BitVec.toInt_lt
  have hhigh' : (-n).toInt < 2 ^ 31 := BitVec.toInt_lt
  have hlt : n.toInt.natAbs < 2 ^ 31 := by omega
  refine ⟨?_, hlt⟩
  apply BitVec.eq_of_toInt_eq
  rw [magnitude, CInt.toInt_ofNat hlt]
  split
  · omega
  · omega

namespace PrintCall

theorem digitsOf_ofNat {n : Nat} (hn : n < 2 ^ 31) : digitsOf (BitVec.ofNat 32 n) = numeral n := by
  have hlen : n < 10 ^ MAX_INT_LENGTH := Nat.lt_trans hn (by decide)
  rw [digitsOf, intDigits_ofNat MAX_INT_LENGTH (by decide) hn hlen]
  exact reverseLoop_eq (reversed n)

/-- What `PrintInt` passes to `Write` is the numeral of `n`. -/
theorem output_printInt {n : Word} (h : n ≠ INT_MIN) : (printInt n).output = ofInt n.toInt := by
  obtain ⟨hmag, hlt⟩ := magnitude_eq h
  have hdigits := (congrArg digitsOf hmag).trans (digitsOf_ofNat hlt)
  rw [magnitude] at hdigits
  rw [output, writes, ofInt]
  by_cases hneg : n.toInt < 0
  · rw [if_pos hneg] at hdigits
    rw [if_pos hneg, if_pos hneg, hdigits]
    simp
  · rw [if_neg hneg] at hdigits
    rw [if_neg hneg, if_neg hneg, hdigits]
    simp

end PrintCall

namespace Stub

namespace Kernel

variable {S : Services Kernel} {k : Kernel}

theorem consoleWrites_services (ws : List (List Byte)) (k : Kernel) :
    consoleWrites (services S) k ws = .ok { k with output := k.output ++ ws.flatten } := by
  induction ws generalizing k with
  | nil =>
    rw [List.flatten_nil, List.append_nil]
    rfl
  | cons w ws ih =>
    have hwrite : (services S).consoleWrite k w = .ok { k with output := k.output ++ w } := rfl
    rw [consoleWrites_cons, hwrite, ok_bind, ih, List.flatten_cons, List.append_assoc]

/-- **`PrintInt`** on the console. -/
theorem printInt_services (k : Kernel) (n : Word) :
    Exception.printInt (services S) k n =
      if (intDigits MAX_INT_LENGTH (magnitude n)).length < MAX_INT_LENGTH then
        .ok (none, { k with output := k.output ++ (PrintCall.printInt n).output })
      else .error .undefined := by
  split
  · rename_i hfits
    rw [printInt_eq (services S) hfits, consoleWrites_services]
    rfl
  · rename_i hfull
    have hsign : ∃ k', printSign (services S) k n = .ok (magnitude n, k') := by
      unfold printSign magnitude
      split
      · exact ⟨_, rfl⟩
      · exact ⟨k, rfl⟩
    obtain ⟨k', hsign⟩ := hsign
    rw [Exception.printInt, hsign]
    exact if_pos (Nat.le_of_not_lt hfull)

theorem fits_iff {n : Word} (h : n ≠ INT_MIN) :
    (intDigits MAX_INT_LENGTH (magnitude n)).length < MAX_INT_LENGTH ↔ n.toInt.natAbs < 10 ^ 9 := by
  obtain ⟨hmag, hlt⟩ := magnitude_eq h
  rw [hmag, intDigits_ofNat MAX_INT_LENGTH (by decide) hlt (Nat.lt_trans hlt (by decide)), MAX_INT_LENGTH,
    Nat.lt_succ_iff, ← length_numeral_le_iff (by decide), numeral, List.length_reverse]

/-- The last `int` is printed as `"-("`. -/
theorem printInt_min (k : Kernel) :
    Exception.printInt (services S) k INT_MIN = .ok (none, { k with output := k.output ++ [45, 40] }) := by
  rw [printInt_services, if_pos (by decide)]
  rfl

/-- Its numeral is longer. -/
theorem printInt_min_ne (k : Kernel) :
    Exception.printInt (services S) k INT_MIN ≠ .ok (none, { k with output := k.output ++ ofInt INT_MIN.toInt }) := by
  rw [printInt_min]
  intro heq
  have hout := congrArg (fun r => r.2.output.length) (Except.ok.inj heq)
  have hlen : ¬ (ofInt INT_MIN.toInt).length ≤ 2 := by
    rw [ofInt, if_pos (by decide), List.length_cons, Nat.succ_le_succ_iff, length_numeral_le_iff (by decide)]
    decide
  simp only [List.length_append, List.length_cons, List.length_nil] at hout
  omega

end Kernel

open Nachos.Stub.Kernel in
/-- **`PrintInt`** prints the numeral of `n` exactly if `n` has less than ten digits. -/
theorem printInt_iff {S : Services Kernel} (k : Kernel) (n : Word) :
    Exception.printInt (services S) k n = .ok (none, { k with output := k.output ++ ofInt n.toInt }) ↔
      n.toInt.natAbs < 10 ^ 9 := by
  by_cases hmin : n = INT_MIN
  · subst hmin
    exact iff_of_false (printInt_min_ne k) (by decide)
  · rw [printInt_services, PrintCall.output_printInt hmin, ← fits_iff hmin]
    split
    · rename_i hfits
      exact iff_of_true rfl hfits
    · rename_i hfull
      exact iff_of_false nofun hfull

open Nachos.Stub.Kernel in
/-- -2^31 is printed as `"-("`. -/
theorem printInt_not_numeral : INT_MIN.toInt = -2147483648 ∧
    ∀ S, Exception.printInt (services S) started INT_MIN ≠
      .ok (none, { started with output := started.output ++ ofInt INT_MIN.toInt }) := by
  refine ⟨by decide, ?_⟩
  intro S
  exact printInt_min_ne started

end Stub

/-! ## ReadInt -/

namespace Exception

theorem isDigit_iff (c : Byte) : (48 ≤ c.toInt ∧ c.toInt ≤ 57) ↔ IsDigit c := by
  have hlt := c.isLt
  rw [IsDigit, BitVec.toInt_eq_toNat_cond]
  split
  · omega
  · omega

theorem mask_digit : ∀ d < 10, (digit d &&& MASK_GET_NUM).setWidth 32 = BitVec.ofNat 32 d := by decide

/-- **The loop over digits**, in 32 bits. -/
theorem digits_eq {cs : List Byte} (h : ∀ c ∈ cs, IsDigit c) (m : Nat) :
    digits cs (BitVec.ofNat 32 m) = some (BitVec.ofNat 32 (valueFrom m cs)) := by
  induction cs generalizing m with
  | nil => rfl
  | cons c cs ih =>
    obtain ⟨d, hd, rfl⟩ := exists_digit (h c List.mem_cons_self)
    have h10 : (10 : Word) = BitVec.ofNat 32 10 := rfl
    rw [digits, if_pos ((isDigit_iff _).2 (isDigit_digit hd)), mask_digit d hd, h10, ← BitVec.ofNat_mul,
      ← BitVec.ofNat_add, ih (fun x hx => h x (List.mem_cons_of_mem _ hx)), valueFrom_cons, toNat_digit hd,
      Nat.add_sub_cancel_left]

theorem digits_other {cs : List Byte} (h : ¬ ∀ c ∈ cs, IsDigit c) (number : Word) : digits cs number = none := by
  induction cs generalizing number with
  | nil => exact absurd (by simp) h
  | cons c cs ih =>
    rw [digits]
    split
    · rename_i hc
      refine ih (fun hcs => h ?_) _
      exact List.forall_mem_cons.2 ⟨(isDigit_iff c).1 hc, hcs⟩
    · rfl

/-- The number that `ReadInt` returns for the digits `ds`, or what stands in their place. -/
def signed (negative : Bool) (ds : List Byte) : Word :=
  match digits ds 0 with
  | none => 0
  | some number => if negative then number * (-1) else number

theorem signed_digits {ds : List Byte} (h : ∀ c ∈ ds, IsDigit c) (negative : Bool) :
    signed negative ds = BitVec.ofInt 32 (if negative then -(valueFrom 0 ds : Int) else valueFrom 0 ds) := by
  have hds : digits ds 0 = some (BitVec.ofNat 32 (valueFrom 0 ds)) := digits_eq h 0
  rw [signed, hds]
  cases negative with
  | true =>
    simp only [if_true]
    rw [BitVec.ofInt_neg, BitVec.ofInt_natCast, BitVec.mul_neg]
    exact congrArg Neg.neg (BitVec.mul_one _)
  | false =>
    simp only [Bool.false_eq_true, if_false]
    rw [BitVec.ofInt_natCast]

theorem signed_other {ds : List Byte} (h : ¬ ∀ c ∈ ds, IsDigit c) (negative : Bool) : signed negative ds = 0 := by
  rw [signed, digits_other h]

theorem signed_nil (negative : Bool) : signed negative [] = 0 := by
  cases negative with
  | true => rfl
  | false => rfl

theorem skipBlanks_append {blanks : List Byte} (hb : ∀ c ∈ blanks, IsBlank c) {c : Byte} (hc : ¬ IsBlank c)
    (cs : List Byte) : skipBlanks (blanks ++ c :: cs) = .ok blanks.length := by
  induction blanks with
  | nil => exact if_neg hc
  | cons b blanks ih =>
    have hblank : b = 32 ∨ b = 9 := hb b List.mem_cons_self
    rw [List.cons_append, skipBlanks, if_pos hblank, ih (fun x hx => hb x (List.mem_cons_of_mem b hx))]
    rfl

/-- `parseInt` of a buffer in which `c` is the first byte that is not blank. -/
theorem parseInt_split {blanks : List Byte} (hb : ∀ c ∈ blanks, IsBlank c) {c : Byte} (hc : ¬ IsBlank c)
    (cs : List Byte) (nDigit : Nat) :
    parseInt (blanks ++ c :: cs) nDigit =
      .ok (if c = 45 then signed true (cs.take (nDigit - (blanks.length + 1)))
        else signed false ((c :: cs).take (nDigit - blanks.length))) := by
  have hget : (blanks ++ c :: cs)[blanks.length]? = some c := by
    rw [List.getElem?_append_right (Nat.le_refl _), Nat.sub_self]
    rfl
  unfold parseInt
  rw [skipBlanks_append hb hc, ok_bind]
  simp only [hget, Option.some.injEq]
  by_cases h45 : c = 45
  · have hdrop : (blanks ++ c :: cs).drop (blanks.length + 1) = cs := by
      rw [← List.drop_drop, List.drop_left, List.drop_one, List.tail_cons]
    have hcount : ((nDigit : Int) - ((blanks.length + 1 : Nat) : Int)).toNat = nDigit - (blanks.length + 1) := by omega
    simp only [h45, if_true] at hdrop ⊢
    rw [hdrop, hcount, signed]
    cases digits (cs.take (nDigit - (blanks.length + 1))) 0 with
    | none => rfl
    | some number => rfl
  · have hcount : ((nDigit : Int) - (blanks.length : Int)).toNat = nDigit - blanks.length := by omega
    simp only [h45, if_false, List.drop_left]
    rw [hcount, signed]
    cases digits ((c :: cs).take (nDigit - blanks.length)) 0 with
    | none => rfl
    | some number => rfl

theorem filled_eq {stored : List Byte} {n : Nat} (h : stored.length ≤ n) :
    filled stored n = stored ++ List.replicate (n - stored.length) 0 := by
  rw [filled, List.take_append, List.take_of_length_le h, List.take_replicate, Nat.min_eq_left (by omega)]

/-- A line in the buffer, behind its blanks. -/
theorem parseInt_filled {blanks rest : List Byte} (hb : ∀ c ∈ blanks, IsBlank c) {c : Byte} {cs : List Byte}
    (hrest : rest = c :: cs) (hc : ¬ IsBlank c) (hlen : (blanks ++ rest).length ≤ MAX_INT_LENGTH) :
    parseInt (filled (blanks ++ rest) MAX_INT_LENGTH) (blanks ++ rest).length =
      .ok (if c = 45 then signed true cs else signed false rest) := by
  subst hrest
  have hsplit : filled (blanks ++ c :: cs) MAX_INT_LENGTH =
      blanks ++ c :: (cs ++ List.replicate (MAX_INT_LENGTH - (blanks ++ c :: cs).length) 0) := by
    rw [filled_eq hlen, List.append_assoc, List.cons_append]
  have hlength : (blanks ++ c :: cs).length = blanks.length + (cs.length + 1) := by
    rw [List.length_append, List.length_cons]
  rw [hsplit, parseInt_split hb hc, hlength, List.take_left' (by omega), ← List.cons_append,
    List.take_left' (by rw [List.length_cons]; omega)]

/-- **A line that denotes an integer** is read as that integer. -/
theorem parseInt_denotes {line : List Byte} {z : Int} (h : Denotes line z) (hlen : line.length ≤ MAX_INT_LENGTH) :
    parseInt (filled line MAX_INT_LENGTH) line.length = .ok (BitVec.ofInt 32 z) := by
  cases h with
  | @plain blanks ds hb hne hd hline =>
    subst hline
    obtain ⟨d, ds', rfl⟩ := List.exists_cons_of_ne_nil hne
    have hdigit := hd d List.mem_cons_self
    have h45 : d ≠ 45 := by
      rintro rfl
      exact absurd hdigit (by decide)
    rw [parseInt_filled hb rfl hdigit.not_blank hlen, if_neg h45, signed_digits hd]
    rfl
  | @negative blanks ds hb hne hd hline =>
    subst hline
    rw [parseInt_filled hb rfl (by decide) hlen, if_pos rfl, signed_digits hd]
    rfl

/-- Any other line that leaves a zero behind it is read as 0. -/
theorem parseInt_otherwise {line : List Byte} (h : ¬ ∃ z, Denotes line z) (hlen : line.length < MAX_INT_LENGTH) :
    parseInt (filled line MAX_INT_LENGTH) line.length = .ok 0 := by
  have hsplit : line = line.takeWhile (fun c => decide (IsBlank c)) ++ line.dropWhile (fun c => decide (IsBlank c)) :=
    List.takeWhile_append_dropWhile.symm
  have hb : ∀ c ∈ line.takeWhile (fun c => decide (IsBlank c)), IsBlank c :=
    fun c hc => of_decide_eq_true (List.all_eq_true.1 List.all_takeWhile c hc)
  generalize line.takeWhile (fun c => decide (IsBlank c)) = blanks at hsplit hb
  cases hrest : line.dropWhile (fun c => decide (IsBlank c)) with
  | nil =>
    rw [hrest, List.append_nil] at hsplit
    subst hsplit
    obtain ⟨m, hm⟩ : ∃ m, MAX_INT_LENGTH - line.length = m + 1 := ⟨MAX_INT_LENGTH - line.length - 1, by omega⟩
    rw [filled_eq (Nat.le_of_lt hlen), hm, List.replicate_succ, parseInt_split hb (by decide), if_neg (by decide),
      Nat.sub_self, List.take_zero, signed_nil]
  | cons c cs =>
    have hc : ¬ IsBlank c := by
      have hhead := List.head?_dropWhile_not (fun c => decide (IsBlank c)) line
      rw [hrest] at hhead
      simpa using hhead
    rw [hrest] at hsplit
    have hparse := parseInt_filled hb rfl hc (by rw [← hsplit]; exact Nat.le_of_lt hlen)
    rw [← hsplit] at hparse
    rw [hparse]
    by_cases h45 : c = 45
    · rw [if_pos h45]
      by_cases hnil : cs = []
      · rw [hnil, signed_nil]
      · rw [signed_other]
        intro hd
        exact h ⟨_, .negative hb hnil hd (by rw [hsplit, h45])⟩
    · rw [if_neg h45, signed_other]
      intro hd
      exact h ⟨_, .plain hb (List.cons_ne_nil c cs) hd hsplit⟩

end Exception

namespace Stub

/-- `number` is the integer that the line denotes, if that is an `int`, and 0 otherwise. -/
def IsNumber (line : List Byte) (number : Word) : Prop :=
  (∀ z : Int, Denotes line z → -2 ^ 31 ≤ z → z < 2 ^ 31 → number = BitVec.ofInt 32 z) ∧
    ((¬ ∃ z : Int, Denotes line z ∧ -2 ^ 31 ≤ z ∧ z < 2 ^ 31) → number = 0)

/-- `ReadInt` takes exactly the line, and returns its number. -/
def TakesLine (S : Services Kernel) (k : Kernel) (line rest : List Byte) : Prop :=
  ∃ number, Exception.readInt (Kernel.services S) k = .ok (some number, { k with input := rest }) ∧
    IsNumber line number

/-- What `PrintInt(n)` prints, with a newline, is read by `ReadInt` as `n`. -/
def ReadsBack (S : Services Kernel) (k : Kernel) (n : Word) : Prop :=
  ∃ out, Exception.printInt (Kernel.services S) k n = .ok (none, { k with output := k.output ++ out }) ∧
    ∀ k' rest, k'.input = out ++ 10 :: rest →
      ∃ k'', Exception.readInt (Kernel.services S) k' = .ok (some n, k'')

namespace Kernel

variable {S : Services Kernel} {k : Kernel} {line rest : List Byte}

/-- A line that is not longer than the buffer, and what is left of the input. -/
theorem readInt_fits (hl : IsLine line) (hlen : line.length ≤ MAX_INT_LENGTH) (hin : k.input = line ++ 10 :: rest)
    {number : Word} (hparse : parseInt (filled line MAX_INT_LENGTH) line.length = .ok number) :
    Exception.readInt (services S) k = .ok (some number,
      { k with input := if line.length < MAX_INT_LENGTH then rest else 10 :: rest }) := by
  have hn : (1 : Int) ≤ (BitVec.ofNat 32 MAX_INT_LENGTH).toInt := by decide
  have hnat : (BitVec.ofNat 32 MAX_INT_LENGTH).toNat = MAX_INT_LENGTH := rfl
  have h10 : MAX_INT_LENGTH = 10 := rfl
  have hread : consoleRead k (BitVec.ofNat 32 MAX_INT_LENGTH) = .ok (line, BitVec.ofNat 32 line.length,
      { k with input := if line.length < MAX_INT_LENGTH then rest else 10 :: rest }) := by
    split
    · rename_i hlt
      exact consoleRead_short hn hl hlt hin
    · rename_i hge
      have heq : line.length = MAX_INT_LENGTH := by omega
      rw [consoleRead_full hn hl (by rw [hnat]; omega) hin, hnat, ← heq, List.take_length, List.drop_length,
        List.nil_append]
  have hservice : (services S).consoleRead k (BitVec.ofNat 32 MAX_INT_LENGTH) =
      consoleRead k (BitVec.ofNat 32 MAX_INT_LENGTH) := rfl
  rw [Exception.readInt, hservice, hread, ok_bind]
  simp only [CInt.toInt_ofNat (show line.length < 2 ^ 31 by omega), hparse, ok_bind]

/-- **A line that is shorter than the buffer** is taken, and read as its number. -/
theorem takesLine_of_lt (hl : IsLine line) (hlen : line.length < MAX_INT_LENGTH) (hin : k.input = line ++ 10 :: rest) :
    TakesLine S k line rest := by
  have hle := Nat.le_of_lt hlen
  by_cases hden : ∃ z, Denotes line z
  · obtain ⟨z, hz⟩ := hden
    have hread := readInt_fits (S := S) hl hle hin (parseInt_denotes hz hle)
    rw [if_pos hlen] at hread
    refine ⟨_, hread, ?_, ?_⟩
    · intro z' hz' _ _
      have hsame := (parseInt_denotes hz hle).symm.trans (parseInt_denotes hz' hle)
      exact Except.ok.inj hsame
    · intro hnone
      -- it denotes an `int`
      have hbound := hz.natAbs_lt (Nat.le_of_lt_succ hlen)
      exact absurd ⟨z, hz, by omega, by omega⟩ hnone
  · have hread := readInt_fits (S := S) hl hle hin (parseInt_otherwise hden hlen)
    rw [if_pos hlen] at hread
    exact ⟨0, hread, fun z hz _ _ => absurd ⟨z, hz⟩ hden, fun _ => rfl⟩

/-- The newline of a longer one is not taken. -/
theorem not_takesLine (hl : IsLine line) (hlen : MAX_INT_LENGTH ≤ line.length) (hin : k.input = line ++ 10 :: rest) :
    ¬ TakesLine S k line rest := by
  rintro ⟨number, hread, -⟩
  obtain ⟨⟨stored, sz, k1⟩, hcons, hread⟩ := bind_eq_ok.1 hread
  obtain ⟨number', -, hend⟩ := bind_eq_ok.1 hread
  have hfull : consoleRead k (BitVec.ofNat 32 MAX_INT_LENGTH) = .ok (line.take MAX_INT_LENGTH,
      BitVec.ofNat 32 MAX_INT_LENGTH, { k with input := line.drop MAX_INT_LENGTH ++ 10 :: rest }) :=
    consoleRead_full (by decide) hl hlen hin
  cases hfull.symm.trans hcons
  have hinput := congrArg (fun r => r.2.input.length) (Except.ok.inj hend)
  simp only [List.length_append, List.length_cons] at hinput
  omega

theorem isLine_ofInt (z : Int) : IsLine (ofInt z) := by
  have hdigit : ∀ c, IsDigit c → c ≠ 10 ∧ c ≠ 1 ∧ c ≠ 255 := by
    intro c hc
    refine ⟨?_, ?_, ?_⟩
    · rintro rfl
      exact absurd hc (by decide)
    · rintro rfl
      exact absurd hc (by decide)
    · rintro rfl
      exact absurd hc (by decide)
  intro c hc
  rw [ofInt] at hc
  split at hc
  · rcases List.mem_cons.1 hc with rfl | hc
    · decide
    · exact hdigit c (isDigit_of_mem_numeral hc)
  · exact hdigit c (isDigit_of_mem_numeral hc)

theorem length_ofInt_le {z : Int} (h : z.natAbs < 10 ^ 9) : (ofInt z).length ≤ MAX_INT_LENGTH := by
  have hlen := (length_numeral_le_iff (show 0 < 9 by decide)).2 h
  rw [ofInt]
  split
  · rw [List.length_cons]
    exact Nat.succ_le_succ hlen
  · exact Nat.le_succ_of_le hlen

/-- **`ReadInt` reads back** what `PrintInt` can print. -/
theorem readsBack_iff (n : Word) : ReadsBack S k n ↔ n.toInt.natAbs < 10 ^ 9 := by
  constructor
  · rintro ⟨out, hprint, hread⟩
    by_cases hmin : n = INT_MIN
    · subst hmin
      rw [printInt_min] at hprint
      have hout := congrArg (fun r => r.2.output) (Except.ok.inj hprint)
      obtain rfl : [45, 40] = out := List.append_cancel_left hout
      obtain ⟨k'', hk''⟩ := hread { k with input := [45, 40, 10] } [] rfl
      have hline : IsLine [45, 40] := by
        unfold IsLine
        decide
      have hparse : parseInt (filled [45, 40] MAX_INT_LENGTH) 2 = .ok 0 := by decide
      have hin : ({ k with input := [45, 40, 10] } : Kernel).input = [45, 40] ++ 10 :: [] := rfl
      have hzero := readInt_fits (S := S) hline (by decide) hin hparse
      rw [hzero] at hk''
      exact absurd (Option.some.inj (Prod.mk.inj (Except.ok.inj hk'')).1) (by decide)
    · rw [← fits_iff hmin]
      by_contra hfull
      rw [printInt_services, if_neg hfull] at hprint
      cases hprint
  · intro h
    have hmin : n ≠ INT_MIN := by
      rintro rfl
      exact absurd h (by decide)
    refine ⟨ofInt n.toInt, ?_, ?_⟩
    · rw [printInt_services, if_pos ((fits_iff hmin).2 h), PrintCall.output_printInt hmin]
    · intro k' rest hin
      have hparse := parseInt_denotes (denotes_ofInt n.toInt) (length_ofInt_le h)
      rw [BitVec.ofInt_toInt] at hparse
      exact ⟨_, readInt_fits (isLine_ofInt _) (length_ofInt_le h) hin hparse⟩

end Kernel

open Nachos.Stub.Kernel in
/-- **`ReadInt`**, for every line and all input behind it, takes the line and returns its number exactly if the
line is shorter than the buffer; and it reads back the numbers of less than ten digits. -/
theorem readInt_iff {S : Services Kernel} (k : Kernel) :
    (∀ line rest, IsLine line → k.input = line ++ 10 :: rest →
      (TakesLine S k line rest ↔ line.length < MAX_INT_LENGTH)) ∧
    ∀ n, ReadsBack S k n ↔ n.toInt.natAbs < 10 ^ 9 := by
  refine ⟨?_, fun n => readsBack_iff n⟩
  intro line rest hl hin
  constructor
  · intro htakes
    by_contra hge
    exact not_takesLine hl (Nat.le_of_not_lt hge) hin htakes
  · intro hlt
    exact takesLine_of_lt hl hlt hin

open Nachos.Stub.Kernel in
/-- `"-7"` is taken. -/
theorem readInt_minus_seven : IsLine [45, 55] ∧ (typing [[45, 55]]).input = [45, 55] ++ 10 :: [] ∧
    ∀ S, TakesLine S (typing [[45, 55]]) [45, 55] [] := by
  have hline : IsLine [45, 55] := by
    unfold IsLine
    simp
  refine ⟨hline, rfl, ?_⟩
  intro S
  exact ((readInt_iff (typing [[45, 55]])).1 [45, 55] [] hline rfl).2 (by decide)

open Nachos.Stub.Kernel in
/-- The newline behind `"1234567890"` is left in the input. -/
theorem readInt_leaves_newline : IsLine [49, 50, 51, 52, 53, 54, 55, 56, 57, 48] ∧
    ∀ S, ¬ TakesLine S (typing [[49, 50, 51, 52, 53, 54, 55, 56, 57, 48]])
      [49, 50, 51, 52, 53, 54, 55, 56, 57, 48] [] := by
  have hline : IsLine [49, 50, 51, 52, 53, 54, 55, 56, 57, 48] := by
    unfold IsLine
    simp
  refine ⟨hline, ?_⟩
  intro S
  exact not_takesLine hline (by decide) rfl

end Stub

end Nachos
