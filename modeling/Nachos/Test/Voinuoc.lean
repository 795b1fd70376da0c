import Mathlib.Tactic.Ring
import Nachos.Filesys.Stub
import Nachos.Lib.CInt
import Nachos.Lib.Decimal

/-!
# The water taps

The serving loop of `test/voinuoc.c`.  It keeps the totals of the two taps in `first.txt` and
`second.txt`, in decimal, and serves every turn from the tap with the smaller total.

* `writeNumber_isSome` — the loops that write a total end, and never divide by zero.
* `leading_spec` — what they write: the digits of the total, without the zeros at its end.
* `Holds.write` — over a file that holds the last total, the new one can be read back exactly if it
  does not end in zero.
* `water_taps` — the taps are balanced exactly as long as no total ends in zero or overflows.
-/

set_option autoImplicit false

namespace Nachos

open CInt Decimal Stub

namespace Voinuoc

/-! ## Reading and writing numbers -/

/-- The loop that reads a number, with the bytes of the file that are left. -/
def readNumber (number : Word) : List Byte → Word
  | [] => number
  | c :: l =>
    if (48 : Byte).sle c && c.sle 57 then readNumber (10 * number + (c.signExtend 32 - 48)) l else number

/-- `while (f > 9)`; the power of ten. -/
def scaleLoop : Nat → Word → Word → Option Word
  | 0, _, _ => none
  | fuel + 1, f, d => if (9 : Word).slt f then scaleLoop fuel (f.sdiv 10) (d * 10) else some d

/-- `while (first > 0)`, with the content of the file and the position in it. -/
def writeLoop : Nat → Word → Word → List Byte → Nat → Option (List Byte)
  | 0, _, _, _, _ => none
  | fuel + 1, first, d, content, position =>
    if (0 : Word).slt first then
      -- a division by zero
      if d = 0 then none
      else
        writeLoop fuel (first.srem d) (d.sdiv 10)
          (overwrite content position [(48 + first.sdiv d).setWidth 8]) (position + 1)
    else some content

/-- The total `first` is written over the content of its file; `none` is a loop that does not end. -/
def writeNumber (first : Word) (content : List Byte) : Option (List Byte) :=
  if first = 0 then some (overwrite content 0 [48])
  else (scaleLoop 32 first 1).bind fun d => writeLoop 32 first d content 0

/-! ## Turns -/

/-- `first.txt` and `second.txt`. -/
structure Files where
  first : List Byte
  second : List Byte
  deriving DecidableEq, Repr

/-- A turn: the totals that are read back, and `tap.txt`. -/
structure Turn where
  first : Word
  second : Word
  tap : List Byte
  deriving DecidableEq, Repr

/-- One round of `while (1)`; `none` leaves the loop. -/
def turn (s : Files) (require : List Byte) : Option (Turn × Files) :=
  if readNumber 0 require = 0 then none
  else if (readNumber 0 s.first).sle (readNumber 0 s.second) then
    -- `CreateFile` has left `tap.txt` empty
    (writeNumber (readNumber 0 s.first + readNumber 0 require) s.first).map fun c =>
      (⟨readNumber 0 s.first, readNumber 0 s.second, overwrite [] 0 [49]⟩, { s with first := c })
  else
    (writeNumber (readNumber 0 s.second + readNumber 0 require) s.second).map fun c =>
      (⟨readNumber 0 s.first, readNumber 0 s.second, overwrite [] 0 [50]⟩, { s with second := c })

/-- The turns, with the `require.txt` of each. -/
def serve : Files → List (List Byte) → List Turn
  | _, [] => []
  | s, require :: requires =>
    match turn s require with
    | none => []
    | some (t, s') => t :: serve s' requires

/-- **The taps are balanced**, where `g₁` and `g₂` were given before: every turn reads back what was
given to the two taps, and serves from the first one iff no more was given to it. -/
def Balanced : Nat → Nat → List Nat → List Turn → Prop
  | _, _, [], [] => True
  | g₁, g₂, a :: amounts, t :: turns =>
    (t.first.toInt = g₁ ∧ t.second.toInt = g₂) ∧ (t.tap = if g₁ ≤ g₂ then [49] else [50]) ∧
      if t.tap = [49] then Balanced (g₁ + a) g₂ amounts turns else Balanced g₁ (g₂ + a) amounts turns
  | _, _, _, _ => False

/-- The totals of the taps that serve, turn by turn, if it is always the one to which less was
given. -/
def totals : Nat → Nat → List Nat → List Nat
  | _, _, [] => []
  | g₁, g₂, a :: amounts =>
    if g₁ ≤ g₂ then (g₁ + a) :: totals (g₁ + a) g₂ amounts else (g₂ + a) :: totals g₁ (g₂ + a) amounts

/-- A total that survives in its file. -/
def Keeps (total : Nat) : Prop := total < 2 ^ 31 ∧ ¬ 10 ∣ total

instance (total : Nat) : Decidable (Keeps total) := inferInstanceAs (Decidable (_ ∧ _))

/-- Every total that is read back survives, and the last amount is not taken for 0. -/
def Sound (g₁ g₂ : Nat) (amounts : List Nat) : Prop :=
  (∀ total ∈ (totals g₁ g₂ amounts).dropLast, Keeps total) ∧ ∀ a ∈ amounts.getLast?, ¬ 2 ^ 32 ∣ a

/-! ## The numbers that are read -/

theorem digit_spec {d : Nat} (h : d < 10) :
    ((48 : Byte).sle (digit d) && (digit d).sle 57) = true ∧ (digit d).signExtend 32 - 48 = BitVec.ofNat 32 d := by
  interval_cases d <;> exact ⟨by decide, by decide⟩

theorem readNumber_eq {l : List Byte} (h : ∀ c ∈ l, IsDigit c) (n : Nat) :
    readNumber (BitVec.ofNat 32 n) l = BitVec.ofNat 32 (valueFrom n l) := by
  induction l generalizing n with
  | nil => rfl
  | cons c l ih =>
    obtain ⟨d, hd, rfl⟩ := exists_digit (h c List.mem_cons_self)
    have hstep : 10 * BitVec.ofNat 32 n + BitVec.ofNat 32 d = BitVec.ofNat 32 (n * 10 + d) := by
      rw [BitVec.ofNat_add, BitVec.ofNat_mul, BitVec.mul_comm]
      rfl
    rw [readNumber, if_pos (digit_spec hd).1, (digit_spec hd).2, hstep, valueFrom_cons, toNat_digit hd,
      Nat.add_sub_cancel_left]
    exact ih (fun c hc => h c (List.mem_cons_of_mem _ hc)) _

/-! ## The digits that are written -/

/-- The digits of `n` from the one for `10 ^ k` on, as long as something is left. -/
def leading : Nat → Nat → List Byte
  | 0, n => if n = 0 then [] else [digit n]
  | k + 1, n => if n = 0 then [] else digit (n / 10 ^ (k + 1)) :: leading k (n % 10 ^ (k + 1))

theorem pow_ten_pos (k : Nat) : 0 < 10 ^ k := Nat.pow_pos (by omega)

theorem div_pow_lt_ten {k n : Nat} (h : n < 10 ^ (k + 2)) : n / 10 ^ (k + 1) < 10 := by
  apply Nat.div_lt_of_lt_mul
  rw [← Nat.pow_succ]
  exact h

theorem leading_zero (k : Nat) : leading k 0 = [] := by
  cases k with
  | zero => rfl
  | succ k => rw [leading, if_pos rfl]

theorem isDigit_of_mem_leading {k n : Nat} (h : n < 10 ^ (k + 1)) : ∀ c ∈ leading k n, IsDigit c := by
  induction k generalizing n with
  | zero =>
    unfold leading
    split
    · simp
    · intro c hc
      rw [List.mem_singleton.1 hc]
      exact isDigit_digit (by omega)
  | succ k ih =>
    unfold leading
    split
    · simp
    · rw [List.forall_mem_cons]
      have hq := div_pow_lt_ten h
      exact ⟨isDigit_digit hq, ih (Nat.mod_lt _ (pow_ten_pos _))⟩

/-- **What is written denotes `n`**, but for the zeros at its end. -/
theorem leading_spec {k n : Nat} (h : n < 10 ^ (k + 1)) :
    ∃ z, (leading k n).length + z = k + 1 ∧ valueFrom 0 (leading k n) * 10 ^ z = n := by
  induction k generalizing n with
  | zero =>
    unfold leading
    split
    · rename_i h0
      exact ⟨1, rfl, h0.symm⟩
    · refine ⟨0, rfl, ?_⟩
      rw [valueFrom_cons, toNat_digit (by omega)]
      show (0 * 10 + (48 + n - 48)) * 10 ^ 0 = n
      omega
  | succ k ih =>
    unfold leading
    split
    · rename_i h0
      exact ⟨k + 2, Nat.zero_add _, by rw [h0]; exact Nat.zero_mul _⟩
    · have hq := div_pow_lt_ten h
      obtain ⟨z, hlen, hval⟩ := ih (Nat.mod_lt n (pow_ten_pos (k + 1)))
      refine ⟨z, by rw [List.length_cons]; omega, ?_⟩
      rw [valueFrom_cons, toNat_digit hq, valueFrom_eq, Nat.add_mul, hval, Nat.mul_assoc, ← Nat.pow_add, hlen,
        Nat.zero_mul, Nat.zero_add, Nat.add_sub_cancel_left]
      exact Nat.div_add_mod' n _

/-- What is written does not end in zero. -/
theorem leading_mod {k n : Nat} (h : n < 10 ^ (k + 1)) (h0 : n ≠ 0) : valueFrom 0 (leading k n) % 10 ≠ 0 := by
  induction k generalizing n with
  | zero =>
    rw [leading, if_neg h0, valueFrom_cons, toNat_digit (by omega)]
    show (0 * 10 + (48 + n - 48)) % 10 ≠ 0
    omega
  | succ k ih =>
    have hq := div_pow_lt_ten h
    have hsplit := Nat.div_add_mod' n (10 ^ (k + 1))
    rw [leading, if_neg h0, valueFrom_cons, toNat_digit hq, Nat.zero_mul, Nat.zero_add, Nat.add_sub_cancel_left]
    by_cases hr : n % 10 ^ (k + 1) = 0
    · have hne : n / 10 ^ (k + 1) ≠ 0 := fun hz => h0 (by rw [← hsplit, hz, hr, Nat.zero_mul])
      rw [hr, leading_zero]
      show n / 10 ^ (k + 1) % 10 ≠ 0
      rw [Nat.mod_eq_of_lt hq]
      exact hne
    · have hlt : n % 10 ^ (k + 1) < 10 ^ (k + 1) := Nat.mod_lt _ (pow_ten_pos _)
      -- the digit in front does not change the last one
      have hrest := ih hlt hr
      rw [valueFrom_eq]
      cases hl : leading k (n % 10 ^ (k + 1)) with
      | nil => rw [hl] at hrest; exact absurd rfl hrest
      | cons c l =>
        rw [hl] at hrest
        have hpow : 10 ^ (c :: l).length = 10 ^ l.length * 10 := Nat.pow_succ 10 l.length
        rw [hpow, ← Nat.mul_assoc, Nat.mul_add_mod_self_right]
        exact hrest

/-! ## The loops that write -/

theorem scaleLoop_eq {fuel f : Nat} (d : Nat) (h0 : 0 < f) (hf : f < 10 ^ fuel) (h31 : f < 2 ^ 31) :
    ∃ k, scaleLoop fuel (BitVec.ofNat 32 f) (BitVec.ofNat 32 d) = some (BitVec.ofNat 32 (d * 10 ^ k)) ∧
      10 ^ k ≤ f ∧ f < 10 ^ (k + 1) := by
  induction fuel generalizing f d with
  | zero => exact absurd hf (by rw [Nat.pow_zero]; omega)
  | succ fuel ih =>
    have hslt : (9 : Word).slt (BitVec.ofNat 32 f) = decide (9 < f) := slt_ofNat (by decide) h31
    rw [scaleLoop, hslt]
    split
    · rename_i h9
      rw [decide_eq_true_eq] at h9
      have hdiv : (BitVec.ofNat 32 f).sdiv 10 = BitVec.ofNat 32 (f / 10) := sdiv_ofNat h31 (by decide)
      have hmul : BitVec.ofNat 32 d * 10 = BitVec.ofNat 32 (d * 10) := by
        rw [BitVec.ofNat_mul]
        rfl
      rw [Nat.pow_succ] at hf
      obtain ⟨k, hrun, hlo, hhi⟩ := ih (d * 10) (show 0 < f / 10 by omega) (by omega) (by omega)
      refine ⟨k + 1, ?_, ?_, ?_⟩
      · rw [hdiv, hmul, hrun, Nat.pow_succ', Nat.mul_assoc]
      · rw [Nat.pow_succ]
        omega
      · rw [Nat.pow_succ]
        omega
    · rename_i h9
      rw [decide_eq_true_eq] at h9
      refine ⟨0, by rw [Nat.pow_zero, Nat.mul_one], by rw [Nat.pow_zero]; exact h0, ?_⟩
      omega

theorem overwrite_cons (c : List Byte) (p : Nat) (x : Byte) (l : List Byte) :
    overwrite (overwrite c p [x]) (p + 1) l = overwrite c p (x :: l) := by
  have hx : overwrite c p [x] = (c ++ List.replicate (p - c.length) 0).take p ++ [x] ++ c.drop (p + 1) := by
    rw [overwrite, if_neg (List.cons_ne_nil x [])]
    rfl
  have hpad : ((c ++ List.replicate (p - c.length) 0).take p ++ [x]).length = p + 1 := by
    simp only [List.length_append, List.length_take, List.length_replicate, List.length_cons, List.length_nil]
    omega
  have hlen : p + 1 ≤ (overwrite c p [x]).length := by
    rw [length_overwrite (List.cons_ne_nil x [])]
    exact Nat.le_max_right _ _
  by_cases hl : l = []
  · subst hl
    rw [overwrite, if_pos rfl]
  · rw [overwrite, if_neg hl, Nat.sub_eq_zero_of_le hlen, List.replicate_zero, List.append_nil, hx,
      List.take_left' hpad, ← List.drop_drop, List.drop_left' hpad, List.drop_drop, overwrite,
      if_neg (List.cons_ne_nil x l), List.length_cons]
    simp only [List.append_assoc, List.cons_append, List.nil_append]
    congr 4
    omega

theorem writeLoop_zero {fuel : Nat} (hfuel : 0 < fuel) (d : Word) (c : List Byte) (p : Nat) :
    writeLoop fuel (BitVec.ofNat 32 0) d c p = some c := by
  cases fuel with
  | zero => exact absurd hfuel (Nat.lt_irrefl 0)
  | succ fuel => rfl

theorem overwrite_start {l : List Byte} (hl : l ≠ []) (c : List Byte) : overwrite c 0 l = l ++ c.drop l.length := by
  rw [overwrite, if_neg hl, List.take_zero, List.nil_append, Nat.zero_add]

/-- One digit. -/
theorem writeLoop_step {k n : Nat} (hk : k < 10) (h0 : n ≠ 0) (h31 : n < 2 ^ 31) (fuel : Nat) (c : List Byte)
    (p : Nat) :
    writeLoop (fuel + 1) (BitVec.ofNat 32 n) (BitVec.ofNat 32 (10 ^ k)) c p =
      writeLoop fuel (BitVec.ofNat 32 (n % 10 ^ k)) (BitVec.ofNat 32 (10 ^ k / 10))
        (overwrite c p [digit (n / 10 ^ k)]) (p + 1) := by
  have hpow : 10 ^ k < 2 ^ 31 :=
    Nat.lt_of_le_of_lt (Nat.pow_le_pow_right (by omega) (show k ≤ 9 by omega)) (by omega)
  have hslt : (0 : Word).slt (BitVec.ofNat 32 n) = true := by
    have := slt_ofNat (show 0 < 2 ^ 31 by omega) h31
    exact this.trans (decide_eq_true (Nat.pos_of_ne_zero h0))
  have hten : (BitVec.ofNat 32 (10 ^ k)).sdiv 10 = BitVec.ofNat 32 (10 ^ k / 10) := sdiv_ofNat hpow (by decide)
  have hdigit : (48 + BitVec.ofNat 32 (n / 10 ^ k)).setWidth 8 = digit (n / 10 ^ k) := by
    have hadd : 48 + BitVec.ofNat 32 (n / 10 ^ k) = BitVec.ofNat 32 (48 + n / 10 ^ k) := (BitVec.ofNat_add 48 _).symm
    rw [hadd, BitVec.setWidth_ofNat_of_le (by omega), digit]
  rw [writeLoop, if_pos hslt, if_neg (ofNat_ne_zero (pow_ten_pos k) hpow), srem_ofNat h31 hpow, sdiv_ofNat h31 hpow, hten, hdigit]

/-- **The loop that writes** puts the digits at its position, and ends. -/
theorem writeLoop_eq {fuel k n : Nat} (hfuel : k + 1 < fuel) (hk : k < 10) (hn : n < 10 ^ (k + 1)) (h31 : n < 2 ^ 31)
    (c : List Byte) (p : Nat) :
    writeLoop fuel (BitVec.ofNat 32 n) (BitVec.ofNat 32 (10 ^ k)) c p = some (overwrite c p (leading k n)) := by
  induction k generalizing fuel n c p with
  | zero =>
    by_cases h0 : n = 0
    · subst h0
      rw [writeLoop_zero (by omega), leading_zero, overwrite, if_pos rfl]
    · obtain ⟨fuel, rfl⟩ : ∃ m, fuel = m + 1 := ⟨fuel - 1, by omega⟩
      rw [writeLoop_step hk h0 h31, Nat.pow_zero, Nat.mod_one, Nat.div_one, writeLoop_zero (by omega), leading,
        if_neg h0]
  | succ k ih =>
    by_cases h0 : n = 0
    · subst h0
      rw [writeLoop_zero (by omega), leading_zero, overwrite, if_pos rfl]
    · obtain ⟨fuel, rfl⟩ : ∃ m, fuel = m + 1 := ⟨fuel - 1, by omega⟩
      have hrest : n % 10 ^ (k + 1) < 10 ^ (k + 1) := Nat.mod_lt _ (pow_ten_pos _)
      have hten : 10 ^ (k + 1) / 10 = 10 ^ k := by
        rw [Nat.pow_succ, Nat.mul_div_cancel _ (by omega)]
      rw [writeLoop_step hk h0 h31, hten,
        ih (by omega) (by omega) hrest (Nat.lt_of_le_of_lt (Nat.mod_le _ _) h31), overwrite_cons, leading, if_neg h0]

/-- **The total is written**: the digits of a positive `int`. -/
theorem writeNumber_eq {n : Nat} (h0 : 0 < n) (h31 : n < 2 ^ 31) (c : List Byte) :
    ∃ k, writeNumber (BitVec.ofNat 32 n) c = some (overwrite c 0 (leading k n)) ∧ 10 ^ k ≤ n ∧ n < 10 ^ (k + 1) := by
  obtain ⟨k, hscale, hlo, hhi⟩ := scaleLoop_eq 1 h0 (Nat.lt_trans h31 (show 2 ^ 31 < 10 ^ 32 by decide)) h31
  have hk : k < 10 := by
    apply (Nat.pow_lt_pow_iff_right (show 1 < 10 by omega)).1
    exact Nat.lt_of_le_of_lt hlo (Nat.lt_trans h31 (show 2 ^ 31 < 10 ^ 10 by omega))
  refine ⟨k, ?_, hlo, hhi⟩
  rw [writeNumber, if_neg (ofNat_ne_zero h0 h31), show (1 : Word) = BitVec.ofNat 32 1 from rfl, hscale, Option.bind_some, Nat.one_mul]
  exact writeLoop_eq (by omega) hk hhi h31 c 0

/-- **The loops end**, for every `int`. -/
theorem writeNumber_isSome (n : Word) (c : List Byte) : ∃ c', writeNumber n c = some c' := by
  by_cases hpos : 0 < n.toInt
  · obtain ⟨m, hm, rfl⟩ := exists_ofNat (Int.le_of_lt hpos)
    rw [CInt.toInt_ofNat hm] at hpos
    obtain ⟨k, hrun, -⟩ := writeNumber_eq (show 0 < m by omega) hm c
    exact ⟨_, hrun⟩
  · unfold writeNumber
    split
    · exact ⟨_, rfl⟩
    · -- neither loop makes a round
      have h9 : (9 : Word).slt n = false := by
        rw [BitVec.slt_eq_decide, decide_eq_false_iff_not]
        show ¬ (9 : Int) < n.toInt
        omega
      have h0 : (0 : Word).slt n = false := by
        rw [BitVec.slt_eq_decide, decide_eq_false_iff_not]
        exact hpos
      rw [scaleLoop, h9, if_neg Bool.false_ne_true, Option.bind_some, writeLoop, h0, if_neg Bool.false_ne_true]
      exact ⟨c, rfl⟩

/-! ## The files -/

/-- A file that holds the total `g`: its numeral.  `trailing` is what the loop that writes needs of
the digits that are left behind it. -/
structure Holds (c : List Byte) (g : Nat) : Prop where
  digits : ∀ x ∈ c, IsDigit x
  value : valueFrom 0 c = g
  bounded : g < 2 ^ 31
  short : ∀ k, g < 10 ^ (k + 1) → c.length ≤ k + 1
  trailing : c.length ≤ 1 ∨ g % 10 ≠ 0

theorem holds_zero : Holds [48] 0 where
  digits := by decide
  value := rfl
  bounded := by omega
  short _ _ := Nat.succ_le_succ (Nat.zero_le _)
  trailing := .inl (Nat.le_refl 1)

/-- The total is read back. -/
theorem Holds.read {c : List Byte} {g : Nat} (h : Holds c g) : readNumber 0 c = BitVec.ofNat 32 g := by
  rw [← h.value]
  exact readNumber_eq h.digits 0

/-- A total that survives takes the place of the last one. -/
theorem Holds.written {c : List Byte} {g t k : Nat} (h : Holds c g) (hgt : g < t) (hkeeps : Keeps t)
    (hlo : 10 ^ k ≤ t) (hhi : t < 10 ^ (k + 1)) : Holds (overwrite c 0 (leading k t)) t := by
  obtain ⟨z, hlen, hval⟩ := leading_spec hhi
  -- no zero is left away, so that all digits of the last total are overwritten
  have hz : z = 0 := by
    rcases Nat.eq_zero_or_pos z with hz | hz
    · exact hz
    · refine absurd (Nat.dvd_trans (dvd_pow_self 10 (Nat.ne_of_gt hz)) ?_) hkeeps.2
      exact ⟨_, (Nat.mul_comm _ _).symm.trans hval |>.symm⟩
  subst hz
  have hover : overwrite c 0 (leading k t) = leading k t := by
    have hne : leading k t ≠ [] := by
      intro hnil
      rw [hnil] at hlen
      exact absurd hlen (by simp)
    have hold := h.short k (Nat.lt_trans hgt hhi)
    rw [overwrite_start hne, List.drop_eq_nil_of_le (by omega), List.append_nil]
  rw [hover]
  exact
    { digits := isDigit_of_mem_leading hhi
      value := (Nat.mul_one _).symm.trans hval
      bounded := hkeeps.1
      short := by
        intro j hj
        have := (Nat.pow_lt_pow_iff_right (show 1 < 10 by omega)).1 (Nat.lt_of_le_of_lt hlo hj)
        omega
      trailing := .inr fun hmod => hkeeps.2 (Nat.dvd_of_mod_eq_zero hmod) }

/-- The last digit of what follows is the last digit of the number. -/
theorem valueFrom_mod {n : Nat} {l : List Byte} (hl : l ≠ []) : valueFrom n l % 10 = valueFrom 0 l % 10 := by
  cases l with
  | nil => exact absurd rfl hl
  | cons c l =>
    have hpow : 10 ^ (c :: l).length = 10 ^ l.length * 10 := Nat.pow_succ 10 l.length
    rw [valueFrom_eq n, hpow, ← Nat.mul_assoc, Nat.mul_add_mod_self_right]

/-- **A total that ends in zero is lost**: what is read back does not end in zero. -/
theorem Holds.lost {c : List Byte} {g t k : Nat} (h : Holds c g) (hgt : g < t) (h31 : t < 2 ^ 31) (hten : 10 ∣ t)
    (hlo : 10 ^ k ≤ t) (hhi : t < 10 ^ (k + 1)) :
    (readNumber 0 (overwrite c 0 (leading k t))).toInt ≠ t := by
  obtain ⟨z, hlen, hval⟩ := leading_spec hhi
  have hmod := leading_mod hhi (Nat.ne_of_gt (Nat.zero_lt_of_lt hgt))
  have hne : leading k t ≠ [] := by
    intro hnil
    rw [hnil] at hmod
    exact absurd rfl hmod
  have hpos := List.length_pos_of_ne_nil hne
  have hold := h.short k (Nat.lt_trans hgt hhi)
  have hdigits : ∀ x ∈ leading k t ++ c.drop (leading k t).length, IsDigit x := by
    intro x hx
    rcases List.mem_append.1 hx with hx | hx
    · exact isDigit_of_mem_leading hhi x hx
    · exact h.digits x (List.mem_of_mem_drop hx)
  have hread := readNumber_eq hdigits 0
  -- what is read is less than twice the total
  have hbound : valueFrom 0 (leading k t ++ c.drop (leading k t).length) < 2 ^ 32 := by
    have hrest : (c.drop (leading k t).length).length ≤ z := by
      rw [List.length_drop]
      omega
    have hz : 10 ^ z ≤ t := Nat.le_trans (Nat.pow_le_pow_right (by omega) (by omega)) hlo
    rw [valueFrom_append]
    calc valueFrom (valueFrom 0 (leading k t)) (c.drop (leading k t).length)
        < (valueFrom 0 (leading k t) + 1) * 10 ^ (c.drop (leading k t).length).length :=
          valueFrom_lt (fun x hx => h.digits x (List.mem_of_mem_drop hx)) _
      _ ≤ (valueFrom 0 (leading k t) + 1) * 10 ^ z :=
          Nat.mul_le_mul_left _ (Nat.pow_le_pow_right (by omega) hrest)
      _ = t + 10 ^ z := by rw [Nat.add_mul, hval, Nat.one_mul]
      _ ≤ 2 ^ 32 := by omega
  have hlast : valueFrom 0 (leading k t ++ c.drop (leading k t).length) % 10 ≠ 0 := by
    rw [valueFrom_append]
    by_cases hrest : c.drop (leading k t).length = []
    · rw [hrest]
      exact hmod
    · -- the last digit is the one of the last total
      have hsplit : valueFrom 0 (c.take (leading k t).length ++ c.drop (leading k t).length) = g := by
        rw [List.take_append_drop]
        exact h.value
      have hlong := List.length_pos_of_ne_nil hrest
      rw [List.length_drop] at hlong
      rw [valueFrom_append] at hsplit
      rw [valueFrom_mod hrest, ← valueFrom_mod hrest (n := valueFrom 0 (c.take (leading k t).length)), hsplit]
      exact h.trailing.resolve_left (by omega)
  rw [overwrite_start hne]
  intro heq
  apply hlast
  rw [show (0 : Word) = BitVec.ofNat 32 0 from rfl, hread] at heq
  by_cases hsmall : valueFrom 0 (leading k t ++ c.drop (leading k t).length) < 2 ^ 31
  · rw [CInt.toInt_ofNat hsmall] at heq
    omega
  · rw [toInt_wrapped (by omega) hbound] at heq
    omega

/-- **One write.**  The new total can be read back iff it survives, and then the file holds it. -/
theorem Holds.write {c c' : List Byte} {g a : Nat} (h : Holds c g) (ha : 0 < a)
    (hrun : writeNumber (BitVec.ofNat 32 g + BitVec.ofNat 32 a) c = some c') :
    if Keeps (g + a) then Holds c' (g + a) else (readNumber 0 c').toInt ≠ (g + a : Nat) := by
  rw [← BitVec.ofNat_add] at hrun
  by_cases h31 : g + a < 2 ^ 31
  · obtain ⟨k, heq, hlo, hhi⟩ := writeNumber_eq (show 0 < g + a by omega) h31 c
    rw [heq, Option.some.injEq] at hrun
    rw [← hrun]
    split
    · rename_i hkeeps
      exact h.written (by omega) hkeeps hlo hhi
    · rename_i hkeeps
      exact h.lost (by omega) h31 (not_not.1 fun hten => hkeeps ⟨h31, hten⟩) hlo hhi
  · -- no `int` is so large
    rw [if_neg fun hkeeps => h31 hkeeps.1]
    have := @BitVec.toInt_lt 32 (readNumber 0 c')
    omega

/-! ## Turns that are balanced -/

/-- A turn reads the two totals back; with the amount it serves, one of them is written again. -/
theorem turn_spec {s : Files} {g₁ g₂ : Nat} (h₁ : Holds s.first g₁) (h₂ : Holds s.second g₂) {require : List Byte}
    (hdigits : ∀ c ∈ require, IsDigit c) (hwraps : ¬ 2 ^ 32 ∣ valueFrom 0 require) :
    ∃ c', turn s require =
        some (⟨BitVec.ofNat 32 g₁, BitVec.ofNat 32 g₂, if g₁ ≤ g₂ then [49] else [50]⟩,
          if g₁ ≤ g₂ then { s with first := c' } else { s with second := c' }) ∧
      if g₁ ≤ g₂ then writeNumber (BitVec.ofNat 32 g₁ + BitVec.ofNat 32 (valueFrom 0 require)) s.first = some c'
      else writeNumber (BitVec.ofNat 32 g₂ + BitVec.ofNat 32 (valueFrom 0 require)) s.second = some c' := by
  have hread : readNumber 0 require = BitVec.ofNat 32 (valueFrom 0 require) := readNumber_eq hdigits 0
  have hle : (BitVec.ofNat 32 g₁).sle (BitVec.ofNat 32 g₂) = decide (g₁ ≤ g₂) := sle_ofNat h₁.bounded h₂.bounded
  unfold turn
  rw [hread, if_neg (mt ofNat_eq_zero_iff.1 hwraps), h₁.read, h₂.read, hle]
  by_cases hchoice : g₁ ≤ g₂
  · obtain ⟨c', hrun⟩ := writeNumber_isSome (BitVec.ofNat 32 g₁ + BitVec.ofNat 32 (valueFrom 0 require)) s.first
    refine ⟨c', ?_, by rw [if_pos hchoice]; exact hrun⟩
    rw [if_pos (decide_eq_true hchoice), hrun, Option.map_some, if_pos hchoice, if_pos hchoice]
    rfl
  · obtain ⟨c', hrun⟩ := writeNumber_isSome (BitVec.ofNat 32 g₂ + BitVec.ofNat 32 (valueFrom 0 require)) s.second
    refine ⟨c', ?_, by rw [if_neg hchoice]; exact hrun⟩
    rw [if_neg (by rw [decide_eq_true_eq]; exact hchoice), hrun, Option.map_some, if_neg hchoice, if_neg hchoice]
    rfl

/-- An amount that is a multiple of `2 ^ 32` is taken for 0. -/
theorem turn_eq_none (s : Files) {require : List Byte} (hdigits : ∀ c ∈ require, IsDigit c)
    (hwraps : 2 ^ 32 ∣ valueFrom 0 require) : turn s require = none := by
  have hread : readNumber 0 require = BitVec.ofNat 32 (valueFrom 0 require) := readNumber_eq hdigits 0
  rw [turn, if_pos (hread.trans (ofNat_eq_zero_iff.2 hwraps))]

/-- In a balanced run the next turn reads the totals back. -/
theorem Balanced.reads {s : Files} {g₁ g₂ a : Nat} {amounts : List Nat} {require : List Byte}
    {requires : List (List Byte)} (h : Balanced g₁ g₂ (a :: amounts) (serve s (require :: requires))) :
    (readNumber 0 s.first).toInt = g₁ ∧ (readNumber 0 s.second).toInt = g₂ := by
  have hturn : ∀ r, turn s require = some r → r.1.first = readNumber 0 s.first ∧ r.1.second = readNumber 0 s.second := by
    intro r hr
    unfold turn at hr
    split at hr
    · exact absurd hr (by simp)
    · split at hr
      · obtain ⟨c, -, rfl⟩ := Option.map_eq_some_iff.1 hr
        exact ⟨rfl, rfl⟩
      · obtain ⟨c, -, rfl⟩ := Option.map_eq_some_iff.1 hr
        exact ⟨rfl, rfl⟩
  rw [serve] at h
  split at h
  · exact h.elim
  · rename_i t s' heq
    obtain ⟨hfirst, hsecond⟩ := hturn _ heq
    rw [← hfirst, ← hsecond]
    exact h.1

theorem sound_singleton (g₁ g₂ a : Nat) : Sound g₁ g₂ [a] ↔ ¬ 2 ^ 32 ∣ a := by
  have hlen : (totals g₁ g₂ [a]).dropLast = [] := by
    unfold totals
    split <;> rfl
  rw [Sound, hlen, List.getLast?_singleton]
  simp

theorem sound_cons (g₁ g₂ a b : Nat) (amounts : List Nat) : Sound g₁ g₂ (a :: b :: amounts) ↔
    if g₁ ≤ g₂ then Keeps (g₁ + a) ∧ Sound (g₁ + a) g₂ (b :: amounts)
    else Keeps (g₂ + a) ∧ Sound g₁ (g₂ + a) (b :: amounts) := by
  have hne : ∀ g g', totals g g' (b :: amounts) ≠ [] := by
    intro g g'
    unfold totals
    split
    · exact List.cons_ne_nil _ _
    · exact List.cons_ne_nil _ _
  rw [Sound, totals, List.getLast?_cons_cons]
  split
  · rw [List.dropLast_cons_of_ne_nil (hne _ _), List.forall_mem_cons, and_assoc]
    rfl
  · rw [List.dropLast_cons_of_ne_nil (hne _ _), List.forall_mem_cons, and_assoc]
    rfl

/-- **The run.**  From files that hold what was given, by induction on the turns. -/
theorem Balanced.iff_sound {requires : List (List Byte)} (hdigits : ∀ r ∈ requires, ∀ c ∈ r, IsDigit c)
    (hpos : ∀ r ∈ requires, 0 < valueFrom 0 r) {s : Files} {g₁ g₂ : Nat} (h₁ : Holds s.first g₁)
    (h₂ : Holds s.second g₂) :
    Balanced g₁ g₂ (requires.map (valueFrom 0)) (serve s requires) ↔ Sound g₁ g₂ (requires.map (valueFrom 0)) := by
  induction requires generalizing s g₁ g₂ with
  | nil => exact iff_of_true trivial ⟨by simp [totals], by simp⟩
  | cons require requires ih =>
    have hr := hdigits require List.mem_cons_self
    have ha := hpos require List.mem_cons_self
    have ih := @ih (fun r hr => hdigits r (List.mem_cons_of_mem _ hr)) (fun r hr => hpos r (List.mem_cons_of_mem _ hr))
    by_cases hwraps : 2 ^ 32 ∣ valueFrom 0 require
    · -- the loop is left, in the middle of the run or at its end
      have hlarge := Nat.le_of_dvd ha hwraps
      rw [serve, turn_eq_none s hr hwraps]
      apply iff_of_false (fun h => h)
      cases requires with
      | nil =>
        rw [List.map_cons, List.map_nil, sound_singleton]
        exact not_not.2 hwraps
      | cons b requires =>
        rw [List.map_cons, List.map_cons, sound_cons]
        split
        · exact fun h => absurd h.1.1 (by omega)
        · exact fun h => absurd h.1.1 (by omega)
    · obtain ⟨c', hturn, hwrite⟩ := turn_spec h₁ h₂ hr hwraps
      have hfirst := CInt.toInt_ofNat h₁.bounded
      have hsecond := CInt.toInt_ofNat h₂.bounded
      rw [serve, hturn, List.map_cons]
      split at hwrite
      · rename_i hchoice
        simp only [Balanced, if_pos hchoice, if_pos, hfirst, hsecond, true_and]
        have hfile := h₁.write ha hwrite
        cases requires with
        | nil => exact iff_of_true trivial ((sound_singleton _ _ _).2 hwraps)
        | cons b requires =>
          rw [List.map_cons, sound_cons, if_pos hchoice]
          split at hfile
          · rename_i hkeeps
            exact (ih (s := { s with first := c' }) hfile h₂).trans (iff_and_self.2 fun _ => hkeeps)
          · rename_i hkeeps
            exact iff_of_false (fun h => hfile h.reads.1) fun h => hkeeps h.1
      · rename_i hchoice
        simp only [Balanced, if_neg hchoice, hfirst, hsecond, true_and]
        have hfile := h₂.write ha hwrite
        cases requires with
        | nil => exact iff_of_true trivial ((sound_singleton _ _ _).2 hwraps)
        | cons b requires =>
          rw [List.map_cons, sound_cons, if_neg hchoice]
          split at hfile
          · rename_i hkeeps
            exact (ih (s := { s with second := c' }) h₁ hfile).trans (iff_and_self.2 fun _ => hkeeps)
          · rename_i hkeeps
            exact iff_of_false (fun h => hfile h.reads.2) fun h => hkeeps h.1

end Voinuoc

open Voinuoc

/-- **The taps are balanced**: from files that contain 0, the totals that are read back are what was
given, and the tap with the smaller one serves, exactly if every total but the last is below `2 ^ 31`
and does not end in zero. -/
theorem water_taps {requires : List (List Byte)} (hdigits : ∀ r ∈ requires, ∀ c ∈ r, IsDigit c)
    (hpos : ∀ r ∈ requires, 0 < valueFrom 0 r) :
    Balanced 0 0 (requires.map (valueFrom 0)) (serve ⟨[48], [48]⟩ requires) ↔
      Sound 0 0 (requires.map (valueFrom 0)) :=
  Balanced.iff_sound hdigits hpos holds_zero holds_zero

theorem water_taps_numerals : Balanced 0 0 [7, 15, 8] (serve ⟨[48], [48]⟩ [[55], [49, 53], [48, 56]]) :=
  (@water_taps [[55], [49, 53], [48, 56]] (by decide) (by decide)).2
    ⟨by decide, by decide⟩

/-- After 10, the file contains 1. -/
theorem water_taps_lost : (∀ r ∈ [[49, 48], [53]], (∀ c ∈ r, IsDigit c) ∧ 0 < valueFrom 0 r) ∧
    ¬ Balanced 0 0 ([[49, 48], [53]].map (valueFrom 0)) (serve ⟨[48], [48]⟩ [[49, 48], [53]]) := by
  refine ⟨by decide, ?_⟩
  have hturns : serve ⟨[48], [48]⟩ [[49, 48], [53]] = [⟨0, 0, [49]⟩, ⟨1, 0, [50]⟩] := by decide
  rw [hturns]
  rintro ⟨-, -, h⟩
  rw [if_pos rfl] at h
  exact absurd h.1.1 (by decide)

end Nachos
