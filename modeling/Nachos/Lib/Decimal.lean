import Mathlib.Data.Nat.Digits.Lemmas

/-!
# Decimal numerals

Numerals as strings of characters: the canonical numeral of a number, on top of `Nat.digits`, and
the number that a string of digits denotes.

* `reversed_eq` — the digits come out by repeated division, the last one first.
* `length_numeral_le_iff` — how long a numeral is.
* `value_numeral`, `valueFrom_lt` — a numeral denotes its number; a bound for any digits.
* `Denotes` — blanks, perhaps a sign, and digits; `denotes_ofInt`: the numeral of an integer is of
  this form.
-/

set_option autoImplicit false

namespace Decimal

/-- The character of a digit. -/
def digit (d : Nat) : BitVec 8 := BitVec.ofNat 8 (48 + d)

/-- The digits of `n`, the last one first.  There is at least one. -/
def reversed (n : Nat) : List (BitVec 8) := if n = 0 then [digit 0] else (Nat.digits 10 n).map digit

/-- The numeral of `n`, without leading zeros. -/
def numeral (n : Nat) : List (BitVec 8) := (reversed n).reverse

/-- The numeral of an integer, with `'-'` in front if it is negative. -/
def ofInt (z : Int) : List (BitVec 8) := if z < 0 then 45 :: numeral z.natAbs else numeral z.natAbs

def IsDigit (c : BitVec 8) : Prop := 48 ≤ c.toNat ∧ c.toNat ≤ 57

instance (c : BitVec 8) : Decidable (IsDigit c) := inferInstanceAs (Decidable (_ ∧ _))

/-- A space or a tab. -/
def IsBlank (c : BitVec 8) : Prop := c = 32 ∨ c = 9

instance (c : BitVec 8) : Decidable (IsBlank c) := inferInstanceAs (Decidable (_ ∨ _))

/-- The number that is read when the digits `l` follow those of `n`. -/
def valueFrom (n : Nat) (l : List (BitVec 8)) : Nat := l.foldl (fun n c => n * 10 + (c.toNat - 48)) n

/-! ## Numerals -/

theorem toNat_digit {d : Nat} (h : d < 10) : (digit d).toNat = 48 + d := by
  rw [digit, BitVec.toNat_ofNat]
  omega

theorem isDigit_digit {d : Nat} (h : d < 10) : IsDigit (digit d) := by
  rw [IsDigit, toNat_digit h]
  omega

/-- **One division.** -/
theorem reversed_eq (n : Nat) : reversed n = digit (n % 10) :: if 0 < n / 10 then reversed (n / 10) else [] := by
  by_cases h0 : n = 0
  · subst h0
    rfl
  · rw [reversed, if_neg h0, Nat.digits_def' (by decide) (by omega), List.map_cons]
    split
    · rw [reversed, if_neg (by omega)]
    · rename_i hdiv
      rw [Nat.eq_zero_of_not_pos hdiv, Nat.digits_zero, List.map_nil]

theorem length_numeral_le_iff {n k : Nat} (hk : 0 < k) : (numeral n).length ≤ k ↔ n < 10 ^ k := by
  rw [numeral, List.length_reverse, reversed]
  split
  · rename_i h0
    subst h0
    exact iff_of_true hk (Nat.pow_pos (by decide))
  · rw [List.length_map]
    exact Nat.digits_length_le_iff (by decide) n

theorem numeral_ne_nil (n : Nat) : numeral n ≠ [] := by
  rw [numeral, reversed_eq, List.reverse_cons]
  simp

/-- A numeral has only digits. -/
theorem isDigit_of_mem_numeral {n : Nat} {c : BitVec 8} (h : c ∈ numeral n) : IsDigit c := by
  rw [numeral, List.mem_reverse, reversed] at h
  split at h
  · rw [List.mem_singleton.1 h]
    exact isDigit_digit (by decide)
  · obtain ⟨d, hd, rfl⟩ := List.mem_map.1 h
    exact isDigit_digit (Nat.digits_lt_base (by decide) hd)

/-! ## Values -/

theorem valueFrom_cons (n : Nat) (c : BitVec 8) (l : List (BitVec 8)) :
    valueFrom n (c :: l) = valueFrom (n * 10 + (c.toNat - 48)) l := by
  rw [valueFrom, valueFrom, List.foldl_cons]

theorem valueFrom_append (n : Nat) (l l' : List (BitVec 8)) :
    valueFrom n (l ++ l') = valueFrom (valueFrom n l) l' :=
  List.foldl_append

/-- The digits that follow are a number of their own. -/
theorem valueFrom_eq (n : Nat) (l : List (BitVec 8)) : valueFrom n l = n * 10 ^ l.length + valueFrom 0 l := by
  induction l generalizing n with
  | nil => exact (Nat.mul_one n).symm
  | cons c l ih =>
    rw [valueFrom_cons, valueFrom_cons, ih, ih (0 * 10 + _), List.length_cons, Nat.pow_succ']
    ring

/-- **A numeral denotes its number.** -/
theorem value_numeral (n : Nat) : valueFrom 0 (numeral n) = n := by
  induction n using Nat.strongRecOn with
  | ind n ih =>
    have hdigit := toNat_digit (Nat.mod_lt n (show 10 > 0 by decide))
    rw [numeral, reversed_eq, List.reverse_cons, valueFrom_append, valueFrom_cons, hdigit]
    split
    · have hrest := ih (n / 10) (by omega)
      rw [numeral] at hrest
      rw [hrest]
      show n / 10 * 10 + (48 + n % 10 - 48) = n
      omega
    · show 0 * 10 + (48 + n % 10 - 48) = n
      omega

/-- `k` more digits multiply a number by less than `10 ^ k`, rounded up. -/
theorem valueFrom_lt {l : List (BitVec 8)} (h : ∀ c ∈ l, IsDigit c) (n : Nat) :
    valueFrom n l < (n + 1) * 10 ^ l.length := by
  induction l generalizing n with
  | nil => exact Nat.lt_of_lt_of_eq (Nat.lt_succ_self n) (Nat.mul_one _).symm
  | cons c l ih =>
    have hc := (h c List.mem_cons_self).2
    have hrest := ih (fun x hx => h x (List.mem_cons_of_mem c hx)) (n * 10 + (c.toNat - 48))
    rw [valueFrom_cons, List.length_cons, Nat.pow_succ', ← Nat.mul_assoc]
    exact Nat.lt_of_lt_of_le hrest (Nat.mul_le_mul_right _ (by omega))

theorem exists_digit {c : BitVec 8} (h : IsDigit c) : ∃ d < 10, c = digit d := by
  obtain ⟨h1, h2⟩ := h
  refine ⟨c.toNat - 48, by omega, ?_⟩
  apply BitVec.eq_of_toNat_eq
  rw [toNat_digit (by omega)]
  omega

theorem IsDigit.not_blank {c : BitVec 8} (h : IsDigit c) : ¬ IsBlank c := by
  rintro (rfl | rfl)
  · exact absurd h (by decide)
  · exact absurd h (by decide)

/-! ## Lines -/

/-- Blanks, perhaps a `'-'`, and at least one digit, which together denote `z`. -/
inductive Denotes (line : List (BitVec 8)) : Int → Prop where
  | plain {blanks ds : List (BitVec 8)} (hb : ∀ c ∈ blanks, IsBlank c) (hne : ds ≠ []) (hd : ∀ c ∈ ds, IsDigit c)
      (hline : line = blanks ++ ds) : Denotes line (valueFrom 0 ds)
  | negative {blanks ds : List (BitVec 8)} (hb : ∀ c ∈ blanks, IsBlank c) (hne : ds ≠ []) (hd : ∀ c ∈ ds, IsDigit c)
      (hline : line = blanks ++ 45 :: ds) : Denotes line (-(valueFrom 0 ds : Int))

theorem denotes_ofInt (z : Int) : Denotes (ofInt z) z := by
  have hb : ∀ c ∈ ([] : List (BitVec 8)), IsBlank c := by simp
  have hd : ∀ c ∈ numeral z.natAbs, IsDigit c := fun c hc => isDigit_of_mem_numeral hc
  have hvalue := value_numeral z.natAbs
  rw [ofInt]
  split
  · have hneg : z = -(valueFrom 0 (numeral z.natAbs) : Int) := by omega
    nth_rewrite 2 [hneg]
    exact .negative hb (numeral_ne_nil _) hd rfl
  · have hpos : z = (valueFrom 0 (numeral z.natAbs) : Int) := by omega
    nth_rewrite 2 [hpos]
    exact .plain hb (numeral_ne_nil _) hd rfl

/-- A short line does not denote a large number. -/
theorem Denotes.natAbs_lt {line : List (BitVec 8)} {z : Int} (h : Denotes line z) {k : Nat} (hk : line.length ≤ k) :
    z.natAbs < 10 ^ k := by
  have hbound : ∀ ds : List (BitVec 8), (∀ c ∈ ds, IsDigit c) → ds.length ≤ line.length →
      valueFrom 0 ds < 10 ^ k := by
    intro ds hd hlen
    have hlt := valueFrom_lt hd 0
    rw [Nat.zero_add, Nat.one_mul] at hlt
    exact Nat.lt_of_lt_of_le hlt (Nat.pow_le_pow_right (by decide) (Nat.le_trans hlen hk))
  cases h with
  | plain hb hne hd hline =>
    rw [Int.natAbs_natCast]
    exact hbound _ hd (by rw [hline, List.length_append]; omega)
  | negative hb hne hd hline =>
    rw [Int.natAbs_neg, Int.natAbs_natCast]
    exact hbound _ hd (by rw [hline, List.length_append, List.length_cons]; omega)

end Decimal
