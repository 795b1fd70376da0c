import Nachos.Machine.MipsSim

/-!
# Multiplication

`Mult` of `machine/mipssim.cc` on double words: the loop adds the shifted second operand for every bit
of the first one, modulo 2^64.

* `multLoop_append` — what the loop adds up, for any number of bits.
* `mult_exact` — the signed and the unsigned product.
-/

set_option autoImplicit false

namespace Nachos

/-! ## Double words -/

theorem toNat_append_word (hi lo : Word) : (hi ++ lo).toNat = hi.toNat * 2 ^ 32 + lo.toNat := by
  rw [BitVec.toNat_append, Nat.shiftLeft_eq, Nat.mul_comm, Nat.two_pow_add_eq_or_of_lt lo.isLt]

/-- The carry of the low words goes into the high ones. -/
theorem append_add (hi lo bHi bLo : Word) :
    ((if lo + bLo < bLo then hi + 1 else hi) + bHi) ++ (lo + bLo) = (hi ++ lo) + (bHi ++ bLo) := by
  apply BitVec.eq_of_toNat_eq
  have hlo := lo.isLt
  have hbLo := bLo.isLt
  split
  · rename_i hcarry
    rw [BitVec.lt_def, BitVec.toNat_add] at hcarry
    simp only [toNat_append_word, BitVec.toNat_add, show (1 : Word).toNat = 1 from rfl]
    omega
  · rename_i hcarry
    rw [BitVec.lt_def, BitVec.toNat_add] at hcarry
    simp only [toNat_append_word, BitVec.toNat_add]
    omega

theorem and_sign_ne_zero (x : Word) : x &&& 0x80000000 ≠ 0 ↔ 2 ^ 31 ≤ x.toNat := by
  show x &&& BitVec.twoPow 32 31 ≠ 0 ↔ _
  rw [BitVec.and_twoPow, ← BitVec.msb_eq_getLsbD_last, BitVec.msb_eq_decide]
  simp

/-- The top bit of the low word goes into the high one. -/
theorem append_double (bHi bLo : Word) :
    (if bLo &&& 0x80000000 ≠ 0 then bHi <<< 1 ||| 1 else bHi <<< 1) ++ (bLo <<< 1) = (bHi ++ bLo) + (bHi ++ bLo) := by
  apply BitVec.eq_of_toNat_eq
  have hbLo := bLo.isLt
  have hor : (bHi <<< 1 ||| 1).toNat = bHi.toNat * 2 % 2 ^ 32 + 1 := by
    have hdouble : bHi.toNat * 2 % 2 ^ 32 = 2 ^ 1 * (bHi.toNat % 2 ^ 31) := by omega
    rw [BitVec.toNat_or, BitVec.toNat_shiftLeft, Nat.shiftLeft_eq, Nat.pow_one, hdouble,
      Nat.two_pow_add_eq_or_of_lt (by decide)]
    rfl
  split
  · rename_i htop
    rw [and_sign_ne_zero] at htop
    simp only [toNat_append_word, BitVec.toNat_add, hor, BitVec.toNat_shiftLeft, Nat.shiftLeft_eq]
    omega
  · rename_i htop
    rw [and_sign_ne_zero] at htop
    simp only [toNat_append_word, BitVec.toNat_add, BitVec.toNat_shiftLeft, Nat.shiftLeft_eq]
    omega

theorem append_neg (hi lo : Word) :
    (if ~~~lo + 1 = 0 then ~~~hi + 1 else ~~~hi) ++ (~~~lo + 1) = -(hi ++ lo) := by
  apply BitVec.eq_of_toNat_eq
  have hlo := lo.isLt
  have hhi := hi.isLt
  have hneg : ∀ x : Word, ~~~x + 1 = -x := fun x => (BitVec.neg_eq_not_add x).symm
  simp only [hneg]
  split
  · rename_i hzero
    obtain rfl : lo = 0 := BitVec.neg_eq_zero_iff.mp hzero
    simp only [toNat_append_word, BitVec.toNat_neg, show (0 : Word).toNat = 0 from rfl]
    omega
  · rename_i hzero
    have hpos : lo.toNat ≠ 0 := fun h => hzero (BitVec.neg_eq_zero_iff.mpr (BitVec.eq_of_toNat_eq h))
    simp only [toNat_append_word, BitVec.toNat_neg, BitVec.toNat_not]
    omega

/-! ## The loop -/

theorem and_one_ne_zero (a : Word) : a &&& 1 ≠ 0 ↔ a.toNat % 2 = 1 := by
  rw [ne_eq, ← BitVec.toNat_inj, BitVec.toNat_and, show (1 : Word).toNat = 2 ^ 1 - 1 from rfl,
    Nat.and_two_pow_sub_one_eq_mod]
  simp

/-- The arithmetic shift brings in nothing below bit 31. -/
theorem sshiftRight_one_mod (a : Word) {n : Nat} (hn : n ≤ 31) :
    (a.sshiftRight 1).toNat % 2 ^ n = a.toNat / 2 % 2 ^ n := by
  apply Nat.eq_of_testBit_eq
  intro i
  rw [Nat.testBit_mod_two_pow, Nat.testBit_mod_two_pow, Nat.testBit_div_two]
  by_cases hi : i < n
  · have hbit := BitVec.getLsbD_sshiftRight (x := a) (s := 1) (i := i)
    rw [if_pos (by omega), Nat.add_comm] at hbit
    rw [show (a.sshiftRight 1).toNat.testBit i = (a.sshiftRight 1).getLsbD i from rfl, hbit]
    simp [hi, show i < 32 by omega, BitVec.getLsbD]
  · simp [hi]

/-- `a & 0xfffffffe` is 0 when no bit is left. -/
theorem div_two_eq_zero {a : Word} (h : a &&& 0xfffffffe = 0) : a.toNat / 2 = 0 := by
  have hmask : (0xfffffffe : Word) = BitVec.allOnes 32 <<< (1 : Nat) := rfl
  apply Nat.eq_of_testBit_eq
  intro i
  have hbit := congrArg (fun x : Word => x.getLsbD (i + 1)) h
  simp only [hmask, BitVec.getLsbD_and, BitVec.getLsbD_shiftLeft, BitVec.getLsbD_allOnes] at hbit
  rw [Nat.testBit_div_two, Nat.zero_testBit]
  by_cases hi : i + 1 < 32
  · show a.getLsbD (i + 1) = false
    simpa [hi, show i < 32 by omega] using hbit
  · exact BitVec.getLsbD_of_ge a (i + 1) (by omega)

/-- **The loop adds the product of the low `n` bits of `a` and `b`** to `hi` and `lo`. -/
theorem multLoop_append (n : Nat) (a bHi bLo hi lo : Word) (hn : n ≤ 32) :
    (multLoop n a bHi bLo hi lo).1 ++ (multLoop n a bHi bLo hi lo).2 =
      (hi ++ lo) + BitVec.ofNat 64 (a.toNat % 2 ^ n) * (bHi ++ bLo) := by
  induction n generalizing a bHi bLo hi lo with
  | zero => simp [multLoop, Nat.mod_one]
  | succ n ih =>
    have hsplit : a.toNat % 2 ^ (n + 1) = a.toNat % 2 + 2 * (a.toNat / 2 % 2 ^ n) := by
      rw [Nat.pow_succ', Nat.mod_mul]
    rw [hsplit, BitVec.ofNat_add, BitVec.ofNat_mul]
    have hrest := sshiftRight_one_mod a (show n ≤ 31 by omega)
    by_cases hbit : a &&& 1 ≠ 0
    · have hlow := (and_one_ne_zero a).mp hbit
      by_cases hstop : a &&& 0xfffffffe = 0
      · -- the bit was the last one
        have hloop : multLoop (n + 1) a bHi bLo hi lo =
            ((if lo + bLo < bLo then hi + 1 else hi) + bHi, lo + bLo) := by
          rw [multLoop, if_pos hbit]
          exact if_pos (decide_eq_true hstop)
        rw [hloop, append_add, hlow, div_two_eq_zero hstop]
        simp
      · have hloop : multLoop (n + 1) a bHi bLo hi lo =
            multLoop n (a.sshiftRight 1)
              (if bLo &&& 0x80000000 ≠ 0 then bHi <<< 1 ||| 1 else bHi <<< 1) (bLo <<< 1)
              ((if lo + bLo < bLo then hi + 1 else hi) + bHi) (lo + bLo) := by
          rw [multLoop, if_pos hbit]
          exact if_neg (by simpa using hstop)
        rw [hloop, ih _ _ _ _ _ (by omega), append_add, append_double, hrest, hlow]
        grind
    · have hlow : a.toNat % 2 = 0 := by
        rw [and_one_ne_zero] at hbit
        omega
      have hloop : multLoop (n + 1) a bHi bLo hi lo =
          multLoop n (a.sshiftRight 1)
            (if bLo &&& 0x80000000 ≠ 0 then bHi <<< 1 ||| 1 else bHi <<< 1) (bLo <<< 1) hi lo := by
        rw [multLoop, if_neg hbit]
        exact if_neg Bool.false_ne_true
      rw [hloop, ih _ _ _ _ _ (by omega), append_double, hrest, hlow]
      grind

/-! ## The product -/

/-- What `Mult` does once neither operand is 0 and the signs are off. -/
theorem multLoop_product (a b : Word) :
    (multLoop 32 a 0 b 0 0).1 ++ (multLoop 32 a 0 b 0 0).2 = BitVec.ofNat 64 (a.toNat * b.toNat) := by
  have hb : (0 : Word) ++ b = BitVec.ofNat 64 b.toNat := by
    apply BitVec.eq_of_toNat_eq
    rw [toNat_append_word, BitVec.toNat_ofNat, show (0 : Word).toNat = 0 from rfl]
    have := b.isLt
    omega
  rw [multLoop_append 32 a 0 b 0 0 (Nat.le_refl _), Nat.mod_eq_of_lt a.isLt, hb, BitVec.ofNat_mul]
  exact BitVec.zero_add _

/-- An operand with its sign taken off is its absolute value as an `unsigned int`: that of -2^31 too. -/
theorem toNat_neg_of_neg {a : Word} (h : a.toInt < 0) : (-a).toNat = a.toInt.natAbs := by
  rw [BitVec.toInt_eq_toNat_cond] at h ⊢
  have ha := a.isLt
  rw [BitVec.toNat_neg]
  split at h
  · omega
  · rename_i htop
    rw [if_neg htop]
    omega

theorem toNat_of_nonneg {a : Word} (h : ¬ a.toInt < 0) : a.toNat = a.toInt.natAbs := by
  rw [BitVec.toInt_eq_toNat_cond] at h ⊢
  have ha := a.isLt
  split at h
  · rename_i htop
    rw [if_pos htop]
    omega
  · omega

/-- The words that `Mult` gives the loop, and the sign it gives back to the result. -/
theorem mult_signed_eq {a b : Word} (h0 : ¬ (a = 0 ∨ b = 0)) :
    (mult a b true).1 ++ (mult a b true).2 =
      if (a.toInt < 0 ↔ b.toInt < 0) then BitVec.ofNat 64 (a.toInt.natAbs * b.toInt.natAbs)
      else -BitVec.ofNat 64 (a.toInt.natAbs * b.toInt.natAbs) := by
  rw [mult, if_neg h0]
  by_cases ha : a.toInt < 0
  · have hsa : true = true ∧ a.toInt < 0 := ⟨rfl, ha⟩
    rw [if_pos hsa, ← toNat_neg_of_neg ha]
    by_cases hb : b.toInt < 0
    · have hsb : true = true ∧ b.toInt < 0 := ⟨rfl, hb⟩
      have hsame : (a.toInt < 0 ↔ b.toInt < 0) := iff_of_true ha hb
      rw [if_pos hsame, ← toNat_neg_of_neg hb, ← multLoop_product]
      dsimp only
      rw [if_pos hsb]
      rfl
    · have hsb : ¬ (true = true ∧ b.toInt < 0) := fun h => hb h.2
      have hdiff : ¬ (a.toInt < 0 ↔ b.toInt < 0) := fun h => hb (h.mp ha)
      rw [if_neg hdiff, ← toNat_of_nonneg hb, ← multLoop_product]
      dsimp only
      rw [if_neg hsb]
      exact append_neg _ _
  · have hsa : ¬ (true = true ∧ a.toInt < 0) := fun h => ha h.2
    rw [if_neg hsa, ← toNat_of_nonneg ha]
    by_cases hb : b.toInt < 0
    · have hsb : true = true ∧ b.toInt < 0 := ⟨rfl, hb⟩
      have hdiff : ¬ (a.toInt < 0 ↔ b.toInt < 0) := fun h => ha (h.mpr hb)
      rw [if_neg hdiff, ← toNat_neg_of_neg hb, ← multLoop_product]
      dsimp only
      rw [if_pos hsb]
      exact append_neg _ _
    · have hsb : ¬ (true = true ∧ b.toInt < 0) := fun h => hb h.2
      have hsame : (a.toInt < 0 ↔ b.toInt < 0) := iff_of_false ha hb
      rw [if_pos hsame, ← toNat_of_nonneg hb, ← multLoop_product]
      dsimp only
      rw [if_neg hsb]
      rfl

theorem toInt_ofNat_product {p : Nat} (hp : p ≤ 2 ^ 62) :
    (BitVec.ofNat 64 p).toInt = p ∧ (-(BitVec.ofNat 64 p)).toInt = -(p : Int) := by
  have hofNat : (BitVec.ofNat 64 p).toInt = p := by
    rw [BitVec.toInt_eq_toNat_cond, BitVec.toNat_ofNat]
    omega
  refine ⟨hofNat, ?_⟩
  rw [BitVec.toInt_neg, hofNat]
  exact Int.bmod_eq_of_le (by omega) (by omega)

theorem natAbs_toInt_le (a : Word) : a.toInt.natAbs ≤ 2 ^ 31 := by
  have hlt := BitVec.toInt_lt (x := a)
  have hle := BitVec.le_toInt (x := a)
  omega

/-- **`Mult` computes the exact 64-bit product**, of signed and of unsigned operands. -/
theorem mult_exact (a b : Word) :
    ((mult a b true).1 ++ (mult a b true).2).toInt = a.toInt * b.toInt ∧
    ((mult a b false).1 ++ (mult a b false).2).toNat = a.toNat * b.toNat := by
  by_cases h0 : a = 0 ∨ b = 0
  · have hzero : ∀ signedArith, mult a b signedArith = (0, 0) := by
      intro signedArith
      unfold mult
      exact if_pos h0
    rw [hzero, hzero]
    rcases h0 with rfl | rfl
    · simp
    · simp
  · constructor
    · have hle : a.toInt.natAbs * b.toInt.natAbs ≤ 2 ^ 31 * 2 ^ 31 :=
        Nat.mul_le_mul (natAbs_toInt_le a) (natAbs_toInt_le b)
      obtain ⟨hpos, hneg⟩ := toInt_ofNat_product hle
      rw [mult_signed_eq h0]
      -- the sign of the product
      by_cases ha : a.toInt < 0
      · by_cases hb : b.toInt < 0
        · rw [if_pos (iff_of_true ha hb), hpos, Int.natCast_mul, Int.ofNat_natAbs_of_nonpos (by omega),
            Int.ofNat_natAbs_of_nonpos (by omega), Int.neg_mul_neg]
        · rw [if_neg (fun h => hb (h.mp ha)), hneg, Int.natCast_mul, Int.ofNat_natAbs_of_nonpos (by omega),
            Int.natAbs_of_nonneg (by omega), Int.neg_mul, Int.neg_neg]
      · by_cases hb : b.toInt < 0
        · rw [if_neg (fun h => ha (h.mpr hb)), hneg, Int.natCast_mul, Int.natAbs_of_nonneg (by omega),
            Int.ofNat_natAbs_of_nonpos (by omega), Int.mul_neg, Int.neg_neg]
        · rw [if_pos (iff_of_false ha hb), hpos, Int.natCast_mul, Int.natAbs_of_nonneg (by omega),
            Int.natAbs_of_nonneg (by omega)]
    · have hmult : mult a b false = multLoop 32 a 0 b 0 0 := by
        rw [mult, if_neg h0]
        rfl
      rw [hmult, multLoop_product, BitVec.toNat_ofNat]
      apply Nat.mod_eq_of_lt
      calc a.toNat * b.toNat < 2 ^ 32 * 2 ^ 32 := Nat.mul_lt_mul'' a.isLt b.isLt
        _ = 2 ^ 64 := rfl

end Nachos
