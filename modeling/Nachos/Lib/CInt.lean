import Mathlib.Algebra.Ring.Int.Defs
import Mathlib.Algebra.Ring.Nat
import Mathlib.Order.Basic

/-!
# Signed 32-bit arithmetic

A 32-bit `int` below `2^31` is a natural number; division, remainder and comparison of such
values are those of the natural numbers.  From `2^31` on it is negative: `toInt_wrapped`.
-/

set_option autoImplicit false

namespace CInt

theorem msb_ofNat {a : Nat} (h : a < 2 ^ 31) : (BitVec.ofNat 32 a).msb = false := by
  rw [BitVec.msb_eq_decide, BitVec.toNat_ofNat]
  simp only [decide_eq_false_iff_not]
  omega

theorem toNat_ofNat {a : Nat} (h : a < 2 ^ 31) : (BitVec.ofNat 32 a).toNat = a := by
  rw [BitVec.toNat_ofNat]
  omega

theorem toInt_ofNat {a : Nat} (h : a < 2 ^ 31) : (BitVec.ofNat 32 a).toInt = a := by
  rw [BitVec.toInt_eq_toNat_of_msb (msb_ofNat h), toNat_ofNat h]

/-- A non-negative `int` is a natural number. -/
theorem exists_ofNat {w : BitVec 32} (h : 0 ≤ w.toInt) : ∃ a < 2 ^ 31, w = BitVec.ofNat 32 a := by
  refine ⟨w.toNat, ?_, by simp⟩
  rw [BitVec.toInt_eq_toNat_cond] at h
  have := w.isLt
  split at h
  · omega
  · omega

theorem sdiv_ofNat {a b : Nat} (ha : a < 2 ^ 31) (hb : b < 2 ^ 31) :
    (BitVec.ofNat 32 a).sdiv (BitVec.ofNat 32 b) = BitVec.ofNat 32 (a / b) := by
  rw [BitVec.sdiv_eq, msb_ofNat ha, msb_ofNat hb]
  apply BitVec.eq_of_toNat_eq
  have hle := Nat.div_le_self a b
  simp only [BitVec.udiv_eq, BitVec.toNat_udiv]
  rw [toNat_ofNat ha, toNat_ofNat hb, toNat_ofNat (by omega)]

theorem srem_ofNat {a b : Nat} (ha : a < 2 ^ 31) (hb : b < 2 ^ 31) :
    (BitVec.ofNat 32 a).srem (BitVec.ofNat 32 b) = BitVec.ofNat 32 (a % b) := by
  rw [BitVec.srem_eq, msb_ofNat ha, msb_ofNat hb]
  apply BitVec.eq_of_toNat_eq
  have hle := Nat.mod_le a b
  simp only [BitVec.toNat_umod]
  rw [toNat_ofNat ha, toNat_ofNat hb, toNat_ofNat (by omega)]

theorem slt_ofNat {a b : Nat} (ha : a < 2 ^ 31) (hb : b < 2 ^ 31) :
    (BitVec.ofNat 32 a).slt (BitVec.ofNat 32 b) = decide (a < b) := by
  rw [BitVec.slt_eq_decide, toInt_ofNat ha, toInt_ofNat hb]
  simp

theorem sle_ofNat {a b : Nat} (ha : a < 2 ^ 31) (hb : b < 2 ^ 31) :
    (BitVec.ofNat 32 a).sle (BitVec.ofNat 32 b) = decide (a ≤ b) := by
  rw [BitVec.sle_eq_decide, toInt_ofNat ha, toInt_ofNat hb]
  simp

theorem beq_ofNat {a b : Nat} (ha : a < 2 ^ 31) (hb : b < 2 ^ 31) :
    (BitVec.ofNat 32 a == BitVec.ofNat 32 b) = decide (a = b) := by
  rw [Bool.eq_iff_iff, beq_iff_eq, decide_eq_true_iff, ← BitVec.toNat_inj, toNat_ofNat ha, toNat_ofNat hb]

/-- A number is taken for 0 if it is a multiple of `2 ^ 32`. -/
theorem ofNat_eq_zero_iff {a : Nat} : BitVec.ofNat 32 a = 0 ↔ 2 ^ 32 ∣ a := by
  rw [← BitVec.toNat_inj, BitVec.toNat_ofNat]
  exact (Nat.dvd_iff_mod_eq_zero).symm

theorem ofNat_ne_zero {a : Nat} (h0 : 0 < a) (h : a < 2 ^ 31) : BitVec.ofNat 32 a ≠ 0 := by
  intro hzero
  have hle := Nat.le_of_dvd h0 (ofNat_eq_zero_iff.1 hzero)
  omega

theorem sub_ofNat {a b : Nat} (hb : b < 2 ^ 31) (h : b ≤ a) :
    BitVec.ofNat 32 a - BitVec.ofNat 32 b = BitVec.ofNat 32 (a - b) :=
  BitVec.ofNat_sub_ofNat_of_le a b (by omega) h

/-! ## Negative values -/

theorem toInt_wrapped {m : Nat} (h1 : 2 ^ 31 ≤ m) (h2 : m < 2 ^ 32) : (BitVec.ofNat 32 m).toInt = m - 2 ^ 32 := by
  rw [BitVec.toInt_eq_toNat_cond, BitVec.toNat_ofNat, Nat.mod_eq_of_lt h2, if_neg (by omega)]
  rfl

/-- As an `unsigned` a negative value is large. -/
theorem le_toNat_of_neg {a : BitVec 32} (h : a.toInt < 0) : 2 ^ 31 ≤ a.toNat := by
  rw [BitVec.toInt_eq_toNat_cond] at h
  split at h
  · omega
  · omega

/-- A sum of non-negative values that is negative has overflowed. -/
theorem add_nonneg_iff {a : BitVec 32} {k : Nat} (ha : 0 ≤ a.toInt) (hk : k < 2 ^ 31) :
    0 ≤ (a + BitVec.ofNat 32 k).toInt ↔ a.toInt + k < 2 ^ 31 := by
  obtain ⟨m, hm, rfl⟩ := exists_ofNat ha
  rw [← BitVec.ofNat_add, toInt_ofNat hm]
  rcases Nat.lt_or_ge (m + k) (2 ^ 31) with hlt | hge
  · rw [toInt_ofNat hlt]
    omega
  · rw [toInt_wrapped hge (by omega)]
    omega

theorem toInt_sdiv_ofNat (a : BitVec 32) {b : Nat} (hb : 0 < b) (hb31 : b < 2 ^ 31) :
    (a.sdiv (BitVec.ofNat 32 b)).toInt = a.toInt.tdiv b := by
  have hint := toInt_ofNat hb31
  have hne : BitVec.ofNat 32 b ≠ -1#32 := by
    intro heq
    rw [heq] at hint
    have hminus : (-1#32).toInt = -1 := by decide
    omega
  rw [BitVec.toInt_sdiv_of_ne_or_ne _ _ (.inr hne), hint]

/-- The quotient is negative if the dividend is negative enough. -/
theorem tdiv_neg {m : Int} {b : Nat} (hb : 0 < b) (h : m ≤ -b) : m.tdiv b < 0 := by
  obtain ⟨k, rfl⟩ : ∃ k : Nat, m = -k := ⟨m.natAbs, by omega⟩
  have hpos := Nat.div_pos (show b ≤ k by omega) hb
  rw [Int.neg_tdiv, ← Int.ofNat_tdiv]
  omega

end CInt
