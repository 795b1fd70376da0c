import Mathlib.Logic.Function.Basic

/-!
# Zero-terminated strings

A `char *` is the function of the bytes at its offsets.  `str b k n` is the string at `&b[k]`,
cut off after `n` bytes: the bytes in front of the first zero.

* `strncmp_iff` — what `strncmp` compares.
* `strncmp_iff_str` — it compares the two strings, cut off.
* `str_apply` — a string ends in front of the first zero.
* `str_padded`, `str_strncpy` — a copy that is padded with zeros holds the same string.
-/

set_option autoImplicit false

namespace CString

/-- A zero-terminated string in memory. -/
def cstring (name : List (BitVec 8)) : Nat → BitVec 8 := fun k => (name.takeWhile (· ≠ 0)).getD k 0

/-- `!strncmp(&a[k], &b[k], n)`. -/
def strncmp (a b : Nat → BitVec 8) : Nat → Nat → Bool
  | _, 0 => true
  | k, n + 1 => if a k ≠ b k then false else if a k = 0 then true else strncmp a b (k + 1) n

theorem strncmp_iff (a b : Nat → BitVec 8) (k n : Nat) :
    strncmp a b k n = true ↔ ∀ j < n, (∀ i < j, a (k + i) ≠ 0) → a (k + j) = b (k + j) := by
  induction n generalizing k with
  | zero => simp [strncmp]
  | succ n ih =>
    rw [strncmp]
    by_cases hne : a k = b k
    · rw [if_neg (not_not.2 hne)]
      by_cases hzero : a k = 0
      · rw [if_pos hzero]
        refine ⟨fun _ j hj hnz => ?_, fun _ => rfl⟩
        cases j with
        | zero => exact hne
        | succ j => exact absurd hzero (hnz 0 (Nat.succ_pos j))
      · rw [if_neg hzero, ih]
        constructor
        · intro hall j hj hnz
          cases j with
          | zero => exact hne
          | succ j =>
            have hstep := hall j (Nat.lt_of_succ_lt_succ hj) (fun i hi => by
              have := hnz (i + 1) (Nat.succ_lt_succ hi)
              rwa [Nat.add_comm i 1, ← Nat.add_assoc] at this)
            rwa [Nat.add_comm j 1, ← Nat.add_assoc]
        · intro hall j hj hnz
          have hstep := hall (j + 1) (Nat.succ_lt_succ hj) (fun i hi => by
            cases i with
            | zero => exact hzero
            | succ i =>
              have := hnz i (Nat.lt_of_succ_lt_succ hi)
              rwa [Nat.add_comm i 1, ← Nat.add_assoc])
          rwa [Nat.add_comm j 1, ← Nat.add_assoc] at hstep
    · rw [if_pos hne]
      refine ⟨fun h => absurd h (by decide), fun hall => absurd (hall 0 (Nat.succ_pos n) ?_) hne⟩
      exact fun i hi => absurd hi (Nat.not_lt_zero i)

/-- Only the first `n` bytes matter. -/
theorem strncmp_congr {a a' b b' : Nat → BitVec 8} {n : Nat} (ha : ∀ k < n, a k = a' k) (hb : ∀ k < n, b k = b' k) :
    strncmp a b 0 n = strncmp a' b' 0 n := by
  rw [Bool.eq_iff_iff, strncmp_iff, strncmp_iff]
  simp only [Nat.zero_add]
  constructor
  · intro h j hj hnz
    rw [← ha j hj, ← hb j hj]
    exact h j hj (fun i hi => by rw [ha i (by omega)]; exact hnz i hi)
  · intro h j hj hnz
    rw [ha j hj, hb j hj]
    exact h j hj (fun i hi => by rw [← ha i (by omega)]; exact hnz i hi)

theorem strncmp_symm (a b : Nat → BitVec 8) (n : Nat) : strncmp a b 0 n = strncmp b a 0 n := by
  have hdir : ∀ a b : Nat → BitVec 8, strncmp a b 0 n = true → strncmp b a 0 n = true := by
    intro a b h
    rw [strncmp_iff] at h ⊢
    simp only [Nat.zero_add] at h ⊢
    intro j hj
    induction j using Nat.strongRecOn with
    | ind j ih =>
      intro hnz
      refine (h j hj ?_).symm
      intro i hi hzero
      have heq := ih i hi (by omega) (fun m hm => hnz m (by omega))
      exact hnz i hi (heq.trans hzero)
  rw [Bool.eq_iff_iff]
  exact ⟨hdir a b, hdir b a⟩

/-- The string at `&b[k]`, of at most `n` bytes. -/
def str (b : Nat → BitVec 8) : Nat → Nat → List (BitVec 8)
  | _, 0 => []
  | k, n + 1 => if b k = 0 then [] else b k :: str b (k + 1) n

/-- A string, padded with zeros. -/
def padded (l : List (BitVec 8)) : Nat → BitVec 8 := fun k => l.getD k 0

/-- `strncpy(dst, src, n)`. -/
def strncpy (dst src : Nat → BitVec 8) (n : Nat) : Nat → BitVec 8 :=
  fun k => if k < n then padded (str src 0 n) k else dst k

theorem strncmp_iff_str (a b : Nat → BitVec 8) (k n : Nat) :
    strncmp a b k n = true ↔ str a k n = str b k n := by
  induction n generalizing k with
  | zero => simp [strncmp, str]
  | succ n ih =>
    rw [strncmp, str, str]
    by_cases hne : a k = b k
    · rw [if_neg (not_not.2 hne), ← hne]
      by_cases hzero : a k = 0
      · rw [if_pos hzero, if_pos hzero, if_pos hzero]
        exact iff_of_true rfl rfl
      · rw [if_neg hzero, if_neg hzero, if_neg hzero, ih, List.cons.injEq]
        exact (and_iff_right rfl).symm
    · rw [if_pos hne]
      apply iff_of_false (by decide)
      by_cases ha : a k = 0
      · have hb : b k ≠ 0 := fun hb => hne (ha.trans hb.symm)
        rw [if_pos ha, if_neg hb]
        simp
      · rw [if_neg ha]
        by_cases hb : b k = 0
        · rw [if_pos hb]
          simp
        · rw [if_neg hb]
          intro heq
          exact hne (List.cons.inj heq).1

theorem ne_zero_of_mem_str {b : Nat → BitVec 8} {k n : Nat} {x : BitVec 8} (h : x ∈ str b k n) : x ≠ 0 := by
  induction n generalizing k with
  | zero => cases h
  | succ n ih =>
    rw [str] at h
    split at h
    · cases h
    · rename_i hk
      rcases List.mem_cons.1 h with rfl | h
      · exact hk
      · exact ih h

theorem length_str_le (b : Nat → BitVec 8) (k n : Nat) : (str b k n).length ≤ n := by
  induction n generalizing k with
  | zero => exact Nat.le_refl 0
  | succ n ih =>
    rw [str]
    split
    · exact Nat.zero_le _
    · exact Nat.succ_le_succ (ih (k + 1))

theorem take_str (b : Nat → BitVec 8) (k : Nat) {m n : Nat} (h : m ≤ n) : (str b k n).take m = str b k m := by
  induction m generalizing k n with
  | zero => simp [str]
  | succ m ih =>
    obtain ⟨n, rfl⟩ : ∃ n', n = n' + 1 := ⟨n - 1, by omega⟩
    rw [str, str]
    split
    · rfl
    · rw [List.take_succ_cons, ih (k + 1) (Nat.le_of_succ_le_succ h)]

/-- Only the first `n` bytes matter. -/
theorem str_congr {b b' : Nat → BitVec 8} {k n : Nat} (h : ∀ j < n, b (k + j) = b' (k + j)) :
    str b k n = str b' k n := by
  induction n generalizing k with
  | zero => rfl
  | succ n ih =>
    have h0 : b k = b' k := h 0 (Nat.succ_pos n)
    have hrest : str b (k + 1) n = str b' (k + 1) n := by
      apply ih
      intro j hj
      have := h (j + 1) (Nat.succ_lt_succ hj)
      rwa [Nat.add_comm j 1, ← Nat.add_assoc] at this
    rw [str, str, h0, hrest]

theorem str_padded {l : List (BitVec 8)} (h : ∀ x ∈ l, x ≠ 0) (k n : Nat) :
    str (padded l) k n = (l.drop k).take n := by
  induction n generalizing k with
  | zero => simp [str]
  | succ n ih =>
    rw [str]
    cases hk : l[k]? with
    | none =>
      have hlen : l.length ≤ k := List.getElem?_eq_none_iff.1 hk
      rw [if_pos (by rw [padded, List.getD_eq_getElem?_getD, hk]; rfl), List.drop_eq_nil_of_le hlen,
        List.take_nil]
    | some x =>
      obtain ⟨hlt, hx⟩ := List.getElem?_eq_some_iff.1 hk
      have hval : padded l k = x := by rw [padded, List.getD_eq_getElem?_getD, hk, Option.getD_some]
      have hne : x ≠ 0 := h x (by rw [← hx]; exact List.getElem_mem hlt)
      rw [hval, if_neg hne, ih, List.drop_eq_getElem_cons hlt, List.take_succ_cons, hx]

/-- A string ends in front of the first zero. -/
theorem str_apply (b : Nat → BitVec 8) (k n : Nat) :
    (∀ j < (str b k n).length, padded (str b k n) j = b (k + j) ∧ b (k + j) ≠ 0) ∧
    ((str b k n).length < n → b (k + (str b k n).length) = 0) := by
  induction n generalizing k with
  | zero => exact ⟨fun j hj => absurd hj (Nat.not_lt_zero j), fun h => absurd h (Nat.lt_irrefl 0)⟩
  | succ n ih =>
    rw [str]
    split
    · rename_i hk
      exact ⟨fun j hj => absurd hj (Nat.not_lt_zero j), fun _ => hk⟩
    · rename_i hk
      obtain ⟨hbytes, hend⟩ := ih (k + 1)
      rw [List.length_cons]
      constructor
      · intro j hj
        cases j with
        | zero => exact ⟨rfl, hk⟩
        | succ j =>
          have hrest := hbytes j (Nat.lt_of_succ_lt_succ hj)
          rw [Nat.add_assoc, Nat.add_comm 1 j] at hrest
          exact hrest
      · intro hlt
        have hrest := hend (Nat.lt_of_succ_lt_succ hlt)
        rw [Nat.add_assoc, Nat.add_comm 1] at hrest
        exact hrest

theorem padded_apply (l : List (BitVec 8)) (k : Nat) : padded l k = (l[k]?).getD 0 :=
  List.getD_eq_getElem?_getD

/-- One more byte. -/
theorem update_padded (l : List (BitVec 8)) (x : BitVec 8) :
    Function.update (padded l) l.length x = padded (l ++ [x]) := by
  funext k
  rw [padded_apply]
  rcases eq_or_ne k l.length with rfl | hne
  · rw [Function.update_self, List.getElem?_append_right (Nat.le_refl _), Nat.sub_self]
    rfl
  · rw [Function.update_of_ne hne, padded_apply]
    rcases Nat.lt_or_gt_of_ne hne with hlt | hgt
    · rw [List.getElem?_append_left hlt]
    · rw [List.getElem?_eq_none (Nat.le_of_lt hgt), List.getElem?_eq_none]
      rw [List.length_append]
      exact hgt

theorem padded_append_zero (l : List (BitVec 8)) : padded (l ++ [0]) = padded l := by
  rw [← update_padded]
  apply Function.update_eq_self_iff.2
  rw [padded_apply, List.getElem?_eq_none (Nat.le_refl _)]
  rfl

/-- `strncpy` keeps the string, up to the bytes it copies. -/
theorem str_strncpy (dst src : Nat → BitVec 8) {m n : Nat} (h : m ≤ n) :
    str (strncpy dst src n) 0 m = str src 0 m := by
  have hcongr : str (strncpy dst src n) 0 m = str (padded (str src 0 n)) 0 m := by
    apply str_congr
    intro j hj
    rw [strncpy, if_pos (by omega)]
  rw [hcongr, str_padded (fun x hx => ne_zero_of_mem_str hx), List.drop_zero, take_str src 0 h]

end CString
