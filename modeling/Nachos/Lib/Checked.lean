import Mathlib.Logic.Basic

/-!
# Arrays with checked access

A list as an array of the size it has.  An access outside of it stops the computation for the reason
`bad`.  The laws are about the array in two parts, with the index at the seam.

* `load_natCast`, `load_append`, `store_natCast`, `store_append` — an access inside; `load_out`,
  `store_out` — one outside.
* `fill_append`, `fill_out` — storing a value `n` times, from an index on.
* `loads_append` — loading a part of the array.
-/

set_option autoImplicit false

namespace Checked

variable {α ε : Type} (bad : ε)

/-- `buf[i]`. -/
def load (buf : List α) (i : Int) : Except ε α :=
  if i < 0 then .error bad
  else
    match buf[i.toNat]? with
    | some a => .ok a
    | none => .error bad

/-- `buf[i] = a`. -/
def store (buf : List α) (i : Int) (a : α) : Except ε (List α) :=
  if i < 0 ∨ (buf.length : Int) ≤ i then .error bad else .ok (buf.set i.toNat a)

/-- `buf[i] = a`, and so on for `n` elements. -/
def fill (a : α) : Nat → Nat → List α → Except ε (List α)
  | _, 0, buf => .ok buf
  | i, n + 1, buf => do
    let buf ← store bad buf i a
    fill a (i + 1) n buf

/-- The elements from `i` on, `n` of them. -/
def loads (buf : List α) : Nat → Nat → Except ε (List α)
  | _, 0 => .ok []
  | i, n + 1 => do
    let a ← load bad buf i
    let l ← loads buf (i + 1) n
    .ok (a :: l)

variable {bad}

theorem load_natCast {buf : List α} {i : Nat} {a : α} (h : buf[i]? = some a) : load bad buf i = .ok a := by
  rw [load, if_neg (by omega), Int.toNat_natCast, h]

theorem load_append (pre : List α) (a : α) (post : List α) : load bad (pre ++ a :: post) pre.length = .ok a := by
  apply load_natCast
  rw [List.getElem?_append_right (Nat.le_refl _), Nat.sub_self]
  rfl

theorem load_out {buf : List α} {i : Int} (h : i < 0 ∨ (buf.length : Int) ≤ i) : load bad buf i = .error bad := by
  rw [load]
  split
  · rfl
  · rw [List.getElem?_eq_none (by omega)]

theorem load_eq_bad_iff {buf : List α} {i : Int} :
    load bad buf i = .error bad ↔ i < 0 ∨ (buf.length : Int) ≤ i := by
  by_cases h : i < 0 ∨ (buf.length : Int) ≤ i
  · exact iff_of_true (load_out h) h
  · obtain ⟨n, rfl⟩ := Int.eq_ofNat_of_zero_le (show 0 ≤ i by omega)
    have hlt : n < buf.length := by omega
    refine iff_of_false ?_ h
    rw [load_natCast (List.getElem?_eq_getElem hlt)]
    exact nofun

theorem store_natCast {buf : List α} {i : Nat} (h : i < buf.length) (a : α) :
    store bad buf i a = .ok (buf.set i a) := by
  rw [store, if_neg (by omega), Int.toNat_natCast]

theorem store_append (pre : List α) (x a : α) (post : List α) :
    store bad (pre ++ x :: post) pre.length a = .ok (pre ++ a :: post) := by
  have hlen : (pre ++ x :: post).length = pre.length + (post.length + 1) := by
    rw [List.length_append, List.length_cons]
  rw [store_natCast (by omega), List.set_append_right _ _ (Nat.le_refl _), Nat.sub_self, List.set_cons_zero]

theorem store_out {buf : List α} {i : Int} (h : i < 0 ∨ (buf.length : Int) ≤ i) (a : α) :
    store bad buf i a = .error bad :=
  if_pos h

/-- One element more in front of the seam. -/
theorem seam (pre : List α) (a : α) (post : List α) :
    pre ++ a :: post = (pre ++ [a]) ++ post ∧ (pre ++ [a]).length = pre.length + 1 := by
  refine ⟨?_, ?_⟩
  · rw [List.append_assoc, List.singleton_append]
  · rw [List.length_append, List.length_singleton]

/-- **Filling** inside of the array. -/
theorem fill_append (a : α) {n : Nat} {pre post : List α} (h : n ≤ post.length) :
    fill bad a pre.length n (pre ++ post) = .ok (pre ++ (List.replicate n a ++ post.drop n)) := by
  induction n generalizing pre post with
  | zero => rfl
  | succ n ih =>
    cases post with
    | nil => cases h
    | cons x post =>
      obtain ⟨hseam, hlen⟩ := seam pre a post
      have hrest : fill bad a (pre ++ [a]).length n ((pre ++ [a]) ++ post) = _ := ih (Nat.le_of_succ_le_succ h)
      rw [← hseam, hlen] at hrest
      rw [fill, store_append]
      show fill bad a (pre.length + 1) n (pre ++ a :: post) = _
      rw [hrest, List.replicate_succ, List.drop_succ_cons, List.append_assoc, List.singleton_append, List.cons_append]

/-- Filling beyond its end. -/
theorem fill_out (a : α) {n : Nat} {pre post : List α} (h : post.length < n) :
    fill bad a pre.length n (pre ++ post) = .error bad := by
  induction n generalizing pre post with
  | zero => cases h
  | succ n ih =>
    cases post with
    | nil =>
      have hend : ((pre ++ []).length : Int) ≤ (pre.length : Int) := Int.le_of_eq (by rw [List.append_nil])
      have hstore : store bad (pre ++ []) (pre.length : Int) a = .error bad := store_out (.inr hend) a
      unfold fill
      simp only [hstore]
      rfl
    | cons x post =>
      obtain ⟨hseam, hlen⟩ := seam pre a post
      have hrest : fill bad a (pre ++ [a]).length n ((pre ++ [a]) ++ post) = _ := ih (Nat.lt_of_succ_lt_succ h)
      rw [← hseam, hlen] at hrest
      rw [fill, store_append]
      exact hrest

/-- **Loading** inside of the array. -/
theorem loads_append {pre l post : List α} :
    loads bad (pre ++ (l ++ post)) pre.length l.length = .ok l := by
  induction l generalizing pre with
  | nil => rfl
  | cons a l ih =>
    obtain ⟨hseam, hlen⟩ := seam pre a (l ++ post)
    have hrest : loads bad ((pre ++ [a]) ++ (l ++ post)) (pre ++ [a]).length l.length = .ok l := ih
    rw [← hseam, hlen] at hrest
    rw [List.length_cons, loads, List.cons_append, load_append]
    show loads bad (pre ++ a :: (l ++ post)) (pre.length + 1) l.length >>= _ = _
    rw [hrest]
    rfl

end Checked
