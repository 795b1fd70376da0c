import Mathlib.Data.List.Nodup
import Mathlib.Logic.Function.Basic

/-!
# Families of queues with exclusive ownership

A family `q : ι → List α` of FIFO queues in which every item is on at most one queue, once.
The owner map `home` says on which: `Homed q home` reads "`a` is on queue `i` exactly when
`home a = some i`, and no queue repeats an item".

`Homed.append` and `Homed.pop` move one item: an item without a home is put at the end of a
queue, and the head of a queue loses its home.  `Homed.assign` and `Homed.release` move a whole
queue: an empty queue gets a list of items without a home, and a queue is emptied.
-/

set_option autoImplicit false

namespace Queues

variable {ι α : Type} [DecidableEq ι] [DecidableEq α]

/-- Every item is on the queue of its home, once, and on no other. -/
structure Homed (q : ι → List α) (home : α → Option ι) : Prop where
  nodup : ∀ i, (q i).Nodup
  mem : ∀ i a, a ∈ q i ↔ home a = some i

variable {q : ι → List α} {home : α → Option ι}

omit [DecidableEq ι] [DecidableEq α] in
theorem homed_empty : Homed (fun _ : ι => ([] : List α)) (fun _ => none) :=
  ⟨fun _ => List.nodup_nil, fun i a => by simp⟩

theorem Homed.append (h : Homed q home) {a : α} (ha : home a = none) (i : ι) :
    Homed (Function.update q i (q i ++ [a])) (Function.update home a (some i)) := by
  have hnot : ∀ j, a ∉ q j := fun j hj => by simp [(h.mem j a).1 hj] at ha
  constructor
  · intro j
    rcases eq_or_ne j i with rfl | hj
    · rw [Function.update_self]
      refine List.nodup_append.2 ⟨h.nodup j, by simp, ?_⟩
      intro x hx y hy hxy
      rw [List.mem_singleton] at hy
      exact hnot j (by rw [← hy, ← hxy]; exact hx)
    · rw [Function.update_of_ne hj]
      exact h.nodup j
  · intro j b
    rcases eq_or_ne b a with rfl | hb
    · rcases eq_or_ne j i with rfl | hj
      · simp
      · simp [Function.update_of_ne hj, hnot j, Ne.symm hj]
    · rw [Function.update_of_ne hb, ← h.mem]
      rcases eq_or_ne j i with rfl | hj
      · simp [hb]
      · rw [Function.update_of_ne hj]

theorem Homed.pop (h : Homed q home) {i : ι} {a : α} {rest : List α} (hq : q i = a :: rest) :
    Homed (Function.update q i rest) (Function.update home a none) := by
  have hnd := h.nodup i
  rw [hq] at hnd
  obtain ⟨hna, hrest⟩ := List.nodup_cons.1 hnd
  have hhome : home a = some i := (h.mem i a).1 (by rw [hq]; exact List.mem_cons_self)
  constructor
  · intro j
    rcases eq_or_ne j i with rfl | hj
    · rw [Function.update_self]; exact hrest
    · rw [Function.update_of_ne hj]; exact h.nodup j
  · intro j b
    rcases eq_or_ne b a with rfl | hb
    · rcases eq_or_ne j i with rfl | hj
      · simp [hna]
      · simp [Function.update_of_ne hj, h.mem, hhome, Ne.symm hj]
    · rw [Function.update_of_ne hb, ← h.mem]
      rcases eq_or_ne j i with rfl | hj
      · simp [hq, hb]
      · rw [Function.update_of_ne hj]

theorem Homed.assign (h : Homed q home) {i : ι} {l : List α} (hq : q i = []) (hl : l.Nodup)
    (hfree : ∀ a ∈ l, home a = none) :
    Homed (Function.update q i l) (fun a => if a ∈ l then some i else home a) := by
  constructor
  · intro j
    rcases eq_or_ne j i with rfl | hj
    · rw [Function.update_self]; exact hl
    · rw [Function.update_of_ne hj]; exact h.nodup j
  · intro j a
    rcases eq_or_ne j i with rfl | hj
    · rw [Function.update_self]
      have hnot : home a ≠ some j := by
        intro ha
        have := (h.mem j a).2 ha
        rw [hq] at this
        cases this
      by_cases ha : a ∈ l
      · simp [ha]
      · simp [ha, hnot]
    · rw [Function.update_of_ne hj, h.mem]
      by_cases ha : a ∈ l
      · simp [ha, hfree a ha, Ne.symm hj]
      · simp [ha]

theorem Homed.release (h : Homed q home) (i : ι) :
    Homed (Function.update q i []) (fun a => if a ∈ q i then none else home a) := by
  constructor
  · intro j
    rcases eq_or_ne j i with rfl | hj
    · rw [Function.update_self]; exact List.nodup_nil
    · rw [Function.update_of_ne hj]; exact h.nodup j
  · intro j a
    rcases eq_or_ne j i with rfl | hj
    · rw [Function.update_self]
      by_cases ha : a ∈ q j
      · simp [ha]
      · have hnot : home a ≠ some j := fun hh => ha ((h.mem j a).2 hh)
        simp [ha, hnot]
    · rw [Function.update_of_ne hj, h.mem]
      by_cases ha : a ∈ q i
      · simp [ha, (h.mem i a).1 ha, Ne.symm hj]
      · simp [ha]

omit [DecidableEq ι] in
theorem Homed.count_home (h : Homed q home) {a : α} {i : ι} (ha : home a = some i) :
    (q i).count a = 1 :=
  List.count_eq_one_of_mem (h.nodup i) ((h.mem i a).2 ha)

omit [DecidableEq ι] [DecidableEq α] in
theorem Homed.not_mem (h : Homed q home) {a : α} {i : ι} (ha : home a ≠ some i) : a ∉ q i :=
  fun hm => ha ((h.mem i a).1 hm)

omit [DecidableEq ι] [DecidableEq α] in
/-- Different queues, put together. -/
theorem Homed.nodup_flatMap (h : Homed q home) {is : List ι} (his : is.Nodup) : (is.flatMap q).Nodup := by
  refine List.nodup_flatMap.2 ⟨fun i _ => h.nodup i, his.imp ?_⟩
  intro i j hij a hi hj
  have hi' := (h.mem i a).1 hi
  rw [(h.mem j a).1 hj, Option.some.injEq] at hi'
  exact hij hi'.symm

end Queues
