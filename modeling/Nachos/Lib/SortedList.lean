import Mathlib.Data.List.Sort

/-!
# Lists sorted by a key

Insertion in front of the first element with a strictly larger key
(`List.orderedInsert` for the strict order of the keys), so an element goes behind those with an
equal key.

* `pairwise_insert` — what has to be checked of the new element, for any relation.
* `insert_eq_cons` — when the new element comes first.
-/

set_option autoImplicit false

namespace SortedList

variable {α κ : Type} [LinearOrder κ] (key : α → κ)

def insert (a : α) (l : List α) : List α := l.orderedInsert (fun x y => key x < key y) a

def Sorted (l : List α) : Prop := l.Pairwise (fun x y => key x ≤ key y)

variable {key} {a : α} {l : List α}

theorem insert_perm : (insert key a l).Perm (a :: l) := List.perm_orderedInsert _ a l

theorem mem_insert {b : α} : b ∈ insert key a l ↔ b = a ∨ b ∈ l := List.mem_orderedInsert _

/-- The elements in front of the new one have keys at most its own, those behind larger ones. -/
theorem pairwise_insert {R : α → α → Prop} (hs : Sorted key l) (h : l.Pairwise R)
    (hle : ∀ b ∈ l, key b ≤ key a → R b a) (hlt : ∀ b ∈ l, key a < key b → R a b) :
    (insert key a l).Pairwise R := by
  induction l with
  | nil => exact List.pairwise_singleton R a
  | cons b l ih =>
    obtain ⟨hb, hs'⟩ := List.pairwise_cons.1 hs
    obtain ⟨hRb, h'⟩ := List.pairwise_cons.1 h
    rw [insert, List.orderedInsert_cons]
    split
    · rename_i hab
      refine List.pairwise_cons.2 ⟨?_, h⟩
      intro c hc
      rcases List.mem_cons.1 hc with rfl | hc'
      · exact hlt c hc hab
      · exact hlt c hc (lt_of_lt_of_le hab (hb c hc'))
    · rename_i hab
      refine List.pairwise_cons.2 ⟨?_, ?_⟩
      · intro c hc
        rcases mem_insert.1 hc with rfl | hc'
        · exact hle b List.mem_cons_self (not_lt.1 hab)
        · exact hRb c hc'
      · exact ih hs' h' (fun c hc => hle c (List.mem_cons_of_mem b hc))
          (fun c hc => hlt c (List.mem_cons_of_mem b hc))

theorem sorted_insert (hs : Sorted key l) : Sorted key (insert key a l) :=
  pairwise_insert hs hs (fun _ _ h => h) (fun _ _ h => le_of_lt h)

/-- The new element comes first when its key is below the first one. -/
theorem insert_eq_cons (h : ∀ b ∈ l.head?, key a < key b) : insert key a l = a :: l := by
  cases l with
  | nil => rfl
  | cons b l => exact List.orderedInsert_cons_of_le _ l (h b rfl)

/-- Otherwise the first element stays in front. -/
theorem insert_of_le {b : α} (h : key b ≤ key a) : insert key a (b :: l) = b :: insert key a l :=
  List.orderedInsert_of_not_le _ l (not_lt.2 h)

end SortedList
