import Mathlib.Order.Basic

/-!
# Parent pointers

A partial parent function on nodes.  If it goes down in some rank from every node but the root,
then following it from any node reaches the root.
-/

set_option autoImplicit false

namespace Forest

variable {α : Type}

/-- Follow `n` parent links. -/
def climb (parent : α → Option α) : Nat → α → Option α
  | 0, a => some a
  | n + 1, a => (parent a).bind (climb parent n)

/-- **A ranked forest with one root is a tree.** -/
theorem climb_reaches {parent : α → Option α} {root : α} (occupied : α → Prop) (rank : α → Nat)
    (hparent : ∀ a, occupied a → a ≠ root →
      ∃ p, parent a = some p ∧ occupied p ∧ rank p < rank a)
    {a : α} (ha : occupied a) : ∃ n, climb parent n a = some root := by
  induction hr : rank a using Nat.strongRecOn generalizing a with
  | _ r ih =>
    by_cases hroot : a = root
    · exact ⟨0, by rw [climb, hroot]⟩
    · obtain ⟨p, hp, hocc, hlt⟩ := hparent a ha hroot
      obtain ⟨n, hn⟩ := ih (rank p) (hr ▸ hlt) hocc rfl
      exact ⟨n + 1, by rw [climb, hp, Option.bind_some, hn]⟩

end Forest
