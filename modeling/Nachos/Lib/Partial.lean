import Mathlib.Logic.Basic

/-!
# Computations that may stop

`Except ε α` as the result of a computation that comes back with a value or stops for a reason.

* `bind_eq_ok` — a computation that comes back, taken apart.
* `Returns` — a postcondition for those that come back.
* `Ends` — a postcondition for those that come back, and reasons that never occur; `Ends.bind` is
  the rule of composition.
-/

set_option autoImplicit false

namespace Partial

variable {ε α β : Type}

@[simp] theorem ok_bind {a : α} {f : α → Except ε β} : ((Except.ok a : Except ε α) >>= f) = f a := rfl

@[simp] theorem error_bind {e : ε} {f : α → Except ε β} : ((Except.error e : Except ε α) >>= f) = .error e := rfl

theorem bind_eq_ok {x : Except ε α} {f : α → Except ε β} {b : β} :
    (x >>= f) = .ok b ↔ ∃ a, x = .ok a ∧ f a = .ok b := by
  cases x with
  | error e => exact ⟨nofun, fun ⟨_, h, _⟩ => nomatch h⟩
  | ok a =>
    refine ⟨fun h => ⟨a, rfl, h⟩, ?_⟩
    rintro ⟨_, ha, h⟩
    cases ha
    exact h

theorem map_eq_ok {x : Except ε α} {f : α → β} {b : β} :
    f <$> x = .ok b ↔ ∃ a, x = .ok a ∧ f a = b := by
  cases x with
  | error e => exact ⟨nofun, fun ⟨_, h, _⟩ => nomatch h⟩
  | ok a =>
    constructor
    · intro h
      cases h
      exact ⟨a, rfl, rfl⟩
    · rintro ⟨_, ha, rfl⟩
      cases ha
      rfl

theorem map_eq_error {x : Except ε α} {f : α → β} {e : ε} : f <$> x = .error e ↔ x = .error e := by
  cases x with
  | error e' =>
    constructor
    · intro h
      cases h
      rfl
    · intro h
      cases h
      rfl
  | ok a => exact ⟨nofun, nofun⟩

/-- If `x` comes back, then with a value in `P`. -/
def Returns (x : Except ε α) (P : α → Prop) : Prop := ∀ a, x = .ok a → P a

theorem Returns.ok {a : α} {P : α → Prop} (h : P a) : Returns (.ok a : Except ε α) P := by
  intro b hb
  cases hb
  exact h

theorem Returns.bind {x : Except ε α} {f : α → Except ε β} {P : β → Prop}
    (hf : ∀ a, x = .ok a → Returns (f a) P) : Returns (x >>= f) P := by
  intro b hb
  obtain ⟨a, ha, hb⟩ := bind_eq_ok.1 hb
  exact hf a ha b hb

theorem Returns.ite {c : Prop} [Decidable c] {x y : Except ε α} {P : α → Prop} (hx : c → Returns x P)
    (hy : ¬ c → Returns y P) : Returns (if c then x else y) P := by
  split
  · exact hx ‹_›
  · exact hy ‹_›

/-- `x` comes back with a value in `P`, or stops for a reason that is not `bad`. -/
def Ends (bad : ε) (x : Except ε α) (P : α → Prop) : Prop :=
  match x with
  | .ok a => P a
  | .error e => e ≠ bad

variable {bad : ε} {x : Except ε α} {P Q : α → Prop} {R : β → Prop}

theorem Ends.of_ok (h : Ends bad x P) {a : α} (ha : x = .ok a) : P a := by
  subst ha
  exact h

theorem Ends.ne_bad (h : Ends bad x P) : x ≠ .error bad := by
  rintro rfl
  exact h rfl

/-- Consequence. -/
theorem Ends.mono (h : Ends bad x P) (hPQ : ∀ a, P a → Q a) : Ends bad x Q := by
  cases x with
  | ok a => exact hPQ a h
  | error e => exact h

/-- **Composition.** -/
theorem Ends.bind (h : Ends bad x P) {f : α → Except ε β} (hf : ∀ a, P a → Ends bad (f a) R) :
    Ends bad (x >>= f) R := by
  cases x with
  | ok a => exact hf a h
  | error e => exact h

theorem Ends.map (h : Ends bad x P) {f : α → β} (hf : ∀ a, P a → R (f a)) : Ends bad (f <$> x) R := by
  cases x with
  | ok a => exact hf a h
  | error e => exact h

theorem Ends.ite {c : Prop} [Decidable c] {y : Except ε α} (hx : c → Ends bad x P) (hy : ¬ c → Ends bad y P) :
    Ends bad (if c then x else y) P := by
  split
  · exact hx ‹_›
  · exact hy ‹_›

end Partial
