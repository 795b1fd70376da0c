import Mathlib.Logic.Basic

/-!
# Components and their specifications

A component is a partial step function: a call is answered and leaves a new state, or does not come
back.  Its specification is a relation: the answers that are right, and the states after them.

* `Simulates.trace` — what a component that simulates its specification answers to any calls is right.
* `Simulates.progress` — and no call fails.
-/

set_option autoImplicit false

namespace Refinement

variable {σ τ ε ρ : Type}

/-- The calls `es.map Prod.fst` are answered `es.map Prod.snd`, one after the other; `ok` holds before each. -/
inductive Trace (step : σ → ε → Option (ρ × σ)) (ok : σ → ε → Prop) (s : σ) : List (ε × ρ) → σ → Prop where
  | nil : Trace step ok s [] s
  | snoc {es : List (ε × ρ)} {u s' : σ} {e : ε} {r : ρ} : Trace step ok s es u → ok u e →
      step u e = some (r, s') → Trace step ok s (es ++ [(e, r)]) s'

/-- The specification allows these answers. -/
inductive Allows (spec : τ → ε → ρ → τ → Prop) (a : τ) : List (ε × ρ) → τ → Prop where
  | nil : Allows spec a [] a
  | snoc {es : List (ε × ρ)} {b a' : τ} {e : ε} {r : ρ} : Allows spec a es b → spec b e r a' →
      Allows spec a (es ++ [(e, r)]) a'

variable {step : σ → ε → Option (ρ × σ)} {ok : σ → ε → Prop} {spec : τ → ε → ρ → τ → Prop} {R : σ → τ → Prop}
  {s s' : σ} {a : τ} {es : List (ε × ρ)}

/-- Every call that may be made is answered as the specification allows, and the states stay related. -/
def Simulates (step : σ → ε → Option (ρ × σ)) (ok : σ → ε → Prop) (spec : τ → ε → ρ → τ → Prop)
    (R : σ → τ → Prop) : Prop :=
  ∀ s a e, R s a → ok s e → ∃ r s' a', step s e = some (r, s') ∧ spec a e r a' ∧ R s' a'

theorem Simulates.progress (h : Simulates step ok spec R) (hR : R s a) {e : ε} (hok : ok s e) : step s e ≠ none := by
  obtain ⟨r, s', -, hstep, -⟩ := h s a e hR hok
  rw [hstep]
  exact Option.some_ne_none (r, s')

/-- **Every run** of the component is one that the specification allows. -/
theorem Simulates.trace (h : Simulates step ok spec R) (hR : R s a) (ht : Trace step ok s es s') :
    ∃ a', Allows spec a es a' ∧ R s' a' := by
  induction ht with
  | nil => exact ⟨a, .nil, hR⟩
  | snoc _ hok hstep ih =>
    obtain ⟨b, hallows, hRb⟩ := ih
    obtain ⟨r, s', a', hstep', hspec, hR'⟩ := h _ b _ hRb hok
    rw [hstep, Option.some.injEq, Prod.mk.injEq] at hstep'
    obtain ⟨rfl, rfl⟩ := hstep'
    exact ⟨a', .snoc hallows hspec, hR'⟩

end Refinement
