import Mathlib.Logic.Basic

/-!
# What a machine answers to a list of calls

A machine is a partial step function: a call is answered and leaves a new state, or stops for a
reason.  Two machines are compared by what they answer, up to the first call that does not come back.

* `answers_eq_iff` — a simulation under a side condition on the calls, with a call that is answered
  differently wherever the condition fails: they answer alike exactly if it holds along the run.
-/

set_option autoImplicit false

namespace Answers

variable {σ τ ε α β : Type}

/-- What the calls are answered, one after the other. -/
def answers (step : σ → ε → Except β (α × σ)) (s : σ) : List ε → List (Except β α)
  | [] => []
  | e :: es =>
    match step s e with
    | .error b => [.error b]
    | .ok (a, s') => .ok a :: answers step s' es

/-- `ok` holds before each of the calls. -/
def Along (step : σ → ε → Except β (α × σ)) (ok : σ → ε → Prop) (s : σ) : List ε → Prop
  | [] => True
  | e :: es => ok s e ∧ ∀ a s', step s e = .ok (a, s') → Along step ok s' es

variable {step : σ → ε → Except β (α × σ)} {step' : τ → ε → Except β (α × τ)} {s s' : σ} {a : α} {b : β}
  {e : ε}

theorem answers_cons_ok (h : step s e = .ok (a, s')) (es : List ε) :
    answers step s (e :: es) = .ok a :: answers step s' es := by
  rw [answers, h]

theorem answers_cons_error (h : step s e = .error b) (es : List ε) : answers step s (e :: es) = [.error b] := by
  rw [answers, h]

theorem along_cons_ok {ok : σ → ε → Prop} (h : step s e = .ok (a, s')) (es : List ε) :
    Along step ok s (e :: es) ↔ ok s e ∧ Along step ok s' es := by
  rw [Along]
  refine and_congr_right (fun _ => ⟨fun hall => hall a s' h, ?_⟩)
  intro hrest a1 s1 h1
  rw [h] at h1
  cases h1
  exact hrest

/-- The two machines answer a call in the same way, and are related after it. -/
def Alike (step : σ → ε → Except β (α × σ)) (step' : τ → ε → Except β (α × τ)) (R : σ → τ → Prop) (s : σ)
    (t : τ) (e : ε) : Prop :=
  (∃ b, step s e = .error b ∧ step' t e = .error b) ∨
    ∃ a s' t', step s e = .ok (a, s') ∧ step' t e = .ok (a, t') ∧ R s' t'

/-- They answer it differently. -/
def Apart (step : σ → ε → Except β (α × σ)) (step' : τ → ε → Except β (α × τ)) (s : σ) (t : τ) (e : ε) : Prop :=
  ∃ a s' a' t', step s e = .ok (a, s') ∧ step' t e = .ok (a', t') ∧ a ≠ a'

/-- **Simulation with an exact side condition.** -/
theorem answers_eq_iff {R : σ → τ → Prop} {ok : σ → ε → Prop}
    (hok : ∀ s t e, R s t → ok s e → Alike step step' R s t e)
    (hbad : ∀ s t e, R s t → ¬ ok s e → Apart step step' s t e) {s : σ} {t : τ} (hR : R s t) (es : List ε) :
    answers step s es = answers step' t es ↔ Along step ok s es := by
  induction es generalizing s t with
  | nil => exact iff_of_true rfl trivial
  | cons e es ih =>
    by_cases h : ok s e
    · rcases hok s t e hR h with ⟨b, hs, ht⟩ | ⟨a, s', t', hs, ht, hR'⟩
      · rw [answers_cons_error hs, answers_cons_error ht]
        refine iff_of_true rfl ⟨h, ?_⟩
        intro a s' hs'
        rw [hs] at hs'
        cases hs'
      · rw [answers_cons_ok hs, answers_cons_ok ht, along_cons_ok hs, ← ih hR', List.cons.injEq, and_iff_right rfl,
          and_iff_right h]
    · obtain ⟨a, s', a', t', hs, ht, hne⟩ := hbad s t e hR h
      rw [answers_cons_ok hs, answers_cons_ok ht]
      refine iff_of_false ?_ (fun hall => h hall.1)
      intro heq
      exact hne (Except.ok.inj (List.cons.inj heq).1)

end Answers
