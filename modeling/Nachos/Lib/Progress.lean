import Mathlib.Data.Prod.Lex
import Nachos.Lib.Transition

/-!
# Systems that come to an end

An invariant with a rank: the states it holds in have a rank, and every step leads to a smaller one.

* `Ranked.terminates` — no run goes on forever.
* `Ranked.ends` — from every state reached, a final state can be reached.
-/

set_option autoImplicit false

namespace Transition

variable {σ ε β : Type}

namespace System

variable (S : System σ ε)

/-- No event is enabled. -/
def Final (s : σ) : Prop := ∀ e, S.step s e = none

/-- No run from an initial state goes on forever. -/
def Terminates : Prop := ∀ f : Nat → σ, S.init (f 0) → ¬ ∀ n, ∃ e, S.step (f n) e = some (f (n + 1))

/-- `I s b`: the invariant holds of `s`, whose rank is `b`. -/
structure Ranked (r : β → β → Prop) (I : σ → β → Prop) : Prop where
  wf : WellFounded r
  init : ∀ s, S.init s → ∃ b, I s b
  step : ∀ s b e s', I s b → S.step s e = some s' → ∃ b', r b' b ∧ I s' b'

variable {S} {r : β → β → Prop} {I : σ → β → Prop}

theorem Ranked.invariant (h : S.Ranked r I) {s : σ} (hs : S.Reachable s) : ∃ b, I s b := by
  refine hs.invariant h.init ?_
  rintro s e s' - ⟨b, hb⟩ he
  obtain ⟨b', -, hb'⟩ := h.step s b e s' hb he
  exact ⟨b', hb'⟩

theorem Ranked.terminates (h : S.Ranked r I) : S.Terminates := by
  intro f h0 hrun
  have hnone : ∀ b n, ¬ I (f n) b := by
    intro b
    induction b using h.wf.induction with
    | _ b ih =>
      intro n hn
      obtain ⟨e, he⟩ := hrun n
      obtain ⟨b', hlt, hb'⟩ := h.step _ _ _ _ hn he
      exact ih b' hlt (n + 1) hb'
  obtain ⟨b, hb⟩ := h.init _ h0
  exact hnone b 0 hb

theorem Ranked.ends (h : S.Ranked r I) {s : σ} (hs : S.Reachable s) : ∃ es s', S.run s es = some s' ∧ S.Final s' := by
  obtain ⟨b, hb⟩ := h.invariant hs
  induction b using h.wf.induction generalizing s with
  | _ b ih =>
    by_cases hfinal : S.Final s
    · exact ⟨[], s, rfl, hfinal⟩
    · simp only [Final, not_forall] at hfinal
      obtain ⟨e, he⟩ := hfinal
      obtain ⟨s', hs'⟩ := Option.ne_none_iff_exists'.1 he
      obtain ⟨b', hlt, hb'⟩ := h.step s b e s' hb hs'
      obtain ⟨es, s'', hrun, hfinal'⟩ := ih b' hlt (hs.step hs') hb'
      exact ⟨e :: es, s'', by rw [System.run, hs', Option.bind_some, hrun], hfinal'⟩

end System

/-- Ranks with three parts, the first of which counts most and the last of which is ordered by `r`. -/
def Before (r : β → β → Prop) : Nat × Nat × β → Nat × Nat × β → Prop := Prod.Lex (· < ·) (Prod.Lex (· < ·) r)

section Before

variable {r : β → β → Prop} {m m' n n' : Nat} {b b' : β}

theorem wellFounded_before (h : WellFounded r) : WellFounded (Before r) :=
  WellFounded.prod_lex Nat.lt_wfRel.wf (WellFounded.prod_lex Nat.lt_wfRel.wf h)

theorem before_fst (h : m' < m) : Before r (m', n', b') (m, n, b) := Prod.Lex.left _ _ h

theorem before_snd (h : n' < n) : Before r (m, n', b') (m, n, b) := Prod.Lex.right _ (Prod.Lex.left _ _ h)

theorem before_trd (h : r b' b) : Before r (m, n, b') (m, n, b) := Prod.Lex.right _ (Prod.Lex.right _ h)

end Before

/-- Three numbers. -/
def Below : Nat × Nat × Nat → Nat × Nat × Nat → Prop := Before (· < ·)

theorem wellFounded_below : WellFounded Below := wellFounded_before Nat.lt_wfRel.wf

variable {a a' b b' c c' : Nat}

theorem below_fst (h : a' < a) : Below (a', b', c') (a, b, c) := before_fst h

theorem below_snd (h : b' < b) : Below (a, b', c') (a, b, c) := before_snd h

theorem below_trd (h : c' < c) : Below (a, b, c') (a, b, c) := before_trd h

end Transition
