import Mathlib.Logic.Function.Basic

/-!
# Partial transition systems and their invariants

A system is a set of initial states and an executable partial step: `step s e` is `none` when
the event `e` is not enabled in `s`.  Runs are finite lists of events, so a concrete run can be
evaluated, and reachability is taken along runs all of whose steps satisfy a side condition
(`fun _ _ => True` for unrestricted runs).

* `ReachableBy.invariant` — the induction rule: what holds initially and is kept by every
  allowed step holds in every state reached.
* `reachable_of_run` — a run that can be evaluated witnesses reachability.
* `withHistory` — a system with a history variable added: it has the same runs
  (`reachable_fst`, `exists_history`).
-/

set_option autoImplicit false

namespace Transition

variable {σ ε : Type}

/-- Initial states and a partial step function. -/
structure System (σ ε : Type) where
  init : σ → Prop
  step : σ → ε → Option σ

namespace System

variable (S : System σ ε)

/-- Execute a list of events; `none` as soon as one is not enabled. -/
def run (s : σ) : List ε → Option σ
  | [] => some s
  | e :: es => (S.step s e).bind (fun s' => run s' es)

/-- States reached by runs all of whose steps satisfy `ok`. -/
inductive ReachableBy (ok : σ → ε → Prop) : σ → Prop where
  | init {s : σ} : S.init s → ReachableBy ok s
  | step {s s' : σ} {e : ε} : ReachableBy ok s → ok s e → S.step s e = some s' →
      ReachableBy ok s'

/-- States reached by unrestricted runs. -/
def Reachable (s : σ) : Prop := S.ReachableBy (fun _ _ => True) s

variable {S}

/-- **Invariant rule.**  The step obligation may use that the state before is itself reached. -/
theorem ReachableBy.invariant {ok : σ → ε → Prop} {I : σ → Prop}
    (h0 : ∀ s, S.init s → I s)
    (hstep : ∀ s e s', S.ReachableBy ok s → I s → ok s e → S.step s e = some s' → I s')
    {s : σ} (h : S.ReachableBy ok s) : I s := by
  induction h with
  | init h => exact h0 _ h
  | step hr hok he ih => exact hstep _ _ _ hr ih hok he

/-- The invariant rule for unrestricted runs. -/
theorem Reachable.invariant {I : σ → Prop} (h0 : ∀ s, S.init s → I s)
    (hstep : ∀ s e s', S.Reachable s → I s → S.step s e = some s' → I s')
    {s : σ} (h : S.Reachable s) : I s :=
  ReachableBy.invariant h0 (fun s e s' hr hi _ he => hstep s e s' hr hi he) h

theorem Reachable.step {s s' : σ} {e : ε} (h : S.Reachable s) (he : S.step s e = some s') :
    S.Reachable s' :=
  ReachableBy.step h trivial he

theorem ReachableBy.weaken {ok ok' : σ → ε → Prop} (himp : ∀ s e, ok s e → ok' s e) {s : σ}
    (h : S.ReachableBy ok s) : S.ReachableBy ok' s := by
  induction h with
  | init h => exact .init h
  | step _ hok he ih => exact .step ih (himp _ _ hok) he

theorem ReachableBy.reachable {ok : σ → ε → Prop} {s : σ} (h : S.ReachableBy ok s) :
    S.Reachable s :=
  h.weaken (fun _ _ _ => trivial)

/-- What is reached from some of the initial states is reached. -/
theorem ReachableBy.of_init {I : σ → Prop} {ok : σ → ε → Prop} (hI : ∀ s, I s → S.init s) {s : σ}
    (h : System.ReachableBy { S with init := I } ok s) : S.ReachableBy ok s := by
  induction h with
  | init h => exact .init (hI _ h)
  | step _ hok he ih => exact .step ih hok he

/-- A run that evaluates extends reachability. -/
theorem Reachable.run {s : σ} (h : S.Reachable s) :
    ∀ {es : List ε} {s' : σ}, S.run s es = some s' → S.Reachable s' := by
  intro es
  induction es generalizing s with
  | nil => intro s' he; cases he; exact h
  | cons e es ih =>
    intro s' he
    simp only [System.run, Option.bind_eq_some_iff] at he
    obtain ⟨u, hu, hrest⟩ := he
    exact ih (h.step hu) hrest

theorem reachable_of_run {s s' : σ} (es : List ε) (h0 : S.init s) (h : S.run s es = some s') :
    S.Reachable s' :=
  Reachable.run (.init h0) h

theorem run_append {s s' : σ} {es : List ε} (es' : List ε) (h : S.run s es = some s') :
    S.run s (es ++ es') = S.run s' es' := by
  induction es generalizing s with
  | nil => cases h; rfl
  | cons e es ih =>
    obtain ⟨u, hu, hrest⟩ := Option.bind_eq_some_iff.1 h
    rw [List.cons_append, System.run, hu]
    exact ih hrest

/-- A run in which every step is checked against `ok`. -/
def runBy (S : System σ ε) (ok : σ → ε → Prop) [∀ s e, Decidable (ok s e)] (s : σ) :
    List ε → Option σ
  | [] => some s
  | e :: es => if ok s e then (S.step s e).bind (fun s' => runBy S ok s' es) else none

theorem ReachableBy.runBy {ok : σ → ε → Prop} [∀ s e, Decidable (ok s e)] {s : σ}
    (h : S.ReachableBy ok s) :
    ∀ {es : List ε} {s' : σ}, S.runBy ok s es = some s' → S.ReachableBy ok s' := by
  intro es
  induction es generalizing s with
  | nil => intro s' he; cases he; exact h
  | cons e es ih =>
    intro s' he
    rw [System.runBy] at he
    split at he
    · rename_i hok
      obtain ⟨u, hu, hrest⟩ := Option.bind_eq_some_iff.1 he
      exact ih (.step h hok hu) hrest
    · cases he

/-! ## History variables -/

/-- `S` with a history variable: `record s e g` is its value after event `e` in state `s`. -/
def withHistory {γ : Type} (S : System σ ε) (start : γ → Prop) (record : σ → ε → γ → γ) :
    System (σ × γ) ε where
  init := fun x => S.init x.1 ∧ start x.2
  step := fun x e => (S.step x.1 e).map (fun s' => (s', record x.1 e x.2))

theorem reachable_fst {γ : Type} {start : γ → Prop} {record : σ → ε → γ → γ} {x : σ × γ}
    (h : (S.withHistory start record).Reachable x) : S.Reachable x.1 := by
  refine Reachable.invariant (I := fun x => S.Reachable x.1) ?_ ?_ h
  · exact fun x hx => .init hx.1
  · intro x e x' _ hi he
    obtain ⟨s', hs', rfl⟩ := Option.map_eq_some_iff.1 he
    exact hi.step hs'

theorem exists_history {γ : Type} {start : γ → Prop} {record : σ → ε → γ → γ} (g0 : γ)
    (h0 : start g0) {s : σ} (h : S.Reachable s) :
    ∃ g, (S.withHistory start record).Reachable (s, g) := by
  refine Reachable.invariant
    (I := fun s => ∃ g, (S.withHistory start record).Reachable (s, g)) ?_ ?_ h
  · exact fun s hs => ⟨g0, .init ⟨hs, h0⟩⟩
  · rintro s e s' _ ⟨g, hg⟩ he
    have hstep : (S.withHistory start record).step (s, g) e = some (s', record s e g) := by
      simp [withHistory, he]
    exact ⟨record s e g, hg.step hstep⟩

end System

end Transition
