import Nachos.Lib.Transition

/-!
# First come, first served

A queue in the state of a system, which is joined at the end and left at the front.

* `Moves` — what happens to such a queue, with those that leave it, in their order.
* `Moves.waits`, `Moves.leaves` — a waiter is never overtaken: it moves up by one place for each that leaves.
* `run_moves` — what every step does to the queue, every run does.
-/

set_option autoImplicit false

namespace Fifo

variable {α : Type} {q q' q'' out out' : List α}

/-- `out` leave at the front of `q`, and some join at the end: `q'` is left. -/
def Moves (q out q' : List α) : Prop := ∃ joined, q ++ joined = out ++ q'

theorem Moves.refl (q : List α) : Moves q [] q := ⟨[], List.append_nil q⟩

theorem Moves.join (q joined : List α) : Moves q [] (q ++ joined) := ⟨joined, rfl⟩

theorem Moves.leave (n : Nat) (q : List α) : Moves q (q.take n) (q.drop n) :=
  ⟨[], by rw [List.append_nil, List.take_append_drop]⟩

theorem Moves.trans (h : Moves q out q') (h' : Moves q' out' q'') : Moves q (out ++ out') q'' := by
  obtain ⟨joined, hq⟩ := h
  obtain ⟨joined', hq'⟩ := h'
  refine ⟨joined ++ joined', ?_⟩
  calc q ++ (joined ++ joined') = (q ++ joined) ++ joined' := (List.append_assoc _ _ _).symm
    _ = out ++ (q' ++ joined') := by rw [hq, List.append_assoc]
    _ = out ++ out' ++ q'' := by rw [hq', List.append_assoc]

/-- Who is at place `i` has `i` before it, and leaves next. -/
theorem Moves.leaves (h : Moves q out q') {i : Nat} {a : α} (hi : q[i]? = some a) (hlt : i < out.length) :
    out[i]? = some a := by
  obtain ⟨joined, hq⟩ := h
  have hlen := (List.getElem?_eq_some_iff.1 hi).1
  rw [← List.getElem?_append_left hlt, ← hq, List.getElem?_append_left hlen, hi]

/-- Until then it moves up. -/
theorem Moves.waits (h : Moves q out q') {i : Nat} {a : α} (hi : q[i]? = some a) (hle : out.length ≤ i) :
    q'[i - out.length]? = some a := by
  obtain ⟨joined, hq⟩ := h
  have hlen := (List.getElem?_eq_some_iff.1 hi).1
  rw [← List.getElem?_append_right hle, ← hq, List.getElem?_append_left hlen, hi]

section Runs

open Transition

variable {σ ε : Type} (S : System σ ε)

/-- Those that leave during a run, if `out s e` do in the step `e` from `s`. -/
def outs (out : σ → ε → List α) (s : σ) : List ε → List α
  | [] => []
  | e :: es => out s e ++ (S.step s e).elim [] (fun s' => outs out s' es)

variable {S}

/-- **Run rule.** -/
theorem run_moves {q : σ → List α} {out : σ → ε → List α}
    (hstep : ∀ s e s', S.step s e = some s' → Moves (q s) (out s e) (q s')) {s s' : σ} {es : List ε}
    (h : S.run s es = some s') : Moves (q s) (outs S out s es) (q s') := by
  induction es generalizing s with
  | nil =>
    cases h
    exact .refl _
  | cons e es ih =>
    obtain ⟨u, hu, hrest⟩ := Option.bind_eq_some_iff.1 h
    rw [outs, hu]
    exact (hstep s e u hu).trans (ih hrest)

/-- Who leaves during a run leaves in one of its steps. -/
theorem exists_of_mem_outs {out : σ → ε → List α} {a : α} {s s' : σ} {es : List ε} (h : S.run s es = some s')
    (ha : a ∈ outs S out s es) :
    ∃ n u e u', S.run s (es.take n) = some u ∧ S.step u e = some u' ∧ S.run s (es.take (n + 1)) = some u' ∧
      a ∈ out u e := by
  induction es generalizing s with
  | nil => cases ha
  | cons e es ih =>
    obtain ⟨u, hu, hrest⟩ := Option.bind_eq_some_iff.1 h
    rw [outs, hu] at ha
    rcases List.mem_append.1 ha with ha | ha
    · refine ⟨0, s, e, u, rfl, hu, ?_, ha⟩
      rw [List.take_succ_cons, List.take_zero, System.run, hu]
      rfl
    · obtain ⟨n, v, e', v', hv, hv', hrun, ha⟩ := ih hrest ha
      refine ⟨n + 1, v, e', v', ?_, hv', ?_, ha⟩
      · rw [List.take_succ_cons, System.run, hu]
        exact hv
      · rw [List.take_succ_cons, System.run, hu]
        exact hrun

end Runs

end Fifo
