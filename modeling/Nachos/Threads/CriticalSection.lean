import Nachos.Threads.Synch

/-!
# Calls that are serialised by a semaphore

A routine that does `lock->P()`, some steps, and `lock->V()`, called by any number of threads,
with devices that act in between.  `α` are the local variables of one call and `σ` is what the
calls and the devices share.  One turn of the loop of `P`, one whole `V` and one step of the body
are the units of interleaving; a thread on the queue of a semaphore is asleep.

`obtained` and `finished` are history: the calls in the order in which they obtained the lock, and
those that are done.

* `Routine.Rule` — what has to be shown of the routine alone.
* `reachable_rule` — then it holds in every interleaving, with at most one call in progress.
-/

set_option autoImplicit false

namespace Nachos

open Transition

/-- The routine: its body, when it is over, and the devices `δ`.  `arg` is what the caller passed. -/
structure Routine (σ α β δ : Type) where
  start : β → α
  arg : α → β
  done : α → Bool
  body : Tid → α → σ → Option (σ × α)
  device : δ → σ → Option σ
  arg_start : ∀ b, arg (start b) = b
  arg_body : ∀ t a d d' a', body t a d = some (d', a') → arg a' = arg a

/-- Where a thread is. -/
inductive Serial.Place (α : Type) where
  | outside
  /-- at the loop test of `lock->P()` -/
  | waiting (a : α)
  | inside (a : α)
  deriving DecidableEq, Repr

def Serial.Place.isInside {α : Type} : Serial.Place α → Bool
  | .inside _ => true
  | _ => false

structure Serial (σ α : Type) where
  lock : Semaphore
  place : Tid → Serial.Place α
  shared : σ
  obtained : List (Tid × α)
  finished : List (Tid × α)

inductive SerialEvent (β δ : Type) where
  | call (t : Tid) (b : β)
  | go (t : Tid)
  | device (e : δ)

namespace Serial

variable {σ α β δ : Type}

/-- One step of a thread inside a call. -/
def go (R : Routine σ α β δ) (s : Serial σ α) (t : Tid) : Option (Serial σ α) :=
  match s.place t with
  | .outside => none
  | .waiting a =>
      if t ∈ s.lock.queue then
        none
      else
        match s.lock.p t with
        | (lock, true) => some { s with
            lock := lock, place := Function.update s.place t (.inside a), obtained := s.obtained ++ [(t, a)] }
        | (lock, false) => some { s with lock := lock }
  | .inside a =>
      if R.done a then
        some { s with
          lock := s.lock.v.1, place := Function.update s.place t .outside, finished := s.finished ++ [(t, a)] }
      else
        (R.body t a s.shared).map (fun r => { s with
          shared := r.1, place := Function.update s.place t (.inside r.2) })

def step (R : Routine σ α β δ) (s : Serial σ α) : SerialEvent β δ → Option (Serial σ α)
  | .call t b =>
      if (s.place t) matches .outside then
        some { s with place := Function.update s.place t (.waiting (R.start b)) }
      else
        none
  | .go t => go R s t
  | .device e => (R.device e s.shared).map (fun d => { s with shared := d })

/-- The lock is free and nobody is in a call. -/
def init (d : σ) : Serial σ α := ⟨⟨1, []⟩, fun _ => .outside, d, [], []⟩

def system (R : Routine σ α β δ) (d : σ) : System (Serial σ α) (SerialEvent β δ) where
  init := fun s => s = init d
  step := step R

end Serial

/-- **The proof rule.**  `J done current shared`: the calls that are done, the one in progress, and
what is shared. -/
structure Routine.Rule {σ α β δ : Type} (R : Routine σ α β δ) (d : σ)
    (J : List (Tid × α) → Option (Tid × α) → σ → Prop) : Prop where
  init : J [] none d
  acquire : ∀ f t b s, J f none s → J f (some (t, R.start b)) s
  body : ∀ f t a s s' a', J f (some (t, a)) s → R.done a = false → R.body t a s = some (s', a') →
    J f (some (t, a')) s'
  release : ∀ f t a s, J f (some (t, a)) s → R.done a = true → J (f ++ [(t, a)]) none s
  device : ∀ f c e s s', J f c s → R.device e s = some s' → J f c s'

namespace Serial

variable {σ α β δ : Type} {R : Routine σ α β δ} {d : σ}
  {J : List (Tid × α) → Option (Tid × α) → σ → Prop}

/-- The call with the arguments only. -/
def callOf (R : Routine σ α β δ) (c : Tid × α) : Tid × β := (c.1, R.arg c.2)

/-- `c` is the call in progress, and every call that obtained the lock before it is done. -/
structure Current (R : Routine σ α β δ) (s : Serial σ α) (c : Option (Tid × α)) : Prop where
  inside : ∀ t a, s.place t = .inside a ↔ c = some (t, a)
  obtained : s.obtained.map (callOf R) = s.finished.map (callOf R) ++ (c.toList.map (callOf R))
  waiting : ∀ t a, s.place t = .waiting a → ∃ b, a = R.start b

/-- The invariant of the whole system. -/
def Serialised (R : Routine σ α β δ) (J : List (Tid × α) → Option (Tid × α) → σ → Prop)
    (s : Serial σ α) : Prop :=
  Mutex (fun t => (s.place t).isInside) s.lock.value ∧
    ∃ c, Current R s c ∧ J s.finished c s.shared

theorem isInside_update (place : Tid → Place α) (t : Tid) (p : Place α) :
    (fun u => (Function.update place t p u).isInside) =
      Function.update (fun u => (place u).isInside) t p.isInside := by
  funext u
  rcases eq_or_ne u t with rfl | hne
  · simp
  · simp [hne]

theorem waiting_update {place : Tid → Place α} {t : Tid} {p : Place α}
    (hw : ∀ u a, place u = .waiting a → ∃ b, a = R.start b) (hp : ∀ a, p = .waiting a → ∃ b, a = R.start b) :
    ∀ u a, Function.update place t p u = .waiting a → ∃ b, a = R.start b := by
  intro u a hu
  rcases eq_or_ne u t with rfl | hne
  · rw [Function.update_self] at hu
    exact hp a hu
  · rw [Function.update_of_ne hne] at hu
    exact hw u a hu

theorem Current.none_of_free {s : Serial σ α} {c : Option (Tid × α)} (h : Current R s c)
    (hfree : ∀ t, (s.place t).isInside = false) : c = none := by
  cases c with
  | none => rfl
  | some x =>
    have hin := (h.inside x.1 x.2).2 rfl
    have hf := hfree x.1
    rw [hin] at hf
    cases hf

theorem go_serialised (hJ : R.Rule d J) {s s' : Serial σ α} {t : Tid} (h : Serialised R J s)
    (he : go R s t = some s') : Serialised R J s' := by
  obtain ⟨hm, c, hc, hj⟩ := h
  unfold go at he
  cases hp : s.place t with
  | outside =>
    rw [hp] at he
    cases he
  | waiting a =>
    rw [hp] at he
    simp only at he
    split at he
    · cases he
    · by_cases hz : s.lock.value = 0
      · rw [Semaphore.p_zero hz] at he
        cases he
        exact ⟨hm, c, ⟨hc.inside, hc.obtained, hc.waiting⟩, hj⟩
      · rw [Semaphore.p_pos hz] at he
        cases he
        -- the lock is free: nobody is inside
        have hnone := hc.none_of_free (fun u => hm.free hz u)
        subst hnone
        obtain ⟨b, rfl⟩ := hc.waiting t a hp
        refine ⟨?_, some (t, R.start b), ⟨?_, ?_, ?_⟩, hJ.acquire _ t b _ hj⟩
        · simp only [isInside_update]
          exact hm.acquire hz t
        · intro u x
          rcases eq_or_ne u t with rfl | hne
          · simp [eq_comm]
          · simp only [Function.update_of_ne hne, hc.inside u x, reduceCtorEq, Option.some.injEq,
              Prod.mk.injEq, false_iff, not_and]
            intro htu
            exact absurd htu.symm hne
        · simpa using hc.obtained
        · exact waiting_update hc.waiting (by simp)
  | inside a =>
    have hcur := (hc.inside t a).1 hp
    subst hcur
    have hin : (s.place t).isInside = true := by rw [hp]; rfl
    rw [hp] at he
    simp only at he
    split at he
    · rename_i hdone
      cases he
      refine ⟨?_, none, ⟨?_, ?_, ?_⟩, hJ.release _ t a _ hj hdone⟩
      · simp only [isInside_update, Semaphore.v_value]
        exact hm.release hin
      · intro u x
        rcases eq_or_ne u t with rfl | hne
        · simp
        · simp only [Function.update_of_ne hne, hc.inside u x, Option.some.injEq, Prod.mk.injEq,
            reduceCtorEq, iff_false, not_and]
          intro htu
          exact absurd htu.symm hne
      · simpa using hc.obtained
      · exact waiting_update hc.waiting (by simp)
    · rename_i hdone
      obtain ⟨⟨d', a'⟩, hbody, rfl⟩ := Option.map_eq_some_iff.1 he
      have harg := R.arg_body t a s.shared d' a' hbody
      refine ⟨?_, some (t, a'), ⟨?_, ?_, ?_⟩, hJ.body _ t a _ d' a' hj (by simpa using hdone) hbody⟩
      · simp only [isInside_update]
        rw [show (Place.inside a').isInside = (s.place t).isInside by rw [hp]; rfl, Function.update_eq_self]
        exact hm
      · intro u x
        rcases eq_or_ne u t with rfl | hne
        · simp
        · simp only [Function.update_of_ne hne, hc.inside u x, Option.some.injEq, Prod.mk.injEq]
          constructor
          · rintro ⟨htu, -⟩
            exact absurd htu.symm hne
          · rintro ⟨htu, -⟩
            exact absurd htu.symm hne
      · have hobt := hc.obtained
        simp only [Option.toList_some, List.map_cons, List.map_nil, callOf] at hobt ⊢
        rw [harg]
        exact hobt
      · exact waiting_update hc.waiting (by simp)

theorem step_serialised (hJ : R.Rule d J) {s s' : Serial σ α} {e : SerialEvent β δ}
    (h : Serialised R J s) (he : step R s e = some s') : Serialised R J s' := by
  cases e with
  | go t => exact go_serialised hJ h he
  | device e =>
    obtain ⟨hm, c, hc, hj⟩ := h
    obtain ⟨d', hd', rfl⟩ := Option.map_eq_some_iff.1 he
    exact ⟨hm, c, ⟨hc.inside, hc.obtained, hc.waiting⟩, hJ.device _ c e _ d' hj hd'⟩
  | call t b =>
    obtain ⟨hm, c, hc, hj⟩ := h
    simp only [step] at he
    split at he
    · rename_i hp
      cases he
      refine ⟨?_, c, ⟨?_, hc.obtained, ?_⟩, hj⟩
      · simp only [isInside_update]
        rw [show (Place.waiting (R.start b)).isInside = (s.place t).isInside by rw [hp]; rfl,
          Function.update_eq_self]
        exact hm
      · intro u x
        rcases eq_or_ne u t with rfl | hne
        · simp [← hc.inside u x, hp]
        · simp only [Function.update_of_ne hne]
          exact hc.inside u x
      · apply waiting_update hc.waiting
        intro a ha
        cases ha
        exact ⟨b, rfl⟩
    · cases he

theorem init_serialised (hJ : R.Rule d J) : Serialised R J (init d) := by
  refine ⟨⟨?_, ?_, ?_⟩, none, ⟨?_, ?_, ?_⟩, hJ.init⟩
  · intro t u ht
    cases ht
  · intro t ht
    cases ht
  · exact fun _ => rfl
  · simp [init]
  · simp [init]
  · simp [init]

/-- **Every interleaving.** -/
theorem reachable_rule (hJ : R.Rule d J) {s : Serial σ α} (h : (system R d).Reachable s) :
    ∃ c, Current R s c ∧ J s.finished c s.shared := by
  have hinv : Serialised R J s := by
    refine System.Reachable.invariant (I := Serialised R J) ?_ ?_ h
    · rintro s rfl
      exact init_serialised hJ
    · exact fun s e s' _ hs he => step_serialised hJ hs he
  exact hinv.2

end Serial

end Nachos
