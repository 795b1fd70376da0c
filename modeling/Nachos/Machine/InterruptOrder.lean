import Nachos.Machine.Interrupt

/-!
# Interrupts at the same time

`CheckIfDue(FALSE)` looks at the first pending interrupt by removing it and, when it is not yet
due, inserting it again; `SortedInsert` puts it behind those with the same `when`.

The runs here are sequences of single calls of `Schedule` and `CheckIfDue`; `step_calls` says that
those of `Interrupt.system` are such sequences.

* `putBack_iff` — when the first interrupt is put back where it was.
* `ties_in_order` — if that is so at every call, interrupts at the same time are handled in the
  order in which they were scheduled.
-/

set_option autoImplicit false

namespace Nachos

namespace Interrupt

open Transition

variable {η κ : Type} {H : Handlers η κ} {s s' : Interrupt η κ}

/-- The calls that read or change the pending list or the clock.  `others` is whatever happens to
the rest of the state. -/
inductive Call (η κ : Type) where
  | schedule (r : Request η)
  | advance
  | checkIfDue (advanceClock : Bool)
  | others (t : Interrupt η κ)

def call (H : Handlers η κ) (s : Interrupt η κ) : Call η κ → Option (Interrupt η κ)
  | .schedule r => schedule s r
  | .advance => some (advance s)
  | .checkIfDue advanceClock => (checkIfDue H advanceClock s).map (·.2)
  | .others t => some { t with
      pending := s.pending, stats := s.stats, scheduled := s.scheduled, fired := s.fired }

def calls (H : Handlers η κ) : System (Interrupt η κ) (Call η κ) where
  init := fun s => ∃ k, s = init k
  step := call H

/-- When `CheckIfDue(FALSE)` finds the first interrupt not yet due, the next one is later. -/
def Untied (s : Interrupt η κ) (c : Call η κ) : Prop :=
  match c, s.pending with
  | .checkIfDue false, e :: e' :: _ => s.stats.totalTicks < e.key → e.key < e'.key
  | _, _ => True

instance (s : Interrupt η κ) (c : Call η κ) : Decidable (Untied s c) := by
  unfold Untied
  split
  · infer_instance
  · infer_instance

/-! ## The runs of the simulator -/

theorem checkAll_calls : ∀ (fuel : Nat) (s : Interrupt η κ), checkAll H fuel s = some s' →
    ∃ es, (calls H).run s es = some s' := by
  intro fuel
  induction fuel with
  | zero => intro s h; cases h
  | succ fuel ih =>
    intro s h
    obtain ⟨⟨due, u⟩, hu, hrest⟩ := Option.bind_eq_some_iff.1 h
    have hstep : (calls H).step s (.checkIfDue false) = some u := by
      simp only [calls, call, hu, Option.map_some]
    cases due with
    | true =>
      obtain ⟨es, hes⟩ := ih u hrest
      exact ⟨.checkIfDue false :: es, by rw [System.run, hstep]; exact hes⟩
    | false =>
      cases hrest
      exact ⟨[.checkIfDue false], by rw [System.run, hstep]; rfl⟩

theorem oneTick_calls {fuel : Nat} (h : oneTick H fuel s = some s') :
    ∃ es, (calls H).run s es = some s' := by
  obtain ⟨u, hu, hrest⟩ := Option.bind_eq_some_iff.1 h
  cases hrest
  obtain ⟨es, hes⟩ := checkAll_calls fuel _ hu
  have hlast : (calls H).run u [.others (u.enable s.status)] = some (u.enable s.status) := by
    obtain ⟨hstats, hfired, hpending⟩ := enable_same u s.status
    have hsched : (u.enable s.status).scheduled = u.scheduled := by
      unfold enable
      dsimp only
      split
      · rfl
      · rfl
    simp only [System.run, calls, call, Option.bind_some, ← hstats, ← hfired, ← hpending, ← hsched]
  refine ⟨.advance :: .others { s.advance with level := .intOff } :: (es ++ [.others (u.enable s.status)]), ?_⟩
  show (calls H).run _ (es ++ [.others (u.enable s.status)]) = _
  rw [System.run_append _ hes]
  exact hlast

/-- **Every step of the simulator** is a sequence of calls. -/
theorem step_calls {e : Event η κ} (h : step H s e = some s') : ∃ es, (calls H).run s es = some s' := by
  unfold step at h
  split at h
  · cases h
  · cases e with
    | schedule r => exact ⟨[.schedule r], by simp only [System.run, calls, call, h, Option.bind_some]⟩
    | setLevel fuel now =>
      simp only [setLevel] at h
      split at h
      · split at h
        · obtain ⟨es, hes⟩ := oneTick_calls h
          exact ⟨.others { s with level := now } :: es, hes⟩
        · cases h
          exact ⟨[.others { s with level := now }], rfl⟩
      · cases h
    | oneTick fuel => exact oneTick_calls h
    | resume i =>
      obtain ⟨old, -, hrest⟩ := Option.bind_eq_some_iff.1 h
      cases hrest
      exact ⟨[.others { s with status := old, suspended := s.suspended.eraseIdx i }], rfl⟩
    | idle fuel =>
      obtain ⟨⟨due, u⟩, hu, hrest⟩ := Option.bind_eq_some_iff.1 h
      have hcheck : (calls H).run s [.others { s with status := .idleMode }, .checkIfDue true] = some u := by
        simp only [System.run, calls, call, Option.bind_some, hu, Option.map_some]
      cases due with
      | true =>
        obtain ⟨v, hv, hlast⟩ := Option.bind_eq_some_iff.1 hrest
        cases hlast
        obtain ⟨es, hes⟩ := checkAll_calls fuel u hv
        refine ⟨[.others { s with status := .idleMode }, .checkIfDue true] ++
          (es ++ [.others { v with yieldOnReturn := false, status := .systemMode }]), ?_⟩
        rw [System.run_append _ hcheck, System.run_append _ hes]
        rfl
      | false =>
        cases hrest
        refine ⟨[.others { s with status := .idleMode }, .checkIfDue true] ++
          [.others { u with halted := true }], ?_⟩
        rw [System.run_append _ hcheck]
        rfl
    | setUserMode =>
      cases h
      exact ⟨[.others { s with status := .userMode }], rfl⟩
    | setSystemMode =>
      cases h
      exact ⟨[.others { s with status := .systemMode }], rfl⟩
    | compute k =>
      cases h
      exact ⟨[.others { s with kernel := k }], rfl⟩

theorem reachable_calls (h : (system H).Reachable s) : (calls H).Reachable s := by
  refine System.Reachable.invariant (I := (calls H).Reachable) ?_ ?_ h
  · exact fun s hs => .init hs
  · intro s e s' _ hr he
    obtain ⟨es, hes⟩ := step_calls he
    exact hr.run hes

/-! ## Invariants of the calls -/

/-- An invariant of the pending list and of the log.  `back` is what is known when the first
interrupt is put back. -/
structure Kept (I : Interrupt η κ → Prop)
    (back : ListElement (PendingInterrupt η) → List (ListElement (PendingInterrupt η)) → Prop) : Prop where
  same : ∀ s t : Interrupt η κ, I s → t.pending = s.pending → t.scheduled = s.scheduled → t.fired = s.fired → I t
  schedule : ∀ s r s', I s → Interrupt.schedule s r = some s' → I s'
  pop : ∀ (s : Interrupt η κ) (e : ListElement (PendingInterrupt η)) rest, I s → s.pending = e :: rest →
    I { s with pending := rest, fired := s.fired ++ [e.item] }
  putBack : ∀ (s : Interrupt η κ) (e : ListElement (PendingInterrupt η)) rest, I s → s.pending = e :: rest →
    back e rest → I { s with pending := sortedInsert rest e.item e.key }

variable {I : Interrupt η κ → Prop}
  {back : ListElement (PendingInterrupt η) → List (ListElement (PendingInterrupt η)) → Prop}

theorem Kept.fire (hI : Kept I back) (hnil : ∀ e, back e []) {e : ListElement (PendingInterrupt η)}
    {rest : List (ListElement (PendingInterrupt η))} {stats : Statistics} {old : MachineStatus} {due : Bool}
    (hs : I s) (hp : s.pending = e :: rest)
    (h : Interrupt.fire H { s with pending := rest, stats := stats } old e.item e.key = some (due, s')) : I s' := by
  unfold Interrupt.fire at h
  split at h
  · rename_i hidle
    have hrest : rest = [] := hidle.2.2
    cases h
    have hput := hI.putBack s e rest hs hp (by rw [hrest]; exact hnil e)
    exact hI.same _ _ hput rfl rfl rfl
  · obtain ⟨u, hu, hlast⟩ := Option.bind_eq_some_iff.1 h
    cases hlast
    have hpop := hI.pop s e rest hs hp
    have hrun := foldlM_schedule hI.schedule _ _ u hu (hI.same _ _ hpop rfl rfl rfl)
    exact hI.same _ _ hrun rfl rfl rfl

theorem Kept.call (hI : Kept I back) (hnil : ∀ e, back e []) {c : Call η κ}
    (hback : c = .checkIfDue false → ∀ e rest, s.pending = e :: rest → s.stats.totalTicks < e.key → back e rest)
    (hs : I s) (h : Interrupt.call H s c = some s') : I s' := by
  cases c with
  | schedule r => exact hI.schedule s r s' hs h
  | advance =>
    cases h
    unfold Interrupt.advance
    split
    · exact hI.same s _ hs rfl rfl rfl
    · exact hI.same s _ hs rfl rfl rfl
  | others t =>
    cases h
    exact hI.same s _ hs rfl rfl rfl
  | checkIfDue advanceClock =>
    obtain ⟨⟨due, u⟩, hu, rfl⟩ := Option.map_eq_some_iff.1 h
    unfold checkIfDue at hu
    split at hu
    · cases hu
    · cases hp : s.pending with
      | nil =>
        rw [hp] at hu
        cases hu
        exact hs
      | cons e rest =>
        rw [hp] at hu
        simp only [sortedRemove] at hu
        split at hu
        · exact hI.fire hnil hs hp hu
        · rename_i hadv
          split at hu
          · rename_i hlt
            cases hu
            refine hI.putBack s e rest hs hp (hback ?_ e rest hp hlt)
            cases advanceClock with
            | false => rfl
            | true => exact absurd ⟨rfl, hlt⟩ hadv
          · exact hI.fire hnil hs hp hu

/-- Interrupts are pending in the order of `when`, each with a number of its own. -/
structure Numbered (s : Interrupt η κ) : Prop where
  sorted : SortedList.Sorted ListElement.key s.pending
  whens : ∀ e ∈ s.pending, e.item.when = e.key
  serials : ∀ e ∈ s.pending, e.item.serial < s.scheduled
  nodup : s.pending.Pairwise (fun x y => x.item.serial ≠ y.item.serial)

/-- Interrupts at the same time are in the order in which they were scheduled, those that were
handled before those that are pending. -/
structure InOrder (s : Interrupt η κ) : Prop where
  sorted : SortedList.Sorted ListElement.key s.pending
  whens : ∀ e ∈ s.pending, e.item.when = e.key
  serials : ∀ e ∈ s.pending, e.item.serial < s.scheduled
  firedSerials : ∀ p ∈ s.fired, p.serial < s.scheduled
  pending : s.pending.Pairwise (fun x y => x.key = y.key → x.item.serial < y.item.serial)
  fired : s.fired.Pairwise (fun p q => p.when = q.when → p.serial < q.serial)
  between : ∀ p ∈ s.fired, ∀ e ∈ s.pending, p.when = e.key → p.serial < e.item.serial

theorem numbered_kept : Kept (Numbered (η := η) (κ := κ)) (fun _ _ => True) := by
  refine ⟨?_, ?_, ?_, ?_⟩
  · intro s t h hp hn hf
    exact ⟨by rw [hp]; exact h.sorted, by rw [hp]; exact h.whens, by rw [hp, hn]; exact h.serials,
      by rw [hp]; exact h.nodup⟩
  · intro s r s' h hr
    obtain ⟨-, rfl⟩ := schedule_some hr
    refine ⟨SortedList.sorted_insert h.sorted, ?_, ?_, ?_⟩
    · intro e he
      rcases SortedList.mem_insert.1 he with rfl | he
      · rfl
      · exact h.whens e he
    · intro e he
      rcases SortedList.mem_insert.1 he with rfl | he
      · exact Nat.lt_succ_self _
      · exact Nat.lt_succ_of_lt (h.serials e he)
    · refine SortedList.pairwise_insert h.sorted h.nodup ?_ ?_
      · exact fun e he _ => Nat.ne_of_lt (h.serials e he)
      · exact fun e he _ => Nat.ne_of_gt (h.serials e he)
  · intro s e rest h hp
    have hmem : ∀ x ∈ rest, x ∈ s.pending := fun x hx => by rw [hp]; exact List.mem_cons_of_mem e hx
    have hs := h.sorted
    have hn := h.nodup
    rw [hp] at hs hn
    exact ⟨(List.pairwise_cons.1 hs).2, fun x hx => h.whens x (hmem x hx), fun x hx => h.serials x (hmem x hx),
      (List.pairwise_cons.1 hn).2⟩
  · intro s e rest h hp _
    have hperm : (sortedInsert rest e.item e.key).Perm s.pending := by
      rw [hp]
      exact SortedList.insert_perm
    have hs := h.sorted
    rw [hp] at hs
    refine ⟨SortedList.sorted_insert (List.pairwise_cons.1 hs).2, ?_, ?_, ?_⟩
    · exact fun x hx => h.whens x (hperm.mem_iff.1 hx)
    · exact fun x hx => h.serials x (hperm.mem_iff.1 hx)
    · exact h.nodup.perm hperm.symm (fun hxy => Ne.symm hxy)

theorem inOrder_kept : Kept (InOrder (η := η) (κ := κ)) (fun e rest => ∀ e' ∈ rest.head?, e.key < e'.key) := by
  refine ⟨?_, ?_, ?_, ?_⟩
  · intro s t h hp hn hf
    exact ⟨by rw [hp]; exact h.sorted, by rw [hp]; exact h.whens, by rw [hp, hn]; exact h.serials,
      by rw [hf, hn]; exact h.firedSerials, by rw [hp]; exact h.pending, by rw [hf]; exact h.fired,
      by rw [hf, hp]; exact h.between⟩
  · intro s r s' h hr
    obtain ⟨-, rfl⟩ := schedule_some hr
    refine ⟨SortedList.sorted_insert h.sorted, ?_, ?_, ?_, ?_, h.fired, ?_⟩
    · intro e he
      rcases SortedList.mem_insert.1 he with rfl | he
      · rfl
      · exact h.whens e he
    · intro e he
      rcases SortedList.mem_insert.1 he with rfl | he
      · exact Nat.lt_succ_self _
      · exact Nat.lt_succ_of_lt (h.serials e he)
    · exact fun p hp => Nat.lt_succ_of_lt (h.firedSerials p hp)
    · refine SortedList.pairwise_insert h.sorted h.pending ?_ ?_
      · exact fun e he _ _ => h.serials e he
      · intro e he hlt heq
        exact absurd heq (ne_of_lt hlt)
    · intro p hp e he
      rcases SortedList.mem_insert.1 he with rfl | he
      · exact fun _ => h.firedSerials p hp
      · exact h.between p hp e he
  · intro s e rest h hp
    have hmem : ∀ x ∈ rest, x ∈ s.pending := fun x hx => by rw [hp]; exact List.mem_cons_of_mem e hx
    have he : e ∈ s.pending := by rw [hp]; exact List.mem_cons_self
    have hs := h.sorted
    have ho := h.pending
    rw [hp] at hs ho
    obtain ⟨hfirst, hrest⟩ := List.pairwise_cons.1 ho
    refine ⟨(List.pairwise_cons.1 hs).2, fun x hx => h.whens x (hmem x hx),
      fun x hx => h.serials x (hmem x hx), ?_, hrest, ?_, ?_⟩
    · intro p hp'
      rcases List.mem_append.1 hp' with hp' | hp'
      · exact h.firedSerials p hp'
      · rw [List.mem_singleton.1 hp']
        exact h.serials e he
    · refine List.pairwise_append.2 ⟨h.fired, List.pairwise_singleton _ _, ?_⟩
      intro p hp' q hq heq
      rw [List.mem_singleton.1 hq] at heq ⊢
      exact h.between p hp' e he (heq.trans (h.whens e he))
    · intro p hp' x hx heq
      rcases List.mem_append.1 hp' with hp' | hp'
      · exact h.between p hp' x (hmem x hx) heq
      · rw [List.mem_singleton.1 hp'] at heq ⊢
        exact hfirst x hx ((h.whens e he).symm.trans heq)
  · intro s e rest h hp hback
    have hsame : sortedInsert rest e.item e.key = s.pending := by
      rw [hp]
      exact SortedList.insert_eq_cons hback
    exact ⟨by rw [hsame]; exact h.sorted, by rw [hsame]; exact h.whens, by rw [hsame]; exact h.serials,
      h.firedSerials, by rw [hsame]; exact h.pending, h.fired, by rw [hsame]; exact h.between⟩

theorem reachable_numbered (h : (calls H).Reachable s) : Numbered s := by
  refine System.Reachable.invariant (I := Numbered) ?_ ?_ h
  · rintro s ⟨k, rfl⟩
    exact ⟨List.Pairwise.nil, by simp [init], by simp [init], List.Pairwise.nil⟩
  · intro s c s' _ hs hc
    exact numbered_kept.call (fun _ => trivial) (fun _ _ _ _ _ => trivial) hs hc

theorem reachable_inOrder (h : (calls H).ReachableBy Untied s) : InOrder s := by
  refine System.ReachableBy.invariant (I := InOrder) ?_ ?_ h
  · rintro s ⟨k, rfl⟩
    exact ⟨List.Pairwise.nil, by simp [init], by simp [init], by simp [init], List.Pairwise.nil,
      List.Pairwise.nil, by simp [init]⟩
  · intro s c s' _ hs hok hc
    refine inOrder_kept.call (by simp) ?_ hs hc
    rintro rfl e rest hp hlt e' he'
    cases rest with
    | nil => cases he'
    | cons x rest =>
      cases he'
      simp only [Untied, hp] at hok
      exact hok hlt

/-- **The first interrupt is put back** where it was exactly when no other one is pending for the
same time. -/
theorem putBack_iff (h : Numbered s) {e : ListElement (PendingInterrupt η)}
    {rest : List (ListElement (PendingInterrupt η))} (hp : s.pending = e :: rest) :
    sortedInsert rest e.item e.key = s.pending ↔ ∀ e' ∈ rest.head?, e.key < e'.key := by
  constructor
  · intro heq e' he'
    obtain ⟨tail, rfl⟩ : ∃ tail, rest = e' :: tail := by
      cases rest with
      | nil => cases he'
      | cons x tail =>
        cases he'
        exact ⟨tail, rfl⟩
    by_contra hle
    have hins : sortedInsert (e' :: tail) e.item e.key = e' :: sortedInsert tail e.item e.key :=
      SortedList.insert_of_le (not_lt.1 hle)
    have hne := h.nodup
    rw [hp] at hne heq
    rw [hins] at heq
    have hfirst : e' = e := (List.cons.inj heq).1
    exact (List.pairwise_cons.1 hne).1 e' List.mem_cons_self (by rw [hfirst])
  · intro hlt
    rw [hp]
    exact SortedList.insert_eq_cons hlt

/-- **Interrupts at the same time.**  In every run in which no interrupt is put back that has the
`when` of the next one: handlers of equal `when` were called in the order of the calls of
`Schedule`, and those that are still pending were scheduled later.  In any run, a call of
`CheckIfDue(FALSE)` that finds the first interrupt not yet due leaves the pending list as it was
exactly when the next one is later. -/
theorem ties_in_order (H : Handlers η κ) :
    (∀ s, (calls H).ReachableBy Untied s →
      s.fired.Pairwise (fun p q => p.when = q.when → p.serial < q.serial) ∧
      ∀ p ∈ s.fired, ∀ e ∈ s.pending, p.when = e.item.when → p.serial < e.item.serial) ∧
    (∀ s e rest, (calls H).Reachable s → s.level = .intOff → s.pending = e :: rest →
      s.stats.totalTicks < e.key →
      ((checkIfDue H false s).map (fun r => r.2.pending) = some s.pending ↔
        ∀ e' ∈ rest.head?, e.key < e'.key)) := by
  constructor
  · intro s h
    have ho := reachable_inOrder h
    refine ⟨ho.fired, ?_⟩
    intro p hp e he heq
    exact ho.between p hp e he (heq.trans (ho.whens e he))
  · intro s e rest h hoff hp hlt
    have hcheck : checkIfDue H false s = some (false, { s with pending := sortedInsert rest e.item e.key }) := by
      rcases checkIfDue_spec H hoff with ⟨hnil, -⟩ | ⟨x, l, hx, -, hc⟩ | ⟨x, -, -, hx, hle, -⟩ |
        ⟨x, l, s', hx, hle, -⟩
      · rw [hp] at hnil
        cases hnil
      · rw [hp] at hx
        cases hx
        exact hc
      · rw [hp] at hx
        cases hx
        omega
      · rw [hp] at hx
        cases hx
        omega
    rw [hcheck, Option.map_some, Option.some.injEq]
    exact putBack_iff (reachable_numbered h) hp

/-- `ConsoleReadPoll` and `NetworkReadPoll`: each schedules its next poll. -/
def polls : Handlers IntType Unit where
  call := fun h arg _ k => (k, [⟨h, arg, 100, h⟩], false)
  fromNow_pos := by
    intro h arg time k r hr
    rw [List.mem_singleton.1 hr]
    show (0 : Int) < 100
    decide

/-- Both polls are scheduled at tick 10 for tick 110; then the clock runs to 110. -/
def pollRun : List (Event IntType Unit) :=
  [.setLevel 1 .intOn, .schedule ⟨.consoleReadInt, 0, 100, .consoleReadInt⟩,
    .schedule ⟨.networkRecvInt, 0, 100, .networkRecvInt⟩] ++ List.replicate 10 (.oneTick 3)

/-- The second poll is handled first, and the first call of `CheckIfDue` changes the list. -/
theorem pollRun_not_in_order :
    (∃ s : Interrupt IntType Unit, (system polls).Reachable s ∧
      ¬ s.fired.Pairwise (fun p q => p.when = q.when → p.serial < q.serial)) ∧
    (∃ s : Interrupt IntType Unit, (calls polls).Reachable s ∧ (∃ e ∈ s.pending.head?, s.stats.totalTicks < e.key) ∧
      s.level = .intOff ∧ (checkIfDue polls false s).map (fun r => r.2.pending) ≠ some s.pending) := by
  have hinit : (system polls).init (init ()) := ⟨(), rfl⟩
  constructor
  · have hrun : ((system polls).run (init ()) pollRun).map (fun s => s.fired.map (fun p => (p.when, p.serial))) =
        some [(110, 1), (110, 0)] := by decide +kernel
    obtain ⟨s, hs, hfired⟩ := Option.map_eq_some_iff.1 hrun
    refine ⟨s, System.reachable_of_run _ hinit hs, ?_⟩
    intro hpair
    have hmap : (s.fired.map (fun p => (p.when, p.serial))).Pairwise (fun p q => p.1 = q.1 → p.2 < q.2) :=
      List.pairwise_map.2 hpair
    rw [hfired] at hmap
    exact absurd hmap (by decide)
  · have hrun : ((calls polls).run (init ())
        [.schedule ⟨.consoleReadInt, 0, 100, .consoleReadInt⟩,
          .schedule ⟨.networkRecvInt, 0, 100, .networkRecvInt⟩]).map
        (fun s => (s.pending.head?.any (fun e => s.stats.totalTicks < e.key), s.level,
          decide ((checkIfDue polls false s).map (fun r => r.2.pending) = some s.pending))) =
        some (true, .intOff, false) := by decide +kernel
    obtain ⟨s, hs, hproj⟩ := Option.map_eq_some_iff.1 hrun
    simp only [Prod.mk.injEq, Option.any_eq_true, decide_eq_true_eq, decide_eq_false_iff_not] at hproj
    exact ⟨s, System.reachable_of_run _ hinit hs, hproj.1, hproj.2.1, hproj.2.2⟩

/-- One poll after the other, 50 ticks apart. -/
def apartRun : List (Call IntType Unit) :=
  [[.schedule ⟨.consoleReadInt, 0, 100, .consoleReadInt⟩], List.replicate 5 .advance,
    [.schedule ⟨.networkRecvInt, 0, 100, .networkRecvInt⟩], List.replicate 5 .advance,
    [.checkIfDue false, .checkIfDue false], List.replicate 5 .advance, [.checkIfDue false]].flatten

theorem ties_in_order_apart : ∃ s : Interrupt IntType Unit, (calls polls).ReachableBy Untied s ∧
    s.fired.map (·.serial) = [0, 1] ∧
    s.fired.Pairwise (fun p q => p.when = q.when → p.serial < q.serial) := by
  have hrun : ((calls polls).runBy Untied (init ()) apartRun).map (fun s => s.fired.map (·.serial)) =
      some [0, 1] := by decide +kernel
  obtain ⟨s, hs, hfired⟩ := Option.map_eq_some_iff.1 hrun
  have hinit : (calls polls).init (init ()) := ⟨(), rfl⟩
  have hreach := (System.ReachableBy.init hinit).runBy hs
  exact ⟨s, hreach, hfired, ((ties_in_order polls).1 s hreach).1⟩

end Interrupt

end Nachos
