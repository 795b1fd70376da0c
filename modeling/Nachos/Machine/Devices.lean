import Nachos.Machine.Interrupt

/-!
# What a device keeps

A device hears of the simulator through its handlers only.  `Maintained` is what has to be shown of the
handlers: a property of the kernel and of the pending interrupts that holds again after every call of
one, with the interrupts it schedules in place of the one that was due.

* `callHandler_kept` — one handler.
* `idle_halts` — when `Idle` halts the machine.
* `step_kept` — every call of the simulator: `CheckIfDue` and its loops, `OneTick`, `SetLevel`, `Idle`.
-/

set_option autoImplicit false

namespace Nachos

namespace Interrupt

variable {η κ : Type}

/-- The interrupts that are pending, without their keys. -/
def items (s : Interrupt η κ) : List (PendingInterrupt η) := s.pending.map (·.item)

/-- `new` are the interrupts that `requests` schedule at `time`. -/
def Scheduled (time : Int) (requests : List (Request η)) (new : List (PendingInterrupt η)) : Prop :=
  new.map (fun p => (p.handler, p.arg, p.when, p.type)) =
    requests.map (fun r => (r.handler, r.arg, time + r.fromNow, r.type))

/-- A property of the kernel and of what is pending that the handlers keep. -/
structure Maintained (H : Handlers η κ) (I : κ → List (PendingInterrupt η) → Prop) : Prop where
  perm : ∀ k l l', l.Perm l' → I k l → I k l'
  call : ∀ k p l time new, I k (p :: l) → Scheduled time (H.call p.handler p.arg time k).2.1 new →
    I (H.call p.handler p.arg time k).1 (new ++ l)

variable {H : Handlers η κ} {I : κ → List (PendingInterrupt η) → Prop} {s s' : Interrupt η κ}

theorem items_sortedInsert (l : List (ListElement (PendingInterrupt η))) (p : PendingInterrupt η) (when : Int) :
    ((sortedInsert l p when).map (·.item)).Perm (p :: l.map (·.item)) :=
  SortedList.insert_perm.map _

theorem schedule_items {r : Request η} (h : schedule s r = some s') :
    s'.items.Perm (⟨r.handler, r.arg, s.stats.totalTicks + r.fromNow, r.type, s.scheduled⟩ :: s.items) ∧
      s'.kernel = s.kernel ∧ s'.stats = s.stats := by
  obtain ⟨-, rfl⟩ := schedule_some h
  exact ⟨items_sortedInsert _ _ _, rfl, rfl⟩

/-- The calls of `Schedule` that a handler makes, one after the other. -/
theorem foldlM_schedule_items : ∀ (requests : List (Request η)) (s s' : Interrupt η κ),
    requests.foldlM schedule s = some s' → s'.kernel = s.kernel ∧
      ∃ new, Scheduled s.stats.totalTicks requests new ∧ s'.items.Perm (new ++ s.items) := by
  intro requests
  induction requests with
  | nil =>
    intro s s' h
    cases h
    exact ⟨rfl, [], rfl, List.Perm.refl _⟩
  | cons r requests ih =>
    intro s s' h
    obtain ⟨u, hu, hrest⟩ := Option.bind_eq_some_iff.1 h
    obtain ⟨hitems, hkernel, hstats⟩ := schedule_items hu
    obtain ⟨hkernel', new, hnew, hperm⟩ := ih u s' hrest
    refine ⟨hkernel'.trans hkernel, _ :: new, ?_, (hperm.trans (hitems.append_left new)).trans List.perm_middle⟩
    rw [hstats] at hnew
    exact congrArg₂ List.cons rfl hnew

/-- **One handler.** -/
theorem callHandler_kept (hI : Maintained H I) {p : PendingInterrupt η} (h : callHandler H s p = some s')
    (hs : I s.kernel (p :: s.items)) : I s'.kernel s'.items := by
  obtain ⟨hkernel, new, hnew, hperm⟩ := foldlM_schedule_items _ _ _ h
  rw [hkernel]
  exact hI.perm _ _ _ hperm.symm (hI.call _ p _ _ new hs hnew)

theorem fire_kept (hI : Maintained H I) {old : MachineStatus} {p : PendingInterrupt η} {when : Int} {due : Bool}
    (h : fire H s old p when = some (due, s')) (hs : I s.kernel (p :: s.items)) : I s'.kernel s'.items := by
  unfold fire at h
  split at h
  · cases h
    exact hI.perm _ _ _ (items_sortedInsert _ _ _).symm hs
  · obtain ⟨u, hu, hrest⟩ := Option.bind_eq_some_iff.1 h
    have hkept : I u.kernel u.items :=
      callHandler_kept (s := { s with inHandler := true, status := .systemMode }) hI hu hs
    cases hrest
    exact hkept

theorem checkIfDue_kept (hI : Maintained H I) {advanceClock due : Bool} (h : checkIfDue H advanceClock s = some (due, s'))
    (hs : I s.kernel s.items) : I s'.kernel s'.items := by
  unfold checkIfDue at h
  split at h
  · cases h
  · cases hp : s.pending with
    | nil =>
      rw [hp] at h
      cases h
      exact hs
    | cons e rest =>
      have hitems : s.items = e.item :: rest.map (·.item) := by
        rw [items, hp, List.map_cons]
      rw [hitems] at hs
      rw [hp] at h
      simp only [sortedRemove] at h
      split at h
      · exact fire_kept hI h hs
      · split at h
        · cases h
          exact hI.perm _ _ _ (items_sortedInsert _ _ _).symm hs
        · exact fire_kept hI h hs

theorem checkAll_kept (hI : Maintained H I) : ∀ (fuel : Nat) (s : Interrupt η κ), checkAll H fuel s = some s' →
    I s.kernel s.items → I s'.kernel s'.items := by
  intro fuel
  induction fuel with
  | zero => intro s h; cases h
  | succ fuel ih =>
    intro s h hs
    obtain ⟨⟨due, u⟩, hu, hrest⟩ := Option.bind_eq_some_iff.1 h
    have hkept := checkIfDue_kept hI hu hs
    cases due with
    | true => exact ih u hrest hkept
    | false =>
      cases hrest
      exact hkept

theorem oneTick_kept (hI : Maintained H I) {fuel : Nat} (h : oneTick H fuel s = some s') (hs : I s.kernel s.items) :
    I s'.kernel s'.items := by
  obtain ⟨u, hu, hrest⟩ := Option.bind_eq_some_iff.1 h
  have hadvance : I s.advance.kernel s.advance.items := by
    unfold advance
    split
    · exact hs
    · exact hs
  have hkept : I u.kernel u.items := checkAll_kept hI fuel _ hu hadvance
  cases hrest
  unfold enable
  dsimp only
  split
  · exact hkept
  · exact hkept

theorem idle_kept (hI : Maintained H I) {fuel : Nat} (h : idle H fuel s = some s') (hs : I s.kernel s.items) :
    I s'.kernel s'.items := by
  obtain ⟨⟨due, u⟩, hu, hrest⟩ := Option.bind_eq_some_iff.1 h
  have hkept : I u.kernel u.items := checkIfDue_kept hI hu hs
  cases due with
  | true =>
    obtain ⟨v, hv, hlast⟩ := Option.bind_eq_some_iff.1 hrest
    have hkept' : I v.kernel v.items := checkAll_kept hI fuel u hv hkept
    cases hlast
    exact hkept'
  | false =>
    cases hrest
    exact hkept

/-- `CheckIfDue(TRUE)` finds nothing to do when there is nothing, or the timer alone. -/
theorem checkIfDue_idle {u : Interrupt η κ} (h : checkIfDue H true s = some (false, u)) :
    s.items = [] ∨ ∃ p, s.items = [p] ∧ p.type = .timerInt := by
  have hfire : ∀ {u0 : Interrupt η κ} {old : MachineStatus} {p : PendingInterrupt η} {when : Int},
      fire H u0 old p when = some (false, u) → p.type = .timerInt ∧ u0.pending = [] := by
    intro u0 old p when hf
    unfold fire at hf
    split at hf
    · rename_i hidle
      exact hidle.2
    · obtain ⟨v, -, hv⟩ := Option.bind_eq_some_iff.1 hf
      cases hv
  unfold checkIfDue at h
  split at h
  · cases h
  · cases hp : s.pending with
    | nil => exact .inl (by rw [items, hp, List.map_nil])
    | cons e rest =>
      rw [hp] at h
      simp only [sortedRemove, true_and] at h
      have hlast : e.item.type = .timerInt ∧ rest = [] := by
        split at h
        · exact hfire h
        · exact hfire h
      exact .inr ⟨e.item, by rw [items, hp, hlast.2]; rfl, hlast.1⟩

/-- **`Idle` halts the machine** only when nothing is pending, or the timer alone. -/
theorem idle_halts {fuel : Nat} (h : idle H fuel s = some s') (ht : Timed s) :
    s'.halted = s.halted ∨ s.items = [] ∨ ∃ p, s.items = [p] ∧ p.type = .timerInt := by
  obtain ⟨⟨due, u⟩, hu, hrest⟩ := Option.bind_eq_some_iff.1 h
  have htimed : Timed { s with status := .idleMode } := ⟨ht.sorted, ht.whens, ht.ticks⟩
  obtain ⟨htu, hlu⟩ := checkIfDue_later hu htimed
  cases due with
  | true =>
    obtain ⟨v, hv, hlast⟩ := Option.bind_eq_some_iff.1 hrest
    obtain ⟨-, hlv⟩ := checkAll_later fuel u hv htu
    have hsame : v.halted = s.halted := hlv.halted.trans hlu.halted
    cases hlast
    exact .inl hsame
  | false => exact .inr (checkIfDue_idle (s := { s with status := .idleMode }) hu)

/-- The calls of `Schedule` from outside, and what the rest of the kernel does. -/
structure Maintained.Event (I : κ → List (PendingInterrupt η) → Prop) (s : Interrupt η κ) (e : Event η κ) : Prop where
  schedule : ∀ r p, e = .schedule r → p.handler = r.handler → p.type = r.type →
    I s.kernel s.items → I s.kernel (p :: s.items)
  compute : ∀ k, e = .compute k → I s.kernel s.items → I k s.items

/-- **What the handlers keep, the simulator keeps.** -/
theorem step_kept (hI : Maintained H I) {e : Event η κ} (he : Maintained.Event I s e) (h : step H s e = some s')
    (hs : I s.kernel s.items) : I s'.kernel s'.items := by
  unfold step at h
  split at h
  · cases h
  · cases e with
    | schedule r =>
      obtain ⟨hitems, hkernel, -⟩ := schedule_items h
      rw [hkernel]
      exact hI.perm _ _ _ hitems.symm (he.schedule r _ rfl rfl rfl hs)
    | setLevel fuel now =>
      simp only [setLevel] at h
      split at h
      · split at h
        · exact oneTick_kept hI h hs
        · cases h
          exact hs
      · cases h
    | oneTick fuel => exact oneTick_kept hI h hs
    | resume i =>
      obtain ⟨old, -, hrest⟩ := Option.bind_eq_some_iff.1 h
      cases hrest
      exact hs
    | idle fuel => exact idle_kept hI h hs
    | setUserMode =>
      cases h
      exact hs
    | setSystemMode =>
      cases h
      exact hs
    | compute k =>
      cases h
      exact he.compute k rfl hs

end Interrupt

end Nachos
