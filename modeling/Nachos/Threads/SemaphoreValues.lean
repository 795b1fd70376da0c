import Nachos.Threads.Stable

/-!
# The values of the semaphores in the table

`Semaphore::value` of `threads/synch.h` ("semaphore value, always >= 0") over runs of `CreateSem`, `Wait`
and `Signal`, against the count of the units: the initial value, one more for every `Signal` that has
returned, one less for every `Wait`.

* `step_counts` — a call that does not overflow keeps value and count together.
* `semaphore_values` — every state of a run without such an overflow.
* `signal_overflows` — the `Signal` that does it.
-/

set_option autoImplicit false

namespace Nachos

open CString Transition

namespace SemState

open Stable

/-- The string that a call names. -/
def callName (read : Word → Option Byte) (name : Word) : Option (List Byte) :=
  if name = 0 then none else (namebuf read name).map (str · 0 49)

/-- The semaphore that a call is about. -/
def semaphoreOf (s : SemState) : SemCall → Option (List Byte)
  | .createSem _ read name _ => callName read name
  | .wait _ read name => callName read name
  | .signal _ read name => callName read name
  | .resume t => (s.waiting t).bind s.stab.nameAt

/-- What a call that returns 0 makes of the count of its semaphore. -/
def newCount (count : Int) : SemCall → Int
  | .createSem _ _ _ sval => sval.toInt
  | .wait _ _ _ => count - 1
  | .signal _ _ _ => count + 1
  | .resume _ => count - 1

/-- The counts after a call. -/
def record (s : SemState) (e : SemCall) (count : List Byte → Int) : List Byte → Int :=
  match step s e, semaphoreOf s e with
  | some s', some l => if s'.result e.caller = some 0 then Function.update count l (newCount (count l) e) else count
  | _, _ => count

/-- The runs, with the counts beside the state. -/
def countingSystem : System (SemState × (List Byte → Int)) SemCall := system.withHistory (fun _ => True) record

/-- A `Signal` on a semaphore with the largest value. -/
def Overflows (s : SemState) : SemCall → Prop
  | .signal _ read name =>
    ∃ l sem, callName read name = some l ∧ s.stab.find l = some sem ∧ sem.value.toInt = 2 ^ 31 - 1
  | _ => False

/-- Values and counts agree, and none is negative. -/
def Counts (find : List Byte → Option Semaphore) (count : List Byte → Int) : Prop :=
  ∀ l sem, find l = some sem → 0 ≤ sem.value.toInt ∧ sem.value.toInt = count l

variable {s s' : SemState} {t : Tid} {read : Word → Option Byte} {name : Word} {l : List Byte}
  {count : List Byte → Int} {find : List Byte → Option Semaphore} {e : SemCall}

theorem Counts.update (h : Counts find count) {sem : Semaphore} (hpos : 0 ≤ sem.value.toInt) {n : Int}
    (hn : sem.value.toInt = n) : Counts (Function.update find l (some sem)) (Function.update count l n) := by
  intro l' sem' hfind
  rcases eq_or_ne l' l with rfl | hne
  · rw [Function.update_self, Option.some.injEq] at hfind
    rw [Function.update_self, ← hfind]
    exact ⟨hpos, hn⟩
  · rw [Function.update_of_ne hne] at hfind ⊢
    exact h l' sem' hfind

/-- The queue may change. -/
theorem Counts.update_queue (h : Counts find count) {sem sem' : Semaphore} (hsem : find l = some sem)
    (hvalue : sem'.value = sem.value) : Counts (Function.update find l (some sem')) count := by
  obtain ⟨hpos, hcount⟩ := h l sem hsem
  have hupd : Counts (Function.update find l (some sem')) (Function.update count l (count l)) :=
    h.update (by rw [hvalue]; exact hpos) (by rw [hvalue]; exact hcount)
  rwa [Function.update_eq_self] at hupd

theorem callName_eq (hn : name ≠ 0) (hl : IsName l) (hbuf : namebuf read name = some (padded l)) :
    callName read name = some l := by
  rw [callName, if_neg hn, hbuf, Option.map_some, str_name hl]

theorem record_fails (he : step s e = some s') (hr : s'.result e.caller ≠ some 0) : record s e count = count := by
  unfold record
  rw [he]
  cases semaphoreOf s e with
  | none => rfl
  | some l => exact if_neg hr

theorem record_returns (he : step s e = some s') (hr : s'.result e.caller = some 0) (hl : semaphoreOf s e = some l) :
    record s e count = Function.update count l (newCount (count l) e) := by
  unfold record
  rw [he, hl]
  exact if_pos hr

/-- One turn of `P` takes a unit, or the process stays inside `Wait`. -/
theorem turn_counts (h : Inv s) (hc : Counts s.stab.find count) (he : step s e = some s')
    (hl : semaphoreOf s e = some l) (hnew : newCount (count l) e = count l - 1) {i : Nat} {x : Sem}
    (hs : s.stab.slot l = some i) (hx : s.stab.semtab i = some x) (hturn : s.turn e.caller i = some s') :
    Counts s'.stab.find (record s e count) := by
  obtain ⟨u, hu, -, hfind, hpos, hzero, -⟩ := turn_spec (t := e.caller) h.good hs hx
  rw [hturn, Option.some.injEq] at hu
  subst hu
  obtain ⟨hvalue, hcount⟩ := hc l x.sem (find_of_slot hs hx)
  rw [hfind]
  by_cases hz : x.sem.value = 0
  · have hnone : s'.result e.caller ≠ some 0 := by
      rw [(hzero hz).1]
      exact (Option.some_ne_none 0).symm
    rw [record_fails he hnone, Semaphore.p_zero hz]
    exact hc.update_queue (find_of_slot hs hx) rfl
  · rw [record_returns he (hpos hz).1 hl, hnew, Semaphore.p_pos hz]
    have hgt : 0 < x.sem.value.toInt := by
      have hne : x.sem.value.toInt ≠ 0 := fun h0 => hz (toInt_eq_zero.mp h0)
      omega
    have hsub : (x.sem.value - 1).toInt = x.sem.value.toInt - 1 := toInt_sub_one hgt
    apply hc.update
    · rw [hsub]
      omega
    · rw [hsub, hcount]

/-- A call that returns -1 changes neither the table nor a count. -/
theorem returns_counts (hc : Counts s.stab.find count) (he : step s e = some (s.returns e.caller (-1))) :
    Counts (s.returns e.caller (-1)).stab.find (record s e count) := by
  rw [record_fails he]
  · exact hc
  · intro hr
    have hlast : (s.returns e.caller (-1)).result e.caller = some (-1) := Function.update_self _ _ _
    rw [hlast] at hr
    exact absurd (Option.some.inj hr) (by decide)

/-- **A call keeps values and counts together**, unless it overflows. -/
theorem step_counts (h : Inv s) (hc : Counts s.stab.find count) (hok : ¬ Overflows s e) (he : step s e = some s') :
    Counts s'.stab.find (record s e count) := by
  have hstep := he
  cases e with
  | createSem t read name sval =>
    simp only [step] at he
    split at he
    · unfold createSem at he
      split at he
      · cases he
        exact returns_counts hc hstep
      · rename_i hcond
        obtain ⟨buf, hbuf, he⟩ := Option.bind_eq_some_iff.1 he
        obtain ⟨l, hl, rfl⟩ := isName_of_namebuf hbuf
        have hname : semaphoreOf s (.createSem t read name sval) = some l :=
          callName_eq (fun h0 => hcond (.inl h0)) hl hbuf
        obtain ⟨st, r, hcreate, -, -, hcase⟩ := create_spec h.good hl sval
        rw [hcreate] at he
        cases he
        rcases hcase with ⟨rfl, ⟨hpos, -, -⟩, hfind⟩ | ⟨rfl, -, rfl⟩
        · rw [record_returns hstep (by simp [returns, SemCall.caller]) hname]
          show Counts st.find _
          rw [hfind]
          exact hc.update hpos rfl
        · exact returns_counts hc hstep
    · cases he
  | wait t read name =>
    simp only [step] at he
    split at he
    · unfold wait at he
      split at he
      · cases he
        exact returns_counts hc hstep
      · rename_i hn
        obtain ⟨buf, hbuf, he⟩ := Option.bind_eq_some_iff.1 he
        obtain ⟨l, hl, rfl⟩ := isName_of_namebuf hbuf
        rw [slotOf_padded hl] at he
        cases hs : s.stab.slot l with
        | none =>
          rw [hs] at he
          cases he
          exact returns_counts hc hstep
        | some i =>
          rw [hs] at he
          obtain ⟨-, x, hx, -⟩ := slot_some hs
          exact turn_counts h hc hstep (callName_eq hn hl hbuf) rfl hs hx he
    · cases he
  | signal t read name =>
    simp only [step] at he
    split at he
    · unfold signal at he
      split at he
      · cases he
        exact returns_counts hc hstep
      · rename_i hn
        obtain ⟨buf, hbuf, he⟩ := Option.bind_eq_some_iff.1 he
        obtain ⟨l, hl, rfl⟩ := isName_of_namebuf hbuf
        have hname := callName_eq hn hl hbuf
        rw [slotOf_padded hl] at he
        cases hs : s.stab.slot l with
        | none =>
          rw [hs] at he
          cases he
          exact returns_counts hc hstep
        | some i =>
          obtain ⟨-, x, hx, -⟩ := slot_some hs
          rw [hs] at he
          simp only [hx, Option.bind_eq_bind, Option.bind_some, Option.some.injEq] at he
          obtain ⟨hpos, hcount⟩ := hc l x.sem (find_of_slot hs hx)
          -- the value is not the largest one
          have hlt : x.sem.value.toInt ≠ 2 ^ 31 - 1 := fun hmax => hok ⟨l, x.sem, hname, find_of_slot hs hx, hmax⟩
          have hmax := BitVec.toInt_lt (x := x.sem.value)
          have hadd : (x.sem.value + 1).toInt = x.sem.value.toInt + 1 := toInt_add_one hpos (by omega)
          subst he
          rw [record_returns hstep (by simp [returns, SemCall.caller]) hname]
          show Counts (s.stab.setSem i x x.sem.v.1).find _
          rw [(setSem_find h.good hs hx _).1]
          apply hc.update
          · rw [Semaphore.v_value, hadd]
            omega
          · rw [Semaphore.v_value, hadd, hcount]
            rfl
    · cases he
  | resume t =>
    simp only [step, resume] at he
    obtain ⟨i, hi, he⟩ := Option.bind_eq_some_iff.1 he
    obtain ⟨x, hx, he⟩ := Option.bind_eq_some_iff.1 he
    split at he
    · cases he
    · have hname : s.stab.nameAt i = some (str x.semName 0 49) := by rw [nameAt, hx, Option.map_some]
      have hs := h.good.slot_eq (h.waiting t i hi).1 hname
      have hsem : semaphoreOf s (.resume t) = some (str x.semName 0 49) := by
        rw [semaphoreOf, hi, Option.bind_some, hname]
      exact turn_counts h hc hstep hsem rfl hs hx he

/-- The `Signal` that overflows makes the value the smallest `int`. -/
theorem signal_overflows (h : Inv s) (hover : Overflows s e) (he : step s e = some s') :
    ∃ l sem, s'.stab.find l = some sem ∧ sem.value.toInt = -2 ^ 31 := by
  cases e with
  | createSem t read name sval => exact hover.elim
  | wait t read name => exact hover.elim
  | resume t => exact hover.elim
  | signal t read name =>
    obtain ⟨l, sem, hname, hfind, hmax⟩ := hover
    have hn : name ≠ 0 := by
      intro h0
      rw [callName, if_pos h0] at hname
      cases hname
    rw [callName, if_neg hn] at hname
    obtain ⟨buf, hbuf, hstr⟩ := Option.map_eq_some_iff.1 hname
    obtain ⟨l', hl', rfl⟩ := isName_of_namebuf hbuf
    obtain rfl : l' = l := by rw [← hstr, str_name hl']
    obtain ⟨i, hs, hi⟩ := Option.bind_eq_some_iff.1 hfind
    obtain ⟨x, hx, rfl⟩ := Option.map_eq_some_iff.1 hi
    simp only [step] at he
    split at he
    · simp only [signal, if_neg hn, hbuf, Option.bind_eq_bind, Option.bind_some, slotOf_padded hl', hs, hx,
        Option.some.injEq] at he
      subst he
      refine ⟨l', x.sem.v.1, ?_, ?_⟩
      · show (s.stab.setSem i x x.sem.v.1).find l' = _
        rw [(setSem_find h.good hs hx _).1, Function.update_self]
      · have hword : x.sem.value = 0x7fffffff := BitVec.eq_of_toInt_eq hmax
        rw [Semaphore.v_value, hword]
        rfl
    · cases he

end SemState

open SemState in
/-- **Semaphore values are never negative** in a run in which no `Signal` meets the value 2^31 - 1: each is
the count of its semaphore, and `Wait` blocks when that is 0. -/
theorem semaphore_values {x : SemState × (List Byte → Int)}
    (h : countingSystem.ReachableBy (fun x e => ¬ Overflows x.1 e) x) {l : List Byte} {sem : Semaphore}
    (hfind : x.1.stab.find l = some sem) :
    0 ≤ sem.value.toInt ∧ sem.value.toInt = x.2 l ∧
      (x.2 l = 0 → ∀ t read name, x.1.waiting t = none → name ≠ 0 → HasString read name l →
        ∃ s', step x.1 (.wait t read name) = some s' ∧ s'.result t = none ∧ s'.waiting t = x.1.stab.slot l) := by
  have hinv : Inv x.1 ∧ Counts x.1.stab.find x.2 := by
    refine System.ReachableBy.invariant (I := fun x => Inv x.1 ∧ Counts x.1.stab.find x.2) ?_ ?_ h
    · rintro ⟨s, count⟩ ⟨hinit, -⟩
      refine ⟨reachable_inv (.init hinit), ?_⟩
      obtain ⟨junk, rfl⟩ := hinit
      intro l sem hsome
      obtain ⟨i, -, hi⟩ := Option.bind_eq_some_iff.1 hsome
      cases hi
    · rintro ⟨s, count⟩ e y - ⟨hs, hc⟩ hok he
      obtain ⟨s', hs', rfl⟩ := Option.map_eq_some_iff.1 he
      exact ⟨step_inv hs hs', step_counts hs hc hok hs'⟩
  obtain ⟨hpos, hcount⟩ := hinv.2 l sem hfind
  refine ⟨hpos, hcount, ?_⟩
  intro hzero t read name hw hn hstr
  obtain ⟨s', hs', hcase⟩ := wait_spec hinv.1 hw hn hstr
  refine ⟨s', hs', ?_⟩
  rcases hcase with ⟨hnone, -, -⟩ | ⟨sem', hfind', -, -, hblocks⟩
  · rw [hfind] at hnone
    cases hnone
  · rw [hfind] at hfind'
    cases hfind'
    exact hblocks (toInt_eq_zero.mp (hcount.trans hzero))

namespace SemState

/-- "M" is created with the largest value. -/
def createMax : SemCall := .createSem 1 nameM 4 0x7fffffff

end SemState

open SemState in
theorem semaphore_values_createMax : ∃ x sem, countingSystem.step (start, fun _ => 0) createMax = some x ∧
    x.1.stab.find [77] = some sem ∧ 0 ≤ sem.value.toInt ∧ sem.value.toInt = x.2 [77] := by
  have hcreate : ∃ x sem, countingSystem.step (start, fun _ => 0) createMax = some x ∧ x.1.stab.find [77] = some sem :=
    ⟨_, _, rfl, rfl⟩
  obtain ⟨x, sem, hx, hsem⟩ := hcreate
  obtain ⟨hpos, hcount, -⟩ := semaphore_values (.step (.init ⟨⟨0, rfl⟩, trivial⟩) id hx) hsem
  exact ⟨x, sem, hx, hsem, hpos, hcount⟩

open SemState in
/-- `Signal` after `CreateSem` with 2^31 - 1: both return 0, and the value is -2^31. -/
theorem semaphore_wraps : ∃ s s' sem, system.run start [createMax] = some s ∧ s.result 1 = some 0 ∧
    system.step s (.signal 2 nameM 4) = some s' ∧ s'.result 2 = some 0 ∧ system.Reachable s' ∧
    s'.stab.find [77] = some sem ∧ sem.value.toInt < 0 := by
  have hrun : ∃ s s' sem, system.run start [createMax] = some s ∧ s.result 1 = some 0 ∧
      system.step s (.signal 2 nameM 4) = some s' ∧ s'.result 2 = some 0 ∧
      s'.stab.find [77] = some sem ∧ sem.value.toInt < 0 :=
    ⟨_, _, _, rfl, rfl, rfl, rfl, rfl, by decide⟩
  obtain ⟨s, s', sem, hs, hr, hs', hr', hsem, hneg⟩ := hrun
  have hreach : system.Reachable s := System.reachable_of_run [createMax] ⟨0, rfl⟩ hs
  exact ⟨s, s', sem, hs, hr, hs', hr', hreach.step hs', hsem, hneg⟩

end Nachos
