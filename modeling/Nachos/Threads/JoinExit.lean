import Nachos.Threads.PtableInv

/-!
# Joins and exits

The join semaphore and the exit code are in the *parent's* entry, so they are shared by all its
children; and the entry of the child is found by the address of its thread, so also by a process
whose thread is placed where that of a dead one was.

* `step_cases` — what a step can do to exit codes, join semaphores, the log and the threads that
  use them.
* `join_exit_paired` — in a run in which no process that exits releases a join of another one, and
  in which a join of `d` that finds the semaphore raised is a join of the last process that has
  released it, every join returns the exit code of the process it names.  `siblingRun` is a run in
  which a join returns the code of a sibling, `strangerRun` one in which it returns that of a
  process of another parent.
-/

set_option autoImplicit false

namespace Nachos

namespace PState

open Transition

/-! ## What a step can do -/

/-- The places that the invariants of this module say something about. -/
def tracked : Pc → Bool
  | .dead | .created | .execSpace _ _ | .joinP _ _ | .joinReturn _ _ | .exiting | .finished => true
  | _ => false

/-- Only threads at other places have moved, to other places; the main thread may have ended. -/
def Untracked (s s' : PState) : Prop :=
  ∀ t, s'.pc t = s.pc t ∨
    tracked (s.pc t) = false ∧ (tracked (s'.pc t) = false ∨ s'.pc t = .dead ∧ s.home t = none)

/-- Nothing that matters here: the log stays, and slots with a thread keep thread, exit code and
    join semaphore. -/
structure Quiet (s s' : PState) : Prop where
  log : s'.log = s.log
  home : s'.home = s.home
  entry : ∀ i c u, s.pcb i = some c → c.thread = some u → ∃ c', s'.pcb i = some c' ∧
    c'.thread = some u ∧ c'.exitcode = c.exitcode ∧ c'.joinsem.value = c.joinsem.value
  est : ∀ i, Established (shapes s') i → Established (shapes s) i
  pcs : Untracked s s'

variable {s s' : PState}

theorem Quiet.refl (s : PState) : Quiet s s :=
  ⟨rfl, rfl, fun _ c _ hc hu => ⟨c, hc, hu, rfl, rfl⟩, fun _ h => h, fun _ => .inl rfl⟩

theorem Untracked.same (h : s'.pc = s.pc) : Untracked s s' := fun t => .inl (congrFun h t)

theorem Untracked.update {t : Tid} {p : Pc} (h : s'.pc = Function.update s.pc t p)
    (ht : tracked (s.pc t) = false) (hp : tracked p = false ∨ p = .dead ∧ s.home t = none) :
    Untracked s s' := by
  intro u
  rw [h]
  rcases eq_or_ne u t with rfl | hne
  · rw [Function.update_self]
    exact .inr ⟨ht, hp⟩
  · rw [Function.update_of_ne hne]
    exact .inl rfl

theorem afterExec_untracked (home : Option Nat) :
    tracked (afterExec home) = false ∨ afterExec home = .dead ∧ home = none := by
  cases home with
  | none => exact .inr ⟨rfl, rfl⟩
  | some i => exact .inl rfl

/-- Only threads at places that are not tracked have moved; the table stays. -/
theorem Quiet.ofPc (hlog : s'.log = s.log) (hhome : s'.home = s.home) (hpcb : s'.pcb = s.pcb)
    (hpcs : Untracked s s') : Quiet s s' := by
  have hshapes : shapes s' = shapes s := by
    funext i
    rw [shapes, shapes, hpcb]
  refine ⟨hlog, hhome, ?_, ?_, hpcs⟩
  · intro i c u hc hu
    rw [hpcb]
    exact ⟨c, hc, hu, rfl, rfl⟩
  · intro i hi
    rwa [hshapes] at hi

/-- A slot without a thread changes. -/
theorem Quiet.ofUnborn {i : Nat} {x : Option PCB} (hlog : s'.log = s.log) (hhome : s'.home = s.home)
    (hpcb : s'.pcb = Function.update s.pcb i x) (hi : ¬ Established (shapes s) i)
    (hx : ∀ c, x = some c → c.thread = none) (hpcs : Untracked s s') : Quiet s s' := by
  refine ⟨hlog, hhome, ?_, ?_, hpcs⟩
  · intro j c u hc hu
    have hne : j ≠ i := by
      rintro rfl
      exact hi ⟨shape c, u, by simp [shapes, hc], hu⟩
    rw [hpcb, Function.update_of_ne hne]
    exact ⟨c, hc, hu, rfl, rfl⟩
  · intro j hj
    obtain ⟨c, u, hc, hu⟩ := pcb_of_established hj
    rw [hpcb] at hc
    rcases eq_or_ne j i with rfl | hne
    · rw [Function.update_self] at hc
      rw [hx c hc] at hu
      cases hu
    · rw [Function.update_of_ne hne] at hc
      exact ⟨shape c, u, by simp [shapes, hc], hu⟩

/-- An entry changes in its lock, its counter or the queue of its join semaphore. -/
theorem Quiet.ofEntry {i : Nat} {c c' : PCB} (hlog : s'.log = s.log) (hhome : s'.home = s.home)
    (hc : s.pcb i = some c) (hpcb : s'.pcb = Function.update s.pcb i (some c'))
    (hthread : c'.thread = c.thread) (hcode : c'.exitcode = c.exitcode)
    (hval : c'.joinsem.value = c.joinsem.value) (hpcs : Untracked s s') : Quiet s s' := by
  refine ⟨hlog, hhome, ?_, ?_, hpcs⟩
  · intro j d u hd hu
    rw [hpcb]
    rcases eq_or_ne j i with rfl | hne
    · rw [hc] at hd
      cases hd
      exact ⟨c', Function.update_self _ _ _, hthread.trans hu, hcode, hval⟩
    · rw [Function.update_of_ne hne]
      exact ⟨d, hd, hu, rfl, rfl⟩
  · intro j hj
    obtain ⟨d, u, hd, hu⟩ := pcb_of_established hj
    rw [hpcb] at hd
    rcases eq_or_ne j i with rfl | hne
    · rw [Function.update_self] at hd
      cases hd
      exact ⟨shape c, u, by simp [shapes, hc], hthread.symm.trans hu⟩
    · rw [Function.update_of_ne hne] at hd
      exact ⟨shape d, u, by simp [shapes, hd], hu⟩

/-- The steps that are not quiet. -/
inductive Loud (s : PState) : PEvent → PState → Prop where
  /-- `new Thread` -/
  | opened {t u : Tid} {pid : Nat} {ppid : Int} (hpc : s.pc t = .execOpen pid ppid) (hu : s.pc u = .dead) :
      Loud s (.opened t (some u)) (s.execOpened t pid ppid (some u))
  /-- `Fork`, or the hand-over to the first process -/
  | loaded {t : Tid} {pid : Nat} {ppid : Int} (hpc : s.pc t = .execSpace pid ppid) :
      Loud s (.loaded t) (s.execLoaded t pid ppid)
  /-- `JoinUpdate` passes its checks -/
  | joins {t : Tid} {which pid : Nat} {c target : PCB} (hpc : s.pc t = .user)
      (hslot : s.slotOf t = some which) (hc : s.pcb which = some c)
      (htarget : s.pcb pid = some target) (hparent : target.parentId = which) :
      Loud s (.callJoin t pid)
        ((s.setPcb which (some { c with numwait := c.numwait + 1 })).setPc t (.joinP which pid))
  /-- `joinsem->P()` completes -/
  | passes {t : Tid} {which pid : Nat} {c : PCB} (hpc : s.pc t = .joinP which pid)
      (hc : s.pcb which = some c) (hv : c.joinsem.value ≠ 0) :
      Loud s (.go t) ((s.setPcb which (some { c with
        joinsem := { c.joinsem with value := c.joinsem.value - 1 } })).setPc t (.joinReturn which pid))
  /-- `JoinUpdate` returns -/
  | returns {t : Tid} {which pid : Nat} {c : PCB} (hpc : s.pc t = .joinReturn which pid)
      (hc : s.pcb which = some c) :
      Loud s (.go t) { s.setPc t .user with log := .joined which pid c.exitcode :: s.log }
  /-- `ExitUpdate` of the process of slot `child`, which the search finds in slot `which` -/
  | exits {t : Tid} {child which parent : Nat} {c p : PCB} (ecd : Word) (hpc : s.pc t = .user)
      (hchild : s.home t = some child) (hslot : s.slotOf t = some which) (hc : s.pcb which = some c)
      (hparent : c.parentId = parent) (hp : s.pcb parent = some p) :
      Loud s (.callExit t ecd) { (s.setPcb parent (some { p with
          exitcode := ecd, numwait := p.numwait - 1, joinsem := p.joinsem.v.1 })).setPc t .exiting with
        log := .exited child parent ecd :: s.log }
  /-- `Thread::Finish` -/
  | finishes {t : Tid} (hpc : s.pc t = .exiting) : Loud s (.go t) (s.setPc t .finished)
  /-- `delete threadToBeDestroyed` -/
  | deleted {t : Tid} (hpc : s.pc t = .finished) : Loud s (.deleted t) (s.setPc t .dead)

theorem execFail_quiet {t : Tid} (ht : tracked (s.pc t) = false) : Quiet s (s.execFail t) :=
  Quiet.ofPc rfl rfl rfl (.update rfl ht (afterExec_untracked _))

theorem newPcb_quiet {t : Tid} (ht : tracked (s.pc t) = false) (bm : BitMap) (name : Name)
    {pid : Nat} (ppid : Int) (hpid : s.pcb pid = none) :
    Quiet s (newPcb { s with bm := bm } t name pid ppid) := by
  refine Quiet.ofUnborn rfl rfl rfl ?_ ?_ (.update rfl ht (.inl rfl))
  · rintro ⟨c, u, hc, -⟩
    rw [shapes, hpid] at hc
    cases hc
  · intro c hc
    cases hc
    rfl

theorem execBody_quiet (h : Inv s) {t : Tid} {name : Option Name}
    (hpc : s.pc t = .execBody name) : Quiet s (s.execBody t name) := by
  have ht : tracked (s.pc t) = false := by rw [hpc]; rfl
  have hfree : ∀ i < MAX_PROCESS, s.bm.bit i = false → s.pcb i = none := by
    intro i hi hbit
    by_contra hne
    rw [(h.slots.bits i hi).2 (by simpa [shapes] using hne)] at hbit
    cases hbit
  unfold execBody
  split
  · exact execFail_quiet ht
  · split
    · rename_i hnum
      rw [← h.slots.numBits] at hnum
      refine newPcb_quiet ht _ _ _ (hfree 0 (by decide) ?_)
      exact BitMap.numClear_eq_numBits.1 hnum 0 (by rw [h.slots.numBits]; decide)
    · split
      · exact execFail_quiet ht
      · split
        · exact execFail_quiet ht
        · rcases s.bm.find_spec with ⟨i, hf, hi, hbit, -⟩ | ⟨hf, -⟩
          · rw [hf]
            rw [h.slots.numBits] at hi
            exact newPcb_quiet ht _ _ _ (hfree i hi hbit)
          · rw [hf]
            exact execFail_quiet ht

theorem execMultex_quiet (h : Inv s) {t : Tid} {name : Name} {pid : Nat} {ppid : Int}
    (hpc : s.pc t = .execMultex name pid ppid) : Quiet s (s.execMultex t name pid ppid) := by
  have ht : tracked (s.pc t) = false := by rw [hpc]; rfl
  have hok := h.pcs t
  rw [hpc] at hok
  have hno := hok.1.not_established
  obtain ⟨⟨x, hx, hnone⟩, -⟩ := hok
  obtain ⟨c, hc, rfl⟩ := pcb_of_shape hx
  have hthread : c.thread = none := hnone
  unfold execMultex
  rw [hc]
  rcases eq_or_ne c.multex.value 0 with hz | hz
  · simp only [Semaphore.p_zero hz]
    exact Quiet.ofEntry rfl rfl hc rfl rfl rfl rfl (.same rfl)
  · simp only [Semaphore.p_pos hz, hthread, Option.isSome_none, Bool.false_eq_true, if_false]
    refine Quiet.ofUnborn rfl rfl rfl hno ?_ (.update rfl ht (.inl rfl))
    intro d hd
    cases hd
    rfl

theorem callJoin_cases {t : Tid} {pid : Int} (hpc : s.pc t = .user) :
    Quiet s (s.callJoin t pid) ∨ Loud s (.callJoin t pid) (s.callJoin t pid) := by
  unfold callJoin
  split
  · exact .inl (Quiet.refl s)
  · rename_i hrange
    split
    · exact .inl (Quiet.refl s)
    · rename_i which hslot
      obtain ⟨-, c, hc, -⟩ := slotOf_spec hslot
      rw [hc]
      cases htarget : s.pcb pid.toNat with
      | none => exact .inl (Quiet.refl s)
      | some target =>
        simp only
        split
        · exact .inl (Quiet.refl s)
        · rename_i hparent
          have hpid : ((pid.toNat : Nat) : Int) = pid := Int.toNat_of_nonneg (by omega)
          have hloud := Loud.joins hpc hslot hc htarget (not_not.1 hparent)
          rw [hpid] at hloud
          exact .inr hloud

theorem callExit_cases (h : Inv s) {t : Tid} {ecd : Word} (hpc : s.pc t = .user) :
    Quiet s (s.callExit t ecd) ∨ Loud s (.callExit t ecd) (s.callExit t ecd) := by
  have ht : tracked (s.pc t) = false := by rw [hpc]; rfl
  unfold callExit
  split
  · exact .inl (Quiet.refl s)
  · rename_i which hslot
    obtain ⟨-, c, hc, hthread⟩ := slotOf_spec hslot
    rw [hc]
    simp only
    rcases h.parent hc hthread with ⟨-, hpar⟩ | ⟨-, p, cp, up, hpar, hcp, -, -⟩
    · rw [if_pos hpar]
      exact .inl (Quiet.ofPc rfl rfl rfl (.update rfl ht (.inl rfl)))
    · rw [if_neg (by rw [hpar]; omega)]
      obtain ⟨child, -, hchild, -⟩ := h.home_of_user hpc rfl
      have hloud := Loud.exits ecd hpc hchild hslot hc hpar hcp
      rw [hpar, Int.toNat_natCast, hcp, hchild]
      exact .inr hloud

theorem joinP_cases (h : Inv s) {t : Tid} {which pid : Nat} (hpc : s.pc t = .joinP which pid) :
    Quiet s (s.joinP t which pid) ∨ Loud s (.go t) (s.joinP t which pid) := by
  have hest := h.pcs t
  rw [hpc] at hest
  obtain ⟨c, u, hc, -⟩ := pcb_of_established hest
  unfold joinP
  rw [hc]
  rcases eq_or_ne c.joinsem.value 0 with hz | hz
  · simp only [Semaphore.p_zero hz]
    exact .inl (Quiet.ofEntry rfl rfl hc rfl rfl rfl rfl (.same rfl))
  · simp only [Semaphore.p_pos hz]
    exact .inr (Loud.passes hpc hc hz)

/-- **Every step is quiet or one of eight.** -/
theorem step_cases {e : PEvent} (h : Inv s) (he : step s e = some s') :
    Quiet s s' ∨ Loud s e s' := by
  unfold step at he
  split at he
  · cases he
  · cases e with
    | callExec t name =>
      simp only at he
      split at he
      · rename_i hpc
        cases he
        exact .inl (Quiet.ofPc rfl rfl rfl (.update rfl (by rw [hpc]; rfl) (.inl rfl)))
      · rename_i hpc
        cases he
        exact .inl (Quiet.ofPc rfl rfl rfl (.update rfl (by rw [hpc]; rfl) (.inl rfl)))
      · cases he
    | callJoin t pid =>
      simp only at he
      split at he
      · cases he
        exact callJoin_cases (by assumption)
      · cases he
    | callExit t ecd =>
      simp only at he
      split at he
      · cases he
        exact callExit_cases h (by assumption)
      · cases he
    | opened t thread =>
      simp only at he
      split at he
      · rename_i pid ppid hpc
        split at he
        · rename_i hdead
          cases he
          cases thread with
          | some u => exact .inr (Loud.opened hpc (hdead u rfl))
          | none =>
            have ht : tracked (s.pc t) = false := by rw [hpc]; rfl
            have hok := h.pcs t
            rw [hpc] at hok
            obtain ⟨c, hc, -⟩ := pcb_of_shape hok.1
            unfold execOpened
            rw [hc]
            exact .inl (Quiet.ofEntry rfl rfl hc rfl rfl rfl rfl (.update rfl ht (.inl rfl)))
        · cases he
      · cases he
    | loaded t =>
      simp only at he
      split at he
      · cases he
        exact .inr (Loud.loaded (by assumption))
      · cases he
    | deleted t =>
      simp only at he
      split at he
      · cases he
        exact .inr (Loud.deleted (by assumption))
      · cases he
    | go t =>
      simp only at he
      split at he
      · rename_i name hpc
        split at he
        · cases he
        · split at he
          · cases he
            exact .inl (Quiet.ofPc rfl rfl rfl (.same rfl))
          · cases he
            exact .inl (Quiet.ofPc rfl rfl rfl (.update rfl (by rw [hpc]; rfl) (.inl rfl)))
      · cases he
        exact .inl (execBody_quiet h (by assumption))
      · split at he
        · cases he
        · cases he
          exact .inl (execMultex_quiet h (by assumption))
      · rename_i pid hpc
        cases he
        have ht : tracked (s.pc t) = false := by rw [hpc]; rfl
        have hest := h.pcs t
        rw [hpc] at hest
        obtain ⟨c, u, hc, -⟩ := pcb_of_established hest
        unfold execUnlock
        rw [hc]
        exact .inl (Quiet.ofEntry rfl rfl hc rfl rfl rfl rfl (.update rfl ht (.inl rfl)))
      · rename_i hpc
        cases he
        exact .inl (Quiet.ofPc rfl rfl rfl (.update rfl (by rw [hpc]; rfl) (.inl rfl)))
      · rename_i pid hpc
        cases he
        have ht : tracked (s.pc t) = false := by rw [hpc]; rfl
        have hun := h.pcs t
        rw [hpc] at hun
        exact .inl (Quiet.ofUnborn rfl rfl rfl hun.not_established (fun _ hc => nomatch hc)
          (.update rfl ht (afterExec_untracked _)))
      · split at he
        · cases he
        · cases he
          exact joinP_cases h (by assumption)
      · rename_i which pid hpc
        cases he
        have hest := h.pcs t
        rw [hpc] at hest
        obtain ⟨c, u, hc, -⟩ := pcb_of_established hest
        unfold joinReturn
        rw [hc]
        exact .inr (Loud.returns hpc hc)
      · cases he
        exact .inr (Loud.finishes (by assumption))
      · cases he

/-! ## Joins return the right exit code, if siblings keep out of the way -/

/-- The last process whose exit has released slot `q`, with its exit code. -/
def lastExit : List PLog → Nat → Option (Nat × Word)
  | [], _ => none
  | .exited c p v :: l, q => if p = q then some (c, v) else lastExit l q
  | .created _ :: l, q => lastExit l q
  | .joined _ _ _ :: l, q => lastExit l q

/-- Every join that has returned a value was preceded by an exit, with that value, of the
    process it names. -/
def Paired : List PLog → Prop
  | [] => True
  | .joined _ pid v :: l => (∃ p, PLog.exited pid p v ∈ l) ∧ Paired l
  | .created _ :: l => Paired l
  | .exited _ _ _ :: l => Paired l

/-- A thread inside `JoinUpdate(pid)`, called by slot `which`. -/
def joining : Pc → Option (Nat × Nat)
  | .joinP which pid | .joinReturn which pid => some (which, pid)
  | _ => none

/-- No process that exits releases a join of another one; and a join that finds the semaphore raised
    is a join of the last process that has released it. -/
def Orderly (s : PState) : PEvent → Prop
  | .callExit t _ => ∀ which ∈ s.slotOf t, ∀ parent ∈ parentSlot s which,
      ∀ u < s.top, ∀ j ∈ joining (s.pc u), j.1 = parent → s.home t = some j.2
  | .callJoin t pid => ∀ which ∈ s.slotOf t, ∀ c ∈ s.pcb which, ∀ target ∈ s.pcb pid.toNat,
      0 ≤ pid → pid < MAX_PROCESS → target.parentId = which →
      c.joinsem.value = 0 ∨ (lastExit s.log which).map Prod.fst = some pid.toNat
  | _ => True

instance (s : PState) : ∀ e, Decidable (Orderly s e)
  | .callExit t _ => inferInstanceAs (Decidable (∀ which ∈ s.slotOf t,
      ∀ parent ∈ parentSlot s which, ∀ u < s.top, ∀ j ∈ joining (s.pc u),
        j.1 = parent → s.home t = some j.2))
  | .callJoin t pid => inferInstanceAs (Decidable (∀ which ∈ s.slotOf t, ∀ c ∈ s.pcb which,
      ∀ target ∈ s.pcb pid.toNat, 0 ≤ pid → pid < MAX_PROCESS → target.parentId = which →
        c.joinsem.value = 0 ∨ (lastExit s.log which).map Prod.fst = some pid.toNat))
  | .callExec _ _ | .go _ | .opened _ _ | .loaded _ | .deleted _ => inferInstanceAs (Decidable True)

/-- The exit code in an entry is that of the last process that has released it. -/
def LastOk (pcb : Nat → Option PCB) (log : List PLog) : Prop :=
  ∀ p d v, lastExit log p = some (d, v) →
    ∃ c u, pcb p = some c ∧ c.thread = some u ∧ c.exitcode = v

theorem LastOk.update {pcb : Nat → Option PCB} {log : List PLog} {i : Nat} {c c' : PCB}
    (h : LastOk pcb log) (hc : pcb i = some c) (hcode : c'.exitcode = c.exitcode)
    (hthread : c.thread ≠ none → c'.thread ≠ none) :
    LastOk (Function.update pcb i (some c')) log := by
  intro p d v hl
  obtain ⟨c1, u, hc1, hu, hv⟩ := h p d v hl
  rcases eq_or_ne p i with rfl | hne
  · rw [hc] at hc1
    cases hc1
    obtain ⟨u', hu'⟩ := Option.ne_none_iff_exists'.1 (hthread (by rw [hu]; simp))
    exact ⟨c', u', Function.update_self _ _ _, hu', hcode.trans hv⟩
  · exact ⟨c1, u, (Function.update_of_ne hne _ _).trans hc1, hu, hv⟩

structure Pairing (s : PState) : Prop where
  last : LastOk s.pcb s.log
  waiting : ∀ t p d c, s.pc t = .joinP p d → s.pcb p = some c → c.joinsem.value ≠ 0 →
    (lastExit s.log p).map Prod.fst = some d
  returning : ∀ t p d, s.pc t = .joinReturn p d → (lastExit s.log p).map Prod.fst = some d
  paired : Paired s.log

theorem mem_of_lastExit {l : List PLog} {p d : Nat} {v : Word} (h : lastExit l p = some (d, v)) :
    PLog.exited d p v ∈ l := by
  induction l with
  | nil => cases h
  | cons x l ih =>
    cases x with
    | created j => exact List.mem_cons_of_mem _ (ih h)
    | joined w j u => exact List.mem_cons_of_mem _ (ih h)
    | exited c q u =>
      rw [lastExit] at h
      split at h
      · rename_i hq
        cases h
        rw [hq]
        exact List.mem_cons_self
      · exact List.mem_cons_of_mem _ (ih h)

/-- A tracked thread has not moved in a quiet step. -/
theorem Quiet.pc_eq (h : Quiet s s') {t : Tid} {p : Pc} (hp : s'.pc t = p)
    (ht : tracked p = true) (hd : p ≠ .dead) : s.pc t = p := by
  rcases h.pcs t with heq | ⟨-, hn | ⟨hdead, -⟩⟩
  · rw [← heq]
    exact hp
  · rw [hp, ht] at hn
    cases hn
  · exact absurd (hp.symm.trans hdead) hd

theorem Quiet.pairing (hq : Quiet s s') (hi : Inv s) (h : Pairing s) : Pairing s' := by
  refine ⟨?_, ?_, ?_, by rw [hq.log]; exact h.paired⟩
  · intro p d v hl
    rw [hq.log] at hl
    obtain ⟨c, u, hc, hu, hv⟩ := h.last p d v hl
    obtain ⟨c', hc', hu', hcode, -⟩ := hq.entry p c u hc hu
    exact ⟨c', u, hc', hu', hcode.trans hv⟩
  · intro t p d c' hpc hc' hv
    rw [hq.log]
    have hpc0 := hq.pc_eq hpc rfl (by simp)
    have hest := hi.pcs t
    rw [hpc0] at hest
    obtain ⟨c, u, hc, hu⟩ := pcb_of_established hest
    obtain ⟨c1, hc1, -, -, hval⟩ := hq.entry p c u hc hu
    rw [hc'] at hc1
    cases hc1
    exact h.waiting t p d c hpc0 hc (by rw [← hval]; exact hv)
  · intro t p d hpc
    rw [hq.log]
    exact h.returning t p d (hq.pc_eq hpc rfl (by simp))

/-- A thread other than `t` after `t` has moved. -/
theorem pc_of_update {pc : Tid → Pc} {t u : Tid} {p q : Pc}
    (h : Function.update pc t p u = q) (hne : p ≠ q) : pc u = q := by
  rcases eq_or_ne u t with rfl | hut
  · rw [Function.update_self] at h
    exact absurd h hne
  · rwa [Function.update_of_ne hut] at h

/-- A thread that was at a place where `t` was not is still there. -/
theorem update_of_pc {pc : Tid → Pc} {t u : Tid} {p q : Pc} (h : pc u = q) (hne : pc t ≠ q) :
    Function.update pc t p u = q := by
  have hut : u ≠ t := by
    rintro rfl
    exact hne h
  rw [Function.update_of_ne hut, h]

/-- An entry of the table after slot `i` has been written. -/
theorem pcb_of_update {pcb : Nat → Option PCB} {i j : Nat} {x c : PCB}
    (h : Function.update pcb i (some x) j = some c) : (j = i ∧ c = x) ∨ (j ≠ i ∧ pcb j = some c) := by
  rcases eq_or_ne j i with rfl | hne
  · rw [Function.update_self] at h
    cases h
    exact .inl ⟨rfl, rfl⟩
  · rw [Function.update_of_ne hne] at h
    exact .inr ⟨hne, h⟩

theorem opened_pairing {t u : Tid} {pid : Nat} {ppid : Int} (hi : Inv s) (h : Pairing s)
    (hpc : s.pc t = .execOpen pid ppid) : Pairing (s.execOpened t pid ppid (some u)) := by
  have hok := hi.pcs t
  rw [hpc] at hok
  obtain ⟨c, hc, -⟩ := pcb_of_shape hok.1
  unfold execOpened
  rw [hc]
  simp only
  refine ⟨h.last.update hc rfl (fun _ => by simp), ?_, ?_, h.paired⟩
  · intro w p d c' hw hc' hv
    have hw0 : s.pc w = .joinP p d := pc_of_update (pc_of_update hw (by simp)) (by simp)
    rcases pcb_of_update hc' with ⟨rfl, rfl⟩ | ⟨-, hc0⟩
    · exact h.waiting w p d c hw0 hc hv
    · exact h.waiting w p d c' hw0 hc0 hv
  · intro w p d hw
    exact h.returning w p d (pc_of_update (pc_of_update hw (by simp)) (by simp))

theorem loaded_pairing {t : Tid} {pid : Nat} {ppid : Int} (hi : Inv s) (h : Pairing s)
    (hpc : s.pc t = .execSpace pid ppid) : Pairing (s.execLoaded t pid ppid) := by
  have hok := hi.pcs t
  rw [hpc] at hok
  obtain ⟨child, hx, -⟩ := hok
  obtain ⟨c, hc, hshape⟩ := pcb_of_shape hx
  have hthread : c.thread = some child := congrArg Shape.thread hshape
  unfold execLoaded
  simp only [hc, hthread]
  split
  · refine ⟨h.last, ?_, ?_, h.paired⟩
    · intro u p d c' hu
      exact h.waiting u p d c' (pc_of_update (pc_of_update hu (by simp)) (by simp))
    · intro u p d hu
      exact h.returning u p d (pc_of_update (pc_of_update hu (by simp)) (by simp))
  · refine ⟨h.last, ?_, ?_, h.paired⟩
    · intro u p d c' hu
      exact h.waiting u p d c' (pc_of_update (pc_of_update hu (by simp)) (by simp))
    · intro u p d hu
      exact h.returning u p d (pc_of_update (pc_of_update hu (by simp)) (by simp))

theorem joins_pairing {t : Tid} {which pid : Nat} {c : PCB} (h : Pairing s)
    (hc : s.pcb which = some c)
    (hv : c.joinsem.value = 0 ∨ (lastExit s.log which).map Prod.fst = some pid) :
    Pairing ((s.setPcb which (some { c with numwait := c.numwait + 1 })).setPc t
      (.joinP which pid)) := by
  refine ⟨h.last.update hc rfl id, ?_, ?_, h.paired⟩
  · intro u p d c' hu hc' hval
    rcases eq_or_ne u t with rfl | hne
    · have hpd : Pc.joinP which pid = .joinP p d := (Function.update_self _ _ _).symm.trans hu
      cases hpd
      rcases pcb_of_update hc' with ⟨-, rfl⟩ | ⟨hne, -⟩
      · rcases hv with h0 | hlast
        · exact absurd h0 hval
        · exact hlast
      · exact absurd rfl hne
    · have hu0 : s.pc u = .joinP p d := (Function.update_of_ne hne _ _).symm.trans hu
      rcases pcb_of_update hc' with ⟨rfl, rfl⟩ | ⟨-, hc0⟩
      · exact h.waiting u p d c hu0 hc hval
      · exact h.waiting u p d c' hu0 hc0 hval
  · intro u p d hu
    exact h.returning u p d (pc_of_update hu (by simp))

theorem passes_pairing {t : Tid} {which pid : Nat} {c : PCB} (h : Pairing s)
    (hpc : s.pc t = .joinP which pid) (hc : s.pcb which = some c) (hv : c.joinsem.value ≠ 0) :
    Pairing ((s.setPcb which (some { c with
      joinsem := { c.joinsem with value := c.joinsem.value - 1 } })).setPc t
      (.joinReturn which pid)) := by
  refine ⟨h.last.update hc rfl id, ?_, ?_, h.paired⟩
  · intro u p d c' hu hc' hval
    have hu0 : s.pc u = .joinP p d := pc_of_update hu (by simp)
    rcases pcb_of_update hc' with ⟨rfl, -⟩ | ⟨-, hc0⟩
    · exact h.waiting u p d c hu0 hc hv
    · exact h.waiting u p d c' hu0 hc0 hval
  · intro u p d hu
    rcases eq_or_ne u t with rfl | hne
    · have hpd : Pc.joinReturn which pid = .joinReturn p d :=
        (Function.update_self _ _ _).symm.trans hu
      cases hpd
      exact h.waiting u which pid c hpc hc hv
    · exact h.returning u p d ((Function.update_of_ne hne _ _).symm.trans hu)

theorem returns_pairing {t : Tid} {which pid : Nat} {c : PCB} (h : Pairing s)
    (hpc : s.pc t = .joinReturn which pid) (hc : s.pcb which = some c) :
    Pairing { s.setPc t .user with log := .joined which pid c.exitcode :: s.log } := by
  refine ⟨h.last, ?_, ?_, ?_, h.paired⟩
  · intro u p d c' hu
    exact h.waiting u p d c' (pc_of_update hu (by simp))
  · intro u p d hu
    exact h.returning u p d (pc_of_update hu (by simp))
  · -- the last child that has exited is the one that is joined
    have hlast := h.returning t which pid hpc
    obtain ⟨⟨d, v⟩, hdv, hd⟩ := Option.map_eq_some_iff.1 hlast
    obtain ⟨c1, -, hc1, -, hcode⟩ := h.last which d v hdv
    rw [hc] at hc1
    cases hc1
    have hd' : d = pid := hd
    subst hd'
    exact ⟨which, by rw [hcode]; exact mem_of_lastExit hdv⟩

theorem exits_pairing {t : Tid} {child which parent : Nat} {c p : PCB} {ecd : Word} (hi : Inv s)
    (h : Pairing s) (hslot : s.slotOf t = some which) (hc : s.pcb which = some c)
    (hparent : c.parentId = parent) (hp : s.pcb parent = some p)
    (hjoin : ∀ u d, joining (s.pc u) = some (parent, d) → d = child) :
    Pairing { (s.setPcb parent (some { p with
        exitcode := ecd, numwait := p.numwait - 1, joinsem := p.joinsem.v.1 })).setPc t .exiting with
      log := .exited child parent ecd :: s.log } := by
  have hlast : ∀ q, lastExit (.exited child parent ecd :: s.log) q =
      if parent = q then some (child, ecd) else lastExit s.log q := fun q => rfl
  obtain ⟨up, hup⟩ : ∃ up, p.thread = some up := by
    obtain ⟨-, c', hc', ht⟩ := slotOf_spec hslot
    rw [hc] at hc'
    cases hc'
    rcases hi.parent hc ht with ⟨-, h1⟩ | ⟨-, q, cq, uq, hq, hcq, huq, -⟩
    · rw [hparent] at h1
      omega
    · rw [hparent] at hq
      cases Int.ofNat_inj.1 hq
      rw [hp] at hcq
      cases hcq
      exact ⟨uq, huq⟩
  refine ⟨?_, ?_, ?_, h.paired⟩
  · intro q d v hl
    rcases eq_or_ne parent q with rfl | hne
    · rw [hlast, if_pos rfl] at hl
      cases hl
      exact ⟨_, up, Function.update_self _ _ _, hup, rfl⟩
    · rw [hlast, if_neg hne] at hl
      obtain ⟨c1, u, hc1, hu, hcode⟩ := h.last q d v hl
      exact ⟨c1, u, (Function.update_of_ne (Ne.symm hne) _ _).trans hc1, hu, hcode⟩
  · intro u q d c' hu hc' hval
    have hu0 : s.pc u = .joinP q d := pc_of_update hu (by simp)
    rcases eq_or_ne parent q with rfl | hne
    · rw [hlast, if_pos rfl, hjoin u d (by rw [hu0]; rfl)]
      rfl
    · rw [hlast, if_neg hne]
      exact h.waiting u q d c' hu0 ((Function.update_of_ne (Ne.symm hne) _ _).symm.trans hc') hval
  · intro u q d hu
    have hu0 : s.pc u = .joinReturn q d := pc_of_update hu (by simp)
    rcases eq_or_ne parent q with rfl | hne
    · rw [hlast, if_pos rfl, hjoin u d (by rw [hu0]; rfl)]
      rfl
    · rw [hlast, if_neg hne]
      exact h.returning u q d hu0

/-- A thread ends. -/
theorem ends_pairing {t : Tid} {p : Pc} (h : Pairing s) (hp : ∀ i d, p ≠ .joinP i d)
    (hr : ∀ i d, p ≠ .joinReturn i d) : Pairing (s.setPc t p) :=
  ⟨h.last, fun u i d c' hu => h.waiting u i d c' (pc_of_update hu (hp i d)),
    fun u i d hu => h.returning u i d (pc_of_update hu (hr i d)), h.paired⟩

/-- **One orderly step keeps joins and exits paired.** -/
theorem step_pairing {e : PEvent} (hi : Inv s) (h : Pairing s) (hok : Orderly s e)
    (he : step s e = some s') : Pairing s' := by
  rcases step_cases hi he with hq | hl
  · exact hq.pairing hi h
  · cases hl with
    | opened hpc => exact opened_pairing hi h hpc
    | loaded hpc => exact loaded_pairing hi h hpc
    | joins hpc hslot hc htarget hparent =>
      rename_i t which pid c target
      have hlt : pid < MAX_PROCESS := hi.slots.range pid (by simp [shapes, htarget])
      exact joins_pairing h hc (hok which hslot c hc target htarget (by omega)
        (by exact_mod_cast hlt) hparent)
    | passes hpc hc hv => exact passes_pairing h hpc hc hv
    | returns hpc hc => exact returns_pairing h hpc hc
    | exits ecd hpc hchild hslot hc hparent hp =>
      rename_i t child which parent c p
      apply exits_pairing hi h hslot hc hparent hp
      intro u d hj
      have hu : u < s.top := by
        by_contra hle
        rw [hi.fresh u (Nat.le_of_not_lt hle)] at hj
        cases hj
      have hd := hok which hslot parent (by simp [parentSlot, hc, hparent]) u hu _ hj rfl
      rw [hchild] at hd
      exact (Option.some.inj hd).symm
    | finishes hpc => exact ends_pairing h (by simp) (by simp)
    | deleted hpc => exact ends_pairing h (by simp) (by simp)

theorem boot_pairing (h : Boot s) : Pairing s := by
  refine ⟨?_, ?_, ?_, by rw [h.log]; trivial⟩
  · intro p d v hl
    rw [h.log] at hl
    cases hl
  · intro t p d c hpc
    rw [h.pc] at hpc
    split at hpc <;> cases hpc
  · intro t p d hpc
    rw [h.pc] at hpc
    split at hpc <;> cases hpc

/-- **Joins and exits are paired in orderly runs**: every value a join has returned is the exit
    code of the process it names, which has exited before. -/
theorem join_exit_paired (s : PState) (h : system.ReachableBy Orderly s) : Paired s.log := by
  refine (System.ReachableBy.invariant (I := Pairing) (fun _ hb => boot_pairing hb) ?_ h).paired
  intro s e s' hr hp hok he
  exact step_pairing (reachable_inv hr.reachable) hp hok he

/-- The parent joins its only child, which exits with code 7. -/
def joinRun : List PEvent :=
  firstRun ++ execRun 1 2 [2] ++ [.callJoin 1 1, .go 1, .callExit 2 7, .go 1, .go 1]

theorem join_exit_paired_joinRun : ∃ s, system.runBy Orderly boot0 joinRun = some s ∧
    PLog.joined 0 1 7 ∈ s.log ∧ Paired s.log := by
  have hrun : (system.runBy Orderly boot0 joinRun).map
      (fun s => decide (PLog.joined 0 1 7 ∈ s.log)) = some true := by
    decide +kernel
  obtain ⟨s, hs, hlog⟩ := Option.map_eq_some_iff.1 hrun
  exact ⟨s, hs, of_decide_eq_true hlog,
    join_exit_paired s (System.ReachableBy.runBy (.init boot0_boot) hs)⟩

/-- The parent has two children, joins the first, and is released by the exit of the second. -/
def siblingRun : List PEvent :=
  firstRun ++ execRun 1 2 [2] ++ execRun 1 3 [3] ++
    [.callJoin 1 1, .go 1, .callExit 3 7, .go 1, .go 1]

/-- The first child has not exited at all. -/
theorem siblingRun_not_paired : ∃ s, system.run boot0 siblingRun = some s ∧ system.Reachable s ∧
    PLog.joined 0 1 7 ∈ s.log ∧ ¬ Paired s.log := by
  have hrun : (system.run boot0 siblingRun).map (fun s => s.log) =
      some [.joined 0 1 7, .exited 2 0 7, .created 2, .created 1, .created 0] := by
    decide +kernel
  obtain ⟨s, hs, hlog⟩ := Option.map_eq_some_iff.1 hrun
  refine ⟨s, hs, System.reachable_of_run _ boot0_boot hs, by rw [hlog]; simp, ?_⟩
  rw [hlog]
  rintro ⟨⟨p, hp⟩, -⟩
  simp at hp

/-- The child in slot 1 has exited and been joined.  The thread of a grandchild, in slot 3, is placed
    where its thread was, and exits while the first process joins its second child. -/
def strangerRun : List PEvent :=
  firstRun ++ execRun 1 2 [2] ++ [.callExit 2 5, .go 2, .deleted 2, .callJoin 1 1, .go 1, .go 1] ++
    execRun 1 3 [3] ++ execRun 3 2 [4] ++ [.callJoin 1 2, .go 1, .callExit 2 7, .go 1, .go 1]

/-- The join of slot 2 returns the code of slot 3. -/
example : (system.run boot0 strangerRun).map (fun s => s.log) = some [.joined 0 2 7, .exited 3 0 7,
    .created 3, .created 2, .joined 0 1 5, .exited 1 0 5, .created 1, .created 0] := by
  decide +kernel

end PState

end Nachos
