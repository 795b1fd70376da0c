import Nachos.Threads.JoinExit

/-!
# Slots of processes that have exited

`Thread::Finish` does not return to `ExitUpdate`, so the entry of a process that has exited is
not deleted and its bit stays marked.

* `step_history` — what the log of creations and exits says about the slots.
* `slots_reclaimed_iff` — in a state without a call in progress, slots in use and live processes
  are the same exactly if no process has exited.  In `exitRun` one has.
-/

set_option autoImplicit false

namespace Nachos

namespace PState

open Transition

variable {s s' : PState}

/-- A process has been created in slot `i` and has not exited since. -/
def aliveIn : List PLog → Nat → Bool
  | [], _ => false
  | .created j :: l, i => j == i || aliveIn l i
  | .exited j _ _ :: l, i => j != i && aliveIn l i
  | .joined _ _ _ :: l, i => aliveIn l i

/-- No call of `ExecUpdate`, `JoinUpdate` or `ExitUpdate` is in progress.  A thread that has
    called `Finish` is gone. -/
def Quiescent (s : PState) : Prop :=
  ∀ t, s.pc t = .dead ∨ s.pc t = .boot ∨ s.pc t = .user ∨ s.pc t = .finished

/-- The slots in use are those of live processes; `Find` fails only when all processes are alive;
    and no slot names a thread that has finished, deleted or not, or has made place for another. -/
def Reclaimed (s : PState) : Prop :=
  (∀ i < MAX_PROCESS, (s.pcb i ≠ none ∧ s.bm.bit i = true) ↔ aliveIn s.log i = true) ∧
  (s.bm.find.1 = none → ∀ i < MAX_PROCESS, aliveIn s.log i = true) ∧
  (∀ i c t, s.pcb i = some c → c.thread = some t →
    s.home t = some i ∧ s.pc t ≠ .finished ∧ s.pc t ≠ .dead)

/-- The process has executed `ExitUpdate`, or there is no thread. -/
def ended : Pc → Bool
  | .exiting | .finished | .dead => true
  | _ => false

/-- What the log says about the slots. -/
structure History (s : PState) : Prop where
  created : ∀ i, PLog.created i ∈ s.log → Established (shapes s) i
  gone : ∀ i p v, PLog.exited i p v ∈ s.log → Established (shapes s) i ∧ aliveIn s.log i = false
  starting : ∀ t i ppid, s.pc t = .execSpace i ppid → ∀ p v, PLog.exited i p v ∉ s.log
  started : ∀ i, Established (shapes s) i →
    PLog.created i ∈ s.log ∨ ∃ t ppid, s.pc t = .execSpace i ppid
  live : ∀ i c u, s.pcb i = some c → c.thread = some u →
    (∃ p v, PLog.exited i p v ∈ s.log) ∨ (s.home u = some i ∧ ended (s.pc u) = false)

theorem Quiet.est_mono (hq : Quiet s s') {i : Nat} (h : Established (shapes s) i) :
    Established (shapes s') i := by
  obtain ⟨c, u, hc, hu⟩ := pcb_of_established h
  obtain ⟨c', hc', hu', -⟩ := hq.entry i c u hc hu
  exact ⟨shape c', u, by simp [shapes, hc'], hu'⟩

/-- The thread of a slot is the one it had before. -/
theorem Quiet.entry_back (hq : Quiet s s') {i : Nat} {c' : PCB} {u : Tid} (hc : s'.pcb i = some c')
    (hu : c'.thread = some u) : ∃ c, s.pcb i = some c ∧ c.thread = some u ∧
      c'.joinsem.value = c.joinsem.value := by
  obtain ⟨c, w, hc0, hw⟩ := pcb_of_established (hq.est i ⟨shape c', u, by simp [shapes, hc], hu⟩)
  obtain ⟨c1, hc1, hw1, -, hval⟩ := hq.entry i c w hc0 hw
  rw [hc] at hc1
  cases hc1
  rw [hu] at hw1
  cases hw1
  exact ⟨c, hc0, hw, hval⟩

theorem ended_of_untracked {p : Pc} (h : tracked p = false) : ended p = false := by
  cases p <;> first | rfl | cases h

/-- A thread with a home has not ended in a quiet step. -/
theorem Quiet.ended_eq (hq : Quiet s s') {u : Tid} (hu : s.home u ≠ none) :
    ended (s'.pc u) = ended (s.pc u) := by
  rcases hq.pcs u with heq | ⟨hn, hn' | ⟨-, hnone⟩⟩
  · rw [heq]
  · rw [ended_of_untracked hn, ended_of_untracked hn']
  · exact absurd hnone hu

theorem Quiet.history (hq : Quiet s s') (h : History s) : History s' := by
  refine ⟨?_, ?_, ?_, ?_, ?_⟩ <;> rw [hq.log]
  · exact fun i hi => hq.est_mono (h.created i hi)
  · exact fun i p v hi => ⟨hq.est_mono (h.gone i p v hi).1, (h.gone i p v hi).2⟩
  · exact fun t i ppid hpc => h.starting t i ppid (hq.pc_eq hpc rfl (by simp))
  · intro i hi
    rcases h.started i (hq.est i hi) with hc | ⟨t, ppid, hpc⟩
    · exact .inl hc
    · refine .inr ⟨t, ppid, ?_⟩
      rcases hq.pcs t with heq | ⟨hn, -⟩
      · rw [heq, hpc]
      · rw [hpc] at hn
        cases hn
  · intro i c' u hc' hu
    obtain ⟨c, hc, hcu, -⟩ := hq.entry_back hc' hu
    rcases h.live i c u hc hcu with hex | ⟨hhome, hlive⟩
    · exact .inl hex
    · rw [hq.home, hq.ended_eq (by rw [hhome]; simp)]
      exact .inr ⟨hhome, hlive⟩

theorem opened_history {t w : Tid} {pid : Nat} {ppid : Int} (hi : Inv s) (h : History s)
    (hpc : s.pc t = .execOpen pid ppid) (hw : s.pc w = .dead) :
    History (s.execOpened t pid ppid (some w)) := by
  have hok := hi.pcs t
  rw [hpc] at hok
  obtain ⟨c, hc, -⟩ := pcb_of_shape hok.1
  have hno : ¬ Established (shapes s) pid := Unborn.not_established ⟨_, hok.1, rfl⟩
  have hne : t ≠ w := by
    rintro rfl
    rw [hpc] at hw
    cases hw
  generalize hs' : s.execOpened t pid ppid (some w) = s'
  have hfacts : s'.pcb = Function.update s.pcb pid (some { c with thread := some w }) ∧ s'.log = s.log ∧
      s'.pc = Function.update (Function.update s.pc w .created) t (.execSpace pid ppid) ∧
      s'.home = Function.update s.home w (some pid) := by
    rw [← hs']
    unfold execOpened
    rw [hc]
    exact ⟨rfl, rfl, rfl, rfl⟩
  obtain ⟨hpcb, hlog, hpcs, hhome⟩ := hfacts
  have hshapes : shapes s' = Function.update (shapes s) pid (some (shape { c with thread := some w })) := by
    rw [← shapes_setPcb]
    funext i
    exact congrArg (fun pcb : Nat → Option PCB => (pcb i).map shape) hpcb
  refine ⟨?_, ?_, ?_, ?_, ?_⟩ <;> rw [hlog]
  · intro i hi
    rw [hshapes]
    exact (h.created i hi).update hno
  · intro i p v hi
    rw [hshapes]
    exact ⟨(h.gone i p v hi).1.update hno, (h.gone i p v hi).2⟩
  · intro u i pp hu p v hmem
    rw [hpcs] at hu
    rcases eq_or_ne u t with rfl | hne
    · rw [Function.update_self] at hu
      cases hu
      exact hno (h.gone pid p v hmem).1
    · rw [Function.update_of_ne hne] at hu
      exact h.starting u i pp (pc_of_update hu (by simp)) p v hmem
  · intro i hi
    rw [hpcs]
    rcases eq_or_ne i pid with rfl | hip
    · exact .inr ⟨t, ppid, Function.update_self _ _ _⟩
    · have hi0 : Established (shapes s) i := by
        obtain ⟨x, u, hx, hu⟩ := hi
        rw [hshapes, Function.update_of_ne hip] at hx
        exact ⟨x, u, hx, hu⟩
      rcases h.started i hi0 with hcr | ⟨u, pp, hu⟩
      · exact .inl hcr
      · refine .inr ⟨u, pp, update_of_pc (update_of_pc hu ?_) ?_⟩
        · rw [hw]
          nofun
        · rw [Function.update_of_ne hne, hpc]
          nofun
  · intro i d u hd hu
    rw [hpcb] at hd
    rw [hhome, hpcs]
    rcases pcb_of_update hd with ⟨rfl, rfl⟩ | ⟨-, hd⟩
    · cases hu
      exact .inr ⟨Function.update_self _ _ _, by
        rw [Function.update_of_ne hne.symm, Function.update_self]; rfl⟩
    · rcases h.live i d u hd hu with hex | ⟨hi, hlive⟩
      · exact .inl hex
      · have huw : u ≠ w := by
          rintro rfl
          rw [hw] at hlive
          cases hlive
        rw [Function.update_of_ne huw]
        refine .inr ⟨hi, ?_⟩
        rcases eq_or_ne u t with rfl | hut
        · rw [Function.update_self]
          rfl
        · rw [Function.update_of_ne hut, Function.update_of_ne huw]
          exact hlive

theorem loaded_history {t : Tid} {pid : Nat} {ppid : Int} (hi : Inv s) (h : History s)
    (hpc : s.pc t = .execSpace pid ppid) : History (s.execLoaded t pid ppid) := by
  have hok := hi.pcs t
  rw [hpc] at hok
  obtain ⟨child, hx, hcreated⟩ := hok
  obtain ⟨c, hc, hshape⟩ := pcb_of_shape hx
  have hthread : c.thread = some child := congrArg Shape.thread hshape
  have hfresh := h.starting t pid ppid hpc
  obtain ⟨p, q, hs', hp, hq⟩ : ∃ p q : Pc, s.execLoaded t pid ppid =
      { s with pc := Function.update (Function.update s.pc t p) child q,
               log := .created pid :: s.log } ∧
      (p = .dead ∧ s.home t = none ∨ tracked p = false) ∧ (tracked q = false) := by
    have hne : t ≠ child := by
      rintro rfl
      rw [hpc] at hcreated
      cases hcreated
    unfold execLoaded
    simp only [hc, hthread]
    split
    · rename_i hfirst
      refine ⟨.dead, .execUnlock pid, rfl, .inl ⟨rfl, ?_⟩, rfl⟩
      -- only the main thread starts the first process
      have hplace := hi.homes.place t
      rw [hpc, hfirst] at hplace
      cases hhome : s.home t with
      | none => rfl
      | some i =>
        rw [hhome] at hplace
        cases hplace
    · exact ⟨.execUnlock pid, .user, by rw [Function.update_comm hne]; rfl, .inr rfl, rfl⟩
  have hback : ∀ u i pp, Function.update (Function.update s.pc t p) child q u = .execSpace i pp →
      s.pc u = .execSpace i pp := by
    intro u i pp hu
    refine pc_of_update (pc_of_update hu ?_) ?_
    · rintro rfl
      cases hq
    · rintro rfl
      rcases hp with ⟨hp, -⟩ | hp
      · cases hp
      · cases hp
  rw [hs']
  refine ⟨?_, ?_, ?_, ?_, ?_⟩
  · intro i hmem
    rcases List.mem_cons.1 hmem with heq | hmem
    · cases heq
      exact ⟨_, child, hx, rfl⟩
    · exact h.created i hmem
  · intro i p v hmem
    have hmem' : PLog.exited i p v ∈ s.log := by simpa using hmem
    refine ⟨(h.gone i p v hmem').1, ?_⟩
    have hne : pid ≠ i := by
      rintro rfl
      exact hfresh p v hmem'
    simp [aliveIn, hne, (h.gone i p v hmem').2]
  · intro u i pp hu p v hmem
    exact h.starting u i pp (hback u i pp hu) p v (by simpa using hmem)
  · intro i hest
    rcases h.started i hest with hcr | ⟨u, pp, hu⟩
    · exact .inl (List.mem_cons_of_mem _ hcr)
    · have hut : u = t := hi.mutex.excl u t (by rw [hu]; rfl) (by rw [hpc]; rfl)
      rw [hut, hpc] at hu
      cases hu
      exact .inl List.mem_cons_self
  · intro i d u hd hu
    rcases h.live i d u hd hu with ⟨r, v, hex⟩ | ⟨hhome, hlive⟩
    · exact .inl ⟨r, v, List.mem_cons_of_mem _ hex⟩
    · refine .inr ⟨hhome, ?_⟩
      show ended (Function.update (Function.update s.pc t p) child q u) = false
      rcases eq_or_ne u child with rfl | huc
      · rw [Function.update_self]
        exact ended_of_untracked hq
      · rw [Function.update_of_ne huc]
        rcases eq_or_ne u t with rfl | hut
        · rw [Function.update_self]
          rcases hp with ⟨-, hnone⟩ | hp
          · rw [hhome] at hnone
            cases hnone
          · exact ended_of_untracked hp
        · rw [Function.update_of_ne hut]
          exact hlive

theorem thread_of_shapes (h : shapes s' = shapes s) {i : Nat} {c' : PCB} {u : Tid} (hc : s'.pcb i = some c')
    (hu : c'.thread = some u) : ∃ c, s.pcb i = some c ∧ c.thread = some u := by
  have hx : shapes s i = some (shape c') := by rw [← h, shapes, hc]; rfl
  obtain ⟨c, hc0, hshape⟩ := pcb_of_shape hx
  exact ⟨c, hc0, (congrArg Shape.thread hshape).trans hu⟩

/-- Thread `t` moves among the places of joins, or ends; the log gets at most a join. -/
theorem History.joinStep (h : History s) (t : Tid) (p : Pc) (hshapes : shapes s' = shapes s)
    (hpc : s'.pc = Function.update s.pc t p) (hhome : s'.home = s.home)
    (hlog : s'.log = s.log ∨ ∃ w j v, s'.log = .joined w j v :: s.log)
    (ht : ∀ i ppid, s.pc t ≠ .execSpace i ppid) (hp : ∀ i ppid, p ≠ .execSpace i ppid)
    (hend : ended p = true → ended (s.pc t) = true) : History s' := by
  have hcr : ∀ i, PLog.created i ∈ s'.log ↔ PLog.created i ∈ s.log := by
    intro i
    rcases hlog with hl | ⟨w, j, v, hl⟩ <;> simp [hl]
  have hex : ∀ i q v, PLog.exited i q v ∈ s'.log ↔ PLog.exited i q v ∈ s.log := by
    intro i q v
    rcases hlog with hl | ⟨w, j, v', hl⟩ <;> simp [hl]
  have hal : ∀ i, aliveIn s'.log i = aliveIn s.log i := by
    intro i
    rcases hlog with hl | ⟨w, j, v', hl⟩ <;> simp [hl, aliveIn]
  refine ⟨?_, ?_, ?_, ?_, ?_⟩
  · intro i hi
    rw [hshapes]
    exact h.created i ((hcr i).1 hi)
  · intro i q v hi
    rw [hshapes, hal]
    exact h.gone i q v ((hex i q v).1 hi)
  · intro u i pp hu q v hm
    rw [hpc] at hu
    exact h.starting u i pp (pc_of_update hu (hp i pp)) q v ((hex i q v).1 hm)
  · intro i hi
    rw [hshapes] at hi
    rcases h.started i hi with hc | ⟨u, pp, hu⟩
    · exact .inl ((hcr i).2 hc)
    · rw [hpc]
      exact .inr ⟨u, pp, update_of_pc hu (ht i pp)⟩
  · intro i c' u hc' hu
    obtain ⟨c, hc, hcu⟩ := thread_of_shapes hshapes hc' hu
    rcases h.live i c u hc hcu with ⟨q, v, hm⟩ | ⟨hi, hlive⟩
    · exact .inl ⟨q, v, (hex i q v).2 hm⟩
    · rw [hhome, hpc]
      refine .inr ⟨hi, ?_⟩
      rcases eq_or_ne u t with rfl | hut
      · rw [Function.update_self]
        by_contra hp'
        rw [hend (by simpa using hp')] at hlive
        cases hlive
      · rw [Function.update_of_ne hut]
        exact hlive

theorem exits_history {t : Tid} {child parent : Nat} {p : PCB} {ecd : Word} (hi : Inv s)
    (h : History s) (hpc : s.pc t = .user) (hchild : s.home t = some child)
    (hp : s.pcb parent = some p) :
    History { (s.setPcb parent (some { p with
        exitcode := ecd, numwait := p.numwait - 1, joinsem := p.joinsem.v.1 })).setPc t .exiting with
      log := .exited child parent ecd :: s.log } := by
  generalize hs' : ({ (s.setPcb parent (some { p with
        exitcode := ecd, numwait := p.numwait - 1, joinsem := p.joinsem.v.1 })).setPc t .exiting with
      log := .exited child parent ecd :: s.log } : PState) = s'
  have hshapes : shapes s' = shapes s := by
    rw [← hs']
    exact shapes_setPcb_same hp rfl
  have hlog : s'.log = .exited child parent ecd :: s.log := by rw [← hs']
  have hpcs : s'.pc = Function.update s.pc t .exiting := by rw [← hs']; rfl
  have hhome : s'.home = s.home := by rw [← hs']; rfl
  obtain ⟨x, hx, hxt⟩ := hi.homes.owner t child (by rw [hpc]; simp) hchild
  refine ⟨?_, ?_, ?_, ?_, ?_⟩
  · intro i hm
    rw [hlog] at hm
    rw [hshapes]
    exact h.created i (by simpa using hm)
  · intro i q v hm
    rw [hlog] at hm ⊢
    rw [hshapes]
    rcases List.mem_cons.1 hm with heq | hm
    · cases heq
      exact ⟨⟨x, t, hx, hxt⟩, by simp [aliveIn]⟩
    · exact ⟨(h.gone i q v hm).1, by simp [aliveIn, (h.gone i q v hm).2]⟩
  · intro u i pp hu q v hm
    rw [hpcs] at hu
    have hu0 : s.pc u = .execSpace i pp := pc_of_update hu (by simp)
    rw [hlog] at hm
    rcases List.mem_cons.1 hm with heq | hm
    · -- the thread of a slot that is still being loaded has not run
      cases heq
      have hok := hi.pcs u
      rw [hu0] at hok
      obtain ⟨w, hw, hcreated⟩ := hok
      rw [hw] at hx
      cases hx
      cases hxt
      rw [hpc] at hcreated
      cases hcreated
    · exact h.starting u i pp hu0 q v hm
  · intro i hest
    rw [hshapes] at hest
    rw [hlog, hpcs]
    rcases h.started i hest with hcr | ⟨u, pp, hu⟩
    · exact .inl (List.mem_cons_of_mem _ hcr)
    · exact .inr ⟨u, pp, update_of_pc hu (by rw [hpc]; nofun)⟩
  · intro i c' u hc' hu
    rw [hlog, hhome, hpcs]
    obtain ⟨c, hc, hcu⟩ := thread_of_shapes hshapes hc' hu
    rcases h.live i c u hc hcu with ⟨q, v, hm⟩ | ⟨hi, hlive⟩
    · exact .inl ⟨q, v, List.mem_cons_of_mem _ hm⟩
    · rcases eq_or_ne u t with rfl | hut
      · rw [hchild] at hi
        cases hi
        exact .inl ⟨parent, ecd, List.mem_cons_self⟩
      · rw [Function.update_of_ne hut]
        exact .inr ⟨hi, hlive⟩

theorem step_history {e : PEvent} (hi : Inv s) (h : History s) (he : step s e = some s') :
    History s' := by
  rcases step_cases hi he with hq | hl
  · exact hq.history h
  · cases hl with
    | opened hpc hu => exact opened_history hi h hpc hu
    | loaded hpc => exact loaded_history hi h hpc
    | joins hpc hslot hc htarget hparent =>
      exact h.joinStep _ _ (shapes_setPcb_same hc rfl) rfl rfl (.inl rfl) (by simp [hpc]) (by simp) nofun
    | passes hpc hc hv =>
      exact h.joinStep _ _ (shapes_setPcb_same hc rfl) rfl rfl (.inl rfl) (by simp [hpc]) (by simp) nofun
    | returns hpc hc =>
      exact h.joinStep _ .user rfl rfl rfl (.inr ⟨_, _, _, rfl⟩) (by simp [hpc]) (by simp) nofun
    | exits ecd hpc hchild hslot hc hparent hp => exact exits_history hi h hpc hchild hp
    | finishes hpc =>
      exact h.joinStep _ .finished rfl rfl rfl (.inl rfl) (by simp [hpc]) (by simp) (fun _ => by rw [hpc]; rfl)
    | deleted hpc =>
      exact h.joinStep _ .dead rfl rfl rfl (.inl rfl) (by simp [hpc]) (by simp) (fun _ => by rw [hpc]; rfl)

theorem boot_history (h : Boot s) : History s := by
  refine ⟨?_, ?_, ?_, ?_, ?_⟩
  · intro i hi
    simp [h.log] at hi
  · intro i p v hi
    simp [h.log] at hi
  · intro t i pp _ p v hm
    simp [h.log] at hm
  · rintro i ⟨x, u, hx, -⟩
    simp [shapes, h.pcb] at hx
  · intro i c u hc
    simp [h.pcb] at hc

theorem reachable_history (h : system.Reachable s) : History s :=
  System.Reachable.invariant (I := History) (fun _ hb => boot_history hb)
    (fun _ _ _ hr hh he => step_history (reachable_inv hr) hh he) h

theorem aliveIn_of_no_exit {l : List PLog} (h : ∀ i p v, PLog.exited i p v ∉ l) (i : Nat) :
    aliveIn l i = true ↔ PLog.created i ∈ l := by
  induction l with
  | nil => simp [aliveIn]
  | cons x l ih =>
    have ih' := ih (fun j p v hm => h j p v (List.mem_cons_of_mem _ hm))
    cases x with
    | created j =>
      simp only [aliveIn, Bool.or_eq_true, beq_iff_eq, ih', List.mem_cons, PLog.created.injEq]
      exact or_congr_left eq_comm
    | joined w j v => simp [aliveIn, ih']
    | exited j p v => exact absurd List.mem_cons_self (h j p v)

/-- Without a call in progress, the slots in use are those of the processes ever created. -/
theorem created_iff_occupied (hi : Inv s) (hh : History s) (hq : Quiescent s) (i : Nat) :
    PLog.created i ∈ s.log ↔ s.pcb i ≠ none := by
  have hunlocked : s.bmsem.value ≠ 0 := by
    rw [hi.mutex.unlocked]
    · decide
    · intro t
      rcases hq t with h | h | h | h <;> simp [h, inLock]
  constructor
  · intro hc
    obtain ⟨c, -, hc, -⟩ := pcb_of_established (hh.created i hc)
    rw [hc]
    simp
  · intro hne
    obtain ⟨c, hc⟩ := Option.ne_none_iff_exists'.1 hne
    obtain ⟨u, hu⟩ := hi.established hunlocked hc
    rcases hh.started i ⟨shape c, u, by simp [shapes, hc], hu⟩ with hcr | ⟨t, pp, ht⟩
    · exact hcr
    · rcases hq t with h | h | h | h <;> simp [h] at ht

/-- **Slots are those of live processes exactly as long as no process has exited**, in every
    reachable state without a call in progress. -/
theorem slots_reclaimed_iff (s : PState) (h : system.Reachable s) (hq : Quiescent s) :
    Reclaimed s ↔ ∀ i p v, PLog.exited i p v ∉ s.log := by
  have hi := reachable_inv h
  have hh := reachable_history h
  have hbits : ∀ i < MAX_PROCESS, s.bm.bit i = true ↔ s.pcb i ≠ none := by
    intro i hlt
    rw [hi.slots.bits i hlt]
    simp [shapes]
  constructor
  · intro hr i p v hm
    obtain ⟨hest, hdead⟩ := hh.gone i p v hm
    obtain ⟨c, -, hc, -⟩ := pcb_of_established hest
    have hne : s.pcb i ≠ none := by rw [hc]; simp
    have hlt : i < MAX_PROCESS := hi.slots.range i (by simpa [shapes] using hne)
    rw [(hr.1 i hlt).1 ⟨hne, (hbits i hlt).2 hne⟩] at hdead
    cases hdead
  · intro hno
    have halive : ∀ i, aliveIn s.log i = true ↔ s.pcb i ≠ none := by
      intro i
      rw [aliveIn_of_no_exit hno, created_iff_occupied hi hh hq]
    refine ⟨?_, ?_, ?_⟩
    · intro i hlt
      rw [halive, hbits i hlt, and_self_iff]
    · intro hfull i hlt
      rcases s.bm.find_spec with ⟨j, hf, -⟩ | ⟨-, hall⟩
      · rw [hf] at hfull
        cases hfull
      · rw [halive, ← hbits i hlt]
        exact hall i (by rw [hi.slots.numBits]; exact hlt)
    · intro i c t hc ht
      rcases hh.live i c t hc ht with ⟨p, v, hm⟩ | ⟨hhome, hlive⟩
      · exact absurd hm (hno i p v)
      · refine ⟨hhome, ?_, ?_⟩
        · intro hfin
          rw [hfin] at hlive
          cases hlive
        · intro hdead
          rw [hdead] at hlive
          cases hlive

theorem quiescent_of_bounded (hi : Inv s)
    (h : ∀ t < s.top, s.pc t = .dead ∨ s.pc t = .boot ∨ s.pc t = .user ∨ s.pc t = .finished) :
    Quiescent s := by
  intro t
  by_cases ht : t < s.top
  · exact h t ht
  · exact .inl (hi.fresh t (Nat.le_of_not_lt ht))

theorem slots_reclaimed_iff_execRun : ∃ s,
    system.run boot0 (firstRun ++ execRun 1 2 [2]) = some s ∧ Quiescent s ∧ Reclaimed s := by
  have hrun : (system.run boot0 (firstRun ++ execRun 1 2 [2])).map
      (fun s => (s.log, decide (∀ t < s.top,
        s.pc t = .dead ∨ s.pc t = .boot ∨ s.pc t = .user ∨ s.pc t = .finished))) =
      some ([.created 1, .created 0], true) := by
    decide +kernel
  obtain ⟨s, hs, hproj⟩ := Option.map_eq_some_iff.1 hrun
  simp only [Prod.mk.injEq] at hproj
  have hr := System.reachable_of_run _ boot0_boot hs
  have hq := quiescent_of_bounded (reachable_inv hr) (of_decide_eq_true hproj.2)
  exact ⟨s, hs, hq, (slots_reclaimed_iff s hr hq).2 (by simp [hproj.1])⟩

/-- The first process starts a child, which exits. -/
def exitRun : List PEvent := firstRun ++ execRun 1 2 [2] ++ [.callExit 2 5, .go 2]

/-- Slot 1 is still in use, and its thread has finished. -/
theorem exitRun_not_reclaimed : ∃ s, system.run boot0 exitRun = some s ∧ system.Reachable s ∧
    Quiescent s ∧ s.pcb 1 ≠ none ∧ aliveIn s.log 1 = false ∧ ¬ Reclaimed s := by
  have hrun : (system.run boot0 exitRun).map
      (fun s => (s.log, (s.pcb 1).isSome, s.bm.bit 1, decide (∀ t < s.top,
        s.pc t = .dead ∨ s.pc t = .boot ∨ s.pc t = .user ∨ s.pc t = .finished))) =
      some ([.exited 1 0 5, .created 1, .created 0], true, true, true) := by
    decide +kernel
  obtain ⟨s, hs, hproj⟩ := Option.map_eq_some_iff.1 hrun
  simp only [Prod.mk.injEq] at hproj
  obtain ⟨hlog, hocc, hbit, hidle⟩ := hproj
  have hne : s.pcb 1 ≠ none := by
    obtain ⟨c, hc⟩ := Option.isSome_iff_exists.1 hocc
    rw [hc]
    simp
  have hdead : aliveIn s.log 1 = false := by rw [hlog]; rfl
  have hr := System.reachable_of_run _ boot0_boot hs
  refine ⟨s, hs, hr, quiescent_of_bounded (reachable_inv hr) (of_decide_eq_true hidle), hne, hdead, ?_⟩
  intro hrec
  rw [(hrec.1 1 (by decide)).1 ⟨hne, hbit⟩] at hdead
  cases hdead

end PState

end Nachos
