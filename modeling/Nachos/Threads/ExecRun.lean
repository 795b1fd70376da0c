import Nachos.Threads.ExecUpdate

/-!
# A call of `ExecUpdate` as a run

`ExecKernel.execUpdate` is the call in one piece, `PState.system` the table under every interleaving.
The call in one piece is one of the runs: the one in which nobody else takes a step.

* `acquire_runs` — up to `bmsem->P()`.
* `execSlot_runs` — from `new PCB()` to the return.
* `execUpdate_runs` — the whole call.
-/

set_option autoImplicit false

namespace Nachos

namespace PState

/-- `s'` is reached from `s` by steps of the table. -/
def Runs (s s' : PState) : Prop := ∃ es, system.run s es = some s'

/-- No `NULL` entry has been followed, and nobody is in `Halt`. -/
structure Calm (s : PState) : Prop where
  fault : s.fault = false
  pcs : ∀ t, s.pc t ≠ .halting

variable {s s' s'' : PState} {t : Tid}

theorem Runs.refl (s : PState) : Runs s s := ⟨[], rfl⟩

theorem Runs.head {e : PEvent} (h : step s e = some s') (hr : Runs s' s'') : Runs s s'' := by
  obtain ⟨es, hes⟩ := hr
  refine ⟨e :: es, ?_⟩
  have hstep : system.step s e = some s' := h
  rw [Transition.System.run, hstep]
  exact hes

theorem Runs.trans (h : Runs s s') (h' : Runs s' s'') : Runs s s'' := by
  obtain ⟨es, hes⟩ := h
  obtain ⟨es', hes'⟩ := h'
  exact ⟨es ++ es', by rw [Transition.System.run_append es' hes, hes']⟩

theorem Calm.not_stopped (h : s.Calm) : ¬ s.stopped := by
  rintro (hf | ⟨t, -, ht⟩)
  · rw [h.fault] at hf
    cases hf
  · exact h.pcs t ht

theorem Calm.setPcb (h : s.Calm) (i : Nat) (c : Option PCB) : (s.setPcb i c).Calm := ⟨h.fault, h.pcs⟩

theorem Calm.setPc (h : s.Calm) (t : Tid) (p : Pc) (hp : p ≠ .halting) : (s.setPc t p).Calm := by
  refine ⟨h.fault, ?_⟩
  intro u
  show Function.update s.pc t p u ≠ .halting
  rcases eq_or_ne u t with rfl | hne
  · rw [Function.update_self]
    exact hp
  · rw [Function.update_of_ne hne]
    exact h.pcs u

theorem calm_of_reachable (hs : system.Reachable s) (hstop : ¬ s.stopped) : s.Calm := by
  refine ⟨(reachable_inv hs).fault, ?_⟩
  intro u hu
  rcases Nat.lt_or_ge u s.top with hlt | hge
  · exact hstop (.inr ⟨u, hlt, hu⟩)
  · rw [(reachable_inv hs).fresh u hge] at hu
    cases hu

end PState

namespace ExecKernel

open PState Partial

variable {files : Name → Option (List Byte)} {junk : Nat → Byte} {k k' : ExecKernel} {name : Name} {pid : Nat}
  {ppid rslt : Int} {s : PState} {t thread : Tid}

/-- A new PCB that has got its name, with `multex` taken. -/
def named (name : Name) (pid : Nat) (ppid : Int) : PCB :=
  { PCB.new with multex := ⟨0, []⟩, processId := pid, parentId := ppid, processName := name.take 50 }

/-- `multex->P()` of a new PCB. -/
theorem step_execMultex (hcalm : s.Calm) (hpc : s.pc t = .execMultex name pid ppid)
    (hnew : s.pcb pid = some PCB.new) :
    step s (.go t) = some ((s.setPcb pid (some (named name pid ppid))).setPc t (.execOpen pid ppid)) := by
  rw [step, if_neg hcalm.not_stopped]
  simp only [hpc, hnew, PState.execMultex]
  rfl

/-- The file is not opened: the slot is given back. -/
theorem failed_runs {c : PCB} (hcalm : s.Calm) (hpc : s.pc t = .execOpen pid ppid) (hc : s.pcb pid = some c) :
    Runs s (((s.setPcb pid (some { c with multex := c.multex.v.1 })).setPc t (.execUndo pid)).execUndo t pid) := by
  have hopened : step s (.opened t none) =
      some ((s.setPcb pid (some { c with multex := c.multex.v.1 })).setPc t (.execUndo pid)) := by
    rw [step, if_neg hcalm.not_stopped]
    simp only [hpc, execOpened, hc]
    rw [if_pos nofun]
  have hcalm' : ((s.setPcb pid (some { c with multex := c.multex.v.1 })).setPc t (.execUndo pid)).Calm :=
    (hcalm.setPcb pid _).setPc t (.execUndo pid) nofun
  have hpc' : ((s.setPcb pid (some { c with multex := c.multex.v.1 })).setPc t (.execUndo pid)).pc t =
      .execUndo pid := Function.update_self _ _ _
  refine Runs.head hopened (Runs.head (e := .go t) ?_ (Runs.refl _))
  rw [step, if_neg hcalm'.not_stopped]
  simp only [hpc']

/-- The thread that returns from `PCB::Exec`: the new one, if it takes over from the main thread. -/
def returning (thread t : Tid) (ppid : Int) : Tid := if ppid = -1 then thread else t

/-- The file is opened and loaded: the new thread is started. -/
theorem launched_runs {c : PCB} (hcalm : s.Calm) (hpc : s.pc t = .execOpen pid ppid) (hc : s.pcb pid = some c)
    (hnew : s.pc thread = .dead) :
    ∃ s', Runs s s' ∧ s'.pc (returning thread t ppid) = .execUnlock pid ∧ s'.Calm ∧
      s'.pcb = Function.update s.pcb pid (some { c with thread := some thread }) ∧ s'.bm = s.bm ∧
      s'.bmsem = s.bmsem ∧ s'.threadName = Function.update s.threadName thread c.processName := by
  have hopened : step s (.opened t (some thread)) = some (s.execOpened t pid ppid (some thread)) := by
    rw [step, if_neg hcalm.not_stopped]
    simp only [hpc]
    rw [if_pos (by rintro u ⟨⟩; exact hnew)]
  have hshape : s.execOpened t pid ppid (some thread) =
      { ((s.setPcb pid (some { c with thread := some thread })).setPc thread .created).setPc t
          (.execSpace pid ppid) with
        threadName := Function.update s.threadName thread c.processName
        home := Function.update s.home thread (some pid)
        top := max s.top (thread + 1) } := by
    simp only [execOpened, hc]
  generalize hs1 : s.execOpened t pid ppid (some thread) = s1 at hopened hshape
  have hpc1 : s1.pc t = .execSpace pid ppid := by
    rw [hshape]
    exact Function.update_self _ _ _
  have hcalm1 : s1.Calm := by
    rw [hshape]
    have hset : ((s.setPc thread .created).setPc t (.execSpace pid ppid)).Calm :=
      (hcalm.setPc thread .created nofun).setPc t (.execSpace pid ppid) nofun
    exact ⟨hset.fault, hset.pcs⟩
  have hc1 : s1.pcb pid = some { c with thread := some thread } := by
    rw [hshape]
    exact Function.update_self _ _ _
  have hloaded : step s1 (.loaded t) = some (s1.execLoaded t pid ppid) := by
    rw [step, if_neg hcalm1.not_stopped]
    simp only [hpc1]
  refine ⟨s1.execLoaded t pid ppid, Runs.head hopened (Runs.head hloaded (Runs.refl _)), ?_⟩
  simp only [execLoaded, hc1, returning]
  by_cases hfirst : ppid = -1
  · rw [if_pos hfirst, if_pos hfirst]
    refine ⟨Function.update_self _ _ _, ?_, ?_⟩
    · have hset : ((s1.setPc t .dead).setPc thread (.execUnlock pid)).Calm :=
        (hcalm1.setPc t .dead nofun).setPc thread (.execUnlock pid) nofun
      exact ⟨hset.fault, hset.pcs⟩
    · rw [hshape]
      exact ⟨rfl, rfl, rfl, rfl⟩
  · rw [if_neg hfirst, if_neg hfirst]
    refine ⟨Function.update_self _ _ _, ?_, ?_⟩
    · have hset : ((s1.setPc thread .user).setPc t (.execUnlock pid)).Calm :=
        (hcalm1.setPc thread .user nofun).setPc t (.execUnlock pid) nofun
      exact ⟨hset.fault, hset.pcs⟩
    · rw [hshape]
      exact ⟨rfl, rfl, rfl, rfl⟩

/-- The return: `multex->V()` and `bmsem->V()`. -/
theorem returns_runs {c : PCB} (hcalm : s.Calm) (hpc : s.pc t = .execUnlock pid) (hc : s.pcb pid = some c) :
    Runs s (((s.setPcb pid (some { c with multex := c.multex.v.1 })).setPc t (.execRelease pid)).execRelease t) := by
  have hunlock : step s (.go t) =
      some ((s.setPcb pid (some { c with multex := c.multex.v.1 })).setPc t (.execRelease pid)) := by
    rw [step, if_neg hcalm.not_stopped]
    simp only [hpc, execUnlock, hc]
  have hcalm' : ((s.setPcb pid (some { c with multex := c.multex.v.1 })).setPc t (.execRelease pid)).Calm :=
    (hcalm.setPcb pid _).setPc t (.execRelease pid) nofun
  have hpc' : ((s.setPcb pid (some { c with multex := c.multex.v.1 })).setPc t (.execRelease pid)).pc t =
      .execRelease pid := Function.update_self _ _ _
  refine Runs.head hunlock (Runs.head (e := .go t) ?_ (Runs.refl _))
  rw [step, if_neg hcalm'.not_stopped]
  simp only [hpc']

/-- What `launched` does to the table. -/
theorem launched_table (thread : Tid) (k : ExecKernel) (name : Name) (pid : Nat) (ppid : Int)
    (built : List TranslationEntry × BitMap × Memory) :
    (k.launched thread name pid ppid built).pcb = Function.update k.pcb pid (some { PCB.new with
      processId := pid, parentId := ppid, processName := name.take 50, thread := some thread }) ∧
    (k.launched thread name pid ppid built).bm = k.bm ∧ (k.launched thread name pid ppid built).bmsem = k.bmsem ∧
    (k.launched thread name pid ppid built).threadName = Function.update k.threadName thread (name.take 50) := by
  unfold launched start
  simp only
  split
  · exact ⟨rfl, rfl, rfl, rfl⟩
  · exact ⟨rfl, rfl, rfl, rfl⟩

/-- `ExecUpdate` from `multex->P()` of the new PCB to the return. -/
theorem execSlot_runs (hcalm : s.Calm) (hk : Agrees (k.setPcb pid (some PCB.new)) s)
    (hpc : s.pc t = .execMultex name pid ppid) (hnew : s.pc thread = .dead)
    (h : execSlot files junk thread k name pid ppid = .ok (rslt, k')) : ∃ s', Runs s s' ∧ Agrees k' s' := by
  have hpcb : s.pcb pid = some PCB.new := by
    rw [← hk.pcb]
    exact Function.update_self _ _ _
  have hmultex := step_execMultex hcalm hpc hpcb
  generalize hs1 : (s.setPcb pid (some (named name pid ppid))).setPc t (.execOpen pid ppid) = s1 at hmultex
  have hcalm1 : s1.Calm := by
    rw [← hs1]
    exact (hcalm.setPcb pid _).setPc t (.execOpen pid ppid) nofun
  have hpc1 : s1.pc t = .execOpen pid ppid := by
    rw [← hs1]
    exact Function.update_self _ _ _
  have hnew1 : s1.pc thread = .dead := by
    have hne : thread ≠ t := by
      rintro rfl
      rw [hpc] at hnew
      cases hnew
    rw [← hs1]
    exact (Function.update_of_ne hne _ _).trans hnew
  have hpcb1 : s1.pcb = Function.update k.pcb pid (some (named name pid ppid)) := by
    rw [← hs1]
    show Function.update s.pcb pid _ = _
    rw [← hk.pcb]
    exact Function.update_idem _ _ _
  have hrest1 : k.bm = s1.bm ∧ k.bmsem = s1.bmsem ∧ k.threadName = s1.threadName := by
    rw [← hs1]
    exact ⟨hk.bm, hk.bmsem, hk.threadName⟩
  obtain ⟨hbm1, hbmsem1, hname1⟩ := hrest1
  have hc1 : s1.pcb pid = some (named name pid ppid) := by
    rw [hpcb1]
    exact Function.update_self _ _ _
  rw [execSlot_eq] at h
  split at h
  · cases h
    refine ⟨_, Runs.head hmultex (failed_runs hcalm1 hpc1 hc1), ?_, ?_, ?_, hname1⟩
    · show Function.update k.pcb pid none = Function.update (Function.update s1.pcb pid _) pid none
      rw [hpcb1, Function.update_idem, Function.update_idem]
    · exact congrArg (fun bm : BitMap => bm.clearBit pid) hbm1
    · exact congrArg (fun sem : Semaphore => sem.v.1) hbmsem1
  · obtain ⟨built, -, h⟩ := bind_eq_ok.1 h
    cases h
    obtain ⟨hpcb, hbm, hbmsem, hname⟩ := launched_table thread k name pid ppid built
    obtain ⟨s2, hruns, hpc2, hcalm2, hpcb2, hbm2, hbmsem2, hname2⟩ := launched_runs hcalm1 hpc1 hc1 hnew1
    have hc2 : s2.pcb pid = some { named name pid ppid with thread := some thread } := by
      rw [hpcb2]
      exact Function.update_self _ _ _
    refine ⟨_, Runs.head hmultex (hruns.trans (returns_runs hcalm2 hpc2 hc2)), ?_, ?_, ?_, ?_⟩
    · show (k.launched thread name pid ppid built).pcb = Function.update s2.pcb pid _
      rw [hpcb, hpcb2, hpcb1, Function.update_idem, Function.update_idem]
      rfl
    · exact hbm.trans (hbm1.trans hbm2.symm)
    · exact congrArg (fun sem : Semaphore => sem.v.1) (hbmsem.trans (hbmsem1.trans hbmsem2.symm))
    · show (k.launched thread name pid ppid built).threadName = s2.threadName
      rw [hname, hname2, hname1]
      rfl

/-- A call that returns -1 before it takes a slot. -/
theorem refused_runs (hcalm : s.Calm) (hk : Agrees k s) {name : Option Name} (hpc : s.pc t = .execBody name)
    (hbody : s.execBody t name = s.execFail t) : ∃ s', Runs s s' ∧ Agrees k.bmsemV s' := by
  refine ⟨s.execFail t, Runs.head (e := .go t) ?_ (Runs.refl _), hk.pcb, hk.bm, ?_, hk.threadName⟩
  · rw [step, if_neg hcalm.not_stopped]
    simp only [hpc, hbody]
  · exact congrArg (fun sem : Semaphore => sem.v.1) hk.bmsem

/-- A call that takes slot `pid`. -/
theorem accepted_runs (hcalm : s.Calm) {bm : BitMap} (hk : Agrees k s) (hpc : s.pc t = .execBody (some name))
    (hbody : s.execBody t (some name) = newPcb { s with bm := bm } t name pid ppid)
    (hnew : s.pc thread = .dead) (h : execSlot files junk thread { k with bm := bm } name pid ppid = .ok (rslt, k')) :
    ∃ s', Runs s s' ∧ Agrees k' s' := by
  have hnew1 : (newPcb { s with bm := bm } t name pid ppid).pc thread = .dead := by
    have hne : thread ≠ t := by
      rintro rfl
      rw [hpc] at hnew
      cases hnew
    exact (Function.update_of_ne hne _ _).trans hnew
  have hcalm1 : (newPcb { s with bm := bm } t name pid ppid).Calm := by
    have hset := hcalm.setPc t (.execMultex name pid ppid) nofun
    exact ⟨hset.fault, hset.pcs⟩
  have hk1 : Agrees ({ k with bm := bm }.setPcb pid (some PCB.new)) (newPcb { s with bm := bm } t name pid ppid) := by
    refine ⟨?_, rfl, hk.bmsem, hk.threadName⟩
    show Function.update k.pcb pid _ = Function.update s.pcb pid _
    rw [hk.pcb]
  obtain ⟨s', hruns, hagrees⟩ := execSlot_runs hcalm1 hk1 (Function.update_self t _ _) hnew1 h
  refine ⟨s', Runs.head (e := .go t) ?_ hruns, hagrees⟩
  rw [step, if_neg hcalm.not_stopped]
  simp only [hpc, hbody]

theorem slotOf_eq (hk : Agrees k s) (hcur : k.currentThread = t) : k.slotOf = s.slotOf t := by
  subst hcur
  exact congrArg (fun pcb => ({ s with pcb := pcb } : PState).slotOf k.currentThread) hk.pcb

/-- The call, and `bmsem->P()`. -/
theorem acquire_runs (hcalm : s.Calm) (hk : Agrees k s) (name : Option Name) (hpc : s.pc t = .user ∨ s.pc t = .boot)
    (hqueue : t ∉ s.bmsem.queue) (hfree : s.bmsem.value ≠ 0) :
    ∃ s', Runs s s' ∧ s'.Calm ∧ s'.pc t = .execBody name ∧ (∀ u ≠ t, s'.pc u = s.pc u) ∧
      Agrees { k with bmsem := { k.bmsem with value := k.bmsem.value - 1 } } s' := by
  have hcall : step s (.callExec t name) = some (s.setPc t (.execP name)) := by
    rw [step, if_neg hcalm.not_stopped]
    rcases hpc with hpc | hpc
    · simp only [hpc]
    · simp only [hpc]
  have hcalm1 : (s.setPc t (.execP name)).Calm := hcalm.setPc t (.execP name) nofun
  have hpc1 : (s.setPc t (.execP name)).pc t = .execP name := Function.update_self _ _ _
  have hqueue1 : t ∉ (s.setPc t (.execP name)).bmsem.queue := hqueue
  have hp : (s.setPc t (.execP name)).bmsem.p t = ({ s.bmsem with value := s.bmsem.value - 1 }, true) :=
    Semaphore.p_pos hfree t
  refine ⟨{ s.setPc t (.execP name) with
    bmsem := { s.bmsem with value := s.bmsem.value - 1 } }.setPc t (.execBody name),
    Runs.head hcall (Runs.head (e := .go t) ?_ (Runs.refl _)), ?_, Function.update_self _ _ _, ?_, ?_⟩
  · rw [step, if_neg hcalm1.not_stopped]
    simp only [hpc1]
    rw [if_neg hqueue1, hp]
  · have hset := hcalm1.setPc t (.execBody name) nofun
    exact ⟨hset.fault, hset.pcs⟩
  · intro u hu
    exact (Function.update_of_ne hu _ _).trans (Function.update_of_ne hu _ _)
  · rw [hk.bmsem]
    exact ⟨hk.pcb, hk.bm, rfl, hk.threadName⟩

/-- **The call in one piece is a run of the table**, wherever the new thread is placed: the one in which the
caller, and then the thread that it starts in its place, take all the steps. -/
theorem execUpdate_runs {name : Option Name} (hs : system.Reachable s) (hstop : ¬ s.stopped) (hk : Agrees k s)
    (hcur : k.currentThread = t) (hpc : s.pc t = .user ∨ s.pc t = .boot) (hqueue : t ∉ s.bmsem.queue)
    (hnew : s.pc thread = .dead) (h : execUpdate files junk thread k name = .ok (rslt, k')) : ∃ s', Runs s s' ∧ Agrees k' s' := by
  obtain ⟨bmsem, hacquire, h⟩ := bind_eq_ok.1 h
  have hfree : s.bmsem.value ≠ 0 := by
    intro hzero
    rw [← hk.bmsem] at hzero
    rw [acquire, Semaphore.p_zero hzero] at hacquire
    cases hacquire
  obtain rfl := acquire_of_ok hacquire
  obtain ⟨s2, hbefore, hcalm2, hpc2, hothers, hk2⟩ :=
    acquire_runs (calm_of_reachable hs hstop) hk name hpc hqueue hfree
  have hnew2 : s2.pc thread = .dead := by
    refine (hothers thread ?_).trans hnew
    rintro rfl
    rw [hnew] at hpc
    rcases hpc with hpc | hpc
    · cases hpc
    · cases hpc
  have hslot := slotOf_eq hk2 hcur
  generalize hk2' : ({ k with bmsem := { k.bmsem with value := k.bmsem.value - 1 } } : ExecKernel) = k2 at h hk2 hslot
  have hcur2 : k2.currentThread = t := by
    rw [← hk2']
    exact hcur
  have hrefused : s2.execBody t name = s2.execFail t → k' = k2.bmsemV → ∃ s', Runs s s' ∧ Agrees k' s' := by
    intro hbody hk'
    obtain ⟨s', hruns, hagrees⟩ := refused_runs hcalm2 hk2 hpc2 hbody
    exact ⟨s', hbefore.trans hruns, by rw [hk']; exact hagrees⟩
  cases name with
  | none =>
    cases h
    exact hrefused rfl rfl
  | some name =>
    have haccepted : ∀ {bm : BitMap} {pid : Nat} {ppid : Int},
        s2.execBody t (some name) = newPcb { s2 with bm := bm } t name pid ppid →
        execSlot files junk thread { k2 with bm := bm } name pid ppid = .ok (rslt, k') →
        ∃ s', Runs s s' ∧ Agrees k' s' := by
      intro bm pid ppid hbody hexec
      obtain ⟨s', hruns, hagrees⟩ := accepted_runs hcalm2 hk2 hpc2 hbody hnew2 hexec
      exact ⟨s', hbefore.trans hruns, hagrees⟩
    simp only at h
    split at h
    · rename_i hfirst
      refine haccepted ?_ h
      rw [PState.execBody, ← hk2.bm, if_pos hfirst]
    · rename_i hfirst
      split at h
      · rename_i hsame
        rw [hk2.threadName, hcur2] at hsame
        cases h
        refine hrefused ?_ rfl
        rw [PState.execBody, ← hk2.bm, if_neg hfirst, if_pos hsame]
      · rename_i hsame
        rw [hk2.threadName, hcur2] at hsame
        split at h
        · rename_i hnone
          rw [hslot] at hnone
          cases h
          refine hrefused ?_ rfl
          rw [PState.execBody, ← hk2.bm, if_neg hfirst, if_neg hsame, hnone]
        · rename_i ppid hppid
          rw [hslot] at hppid
          split at h
          · rename_i hfull
            cases h
            refine hrefused ?_ rfl
            rw [PState.execBody, ← hk2.bm, if_neg hfirst, if_neg hsame, hppid]
            simp only [hfull]
          · rename_i pid bm hfind
            refine haccepted ?_ h
            rw [PState.execBody, ← hk2.bm, if_neg hfirst, if_neg hsame, hppid]
            simp only [hfind]

end ExecKernel

end Nachos
