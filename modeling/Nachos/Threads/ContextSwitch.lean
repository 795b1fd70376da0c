import Nachos.Threads.SchedulerInv

/-!
# Context switches are transparent to user programs

The machine has one register file and one page-table pointer, and `Scheduler::Run` saves and
restores them around `SWITCH`.  The abstract picture is a register file of its own for every
thread (`Private`), changed by `ownStep` when that thread executes an instruction or a system
call, is started, or has its pending delayed load completed by an interrupt, and at no other
time.  `ownStep` never looks at the machine.

* `step_transparent` — one step keeps `Transparent`: the loaded registers are the current
  thread's private ones, the saved registers of every other started thread are its private ones.
* `context_switch_transparent` — every run.
-/

set_option autoImplicit false

namespace Nachos

namespace Kernel

open Transition

/-- A register file for each thread. -/
abbrev Private := Tid → Regs

/-- The effect of an event on the private register files: only the thread that executes it, or
    that is interrupted by it, has its own file changed. -/
def ownStep (k : Kernel) (e : KEvent) (own : Private) : Private :=
  match k.ctl, e with
  | .outside, .user f => Function.update own k.currentThread (f (own k.currentThread))
  | .outside, .initFunc =>
    match k.space k.currentThread with
    | some sp => Function.update own k.currentThread (initRegisters sp)
    | none => own
  | .outside, .handOver t =>
    match k.space t with
    | some sp => Function.update own t (initRegisters sp)
    | none => own
  | .inOneTick, .handler _ _ | .inIdle _, .handler _ _ | .inIdleLoop _, .handler _ _ =>
    Function.update own k.currentThread (delayedLoad 0 0 (own k.currentThread))
  | _, _ => own

/-- The kernel beside the private register files. -/
def privateSystem : System (Kernel × Private) KEvent :=
  system.withHistory (fun _ => True) ownStep

/-- Where the current thread goes on, once it has decided to give up the CPU. -/
def leaving : Ctl → Option Resume
  | .inSleep after | .inIdle after | .inIdleLoop after | .atSwitch _ after => some after
  | _ => none

structure Transparent (k : Kernel) (own : Private) : Prop where
  fresh : ∀ t, k.nextTid ≤ t → k.started t = false
  saved : ∀ t, t ≠ k.currentThread → k.status t ≠ none → k.started t = true →
    k.userRegisters t = own t ∧ k.resume t ≠ .threadRoot ∧ k.space t ≠ none
  loaded : k.started k.currentThread = true → k.registers = own k.currentThread ∧
    k.pageTable = k.space k.currentThread ∧ k.space k.currentThread ≠ none
  leaving : leaving k.ctl ≠ some .threadRoot

variable {k : Kernel} {own : Private}

/-- What `Transparent` reads of the kernel, statuses and place of the CPU apart. -/
def userView (k : Kernel) :=
  (k.currentThread, k.nextTid, k.registers, k.pageTable, k.userRegisters, k.resume, k.space, k.started)

/-- A step that leaves registers, page table, stacks and spaces alone. -/
theorem Transparent.keep {k' : Kernel} (h : Transparent k own) (hv : userView k' = userView k)
    (hlive : ∀ t, t ≠ k.currentThread → k'.status t ≠ none → k.status t ≠ none)
    (hleaving : Kernel.leaving k'.ctl ≠ some .threadRoot) : Transparent k' own := by
  simp only [userView, Prod.mk.injEq] at hv
  obtain ⟨hcur, hnext, hregs, hpt, huser, hresume, hspace, hstarted⟩ := hv
  constructor
  · rw [hnext, hstarted]; exact h.fresh
  · intro t hne hst
    rw [hcur] at hne
    rw [hstarted, huser, hresume, hspace]
    exact h.saved t hne (hlive t hne hst)
  · rw [hcur, hstarted, hregs, hpt, hspace]; exact h.loaded
  · exact hleaving

/-- `RestoreUserState` and `RestoreState`, for a thread with an address space. -/
theorem restoreState_loaded (k : Kernel) (h : k.space k.currentThread ≠ none) :
    (restoreState k).registers = k.userRegisters k.currentThread ∧
    (restoreState k).pageTable = k.space k.currentThread := by
  obtain ⟨sp, hsp⟩ := Option.ne_none_iff_exists'.1 h
  unfold restoreState
  cases k.threadToBeDestroyed with
  | none => simp [hsp]
  | some d => simp [hsp]

theorem Transparent.run {next : Tid} {after : Resume} {home : Tid → Option Place}
    (hp : Placed k (some next) false home) (h : Transparent k own)
    (hctl : k.ctl = .atSwitch next after) : Transparent (run k next after) own := by
  have hready := (hp.ready next).2 (.inr rfl)
  have hafter : after ≠ .threadRoot := by
    have hl := h.leaving
    rw [hctl] at hl
    simpa [Kernel.leaving] using hl
  -- after `saveState`, every started thread is saved
  have hsaved : ∀ t, k.status t ≠ none → k.started t = true →
      (saveState k next after).userRegisters t = own t ∧
      (saveState k next after).resume t ≠ .threadRoot ∧ k.space t ≠ none := by
    intro t hst hstarted
    rcases eq_or_ne t k.currentThread with rfl | hne
    · obtain ⟨hregs, -, hspace⟩ := h.loaded hstarted
      obtain ⟨sp, hsp⟩ := Option.ne_none_iff_exists'.1 hspace
      refine ⟨?_, ?_, hspace⟩
      · simp [saveState, hsp, hregs]
      · simpa [saveState, hsp] using hafter
    · obtain ⟨hregs, hres, hspace⟩ := h.saved t hne hst hstarted
      refine ⟨?_, ?_, hspace⟩
      · unfold saveState
        split <;> simpa [hne] using hregs
      · unfold saveState
        split <;> simpa [hne] using hres
  have hnext := hsaved next (by simp [hready])
  obtain ⟨regs, hsave⟩ := saveState_frame k next after
  have hload := restoreState_loaded (saveState k next after)
  obtain ⟨status, victim, registers, pageTable, hrest, hlive⟩ :=
    restoreState_frame (saveState k next after)
  have hlive' : ∀ t, t ≠ next → status t ≠ none → k.status t ≠ none := by
    intro t hne hst
    simpa [hsave, hne] using hlive t hst
  rw [hrest] at hload
  unfold Kernel.run
  simp only [hrest]
  simp only [hsave] at hload hsaved hnext ⊢
  split
  · -- first dispatch: `next` has not been started
    rename_i hr
    refine ⟨h.fresh, ?_, ?_, by simp [Kernel.leaving]⟩
    · intro t hne hst hstarted
      exact hsaved t (by simpa [show t ≠ next from hne] using hst) hstarted
    · intro hstarted
      exact absurd hr (hnext hstarted).2.1
  all_goals
    refine ⟨h.fresh, fun t hne hst => hsaved t (hlive' t hne hst), ?_, by simp [Kernel.leaving]⟩
    intro hstarted
    obtain ⟨hregs, -, hspace⟩ := hnext hstarted
    obtain ⟨hload1, hload2⟩ := hload hspace
    exact ⟨hload1.trans hregs, hload2, hspace⟩

theorem Transparent.yield (h : Transparent k own) : Transparent (yield k) own := by
  unfold Kernel.yield
  simp only
  split
  · exact h.keep rfl (fun t _ hst => hst) (by simp [Kernel.leaving])
  · refine h.keep rfl ?_ (by simp [Kernel.leaving])
    intro t hne hst
    simpa [readyToRun, hne] using hst

/-- A handler completes the pending load of the thread it interrupts. -/
theorem Transparent.checkIfDue {inc : Option Tid} {cpu : Bool} {home : Tid → Option Place}
    (hp : Placed k inc cpu home) (h : Transparent k own) (vs : List SemId) (y : Bool) (ctl : Ctl)
    (hctl : Kernel.leaving ctl = Kernel.leaving k.ctl) :
    Transparent { checkIfDue k vs y with ctl := ctl }
      (Function.update own k.currentThread (delayedLoad 0 0 (own k.currentThread))) := by
  obtain ⟨_, _, _, hk, hlive⟩ := hp.checkIfDue_live vs y
  rw [hk]
  refine ⟨h.fresh, ?_, ?_, by rw [hctl]; exact h.leaving⟩
  · intro t hne hst hstarted
    rw [Function.update_of_ne hne]
    exact h.saved t hne (hlive t hst) hstarted
  · intro hstarted
    obtain ⟨hregs, hpt, hspace⟩ := h.loaded hstarted
    exact ⟨by simp [hregs], hpt, hspace⟩

theorem stepOutside_transparent {k' : Kernel} {e : KEvent} {home : Tid → Option Place}
    (hp : Placed k none true home) (h : Transparent k own) (hctl : k.ctl = .outside)
    (hout : OutsideStep k e k') : Transparent k' (ownStep k e own) := by
  have hstays : Kernel.leaving k.ctl ≠ some .threadRoot := h.leaving
  unfold ownStep
  rw [hctl]
  cases hout with
  | newThread =>
    have hnew := h.fresh k.nextTid (Nat.le_refl _)
    have hne : k.currentThread ≠ k.nextTid := Nat.ne_of_lt (hp.lt_next hp.current_running)
    refine ⟨fun t hle => h.fresh t (Nat.le_of_succ_le hle), ?_, ?_, hstays⟩
    · intro t htne hst hstarted
      have htn : t ≠ k.nextTid := by
        rintro rfl
        rw [hnew] at hstarted
        cases hstarted
      simp only [Function.update_of_ne htn] at hst ⊢
      exact h.saved t htne hst hstarted
    · simp only [Function.update_of_ne hne]
      exact h.loaded
  | @fork t hst =>
    refine h.keep rfl ?_ (by simp [Kernel.leaving])
    intro u _ hlive
    rcases eq_or_ne u t with rfl | hut
    · simp [hst]
    · simpa [readyToRun, call, hut] using hlive
  | yield =>
    apply Transparent.yield
    exact h.keep rfl (fun t _ hst => hst) hstays
  | p => exact h.keep rfl (fun t _ hst => hst) (by simp [Kernel.leaving])
  | @v s =>
    have hcall : Placed (call k) none true home := hp.frame rfl
    obtain ⟨_, _, _, hv, hlive⟩ := hcall.semV_live s
    rw [hv]
    exact h.keep rfl (fun t _ hst => hlive t hst)
      (by simp [Kernel.leaving])
  | finish =>
    refine h.keep rfl ?_ (by simp [Kernel.leaving])
    intro t hne hst
    simpa [call, hne] using hst
  | @handOver t sp hsp hjust =>
    have hlt := hp.lt_next hjust
    refine ⟨?_, ?_, ?_, hstays⟩
    · intro u hle
      have hut : u ≠ t := (Nat.ne_of_lt (Nat.lt_of_lt_of_le hlt hle)).symm
      simpa [hut] using h.fresh u hle
    · intro u hne hst hstarted
      have hut : u ≠ t := hne
      rcases eq_or_ne u k.currentThread with rfl | hu
      · simp at hst
      · simp only [Function.update_of_ne hut, Function.update_of_ne hu, hsp] at hst hstarted ⊢
        exact h.saved u hu hst hstarted
    · intro _
      simp [hsp]
  | enable hon => exact h.keep rfl (fun t _ hst => hst) (by simp [Kernel.leaving, oneTick])
  | setLevel hoff => exact h.keep rfl (fun t _ hst => hst) hstays
  | @initFunc sp hsp hnew =>
    refine ⟨?_, ?_, ?_, hstays⟩
    · intro t hle
      have hne : t ≠ k.currentThread :=
        (Nat.ne_of_lt (Nat.lt_of_lt_of_le (hp.lt_next hp.current_running) hle)).symm
      simpa [hne] using h.fresh t hle
    · intro t hne hst hstarted
      simp only [Function.update_of_ne hne, hsp] at hstarted ⊢
      exact h.saved t hne hst hstarted
    · intro _
      simp [hsp]
  | user hrunning =>
    refine ⟨h.fresh, ?_, ?_, hstays⟩
    · intro t hne hst hstarted
      simp only [Function.update_of_ne hne]
      exact h.saved t hne hst hstarted
    · intro hstarted
      obtain ⟨hregs, hpt, hspace⟩ := h.loaded hstarted
      exact ⟨by simp [hregs], hpt, hspace⟩
  | userTick hon => exact h.keep rfl (fun t _ hst => hst) (by simp [Kernel.leaving, oneTick])

/-- **One step keeps private registers private.** -/
theorem step_transparent {k' : Kernel} {e : KEvent} (hp : PlacedAt k) (h : Transparent k own)
    (he : step k e = some k') : Transparent k' (ownStep k e own) := by
  obtain ⟨home, hp⟩ := hp
  have hl := h.leaving
  cases step_cases he with
  | outside hctl hout =>
    rw [hctl] at hp
    exact stepOutside_transparent hp h hctl hout
  | pass hctl _ =>
    simp only [ownStep, hctl]
    exact h.keep rfl (fun t _ hst => hst) (by simp [Kernel.leaving])
  | block hctl _ =>
    simp only [ownStep, hctl]
    refine h.keep rfl ?_ (by simp [Kernel.leaving])
    exact fun t hne hst => by simpa [hne] using hst
  | idle hctl hq =>
    rw [hctl] at hl
    simp only [ownStep, hctl]
    exact h.keep rfl (fun t _ hst => hst) hl
  | findNextToRun hctl hq =>
    rw [hctl] at hl
    simp only [ownStep, hctl]
    exact h.keep rfl (fun t _ hst => hst) hl
  | @firstHandler after vs y hctl =>
    simp only [ownStep, hctl]
    exact h.checkIfDue hp vs y _ (by rw [hctl]; rfl)
  | halt hctl =>
    simp only [ownStep, hctl]
    exact h.keep rfl (fun t _ hst => hst) (by simp [Kernel.leaving])
  | @handler vs y hctl =>
    have hown : ownStep k (.handler vs y) own =
        Function.update own k.currentThread (delayedLoad 0 0 (own k.currentThread)) := by
      rcases hctl with hctl | ⟨after, hctl⟩ <;> simp only [ownStep, hctl]
    rw [hown]
    have hdue := h.checkIfDue hp vs y k.ctl rfl
    obtain ⟨_, _, _, hk⟩ := checkIfDue_frame k vs y
    rwa [hk] at hdue ⊢
  | idleDone hctl =>
    rw [hctl] at hl
    simp only [ownStep, hctl]
    exact h.keep rfl (fun t _ hst => hst) hl
  | switch hctl =>
    rw [hctl] at hp
    simp only [ownStep, hctl]
    exact h.run hp hctl
  | enable hctl hon =>
    simp only [ownStep, hctl]
    exact h.keep rfl (fun t _ hst => hst) (by simp [Kernel.leaving, oneTick])
  | setLevel hctl hoff =>
    simp only [ownStep, hctl]
    exact h.keep rfl (fun t _ hst => hst) (by simp [Kernel.leaving])
  | tickYield hctl hy =>
    simp only [ownStep, hctl]
    apply Transparent.yield
    exact h.keep rfl (fun t _ hst => hst) (by simp [Kernel.leaving])
  | tickDone hctl hy =>
    simp only [ownStep, hctl]
    exact h.keep rfl (fun t _ hst => hst) (by simp [Kernel.leaving])

theorem boot_transparent (h : Boot k) (own : Private) : Transparent k own := by
  refine ⟨fun t _ => h.started t, ?_, ?_, by rw [h.ctl]; simp [Kernel.leaving]⟩
  · intro t _ _ hstarted
    rw [h.started] at hstarted
    cases hstarted
  · intro hstarted
    rw [h.started] at hstarted
    cases hstarted

theorem reachable_transparent (h : privateSystem.Reachable (k, own)) : Transparent k own := by
  refine System.Reachable.invariant (I := fun x : Kernel × Private => Transparent x.1 x.2) ?_ ?_ h
  · exact fun x hx => boot_transparent hx.1 x.2
  · rintro x e x' hr hi he
    obtain ⟨k', hk', rfl⟩ := Option.map_eq_some_iff.1 he
    exact step_transparent (reachable_inv (System.reachable_fst hr)).1 hi hk'

/-- **Context switches are transparent.**  Every run of the kernel can be followed with private
    register files, and whenever a started user thread executes, the machine's registers are its
    private ones and the machine translates by its page table. -/
theorem context_switch_transparent :
    (∀ k, system.Reachable k → ∃ own, privateSystem.Reachable (k, own)) ∧
    (∀ k own, privateSystem.Reachable (k, own) →
      k.ctl = .outside → k.started k.currentThread = true →
      (∀ r, k.registers r = own k.currentThread r) ∧
      k.pageTable = k.space k.currentThread ∧ k.space k.currentThread ≠ none) := by
  constructor
  · intro k h
    exact System.exists_history (fun _ _ => 0) trivial h
  · intro k own h _ hstarted
    obtain ⟨hregs, hpt, hspace⟩ := (reachable_transparent h).loaded hstarted
    exact ⟨fun r => by rw [hregs], hpt, hspace⟩

/-- Process 1 takes over the CPU, writes 7 to register 2, forks thread 2 and yields; thread 2 is
    initialised, writes 9 to the same register and yields back. -/
def switchRun : List KEvent :=
  [.newThread (some ⟨0, 4⟩), .handOver 1, .user (fun r => Function.update r (gpr 2) 7),
   .newThread (some ⟨1, 4⟩), .fork 2, .go, .noneDue, .yield, .go, .go, .noneDue,
   .initFunc, .user (fun r => Function.update r (gpr 2) 9), .yield, .go, .go, .noneDue]

theorem context_switch_transparent_switchRun : ∃ k own,
    privateSystem.run (boot0, fun _ _ => 0) switchRun = some (k, own) ∧
    k.currentThread = 1 ∧ own 1 (gpr 2) = 7 ∧ own 2 (gpr 2) = 9 ∧
    k.registers (gpr 2) = own 1 (gpr 2) ∧ k.pageTable = k.space 1 := by
  have hrun : (privateSystem.run (boot0, fun _ _ => 0) switchRun).map
      (fun x => (x.1.ctl, x.1.currentThread, x.1.started 1, x.2 1 (gpr 2), x.2 2 (gpr 2))) =
      some (.outside, 1, true, 7, 9) := by
    decide +kernel
  obtain ⟨⟨k, own⟩, hk, hproj⟩ := Option.map_eq_some_iff.1 hrun
  simp only [Prod.mk.injEq] at hproj
  obtain ⟨hctl, hcur, hstarted, h1, h2⟩ := hproj
  have hinit : privateSystem.init (boot0, fun _ _ => 0) := ⟨boot0_boot, trivial⟩
  obtain ⟨hregs, hpt, -⟩ := context_switch_transparent.2 k own
    (System.reachable_of_run switchRun hinit hk) hctl (by rw [hcur]; exact hstarted)
  rw [hcur] at hregs hpt
  exact ⟨k, own, hk, hcur, h1, h2, hregs (gpr 2), hpt⟩

end Kernel

end Nachos
