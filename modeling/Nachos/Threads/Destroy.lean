import Nachos.Threads.SchedulerInv

/-!
# Deleting finished threads

`Thread::Finish` leaves the thread in `threadToBeDestroyed`; the next thread that returns from
`SWITCH` inside `Scheduler::Run` deletes it.  A thread that is dispatched for the first time
starts in `ThreadRoot` and does not return there.

* `step_quiet` — a step that is not `Finish`, `PCB::Exec` or a return from `SWITCH` leaves the
  deleted and the finished threads alone.
* `step_graves`, `step_buried` — what one step keeps of the deleted and of the finished threads.
* `finished_deleted_once` — runs in which two `Finish` are never without a return in between.
-/

set_option autoImplicit false

namespace Nachos

namespace Kernel

open Transition

variable {k k' : Kernel} {inc : Option Tid} {cpu : Bool} {home : Tid → Option Place}

/-! ## What stays as it is -/

/-- Deleted threads and finished threads are as before. -/
structure Quiet (k k' : Kernel) : Prop where
  victim : k'.threadToBeDestroyed = k.threadToBeDestroyed
  finished : k'.finished = k.finished
  next : k.nextTid ≤ k'.nextTid
  status : ∀ t, k.status t = none ∧ t < k.nextTid ∨ k.finished t = true → k'.status t = k.status t

theorem Quiet.same (hv : k'.threadToBeDestroyed = k.threadToBeDestroyed) (hf : k'.finished = k.finished)
    (hn : k'.nextTid = k.nextTid) (hs : k'.status = k.status) : Quiet k k' :=
  ⟨hv, hf, hn.ge, fun t _ => by rw [hs]⟩

theorem Quiet.trans {k'' : Kernel} (h : Quiet k k') (h' : Quiet k' k'') : Quiet k k'' := by
  refine ⟨h'.victim.trans h.victim, h'.finished.trans h.finished, h.next.trans h'.next, ?_⟩
  intro t ht
  have hst := h.status t ht
  rw [← hst]
  apply h'.status
  rcases ht with ⟨h0, hlt⟩ | hf
  · exact .inl ⟨hst.trans h0, lt_of_lt_of_le hlt h.next⟩
  · exact .inr (by rw [h.finished]; exact hf)

/-- The status of a live thread changes. -/
theorem Quiet.update {t : Tid} {st st' : Option ThreadStatus}
    (hv : k'.threadToBeDestroyed = k.threadToBeDestroyed) (hf : k'.finished = k.finished)
    (hn : k'.nextTid = k.nextTid) (hs : k'.status = Function.update k.status t st')
    (ht : k.status t = st) (hlive : st ≠ none) (hfin : k.finished t = false) : Quiet k k' := by
  refine ⟨hv, hf, hn.ge, ?_⟩
  intro u hu
  rw [hs, Function.update_of_ne]
  rintro rfl
  rcases hu with ⟨h0, -⟩ | h1
  · exact hlive (ht.symm.trans h0)
  · rw [hfin] at h1
    cases h1

theorem semV_quiet (h : Placed k inc cpu home) (s : SemId) : Quiet k (semV k s) := by
  unfold semV Semaphore.v
  cases hq : (k.sems s).queue with
  | nil => exact Quiet.same rfl rfl rfl rfl
  | cons t q =>
    have hhome : home t = some (.sem s) := (h.homed.mem (.sem s) t).1 (by simp [queueOf, hq])
    obtain ⟨hst, hfin⟩ := (h.blocked t).2 ⟨s, hhome⟩
    exact Quiet.update rfl rfl rfl rfl hst (by simp) hfin

theorem foldl_semV_quiet (vs : List SemId) (k : Kernel) (home : Tid → Option Place)
    (h : Placed k inc cpu home) : Quiet k (vs.foldl semV k) := by
  induction vs generalizing k home with
  | nil => exact Quiet.same rfl rfl rfl rfl
  | cons s vs ih =>
    obtain ⟨home', h', -⟩ := h.semV s
    exact (semV_quiet h s).trans (ih (semV k s) home' h')

theorem checkIfDue_quiet (h : Placed k inc cpu home) (vs : List SemId) (y : Bool) :
    Quiet k (checkIfDue k vs y) := by
  have h0 : Placed { k with registers := delayedLoad 0 0 k.registers,
                            yieldOnReturn := k.yieldOnReturn || y } inc cpu home := h.frame rfl
  have hq := foldl_semV_quiet vs _ home h0
  exact ⟨hq.victim, hq.finished, hq.next, hq.status⟩

theorem yield_quiet (h : Placed k inc true home) : Quiet k (yield k) := by
  unfold yield
  simp only
  split
  · exact Quiet.same rfl rfl rfl rfl
  · have hrun := h.current_running
    exact Quiet.update rfl rfl rfl rfl hrun (by simp) (h.not_finished hrun (by simp))

theorem saveState_quiet {next : Tid} (h : Placed k (some next) false home) (after : Resume) :
    Quiet k (saveState k next after) := by
  have hst := (h.ready next).2 (.inr rfl)
  have hfin := h.not_finished hst (by simp)
  unfold saveState
  simp only
  split
  · exact Quiet.update rfl rfl rfl rfl hst (by simp) hfin
  · exact Quiet.update rfl rfl rfl rfl hst (by simp) hfin

/-! ## The step -/

/-- The thread that gets the CPU starts in `ThreadRoot`. -/
def startsInThreadRoot (k : Kernel) (next : Tid) (after : Resume) : Prop :=
  (saveState k next after).resume next = .threadRoot

instance (k : Kernel) (next : Tid) (after : Resume) : Decidable (startsInThreadRoot k next after) :=
  inferInstanceAs (Decidable (_ = _))

/-- The steps that delete a thread, or set `threadToBeDestroyed`. -/
inductive Deletes (k : Kernel) : KEvent → Prop where
  | finish : k.ctl = .outside → Deletes k .finish
  | handOver (t : Tid) : k.ctl = .outside → Deletes k (.handOver t)
  | switch (next : Tid) (after : Resume) : k.ctl = .atSwitch next after →
      ¬ startsInThreadRoot k next after → Deletes k .go

theorem stepOutside_quiet {e : KEvent} (h : Placed k none true home) (hctl : k.ctl = .outside)
    (hd : ¬ Deletes k e) (hout : OutsideStep k e k') : Quiet k k' := by
  have hrun := h.current_running
  have hcur := h.not_finished hrun (by simp)
  cases hout with
  | newThread =>
    refine ⟨rfl, rfl, Nat.le_succ _, ?_⟩
    intro t ht
    have hne : t ≠ k.nextTid := by
      rintro rfl
      rcases ht with ⟨-, hlt⟩ | hf
      · exact absurd hlt (lt_irrefl _)
      · rw [(h.fresh k.nextTid (le_refl _)).2] at hf
        cases hf
    exact Function.update_of_ne hne _ _
  | fork hst => exact Quiet.update rfl rfl rfl rfl hst (by simp) (h.not_finished hst (by simp))
  | yield =>
    have hcall : Placed (call k) none true home := h.frame rfl
    have hq := yield_quiet hcall
    exact ⟨hq.victim, hq.finished, hq.next, hq.status⟩
  | p => exact Quiet.same rfl rfl rfl rfl
  | @v s =>
    have hcall : Placed (call k) none true home := h.frame rfl
    have hv := semV_quiet hcall s
    exact ⟨hv.victim, hv.finished, hv.next, hv.status⟩
  | finish => exact absurd (Deletes.finish hctl) hd
  | @handOver t sp hsp hjust => exact absurd (Deletes.handOver t hctl) hd
  | enable hon => exact Quiet.same rfl rfl rfl rfl
  | setLevel hoff => exact Quiet.same rfl rfl rfl rfl
  | initFunc hsp hnew => exact Quiet.same rfl rfl rfl rfl
  | user hrunning => exact Quiet.same rfl rfl rfl rfl
  | userTick hon => exact Quiet.same rfl rfl rfl rfl

/-- **A step that deletes nothing** leaves the deleted and the finished threads alone. -/
theorem step_quiet {e : KEvent} (hp : PlacedAt k) (hd : ¬ Deletes k e) (he : step k e = some k') :
    Quiet k k' := by
  obtain ⟨home, h⟩ := hp
  cases step_cases he with
  | outside hctl hout =>
    rw [hctl] at h
    exact stepOutside_quiet h hctl hd hout
  | pass hctl _ => exact Quiet.same rfl rfl rfl rfl
  | block hctl _ =>
    rw [hctl] at h
    have hrun := h.current_running
    exact Quiet.update rfl rfl rfl rfl hrun (by simp) (h.not_finished hrun (by simp))
  | idle hctl hq => exact Quiet.same rfl rfl rfl rfl
  | findNextToRun hctl hq => exact Quiet.same rfl rfl rfl rfl
  | @firstHandler after vs y hctl =>
    have hq := checkIfDue_quiet h vs y
    exact ⟨hq.victim, hq.finished, hq.next, hq.status⟩
  | halt hctl => exact Quiet.same rfl rfl rfl rfl
  | @handler vs y hctl => exact checkIfDue_quiet h vs y
  | idleDone hctl => exact Quiet.same rfl rfl rfl rfl
  | @switch next after hctl =>
    rw [hctl] at h
    have hroot : (saveState k next after).resume next = .threadRoot := by
      by_contra hne
      exact hd (.switch next after hctl hne)
    simp only [run, hroot]
    have hq := saveState_quiet h after
    exact ⟨hq.victim, hq.finished, hq.next, hq.status⟩
  | enable hctl hon => exact Quiet.same rfl rfl rfl rfl
  | setLevel hctl hoff => exact Quiet.same rfl rfl rfl rfl
  | tickYield hctl hy =>
    rw [hctl] at h
    have hp' : Placed { k with level := .intOn, yieldOnReturn := false } none true home := h.frame rfl
    have hq := yield_quiet hp'
    exact ⟨hq.victim, hq.finished, hq.next, hq.status⟩
  | tickDone hctl hy => exact Quiet.same rfl rfl rfl rfl

/-! ## Runs -/

/-- History: the threads deleted so far, and whether a thread has returned from `SWITCH` in
`Scheduler::Run` since the last `Finish`. -/
structure Deletions where
  deleted : List Tid
  returned : Bool
  deriving DecidableEq, Repr

/-- What a step deletes.  `PCB::Exec` deletes the thread it hands the CPU over from. -/
def recordDeletion (k : Kernel) (e : KEvent) (d : Deletions) : Deletions :=
  match k.ctl, e with
  | .outside, .finish => { d with returned := false }
  | .outside, .handOver _ => { d with deleted := d.deleted ++ [k.currentThread] }
  | .atSwitch next after, .go =>
      if startsInThreadRoot k next after then d
      else { deleted := d.deleted ++ k.threadToBeDestroyed.toList, returned := true }
  | _, _ => d

/-- The kernel with this history. -/
def deletions : System (Kernel × Deletions) KEvent :=
  system.withHistory (fun d => d = ⟨[], true⟩) recordDeletion

/-- A thread has returned from `SWITCH` since the last `Finish`, if this is another one. -/
def ReturnedBeforeFinish (x : Kernel × Deletions) (e : KEvent) : Prop :=
  match e with
  | .finish => x.2.returned = true
  | _ => True

instance (x : Kernel × Deletions) (e : KEvent) : Decidable (ReturnedBeforeFinish x e) := by
  unfold ReturnedBeforeFinish
  split
  · infer_instance
  · infer_instance

theorem recordDeletion_quiet {e : KEvent} (hd : ¬ Deletes k e) (d : Deletions) : recordDeletion k e d = d := by
  unfold recordDeletion
  split
  · rename_i hctl
    exact absurd (Deletes.finish hctl) hd
  · rename_i hctl
    exact absurd (Deletes.handOver _ hctl) hd
  · rename_i next after hctl
    rw [if_pos]
    by_contra hne
    exact hd (.switch next after hctl hne)
  · rfl

/-- Deleted threads are gone, each was deleted once, and the victim is still there. -/
structure Graves (k : Kernel) (d : Deletions) : Prop where
  returned : d.returned = true ↔ k.threadToBeDestroyed = none
  deleted : ∀ t ∈ d.deleted, k.status t = none ∧ t < k.nextTid
  nodup : d.deleted.Nodup
  victim : ∀ t, k.threadToBeDestroyed = some t → k.status t = some .blocked

/-- Every finished thread is deleted, or is the one to be deleted. -/
def Buried (k : Kernel) (d : Deletions) : Prop :=
  ∀ t, k.finished t = true → t ∈ d.deleted ∨ k.threadToBeDestroyed = some t

theorem Quiet.graves (h : Quiet k k') (hp : Placed k inc cpu home) {d : Deletions} (hg : Graves k d) :
    Graves k' d := by
  refine ⟨?_, ?_, hg.nodup, ?_⟩
  · rw [h.victim]
    exact hg.returned
  · intro t ht
    obtain ⟨h0, hlt⟩ := hg.deleted t ht
    exact ⟨(h.status t (.inl ⟨h0, hlt⟩)).trans h0, lt_of_lt_of_le hlt h.next⟩
  · intro t ht
    rw [h.victim] at ht
    rw [h.status t (.inr (hp.victim t ht))]
    exact hg.victim t ht

theorem restoreState_victim (k : Kernel) : k.restoreState.threadToBeDestroyed = none ∧
    k.restoreState.finished = k.finished ∧ k.restoreState.nextTid = k.nextTid ∧
    k.restoreState.currentThread = k.currentThread ∧
    k.restoreState.status = (match k.threadToBeDestroyed with
      | some d => Function.update k.status d none
      | none => k.status) := by
  unfold restoreState
  cases hd : k.threadToBeDestroyed with
  | none =>
    simp only
    split
    · exact ⟨hd, rfl, rfl, rfl, rfl⟩
    · exact ⟨hd, rfl, rfl, rfl, rfl⟩
  | some d =>
    simp only
    split
    · exact ⟨rfl, rfl, rfl, rfl, rfl⟩
    · exact ⟨rfl, rfl, rfl, rfl, rfl⟩

/-- A return from `SWITCH`: what `Run` does after it, whatever `run` sets besides. -/
theorem run_returns {next : Tid} {after : Resume} (h : ¬ startsInThreadRoot k next after) :
    (run k next after).threadToBeDestroyed = (saveState k next after).restoreState.threadToBeDestroyed ∧
    (run k next after).finished = (saveState k next after).restoreState.finished ∧
    (run k next after).nextTid = (saveState k next after).restoreState.nextTid ∧
    (run k next after).status = (saveState k next after).restoreState.status := by
  unfold startsInThreadRoot at h
  unfold run
  simp only
  split
  · rename_i hroot
    exact absurd hroot h
  · exact ⟨rfl, rfl, rfl, rfl⟩
  · exact ⟨rfl, rfl, rfl, rfl⟩
  · exact ⟨rfl, rfl, rfl, rfl⟩

/-- **The return from `SWITCH`** deletes the victim and nobody else. -/
theorem run_graves {next : Tid} {after : Resume} {d : Deletions} (hp : Placed k (some next) false home)
    (hg : Graves k d) (h : ¬ startsInThreadRoot k next after) :
    Graves (run k next after) ⟨d.deleted ++ k.threadToBeDestroyed.toList, true⟩ := by
  have hsq := saveState_quiet hp after
  have hgu := hsq.graves hp hg
  obtain ⟨hv, hf, hn, hs⟩ := run_returns h
  obtain ⟨hv', hf', hn', -, hs'⟩ := restoreState_victim (saveState k next after)
  have hnext : k.nextTid ≤ (run k next after).nextTid := by
    rw [hn, hn']
    exact hsq.next
  rw [hsq.victim] at hs'
  refine ⟨?_, ?_, ?_, ?_⟩
  · simp [hv, hv']
  · intro t ht
    cases hvic : k.threadToBeDestroyed with
    | none =>
      rw [hvic] at hs' ht
      simp only [Option.toList_none, List.append_nil] at ht
      rw [hs, hs', hn, hn']
      exact hgu.deleted t ht
    | some v =>
      rw [hvic] at hs' ht
      rw [hs, hs', hn, hn']
      rcases List.mem_append.1 ht with ht | ht
      · obtain ⟨h0, hlt⟩ := hgu.deleted t ht
        refine ⟨?_, hlt⟩
        rcases eq_or_ne t v with rfl | hne
        · simp
        · simp [hne, h0]
      · have htv : t = v := by simpa using ht
        refine ⟨by simp [htv], ?_⟩
        rw [htv]
        exact lt_of_lt_of_le (hp.lt_next (hg.victim v hvic)) hsq.next
  · cases hvic : k.threadToBeDestroyed with
    | none => simpa using hg.nodup
    | some v =>
      refine List.nodup_append.2 ⟨hg.nodup, by simp, ?_⟩
      intro t ht u hu heq
      have huv : u = v := by simpa using hu
      have h0 := (hg.deleted t ht).1
      rw [heq, huv, hg.victim v hvic] at h0
      cases h0
  · intro t ht
    rw [hv, hv'] at ht
    cases ht

theorem step_graves {e : KEvent} {d : Deletions} (hp : PlacedAt k) (hg : Graves k d)
    (he : step k e = some k') : Graves k' (recordDeletion k e d) := by
  obtain ⟨home, h⟩ := hp
  by_cases hd : Deletes k e
  · cases hd with
    | finish hctl =>
      rw [hctl] at h
      have hrun := h.current_running
      simp only [step, hctl, stepOutside] at he
      cases he
      simp only [recordDeletion, hctl]
      refine ⟨by simp, ?_, hg.nodup, ?_⟩
      · intro t ht
        obtain ⟨h0, hlt⟩ := hg.deleted t ht
        refine ⟨?_, hlt⟩
        have hne : t ≠ k.currentThread := by
          rintro rfl
          rw [hrun] at h0
          cases h0
        simp [hne, h0]
      · intro t ht
        cases ht
        simp
    | handOver t hctl =>
      rw [hctl] at h
      have hrun := h.current_running
      simp only [step, hctl, stepOutside] at he
      split at he
      · split at he
        · rename_i hst
          cases he
          simp only [recordDeletion, hctl]
          refine ⟨hg.returned, ?_, ?_, ?_⟩
          · intro u hu
            rcases List.mem_append.1 hu with hu | hu
            · obtain ⟨h0, hlt⟩ := hg.deleted u hu
              refine ⟨?_, hlt⟩
              have hne : u ≠ t := by
                rintro rfl
                rw [hst] at h0
                cases h0
              rcases eq_or_ne u k.currentThread with rfl | hcur
              · simp
              · simp [hne, hcur, h0]
            · rw [List.mem_singleton.1 hu]
              exact ⟨by simp, h.lt_next hrun⟩
          · refine List.nodup_append.2 ⟨hg.nodup, by simp, ?_⟩
            intro u hu v hv heq
            have h0 := (hg.deleted u hu).1
            rw [heq, List.mem_singleton.1 hv, hrun] at h0
            cases h0
          · intro u hu
            have hblocked := hg.victim u hu
            have hne : u ≠ t := by
              rintro rfl
              rw [hst] at hblocked
              cases hblocked
            have hcur : u ≠ k.currentThread := by
              rintro rfl
              rw [hrun] at hblocked
              cases hblocked
            simp [hne, hcur, hblocked]
        · cases he
      · cases he
    | switch next after hctl hroot =>
      rw [hctl] at h
      simp only [step, hctl] at he
      cases he
      simp only [recordDeletion, hctl, if_neg hroot]
      exact run_graves h hg hroot
  · rw [recordDeletion_quiet hd]
    exact (step_quiet ⟨home, h⟩ hd he).graves h hg

/-- If `Finish` finds no victim, every finished thread stays accounted for. -/
theorem step_buried {e : KEvent} {d : Deletions} (hp : PlacedAt k) (hg : Graves k d) (hb : Buried k d)
    (hok : ReturnedBeforeFinish (k, d) e) (he : step k e = some k') : Buried k' (recordDeletion k e d) := by
  obtain ⟨home, h⟩ := hp
  by_cases hd : Deletes k e
  · cases hd with
    | finish hctl =>
      have hnone := hg.returned.1 hok
      simp only [step, hctl, stepOutside] at he
      cases he
      simp only [recordDeletion, hctl]
      intro t ht
      rcases eq_or_ne t k.currentThread with rfl | hne
      · exact .inr rfl
      · have ht' : k.finished t = true := by simpa [call, hne] using ht
        rcases hb t ht' with hmem | hvic
        · exact .inl hmem
        · rw [hnone] at hvic
          cases hvic
    | handOver t hctl =>
      simp only [step, hctl, stepOutside] at he
      split at he
      · split at he
        · cases he
          simp only [recordDeletion, hctl]
          intro u hu
          rcases hb u hu with hmem | hvic
          · exact .inl (List.mem_append_left _ hmem)
          · exact .inr hvic
        · cases he
      · cases he
    | switch next after hctl hroot =>
      rw [hctl] at h
      simp only [step, hctl] at he
      cases he
      simp only [recordDeletion, hctl, if_neg hroot]
      have hsq := saveState_quiet h after
      obtain ⟨-, hf, -, -⟩ := run_returns hroot
      obtain ⟨-, hf', -, -, -⟩ := restoreState_victim (saveState k next after)
      intro t ht
      rw [hf, hf', hsq.finished] at ht
      refine .inl (List.mem_append.2 ?_)
      rcases hb t ht with hmem | hvic
      · exact .inl hmem
      · rw [hvic]
        exact .inr (by simp)
  · have hq := step_quiet ⟨home, h⟩ hd he
    rw [recordDeletion_quiet hd]
    intro t ht
    rw [hq.finished] at ht
    rw [hq.victim]
    exact hb t ht

theorem reachable_graves {x : Kernel × Deletions} (h : deletions.Reachable x) : Graves x.1 x.2 := by
  refine System.Reachable.invariant (I := fun x => Graves x.1 x.2) ?_ ?_ h
  · rintro ⟨k, d⟩ ⟨hboot, rfl⟩
    have hnone : k.threadToBeDestroyed = none := Boot.noVictim hboot
    exact ⟨by simp [hnone], by simp, List.nodup_nil, by simp [hnone]⟩
  · intro x e x' hr hg he
    obtain ⟨k', hk', rfl⟩ := Option.map_eq_some_iff.1 he
    exact step_graves (reachable_inv (System.reachable_fst hr)).1 hg hk'

theorem reachable_buried {x : Kernel × Deletions} (h : deletions.ReachableBy ReturnedBeforeFinish x) :
    Buried x.1 x.2 := by
  refine System.ReachableBy.invariant (I := fun x => Buried x.1 x.2) ?_ ?_ h
  · rintro ⟨k, d⟩ ⟨hboot, rfl⟩ t ht
    rw [Boot.finished hboot t] at ht
    cases ht
  · intro x e x' hr hb hok he
    obtain ⟨k', hk', rfl⟩ := Option.map_eq_some_iff.1 he
    have hreach := hr.reachable
    exact step_buried (reachable_inv (System.reachable_fst hreach)).1 (reachable_graves hreach) hb hok hk'

/-- **Every finished thread is deleted once.**  In every run, `Finish` finds `threadToBeDestroyed`
`NULL` exactly when a thread has returned from `SWITCH` since the last `Finish`.  In every run in
which that is so at each `Finish`: a finished thread has been deleted, or it is the one that
`threadToBeDestroyed` holds; nobody is deleted twice, a deleted thread does not come back, and the
thread about to be deleted is not the one that gets the CPU. -/
theorem finished_deleted_once (x : Kernel × Deletions) :
    (deletions.Reachable x → (x.1.threadToBeDestroyed = none ↔ x.2.returned = true)) ∧
    (deletions.ReachableBy ReturnedBeforeFinish x →
      x.2.deleted.Nodup ∧ (∀ t ∈ x.2.deleted, x.1.status t = none) ∧
      (∀ t, x.1.finished t = true →
        (t ∈ x.2.deleted ∧ x.1.threadToBeDestroyed ≠ some t) ∨
        (t ∉ x.2.deleted ∧ x.1.threadToBeDestroyed = some t)) ∧
      (∀ t, x.1.threadToBeDestroyed = some t → x.1.status t = some .blocked ∧
        ∀ next after, x.1.ctl = .atSwitch next after → next ≠ t)) := by
  constructor
  · intro h
    exact (reachable_graves h).returned.symm
  · intro h
    have hg := reachable_graves h.reachable
    have hb := reachable_buried h
    obtain ⟨home, hp⟩ := (reachable_inv (System.reachable_fst h.reachable)).1
    have hnot : ∀ t, x.1.threadToBeDestroyed = some t → t ∉ x.2.deleted := by
      intro t hvic hmem
      have h0 := (hg.deleted t hmem).1
      rw [hg.victim t hvic] at h0
      cases h0
    refine ⟨hg.nodup, fun t ht => (hg.deleted t ht).1, ?_, ?_⟩
    · intro t ht
      rcases hb t ht with hmem | hvic
      · exact .inl ⟨hmem, fun hvic => hnot t hvic hmem⟩
      · exact .inr ⟨hnot t hvic, hvic⟩
    · intro t hvic
      refine ⟨hg.victim t hvic, ?_⟩
      rintro next after hctl rfl
      -- the incoming thread is ready, not blocked
      rw [hctl] at hp
      have hst := (hp.ready next).2 (.inr rfl)
      rw [hg.victim next hvic] at hst
      cases hst

/-- The main thread forks thread 1 and yields; thread 1 finishes, and the main thread returns from
`SWITCH` in its `Yield`. -/
def yieldAndFinish : List KEvent :=
  [.newThread none, .fork 1, .go, .noneDue, .yield, .go, .go, .noneDue, .finish, .go, .go]

theorem finished_deleted_once_yieldAndFinish :
    ∃ x, deletions.ReachableBy ReturnedBeforeFinish x ∧ x.1.finished 1 = true ∧ 1 ∈ x.2.deleted := by
  have hrun : (deletions.runBy ReturnedBeforeFinish (boot0, ⟨[], true⟩) yieldAndFinish).map
      (fun x => (x.1.finished 1, x.1.threadToBeDestroyed)) = some (true, none) := by decide +kernel
  obtain ⟨x, hx, hproj⟩ := Option.map_eq_some_iff.1 hrun
  rw [Prod.mk.injEq] at hproj
  have hinit : deletions.init (boot0, ⟨[], true⟩) := ⟨boot0_boot, rfl⟩
  have hreach := (System.ReachableBy.init hinit).runBy hx
  refine ⟨x, hreach, hproj.1, ?_⟩
  rcases ((finished_deleted_once x).2 hreach).2.2.1 1 hproj.1 with ⟨hmem, -⟩ | ⟨-, hvic⟩
  · exact hmem
  · rw [hproj.2] at hvic
    cases hvic

/-- The main thread forks threads 1 and 2 and finishes; thread 1 starts in `ThreadRoot` and
finishes at once. -/
def finishTwice : List KEvent :=
  [.newThread none, .fork 1, .go, .noneDue, .newThread none, .fork 2, .go, .noneDue,
    .finish, .go, .go, .go, .noneDue]

/-- The second `Finish` overwrites the main thread, which is never deleted. -/
theorem finishTwice_overwrites : ∃ k k', system.Reachable k ∧ k.ctl = .outside ∧
    k.threadToBeDestroyed = some 0 ∧ step k .finish = some k' ∧ k'.threadToBeDestroyed = some 1 ∧
    k'.status 0 = some .blocked := by
  have hrun : (system.run boot0 finishTwice).map
      (fun k => (k.ctl, k.threadToBeDestroyed, (step k .finish).map
        (fun k' => (k'.threadToBeDestroyed, k'.status 0)))) =
      some (.outside, some 0, some (some 1, some .blocked)) := by decide +kernel
  obtain ⟨k, hk, hproj⟩ := Option.map_eq_some_iff.1 hrun
  simp only [Prod.mk.injEq, Option.map_eq_some_iff] at hproj
  obtain ⟨hctl, hvic, k', hk', hvic', hst⟩ := hproj
  exact ⟨k, k', System.reachable_of_run finishTwice boot0_boot hk, hctl, hvic, hk', hvic', hst⟩

end Kernel

end Nachos
