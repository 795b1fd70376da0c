import Nachos.Threads.JoinQueue

/-!
# Joins do not deadlock

`bmsem` and the join semaphores put threads to sleep, so a run of the process table can get stuck.

* `Accounts` — a join semaphore counts the children that have exited, less the joins.
* `Stuck.waits` — where nobody can go on, every thread that is left waits for a child.
* `joins_never_deadlock` — if no process joins a child again, and none is taken for another one when
  it joins or exits, there is always a thread that can go on as long as one is left: the child that
  a process waits for is in a slot behind it.
* `joinTwice_deadlocks` — a second join of the same child waits for ever.
* `strayExit_deadlocks` — so does the parent of a process whose thread is where that of a dead
  process of another parent was.
-/

set_option autoImplicit false

namespace Nachos

namespace PState

open Transition

variable {s s' : PState}

/-! ## Joins and exits are counted -/

/-- The processes whose exit has released slot `p`. -/
def exits : List PLog → Nat → List Nat
  | [], _ => []
  | .exited c q _ :: l, p => if q = p then c :: exits l p else exits l p
  | .created _ :: l, p => exits l p
  | .joined _ _ _ :: l, p => exits l p

/-- The processes that the process of slot `p` has joined. -/
def joins : List PLog → Nat → List Nat
  | [], _ => []
  | .joined q d _ :: l, p => if q = p then d :: joins l p else joins l p
  | .created _ :: l, p => joins l p
  | .exited _ _ _ :: l, p => joins l p

theorem mem_ite_cons {P : Prop} [Decidable P] {a i : Nat} {l : List Nat} :
    i ∈ (if P then a :: l else l) ↔ P ∧ i = a ∨ i ∈ l := by
  split
  · rename_i hp
    rw [List.mem_cons, and_iff_right hp]
  · rename_i hp
    rw [or_iff_right fun h => hp h.1]

theorem nodup_ite_cons {P : Prop} [Decidable P] {a : Nat} {l : List Nat} (ha : P → a ∉ l) (hl : l.Nodup) :
    (if P then a :: l else l).Nodup := by
  split
  · rename_i hp
    exact List.nodup_cons.2 ⟨ha hp, hl⟩
  · exact hl

/-- No process joins a child that it has joined before; and the search for `currentThread` stops at its
own slot when it joins, and at a slot with its own parent when it exits. -/
def Proper (s : PState) : PEvent → Prop
  | .callJoin t pid => ∀ which ∈ s.slotOf t, s.home t = some which ∧ pid.toNat ∉ joins s.log which
  | .callExit t _ => ∀ which ∈ s.slotOf t, ∀ own ∈ s.home t, parentSlot s which = parentSlot s own
  | _ => True

instance (s : PState) : ∀ e, Decidable (Proper s e)
  | .callJoin t pid => inferInstanceAs (Decidable (∀ which ∈ s.slotOf t,
      s.home t = some which ∧ pid.toNat ∉ joins s.log which))
  | .callExit t _ => inferInstanceAs (Decidable (∀ which ∈ s.slotOf t, ∀ own ∈ s.home t,
      parentSlot s which = parentSlot s own))
  | .callExec _ _ | .go _ | .opened _ _ | .loaded _ | .deleted _ => inferInstanceAs (Decidable True)

/-- A join of slot `p` is about to return. -/
def returning (p : Nat) : Pc → Nat
  | .joinReturn q _ => if q = p then 1 else 0
  | _ => 0

/-- The join semaphore of slot `p`, with thread `u`, counts the exits less the joins. -/
def Counts (log : List PLog) (pc : Pc) (p : Nat) (value : Word) : Prop :=
  ∃ n, value = BitVec.ofNat 32 n ∧ n + (joins log p).length + returning p pc = (exits log p).length

/-- `d` is a child of `p`. -/
def Child (s : PState) (p d : Nat) : Prop := ∃ c u, s.pcb d = some c ∧ c.thread = some u ∧ c.parentId = (p : Nat)

structure Accounts (s : PState) : Prop where
  counts : ∀ p c u, s.pcb p = some c → c.thread = some u → Counts s.log (s.pc u) p c.joinsem.value
  exited : ∀ p, ∀ i ∈ exits s.log p, Child s p i
  stays : ∀ u i, s.home u = some i → ended (s.pc u) = false → ∀ p, i ∉ exits s.log p
  exitedOnce : ∀ p, (exits s.log p).Nodup
  children : ∀ p, ∀ d ∈ joins s.log p, Child s p d
  joinedOnce : ∀ p, (joins s.log p).Nodup
  pending : ∀ u p d, joining (s.pc u) = some (p, d) → d ∉ joins s.log p ∧ Child s p d ∧ s.home u = some p

theorem Child.keep (hk : KeepsParents s s') {p d : Nat} (h : Child s p d) : Child s' p d := by
  obtain ⟨c, u, hc, hu, hp⟩ := h
  obtain ⟨c', hc', hu', hp'⟩ := hk d c u hc hu
  exact ⟨c', u, hc', hu', hp'.trans hp⟩

/-- Slots with a thread come from slots with that thread. -/
def ThreadsFrom (s s' : PState) : Prop :=
  ∀ i c' u, s'.pcb i = some c' → c'.thread = some u → ∃ c, s.pcb i = some c ∧ c.thread = some u

/-- The log says nothing new about joins and exits, and no process is made, exits or calls `JoinUpdate`. -/
theorem Accounts.keep (h : Accounts s) (hk : KeepsParents s s') (hfrom : ThreadsFrom s s')
    (hexits : exits s'.log = exits s.log) (hjoins : joins s'.log = joins s.log) (hhome : s'.home = s.home)
    (hended : ∀ u i, s.home u = some i → ended (s'.pc u) = false → ended (s.pc u) = false)
    (hjoining : ∀ u, joining (s'.pc u) = joining (s.pc u) ∨ joining (s'.pc u) = none)
    (hcounts : ∀ p c c' u, s.pcb p = some c → s'.pcb p = some c' → c.thread = some u → c'.thread = some u →
      Counts s.log (s.pc u) p c.joinsem.value → Counts s'.log (s'.pc u) p c'.joinsem.value) : Accounts s' := by
  refine ⟨?_, ?_, ?_, ?_, ?_, ?_, ?_⟩
  · intro p c u hc hu
    obtain ⟨c₀, hc₀, hu₀⟩ := hfrom p c u hc hu
    exact hcounts p c₀ c u hc₀ hc hu₀ hu (h.counts p c₀ u hc₀ hu₀)
  · rw [hexits]
    exact fun p i hi => (h.exited p i hi).keep hk
  · intro u i hu hlive
    rw [hhome] at hu
    rw [hexits]
    exact h.stays u i hu (hended u i hu hlive)
  · rw [hexits]
    exact h.exitedOnce
  · rw [hjoins]
    exact fun p d hd => (h.children p d hd).keep hk
  · rw [hjoins]
    exact h.joinedOnce
  · intro u p d hu
    rcases hjoining u with heq | hnone
    · rw [heq] at hu
      obtain ⟨hnot, hchild, hp⟩ := h.pending u p d hu
      rw [hjoins, hhome]
      exact ⟨hnot, hchild.keep hk, hp⟩
    · rw [hnone] at hu
      cases hu

/-- What a thread's new place does not change, no thread's move changes. -/
theorem view_update {β : Type} {v : Pc → β} {pc : Tid → Pc} {t : Tid} {p : Pc} (h : v p = v (pc t)) (u : Tid) :
    v (Function.update pc t p u) = v (pc u) := by
  rcases eq_or_ne u t with rfl | hut
  · rw [Function.update_self, h]
  · rw [Function.update_of_ne hut]

/-- The thread's place means the same for the joins. -/
def SamePlace (p q : Pc) : Prop := (∀ i, returning i p = returning i q) ∧ joining p = joining q

theorem SamePlace.refl (p : Pc) : SamePlace p p := ⟨fun _ => rfl, rfl⟩

theorem SamePlace.update {pc : Tid → Pc} {t : Tid} {p : Pc} (h : SamePlace p (pc t)) (u : Tid) :
    SamePlace (Function.update pc t p u) (pc u) :=
  ⟨fun i => view_update (h.1 i) u, view_update h.2 u⟩

theorem returning_of_joining {p : Nat} {pc : Pc} (h : joining pc = none) : returning p pc = 0 := by
  cases pc with
  | joinReturn which d => cases h
  | _ => rfl

theorem joining_of_untracked {pc : Pc} (h : tracked pc = false) : joining pc = none := by
  cases pc with
  | joinP which d => cases h
  | joinReturn which d => cases h
  | _ => rfl

theorem samePlace_of_joining {p q : Pc} (hp : joining p = none) (hq : joining q = none) : SamePlace p q :=
  ⟨fun i => by rw [returning_of_joining hp, returning_of_joining hq], hp.trans hq.symm⟩

section

variable {log log' : List PLog} {pc pc' : Pc} {p d : Nat} {value v : Word}

theorem Counts.congr (h : Counts log pc p value) (hexits : exits log' p = exits log p)
    (hjoins : joins log' p = joins log p) (hpc : returning p pc' = returning p pc) : Counts log' pc' p value := by
  obtain ⟨n, hn, hsum⟩ := h
  exact ⟨n, hn, by rw [hexits, hjoins, hpc, hsum]⟩

/-- `joinsem->P()` takes one of the semaphore for the join that returns. -/
theorem Counts.passed (h : Counts log (.joinP p d) p value) (hv : value ≠ 0) :
    Counts log (.joinReturn p d) p (value - 1) := by
  obtain ⟨n, hn, hsum⟩ := h
  have hreturning : returning p (.joinReturn p d) = 1 := if_pos rfl
  cases n with
  | zero => exact absurd hn hv
  | succ n =>
    refine ⟨n, ?_, ?_⟩
    · rw [hn, BitVec.ofNat_add]
      exact BitVec.add_sub_cancel _ _
    · rw [hreturning, ← hsum]
      change _ = n + 1 + (joins log p).length + 0
      omega

/-- A join that returns is one of those in the log. -/
theorem Counts.returned (h : Counts log (.joinReturn p d) p value) : Counts (.joined p d v :: log) .user p value := by
  obtain ⟨n, hn, hsum⟩ := h
  have hreturning : returning p (.joinReturn p d) = 1 := if_pos rfl
  have hjoins : joins (.joined p d v :: log) p = d :: joins log p := if_pos rfl
  refine ⟨n, hn, ?_⟩
  rw [hjoins, List.length_cons]
  change n + ((joins log p).length + 1) + 0 = (exits log p).length
  rw [← hsum, hreturning]
  omega

/-- `joinsem->V()` of an exit. -/
theorem Counts.released (h : Counts log pc p value) (hpc : returning p pc' = returning p pc) :
    Counts (.exited d p v :: log) pc' p (value + 1) := by
  obtain ⟨n, hn, hsum⟩ := h
  have hexits : exits (.exited d p v :: log) p = d :: exits log p := if_pos rfl
  refine ⟨n + 1, ?_, ?_⟩
  · rw [hn, BitVec.ofNat_add]
    rfl
  · rw [hexits, List.length_cons, ← hsum, hpc]
    change n + 1 + (joins log p).length + _ = _
    omega

end

theorem Quiet.samePlace (hq : Quiet s s') (u : Tid) : SamePlace (s'.pc u) (s.pc u) := by
  rcases hq.pcs u with heq | ⟨hn, hn' | ⟨hdead, -⟩⟩
  · rw [heq]
    exact SamePlace.refl _
  · exact samePlace_of_joining (joining_of_untracked hn') (joining_of_untracked hn)
  · exact samePlace_of_joining (by rw [hdead]; rfl) (joining_of_untracked hn)

theorem Quiet.accounts (hq : Quiet s s') (hk : KeepsParents s s') (h : Accounts s) : Accounts s' := by
  refine h.keep hk ?_ (by rw [hq.log]) (by rw [hq.log]) hq.home ?_ (fun u => .inl (hq.samePlace u).2) ?_
  · intro i c' u hc' hu
    obtain ⟨c, hc, hcu, -⟩ := hq.entry_back hc' hu
    exact ⟨c, hc, hcu⟩
  · intro u i hu hlive
    rwa [hq.ended_eq (by rw [hu]; simp)] at hlive
  · intro p c c' u hc hc' hu hu' hcount
    obtain ⟨c₀, hc₀, -, hvalue⟩ := hq.entry_back hc' hu'
    rw [hc] at hc₀
    cases hc₀
    rw [hvalue]
    exact hcount.congr (by rw [hq.log]) (by rw [hq.log]) ((hq.samePlace u).1 p)

/-- The parent of a child has a thread, and is in a slot in front of it. -/
theorem Child.parent (hi : Inv s) {p d : Nat} (h : Child s p d) :
    ∃ c u, s.pcb p = some c ∧ c.thread = some u ∧ p < d := by
  obtain ⟨c, w, hc, hw, hp⟩ := h
  rcases hi.parent hc hw with ⟨-, hneg⟩ | ⟨-, q, cq, uq, hq, hcq, huq, hlt⟩
  · omega
  · have hpq : p = q := by omega
    subst hpq
    exact ⟨cq, uq, hcq, huq, hlt⟩

/-- Nobody has joined or left a slot without a thread. -/
theorem Accounts.unborn (h : Accounts s) (hi : Inv s) {p : Nat} (hp : ∀ c, s.pcb p = some c → c.thread = none) :
    exits s.log p = [] ∧ joins s.log p = [] := by
  have hno (d : Nat) (hd : Child s p d) : False := by
    obtain ⟨c, u, hc, hu, -⟩ := hd.parent hi
    rw [hp c hc] at hu
    cases hu
  exact ⟨List.eq_nil_iff_forall_not_mem.2 fun i hmem => hno i (h.exited p i hmem),
    List.eq_nil_iff_forall_not_mem.2 fun d hmem => hno d (h.children p d hmem)⟩

/-- `new Thread` -/
theorem opened_accounts {t w : Tid} {pid : Nat} {ppid : Int} (hi : Inv s) (hq : Queued s) (h : Accounts s)
    (hpc : s.pc t = .execOpen pid ppid) (hw : s.pc w = .dead) (hk : KeepsParents s (s.execOpened t pid ppid (some w))) :
    Accounts (s.execOpened t pid ppid (some w)) := by
  have hok := hi.pcs t
  rw [hpc] at hok
  obtain ⟨c, hc, hshape⟩ := pcb_of_shape hok.1
  have hthread : c.thread = none := congrArg Shape.thread hshape
  have hunborn : ∀ d, s.pcb pid = some d → d.thread = none := by
    intro d hd
    rw [hc] at hd
    cases hd
    exact hthread
  obtain ⟨hexits, hjoins⟩ := h.unborn hi hunborn
  have hne : w ≠ t := by
    rintro rfl
    rw [hpc] at hw
    cases hw
  generalize hs' : s.execOpened t pid ppid (some w) = s' at hk ⊢
  unfold execOpened at hs'
  rw [hc] at hs'
  simp only at hs'
  have hlog : s'.log = s.log := by rw [← hs']; rfl
  have hpcs : s'.pc = Function.update (Function.update s.pc w .created) t (.execSpace pid ppid) := by rw [← hs']; rfl
  have hhome : s'.home = Function.update s.home w (some pid) := by rw [← hs']
  have hself : s'.pcb pid = some { c with thread := some w } := by
    rw [← hs']
    exact Function.update_self _ _ _
  have hother {i : Nat} (hne : i ≠ pid) : s'.pcb i = s.pcb i := by
    rw [← hs']
    exact Function.update_of_ne hne _ _
  have hpcu (u : Tid) : SamePlace (s'.pc u) (s.pc u) := by
    rw [hpcs]
    rcases eq_or_ne u t with rfl | hut
    · rw [Function.update_self]
      exact samePlace_of_joining rfl (by rw [hpc]; rfl)
    · rw [Function.update_of_ne hut]
      exact SamePlace.update (samePlace_of_joining rfl (by rw [hw]; rfl)) u
  refine ⟨?_, ?_, ?_, ?_, ?_, ?_, ?_⟩
  · intro p d u hd hdu
    rcases eq_or_ne p pid with rfl | hpp
    · rw [hself] at hd
      cases hd
      cases hdu
      refine ⟨0, hq.unborn p c hc hthread, ?_⟩
      rw [(hpcu w).1, hw, hlog, hexits, hjoins]
      rfl
    · rw [hother hpp] at hd
      exact (h.counts p d u hd hdu).congr (by rw [hlog]) (by rw [hlog]) ((hpcu u).1 p)
  · rw [hlog]
    exact fun p i hmem => (h.exited p i hmem).keep hk
  · intro u i hu hlive p hmem
    rw [hlog] at hmem
    rw [hhome] at hu
    rcases eq_or_ne u w with rfl | huw
    · rw [Function.update_self] at hu
      cases hu
      obtain ⟨e, v, he, hv, -⟩ := h.exited p pid hmem
      rw [hunborn e he] at hv
      cases hv
    · rw [Function.update_of_ne huw] at hu
      refine h.stays u i hu ?_ p hmem
      rcases eq_or_ne u t with rfl | hut
      · rw [hpc]
        rfl
      · rwa [hpcs, Function.update_of_ne hut, Function.update_of_ne huw] at hlive
  · rw [hlog]
    exact h.exitedOnce
  · rw [hlog]
    exact fun p d hd => (h.children p d hd).keep hk
  · rw [hlog]
    exact h.joinedOnce
  · intro u p d hu
    rw [(hpcu u).2] at hu
    obtain ⟨hnot, hchild, hp⟩ := h.pending u p d hu
    have huw : u ≠ w := by
      rintro rfl
      rw [hw] at hu
      cases hu
    rw [hlog, hhome, Function.update_of_ne huw]
    exact ⟨hnot, hchild.keep hk, hp⟩

/-- The new thread starts. -/
theorem loaded_accounts {t : Tid} {pid : Nat} {ppid : Int} (hi : Inv s) (h : Accounts s)
    (hpc : s.pc t = .execSpace pid ppid) (hk : KeepsParents s (s.execLoaded t pid ppid)) :
    Accounts (s.execLoaded t pid ppid) := by
  have hok := hi.pcs t
  rw [hpc] at hok
  obtain ⟨child, hshape, hcreated⟩ := hok
  obtain ⟨c, hc, hshape'⟩ := pcb_of_shape hshape
  have hthread : c.thread = some child := congrArg Shape.thread hshape'
  generalize hs' : s.execLoaded t pid ppid = s' at hk ⊢
  have hfacts : s'.pcb = s.pcb ∧ s'.log = .created pid :: s.log ∧ s'.home = s.home ∧
      ∀ u, s'.pc u = s.pc u ∨ joining (s'.pc u) = none ∧ (u = t ∨ u = child) := by
    rw [← hs']
    unfold execLoaded
    rw [hc]
    simp only [hthread]
    have hupdate (a b : Tid) (p q : Pc) (hp : joining p = none) (hq : joining q = none) (u : Tid) :
        Function.update (Function.update s.pc a p) b q u = s.pc u ∨
          joining (Function.update (Function.update s.pc a p) b q u) = none ∧ (u = a ∨ u = b) := by
      rcases eq_or_ne u b with rfl | hub
      · rw [Function.update_self]
        exact .inr ⟨hq, .inr rfl⟩
      · rw [Function.update_of_ne hub]
        rcases eq_or_ne u a with rfl | hua
        · rw [Function.update_self]
          exact .inr ⟨hp, .inl rfl⟩
        · rw [Function.update_of_ne hua]
          exact .inl rfl
    split
    · exact ⟨rfl, rfl, rfl, hupdate t child .dead (.execUnlock pid) rfl rfl⟩
    · refine ⟨rfl, rfl, rfl, fun u => ?_⟩
      rcases hupdate child t .user (.execUnlock pid) rfl rfl u with heq | ⟨hnone, hor⟩
      · exact .inl heq
      · exact .inr ⟨hnone, hor.symm⟩
  obtain ⟨hpcb, hlog, hhome, hpcs⟩ := hfacts
  -- neither of the two has ended or joins
  have hbefore (u : Tid) (hu : u = t ∨ u = child) : joining (s.pc u) = none ∧ ended (s.pc u) = false := by
    rcases hu with rfl | rfl
    · rw [hpc]
      exact ⟨rfl, rfl⟩
    · rw [hcreated]
      exact ⟨rfl, rfl⟩
  have hsame (u : Tid) : SamePlace (s'.pc u) (s.pc u) := by
    rcases hpcs u with heq | ⟨hnone, hor⟩
    · rw [heq]
      exact SamePlace.refl _
    · exact samePlace_of_joining hnone (hbefore u hor).1
  refine h.keep hk ?_ (by rw [hlog]; rfl) (by rw [hlog]; rfl) hhome ?_ (fun u => .inl (hsame u).2) ?_
  · intro i c' u hc' hu
    rw [hpcb] at hc'
    exact ⟨c', hc', hu⟩
  · intro u i _ hlive
    rcases hpcs u with heq | ⟨-, hor⟩
    · rwa [heq] at hlive
    · exact (hbefore u hor).2
  · intro p d d' u hd hd' _ _ hcount
    rw [hpcb, hd] at hd'
    cases hd'
    exact hcount.congr (by rw [hlog]; rfl) (by rw [hlog]; rfl) ((hsame u).1 p)

/-- A thread moves, and nothing else changes. -/
theorem Accounts.move (h : Accounts s) {t : Tid} {p : Pc} (hplace : SamePlace p (s.pc t))
    (hended : ended p = ended (s.pc t)) : Accounts (s.setPc t p) := by
  have hsame : ∀ u, SamePlace (Function.update s.pc t p u) (s.pc u) := hplace.update
  refine h.keep (.same rfl) (fun i c u hc hu => ⟨c, hc, hu⟩) rfl rfl rfl ?_ (fun u => .inl (hsame u).2) ?_
  · intro u i _ hlive
    rwa [← view_update (v := ended) hended u]
  · intro p d d' u hd hd' _ _ hcount
    have hdd : s.pcb p = some d' := hd'
    rw [hd] at hdd
    cases hdd
    exact hcount.congr rfl rfl ((hsame u).1 p)

/-- The entry of slot `i` changes in its join semaphore, its counter or its exit code. -/
theorem ThreadsFrom.entry {i : Nat} {c c' : PCB} (hc : s.pcb i = some c)
    (h : s'.pcb = Function.update s.pcb i (some c')) (hthread : c'.thread = c.thread) : ThreadsFrom s s' := by
  intro j d u hd hu
  rw [h] at hd
  rcases eq_or_ne j i with rfl | hj
  · rw [Function.update_self] at hd
    cases hd
    exact ⟨c, hc, hthread.symm.trans hu⟩
  · rw [Function.update_of_ne hj] at hd
    exact ⟨d, hd, hu⟩

/-- The process that is joined has a thread: a slot without one is built by the thread of its parent. -/
theorem Queued.target (hq : Queued s) (hi : Inv s) {t : Tid} {which pid : Nat} {c target : PCB} (hpc : s.pc t = .user)
    (hc : s.pcb which = some c) (hthread : c.thread = some t) (htarget : s.pcb pid = some target)
    (hparent : target.parentId = which) : Child s which pid := by
  cases hborn : target.thread with
  | some u => exact ⟨target, u, htarget, hborn, hparent⟩
  | none =>
    obtain ⟨b, hb⟩ := hi.unborn pid ⟨shape target, by rw [shapes, htarget]; rfl, hborn⟩
    rcases hq.builder b pid target hb htarget with hneg | ⟨p, d, hp, hd, hbd⟩
    · omega
    · have hpw : p = which := by omega
      subst hpw
      rw [hc] at hd
      cases hd
      rw [hthread] at hbd
      cases hbd
      rw [hpc] at hb
      cases hb

/-- `JoinUpdate` passes its checks. -/
theorem joins_accounts {t : Tid} {which pid : Nat} {c target : PCB} (hi : Inv s) (hq : Queued s) (h : Accounts s)
    (hpc : s.pc t = .user) (hslot : s.slotOf t = some which) (hc : s.pcb which = some c)
    (htarget : s.pcb pid = some target) (hparent : target.parentId = which) (hown : s.home t = some which)
    (hnew : pid ∉ joins s.log which) :
    Accounts ((s.setPcb which (some { c with numwait := c.numwait + 1 })).setPc t (.joinP which pid)) := by
  have hk : KeepsParents s ((s.setPcb which (some { c with numwait := c.numwait + 1 })).setPc t (.joinP which pid)) :=
    .entry hc rfl rfl rfl
  have hthread : c.thread = some t := by
    obtain ⟨-, d, hd, hdt⟩ := slotOf_spec hslot
    rw [hc] at hd
    cases hd
    exact hdt
  generalize hs' : (s.setPcb which (some { c with numwait := c.numwait + 1 })).setPc t (.joinP which pid) = s' at hk ⊢
  have hpcs : s'.pc = Function.update s.pc t (.joinP which pid) := by rw [← hs']; rfl
  have hlog : s'.log = s.log := by rw [← hs']; rfl
  have hhome : s'.home = s.home := by rw [← hs']; rfl
  have hpcb : s'.pcb = Function.update s.pcb which (some { c with numwait := c.numwait + 1 }) := by rw [← hs']; rfl
  have hreturning (u : Tid) (p : Nat) : returning p (s'.pc u) = returning p (s.pc u) := by
    rw [hpcs]
    exact view_update (v := returning p) (by rw [hpc]; rfl) u
  have hended (u : Tid) : ended (s'.pc u) = ended (s.pc u) := by
    rw [hpcs]
    exact view_update (v := ended) (by rw [hpc]; rfl) u
  have hcounts : ∀ p d d' u, s.pcb p = some d → s'.pcb p = some d' → d.thread = some u → d'.thread = some u →
      Counts s.log (s.pc u) p d.joinsem.value → Counts s'.log (s.pc u) p d'.joinsem.value := by
    intro p d d' u hd hd' _ _ hcount
    have hvalue : d'.joinsem.value = d.joinsem.value := by
      rw [hpcb] at hd'
      rcases eq_or_ne p which with rfl | hne
      · rw [Function.update_self] at hd'
        cases hd'
        rw [hc] at hd
        cases hd
        rfl
      · rw [Function.update_of_ne hne, hd] at hd'
        cases hd'
        rfl
    rw [hvalue]
    exact hcount.congr (by rw [hlog]) (by rw [hlog]) rfl
  have hfrom : ThreadsFrom s s' := .entry hc hpcb rfl
  -- everything but the pending join is as before
  have hrest : Accounts { s' with pc := s.pc } :=
    h.keep hk hfrom (by rw [hlog]) (by rw [hlog]) hhome (fun _ _ _ hlive => hlive) (fun _ => .inl rfl) hcounts
  refine ⟨?_, hrest.exited, ?_, hrest.exitedOnce, hrest.children, hrest.joinedOnce, ?_⟩
  · intro p d u hd hu
    exact (hrest.counts p d u hd hu).congr rfl rfl (hreturning u p)
  · intro u i hu hlive
    rw [hended] at hlive
    exact hrest.stays u i hu hlive
  · intro u p d hu
    rw [hpcs] at hu
    rcases eq_or_ne u t with rfl | hut
    · rw [Function.update_self] at hu
      cases hu
      rw [hlog, hhome]
      exact ⟨hnew, (hq.target hi hpc hc hthread htarget hparent).keep hk, hown⟩
    · rw [Function.update_of_ne hut] at hu
      exact hrest.pending u p d hu

/-- `joinsem->P()` completes. -/
theorem passes_accounts {t : Tid} {which pid : Nat} {c : PCB} (hq : Queued s) (h : Accounts s)
    (hpc : s.pc t = .joinP which pid) (hc : s.pcb which = some c) (hv : c.joinsem.value ≠ 0) :
    Accounts ((s.setPcb which (some { c with
      joinsem := { c.joinsem with value := c.joinsem.value - 1 } })).setPc t (.joinReturn which pid)) := by
  have hthread := hq.thread_of_joining (by rw [hpc]; rfl) hc
  refine h.keep (.entry hc rfl rfl rfl) (.entry hc rfl rfl) rfl rfl rfl ?_ ?_ ?_
  · intro u i _ hlive
    rwa [← view_update (v := ended) (show ended (.joinReturn which pid) = ended (s.pc t) by rw [hpc]; rfl) u]
  · exact fun u => .inl (view_update (show joining (.joinReturn which pid) = joining (s.pc t) by rw [hpc]; rfl) u)
  · intro p d d' u hd hd' hu hu' hcount
    change Counts s.log (Function.update s.pc t (.joinReturn which pid) u) p _
    change Function.update s.pcb which _ p = some d' at hd'
    rcases eq_or_ne p which with rfl | hne
    · rw [hc] at hd
      cases hd
      rw [hthread] at hu
      cases hu
      rw [Function.update_self] at hd' ⊢
      cases hd'
      rw [hpc] at hcount
      exact hcount.passed hv
    · rw [Function.update_of_ne hne, hd] at hd'
      cases hd'
      refine hcount.congr rfl rfl (view_update (v := returning p) ?_ u)
      rw [hpc]
      exact if_neg (Ne.symm hne)

/-- `JoinUpdate` returns. -/
theorem returns_accounts {t : Tid} {which pid : Nat} {c : PCB} (hq : Queued s) (h : Accounts s)
    (hpc : s.pc t = .joinReturn which pid) (hc : s.pcb which = some c) :
    Accounts { s.setPc t .user with log := .joined which pid c.exitcode :: s.log } := by
  have hthread := hq.thread_of_joining (by rw [hpc]; rfl) hc
  obtain ⟨hfirst, hchild, -⟩ := h.pending t which pid (by rw [hpc]; rfl)
  have hpcu (u : Tid) (hut : u ≠ t) : Function.update s.pc t .user u = s.pc u := Function.update_of_ne hut _ _
  have hended : ∀ u, ended (Function.update s.pc t .user u) = ended (s.pc u) := view_update (by rw [hpc]; rfl)
  refine ⟨?_, h.exited, ?_, h.exitedOnce, ?_, ?_, ?_⟩
  · intro p d u hd hu
    have hcount := h.counts p d u hd hu
    change Counts (.joined which pid c.exitcode :: s.log) (Function.update s.pc t .user u) p _
    rcases eq_or_ne p which with rfl | hne
    · have hdc : s.pcb p = some d := hd
      rw [hc] at hdc
      cases hdc
      rw [hthread] at hu
      cases hu
      rw [hpc] at hcount
      rw [Function.update_self]
      exact hcount.returned
    · refine hcount.congr rfl (if_neg (Ne.symm hne)) (view_update (v := returning p) ?_ u)
      rw [hpc]
      exact (if_neg (Ne.symm hne)).symm
  · intro u i hu hlive
    change ended (Function.update s.pc t .user u) = false at hlive
    rw [hended] at hlive
    exact h.stays u i hu hlive
  · intro p d hd
    rcases mem_ite_cons.1 hd with ⟨rfl, rfl⟩ | hd
    · exact hchild
    · exact h.children p d hd
  · intro p
    refine nodup_ite_cons ?_ (h.joinedOnce p)
    rintro rfl
    exact hfirst
  · intro u p d hu
    change joining (Function.update s.pc t .user u) = some (p, d) at hu
    rcases eq_or_ne u t with rfl | hut
    · rw [Function.update_self] at hu
      cases hu
    · rw [hpcu u hut] at hu
      obtain ⟨hnot, hrest⟩ := h.pending u p d hu
      refine ⟨fun hmem => ?_, hrest⟩
      rcases mem_ite_cons.1 hmem with ⟨rfl, -⟩ | hmem
      · -- only `t` joins children of `which`
        have hcu := hq.thread_of_joining (by rw [hu]; rfl) hc
        exact hut (Option.some.inj (hcu.symm.trans hthread))
      · exact hnot hmem

/-- `ExitUpdate` of the process of slot `child`, which releases its own parent. -/
theorem exits_accounts {t : Tid} {child parent : Nat} {p : PCB} {ecd : Word} (hi : Inv s) (h : Accounts s)
    (hpc : s.pc t = .user) (hhome : s.home t = some child) (hown : parentSlot s child = some parent)
    (hp : s.pcb parent = some p) :
    Accounts { (s.setPcb parent (some { p with
        exitcode := ecd, numwait := p.numwait - 1, joinsem := p.joinsem.v.1 })).setPc t .exiting with
      log := .exited child parent ecd :: s.log } := by
  obtain ⟨child', c, hhome', hc, hthread⟩ := hi.home_of_user hpc rfl
  rw [hhome] at hhome'
  cases hhome'
  have hchild : Child s parent child := by
    refine ⟨c, t, hc, hthread, ?_⟩
    rw [parentSlot, hc] at hown
    simp only at hown
    split at hown
    · rename_i hpos
      rw [← Option.some.inj hown, Int.toNat_of_nonneg hpos]
    · cases hown
  have hk : KeepsParents s { (s.setPcb parent (some { p with
        exitcode := ecd, numwait := p.numwait - 1, joinsem := p.joinsem.v.1 })).setPc t .exiting with
      log := .exited child parent ecd :: s.log } := .entry hp rfl rfl rfl
  have hfrom : ThreadsFrom s { (s.setPcb parent (some { p with
        exitcode := ecd, numwait := p.numwait - 1, joinsem := p.joinsem.v.1 })).setPc t .exiting with
      log := .exited child parent ecd :: s.log } := .entry hp rfl rfl
  generalize hs' : ({ (s.setPcb parent (some { p with
        exitcode := ecd, numwait := p.numwait - 1, joinsem := p.joinsem.v.1 })).setPc t .exiting with
      log := .exited child parent ecd :: s.log } : PState) = s' at hk hfrom ⊢
  have hpcs : s'.pc = Function.update s.pc t .exiting := by rw [← hs']; rfl
  have hlog : s'.log = .exited child parent ecd :: s.log := by rw [← hs']
  have hsame : s'.home = s.home := by rw [← hs']; rfl
  have hpcb : s'.pcb = Function.update s.pcb parent (some { p with
      exitcode := ecd, numwait := p.numwait - 1, joinsem := p.joinsem.v.1 }) := by rw [← hs']; rfl
  have hexits (q : Nat) : exits s'.log q = if parent = q then child :: exits s.log q else exits s.log q := by
    rw [hlog]
    rfl
  have hjoins : joins s'.log = joins s.log := by
    rw [hlog]
    rfl
  have hret (u : Tid) (q : Nat) : returning q (s'.pc u) = returning q (s.pc u) := by
    rw [hpcs]
    exact view_update (v := returning q) (by rw [hpc]; rfl) u
  have hnot (q : Nat) : child ∉ exits s.log q := h.stays t child hhome (by rw [hpc]; rfl) q
  refine ⟨?_, ?_, ?_, ?_, ?_, ?_, ?_⟩
  · intro q d u hd hu
    rw [hpcb] at hd
    rcases eq_or_ne q parent with rfl | hne
    · rw [Function.update_self] at hd
      cases hd
      rw [hlog]
      change Counts _ _ q p.joinsem.v.1.value
      rw [Semaphore.v_value]
      exact (h.counts q p u hp hu).released (hret u q)
    · rw [Function.update_of_ne hne] at hd
      exact (h.counts q d u hd hu).congr ((hexits q).trans (if_neg (Ne.symm hne))) (by rw [hjoins]) (hret u q)
  · intro q i hmem
    rw [hexits] at hmem
    rcases mem_ite_cons.1 hmem with ⟨rfl, rfl⟩ | hmem
    · exact hchild.keep hk
    · exact (h.exited q i hmem).keep hk
  · intro u i hu hlive q hmem
    rw [hsame] at hu
    rw [hpcs] at hlive
    have hut : u ≠ t := by
      rintro rfl
      rw [Function.update_self] at hlive
      cases hlive
    rw [Function.update_of_ne hut] at hlive
    rw [hexits] at hmem
    rcases mem_ite_cons.1 hmem with ⟨-, rfl⟩ | hmem
    · -- the slot of `t` is another one
      obtain ⟨d, hd, hdu⟩ := hi.homes.owner u i (by rintro hud; rw [hud] at hlive; cases hlive) hu
      rw [shapes, hc] at hd
      cases hd
      exact hut (Option.some.inj (hdu.symm.trans hthread))
    · exact h.stays u i hu hlive q hmem
  · intro q
    rw [hexits]
    exact nodup_ite_cons (fun _ => hnot q) (h.exitedOnce q)
  · rw [hjoins]
    exact fun q d hd => (h.children q d hd).keep hk
  · rw [hjoins]
    exact h.joinedOnce
  · intro u q d hu
    rw [hpcs] at hu
    rcases eq_or_ne u t with rfl | hut
    · rw [Function.update_self] at hu
      cases hu
    · rw [Function.update_of_ne hut] at hu
      obtain ⟨hnew, hch, hq⟩ := h.pending u q d hu
      rw [hjoins, hsame]
      exact ⟨hnew, hch.keep hk, hq⟩

/-- **One step keeps the accounts**, if it is proper. -/
theorem step_accounts {e : PEvent} (hi : Inv s) (hq : Queued s) (h : Accounts s) (hok : Proper s e)
    (he : step s e = some s') : Accounts s' := by
  have hk := step_keepsParents hi he
  rcases step_cases hi he with hquiet | hl
  · exact hquiet.accounts hk h
  · cases hl with
    | opened hpc hu => exact opened_accounts hi hq h hpc hu hk
    | loaded hpc => exact loaded_accounts hi h hpc hk
    | joins hpc hslot hc htarget hparent =>
      rename_i t which pid c target
      obtain ⟨hown, hnew⟩ := hok which hslot
      exact joins_accounts hi hq h hpc hslot hc htarget hparent hown hnew
    | passes hpc hc hv => exact passes_accounts hq h hpc hc hv
    | returns hpc hc => exact returns_accounts hq h hpc hc
    | exits ecd hpc hchild hslot hc hparent hp =>
      rename_i t child which parent c p
      refine exits_accounts hi h hpc hchild ?_ hp
      rw [← hok which hslot child hchild, parentSlot, hc]
      simp [hparent]
    | finishes hpc => exact h.move (samePlace_of_joining rfl (by rw [hpc]; rfl)) (by rw [hpc]; rfl)
    | deleted hpc => exact h.move (samePlace_of_joining rfl (by rw [hpc]; rfl)) (by rw [hpc]; rfl)

theorem boot_accounts (h : Boot s) : Accounts s := by
  have hlog : ∀ p, exits s.log p = [] ∧ joins s.log p = [] := by
    intro p
    rw [h.log]
    exact ⟨rfl, rfl⟩
  refine ⟨?_, ?_, ?_, ?_, ?_, ?_, ?_⟩
  · intro i c u hc
    rw [h.pcb] at hc
    cases hc
  · intro p i hmem
    rw [(hlog p).1] at hmem
    cases hmem
  · intro u i hu
    rw [h.home] at hu
    cases hu
  · intro p
    rw [(hlog p).1]
    exact List.nodup_nil
  · intro p d hmem
    rw [(hlog p).2] at hmem
    cases hmem
  · intro p
    rw [(hlog p).2]
    exact List.nodup_nil
  · intro u p d hu
    rw [h.pc] at hu
    split at hu
    · cases hu
    · cases hu

theorem reachable_accounts (h : system.ReachableBy Proper s) : Accounts s :=
  System.ReachableBy.invariant (I := Accounts) (fun _ hb => boot_accounts hb)
    (fun _ _ _ hr ha hok he =>
      step_accounts (reachable_inv hr.reachable) (reachable_queued hr.reachable) ha hok he) h

/-! ## Somebody can go on -/

/-- A process has at most `MAX_PROCESS` children. -/
theorem Accounts.length_exits_le (h : Accounts s) (hi : Inv s) (p : Nat) : (exits s.log p).length ≤ MAX_PROCESS := by
  have hsub : exits s.log p ⊆ List.range MAX_PROCESS := by
    intro i hmem
    obtain ⟨c, u, hc, -, -⟩ := h.exited p i hmem
    exact List.mem_range.2 (hi.slots.range i (by rw [shapes, hc]; simp))
  have hle := ((h.exitedOnce p).subperm hsub).length_le
  rwa [List.length_range] at hle

theorem mem_exits {l : List PLog} {i q : Nat} {v : Word} (hmem : PLog.exited i q v ∈ l) : i ∈ exits l q := by
  induction l with
  | nil => cases hmem
  | cons x l ih =>
    rcases List.mem_cons.1 hmem with rfl | h
    · exact mem_ite_cons.2 (.inl ⟨rfl, rfl⟩)
    · cases x with
      | exited c p w => exact mem_ite_cons.2 (.inr (ih h))
      | created j => exact ih h
      | joined p d w => exact ih h

/-- A process whose join has to wait has a child that has not exited, in a slot behind it. -/
theorem Accounts.awaited (h : Accounts s) (hi : Inv s) (hq : Queued s) (hh : History s) {u : Tid} {p d : Nat} {c : PCB}
    (hpc : s.pc u = .joinP p d) (hc : s.pcb p = some c) (hv : c.joinsem.value = 0) :
    ∃ i w, p < i ∧ s.home w = some i ∧ ended (s.pc w) = false := by
  have hcu := hq.thread_of_joining (by rw [hpc]; rfl) hc
  -- as many joins have returned as children have exited
  obtain ⟨n, hn, hsum⟩ := h.counts p c u hc hcu
  have hlength := h.length_exits_le hi p
  rw [hpc] at hsum
  change n + (joins s.log p).length + 0 = (exits s.log p).length at hsum
  have hzero : n = 0 := by
    have hmax : MAX_PROCESS = 10 := rfl
    have hmod := congrArg BitVec.toNat (hv.symm.trans hn)
    rw [BitVec.toNat_ofNat, Nat.mod_eq_of_lt (by omega)] at hmod
    exact hmod.symm
  -- so one of those that it joins has not
  obtain ⟨hnot, hchild, -⟩ := h.pending u p d (by rw [hpc]; rfl)
  obtain ⟨i, hmem, hstays⟩ : ∃ i ∈ d :: joins s.log p, i ∉ exits s.log p := by
    by_contra hall
    have hsub : d :: joins s.log p ⊆ exits s.log p := fun i hmem => by
      by_contra hstays
      exact hall ⟨i, hmem, hstays⟩
    have hle := ((List.nodup_cons.2 ⟨hnot, h.joinedOnce p⟩).subperm hsub).length_le
    rw [List.length_cons] at hle
    omega
  have hi' : Child s p i := by
    rcases List.mem_cons.1 hmem with rfl | hmem
    · exact hchild
    · exact h.children p i hmem
  obtain ⟨-, -, -, -, hlt⟩ := hi'.parent hi
  obtain ⟨e, w, he, hw, hp⟩ := hi'
  rcases hh.live i e w he hw with ⟨q, v, hexit⟩ | ⟨hhome, hlive⟩
  · -- its exit has released its parent
    have hexits := mem_exits hexit
    obtain ⟨e', -, he', -, hp'⟩ := h.exited q i hexits
    rw [he] at he'
    cases he'
    have hqp : q = p := by omega
    rw [hqp] at hexits
    exact absurd hexits hstays
  · exact ⟨i, w, hlt, hhome, hlive⟩

/-- No proper event is enabled, but that a thread that has finished is deleted. -/
def Stuck (s : PState) : Prop := ∀ e, (∀ t, e ≠ .deleted t) → Proper s e → step s e = none

theorem Stuck.go (h : Stuck s) (t : Tid) : step s (.go t) = none := h (.go t) nofun trivial

/-- The thread in the critical section can go on. -/
theorem Stuck.inLock (h : Stuck s) (hq : Queued s) (hrun : ¬ s.stopped) (t : Tid) : inLock (s.pc t) = false := by
  have hgo := h.go t
  rw [step, if_neg hrun] at hgo
  cases hpc : s.pc t with
  | execMultex name pid ppid =>
    simp only [hpc] at hgo
    split at hgo
    · rename_i hmem
      cases hc : s.pcb pid with
      | none =>
        rw [hc] at hmem
        cases hmem
      | some c =>
        rw [hc] at hmem
        change decide (t ∈ c.multex.queue) = true at hmem
        rw [hq.multex pid c hc] at hmem
        cases hmem
    · cases hgo
  | execOpen pid ppid =>
    have hopen := h (.opened t none) nofun trivial
    rw [step, if_neg hrun] at hopen
    simp only [hpc] at hopen
    rw [if_pos nofun] at hopen
    cases hopen
  | execSpace pid ppid =>
    have hload := h (.loaded t) nofun trivial
    rw [step, if_neg hrun] at hload
    simp only [hpc] at hload
    cases hload
  | execBody name =>
    simp only [hpc] at hgo
    cases hgo
  | execUnlock pid =>
    simp only [hpc] at hgo
    cases hgo
  | execRelease pid =>
    simp only [hpc] at hgo
    cases hgo
  | execUndo pid =>
    simp only [hpc] at hgo
    cases hgo
  | _ => rfl

/-- Since nobody holds `bmsem`, nobody waits for it. -/
theorem Stuck.execP (h : Stuck s) (hi : Inv s) (hq : Queued s) (hrun : ¬ s.stopped) (t : Tid) (name : Option Name) :
    s.pc t ≠ .execP name := by
  intro hpc
  have hvalue : s.bmsem.value = 1 := hi.mutex.unlocked (h.inLock hq hrun)
  obtain ⟨u, n, hu, hmem⟩ : ∃ u n, s.pc u = .execP n ∧ u ∉ s.bmsem.queue := by
    rcases hq.awake (by rw [hvalue]; decide) with hnil | hawake
    · exact ⟨t, name, hpc, by rw [hnil]; exact List.not_mem_nil⟩
    · exact hawake
  have hgo := h.go u
  rw [step, if_neg hrun] at hgo
  simp only [hu, if_neg hmem, Semaphore.p_pos (show s.bmsem.value ≠ 0 by rw [hvalue]; decide)] at hgo
  cases hgo

/-- Who is left waits for a child. -/
theorem Stuck.waits (h : Stuck s) (hi : Inv s) (hq : Queued s) (hstart : Starting s) (hrun : ¬ s.stopped) (t : Tid)
    (hdead : s.pc t ≠ .dead) (hfinished : s.pc t ≠ .finished) :
    ∃ p d c, s.pc t = .joinP p d ∧ s.pcb p = some c ∧ c.joinsem.value = 0 := by
  have hlock := h.inLock hq hrun t
  have hgo := h.go t
  rw [step, if_neg hrun] at hgo
  cases hpc : s.pc t with
  | dead => exact absurd hpc hdead
  | finished => exact absurd hpc hfinished
  | created =>
    -- who is about to start it can go on
    obtain ⟨b, i, ppid, -, hb, -⟩ := hstart t hpc
    have hbuilder := h.inLock hq hrun b
    rw [hb] at hbuilder
    cases hbuilder
  | boot =>
    have hexec := h (.callExec t none) nofun trivial
    rw [step, if_neg hrun] at hexec
    simp only [hpc] at hexec
    cases hexec
  | user =>
    have hexec := h (.callExec t none) nofun trivial
    rw [step, if_neg hrun] at hexec
    simp only [hpc] at hexec
    cases hexec
  | execP name => exact absurd hpc (h.execP hi hq hrun t name)
  | joinP p d =>
    obtain ⟨c, hc, -⟩ := hq.joiner t p (by rw [hpc]; rfl)
    refine ⟨p, d, c, rfl, hc, ?_⟩
    simp only [hpc, hc] at hgo
    rcases hq.joinsem p c hc with hnil | ⟨u, e, -, hv, -⟩
    · rw [if_neg (by simp [hnil])] at hgo
      cases hgo
    · exact hv
  | joinReturn p d =>
    simp only [hpc] at hgo
    cases hgo
  | exiting =>
    simp only [hpc] at hgo
    cases hgo
  | halting =>
    have hlt : t < s.top := by
      by_contra hge
      rw [hi.fresh t (Nat.le_of_not_lt hge)] at hpc
      cases hpc
    exact absurd (.inr ⟨t, hlt, hpc⟩) hrun
  | _ =>
    rw [hpc] at hlock
    cases hlock

/-- **Joins do not deadlock.**  As long as a thread is left and the machine has not halted, somebody can go on with a
proper step. -/
theorem joins_never_deadlock (h : system.ReachableBy Proper s) (hrun : ¬ s.stopped)
    (hlive : ∃ t, s.pc t ≠ .dead ∧ s.pc t ≠ .finished) :
    ∃ e s', (∀ t, e ≠ .deleted t) ∧ Proper s e ∧ step s e = some s' := by
  have hi := reachable_inv h.reachable
  have hq := reachable_queued h.reachable
  have hstart := reachable_starting h.reachable
  have hacc := reachable_accounts h
  by_contra hnone
  have hstuck : Stuck s := by
    intro e he hok
    by_contra hsome
    obtain ⟨s', hs'⟩ := Option.ne_none_iff_exists'.1 hsome
    exact hnone ⟨e, s', he, hok, hs'⟩
  -- the child that a process waits for waits itself, for one in a slot behind it
  have hchain : ∀ n u p d, s.pc u = .joinP p d → MAX_PROCESS ≤ p + n → False := by
    intro n
    induction n with
    | zero =>
      intro u p d hpc hn
      obtain ⟨c, hc, -⟩ := hq.joiner u p (by rw [hpc]; rfl)
      have hlt := hi.slots.range p (by rw [shapes, hc]; simp)
      omega
    | succ n ih =>
      intro u p d hpc hn
      have hne : s.pc u ≠ .dead ∧ s.pc u ≠ .finished := by
        rw [hpc]
        simp
      obtain ⟨p', d', c, hpc', hc, hv⟩ := hstuck.waits hi hq hstart hrun u hne.1 hne.2
      rw [hpc] at hpc'
      cases hpc'
      obtain ⟨i, w, hlt, hw, hstays⟩ := hacc.awaited hi hq (reachable_history h.reachable) hpc hc hv
      obtain ⟨q, e, -, hpcw, -⟩ := hstuck.waits hi hq hstart hrun w (by rintro hwd; rw [hwd] at hstays; cases hstays)
        (by rintro hwf; rw [hwf] at hstays; cases hstays)
      obtain ⟨-, -, hown⟩ := hacc.pending w q e (by rw [hpcw]; rfl)
      rw [hw] at hown
      cases hown
      exact ih w i e hpcw (by omega)
  obtain ⟨t, hdead, hfinished⟩ := hlive
  obtain ⟨p, d, -, hpc, -⟩ := hstuck.waits hi hq hstart hrun t hdead hfinished
  exact hchain MAX_PROCESS t p d hpc (Nat.le_add_left _ _)

/-- The parent waits for its child. -/
def parentWaits : List PEvent :=
  firstRun ++ execRun 1 2 [2] ++ [.callJoin 1 1, .go 1]

theorem joins_never_deadlock_parentWaits : ∃ s, system.runBy Proper boot0 parentWaits = some s ∧
    s.pc 1 = .joinP 0 1 ∧ ∃ e s', (∀ t, e ≠ .deleted t) ∧ Proper s e ∧ step s e = some s' := by
  have hrun : (system.runBy Proper boot0 parentWaits).map (fun s => (decide s.stopped, s.pc 1)) =
      some (false, .joinP 0 1) := by
    decide +kernel
  obtain ⟨s, hs, hproj⟩ := Option.map_eq_some_iff.1 hrun
  rw [Prod.mk.injEq] at hproj
  have hreach := System.ReachableBy.runBy (.init boot0_boot) hs
  exact ⟨s, hs, hproj.2, joins_never_deadlock hreach (of_decide_eq_false hproj.1)
    ⟨1, by rw [hproj.2]; simp, by rw [hproj.2]; simp⟩⟩

/-! ## Runs that get stuck -/

/-- Only one thread is left, and sleeps in a join. -/
theorem step_of_sleeper {u : Tid} {p d : Nat} {c : PCB} (hothers : ∀ t, t ≠ u → s.pc t = .dead)
    (hpc : s.pc u = .joinP p d) (hc : s.pcb p = some c) (hmem : u ∈ c.joinsem.queue) (e : PEvent) : step s e = none := by
  have hplace : ∀ t, s.pc t = .dead ∨ s.pc t = .joinP p d ∧ t = u := by
    intro t
    rcases eq_or_ne t u with rfl | hne
    · exact .inr ⟨hpc, rfl⟩
    · exact .inl (hothers t hne)
  by_cases hstop : s.stopped
  · unfold step
    exact if_pos hstop
  · cases e with
    | go t =>
      rcases hplace t with ht | ⟨ht, rfl⟩
      · simp only [step, if_neg hstop, ht]
      · simp only [step, if_neg hstop, ht, hc]
        exact if_pos (by simpa using hmem)
    | callExec t name => rcases hplace t with ht | ⟨ht, -⟩ <;> simp only [step, if_neg hstop, ht]
    | callJoin t pid => rcases hplace t with ht | ⟨ht, -⟩ <;> simp [step, hstop, ht]
    | callExit t ecd => rcases hplace t with ht | ⟨ht, -⟩ <;> simp [step, hstop, ht]
    | opened t thread => rcases hplace t with ht | ⟨ht, -⟩ <;> simp only [step, if_neg hstop, ht]
    | loaded t => rcases hplace t with ht | ⟨ht, -⟩ <;> simp only [step, if_neg hstop, ht]
    | deleted t => rcases hplace t with ht | ⟨ht, -⟩ <;> simp [step, hstop, ht]

/-- A run that ends with thread 1 asleep in a join of slot 0, and no other thread. -/
theorem sleeper_of_run {es : List PEvent} {d : Nat}
    (hrun : (system.run boot0 es).map (fun s => decide (s.pc 1 = .joinP 0 d ∧ (∀ t < s.top, t ≠ 1 → s.pc t = .dead) ∧
      (s.pcb 0).map (fun c => c.joinsem.queue) = some [1])) = some true) :
    ∃ s, system.run boot0 es = some s ∧ s.pc 1 = .joinP 0 d ∧ ∀ e, step s e = none := by
  obtain ⟨s, hs, hproj⟩ := Option.map_eq_some_iff.1 hrun
  obtain ⟨h1, hrest, hqueue⟩ := of_decide_eq_true hproj
  obtain ⟨c, hc, hjoinsem⟩ := Option.map_eq_some_iff.1 hqueue
  have hreach : system.Reachable s := System.reachable_of_run _ boot0_boot hs
  refine ⟨s, hs, h1, step_of_sleeper (u := 1) ?_ h1 hc (by rw [hjoinsem]; exact List.mem_singleton_self 1)⟩
  intro t ht
  rcases Nat.lt_or_ge t s.top with hlt | hge
  · exact hrest t hlt ht
  · exact (reachable_inv hreach).fresh t hge

/-- The child has exited; the parent joins it twice. -/
def joinTwice : List PEvent :=
  firstRun ++ execRun 1 2 [2] ++ [.callExit 2 7, .go 2, .deleted 2, .callJoin 1 1, .go 1, .go 1, .callJoin 1 1, .go 1]

/-- The second join waits for ever. -/
theorem joinTwice_deadlocks : ∃ s, system.run boot0 joinTwice = some s ∧ s.pc 1 = .joinP 0 1 ∧ ∀ e, step s e = none :=
  sleeper_of_run (by decide +kernel)

/-- The child in slot 3 runs where the thread of slot 2, a child of slot 1, was. -/
def strayExit : List PEvent :=
  firstRun ++ execRun 1 2 [2] ++ execRun 2 3 [3] ++ [.callExit 3 7, .go 3, .deleted 3] ++ execRun 1 3 [4] ++
    [.callExit 3 8, .go 3, .deleted 3, .callExit 2 9, .go 2, .deleted 2,
      .callJoin 1 1, .go 1, .go 1, .callJoin 1 3, .go 1]

/-- Its exit releases slot 1, and its parent waits for ever. -/
theorem strayExit_deadlocks : ∃ s, system.run boot0 strayExit = some s ∧ s.pc 1 = .joinP 0 3 ∧ ∀ e, step s e = none :=
  sleeper_of_run (by decide +kernel)

end PState

end Nachos
