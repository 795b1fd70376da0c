import Nachos.Threads.SlotReuse

/-!
# The queues of the process table

`bmsem` and the join semaphores put threads to sleep.

* `Queued` — who is on the queues: a thread that waits is woken by the `V` it waits for.
* `Starting` — a thread that has not been started is about to be.
* `KeepsParents` — a slot with a thread keeps its thread and its parent.
-/

set_option autoImplicit false

namespace Nachos

namespace PState

open Transition

variable {s s' : PState}

/-! ## The queues -/

/-- `t` is the thread of the parent. -/
def ParentThread (s : PState) (parentId : Int) (t : Tid) : Prop :=
  parentId = -1 ∨ ∃ (p : Nat) (c : PCB), parentId = p ∧ s.pcb p = some c ∧ c.thread = some t

/-- Nobody is on the queue, or one thread that joins a child and has to wait. -/
def JoinQueue (pc : Tid → Pc) (i : Nat) (sem : Semaphore) : Prop :=
  sem.queue = [] ∨ ∃ u d, sem.queue = [u] ∧ sem.value = 0 ∧ pc u = .joinP i d

structure Queued (s : PState) : Prop where
  joinsem : ∀ i c, s.pcb i = some c → JoinQueue s.pc i c.joinsem
  multex : ∀ i c, s.pcb i = some c → c.multex.queue = []
  unborn : ∀ i c, s.pcb i = some c → c.thread = none → c.joinsem.value = 0
  fresh : ∀ t name pid ppid c, s.pc t = .execMultex name pid ppid → s.pcb pid = some c → c.multex.value ≠ 0
  chosen : ∀ t name pid ppid, s.pc t = .execMultex name pid ppid → ParentThread s ppid t
  builder : ∀ t i c, building (s.pc t) = some i → s.pcb i = some c → ParentThread s c.parentId t
  joiner : ∀ t p, (joining (s.pc t)).map Prod.fst = some p → ∃ c, s.pcb p = some c ∧ c.thread = some t
  waiting : ∀ u ∈ s.bmsem.queue, ∃ name, s.pc u = .execP name
  nodup : s.bmsem.queue.Nodup
  awake : s.bmsem.value ≠ 0 → s.bmsem.queue = [] ∨ ∃ u name, s.pc u = .execP name ∧ u ∉ s.bmsem.queue

/-- A slot that is being built has no thread. -/
theorem Inv.unborn_of_building (h : Inv s) {i : Nat} {u : Tid} (hu : building (s.pc u) = some i) :
    Unborn (shapes s) i := by
  have hok := h.pcs u
  cases hpc : s.pc u with
  | execMultex name pid ppid =>
    rw [hpc] at hok hu
    cases hu
    exact hok.1
  | execOpen pid ppid =>
    rw [hpc] at hok hu
    cases hu
    exact ⟨_, hok.1, rfl⟩
  | execUndo pid =>
    rw [hpc] at hok hu
    cases hu
    exact hok
  | _ =>
    rw [hpc] at hu
    cases hu

/-- A slot that is being built has an entry without a thread. -/
theorem Inv.entry_of_building (h : Inv s) {i : Nat} {u : Tid} (hu : building (s.pc u) = some i) :
    ∃ c, s.pcb i = some c ∧ c.thread = none := by
  obtain ⟨x, hx, hnone⟩ := h.unborn_of_building hu
  obtain ⟨c, hc, rfl⟩ := pcb_of_shape hx
  exact ⟨c, hc, hnone⟩

/-- The slot and the parent that `ExecUpdate` of thread `t` may choose. -/
def Chosen (s : PState) (t : Tid) (pid : Nat) (ppid : Int) : Prop :=
  s.pcb pid = none ∧
    (ppid = -1 ∧ (∀ i < MAX_PROCESS, s.pcb i = none) ∨
      ∃ (p : Nat) (c : PCB), ppid = p ∧ s.pcb p = some c ∧ c.thread = some t)

/-- What `ExecUpdate` does when it has taken `bmsem`. -/
theorem Inv.execBody_cases (h : Inv s) (t : Tid) (name : Option Name) :
    s.execBody t name = s.execFail t ∨
      ∃ bm n pid ppid, s.execBody t name = newPcb { s with bm := bm } t n pid ppid ∧ Chosen s t pid ppid := by
  have hfree : ∀ i < MAX_PROCESS, s.bm.bit i = false → s.pcb i = none := by
    intro i hlt hbit
    by_contra hne
    rw [(h.slots.bits i hlt).2 (by simpa [shapes] using hne)] at hbit
    cases hbit
  unfold execBody
  split
  · exact .inl rfl
  · split
    · rename_i hnum
      rw [← h.slots.numBits] at hnum
      have hall : ∀ i < MAX_PROCESS, s.pcb i = none := fun i hlt =>
        hfree i hlt (BitMap.numClear_eq_numBits.1 hnum i (by rw [h.slots.numBits]; exact hlt))
      exact .inr ⟨_, _, _, _, rfl, hall 0 (by decide), .inl ⟨rfl, hall⟩⟩
    · split
      · exact .inl rfl
      · split
        · exact .inl rfl
        · rename_i ppid hslot
          rcases s.bm.find_spec with ⟨i, hf, hlt, hbit, -⟩ | ⟨hf, -⟩
          · rw [hf]
            rw [h.slots.numBits] at hlt
            obtain ⟨-, c, hc, hthread⟩ := slotOf_spec hslot
            exact .inr ⟨_, _, _, _, rfl, hfree i hlt hbit, .inr ⟨ppid, c, rfl, hc, hthread⟩⟩
          · rw [hf]
            exact .inl rfl

theorem Inv.not_building (h : Inv s) {i : Nat} (hi : Established (shapes s) i) (u : Tid) :
    building (s.pc u) ≠ some i :=
  fun hu => (h.unborn_of_building hu).not_established hi

/-- Only one thread builds. -/
theorem Inv.builds_alone (h : Inv s) {t u : Tid} (ht : inLock (s.pc t) = true) (hu : u ≠ t) (i : Nat) :
    building (s.pc u) ≠ some i :=
  fun hb => hu (h.mutex.excl u t (inLock_of_building hb) ht)

/-- Who is on the queue of a join semaphore has called `joinsem->P()` of this slot. -/
theorem Queued.joinP_of_mem (h : Queued s) {t : Tid} {i : Nat} {c : PCB} (hc : s.pcb i = some c)
    (hmem : t ∈ c.joinsem.queue) : ∃ d, s.pc t = .joinP i d := by
  rcases h.joinsem i c hc with hnil | ⟨u, d, hu, -, hpc⟩
  · rw [hnil] at hmem
    cases hmem
  · rw [hu] at hmem
    rw [List.mem_singleton.1 hmem]
    exact ⟨d, hpc⟩

/-- Who is not in `joinsem->P()` is on no such queue. -/
theorem Queued.not_queued (h : Queued s) {t : Tid} (ht : joining (s.pc t) = none) (i : Nat) (c : PCB)
    (hc : s.pcb i = some c) : t ∉ c.joinsem.queue := by
  intro hmem
  obtain ⟨d, hpc⟩ := h.joinP_of_mem hc hmem
  rw [hpc] at ht
  cases ht

/-- Only the thread of slot `p` joins its children. -/
theorem Queued.thread_of_joining (h : Queued s) {t : Tid} {p : Nat} {c : PCB}
    (ht : (joining (s.pc t)).map Prod.fst = some p) (hc : s.pcb p = some c) : c.thread = some t := by
  obtain ⟨d, hd, hthread⟩ := h.joiner t p ht
  rw [hc] at hd
  cases hd
  exact hthread

theorem ParentThread.update {i : Nat} {x : Option PCB} {parentId : Int} {t : Tid} (h : ParentThread s parentId t)
    (hpcb : s'.pcb = Function.update s.pcb i x)
    (hthread : ∀ c u, s.pcb i = some c → c.thread = some u → ∃ c', x = some c' ∧ c'.thread = some u) :
    ParentThread s' parentId t := by
  rcases h with hnone | ⟨p, c, hp, hc, ht⟩
  · exact .inl hnone
  · rcases eq_or_ne p i with rfl | hne
    · obtain ⟨c', rfl, ht'⟩ := hthread c t hc ht
      exact .inr ⟨p, c', hp, by rw [hpcb, Function.update_self], ht'⟩
    · exact .inr ⟨p, c, hp, by rw [hpcb, Function.update_of_ne hne, hc], ht⟩

/-- Thread `t` moves to `p`, and the entry of slot `i` becomes `x`. -/
theorem Queued.change (h : Queued s) {t : Tid} {p : Pc} {i : Nat} {x : Option PCB}
    (hpcb : s'.pcb = Function.update s.pcb i x) (hpc : s'.pc = Function.update s.pc t p) (hbm : s'.bmsem = s.bmsem)
    (hexecP : ∀ name, s.pc t = .execP name → t ∉ s.bmsem.queue ∧ s.bmsem.value = 0)
    (hqueue : ∀ j c, s.pcb j = some c → t ∉ c.joinsem.queue)
    (hthread : ∀ c u, s.pcb i = some c → c.thread = some u → ∃ c', x = some c' ∧ c'.thread = some u)
    (hx : ∀ c', x = some c' → c'.multex.queue = [] ∧ (c'.thread = none → c'.joinsem.value = 0) ∧
      ((∃ c, s.pcb i = some c ∧ c'.joinsem = c.joinsem) ∨ JoinQueue s'.pc i c'.joinsem))
    (hother : ∀ u, u ≠ t → building (s.pc u) ≠ some i)
    (hfresh : ∀ name pid ppid, p = .execMultex name pid ppid →
      (∀ c, s'.pcb pid = some c → c.multex.value ≠ 0) ∧ ParentThread s' ppid t)
    (hbuilder : ∀ j c, building p = some j → s'.pcb j = some c → ParentThread s' c.parentId t)
    (hjoiner : ∀ q, (joining p).map Prod.fst = some q → ∃ c, s'.pcb q = some c ∧ c.thread = some t) : Queued s' := by
  have hself : s'.pc t = p := by rw [hpc, Function.update_self]
  have hne {u : Tid} (hu : u ≠ t) : s'.pc u = s.pc u := by rw [hpc, Function.update_of_ne hu]
  have hentry {j : Nat} (hj : j ≠ i) : s'.pcb j = s.pcb j := by rw [hpcb, Function.update_of_ne hj]
  have hkeep {j : Nat} {sem : Semaphore} (hnot : t ∉ sem.queue) (hsem : JoinQueue s.pc j sem) :
      JoinQueue s'.pc j sem := by
    rcases hsem with hnil | ⟨u, d, hu, hv, hpcu⟩
    · exact .inl hnil
    · refine .inr ⟨u, d, hu, hv, ?_⟩
      rw [hne, hpcu]
      rintro rfl
      exact hnot (by rw [hu]; exact List.mem_singleton_self _)
  have hnot {u : Tid} {j : Nat} (hu : u ≠ t) (hb : building (s.pc u) = some j) : j ≠ i := by
    rintro rfl
    exact hother u hu hb
  refine ⟨?_, ?_, ?_, ?_, ?_, ?_, ?_, ?_, ?_, ?_⟩
  · intro j c hc
    rcases eq_or_ne j i with rfl | hj
    · rw [hpcb, Function.update_self] at hc
      rcases (hx c hc).2.2 with ⟨c₀, hc₀, hsem⟩ | hsem
      · rw [hsem]
        exact hkeep (hqueue j c₀ hc₀) (h.joinsem j c₀ hc₀)
      · exact hsem
    · rw [hentry hj] at hc
      exact hkeep (hqueue j c hc) (h.joinsem j c hc)
  · intro j c hc
    rcases eq_or_ne j i with rfl | hj
    · rw [hpcb, Function.update_self] at hc
      exact (hx c hc).1
    · rw [hentry hj] at hc
      exact h.multex j c hc
  · intro j c hc
    rcases eq_or_ne j i with rfl | hj
    · rw [hpcb, Function.update_self] at hc
      exact (hx c hc).2.1
    · rw [hentry hj] at hc
      exact h.unborn j c hc
  · intro u name pid ppid c hu hc
    rcases eq_or_ne u t with rfl | hut
    · rw [hself] at hu
      exact (hfresh name pid ppid hu).1 c hc
    · rw [hne hut] at hu
      rw [hentry (hnot hut (by rw [hu]; rfl))] at hc
      exact h.fresh u name pid ppid c hu hc
  · intro u name pid ppid hu
    rcases eq_or_ne u t with rfl | hut
    · rw [hself] at hu
      exact (hfresh name pid ppid hu).2
    · rw [hne hut] at hu
      exact (h.chosen u name pid ppid hu).update hpcb hthread
  · intro u j c hu hc
    rcases eq_or_ne u t with rfl | hut
    · rw [hself] at hu
      exact hbuilder j c hu hc
    · rw [hne hut] at hu
      rw [hentry (hnot hut hu)] at hc
      exact (h.builder u j c hu hc).update hpcb hthread
  · intro u q hu
    rcases eq_or_ne u t with rfl | hut
    · rw [hself] at hu
      exact hjoiner q hu
    · rw [hne hut] at hu
      obtain ⟨c, hc, hcu⟩ := h.joiner u q hu
      rcases eq_or_ne q i with rfl | hq
      · obtain ⟨c', rfl, hcu'⟩ := hthread c u hc hcu
        exact ⟨c', by rw [hpcb, Function.update_self], hcu'⟩
      · exact ⟨c, by rw [hentry hq, hc], hcu⟩
  · intro u hu
    rw [hbm] at hu
    obtain ⟨name, hname⟩ := h.waiting u hu
    refine ⟨name, ?_⟩
    rw [hne, hname]
    rintro rfl
    exact (hexecP name hname).1 hu
  · rw [hbm]
    exact h.nodup
  · intro hv
    rw [hbm] at hv ⊢
    rcases h.awake hv with hnil | ⟨u, name, hu, hmem⟩
    · exact .inl hnil
    · refine .inr ⟨u, name, ?_, hmem⟩
      rw [hne, hu]
      rintro rfl
      exact hv (hexecP name hu).2

/-- The table ends at `MAX_PROCESS`. -/
def Ends (s : PState) : Prop := s.pcb MAX_PROCESS = none ∧ ∀ u, building (s.pc u) ≠ some MAX_PROCESS

theorem Inv.ends (h : Inv s) : Ends s := by
  have hnone : s.pcb MAX_PROCESS = none := by
    by_contra hsome
    have hlt := h.slots.range MAX_PROCESS (by rw [shapes]; simpa using hsome)
    exact Nat.lt_irrefl _ hlt
  refine ⟨hnone, ?_⟩
  intro u hb
  obtain ⟨c, hc, -⟩ := h.unborn_of_building hb
  rw [shapes, hnone] at hc
  cases hc

theorem Ends.setPc (h : Ends s) (t : Tid) {p : Pc} (hp : building p = none) : Ends (s.setPc t p) := by
  refine ⟨h.1, ?_⟩
  intro u hu
  change building (Function.update s.pc t p u) = some MAX_PROCESS at hu
  rcases eq_or_ne u t with rfl | hut
  · rw [Function.update_self, hp] at hu
    cases hu
  · rw [Function.update_of_ne hut] at hu
    exact h.2 u hu

/-- Only thread `t` moves. -/
theorem Queued.move (h : Queued s) (hends : Ends s) {t : Tid} {p : Pc} (hpcb : s'.pcb = s.pcb)
    (hpc : s'.pc = Function.update s.pc t p) (hbm : s'.bmsem = s.bmsem)
    (hexecP : ∀ name, s.pc t = .execP name → t ∉ s.bmsem.queue ∧ s.bmsem.value = 0)
    (hqueue : ∀ j c, s.pcb j = some c → t ∉ c.joinsem.queue) (hp : building p = none) (hj : joining p = none) :
    Queued s' := by
  refine h.change (i := MAX_PROCESS) (x := none) ?_ hpc hbm hexecP hqueue ?_ ?_ ?_ ?_ ?_ ?_
  · rw [hpcb, ← hends.1, Function.update_eq_self]
  · intro c u hc
    rw [hends.1] at hc
    cases hc
  · intro c' hc'
    cases hc'
  · exact fun u _ => hends.2 u
  · rintro name pid ppid rfl
    cases hp
  · intro j c hb
    rw [hp] at hb
    cases hb
  · intro q hq
    rw [hj] at hq
    cases hq

/-- `bmsem->V()`: the thread that it takes off the queue is awake. -/
theorem Queued.unlock (h : Queued s) : Queued { s with bmsem := s.bmsem.v.1 } := by
  have hrest : ∀ u ∈ s.bmsem.v.1.queue, u ∈ s.bmsem.queue := by
    intro u hu
    rw [Semaphore.v] at hu
    split at hu
    · exact hu
    · rename_i hq
      rw [hq]
      exact List.mem_cons_of_mem _ hu
  refine ⟨h.joinsem, h.multex, h.unborn, h.fresh, h.chosen, h.builder, h.joiner,
    fun u hu => h.waiting u (hrest u hu), ?_, ?_⟩
  · change s.bmsem.v.1.queue.Nodup
    rw [Semaphore.v]
    have hnodup := h.nodup
    split
    · exact hnodup
    · rename_i hq
      rw [hq] at hnodup
      exact hnodup.of_cons
  · intro _
    change s.bmsem.v.1.queue = [] ∨ ∃ u name, s.pc u = .execP name ∧ u ∉ s.bmsem.v.1.queue
    rw [Semaphore.v]
    have hnodup := h.nodup
    have hwaiting := h.waiting
    split
    · rename_i hq
      exact .inl hq
    · rename_i t q hq
      rw [hq] at hnodup hwaiting
      obtain ⟨name, hname⟩ := hwaiting t List.mem_cons_self
      exact .inr ⟨t, name, hname, (List.nodup_cons.1 hnodup).1⟩

/-! ## The steps -/

/-- What holds of a thread that is in user code, or in the middle of `ExecUpdate`. -/
theorem Queued.off (h : Queued s) {t : Tid} {p : Pc} (hpc : s.pc t = p) (hp : joining p = none)
    (hexec : ∀ name, p ≠ .execP name) :
    (∀ name, s.pc t = .execP name → t ∉ s.bmsem.queue ∧ s.bmsem.value = 0) ∧
      ∀ j c, s.pcb j = some c → t ∉ c.joinsem.queue :=
  ⟨fun name hname => absurd (hpc.symm.trans hname) (hexec name), h.not_queued (by rw [hpc, hp])⟩

theorem joining_afterExec (home : Option Nat) : joining (afterExec home) = none := by
  unfold afterExec
  split
  · rfl
  · rfl

theorem Queued.execFail (h : Queued s) (hi : Inv s) {t : Tid} {name : Option Name} (hpc : s.pc t = .execBody name) :
    Queued (s.execFail t) := by
  obtain ⟨hexecP, hqueue⟩ := h.off hpc rfl (fun _ hn => by cases hn)
  have hmove : Queued (s.setPc t (afterExec (s.home t))) :=
    h.move hi.ends rfl rfl rfl hexecP hqueue (afterExec_spec _).2.1 (joining_afterExec _)
  exact hmove.unlock

theorem Queued.newPcb (h : Queued s) (hi : Inv s) {t : Tid} {on : Option Name} (hpc : s.pc t = .execBody on)
    (bm : BitMap) (name : Name) {pid : Nat} {ppid : Int} (hfree : s.pcb pid = none) (hparent : ParentThread s ppid t) :
    Queued (newPcb { s with bm := bm } t name pid ppid) := by
  obtain ⟨hexecP, hqueue⟩ := h.off hpc rfl (fun _ hn => by cases hn)
  have hlock : inLock (s.pc t) = true := by rw [hpc]; rfl
  have hthread : ∀ c u, s.pcb pid = some c → c.thread = some u → ∃ c', some PCB.new = some c' ∧ c'.thread = some u := by
    intro c u hc
    rw [hfree] at hc
    cases hc
  refine h.change (i := pid) (x := some PCB.new) rfl rfl rfl hexecP hqueue hthread ?_ ?_ ?_ ?_ ?_
  · intro c' hc'
    cases hc'
    exact ⟨rfl, fun _ => rfl, .inr (.inl rfl)⟩
  · exact fun u hu => hi.builds_alone hlock hu pid
  · rintro _ _ _ ⟨⟩
    refine ⟨?_, hparent.update rfl hthread⟩
    intro c hc
    have hself : Function.update s.pcb pid (some PCB.new) pid = some c := hc
    rw [Function.update_self] at hself
    cases hself
    decide
  · rintro _ c ⟨⟩ hc
    have hself : Function.update s.pcb pid (some PCB.new) pid = some c := hc
    rw [Function.update_self] at hself
    cases hself
    exact .inl rfl
  · rintro q ⟨⟩

theorem Queued.execBody (h : Queued s) (hi : Inv s) {t : Tid} {name : Option Name} (hpc : s.pc t = .execBody name) :
    Queued (s.execBody t name) := by
  rcases hi.execBody_cases t name with hfail | ⟨bm, n, pid, ppid, hnew, hfree, hparent⟩
  · rw [hfail]
    exact h.execFail hi hpc
  · rw [hnew]
    refine h.newPcb hi hpc bm n hfree ?_
    rcases hparent with ⟨hnone, -⟩ | hsome
    · exact .inl hnone
    · exact .inr hsome

/-- `PCB::Exec` takes `multex`, which is free. -/
theorem Queued.execMultex (h : Queued s) (hi : Inv s) {t : Tid} {name : Name} {pid : Nat} {ppid : Int}
    (hpc : s.pc t = .execMultex name pid ppid) : Queued (s.execMultex t name pid ppid) := by
  obtain ⟨hexecP, hqueue⟩ := h.off hpc rfl (fun _ hn => by cases hn)
  have hlock : inLock (s.pc t) = true := by rw [hpc]; rfl
  obtain ⟨c, hc, hthread⟩ := hi.entry_of_building (by rw [hpc]; rfl)
  unfold PState.execMultex
  rw [hc]
  simp only [Semaphore.p_pos (h.fresh t name pid ppid c hpc hc), hthread, Option.isSome_none, Bool.false_eq_true,
    if_false]
  have hborn : ∀ {c' : PCB} (d : PCB) (u : Tid), s.pcb pid = some d → d.thread = some u →
      ∃ e, some c' = some e ∧ e.thread = some u := by
    intro c' d u hd hu
    rw [hc] at hd
    cases hd
    rw [hthread] at hu
    cases hu
  refine h.change (i := pid) (p := .execOpen pid ppid) rfl rfl rfl hexecP hqueue hborn ?_ ?_ ?_ ?_ ?_
  · rintro _ ⟨⟩
    exact ⟨h.multex pid c hc, fun _ => h.unborn pid c hc hthread, .inl ⟨c, hc, rfl⟩⟩
  · exact fun u hu => hi.builds_alone hlock hu pid
  · rintro _ _ _ ⟨⟩
  · rintro _ d ⟨⟩ hd
    have hself : Function.update s.pcb pid _ pid = some d := hd
    rw [Function.update_self] at hself
    cases hself
    exact (h.chosen t name pid ppid hpc).update rfl hborn
  · rintro q ⟨⟩

/-- A step of the builder changes the entry that it builds, whose thread stays if it has one. -/
theorem Queued.build (h : Queued s) {t : Tid} {p : Pc} {pid : Nat} {c e : PCB} (hlock : inLock (s.pc t) = true)
    (hother : ∀ u ≠ t, building (s.pc u) ≠ some pid) (hc : s.pcb pid = some c)
    (hpcb : s'.pcb = Function.update s.pcb pid (some e)) (hpc : s'.pc = Function.update s.pc t p)
    (hbm : s'.bmsem = s.bmsem) (hthread : ∀ u, c.thread = some u → e.thread = some u)
    (hparent : e.parentId = c.parentId) (hjoinsem : e.joinsem = c.joinsem) (hmultex : e.multex.queue = [])
    (hp : joining p = none) (hbuild : building p = none ∨ building (s.pc t) = some pid ∧ building p = some pid)
    (hnot : ∀ name q ppid, p ≠ .execMultex name q ppid) : Queued s' := by
  have hexec : ∀ name, s.pc t ≠ .execP name := by
    intro name hname
    rw [hname] at hlock
    cases hlock
  have hjoin : joining (s.pc t) = none := by
    cases hpc : s.pc t with
    | joinP which d =>
      rw [hpc] at hlock
      cases hlock
    | joinReturn which d =>
      rw [hpc] at hlock
      cases hlock
    | _ => rfl
  obtain ⟨hexecP, hqueue⟩ := h.off rfl hjoin hexec
  have hkeep : ∀ d u, s.pcb pid = some d → d.thread = some u → ∃ e', some e = some e' ∧ e'.thread = some u := by
    intro d u hd hu
    rw [hc] at hd
    cases hd
    exact ⟨e, rfl, hthread u hu⟩
  refine h.change (i := pid) (x := some e) hpcb hpc hbm hexecP hqueue hkeep ?_ ?_ ?_ ?_ ?_
  · rintro _ ⟨⟩
    refine ⟨hmultex, ?_, .inl ⟨c, hc, hjoinsem⟩⟩
    intro hnone
    rw [hjoinsem]
    refine h.unborn pid c hc ?_
    by_contra hsome
    obtain ⟨u, hu⟩ := Option.ne_none_iff_exists'.1 hsome
    rw [hthread u hu] at hnone
    cases hnone
  · exact hother
  · intro name q ppid hq
    exact absurd hq (hnot name q ppid)
  · intro j d hj hd
    rcases hbuild with hnone | ⟨ht, hp'⟩
    · rw [hnone] at hj
      cases hj
    · rw [hp'] at hj
      cases hj
      rw [hpcb, Function.update_self] at hd
      cases hd
      rw [hparent]
      exact (h.builder t pid c ht hc).update hpcb hkeep
  · intro q hq
    rw [hp] at hq
    cases hq

/-- `new Thread` places a thread where there is none. -/
theorem Queued.execOpened (h : Queued s) (hi : Inv s) {t : Tid} {pid : Nat} {ppid : Int} (thread : Option Tid)
    (hpc : s.pc t = .execOpen pid ppid) (hnew : ∀ u ∈ thread, s.pc u = .dead) :
    Queued (s.execOpened t pid ppid thread) := by
  have hlock : inLock (s.pc t) = true := by rw [hpc]; rfl
  have hok := hi.pcs t
  rw [hpc] at hok
  obtain ⟨c, hc, hshape⟩ := pcb_of_shape hok.1
  have hthread : c.thread = none := congrArg Shape.thread hshape
  have hother : ∀ u ≠ t, building (s.pc u) ≠ some pid := fun u hu => hi.builds_alone hlock hu pid
  unfold PState.execOpened
  rw [hc]
  cases thread with
  | some u =>
    have hdead := hnew u rfl
    have hne : t ≠ u := by
      rintro rfl
      rw [hpc] at hdead
      cases hdead
    obtain ⟨hexecP, hqueue⟩ := h.off hdead rfl nofun
    -- first the new thread, then the builder
    have hcreated : Queued (s.setPc u .created) := h.move hi.ends rfl rfl rfl hexecP hqueue rfl rfl
    have hpc' : (s.setPc u .created).pc t = .execOpen pid ppid := (Function.update_of_ne hne _ _).trans hpc
    refine hcreated.build (t := t) (c := c) (by rw [hpc']; rfl) ?_ hc rfl rfl rfl ?_ rfl rfl (h.multex pid c hc) rfl
      (.inl rfl) nofun
    · intro v hv
      show building (Function.update s.pc u .created v) ≠ some pid
      rcases eq_or_ne v u with rfl | hvu
      · rw [Function.update_self]
        exact nofun
      · rw [Function.update_of_ne hvu]
        exact hother v hv
    · intro v hv
      rw [hthread] at hv
      cases hv
  | none =>
    refine h.build (e := { c with multex := c.multex.v.1 }) hlock hother hc rfl rfl rfl (fun _ hu => hu) rfl rfl ?_ rfl
      (.inr ⟨by rw [hpc]; rfl, rfl⟩) nofun
    rw [Semaphore.v, h.multex pid c hc]

theorem Queued.execUnlock (h : Queued s) (hi : Inv s) {t : Tid} {pid : Nat} (hpc : s.pc t = .execUnlock pid) :
    Queued (s.execUnlock t pid) := by
  have hlock : inLock (s.pc t) = true := by rw [hpc]; rfl
  have hok := hi.pcs t
  rw [hpc] at hok
  obtain ⟨c, u, hc, -⟩ := pcb_of_established hok
  unfold PState.execUnlock
  rw [hc]
  refine h.build (e := { c with multex := c.multex.v.1 }) hlock (fun u hu => hi.builds_alone hlock hu pid) hc rfl rfl rfl
    (fun _ hu => hu) rfl rfl ?_ rfl (.inl rfl) nofun
  rw [Semaphore.v, h.multex pid c hc]

/-- The new thread starts, and the builder goes on. -/
theorem Queued.execLoaded (h : Queued s) (hi : Inv s) {t : Tid} {pid : Nat} {ppid : Int}
    (hpc : s.pc t = .execSpace pid ppid) : Queued (s.execLoaded t pid ppid) := by
  have hok := hi.pcs t
  rw [hpc] at hok
  obtain ⟨child, hshape, hdead⟩ := hok
  obtain ⟨c, hc, hshape'⟩ := pcb_of_shape hshape
  have hthread : c.thread = some child := congrArg Shape.thread hshape'
  have hne : t ≠ child := by
    rintro rfl
    rw [hpc] at hdead
    cases hdead
  have hends := hi.ends
  unfold PState.execLoaded
  rw [hc]
  simp only [hthread]
  -- both threads move, one after the other
  obtain ⟨hexecP, hqueue⟩ := h.off hpc rfl (fun _ hn => by cases hn)
  obtain ⟨hexecP', hqueue'⟩ := h.off hdead rfl (fun _ hn => by cases hn)
  split
  · have hfirst : Queued (s.setPc t .dead) := h.move hends rfl rfl rfl hexecP hqueue rfl rfl
    refine hfirst.move (hends.setPc t rfl) rfl rfl rfl ?_ hqueue' rfl rfl
    intro name hname
    exact hexecP' name ((Function.update_of_ne hne.symm _ _).symm.trans hname)
  · have hfirst : Queued (s.setPc child .user) := h.move hends rfl rfl rfl hexecP' hqueue' rfl rfl
    refine hfirst.move (hends.setPc child rfl) rfl rfl rfl ?_ hqueue rfl rfl
    intro name hname
    exact hexecP name ((Function.update_of_ne hne _ _).symm.trans hname)

theorem Queued.execRelease (h : Queued s) (hi : Inv s) {t : Tid} {pid : Nat} (hpc : s.pc t = .execRelease pid) :
    Queued (s.execRelease t) := by
  obtain ⟨hexecP, hqueue⟩ := h.off hpc rfl (fun _ hn => by cases hn)
  have hmove : Queued (s.setPc t .user) := h.move hi.ends rfl rfl rfl hexecP hqueue rfl rfl
  exact hmove.unlock

theorem Queued.execUndo (h : Queued s) (hi : Inv s) {t : Tid} {pid : Nat} (hpc : s.pc t = .execUndo pid) :
    Queued (s.execUndo t pid) := by
  obtain ⟨hexecP, hqueue⟩ := h.off hpc rfl (fun _ hn => by cases hn)
  have hlock : inLock (s.pc t) = true := by rw [hpc]; rfl
  obtain ⟨c, hc, hthread⟩ := hi.entry_of_building (by rw [hpc]; rfl)
  have hremoved : Queued (({ s with bm := s.bm.clearBit pid }.setPcb pid none).setPc t (afterExec (s.home t))) := by
    refine h.change (i := pid) (x := none) (p := afterExec (s.home t)) rfl rfl rfl hexecP hqueue ?_ ?_ ?_ ?_ ?_ ?_
    · intro d u hd hu
      rw [hc] at hd
      cases hd
      rw [hthread] at hu
      cases hu
    · intro c' hc'
      cases hc'
    · exact fun u hu => hi.builds_alone hlock hu pid
    · intro name q ppid hq
      have hnone := (afterExec_spec (s.home t)).2.1
      rw [hq] at hnone
      cases hnone
    · intro j d hj
      rw [(afterExec_spec _).2.1] at hj
      cases hj
    · intro q hq
      rw [joining_afterExec] at hq
      cases hq
  exact hremoved.unlock

/-- The entry of an established slot changes in its join semaphore, its counter or its exit code. -/
theorem Queued.entry (h : Queued s) (hi : Inv s) {t : Tid} {p : Pc} {i : Nat} {c e : PCB} {l : List PLog}
    (hc : s.pcb i = some c) (hest : Established (shapes s) i)
    (hexecP : ∀ name, s.pc t = .execP name → t ∉ s.bmsem.queue ∧ s.bmsem.value = 0)
    (hqueue : ∀ j d, s.pcb j = some d → t ∉ d.joinsem.queue) (hthread : e.thread = c.thread)
    (hmultex : e.multex = c.multex)
    (hjoinsem : e.joinsem = c.joinsem ∨ JoinQueue (Function.update s.pc t p) i e.joinsem) (hp : building p = none)
    (hjoiner : ∀ q, (joining p).map Prod.fst = some q → q = i ∧ c.thread = some t) :
    Queued { (s.setPcb i (some e)).setPc t p with log := l } := by
  refine h.change (i := i) (x := some e) rfl rfl rfl hexecP hqueue ?_ ?_ ?_ ?_ ?_ ?_
  · intro d u hd hu
    rw [hc] at hd
    cases hd
    exact ⟨e, rfl, hthread.trans hu⟩
  · rintro _ ⟨⟩
    refine ⟨?_, ?_, ?_⟩
    · rw [hmultex]
      exact h.multex i c hc
    · intro hnone
      obtain ⟨d, u, hd, hu⟩ := pcb_of_established hest
      rw [hc] at hd
      cases hd
      rw [hthread, hu] at hnone
      cases hnone
    · rcases hjoinsem with heq | hsem
      · exact .inl ⟨c, hc, heq⟩
      · exact .inr hsem
  · exact fun u _ => hi.not_building hest u
  · rintro _ _ _ rfl
    cases hp
  · intro j d hj
    rw [hp] at hj
    cases hj
  · intro q hq
    obtain ⟨rfl, ht⟩ := hjoiner q hq
    exact ⟨e, Function.update_self _ _ _, hthread.trans ht⟩

theorem Queued.callJoin (h : Queued s) (hi : Inv s) {t : Tid} (pid : Int) (hpc : s.pc t = .user) :
    Queued (s.callJoin t pid) := by
  obtain ⟨hexecP, hqueue⟩ := h.off hpc rfl (fun _ hn => by cases hn)
  unfold PState.callJoin
  split
  · exact h
  · split
    · exact h
    · rename_i which hslot
      obtain ⟨-, c, hc, hthread⟩ := slotOf_spec hslot
      rw [hc]
      cases htarget : s.pcb pid.toNat with
      | none => exact h
      | some target =>
        simp only
        split
        · exact h
        · refine h.entry hi (l := s.log) hc (slotOf_established hslot) hexecP hqueue rfl rfl (.inl rfl) rfl ?_
          rintro q ⟨⟩
          exact ⟨rfl, hthread⟩

theorem Queued.joinReturn (h : Queued s) (hi : Inv s) {t : Tid} {which pid : Nat}
    (hpc : s.pc t = .joinReturn which pid) : Queued (s.joinReturn t which pid) := by
  obtain ⟨c, hc, hthread⟩ := h.joiner t which (by rw [hpc]; rfl)
  have hqueue : ∀ j d, s.pcb j = some d → t ∉ d.joinsem.queue := by
    intro j d hd hmem
    obtain ⟨e, he⟩ := h.joinP_of_mem hd hmem
    rw [hpc] at he
    cases he
  unfold PState.joinReturn
  rw [hc]
  refine h.move hi.ends (p := .user) rfl rfl rfl ?_ hqueue rfl rfl
  intro name hname
  rw [hpc] at hname
  cases hname

/-- One turn of `joinsem->P()`, of a thread that is not on the queue. -/
theorem Queued.joinP (h : Queued s) (hi : Inv s) {t : Tid} {which pid : Nat} (hpc : s.pc t = .joinP which pid)
    (hnot : ∀ c, s.pcb which = some c → t ∉ c.joinsem.queue) : Queued (s.joinP t which pid) := by
  obtain ⟨c, hc, hthread⟩ := h.joiner t which (by rw [hpc]; rfl)
  have hest : Established (shapes s) which := ⟨shape c, t, by rw [shapes, hc]; rfl, hthread⟩
  have hexecP : ∀ name, s.pc t = .execP name → t ∉ s.bmsem.queue ∧ s.bmsem.value = 0 := by
    intro name hname
    rw [hpc] at hname
    cases hname
  -- nobody else joins children of this process
  have hself : ∀ u d, s.pc u = .joinP which d → u = t := by
    intro u d hu
    have hcu := h.thread_of_joining (by rw [hu]; rfl) hc
    exact Option.some.inj (hcu.symm.trans hthread)
  have hqueue : ∀ j d, s.pcb j = some d → t ∉ d.joinsem.queue := by
    intro j d hd hmem
    obtain ⟨e, he⟩ := h.joinP_of_mem hd hmem
    rw [hpc] at he
    cases he
    exact hnot d hd hmem
  have hempty : c.joinsem.queue = [] := by
    rcases h.joinsem which c hc with hnil | ⟨u, e, hu, -, hpcu⟩
    · exact hnil
    · refine absurd ?_ (hnot c hc)
      rw [hu, hself u e hpcu]
      exact List.mem_singleton_self t
  unfold PState.joinP
  rw [hc]
  rcases eq_or_ne c.joinsem.value 0 with hz | hz
  · simp only [Semaphore.p_zero hz, hempty, List.nil_append]
    have hstays : s.pc = Function.update s.pc t (.joinP which pid) := by rw [← hpc, Function.update_eq_self]
    have hs' := h.entry hi (p := .joinP which pid) (e := { c with joinsem := ⟨c.joinsem.value, [t]⟩ }) (l := s.log) hc
      hest hexecP hqueue rfl rfl (.inr (.inr ⟨t, pid, rfl, hz, Function.update_self _ _ _⟩)) rfl
      (by rintro q ⟨⟩; exact ⟨rfl, hthread⟩)
    unfold PState.setPc at hs'
    rw [show (s.setPcb which _).pc = s.pc from rfl, ← hstays] at hs'
    exact hs'
  · simp only [Semaphore.p_pos hz]
    exact h.entry hi (l := s.log) hc hest hexecP hqueue rfl rfl (.inr (.inl hempty)) rfl
      (by rintro q ⟨⟩; exact ⟨rfl, hthread⟩)

theorem Queued.callExit (h : Queued s) (hi : Inv s) {t : Tid} (ecd : Word) (hpc : s.pc t = .user) :
    Queued (s.callExit t ecd) := by
  obtain ⟨hexecP, hqueue⟩ := h.off hpc rfl (fun _ hn => by cases hn)
  unfold PState.callExit
  split
  · exact h
  · rename_i which hslot
    obtain ⟨-, c, hc, hthread⟩ := slotOf_spec hslot
    rw [hc]
    simp only
    rcases hi.parent hc hthread with ⟨-, hpar⟩ | ⟨-, q, cq, uq, hpar, hcq, huq, -⟩
    · rw [if_pos hpar]
      exact h.move hi.ends rfl rfl rfl hexecP hqueue rfl rfl
    · rw [if_neg (by rw [hpar]; omega), hpar, Int.toNat_natCast, hcq]
      refine h.entry hi hcq ⟨shape cq, uq, by rw [shapes, hcq]; rfl, huq⟩ hexecP hqueue rfl rfl (.inr (.inl ?_)) rfl ?_
      · -- `V` takes off the only thread that can be on the queue
        rw [Semaphore.v]
        rcases h.joinsem q cq hcq with hnil | ⟨u, d, hu, -, -⟩
        · rw [hnil]
        · rw [hu]
      · rintro _ ⟨⟩

theorem Queued.execP (h : Queued s) (hi : Inv s) {t : Tid} {name : Option Name} (hpc : s.pc t = .execP name)
    (hnot : t ∉ s.bmsem.queue) {s' : PState}
    (he : (match s.bmsem.p t with
      | (bmsem, false) => some { s with bmsem := bmsem }
      | (bmsem, true) => some ({ s with bmsem := bmsem }.setPc t (.execBody name))) = some s') : Queued s' := by
  rcases eq_or_ne s.bmsem.value 0 with hz | hz
  · rw [Semaphore.p_zero hz] at he
    cases he
    refine ⟨h.joinsem, h.multex, h.unborn, h.fresh, h.chosen, h.builder, h.joiner, ?_, ?_, fun hv => absurd hz hv⟩
    · intro u hu
      rcases List.mem_append.1 hu with hu | hu
      · exact h.waiting u hu
      · rw [List.mem_singleton.1 hu]
        exact ⟨name, hpc⟩
    · exact List.nodup_append.2 ⟨h.nodup, List.nodup_singleton t, by
        rintro a ha b hb rfl
        exact hnot (List.mem_singleton.1 hb ▸ ha)⟩
  · rw [Semaphore.p_pos hz] at he
    cases he
    have hzero : s.bmsem.value - 1 = 0 := by
      rw [hi.mutex.unlocked (hi.mutex.free hz)]
      rfl
    -- first the value, then the thread
    have htaken : Queued { s with bmsem := { s.bmsem with value := s.bmsem.value - 1 } } :=
      ⟨h.joinsem, h.multex, h.unborn, h.fresh, h.chosen, h.builder, h.joiner, h.waiting, h.nodup,
        fun hv => absurd hzero hv⟩
    exact htaken.move hi.ends rfl rfl rfl (fun _ _ => ⟨hnot, hzero⟩) (h.not_queued (by rw [hpc]; rfl)) rfl rfl

theorem step_queued {e : PEvent} (h : Queued s) (hi : Inv s) (he : step s e = some s') : Queued s' := by
  have hmove {t : Tid} {p q : Pc} (hpc : s.pc t = p) (hp : joining p = none) (hexec : ∀ name, p ≠ .execP name)
      (hb : building q = none) (hj : joining q = none) : Queued (s.setPc t q) := by
    obtain ⟨hexecP, hqueue⟩ := h.off hpc hp hexec
    exact h.move hi.ends rfl rfl rfl hexecP hqueue hb hj
  unfold step at he
  split at he
  · cases he
  · cases e with
    | callExec t name =>
      simp only at he
      split at he
      · rename_i hpc
        cases he
        exact hmove hpc rfl (fun _ hn => by cases hn) rfl rfl
      · rename_i hpc
        cases he
        exact hmove hpc rfl (fun _ hn => by cases hn) rfl rfl
      · cases he
    | callJoin t pid =>
      simp only at he
      split at he
      · cases he
        exact h.callJoin hi pid (by assumption)
      · cases he
    | callExit t ecd =>
      simp only at he
      split at he
      · cases he
        exact h.callExit hi ecd (by assumption)
      · cases he
    | opened t thread =>
      simp only at he
      split at he
      · split at he
        · cases he
          exact h.execOpened hi thread (by assumption) (by assumption)
        · cases he
      · cases he
    | loaded t =>
      simp only at he
      split at he
      · cases he
        exact h.execLoaded hi (by assumption)
      · cases he
    | deleted t =>
      simp only at he
      split at he
      · rename_i hpc
        cases he
        exact hmove hpc rfl nofun rfl rfl
      · cases he
    | go t =>
      simp only at he
      split at he
      · split at he
        · cases he
        · exact h.execP hi (by assumption) (by assumption) he
      · cases he
        exact h.execBody hi (by assumption)
      · split at he
        · cases he
        · cases he
          exact h.execMultex hi (by assumption)
      · cases he
        exact h.execUnlock hi (by assumption)
      · cases he
        exact h.execRelease hi (by assumption)
      · cases he
        exact h.execUndo hi (by assumption)
      · rename_i which pid hpc
        split at he
        · cases he
        · rename_i hnot
          cases he
          refine h.joinP hi hpc ?_
          intro c hc hmem
          rw [hc] at hnot
          exact hnot (by simpa using hmem)
      · cases he
        exact h.joinReturn hi (by assumption)
      · rename_i hpc
        cases he
        exact hmove hpc rfl (fun _ hn => by cases hn) rfl rfl
      · cases he

theorem boot_queued (h : Boot s) : Queued s := by
  have hpc : ∀ t, s.pc t = .boot ∨ s.pc t = .dead := by
    intro t
    rw [h.pc]
    split
    · exact .inl rfl
    · exact .inr rfl
  have hentry : ∀ i c, s.pcb i ≠ some c := by
    intro i c hc
    rw [h.pcb] at hc
    cases hc
  refine ⟨fun i c hc => absurd hc (hentry i c), fun i c hc => absurd hc (hentry i c),
    fun i c hc => absurd hc (hentry i c), fun _ _ _ _ c _ hc => absurd hc (hentry _ c), ?_,
    fun _ i c _ hc => absurd hc (hentry i c), ?_, ?_, ?_, ?_⟩
  · intro t name pid ppid ht
    rcases hpc t with hb | hb
    · rw [hb] at ht
      cases ht
    · rw [hb] at ht
      cases ht
  · intro t p ht
    rcases hpc t with hb | hb
    · rw [hb] at ht
      cases ht
    · rw [hb] at ht
      cases ht
  · rw [h.bmsem]
    exact fun u hu => absurd hu List.not_mem_nil
  · rw [h.bmsem]
    exact List.nodup_nil
  · rw [h.bmsem]
    exact fun _ => .inl rfl

theorem reachable_queued (h : system.Reachable s) : Queued s :=
  System.Reachable.invariant (I := Queued) (fun _ hb => boot_queued hb)
    (fun _ _ _ hr hq he => step_queued hq (reachable_inv hr) he) h

/-! ## Parents -/

/-- A slot with a thread keeps its thread and its parent. -/
def KeepsParents (s s' : PState) : Prop :=
  ∀ i c u, s.pcb i = some c → c.thread = some u →
    ∃ c', s'.pcb i = some c' ∧ c'.thread = some u ∧ c'.parentId = c.parentId

theorem KeepsParents.same (h : s'.pcb = s.pcb) : KeepsParents s s' := by
  intro i c u hc hu
  rw [h]
  exact ⟨c, hc, hu, rfl⟩

theorem KeepsParents.update {i : Nat} {x : Option PCB} (h : s'.pcb = Function.update s.pcb i x)
    (hx : ∀ c u, s.pcb i = some c → c.thread = some u →
      ∃ c', x = some c' ∧ c'.thread = some u ∧ c'.parentId = c.parentId) : KeepsParents s s' := by
  intro j c u hc hu
  rw [h]
  rcases eq_or_ne j i with rfl | hj
  · rw [Function.update_self]
    exact hx c u hc hu
  · rw [Function.update_of_ne hj]
    exact ⟨c, hc, hu, rfl⟩

/-- An entry changes in its semaphores, its counter or its exit code. -/
theorem KeepsParents.entry {i : Nat} {c c' : PCB} (hc : s.pcb i = some c)
    (h : s'.pcb = Function.update s.pcb i (some c')) (hthread : c'.thread = c.thread)
    (hparent : c'.parentId = c.parentId) : KeepsParents s s' := by
  refine .update h ?_
  intro d u hd hu
  rw [hc] at hd
  cases hd
  exact ⟨c', rfl, hthread.trans hu, hparent⟩

/-- A slot without a thread changes. -/
theorem KeepsParents.unborn {i : Nat} {x : Option PCB} (hi : ∀ c, s.pcb i = some c → c.thread = none)
    (h : s'.pcb = Function.update s.pcb i x) : KeepsParents s s' := by
  refine .update h ?_
  intro c u hc hu
  rw [hi c hc] at hu
  cases hu

theorem execBody_keepsParents (hi : Inv s) (t : Tid) (name : Option Name) : KeepsParents s (s.execBody t name) := by
  rcases hi.execBody_cases t name with hfail | ⟨bm, n, pid, ppid, hnew, hfree, -⟩
  · rw [hfail]
    exact .same rfl
  · rw [hnew]
    refine .unborn (i := pid) (x := some PCB.new) ?_ rfl
    intro c hc
    rw [hfree] at hc
    cases hc

theorem go_keepsParents {t : Tid} (hi : Inv s) (he : step s (.go t) = some s') : KeepsParents s s' := by
  have hunborn {pid : Nat} (hb : building (s.pc t) = some pid) (c : PCB) (hc : s.pcb pid = some c) :
      c.thread = none := by
    obtain ⟨d, hd, hnone⟩ := hi.entry_of_building hb
    rw [hc] at hd
    cases hd
    exact hnone
  unfold step at he
  split at he
  · cases he
  · simp only at he
    split at he
    · split at he
      · cases he
      · split at he
        · cases he
          exact .same rfl
        · cases he
          exact .same rfl
    · cases he
      exact execBody_keepsParents hi _ _
    · rename_i name pid ppid hpc
      split at he
      · cases he
      · cases he
        have hnone := hunborn (by rw [hpc]; rfl)
        unfold execMultex
        split
        · exact .same rfl
        · split
          · exact .unborn hnone rfl
          · split
            · exact .unborn hnone rfl
            · exact .unborn hnone rfl
    · cases he
      unfold execUnlock
      split
      · exact .same rfl
      · rename_i c hc
        exact .entry hc rfl rfl rfl
    · cases he
      exact .same rfl
    · rename_i pid hpc
      cases he
      exact .unborn (hunborn (by rw [hpc]; rfl)) rfl
    · split at he
      · cases he
      · cases he
        unfold joinP
        split
        · exact .same rfl
        · rename_i c hc
          split
          · exact .entry hc rfl rfl rfl
          · exact .entry hc rfl rfl rfl
    · cases he
      unfold joinReturn
      split
      · exact .same rfl
      · exact .same rfl
    · cases he
      exact .same rfl
    · cases he

theorem step_keepsParents {e : PEvent} (hi : Inv s) (he : step s e = some s') : KeepsParents s s' := by
  cases e with
  | go t => exact go_keepsParents hi he
  | callExec t name =>
    unfold step at he
    split at he
    · cases he
    · simp only at he
      split at he
      · cases he
        exact .same rfl
      · cases he
        exact .same rfl
      · cases he
  | callJoin t pid =>
    unfold step at he
    split at he
    · cases he
    · simp only at he
      split at he
      · cases he
        unfold callJoin
        split
        · exact .same rfl
        · split
          · exact .same rfl
          · split
            · rename_i c _ hc
              split
              · exact .same rfl
              · exact .entry hc rfl rfl rfl
            · exact .same rfl
            · exact .same rfl
      · cases he
  | callExit t ecd =>
    unfold step at he
    split at he
    · cases he
    · simp only at he
      split at he
      · cases he
        unfold callExit
        split
        · exact .same rfl
        · split
          · exact .same rfl
          · split
            · exact .same rfl
            · split
              · exact .same rfl
              · rename_i p hp
                exact .entry hp rfl rfl rfl
      · cases he
  | deleted t =>
    unfold step at he
    split at he
    · cases he
    · simp only at he
      split at he
      · cases he
        exact .same rfl
      · cases he
  | opened t thread =>
    unfold step at he
    split at he
    · cases he
    · simp only at he
      split at he
      · rename_i pid ppid hpc
        split at he
        case isFalse => cases he
        cases he
        have hnone (c : PCB) (hc : s.pcb pid = some c) : c.thread = none := by
          obtain ⟨d, hd, hthread⟩ := hi.entry_of_building (u := t) (by rw [hpc]; rfl)
          rw [hc] at hd
          cases hd
          exact hthread
        unfold execOpened
        split
        · exact .same rfl
        · split
          · exact .unborn hnone rfl
          · exact .unborn hnone rfl
      · cases he
  | loaded t =>
    unfold step at he
    split at he
    · cases he
    · simp only at he
      split at he
      · cases he
        unfold execLoaded
        split
        · exact .same rfl
        · split
          · exact .same rfl
          · split
            · exact .same rfl
            · exact .same rfl
      · cases he

/-! ## Threads that start -/

/-- A thread that has not been started is about to be. -/
def Starting (s : PState) : Prop :=
  ∀ u, s.pc u = .created → ∃ t pid ppid c, s.pc t = .execSpace pid ppid ∧ s.pcb pid = some c ∧ c.thread = some u

/-- The builder of `u` stays where it is. -/
theorem Starting.keep (h : Starting s) (hk : KeepsParents s s') {u : Tid} (hu : s.pc u = .created)
    (hpc : ∀ t pid ppid, s.pc t = .execSpace pid ppid → s'.pc t = .execSpace pid ppid) :
    ∃ t pid ppid c, s'.pc t = .execSpace pid ppid ∧ s'.pcb pid = some c ∧ c.thread = some u := by
  obtain ⟨t, pid, ppid, c, ht, hc, hcu⟩ := h u hu
  obtain ⟨c', hc', hcu', -⟩ := hk pid c u hc hcu
  exact ⟨t, pid, ppid, c', hpc t pid ppid ht, hc', hcu'⟩

/-- A thread that does not build moves, and is not made. -/
theorem Starting.move (h : Starting s) (hk : KeepsParents s s') {t : Tid} {p : Pc}
    (hpc : s'.pc = Function.update s.pc t p) (ht : ∀ pid ppid, s.pc t ≠ .execSpace pid ppid) (hp : p ≠ .created) :
    Starting s' := by
  intro u hu
  rw [hpc] at hu
  refine h.keep hk (pc_of_update hu hp) ?_
  intro v pid ppid hv
  have hvt : v ≠ t := by
    rintro rfl
    exact ht pid ppid hv
  rw [hpc, Function.update_of_ne hvt, hv]

theorem opened_starting {t w : Tid} {pid : Nat} {ppid : Int} (h : Starting s) (hi : Inv s)
    (hpc : s.pc t = .execOpen pid ppid) : Starting (s.execOpened t pid ppid (some w)) := by
  have hok := hi.pcs t
  rw [hpc] at hok
  obtain ⟨c, hc, -⟩ := pcb_of_shape hok.1
  unfold execOpened
  rw [hc]
  intro u hu
  refine ⟨t, pid, ppid, _, Function.update_self _ _ _, Function.update_self _ _ _, ?_⟩
  -- nobody else is about to be started
  by_contra hne
  have hu0 : s.pc u = .created := by
    change Function.update (Function.update s.pc w .created) t (.execSpace pid ppid) u = .created at hu
    rcases eq_or_ne u t with rfl | hut
    · rw [Function.update_self] at hu
      cases hu
    · rw [Function.update_of_ne hut, Function.update_of_ne] at hu
      · exact hu
      · rintro rfl
        exact hne rfl
  obtain ⟨b, i, pp, -, hb, -⟩ := h u hu0
  have hbt : b = t := hi.mutex.excl b t (by rw [hb]; rfl) (by rw [hpc]; rfl)
  rw [hbt, hpc] at hb
  cases hb

theorem loaded_starting {t : Tid} {pid : Nat} {ppid : Int} (h : Starting s) (hi : Inv s)
    (hpc : s.pc t = .execSpace pid ppid) : Starting (s.execLoaded t pid ppid) := by
  have hok := hi.pcs t
  rw [hpc] at hok
  obtain ⟨child, hshape, -⟩ := hok
  obtain ⟨c, hc, hshape'⟩ := pcb_of_shape hshape
  have hthread : c.thread = some child := congrArg Shape.thread hshape'
  obtain ⟨p, q, hs', hp, hq⟩ : ∃ p q : Pc, (s.execLoaded t pid ppid).pc = Function.update (Function.update s.pc t p) child q ∧
      p ≠ .created ∧ q ≠ .created := by
    unfold execLoaded
    simp only [hc, hthread]
    split
    · exact ⟨_, _, rfl, nofun, nofun⟩
    · rcases eq_or_ne t child with rfl | hne
      · exact ⟨.user, .execUnlock pid, rfl, nofun, nofun⟩
      · exact ⟨.execUnlock pid, .user, Function.update_comm hne.symm _ _ _, nofun, nofun⟩
  intro u hu
  rw [hs'] at hu
  have hchild : u ≠ child := by
    rintro rfl
    rw [Function.update_self] at hu
    exact hq hu
  obtain ⟨b, i, pp, d, hb, hd, hdu⟩ := h u (pc_of_update (pc_of_update hu hq) hp)
  have hbt : b = t := hi.mutex.excl b t (by rw [hb]; rfl) (by rw [hpc]; rfl)
  rw [hbt, hpc] at hb
  cases hb
  rw [hc] at hd
  cases hd
  rw [hthread] at hdu
  exact absurd (Option.some.inj hdu).symm hchild

theorem step_starting {e : PEvent} (h : Starting s) (hi : Inv s) (he : step s e = some s') : Starting s' := by
  have hk := step_keepsParents hi he
  rcases step_cases hi he with hq | hl
  · intro u hu
    refine h.keep hk (hq.pc_eq hu rfl nofun) ?_
    intro t pid ppid ht
    rcases hq.pcs t with heq | ⟨hn, -⟩
    · rw [heq, ht]
    · rw [ht] at hn
      cases hn
  · cases hl with
    | opened hpc hu => exact opened_starting h hi hpc
    | loaded hpc => exact loaded_starting h hi hpc
    | joins hpc hslot hc htarget hparent => exact h.move hk rfl (by simp [hpc]) nofun
    | passes hpc hc hv => exact h.move hk rfl (by simp [hpc]) nofun
    | returns hpc hc => exact h.move hk (p := .user) rfl (by simp [hpc]) nofun
    | exits ecd hpc hchild hslot hc hparent hp => exact h.move hk (p := .exiting) rfl (by simp [hpc]) nofun
    | finishes hpc => exact h.move hk rfl (by simp [hpc]) nofun
    | deleted hpc => exact h.move hk rfl (by simp [hpc]) nofun

theorem reachable_starting (h : system.Reachable s) : Starting s := by
  refine System.Reachable.invariant (I := Starting) ?_ (fun _ _ _ hr hs he => step_starting hs (reachable_inv hr) he) h
  intro s hb u hu
  rw [hb.pc] at hu
  split at hu
  · cases hu
  · cases hu

end PState

end Nachos
