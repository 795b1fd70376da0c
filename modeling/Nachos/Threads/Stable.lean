import Nachos.Threads.Synch
import Nachos.Userprog.BitMap
import Nachos.Userprog.UserMemory

/-!
# The semaphore table

`Stable` of `threads/stable.cc`, `Sem` of `threads/sem.cc`, and the system calls `CreateSem`,
`Wait` and `Signal` of `userprog/exception.cc`, made by any number of processes.  A process that
finds the semaphore at 0 stays inside `Wait` (`waiting`) and tests again whenever it is resumed.

`Stable.find` is the abstract table: a map from names to semaphores.

* `create_spec`, `setSem_find` — the operations on the abstract table.
* `semaphore_table` — every reachable state, and every call there.
-/

set_option autoImplicit false

namespace Nachos

open CString Transition

def MAX_SEMAPHORE : Nat := 10

/-- `class Sem`. -/
structure Sem where
  semName : Nat → Byte
  sem : Semaphore

/-- `Sem::Sem`; the 50 bytes of `sem_name` are all written. -/
def Sem.new (name : Nat → Byte) (id : Word) : Sem := ⟨strncpy (fun _ => 0) name 50, ⟨id, []⟩⟩

/-- `class Stable`. -/
structure Stable where
  bm : BitMap
  semtab : Nat → Option Sem

namespace Stable

/-- `Stable::Stable`, over storage that holds anything. -/
def init (junk : Word) : Stable where
  bm := BitMap.init MAX_SEMAPHORE [junk] rfl
  semtab := fun _ => none

/-- `semtab[i] && strncmp(semtab[i]->GetName(), name, 49) == 0`. -/
def hasName (s : Stable) (name : Nat → Byte) (i : Nat) : Bool :=
  match s.semtab i with
  | some x => strncmp x.semName name 0 49
  | none => false

/-- The loop over `semtab` in `Create`, `Wait` and `Signal`. -/
def slotOf (s : Stable) (name : Nat → Byte) : Option Nat :=
  (List.range MAX_SEMAPHORE).find? (s.hasName name)

/-- `Stable::Create`. -/
def create (s : Stable) (name : Nat → Byte) (init : Word) : Stable × Int :=
  if init.toInt < 0 then
    (s, -1)
  else if (s.slotOf name).isSome then
    (s, -1)
  else
    match s.bm.find with
    | (none, bm) => ({ s with bm := bm }, -1)
    | (some slot, bm) => ({ bm := bm, semtab := Function.update s.semtab slot (some (Sem.new name init)) }, 0)

/-- `semtab[i]` with another state of its semaphore. -/
def setSem (s : Stable) (i : Nat) (x : Sem) (sem : Semaphore) : Stable :=
  { s with semtab := Function.update s.semtab i (some { x with sem := sem }) }

end Stable

/-- The table and the processes: the slot whose `Wait` a process is inside, and what its last
system call has returned (`none` while it is inside one). -/
structure SemState where
  stab : Stable
  waiting : Tid → Option Nat
  result : Tid → Option Int

namespace SemState

/-- `machine->WriteRegister(2, rslt)`, at the end of a system call. -/
def returns (s : SemState) (t : Tid) (r : Int) : SemState :=
  { s with waiting := Function.update s.waiting t none, result := Function.update s.result t (some r) }

/-- `User2System(name, 49)`, for a process that can read `read`. -/
def namebuf (read : Word → Option Byte) (name : Word) : Option (Nat → Byte) :=
  (user2System (fun (_ : Unit) a => (read a).map (fun b => (b, ()))) () name 49).map (·.1)

/-- One turn of the loop of `semtab[i]->Wait()`. -/
def turn (s : SemState) (t : Tid) (i : Nat) : Option SemState := do
  let x ← s.stab.semtab i
  match x.sem.p t with
  | (sem, true) => some (returns { s with stab := s.stab.setSem i x sem } t 0)
  | (sem, false) => some { stab := s.stab.setSem i x sem
                           waiting := Function.update s.waiting t (some i)
                           result := Function.update s.result t none }

/-- The system call `CreateSem`. -/
def createSem (s : SemState) (t : Tid) (read : Word → Option Byte) (name sval : Word) : Option SemState :=
  if name = 0 ∨ sval.toInt < 0 then
    some (s.returns t (-1))
  else do
    let namebuf ← namebuf read name
    let (stab, rslt) := s.stab.create namebuf sval
    some (returns { s with stab := stab } t rslt)

/-- The system call `Wait`. -/
def wait (s : SemState) (t : Tid) (read : Word → Option Byte) (name : Word) : Option SemState :=
  if name = 0 then
    some (s.returns t (-1))
  else do
    let namebuf ← namebuf read name
    match s.stab.slotOf namebuf with
    | none => some (s.returns t (-1))
    | some i => s.turn t i

/-- The system call `Signal`. -/
def signal (s : SemState) (t : Tid) (read : Word → Option Byte) (name : Word) : Option SemState :=
  if name = 0 then
    some (s.returns t (-1))
  else do
    let namebuf ← namebuf read name
    match s.stab.slotOf namebuf with
    | none => some (s.returns t (-1))
    | some i =>
      let x ← s.stab.semtab i
      some (returns { s with stab := s.stab.setSem i x x.sem.v.1 } t 0)

/-- A process that is inside `Wait` and not on the queue tests again. -/
def resume (s : SemState) (t : Tid) : Option SemState := do
  let i ← s.waiting t
  let x ← s.stab.semtab i
  if t ∈ x.sem.queue then none else s.turn t i

inductive SemCall where
  | createSem (t : Tid) (read : Word → Option Byte) (name sval : Word)
  | wait (t : Tid) (read : Word → Option Byte) (name : Word)
  | signal (t : Tid) (read : Word → Option Byte) (name : Word)
  | resume (t : Tid)

/-- The process that makes the call. -/
def SemCall.caller : SemCall → Tid
  | .createSem t _ _ _ => t
  | .wait t _ _ => t
  | .signal t _ _ => t
  | .resume t => t

/-- A process that is inside `Wait` makes no other call. -/
def step (s : SemState) : SemCall → Option SemState
  | .createSem t read name sval => if s.waiting t = none then s.createSem t read name sval else none
  | .wait t read name => if s.waiting t = none then s.wait t read name else none
  | .signal t read name => if s.waiting t = none then s.signal t read name else none
  | .resume t => s.resume t

def system : System SemState SemCall where
  init := fun s => ∃ junk, s = ⟨Stable.init junk, fun _ => none, fun _ => none⟩
  step := step

end SemState

/-! ## The abstract table -/

namespace Stable

variable {s : Stable}

/-- The name of entry `i`. -/
def nameAt (s : Stable) (i : Nat) : Option (List Byte) := (s.semtab i).map (fun x => str x.semName 0 49)

/-- The entry with a given name. -/
def slot (s : Stable) (l : List Byte) : Option Nat :=
  (List.range MAX_SEMAPHORE).find? (fun i => decide (s.nameAt i = some l))

/-- The map from names to semaphores. -/
def find (s : Stable) (l : List Byte) : Option Semaphore := (s.slot l).bind (fun i => (s.semtab i).map (·.sem))

/-- The number of semaphores. -/
def count (s : Stable) : Nat := (List.range MAX_SEMAPHORE).countP (fun i => (s.semtab i).isSome)

/-- Marked slots are used slots, and names are unique. -/
structure Good (s : Stable) : Prop where
  numBits : s.bm.numBits = MAX_SEMAPHORE
  bits : ∀ i < MAX_SEMAPHORE, s.bm.bit i = (s.semtab i).isSome
  names : ∀ i < MAX_SEMAPHORE, ∀ j < MAX_SEMAPHORE, ∀ l, s.nameAt i = some l → s.nameAt j = some l → i = j

/-- A name as the calls pass it: no zero, and at most 49 bytes. -/
def IsName (l : List Byte) : Prop := (∀ x ∈ l, x ≠ 0) ∧ l.length ≤ 49

theorem str_name {l : List Byte} (h : IsName l) : str (padded l) 0 49 = l := by
  rw [str_padded h.1, List.drop_zero, List.take_of_length_le h.2]

/-- `strncmp` with the kernel's copy of the name decides equality of names. -/
theorem slotOf_padded {l : List Byte} (h : IsName l) : s.slotOf (padded l) = s.slot l := by
  unfold slotOf slot
  congr 1
  funext i
  unfold hasName nameAt
  cases s.semtab i with
  | none => simp
  | some x =>
    simp only [Option.map_some, Option.some.injEq]
    rw [Bool.eq_iff_iff, strncmp_iff_str, str_name h, decide_eq_true_eq]

theorem slot_some {l : List Byte} {i : Nat} (h : s.slot l = some i) :
    i < MAX_SEMAPHORE ∧ ∃ x, s.semtab i = some x ∧ str x.semName 0 49 = l := by
  have hmem := List.mem_of_find?_eq_some h
  have hname : s.nameAt i = some l := by simpa using List.find?_some h
  exact ⟨List.mem_range.1 hmem, Option.map_eq_some_iff.1 hname⟩

theorem Good.slot_eq (h : Good s) {l : List Byte} {i : Nat} (hi : i < MAX_SEMAPHORE) (hl : s.nameAt i = some l) :
    s.slot l = some i := by
  cases hs : s.slot l with
  | none =>
    have := List.find?_eq_none.1 hs i (List.mem_range.2 hi)
    rw [hl] at this
    simp at this
  | some j =>
    obtain ⟨hj, x, hx, hname⟩ := slot_some hs
    rw [h.names i hi j hj l hl (by rw [nameAt, hx, Option.map_some, hname])]

theorem find_eq_none {l : List Byte} : s.find l = none ↔ s.slot l = none := by
  unfold find
  cases hs : s.slot l with
  | none => simp
  | some i =>
    obtain ⟨-, x, hx, -⟩ := slot_some hs
    simp [hx]

theorem find_of_slot {l : List Byte} {i : Nat} {x : Sem} (hs : s.slot l = some i) (hx : s.semtab i = some x) :
    s.find l = some x.sem := by
  rw [find, hs, Option.bind_some, hx, Option.map_some]

theorem setSem_nameAt {i : Nat} {x : Sem} (hx : s.semtab i = some x) (sem : Semaphore) (j : Nat) :
    (s.setSem i x sem).nameAt j = s.nameAt j := by
  rcases eq_or_ne j i with rfl | hne
  · simp [setSem, nameAt, hx]
  · simp [setSem, nameAt, hne]

theorem setSem_slot {i : Nat} {x : Sem} (hx : s.semtab i = some x) (sem : Semaphore) :
    (s.setSem i x sem).slot = s.slot := by
  funext l
  unfold slot
  simp only [setSem_nameAt hx]

/-- **A semaphore of the table** changes, and no other. -/
theorem setSem_find (h : Good s) {l : List Byte} {i : Nat} {x : Sem} (hs : s.slot l = some i)
    (hx : s.semtab i = some x) (sem : Semaphore) :
    (s.setSem i x sem).find = Function.update s.find l (some sem) ∧ Good (s.setSem i x sem) := by
  refine ⟨?_, h.numBits, ?_, ?_⟩
  · funext l'
    unfold find
    rw [setSem_slot hx]
    rcases eq_or_ne l' l with rfl | hne
    · rw [Function.update_self, hs]
      simp [setSem]
    · rw [Function.update_of_ne hne]
      cases hs' : s.slot l' with
      | none => rfl
      | some j =>
        have hji : j ≠ i := by
          rintro rfl
          obtain ⟨-, y, hy, hyl⟩ := slot_some hs
          obtain ⟨-, z, hz, hzl⟩ := slot_some hs'
          rw [hy] at hz
          cases hz
          exact hne (hzl.symm.trans hyl)
        simp [setSem, hji]
  · intro j hj
    rw [show (s.setSem i x sem).bm = s.bm from rfl, h.bits j hj]
    rcases eq_or_ne j i with rfl | hne
    · simp [setSem, hx]
    · simp [setSem, hne]
  · simp only [setSem_nameAt hx]
    exact h.names

theorem Good.count_lt (h : Good s) : s.count < MAX_SEMAPHORE ↔ ∃ i < MAX_SEMAPHORE, s.bm.bit i = false := by
  have hlen : (List.range MAX_SEMAPHORE).length = MAX_SEMAPHORE := List.length_range
  rw [count]
  constructor
  · intro hlt
    by_contra hnone
    push Not at hnone
    have hall : (List.range MAX_SEMAPHORE).countP (fun i => (s.semtab i).isSome) =
        (List.range MAX_SEMAPHORE).length := by
      rw [List.countP_eq_length]
      intro i hi
      have hi' := List.mem_range.1 hi
      rw [← h.bits i hi']
      simpa using hnone i hi'
    omega
  · rintro ⟨i, hi, hbit⟩
    have hle := List.countP_le_length (p := fun i => (s.semtab i).isSome) (l := List.range MAX_SEMAPHORE)
    rw [hlen] at hle
    apply lt_of_le_of_ne hle
    intro heq
    have hall := List.countP_eq_length.1 (heq.trans hlen.symm) i (List.mem_range.2 hi)
    rw [← h.bits i hi, hbit] at hall
    cases hall

/-- A semaphore is added in a free slot. -/
theorem add_find (h : Good s) {i : Nat} (hi : i < MAX_SEMAPHORE) (hfree : s.semtab i = none) {x : Sem}
    {l : List Byte} (hx : str x.semName 0 49 = l) (hnone : s.slot l = none) :
    Good { bm := s.bm.setBit i, semtab := Function.update s.semtab i (some x) } ∧
    find { bm := s.bm.setBit i, semtab := Function.update s.semtab i (some x) } =
      Function.update s.find l (some x.sem) := by
  have hself : nameAt { bm := s.bm.setBit i, semtab := Function.update s.semtab i (some x) } i = some l := by
    simp [nameAt, hx]
  have hother : ∀ j, j ≠ i →
      nameAt { bm := s.bm.setBit i, semtab := Function.update s.semtab i (some x) } j = s.nameAt j := by
    intro j hj
    simp [nameAt, hj]
  have habsent : ∀ j < MAX_SEMAPHORE, s.nameAt j ≠ some l := by
    intro j hj
    simpa using List.find?_eq_none.1 hnone j (List.mem_range.2 hj)
  have hgood : Good { bm := s.bm.setBit i, semtab := Function.update s.semtab i (some x) } := by
    refine ⟨h.numBits, ?_, ?_⟩
    · intro j hj
      rw [BitMap.bit_setBit (by rw [h.numBits]; exact hi)]
      rcases eq_or_ne j i with rfl | hne
      · simp
      · rw [if_neg hne, h.bits j hj]
        simp [hne]
    · intro j hj k hk l' hjl hkl
      rcases eq_or_ne j i with rfl | hji
      · rcases eq_or_ne k j with rfl | hki
        · rfl
        · rw [hself, Option.some.injEq] at hjl
          rw [hother k hki, ← hjl] at hkl
          exact absurd hkl (habsent k hk)
      · rcases eq_or_ne k i with rfl | hki
        · rw [hself, Option.some.injEq] at hkl
          rw [hother j hji, ← hkl] at hjl
          exact absurd hjl (habsent j hj)
        · rw [hother j hji] at hjl
          rw [hother k hki] at hkl
          exact h.names j hj k hk l' hjl hkl
  refine ⟨hgood, ?_⟩
  funext l'
  rcases eq_or_ne l' l with rfl | hne
  · rw [Function.update_self, find_of_slot (hgood.slot_eq hi hself) (Function.update_self _ _ _)]
  · have hslot : slot { bm := s.bm.setBit i, semtab := Function.update s.semtab i (some x) } l' = s.slot l' := by
      unfold slot
      congr 1
      funext j
      rcases eq_or_ne j i with rfl | hji
      · rw [hself]
        simp [nameAt, hfree, Ne.symm hne]
      · rw [hother j hji]
    rw [Function.update_of_ne hne, find, hslot, find]
    cases hs : s.slot l' with
    | none => rfl
    | some j =>
      have hji : j ≠ i := by
        rintro rfl
        obtain ⟨-, y, hy, -⟩ := slot_some hs
        rw [hfree] at hy
        cases hy
      simp [hji]

/-- **`Create`** adds the name with its value, or the table stays as it is. -/
theorem create_spec (h : Good s) {l : List Byte} (hl : IsName l) (init : Word) :
    ∃ s' r, s.create (padded l) init = (s', r) ∧ Good s' ∧ (∀ i x, s.semtab i = some x → s'.semtab i = some x) ∧
      ((r = 0 ∧ (0 ≤ init.toInt ∧ s.find l = none ∧ s.count < MAX_SEMAPHORE) ∧
          s'.find = Function.update s.find l (some ⟨init, []⟩)) ∨
        (r = -1 ∧ ¬ (0 ≤ init.toInt ∧ s.find l = none ∧ s.count < MAX_SEMAPHORE) ∧ s' = s)) := by
  unfold create
  by_cases hneg : init.toInt < 0
  · rw [if_pos hneg]
    exact ⟨s, -1, rfl, h, fun _ _ hx => hx, .inr ⟨rfl, fun hall => by omega, rfl⟩⟩
  · rw [if_neg hneg, slotOf_padded hl]
    cases hs : s.slot l with
    | some i =>
      simp only [Option.isSome_some, if_true]
      refine ⟨s, -1, rfl, h, fun _ _ hx => hx, .inr ⟨rfl, ?_, rfl⟩⟩
      rintro ⟨-, hnone, -⟩
      rw [find_eq_none.1 hnone] at hs
      cases hs
    | none =>
      simp only [Option.isSome_none, Bool.false_eq_true, if_false]
      rcases s.bm.find_spec with ⟨i, hfind, hi, hbit, -⟩ | ⟨hfind, hall⟩
      · rw [hfind]
        rw [h.numBits] at hi
        have hfree : s.semtab i = none := by
          have := h.bits i hi
          rw [hbit] at this
          simpa using this.symm
        have hstr : str (Sem.new (padded l) init).semName 0 49 = l := by
          rw [Sem.new, str_strncpy _ _ (by decide), str_name hl]
        obtain ⟨hgood, hadd⟩ := add_find h hi hfree hstr hs
        refine ⟨_, 0, rfl, hgood, ?_,
          .inl ⟨rfl, ⟨by omega, find_eq_none.2 hs, h.count_lt.2 ⟨i, hi, hbit⟩⟩, hadd⟩⟩
        intro j x hx
        have hji : j ≠ i := by
          rintro rfl
          rw [hfree] at hx
          cases hx
        simpa [hji] using hx
      · rw [hfind]
        refine ⟨_, -1, rfl, h, fun _ _ hx => hx, .inr ⟨rfl, ?_, rfl⟩⟩
        rintro ⟨-, -, hlt⟩
        obtain ⟨i, hi, hbit⟩ := h.count_lt.1 hlt
        rw [hall i (by rw [h.numBits]; exact hi)] at hbit
        cases hbit

end Stable

/-! ## The system calls -/

namespace SemState

open Stable

variable {s s' : SemState} {t : Tid} {read : Word → Option Byte} {name : Word} {l : List Byte}

/-- The string at `name` that the process can read, up to 49 bytes. -/
def HasString (read : Word → Option Byte) (name : Word) (l : List Byte) : Prop :=
  ∃ m, (∀ i < 49, (∀ j < i, m j ≠ 0) → read (name + BitVec.ofNat 32 i) = some (m i)) ∧ str m 0 49 = l

theorem HasString.isName (h : HasString read name l) : IsName l := by
  obtain ⟨m, -, rfl⟩ := h
  exact ⟨fun x hx => ne_zero_of_mem_str hx, length_str_le m 0 49⟩

theorem HasString.namebuf_eq (h : HasString read name l) : namebuf read name = some (padded l) := by
  obtain ⟨m, hread, rfl⟩ := h
  have hmem : ∀ (k : Unit) i, True → i < 49 → (∀ j < i, m j ≠ 0) →
      ∃ k', (read (name + BitVec.ofNat 32 i)).map (fun b => (b, ())) = some (m i, k') ∧ True :=
    fun k i _ hi hnz => ⟨(), by rw [hread i hi hnz]; rfl, trivial⟩
  have hspec : ∃ k', user2System (fun (_ : Unit) a => (read a).map (fun b => (b, ()))) () name 49 =
      some (padded (str m 0 49), k') ∧ True := user2System_spec (I := fun _ => True) hmem trivial
  obtain ⟨u, hu, -⟩ := hspec
  rw [namebuf, hu, Option.map_some]

/-- Whatever is read is a name. -/
theorem user2SystemFrom_isName : ∀ (n : Nat) (l : List Byte) (buf : Nat → Byte) (u : Unit),
    user2SystemFrom (fun (_ : Unit) a => (read a).map (fun b => (b, ()))) name () (padded l) l.length n =
      some (buf, u) →
    ∃ l', buf = padded (l ++ l') ∧ (∀ x ∈ l', x ≠ 0) ∧ l'.length ≤ n := by
  intro n
  induction n with
  | zero =>
    intro l buf u h
    cases h
    exact ⟨[], by simp, by simp, by simp⟩
  | succ n ih =>
    intro l buf u h
    rw [user2SystemFrom] at h
    obtain ⟨⟨c, v⟩, -, h⟩ := Option.bind_eq_some_iff.1 h
    simp only [update_padded] at h
    split at h
    · rename_i hc
      cases h
      exact ⟨[], by rw [hc, padded_append_zero, List.append_nil], by simp, by simp⟩
    · rename_i hc
      have hlen : (l ++ [c]).length = l.length + 1 := by simp
      rw [← hlen] at h
      obtain ⟨l', hbuf, hnz, hle⟩ := ih (l ++ [c]) buf u h
      refine ⟨c :: l', by rw [hbuf, List.append_assoc]; rfl, ?_, by simpa using hle⟩
      intro x hx
      rcases List.mem_cons.1 hx with rfl | hx
      · exact hc
      · exact hnz x hx

theorem isName_of_namebuf {buf : Nat → Byte} (h : namebuf read name = some buf) :
    ∃ l, IsName l ∧ buf = padded l := by
  obtain ⟨⟨b, u⟩, hb, rfl⟩ := Option.map_eq_some_iff.1 h
  obtain ⟨l, hbuf, hnz, hle⟩ := user2SystemFrom_isName 49 [] b u hb
  exact ⟨l, ⟨hnz, hle⟩, hbuf⟩

/-- The table is good, and whoever waits does so on a semaphore. -/
structure Inv (s : SemState) : Prop where
  good : s.stab.Good
  waiting : ∀ t i, s.waiting t = some i → i < MAX_SEMAPHORE ∧ ∃ x, s.stab.semtab i = some x

/-- One turn of `P` on the semaphore named `l`. -/
theorem turn_spec (h : s.stab.Good) {i : Nat} {x : Sem} (hs : s.stab.slot l = some i)
    (hx : s.stab.semtab i = some x) :
    ∃ s', s.turn t i = some s' ∧ s'.stab = s.stab.setSem i x (x.sem.p t).1 ∧
      s'.stab.find = Function.update s.stab.find l (some (x.sem.p t).1) ∧
      (x.sem.value ≠ 0 → s'.result t = some 0 ∧ s'.waiting t = none) ∧
      (x.sem.value = 0 → s'.result t = none ∧ s'.waiting t = some i) ∧
      ∀ u, u ≠ t → s'.waiting u = s.waiting u := by
  have hfind := fun sem => (setSem_find h hs hx sem).1
  by_cases hz : x.sem.value = 0
  · refine ⟨_, by rw [turn, hx, Option.bind_eq_bind, Option.bind_some, Semaphore.p_zero hz], ?_, ?_, ?_, ?_, ?_⟩
    · rw [Semaphore.p_zero hz]
    · rw [Semaphore.p_zero hz]
      exact hfind _
    · exact fun hne => absurd hz hne
    · exact fun _ => ⟨by simp, by simp⟩
    · exact fun u hu => by simp [hu]
  · refine ⟨_, by rw [turn, hx, Option.bind_eq_bind, Option.bind_some, Semaphore.p_pos hz], ?_, ?_, ?_, ?_, ?_⟩
    · rw [Semaphore.p_pos hz]
      rfl
    · rw [Semaphore.p_pos hz]
      exact hfind _
    · exact fun _ => ⟨by simp [returns], by simp [returns]⟩
    · exact fun h0 => absurd h0 hz
    · exact fun u hu => by simp [returns, hu]

theorem setSem_inv (h : Inv s) {i : Nat} {x : Sem} (hs : s.stab.slot l = some i) (hx : s.stab.semtab i = some x)
    {sem : Semaphore} {t : Tid} (hstab : s'.stab = s.stab.setSem i x sem)
    (hself : ∀ j, s'.waiting t = some j → j = i) (hother : ∀ u, u ≠ t → s'.waiting u = s.waiting u) : Inv s' := by
  refine ⟨by rw [hstab]; exact (setSem_find h.good hs hx sem).2, ?_⟩
  have hused : ∀ j, (∃ y, s.stab.semtab j = some y) → ∃ y, s'.stab.semtab j = some y := by
    rintro j ⟨y, hy⟩
    rw [hstab]
    rcases eq_or_ne j i with rfl | hne
    · simp [setSem]
    · exact ⟨y, by simpa [setSem, hne] using hy⟩
  intro u j hu
  rcases eq_or_ne u t with rfl | hne
  · rw [hself j hu]
    exact ⟨(slot_some hs).1, hused i ⟨x, hx⟩⟩
  · rw [hother u hne] at hu
    obtain ⟨hj, hy⟩ := h.waiting u j hu
    exact ⟨hj, hused j hy⟩

theorem returns_inv (h : Inv s) (r : Int) : Inv (s.returns t r) := by
  refine ⟨h.good, ?_⟩
  intro u j hu
  rcases eq_or_ne u t with rfl | hne
  · simp [returns] at hu
  · exact h.waiting u j (by simpa [returns, hne] using hu)

theorem turn_inv (h : Inv s) {i : Nat} {x : Sem} (hs : s.stab.slot l = some i) (hx : s.stab.semtab i = some x)
    (he : s.turn t i = some s') : Inv s' := by
  obtain ⟨u, hu, hstab, -, hpos, hzero, hother⟩ := turn_spec (t := t) h.good hs hx
  rw [he, Option.some.injEq] at hu
  subst hu
  refine setSem_inv h hs hx hstab ?_ hother
  intro j hj
  by_cases hz : x.sem.value = 0
  · rw [(hzero hz).2] at hj
    exact (Option.some.inj hj).symm
  · rw [(hpos hz).2] at hj
    cases hj

/-- What a step can do: fail, create, test a semaphore or signal one. -/
theorem step_cases {e : SemCall} (h : Inv s) (he : step s e = some s') :
    s' = s.returns e.caller (-1) ∨
    (∃ l sval st r, IsName l ∧ s.stab.create (padded l) sval = (st, r) ∧
      s' = returns { s with stab := st } e.caller r) ∨
    (∃ l i x, s.stab.slot l = some i ∧ s.stab.semtab i = some x ∧ s.turn e.caller i = some s') ∨
    (∃ l i x, s.stab.slot l = some i ∧ s.stab.semtab i = some x ∧
      s' = returns { s with stab := s.stab.setSem i x x.sem.v.1 } e.caller 0) := by
  cases e with
  | createSem t read name sval =>
    simp only [step] at he
    split at he
    · unfold createSem at he
      split at he
      · cases he
        exact .inl rfl
      · obtain ⟨buf, hbuf, he⟩ := Option.bind_eq_some_iff.1 he
        obtain ⟨l, hl, rfl⟩ := isName_of_namebuf hbuf
        cases he
        exact .inr (.inl ⟨l, sval, _, _, hl, rfl, rfl⟩)
    · cases he
  | wait t read name =>
    simp only [step] at he
    split at he
    · unfold wait at he
      split at he
      · cases he
        exact .inl rfl
      · obtain ⟨buf, hbuf, he⟩ := Option.bind_eq_some_iff.1 he
        obtain ⟨l, hl, rfl⟩ := isName_of_namebuf hbuf
        rw [slotOf_padded hl] at he
        cases hs : s.stab.slot l with
        | none =>
          rw [hs] at he
          cases he
          exact .inl rfl
        | some i =>
          rw [hs] at he
          obtain ⟨-, x, hx, -⟩ := slot_some hs
          exact .inr (.inr (.inl ⟨l, i, x, hs, hx, he⟩))
    · cases he
  | signal t read name =>
    simp only [step] at he
    split at he
    · unfold signal at he
      split at he
      · cases he
        exact .inl rfl
      · obtain ⟨buf, hbuf, he⟩ := Option.bind_eq_some_iff.1 he
        obtain ⟨l, hl, rfl⟩ := isName_of_namebuf hbuf
        rw [slotOf_padded hl] at he
        cases hs : s.stab.slot l with
        | none =>
          rw [hs] at he
          cases he
          exact .inl rfl
        | some i =>
          obtain ⟨-, x, hx, -⟩ := slot_some hs
          rw [hs] at he
          simp only [hx, Option.bind_eq_bind, Option.bind_some, Option.some.injEq] at he
          exact .inr (.inr (.inr ⟨l, i, x, hs, hx, he.symm⟩))
    · cases he
  | resume t =>
    simp only [step, resume] at he
    obtain ⟨i, hi, he⟩ := Option.bind_eq_some_iff.1 he
    obtain ⟨x, hx, he⟩ := Option.bind_eq_some_iff.1 he
    split at he
    · cases he
    · have hs := h.good.slot_eq (h.waiting t i hi).1 (by rw [nameAt, hx]; rfl)
      exact .inr (.inr (.inl ⟨_, i, x, hs, hx, he⟩))

theorem step_inv {e : SemCall} (h : Inv s) (he : step s e = some s') : Inv s' := by
  rcases step_cases h he with rfl | ⟨l, sval, st, r, hl, hcreate, rfl⟩ | ⟨l, i, x, hs, hx, hturn⟩ |
    ⟨l, i, x, hs, hx, rfl⟩
  · exact returns_inv h _
  · obtain ⟨st', r', hspec, hgood, hkeep, -⟩ := create_spec h.good hl sval
    rw [hcreate] at hspec
    cases hspec
    refine returns_inv ⟨hgood, ?_⟩ r
    intro u j hu
    obtain ⟨hj, x, hx⟩ := h.waiting u j hu
    exact ⟨hj, x, hkeep j x hx⟩
  · exact turn_inv h hs hx hturn
  · refine setSem_inv h hs hx (t := e.caller) rfl ?_ ?_
    · simp [returns]
    · exact fun u hu => by simp [returns, hu]

theorem reachable_inv (h : system.Reachable s) : Inv s := by
  refine h.invariant ?_ (fun _ _ _ _ => step_inv)
  rintro _ ⟨junk, rfl⟩
  refine ⟨⟨BitMap.numBits_init _ _ _, ?_, ?_⟩, ?_⟩
  · intro i hi
    exact BitMap.bit_init _ _ _ hi
  · rintro i - j - l hl -
    cases hl
  · rintro t i hi
    cases hi

/-- `-1` is returned only by calls that change nothing. -/
theorem failed_stab {e : SemCall} (h : Inv s) (he : step s e = some s') (hr : s'.result e.caller = some (-1)) :
    s'.stab = s.stab := by
  rcases step_cases h he with rfl | ⟨l, sval, st, r, hl, hcreate, rfl⟩ | ⟨l, i, x, hs, hx, hturn⟩ |
    ⟨l, i, x, hs, hx, rfl⟩
  · rfl
  · obtain ⟨st', r', hspec, -, -, hcase⟩ := create_spec h.good hl sval
    rw [hcreate] at hspec
    cases hspec
    rcases hcase with ⟨rfl, -, -⟩ | ⟨-, -, hst⟩
    · simp [returns] at hr
    · exact hst
  · obtain ⟨u, hu, -, -, hpos, hzero, -⟩ := turn_spec (t := e.caller) h.good hs hx
    rw [hturn, Option.some.injEq] at hu
    subst hu
    by_cases hz : x.sem.value = 0
    · rw [(hzero hz).1] at hr
      cases hr
    · rw [(hpos hz).1] at hr
      cases hr
  · simp [returns] at hr

/-- `CreateSem` of a name the process can read. -/
theorem createSem_spec (h : Inv s) (hw : s.waiting t = none) (hn : name ≠ 0) (hstr : HasString read name l)
    (sval : Word) :
    ∃ s', step s (.createSem t read name sval) = some s' ∧
      ((s'.result t = some 0 ∧ (0 ≤ sval.toInt ∧ s.stab.find l = none ∧ s.stab.count < MAX_SEMAPHORE) ∧
          s'.stab.find = Function.update s.stab.find l (some ⟨sval, []⟩)) ∨
        (s'.result t = some (-1) ∧
          ¬ (0 ≤ sval.toInt ∧ s.stab.find l = none ∧ s.stab.count < MAX_SEMAPHORE) ∧ s'.stab = s.stab)) := by
  rw [step, if_pos hw, createSem]
  by_cases hneg : sval.toInt < 0
  · rw [if_pos (.inr hneg)]
    exact ⟨_, rfl, .inr ⟨by simp [returns], fun hall => by omega, rfl⟩⟩
  · rw [if_neg (by tauto), hstr.namebuf_eq, Option.bind_eq_bind, Option.bind_some]
    obtain ⟨st, r, hcreate, -, -, hcase⟩ := create_spec h.good hstr.isName sval
    rw [hcreate]
    refine ⟨_, rfl, ?_⟩
    rcases hcase with ⟨rfl, hcond, hfind⟩ | ⟨rfl, hcond, hst⟩
    · exact .inl ⟨by simp [returns], hcond, hfind⟩
    · exact .inr ⟨by simp [returns], hcond, hst⟩

/-- What `P` of the semaphore named `l` does to the table and to its caller. -/
def TestsSem (s : SemState) (t : Tid) (l : List Byte) (sem : Semaphore) (s' : SemState) : Prop :=
  s'.stab.find = Function.update s.stab.find l (some (sem.p t).1) ∧
  (sem.value ≠ 0 → s'.result t = some 0 ∧ s'.waiting t = none) ∧
  (sem.value = 0 → s'.result t = none ∧ s'.waiting t = s.stab.slot l)

theorem wait_eq (hw : s.waiting t = none) (hn : name ≠ 0) (hstr : HasString read name l) :
    step s (.wait t read name) =
      match s.stab.slot l with
      | none => some (s.returns t (-1))
      | some i => s.turn t i := by
  simp only [step, if_pos hw, wait, if_neg hn, hstr.namebuf_eq, Option.bind_eq_bind, Option.bind_some,
    slotOf_padded hstr.isName]

/-- `Wait` of a name the process can read. -/
theorem wait_spec (h : Inv s) (hw : s.waiting t = none) (hn : name ≠ 0) (hstr : HasString read name l) :
    ∃ s', step s (.wait t read name) = some s' ∧
      ((s.stab.find l = none ∧ s'.result t = some (-1) ∧ s'.stab = s.stab) ∨
        (∃ sem, s.stab.find l = some sem ∧ TestsSem s t l sem s')) := by
  rw [wait_eq hw hn hstr]
  cases hs : s.stab.slot l with
  | none => exact ⟨_, rfl, .inl ⟨find_eq_none.2 hs, by simp [returns], rfl⟩⟩
  | some i =>
    obtain ⟨-, x, hx, -⟩ := slot_some hs
    obtain ⟨s', hturn, -, hfind, hpos, hzero, -⟩ := turn_spec (t := t) h.good hs hx
    exact ⟨s', hturn, .inr ⟨x.sem, find_of_slot hs hx, hfind, hpos, by rw [hs]; exact hzero⟩⟩

theorem signal_eq (hw : s.waiting t = none) (hn : name ≠ 0) (hstr : HasString read name l) {i : Nat} {x : Sem}
    (hs : s.stab.slot l = some i) (hx : s.stab.semtab i = some x) :
    step s (.signal t read name) = some (returns { s with stab := s.stab.setSem i x x.sem.v.1 } t 0) := by
  simp only [step, if_pos hw, signal, if_neg hn, hstr.namebuf_eq, Option.bind_eq_bind, Option.bind_some,
    slotOf_padded hstr.isName, hs, hx]

/-- `Signal` of a name the process can read. -/
theorem signal_spec (h : Inv s) (hw : s.waiting t = none) (hn : name ≠ 0) (hstr : HasString read name l) :
    ∃ s', step s (.signal t read name) = some s' ∧
      ((s.stab.find l = none ∧ s'.result t = some (-1) ∧ s'.stab = s.stab) ∨
        (∃ sem, s.stab.find l = some sem ∧ s'.result t = some 0 ∧
          s'.stab.find = Function.update s.stab.find l (some sem.v.1))) := by
  cases hs : s.stab.slot l with
  | none =>
    simp only [step, if_pos hw, signal, if_neg hn, hstr.namebuf_eq, Option.bind_eq_bind, Option.bind_some,
      slotOf_padded hstr.isName, hs]
    exact ⟨_, rfl, .inl ⟨find_eq_none.2 hs, by simp [returns], rfl⟩⟩
  | some i =>
    obtain ⟨-, x, hx, -⟩ := slot_some hs
    rw [signal_eq hw hn hstr hs hx]
    exact ⟨_, rfl, .inr ⟨x.sem, find_of_slot hs hx, by simp [returns], (setSem_find h.good hs hx _).1⟩⟩

/-- A process that comes back into `Wait` tests the semaphore it has named. -/
theorem resume_spec (h : Inv s) {i : Nat} (hw : s.waiting t = some i) :
    ∃ l sem, s.stab.slot l = some i ∧ s.stab.find l = some sem ∧
      (t ∉ sem.queue → ∃ s', step s (.resume t) = some s' ∧ TestsSem s t l sem s') := by
  obtain ⟨hi, x, hx⟩ := h.waiting t i hw
  have hs := h.good.slot_eq hi (by rw [nameAt, hx]; rfl)
  refine ⟨_, x.sem, hs, find_of_slot hs hx, ?_⟩
  intro hq
  obtain ⟨s', hturn, -, hfind, hpos, hzero, -⟩ := turn_spec (t := t) h.good hs hx
  refine ⟨s', ?_, hfind, hpos, by rw [hs]; exact hzero⟩
  simp only [step, resume, hw, hx, Option.bind_eq_bind, Option.bind_some, if_neg hq]
  exact hturn

end SemState

open SemState Stable in
/-- **The semaphore table is a bounded map from names to semaphores**: in every reachable state the
bitmap marks the used slots, names are unique and a user string selects the semaphore whose name is
its first 49 bytes; `CreateSem`, `Wait` and `Signal` are the operations of the map, and a call that
returns -1 changes nothing. -/
theorem semaphore_table {s : SemState} (h : SemState.system.Reachable s) :
    (∀ i < MAX_SEMAPHORE, s.stab.bm.bit i = true ↔ s.stab.semtab i ≠ none) ∧
    (∀ i < MAX_SEMAPHORE, ∀ j < MAX_SEMAPHORE, ∀ x y, s.stab.semtab i = some x → s.stab.semtab j = some y →
      strncmp x.semName y.semName 0 49 = true → i = j) ∧
    (∀ read read' name name' l l', HasString read name l → HasString read' name' l' →
      ∃ buf buf', namebuf read name = some buf ∧ namebuf read' name' = some buf' ∧
        ∀ i, s.stab.slotOf buf = some i → (s.stab.slotOf buf' = some i ↔ l = l')) ∧
    (∀ t read name l, s.waiting t = none → name ≠ 0 → HasString read name l →
      (∀ sval, ∃ s', step s (.createSem t read name sval) = some s' ∧
        ((s'.result t = some 0 ∧ (0 ≤ sval.toInt ∧ s.stab.find l = none ∧ s.stab.count < MAX_SEMAPHORE) ∧
            s'.stab.find = Function.update s.stab.find l (some ⟨sval, []⟩)) ∨
          (s'.result t = some (-1) ∧
            ¬ (0 ≤ sval.toInt ∧ s.stab.find l = none ∧ s.stab.count < MAX_SEMAPHORE) ∧ s'.stab = s.stab))) ∧
      (∃ s', step s (.wait t read name) = some s' ∧
        ((s.stab.find l = none ∧ s'.result t = some (-1) ∧ s'.stab = s.stab) ∨
          (∃ sem, s.stab.find l = some sem ∧ TestsSem s t l sem s'))) ∧
      (∃ s', step s (.signal t read name) = some s' ∧
        ((s.stab.find l = none ∧ s'.result t = some (-1) ∧ s'.stab = s.stab) ∨
          (∃ sem, s.stab.find l = some sem ∧ s'.result t = some 0 ∧
            s'.stab.find = Function.update s.stab.find l (some sem.v.1))))) ∧
    (∀ t i, s.waiting t = some i → ∃ l sem, s.stab.slot l = some i ∧ s.stab.find l = some sem ∧
      (t ∉ sem.queue → ∃ s', step s (.resume t) = some s' ∧ TestsSem s t l sem s')) ∧
    (∀ e s', step s e = some s' → s'.result e.caller = some (-1) → s'.stab = s.stab) := by
  have hinv := reachable_inv h
  refine ⟨?_, ?_, ?_, ?_, ?_, ?_⟩
  · intro i hi
    rw [hinv.good.bits i hi, Option.isSome_iff_ne_none]
  · intro i hi j hj x y hx hy hcmp
    rw [strncmp_iff_str] at hcmp
    exact hinv.good.names i hi j hj _ (by rw [nameAt, hx]; rfl) (by rw [nameAt, hy, Option.map_some, ← hcmp])
  · intro read read' name name' l l' hl hl'
    refine ⟨_, _, hl.namebuf_eq, hl'.namebuf_eq, ?_⟩
    intro i hi
    rw [slotOf_padded hl.isName] at hi
    rw [slotOf_padded hl'.isName]
    constructor
    · intro hi'
      obtain ⟨-, x, hx, rfl⟩ := slot_some hi
      obtain ⟨-, y, hy, rfl⟩ := slot_some hi'
      rw [hx] at hy
      cases hy
      rfl
    · rintro rfl
      exact hi
  · intro t read name l hw hn hstr
    exact ⟨createSem_spec hinv hw hn hstr, wait_spec hinv hw hn hstr, signal_spec hinv hw hn hstr⟩
  · intro t i hw
    exact resume_spec hinv hw
  · intro e s' he hr
    exact failed_stab hinv he hr

namespace SemState

def start : SemState := ⟨Stable.init 0, fun _ => none, fun _ => none⟩

/-- A memory with the string "M" at 4. -/
def nameM (a : Word) : Option Byte := if a = 4 then some 77 else some 0

/-- A process creates "M" with value 1; of two others that wait for it, one stays inside. -/
def waitRun : List SemCall := [.createSem 1 nameM 4 1, .wait 2 nameM 4, .wait 3 nameM 4]

end SemState

open SemState in
theorem semaphore_table_waitRun : ∃ s, SemState.system.run start waitRun = some s ∧ s.result 2 = some 0 ∧
    ∃ l sem, s.stab.slot l = some 0 ∧ s.stab.find l = some sem ∧
      (3 ∉ sem.queue → ∃ s', step s (.resume 3) = some s' ∧ TestsSem s 3 l sem s') := by
  have hrun : ∃ s, SemState.system.run start waitRun = some s ∧ s.result 2 = some 0 ∧ s.waiting 3 = some 0 :=
    ⟨_, rfl, rfl, rfl⟩
  obtain ⟨s, hs, h2, h3⟩ := hrun
  have hreach : SemState.system.Reachable s := System.reachable_of_run waitRun ⟨0, rfl⟩ hs
  exact ⟨s, hs, h2, (semaphore_table hreach).2.2.2.2.1 3 0 h3⟩

end Nachos
