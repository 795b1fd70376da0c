import Mathlib.Data.Finmap
import Nachos.Lib.Chain
import Nachos.Machine.Interrupt

/-!
# Lists

`threads/list.cc`: a `List` is a chain of `ListElement`s on the heap, with pointers to the first and
to the last one.  An item is a `void *`, with `none` for `NULL`; an operation is `none` if it follows
a pointer that leads nowhere, or walks around a cycle for ever.  `new` is given the free address that
it returns.

* `Sequence.exec` — what the operations are for, on a mathematical sequence.
* `exec_spec` — every operation on a chain is defined, and does that.
* `Accounted` — what comes of the insertions under `SortedInsert` and `SortedRemove`.
* `list_represents` — every run, from an empty list.
-/

set_option autoImplicit false

namespace Nachos

open Chain

/-- `class List`, with the heap. -/
structure LinkedList (A ι : Type) where
  heap : Finmap fun _ : A => Cell A (ListElement (Option ι))
  first : Option A
  last : Option A

namespace LinkedList

variable {A ι : Type} [DecidableEq A]

/-! ## The operations -/

/-- `List::List`, on a heap on which there may be anything. -/
def init (heap : Finmap fun _ : A => Cell A (ListElement (Option ι))) : LinkedList A ι := ⟨heap, none, none⟩

/-- `new ListElement(item, sortKey)`, at the address `element`. -/
def newElement (s : LinkedList A ι) (element : A) (item : Option ι) (sortKey : Int) : Option (LinkedList A ι) :=
  if element ∈ s.heap then none else some { s with heap := s.heap.insert element ⟨none, ⟨item, sortKey⟩⟩ }

/-- `ptr->next = next`. -/
def setNext (s : LinkedList A ι) (ptr next : Option A) : Option (LinkedList A ι) := do
  let a ← ptr
  let c ← s.heap.lookup a
  some { s with heap := s.heap.insert a { c with next := next } }

/-- `List::IsEmpty`. -/
def isEmpty (s : LinkedList A ι) : Bool := s.first.isNone

/-- `List::Append`. -/
def append (s : LinkedList A ι) (element : A) (item : Option ι) : Option (LinkedList A ι) := do
  let s ← s.newElement element item 0
  if s.isEmpty then some { s with first := some element, last := some element }
  else
    let s ← s.setNext s.last (some element)
    some { s with last := some element }

/-- `List::Prepend`. -/
def prepend (s : LinkedList A ι) (element : A) (item : Option ι) : Option (LinkedList A ι) := do
  let s ← s.newElement element item 0
  if s.isEmpty then some { s with first := some element, last := some element }
  else
    let s ← s.setNext (some element) s.first
    some { s with first := some element }

/-- The loop of `SortedInsert`, at `ptr`.  A walk of more rounds than there are elements on the heap
has come to one of them twice, and never ends. -/
def insertLoop : Nat → LinkedList A ι → A → Int → A → Option (LinkedList A ι)
  | 0, _, _, _, _ => none
  | rounds + 1, s, element, sortKey, ptr => do
    match (← s.heap.lookup ptr).next with
    | none =>
      let s ← s.setNext s.last (some element)
      some { s with last := some element }
    | some next =>
      if sortKey < (← s.heap.lookup next).val.key then
        let s ← s.setNext (some element) (some next)
        s.setNext (some ptr) (some element)
      else insertLoop rounds s element sortKey next

/-- `List::SortedInsert`. -/
def sortedInsert (s : LinkedList A ι) (element : A) (item : Option ι) (sortKey : Int) : Option (LinkedList A ι) := do
  let s ← s.newElement element item sortKey
  match s.first with
  | none => some { s with first := some element, last := some element }
  | some first =>
    if sortKey < (← s.heap.lookup first).val.key then
      let s ← s.setNext (some element) (some first)
      some { s with first := some element }
    else insertLoop s.heap.keys.card s element sortKey first

/-- What a call returns, and what it stores at `keyPtr`; `NULL` and nothing where it does neither. -/
structure Result (ι : Type) where
  thing : Option ι
  key : Option Int
  deriving DecidableEq, Repr

/-- `List::SortedRemove`; `keyPtr` says whether it is not `NULL`. -/
def sortedRemove (s : LinkedList A ι) (keyPtr : Bool) : Option (Result ι × LinkedList A ι) :=
  match s.first with
  | none => some (⟨none, none⟩, s)
  | some element => do
    let c ← s.heap.lookup element
    let (first, last) := if s.first = s.last then (none, none) else (c.next, s.last)
    -- `delete element`
    some (⟨c.val.item, if keyPtr then some c.val.key else none⟩, ⟨s.heap.erase element, first, last⟩)

/-- `List::Remove`. -/
def remove (s : LinkedList A ι) : Option (Result ι × LinkedList A ι) := s.sortedRemove false

inductive Op (ι : Type) where
  | append (item : Option ι)
  | prepend (item : Option ι)
  | remove
  | sortedInsert (item : Option ι) (sortKey : Int)
  | sortedRemove (keyPtr : Bool)
  deriving DecidableEq, Repr

/-- An operation; `element` is what `new` returns, where it is called. -/
def exec (s : LinkedList A ι) (element : A) : Op ι → Option (Result ι × LinkedList A ι)
  | .append item => (s.append element item).map fun s => (⟨none, none⟩, s)
  | .prepend item => (s.prepend element item).map fun s => (⟨none, none⟩, s)
  | .remove => s.remove
  | .sortedInsert item sortKey => (s.sortedInsert element item sortKey).map fun s => (⟨none, none⟩, s)
  | .sortedRemove keyPtr => s.sortedRemove keyPtr

/-- A sequence of operations, with the addresses that `new` returns. -/
def run (s : LinkedList A ι) : List (Op ι × A) → Option (List (Result ι) × LinkedList A ι)
  | [] => some ([], s)
  | (op, element) :: ops => do
    let (r, s) ← s.exec element op
    let (rs, s) ← s.run ops
    some (r :: rs, s)

/-- The operations that call `new`. -/
def Op.allocates : Op ι → Bool
  | .append _ | .prepend _ | .sortedInsert _ _ => true
  | .remove | .sortedRemove _ => false

/-! ## The operations on a sequence -/

namespace Sequence

/-- An operation on a sequence: what it takes off, and the sequence afterwards. -/
def exec : Op ι → List (ListElement (Option ι)) → Option (ListElement (Option ι)) × List (ListElement (Option ι))
  | .append item, l => (none, l ++ [⟨item, 0⟩])
  | .prepend item, l => (none, ⟨item, 0⟩ :: l)
  | .remove, l => (l.head?, l.tail)
  | .sortedInsert item sortKey, l => (none, Nachos.sortedInsert l item sortKey)
  | .sortedRemove _, l => (l.head?, l.tail)

/-- What the caller gets of the element that is taken off. -/
def answer : Op ι → Option (ListElement (Option ι)) → Result ι
  | .remove, e => ⟨e.bind fun e => e.item, none⟩
  | .sortedRemove keyPtr, e => ⟨e.bind fun e => e.item, if keyPtr then e.map fun e => e.key else none⟩
  | _, _ => ⟨none, none⟩

def run : List (Op ι) → List (ListElement (Option ι)) →
    List (Option (ListElement (Option ι))) × List (ListElement (Option ι))
  | [], l => ([], l)
  | op :: ops, l => ((exec op l).1 :: (run ops (exec op l).2).1, (run ops (exec op l).2).2)

end Sequence

/-! ## Single stores -/

/-- The cells on the heap. -/
def cells (s : LinkedList A ι) (a : A) : Option (Cell A (ListElement (Option ι))) := s.heap.lookup a

/-- The list is a chain over `cs`. -/
def Holds (s : LinkedList A ι) (cs : List (A × ListElement (Option ι))) : Prop :=
  Represents s.cells s.first s.last cs

variable {s s' : LinkedList A ι} {cs : List (A × ListElement (Option ι))} {element : A} {item : Option ι} {sortKey : Int}

theorem cells_insert (s : LinkedList A ι) (a : A) (c : Cell A (ListElement (Option ι))) (first last : Option A) :
    cells ⟨s.heap.insert a c, first, last⟩ = Function.update s.cells a (some c) := by
  funext b
  rcases eq_or_ne b a with rfl | hne
  · rw [Function.update_self]
    exact Finmap.lookup_insert _
  · rw [Function.update_of_ne hne]
    exact Finmap.lookup_insert_of_ne _ hne

theorem cells_erase (s : LinkedList A ι) (a : A) (first last : Option A) :
    cells ⟨s.heap.erase a, first, last⟩ = Function.update s.cells a none := by
  funext b
  rcases eq_or_ne b a with rfl | hne
  · rw [Function.update_self]
    exact Finmap.lookup_erase _ _
  · rw [Function.update_of_ne hne]
    exact Finmap.lookup_erase_ne hne

/-- **`new`**: an element that is not on the list. -/
theorem newElement_spec (hs : s.Holds cs) (hfree : element ∉ s.heap) (item : Option ι) (sortKey : Int) :
    ∃ s', s.newElement element item sortKey = some s' ∧ s'.Holds cs ∧ element ∉ cs.map Prod.fst ∧
      s'.cells element = some ⟨none, ⟨item, sortKey⟩⟩ ∧ s'.first = s.first ∧ s'.last = s.last := by
  have hnot : element ∉ cs.map Prod.fst := hs.chain.not_mem (Finmap.lookup_eq_none.2 hfree)
  rw [newElement, if_neg hfree]
  refine ⟨_, rfl, ?_, hnot, Finmap.lookup_insert _, rfl, rfl⟩
  unfold Holds
  rw [cells_insert]
  exact hs.update hnot _

theorem setNext_spec {a : A} {c : Cell A (ListElement (Option ι))} (hc : s.cells a = some c) (next : Option A) :
    ∃ s', s.setNext (some a) next = some s' ∧ s'.cells = Function.update s.cells a (some { c with next := next }) ∧
      s'.first = s.first ∧ s'.last = s.last := by
  have hc : s.heap.lookup a = some c := hc
  simp only [setNext, Option.bind_eq_bind, Option.bind_some, hc]
  exact ⟨_, rfl, cells_insert _ _ _ _ _, rfl, rfl⟩

/-- There are not more elements on the list than on the heap. -/
theorem Holds.length_le (hs : s.Holds cs) : cs.length ≤ s.heap.keys.card := by
  have hsub : (cs.map Prod.fst).toFinset ⊆ s.heap.keys := by
    intro a ha
    obtain ⟨c, hc, rfl⟩ := List.mem_map.1 (List.mem_toFinset.1 ha)
    obtain ⟨next, hlookup⟩ := hs.chain.lookup hc
    have hsome : (s.heap.lookup c.1).isSome := by
      rw [show s.heap.lookup c.1 = _ from hlookup]
      rfl
    exact Finmap.mem_keys.2 (Finmap.lookup_isSome.1 hsome)
  have hcard := Finset.card_le_card hsub
  rw [List.toFinset_card_of_nodup hs.chain.nodup, List.length_map] at hcard
  exact hcard

/-! ## What the operations do -/

/-- The new element is the only one. -/
theorem holds_single {e : ListElement (Option ι)} (hnew : s.cells element = some ⟨none, e⟩) :
    Holds { s with first := some element, last := some element } [(element, e)] :=
  ⟨⟨rfl, none, hnew, rfl⟩, rfl⟩

/-- The new element is put behind the last one. -/
theorem Holds.atEnd (hs : s.Holds cs) (hne : cs ≠ []) (hnot : element ∉ cs.map Prod.fst) {e : ListElement (Option ι)}
    (hnew : s.cells element = some ⟨none, e⟩) :
    ∃ s', s.setNext s.last (some element) = some s' ∧
      Holds { s' with last := some element } (cs ++ [(element, e)]) := by
  obtain ⟨xs, c, rfl, hlast, hc⟩ := hs.exists_last hne
  obtain ⟨s', hset, hcells, hfirst, -⟩ := setNext_spec hc (some element)
  rw [hlast]
  refine ⟨s', hset, ?_⟩
  have hrep := Represents.append hs hnot hnew
  rw [← hcells, ← hfirst] at hrep
  exact hrep

/-- The new element is put in front of the first one. -/
theorem Holds.atFront (hs : s.Holds cs) (hne : cs ≠ []) (hnot : element ∉ cs.map Prod.fst)
    {e : ListElement (Option ι)} (hnew : s.cells element = some ⟨none, e⟩) :
    ∃ s', s.setNext (some element) s.first = some s' ∧
      Holds { s' with first := some element } ((element, e) :: cs) := by
  obtain ⟨s', hset, hcells, -, hlast⟩ := setNext_spec hnew s.first
  refine ⟨s', hset, ?_⟩
  have hrep := Represents.prepend (v := e) hs hne hnot
  rw [← hcells, ← hlast] at hrep
  exact hrep

/-- `IsEmpty` tells whether there is an element. -/
theorem Holds.isEmpty_iff (hs : s.Holds cs) : s.isEmpty = true ↔ cs = [] := by
  unfold isEmpty
  rw [Option.isNone_iff_eq_none, hs.first_eq_none_iff]

theorem append_spec (hs : s.Holds cs) (hfree : element ∉ s.heap) (item : Option ι) :
    ∃ s', s.append element item = some s' ∧ s'.Holds (cs ++ [(element, ⟨item, 0⟩)]) := by
  obtain ⟨s₁, hrun, hs₁, hnot, hnew, hfirst, hlast⟩ := newElement_spec hs hfree item 0
  simp only [append, hrun, Option.bind_eq_bind, Option.bind_some]
  by_cases hnil : cs = []
  · subst hnil
    rw [if_pos (hs₁.isEmpty_iff.2 rfl)]
    exact ⟨_, rfl, holds_single hnew⟩
  · obtain ⟨s₂, hset, hs₂⟩ := hs₁.atEnd hnil hnot hnew
    rw [if_neg (mt hs₁.isEmpty_iff.1 hnil), hset, Option.bind_some]
    exact ⟨_, rfl, hs₂⟩

theorem prepend_spec (hs : s.Holds cs) (hfree : element ∉ s.heap) (item : Option ι) :
    ∃ s', s.prepend element item = some s' ∧ s'.Holds ((element, ⟨item, 0⟩) :: cs) := by
  obtain ⟨s₁, hrun, hs₁, hnot, hnew, hfirst, hlast⟩ := newElement_spec hs hfree item 0
  simp only [prepend, hrun, Option.bind_eq_bind, Option.bind_some]
  by_cases hnil : cs = []
  · subst hnil
    rw [if_pos (hs₁.isEmpty_iff.2 rfl)]
    exact ⟨_, rfl, holds_single hnew⟩
  · obtain ⟨s₂, hset, hs₂⟩ := hs₁.atFront hnil hnot hnew
    rw [if_neg (mt hs₁.isEmpty_iff.1 hnil), hset, Option.bind_some]
    exact ⟨_, rfl, hs₂⟩

/-- **The loop**, by induction on the elements behind `ptr`. -/
theorem insertLoop_spec {rounds : Nat} {xs ys : List (A × ListElement (Option ι))} {c : A × ListElement (Option ι)}
    (hs : s.Holds (xs ++ c :: ys)) (hnot : element ∉ (xs ++ c :: ys).map Prod.fst)
    (hnew : s.cells element = some ⟨none, ⟨item, sortKey⟩⟩) (hrounds : ys.length < rounds) :
    ∃ s', insertLoop rounds s element sortKey c.1 = some s' ∧
      s'.Holds (xs ++ c :: SortedList.insert (fun x => x.2.key) (element, ⟨item, sortKey⟩) ys) := by
  induction ys generalizing rounds xs c with
  | nil =>
    obtain ⟨rounds, rfl⟩ : ∃ m, rounds = m + 1 := ⟨rounds - 1, by omega⟩
    obtain ⟨-, -, -, next, hc, rfl⟩ := segment_append.1 hs.chain
    have hc : s.heap.lookup c.1 = some ⟨none, c.2⟩ := hc
    obtain ⟨s', hset, hs'⟩ := hs.atEnd (by simp) hnot hnew
    simp only [insertLoop, hc, hset, Option.bind_eq_bind, Option.bind_some]
    refine ⟨_, rfl, ?_⟩
    rw [List.append_assoc] at hs'
    exact hs'
  | cons d ys ih =>
    obtain ⟨rounds, rfl⟩ : ∃ m, rounds = m + 1 := ⟨rounds - 1, by omega⟩
    obtain ⟨-, -, -, next, hc, rfl, next', hd, -⟩ := segment_append.1 hs.chain
    have hlookup : s.heap.lookup c.1 = some ⟨some d.1, c.2⟩ := hc
    have hlookup' : s.heap.lookup d.1 = some ⟨next', d.2⟩ := hd
    simp only [insertLoop, hlookup, hlookup', Option.bind_eq_bind, Option.bind_some]
    split
    · rename_i hlt
      obtain ⟨s₁, hset, hcells, hfirst, hlast⟩ := setNext_spec hnew (some d.1)
      have hne : c.1 ≠ element := by
        rintro rfl
        exact hnot (List.mem_map_of_mem (by simp))
      have hc₁ : s₁.cells c.1 = some ⟨some d.1, c.2⟩ := by
        rw [hcells, Function.update_of_ne hne]
        exact hc
      obtain ⟨s₂, hset₂, hcells₂, hfirst₂, hlast₂⟩ := setNext_spec hc₁ (some element)
      rw [hset, Option.bind_some, hset₂]
      refine ⟨s₂, rfl, ?_⟩
      rw [SortedList.insert_eq_cons fun b hb => by rw [← Option.some.inj hb]; exact hlt]
      have hrep := Represents.insert (v := ⟨item, sortKey⟩) hs hnot
      rw [← hfirst, ← hlast, ← hfirst₂, ← hlast₂] at hrep
      unfold Holds
      rw [hcells₂, hcells]
      exact hrep
    · rename_i hle
      rw [SortedList.insert_of_le (not_lt.1 hle)]
      have happend : xs ++ c :: d :: ys = (xs ++ [c]) ++ d :: ys := by simp
      rw [happend] at hs hnot
      obtain ⟨s', hrun, hs'⟩ := ih hs hnot (Nat.lt_of_succ_lt_succ hrounds)
      refine ⟨s', hrun, ?_⟩
      rw [List.append_assoc] at hs'
      exact hs'

theorem sortedInsert_spec (hs : s.Holds cs) (hfree : element ∉ s.heap) (item : Option ι) (sortKey : Int) :
    ∃ s', s.sortedInsert element item sortKey = some s' ∧
      s'.Holds (SortedList.insert (fun x => x.2.key) (element, ⟨item, sortKey⟩) cs) := by
  obtain ⟨s₁, hrun, hs₁, hnot, hnew, -, -⟩ := newElement_spec hs hfree item sortKey
  simp only [sortedInsert, hrun, Option.bind_eq_bind, Option.bind_some]
  cases cs with
  | nil =>
    rw [hs₁.first_eq_none_iff.2 rfl]
    exact ⟨_, rfl, holds_single hnew⟩
  | cons c cs =>
    obtain ⟨hfirst, next, hc, -⟩ := hs₁.chain
    have hlookup : s₁.heap.lookup c.1 = some ⟨next, c.2⟩ := hc
    rw [hfirst]
    simp only [hlookup, Option.bind_some]
    split
    · rename_i hlt
      obtain ⟨s₂, hset, hs₂⟩ := hs₁.atFront (by simp) hnot hnew
      rw [← hfirst, hset, Option.bind_some, SortedList.insert_eq_cons fun b hb => by rw [← Option.some.inj hb]; exact hlt]
      exact ⟨_, rfl, hs₂⟩
    · rename_i hle
      rw [SortedList.insert_of_le (not_lt.1 hle)]
      have hs₀ : s₁.Holds ([] ++ c :: cs) := hs₁
      exact insertLoop_spec hs₀ hnot hnew hs₁.length_le

/-- **`SortedRemove`** takes off the first element, if there is one. -/
theorem sortedRemove_spec (hs : s.Holds cs) (keyPtr : Bool) :
    ∃ s', s.sortedRemove keyPtr =
        some (⟨(cs.head?.map Prod.snd).bind fun e => e.item,
          if keyPtr then (cs.head?.map Prod.snd).map fun e => e.key else none⟩, s') ∧
      s'.Holds cs.tail := by
  unfold sortedRemove
  cases cs with
  | nil =>
    rw [hs.first_eq_none_iff.2 rfl]
    refine ⟨s, ?_, hs⟩
    cases keyPtr with
    | false => rfl
    | true => rfl
  | cons c cs =>
    obtain ⟨hfirst, next, hc, hrest⟩ := hs.chain
    have hlookup : s.heap.lookup c.1 = some ⟨next, c.2⟩ := hc
    have hone := hs.first_eq_last_iff
    rw [hfirst] at hone ⊢
    simp only [hlookup, Option.bind_eq_bind, Option.bind_some]
    by_cases hnil : cs = []
    · subst hnil
      rw [if_pos (hone.2 rfl)]
      exact ⟨_, rfl, rfl, rfl⟩
    · rw [if_neg (fun heq => hnil (hone.1 heq))]
      refine ⟨_, rfl, ?_⟩
      have hrep := Represents.tail hs hc hnil none
      rw [← cells_erase s c.1 next s.last] at hrep
      exact hrep

/-- **Every operation** on a chain is defined, and does to the sequence what it is for. -/
theorem exec_spec (hs : s.Holds cs) (op : Op ι) (hfree : op.allocates = true → element ∉ s.heap) :
    ∃ s' cs', s.exec element op = some (Sequence.answer op (Sequence.exec op (cs.map Prod.snd)).1, s') ∧
      s'.Holds cs' ∧ cs'.map Prod.snd = (Sequence.exec op (cs.map Prod.snd)).2 := by
  cases op with
  | append item =>
    obtain ⟨s', hrun, hs'⟩ := append_spec hs (hfree rfl) item
    refine ⟨s', _, by rw [exec, hrun]; rfl, hs', ?_⟩
    rw [List.map_append]
    rfl
  | prepend item =>
    obtain ⟨s', hrun, hs'⟩ := prepend_spec hs (hfree rfl) item
    exact ⟨s', _, by rw [exec, hrun]; rfl, hs', rfl⟩
  | remove =>
    obtain ⟨s', hrun, hs'⟩ := sortedRemove_spec hs false
    refine ⟨s', _, ?_, hs', List.map_tail⟩
    rw [exec, remove, hrun, Sequence.exec, List.head?_map]
    rfl
  | sortedInsert item sortKey =>
    obtain ⟨s', hrun, hs'⟩ := sortedInsert_spec hs (hfree rfl) item sortKey
    refine ⟨s', _, by rw [exec, hrun]; rfl, hs', ?_⟩
    exact List.map_orderedInsert _ _ _ _ _ (fun _ _ => Iff.rfl) fun _ _ => Iff.rfl
  | sortedRemove keyPtr =>
    obtain ⟨s', hrun, hs'⟩ := sortedRemove_spec hs keyPtr
    refine ⟨s', _, ?_, hs', List.map_tail⟩
    rw [exec, hrun, Sequence.exec, List.head?_map]
    rfl

/-- What `new` has returned was free. -/
theorem free_of_exec {op : Op ι} {r : Result ι × LinkedList A ι} (h : s.exec element op = some r)
    (halloc : op.allocates = true) : element ∉ s.heap := by
  intro hmem
  have hnone : ∀ item sortKey, s.newElement element item sortKey = none := fun _ _ => if_pos hmem
  cases op with
  | append item => rw [exec, append, hnone] at h; cases h
  | prepend item => rw [exec, prepend, hnone] at h; cases h
  | remove => cases halloc
  | sortedInsert item sortKey => rw [exec, sortedInsert, hnone] at h; cases h
  | sortedRemove keyPtr => cases halloc

/-- **Every run** does the same operations on the sequence. -/
theorem run_spec {ops : List (Op ι × A)} {rs : List (Result ι)} (hs : s.Holds cs) (hrun : s.run ops = some (rs, s')) :
    ∃ cs', s'.Holds cs' ∧ cs'.map Prod.snd = (Sequence.run (ops.map Prod.fst) (cs.map Prod.snd)).2 ∧
      rs = List.zipWith Sequence.answer (ops.map Prod.fst) (Sequence.run (ops.map Prod.fst) (cs.map Prod.snd)).1 := by
  induction ops generalizing s cs rs with
  | nil =>
    cases hrun
    exact ⟨cs, hs, rfl, rfl⟩
  | cons op ops ih =>
    obtain ⟨⟨r, s₁⟩, hstep, hrest⟩ := Option.bind_eq_some_iff.1 hrun
    obtain ⟨⟨rs', s₂⟩, htail, heq⟩ := Option.bind_eq_some_iff.1 hrest
    cases heq
    obtain ⟨s₁', cs₁, hstep', hs₁, hcs₁⟩ := exec_spec hs op.1 (free_of_exec hstep)
    rw [hstep'] at hstep
    cases hstep
    obtain ⟨cs', hs', hcs', hrs⟩ := ih hs₁ htail
    rw [hcs₁] at hcs' hrs
    exact ⟨cs', hs', hcs', by rw [hrs]; rfl⟩

/-! ## Sorted lists -/

/-- The operations of a sorted list. -/
def Op.sorted : Op ι → Bool
  | .sortedInsert _ _ | .sortedRemove _ => true
  | .append _ | .prepend _ | .remove => false

/-- The elements that are inserted, in order. -/
def inserted (ops : List (Op ι)) : List (ListElement (Option ι)) :=
  ops.filterMap fun
    | .sortedInsert item sortKey => some ⟨item, sortKey⟩
    | _ => none

/-- **The insertions are accounted for.**  With their numbers, those on the list `l` and those that
were taken off are together all of `ins`, each once; on the list they are in the order of the keys,
and of the numbers where the keys are equal. -/
def Accounted (ins taken l : List (ListElement (Option ι))) : Prop :=
  ∃ present gone : List (ListElement (Option ι) × Nat),
    present.map Prod.fst = l ∧ gone.map Prod.fst = taken ∧ (present ++ gone).Perm ins.zipIdx ∧
      present.Pairwise fun x y => x.1.key < y.1.key ∨ x.1.key = y.1.key ∧ x.2 < y.2

variable {ins taken l : List (ListElement (Option ι))}

theorem Accounted.insert (h : Accounted ins taken l) (item : Option ι) (sortKey : Int) :
    Accounted (ins ++ [⟨item, sortKey⟩]) taken (Nachos.sortedInsert l item sortKey) := by
  obtain ⟨present, gone, rfl, rfl, hperm, hordered⟩ := h
  have hsorted : SortedList.Sorted (fun x : ListElement (Option ι) × Nat => x.1.key) present := by
    apply hordered.imp
    rintro x y (hlt | ⟨heq, -⟩)
    · exact Int.le_of_lt hlt
    · exact Int.le_of_eq heq
  refine ⟨SortedList.insert (fun x => x.1.key) (⟨item, sortKey⟩, ins.length) present, gone, ?_, rfl, ?_, ?_⟩
  · exact List.map_orderedInsert _ _ _ _ _ (fun _ _ => Iff.rfl) fun _ _ => Iff.rfl
  · rw [List.zipIdx_append]
    apply (SortedList.insert_perm.append_right gone).trans
    apply (hperm.cons _).trans
    rw [Nat.zero_add]
    exact (List.perm_append_singleton _ _).symm
  · -- those with the same key have smaller numbers
    refine SortedList.pairwise_insert hsorted hordered ?_ fun x _ hlt => .inl hlt
    intro x hx hle
    rcases Int.lt_or_eq_of_le hle with hlt | heq
    · exact .inl hlt
    · have hmem : x ∈ ins.zipIdx := hperm.mem_iff.1 (List.mem_append_left _ hx)
      exact .inr ⟨heq, List.snd_lt_of_mem_zipIdx hmem⟩

theorem Accounted.remove (h : Accounted ins taken l) : Accounted ins (taken ++ l.head?.toList) l.tail := by
  obtain ⟨present, gone, rfl, rfl, hperm, hordered⟩ := h
  cases present with
  | nil => exact ⟨[], gone, rfl, (List.append_nil _).symm, hperm, hordered⟩
  | cons x present =>
    refine ⟨present, gone ++ [x], rfl, by rw [List.map_append]; rfl, ?_, (List.pairwise_cons.1 hordered).2⟩
    refine List.Perm.trans ?_ hperm
    rw [← List.append_assoc]
    exact List.perm_append_singleton _ _

/-- The keys are in order. -/
theorem Accounted.sorted (h : Accounted ins taken l) : l.Pairwise fun e e' => e.key ≤ e'.key := by
  obtain ⟨present, gone, rfl, -, -, hordered⟩ := h
  rw [List.pairwise_map]
  apply hordered.imp
  rintro x y (hlt | ⟨heq, -⟩)
  · exact Int.le_of_lt hlt
  · exact Int.le_of_eq heq

theorem Accounted.run {ops : List (Op ι)} (hops : ∀ op ∈ ops, op.sorted = true) (h : Accounted ins taken l) :
    Accounted (ins ++ inserted ops) (taken ++ (Sequence.run ops l).1.reduceOption) (Sequence.run ops l).2 := by
  induction ops generalizing ins taken l with
  | nil =>
    show Accounted (ins ++ []) (taken ++ []) l
    rw [List.append_nil, List.append_nil]
    exact h
  | cons op ops ih =>
    have hops' := fun o ho => hops o (List.mem_cons_of_mem op ho)
    cases op with
    | sortedInsert item sortKey =>
      have hrest := ih hops' (h.insert item sortKey)
      rw [List.append_assoc] at hrest
      exact hrest
    | sortedRemove keyPtr =>
      have hrest := ih hops' h.remove
      have htaken : taken ++ (l.head? :: (Sequence.run ops l.tail).1).reduceOption =
          taken ++ l.head?.toList ++ (Sequence.run ops l.tail).1.reduceOption := by
        rw [List.append_assoc]
        cases l.head? with
        | none => rfl
        | some e => rfl
      rw [← htaken] at hrest
      exact hrest
    | append item => cases hops _ List.mem_cons_self
    | prepend item => cases hops _ List.mem_cons_self
    | remove => cases hops _ List.mem_cons_self

/-! ## Runs -/

/-- The pointer structure of a list over the elements `cs`. -/
structure Linked (s : LinkedList A ι) (cs : List (A × ListElement (Option ι))) : Prop where
  reaches : Segment s.cells s.first cs none
  acyclic : (cs.map Prod.fst).Nodup
  last_eq : s.last = cs.getLast?.map Prod.fst
  last_final : ∀ a, s.last = some a → ∃ e, s.cells a = some ⟨none, e⟩
  first_null : s.first = none ↔ cs = []
  last_null : s.last = none ↔ cs = []

theorem Holds.linked (hs : s.Holds cs) : s.Linked cs where
  reaches := hs.chain
  acyclic := hs.chain.nodup
  last_eq := hs.last_eq
  last_final := by
    intro a ha
    have hne : cs ≠ [] := fun hnil => by rw [hs.last_eq_none_iff.2 hnil] at ha; cases ha
    obtain ⟨xs, c, -, hlast, hc⟩ := hs.exists_last hne
    rw [ha] at hlast
    cases hlast
    exact ⟨_, hc⟩
  first_null := hs.first_eq_none_iff
  last_null := hs.last_eq_none_iff

end LinkedList

open LinkedList

/-- **A `List` represents its sequence**, after any run from an empty list: the pointers are those of
a chain over the elements of the sequence, the results are those of the sequence, and every operation
can follow.  A list that is only used sorted is in order, first come first served among equal keys;
nothing is lost or taken twice, and `SortedRemove` takes a least key. -/
theorem list_represents {A ι : Type} [DecidableEq A] {heap : Finmap fun _ : A => Cell A (ListElement (Option ι))}
    {ops : List (Op ι × A)} {rs : List (Result ι)} {s : LinkedList A ι}
    (hrun : (init heap).run ops = some (rs, s)) :
    (∃ cs, s.Linked cs ∧ cs.map Prod.snd = (Sequence.run (ops.map Prod.fst) []).2) ∧
    rs = List.zipWith Sequence.answer (ops.map Prod.fst) (Sequence.run (ops.map Prod.fst) []).1 ∧
    (∀ op element, (op.allocates = true → element ∉ s.heap) → (s.exec element op).isSome = true) ∧
    ((∀ op ∈ ops.map Prod.fst, op.sorted = true) →
      Accounted (inserted (ops.map Prod.fst)) (Sequence.run (ops.map Prod.fst) []).1.reduceOption
        (Sequence.run (ops.map Prod.fst) []).2 ∧
      ∀ e l, (Sequence.run (ops.map Prod.fst) []).2 = e :: l →
        (∃ s', s.sortedRemove true = some (⟨e.item, some e.key⟩, s')) ∧ ∀ e' ∈ l, e.key ≤ e'.key) := by
  obtain ⟨cs, hs, hcs, hrs⟩ := run_spec (show (init heap).Holds [] from ⟨rfl, rfl⟩) hrun
  refine ⟨⟨cs, hs.linked, hcs⟩, hrs, ?_, ?_⟩
  · intro op element hfree
    obtain ⟨s', -, hexec, -⟩ := exec_spec hs op hfree
    rw [hexec]
    rfl
  · intro hsorted
    have hacc := Accounted.run hsorted (show Accounted [] [] [] from ⟨[], [], rfl, rfl, .refl _, .nil⟩)
    refine ⟨hacc, ?_⟩
    intro e l hl
    refine ⟨?_, (List.pairwise_cons.1 (hl ▸ hacc.sorted)).1⟩
    obtain ⟨s', hremove, -⟩ := sortedRemove_spec hs true
    rw [List.map_nil] at hcs
    refine ⟨s', ?_⟩
    rw [hremove, ← List.head?_map, hcs, hl]
    rfl

theorem list_represents_sorted :
    ∃ rs s, (init (∅ : Finmap fun _ : Nat => Cell Nat (ListElement (Option Nat)))).run
        [(.sortedInsert (some 5) 3, 0), (.sortedInsert (some 6) 1, 1), (.sortedInsert (some 7) 3, 2), (.sortedRemove true, 0)] =
        some (rs, s) ∧
      (∃ cs, s.Linked cs ∧ cs.map Prod.snd = [⟨some 5, 3⟩, ⟨some 7, 3⟩]) ∧
      rs = [⟨none, none⟩, ⟨none, none⟩, ⟨none, none⟩, ⟨some 6, some 1⟩] := by
  obtain ⟨⟨rs, s⟩, hrun⟩ := Option.isSome_iff_exists.1
    (show ((init (∅ : Finmap fun _ : Nat => Cell Nat (ListElement (Option Nat)))).run
      [(.sortedInsert (some 5) 3, 0), (.sortedInsert (some 6) 1, 1), (.sortedInsert (some 7) 3, 2),
        (.sortedRemove true, 0)]).isSome = true by decide)
  obtain ⟨hlinked, hrs, -⟩ := list_represents hrun
  exact ⟨rs, s, hrun, hlinked, hrs⟩

end Nachos
