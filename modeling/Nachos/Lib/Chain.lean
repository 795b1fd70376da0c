import Mathlib.Data.List.Nodup
import Mathlib.Logic.Function.Basic

/-!
# Chains of cells

Cells in a store, each with a pointer to the next one.  `Segment h p cs q` says that the pointers
lead from `p` over the cells of `cs`, given with their addresses, to `q`.

* `segment_append` — a segment is cut in two at any place.
* `Segment.congr`, `Segment.update` — it depends on its own cells only.
* `Segment.unique`, `Segment.nodup` — what ends in the null pointer is determined by where it starts,
  and has no cycle.
* `Represents` — a chain with a pointer to its last cell; `append`, `prepend`, `insert` and `tail`
  are the ways to change it.
-/

set_option autoImplicit false

namespace Chain

variable {A V : Type}

structure Cell (A V : Type) where
  next : Option A
  val : V
  deriving DecidableEq, Repr

def Segment (h : A → Option (Cell A V)) : Option A → List (A × V) → Option A → Prop
  | p, [], q => p = q
  | p, c :: cs, q => p = some c.1 ∧ ∃ next, h c.1 = some ⟨next, c.2⟩ ∧ Segment h next cs q

variable {h h' : A → Option (Cell A V)} {p q : Option A} {c : A × V} {cs ds : List (A × V)}

theorem segment_append : Segment h p (cs ++ ds) q ↔ ∃ r, Segment h p cs r ∧ Segment h r ds q := by
  induction cs generalizing p with
  | nil =>
    constructor
    · exact fun hseg => ⟨p, rfl, hseg⟩
    · rintro ⟨r, rfl, hseg⟩
      exact hseg
  | cons c cs ih =>
    constructor
    · rintro ⟨hp, next, hc, hseg⟩
      obtain ⟨r, hcs, hds⟩ := ih.1 hseg
      exact ⟨r, ⟨hp, next, hc, hcs⟩, hds⟩
    · rintro ⟨r, ⟨hp, next, hc, hcs⟩, hds⟩
      exact ⟨hp, next, hc, ih.2 ⟨r, hcs, hds⟩⟩

theorem Segment.congr (hseg : Segment h p cs q) (hsame : ∀ c ∈ cs, h' c.1 = h c.1) : Segment h' p cs q := by
  induction cs generalizing p with
  | nil => exact hseg
  | cons c cs ih =>
    obtain ⟨hp, next, hc, hseg⟩ := hseg
    refine ⟨hp, next, ?_, ih hseg fun d hd => hsame d (List.mem_cons_of_mem c hd)⟩
    rw [hsame c List.mem_cons_self]
    exact hc

/-- A change of a cell that is not on the segment. -/
theorem Segment.update [DecidableEq A] (hseg : Segment h p cs q) {a : A} (ha : a ∉ cs.map Prod.fst)
    (x : Option (Cell A V)) : Segment (Function.update h a x) p cs q := by
  apply hseg.congr
  intro c hc
  apply Function.update_of_ne
  rintro rfl
  exact ha (List.mem_map_of_mem hc)

/-- The cells of a segment are in the store. -/
theorem Segment.lookup (hseg : Segment h p cs q) (hc : c ∈ cs) : ∃ next, h c.1 = some ⟨next, c.2⟩ := by
  induction cs generalizing p with
  | nil => exact absurd hc (by simp)
  | cons d cs ih =>
    obtain ⟨-, next, hd, hseg⟩ := hseg
    rcases List.mem_cons.1 hc with rfl | hc
    · exact ⟨next, hd⟩
    · exact ih hseg hc

theorem Segment.not_mem (hseg : Segment h p cs q) {a : A} (ha : h a = none) : a ∉ cs.map Prod.fst := by
  intro hmem
  obtain ⟨c, hc, rfl⟩ := List.mem_map.1 hmem
  obtain ⟨next, hlookup⟩ := hseg.lookup hc
  rw [ha] at hlookup
  cases hlookup

theorem Segment.start (hseg : Segment h p cs none) : p = cs.head?.map Prod.fst := by
  cases cs with
  | nil => exact hseg
  | cons c cs => exact hseg.1

/-- The pointers determine the cells. -/
theorem Segment.unique (hcs : Segment h p cs none) (hds : Segment h p ds none) : cs = ds := by
  induction cs generalizing p ds with
  | nil =>
    obtain rfl : p = none := hcs
    cases ds with
    | nil => rfl
    | cons d ds => cases hds.1
  | cons c cs ih =>
    obtain ⟨rfl, next, hc, hcs⟩ := hcs
    cases ds with
    | nil => cases hds
    | cons d ds =>
      obtain ⟨hd, next', hd', hds⟩ := hds
      have haddr : c.1 = d.1 := Option.some.inj hd
      rw [← haddr, hc] at hd'
      injection hd' with hcell
      injection hcell with hnext hval
      subst hnext
      rw [ih hcs hds, Prod.ext haddr hval]

/-- **No cycle**: a cell that came twice would be followed by chains of two lengths. -/
theorem Segment.nodup (hseg : Segment h p cs none) : (cs.map Prod.fst).Nodup := by
  induction cs generalizing p with
  | nil => exact List.nodup_nil
  | cons c cs ih =>
    have hcons := hseg
    obtain ⟨rfl, next, hc, hrest⟩ := hseg
    rw [List.map_cons, List.nodup_cons]
    refine ⟨?_, ih hrest⟩
    intro hmem
    obtain ⟨d, hd, haddr⟩ := List.mem_map.1 hmem
    obtain ⟨xs, ys, rfl⟩ := List.append_of_mem hd
    obtain ⟨r, -, hagain⟩ := segment_append.1 hrest
    obtain rfl : r = some c.1 := by rw [hagain.1, haddr]
    have heq := congrArg List.length (hcons.unique hagain)
    rw [List.length_cons, List.length_append, List.length_cons] at heq
    omega

/-- The last cell of a segment is given another pointer. -/
theorem Segment.redirect [DecidableEq A] (hseg : Segment h p (cs ++ [c]) q) (hc : c.1 ∉ cs.map Prod.fst)
    (r : Option A) : Segment (Function.update h c.1 (some ⟨r, c.2⟩)) p (cs ++ [c]) r := by
  obtain ⟨s, hcs, hs, -, -, -⟩ := segment_append.1 hseg
  exact segment_append.2 ⟨s, hcs.update hc _, hs, r, Function.update_self _ _ _, rfl⟩

/-! ## Chains with a last cell -/

structure Represents (h : A → Option (Cell A V)) (first last : Option A) (cs : List (A × V)) : Prop where
  chain : Segment h first cs none
  last_eq : last = cs.getLast?.map Prod.fst

variable {first last : Option A}

theorem Represents.first_eq_none_iff (hr : Represents h first last cs) : first = none ↔ cs = [] := by
  rw [hr.chain.start, Option.map_eq_none_iff, List.head?_eq_none_iff]

theorem Represents.last_eq_none_iff (hr : Represents h first last cs) : last = none ↔ cs = [] := by
  rw [hr.last_eq, Option.map_eq_none_iff, List.getLast?_eq_none_iff]

/-- The chain in front of the last cell. -/
theorem Represents.exists_last (hr : Represents h first last cs) (hne : cs ≠ []) :
    ∃ xs c, cs = xs ++ [c] ∧ last = some c.1 ∧ h c.1 = some ⟨none, c.2⟩ := by
  rcases List.eq_nil_or_concat' cs with rfl | ⟨xs, c, rfl⟩
  · exact absurd rfl hne
  · obtain ⟨s, -, -, next, hc, rfl⟩ := segment_append.1 hr.chain
    refine ⟨xs, c, rfl, ?_, hc⟩
    rw [hr.last_eq, List.getLast?_concat]
    rfl

theorem Represents.first_eq_last_iff (hr : Represents h first last (c :: cs)) : first = last ↔ cs = [] := by
  obtain ⟨xs, d, heq, hlast, -⟩ := hr.exists_last (List.cons_ne_nil c cs)
  rw [hr.chain.1, hlast]
  have hnd := hr.chain.nodup
  cases xs with
  | nil =>
    obtain ⟨rfl, rfl⟩ := List.cons.inj heq
    exact iff_of_true rfl rfl
  | cons x xs =>
    obtain ⟨rfl, rfl⟩ := List.cons.inj heq
    refine iff_of_false ?_ (by simp)
    intro hsame
    rw [List.map_cons, List.nodup_cons, Option.some.inj hsame] at hnd
    exact hnd.1 (List.mem_map_of_mem (by simp))

variable [DecidableEq A] {a : A} {v : V}

/-- A cell that is not on the chain changes. -/
theorem Represents.update (hr : Represents h first last cs) (ha : a ∉ cs.map Prod.fst) (x : Option (Cell A V)) :
    Represents (Function.update h a x) first last cs :=
  ⟨hr.chain.update ha x, hr.last_eq⟩

theorem Represents.append (hr : Represents h first last (cs ++ [c])) (ha : a ∉ (cs ++ [c]).map Prod.fst)
    (hnew : h a = some ⟨none, v⟩) :
    Represents (Function.update h c.1 (some ⟨some a, c.2⟩)) first (some a) (cs ++ [c] ++ [(a, v)]) where
  chain := by
    have hnd := hr.chain.nodup
    rw [List.map_append, List.map_cons, List.map_nil, List.nodup_append] at hnd
    have hc : c.1 ∉ cs.map Prod.fst := fun hmem => hnd.2.2 _ hmem _ List.mem_cons_self rfl
    refine segment_append.2 ⟨some a, hr.chain.redirect hc _, rfl, none, ?_, rfl⟩
    rw [Function.update_of_ne, hnew]
    rintro rfl
    exact ha (List.mem_map_of_mem (by simp))
  last_eq := by
    rw [List.getLast?_concat]
    rfl

theorem Represents.prepend (hr : Represents h first last cs) (hne : cs ≠ []) (ha : a ∉ cs.map Prod.fst) :
    Represents (Function.update h a (some ⟨first, v⟩)) (some a) last ((a, v) :: cs) where
  chain := ⟨rfl, first, Function.update_self _ _ _, hr.chain.update ha _⟩
  last_eq := by
    obtain ⟨d, ds, rfl⟩ := List.exists_cons_of_ne_nil hne
    rw [List.getLast?_cons_cons]
    exact hr.last_eq

/-- A cell is put between two others. -/
theorem Represents.insert {d : A × V} (hr : Represents h first last (cs ++ c :: d :: ds))
    (ha : a ∉ (cs ++ c :: d :: ds).map Prod.fst) :
    Represents (Function.update (Function.update h a (some ⟨some d.1, v⟩)) c.1 (some ⟨some a, c.2⟩)) first last
      (cs ++ c :: (a, v) :: d :: ds) where
  chain := by
    have hnd := hr.chain.nodup
    have hsplit : cs ++ c :: d :: ds = (cs ++ [c]) ++ d :: ds := by simp
    rw [hsplit, List.map_append, List.nodup_append, List.map_append, List.nodup_append] at hnd
    obtain ⟨⟨-, -, hcs⟩, -, hcd⟩ := hnd
    have hr' := (hr.update ha (some ⟨some d.1, v⟩)).chain
    rw [hsplit, segment_append] at hr'
    obtain ⟨r, hfront, hback⟩ := hr'
    have hac : a ≠ c.1 := by
      rintro rfl
      exact ha (List.mem_map_of_mem (by simp))
    have hseg : Segment (Function.update (Function.update h a (some ⟨some d.1, v⟩)) c.1 (some ⟨some a, c.2⟩)) (some a)
        ((a, v) :: d :: ds) none := by
      refine ⟨rfl, some d.1, ?_, ?_⟩
      · rw [Function.update_of_ne hac, Function.update_self]
      · obtain rfl : r = some d.1 := hback.1
        exact hback.update (fun hmem => hcd _ (by simp) _ hmem rfl) _
    have hlist : cs ++ c :: (a, v) :: d :: ds = (cs ++ [c]) ++ (a, v) :: d :: ds := by simp
    rw [hlist]
    exact segment_append.2 ⟨some a, hfront.redirect (fun hmem => hcs _ hmem _ (by simp) rfl) _, hseg⟩
  last_eq := by
    rw [hr.last_eq, List.getLast?_append, List.getLast?_append]
    simp

/-- The first cell is taken off. -/
theorem Represents.tail {next : Option A} (hr : Represents h first last (c :: cs)) (hc : h c.1 = some ⟨next, c.2⟩)
    (hne : cs ≠ []) (x : Option (Cell A V)) : Represents (Function.update h c.1 x) next last cs where
  chain := by
    have hnd := hr.chain.nodup
    rw [List.map_cons, List.nodup_cons] at hnd
    obtain ⟨-, next', hc', hseg⟩ := hr.chain
    rw [hc] at hc'
    cases hc'
    exact hseg.update hnd.1 x
  last_eq := by
    obtain ⟨d, ds, rfl⟩ := List.exists_cons_of_ne_nil hne
    rw [hr.last_eq, List.getLast?_cons_cons]

end Chain
