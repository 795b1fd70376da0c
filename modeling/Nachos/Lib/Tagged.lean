import Mathlib.Data.List.Nodup

/-!
# Sequences with several writers

Every entry of the sequence carries the tag of its writer.

* `Grouped ids l` — the entries of a tag stand together, in the order `ids` of the tags.
* `Grouped.push`, `Grouped.snoc` — a writer that has written nothing, and one more entry of the
  last writer.
* `Grouped.contiguous` — no entry stands between two entries of another tag.
-/

set_option autoImplicit false

namespace Tagged

variable {ι β : Type}

/-- Between two occurrences of a tag there is no other tag. -/
def Contiguous : List ι → Prop
  | [] => True
  | i :: l => (i ∈ l → l.head? = some i) ∧ Contiguous l

instance Contiguous.decide [DecidableEq ι] : (l : List ι) → Decidable (Contiguous l)
  | [] => isTrue trivial
  | i :: l =>
    have := Contiguous.decide l
    inferInstanceAs (Decidable ((i ∈ l → l.head? = some i) ∧ Contiguous l))

theorem contiguous_replicate_append {i : ι} {l : List ι} (hi : i ∉ l) (hl : Contiguous l) (n : Nat) :
    Contiguous (List.replicate n i ++ l) := by
  induction n with
  | zero => exact hl
  | succ n ih =>
    refine ⟨?_, ih⟩
    intro hmem
    cases n with
    | zero => exact absurd hmem hi
    | succ n => rfl

theorem contiguous_flatMap_replicate {ids : List ι} (h : ids.Nodup) (n : ι → Nat) :
    Contiguous (ids.flatMap (fun i => List.replicate (n i) i)) := by
  induction ids with
  | nil => trivial
  | cons i ids ih =>
    obtain ⟨hi, hids⟩ := List.nodup_cons.1 h
    rw [List.flatMap_cons]
    refine contiguous_replicate_append ?_ (ih hids) (n i)
    intro hmem
    obtain ⟨j, hj, hij⟩ := List.mem_flatMap.1 hmem
    rw [List.eq_of_mem_replicate hij] at hi
    exact hi hj

variable [DecidableEq ι]

/-- The entries of tag `i`. -/
def ofTag (i : ι) (l : List (ι × β)) : List β := (l.filter (fun x => decide (x.1 = i))).map Prod.snd

theorem ofTag_append (i : ι) (l l' : List (ι × β)) : ofTag i (l ++ l') = ofTag i l ++ ofTag i l' := by
  simp [ofTag]

theorem ofTag_map_self (i : ι) (l : List β) : ofTag i (l.map (fun b => (i, b))) = l := by
  simp [ofTag, List.filter_map, Function.comp_def]

theorem ofTag_map_of_ne {i j : ι} (h : j ≠ i) (l : List β) : ofTag i (l.map (fun b => (j, b))) = [] := by
  simp [ofTag, List.filter_map, Function.comp_def, h]

/-- The entries stand tag by tag, in the order `ids`. -/
structure Grouped (ids : List ι) (l : List (ι × β)) : Prop where
  nodup : ids.Nodup
  eq : l = ids.flatMap (fun i => (ofTag i l).map (fun b => (i, b)))

namespace Grouped

variable {ids : List ι} {l : List (ι × β)} {i : ι}

theorem nil : Grouped ([] : List ι) ([] : List (ι × β)) := ⟨List.nodup_nil, rfl⟩

theorem tag_mem (h : Grouped ids l) {x : ι × β} (hx : x ∈ l) : x.1 ∈ ids := by
  rw [h.eq] at hx
  obtain ⟨j, hj, hxj⟩ := List.mem_flatMap.1 hx
  obtain ⟨b, -, rfl⟩ := List.mem_map.1 hxj
  exact hj

theorem ofTag_eq_nil (h : Grouped ids l) (hi : i ∉ ids) : ofTag i l = [] := by
  rw [ofTag, List.map_eq_nil_iff, List.filter_eq_nil_iff]
  intro x hx hxi
  rw [decide_eq_true_eq] at hxi
  exact hi (hxi ▸ h.tag_mem hx)

/-- A writer that has written nothing. -/
theorem push (h : Grouped ids l) (hi : i ∉ ids) : Grouped (ids ++ [i]) l := by
  refine ⟨?_, ?_⟩
  · rw [List.nodup_append]
    refine ⟨h.nodup, List.nodup_singleton i, ?_⟩
    intro j hj k hk hjk
    rw [List.mem_singleton.1 hk] at hjk
    exact hi (hjk ▸ hj)
  · rw [List.flatMap_append, ← h.eq]
    simp [h.ofTag_eq_nil hi]

/-- The last writer writes. -/
theorem snoc (h : Grouped (ids ++ [i]) l) (out : List β) :
    Grouped (ids ++ [i]) (l ++ out.map (fun b => (i, b))) := by
  refine ⟨h.nodup, ?_⟩
  have hi : i ∉ ids := by
    intro hmem
    exact (List.nodup_append.1 h.nodup).2.2 i hmem i (List.mem_singleton.2 rfl) rfl
  have hother : ids.flatMap (fun j => (ofTag j (l ++ out.map (fun b => (i, b)))).map (fun b => (j, b))) =
      ids.flatMap (fun j => (ofTag j l).map (fun b => (j, b))) := by
    apply List.flatMap_congr
    intro j hj
    have hne : i ≠ j := by
      rintro rfl
      exact hi hj
    rw [ofTag_append, ofTag_map_of_ne hne, List.append_nil]
  have heq := h.eq
  rw [List.flatMap_append, List.flatMap_singleton] at heq ⊢
  rw [hother, ofTag_append, ofTag_map_self, List.map_append, ← List.append_assoc, ← heq]

theorem contiguous (h : Grouped ids l) : Contiguous (l.map Prod.fst) := by
  have hmap : l.map Prod.fst = ids.flatMap (fun i => List.replicate (ofTag i l).length i) := by
    conv_lhs => rw [h.eq]
    rw [List.map_flatMap]
    apply List.flatMap_congr
    intro i _
    rw [List.map_map, ← List.map_const]
    rfl
  rw [hmap]
  exact contiguous_flatMap_replicate h.nodup _

theorem map_snd (h : Grouped ids l) : l.map Prod.snd = ids.flatMap (fun i => ofTag i l) := by
  conv_lhs => rw [h.eq]
  rw [List.map_flatMap]
  apply List.flatMap_congr
  intro i _
  simp [Function.comp_def]

end Grouped

end Tagged
