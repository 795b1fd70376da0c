import Nachos.Lib.Bytes

/-!
# Paged views of a memory

A store of blocks of `P` cells, and a list of distinct blocks that are shown one after the
other: the pages of a process in its frames, the bytes of a file in its disk sectors.

* `view_overlay` — a copy inside one block, seen through the list, is a copy at the places the
  block stands for.
* `view_frame` — a change outside the listed blocks is not seen.
-/

set_option autoImplicit false

namespace Paged

open Bytes (Overlay)

variable {β : Type} {P : Nat} {fs : List Nat} {m m' : Nat → β}

/-- Place `v` of the blocks `fs`. -/
def view (P : Nat) (fs : List Nat) (m : Nat → β) (v : Nat) : Option β :=
  fs[v / P]?.map (fun f => m (f * P + v % P))

theorem block_div (hP : 0 < P) (f : Nat) {o : Nat} (ho : o < P) : (f * P + o) / P = f := by
  rw [Nat.mul_comm, Nat.mul_add_div hP, Nat.div_eq_of_lt ho, Nat.add_zero]

theorem view_frame (hP : 0 < P) (h : ∀ a, a / P ∈ fs → m' a = m a) (v : Nat) :
    view P fs m' v = view P fs m v := by
  unfold view
  cases hf : fs[v / P]? with
  | none => rfl
  | some f =>
    rw [Option.map_some, Option.map_some, h]
    rw [block_div hP f (Nat.mod_lt v hP)]
    exact List.mem_of_getElem? hf

/-- **A copy inside one block.** -/
theorem view_overlay (hP : 0 < P) (hnd : fs.Nodup) {x f n : Nat} (hf : fs[x / P]? = some f)
    (hn : x % P + n ≤ P) {src : Nat → β}
    (h : Overlay src (Set.Ico (f * P + x % P) (f * P + x % P + n)) m m') :
    Overlay (fun v => some (src (f * P + x % P + (v - x)))) (Set.Ico x (x + n))
      (view P fs m) (view P fs m') := by
  have hx := Nat.div_add_mod x P
  constructor
  · rintro v ⟨h1, h2⟩
    have hpage : v / P = x / P := by
      apply Nat.div_eq_of_lt_le
      · rw [Nat.mul_comm]; omega
      · rw [Nat.add_mul, Nat.mul_comm (x / P)]; omega
    have hv := Nat.div_add_mod v P
    rw [hpage] at hv
    have hplace : f * P + v % P = f * P + x % P + (v - x) := by omega
    rw [view, hpage, hf, Option.map_some, hplace, h.inside _ ⟨by omega, by omega⟩]
  · intro v hv
    unfold view
    cases hg : fs[v / P]? with
    | none => rfl
    | some g =>
      rw [Option.map_some, Option.map_some, h.outside]
      rintro ⟨h1, h2⟩
      have hmod : v % P < P := Nat.mod_lt v hP
      have hgf : g = f := by
        have h3 : (g * P + v % P) / P = f := by
          apply Nat.div_eq_of_lt_le
          · omega
          · rw [Nat.add_mul]; omega
        rw [← h3, block_div hP g hmod]
      subst hgf
      -- distinct places of the list hold distinct blocks
      have hpage : v / P = x / P :=
        (List.getElem?_inj (List.getElem?_eq_some_iff.1 hg).1 hnd).1 (by rw [hg, hf])
      have hvd := Nat.div_add_mod v P
      rw [hpage] at hvd
      apply hv
      constructor
      · omega
      · omega

/-- A whole block. -/
theorem view_overlay_block (hP : 0 < P) (hnd : fs.Nodup) {i f : Nat} (hf : fs[i]? = some f)
    {src : Nat → β} (h : Overlay src (Set.Ico (f * P) (f * P + P)) m m') :
    Overlay (fun v => some (src (f * P + (v - i * P)))) (Set.Ico (i * P) (i * P + P))
      (view P fs m) (view P fs m') := by
  have hdiv : i * P / P = i := Nat.mul_div_cancel i hP
  have hmod : i * P % P = 0 := Nat.mul_mod_left i P
  have hphys : f * P + i * P % P = f * P := by rw [hmod, Nat.add_zero]
  have hover := view_overlay (x := i * P) (n := P) hP hnd (by rw [hdiv]; exact hf) (by omega)
    (by rw [hphys]; exact h)
  rw [hphys] at hover
  exact hover

end Paged
