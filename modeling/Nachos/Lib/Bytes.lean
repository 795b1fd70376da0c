import Mathlib.Data.List.Basic
import Mathlib.Order.Interval.Set.LinearOrder

/-!
# Bytes, little-endian words and block copies

A word as its four bytes, least significant first, and `blit`, the effect of copying a list of
values into a memory at some address.

* `word_byte`, `byte_word` — splitting a word and putting it together are inverse.
* `wordsAt_ofWords` — words laid out in memory are read back.
* `blit_apply_of_mem`, `blit_apply_of_not_mem` — a copy changes the range it covers, and only it.
* `Overlay.trans` — a copy made piece by piece.
-/

set_option autoImplicit false

namespace Bytes

/-- Byte `i` of a word. -/
def byte (w : BitVec 32) (i : Nat) : BitVec 8 := w.extractLsb' (8 * i) 8

/-- The word with these bytes, least significant first. -/
def word (b0 b1 b2 b3 : BitVec 8) : BitVec 32 := b3 ++ b2 ++ b1 ++ b0

theorem word_byte (w : BitVec 32) : word (byte w 0) (byte w 1) (byte w 2) (byte w 3) = w := by
  apply BitVec.eq_of_getLsbD_eq
  intro i hi
  simp only [word, byte, BitVec.getLsbD_append, BitVec.getLsbD_extractLsb']
  grind

/-- The word at address `a` of a memory. -/
def wordAt (m : Nat → BitVec 8) (a : Nat) : BitVec 32 := word (m a) (m (a + 1)) (m (a + 2)) (m (a + 3))

/-- Words laid out one after the other. -/
def ofWords (ws : List (BitVec 32)) : Nat → BitVec 8 := fun a => byte (ws.getD (a / 4) 0) (a % 4)

/-- The `n` words from address `a` on. -/
def wordsAt (m : Nat → BitVec 8) (a n : Nat) : List (BitVec 32) :=
  (List.range n).map (fun i => wordAt m (a + 4 * i))

theorem wordAt_congr {m m' : Nat → BitVec 8} {a a' : Nat} (h : ∀ k < 4, m (a + k) = m' (a' + k)) :
    wordAt m a = wordAt m' a' := by
  have h0 := h 0 (by decide)
  simp only [Nat.add_zero] at h0
  rw [wordAt, wordAt, h0, h 1 (by decide), h 2 (by decide), h 3 (by decide)]

theorem wordAt_ofWords (ws : List (BitVec 32)) (i : Nat) : wordAt (ofWords ws) (4 * i) = ws.getD i 0 := by
  have hdiv : ∀ k < 4, (4 * i + k) / 4 = i := by omega
  have hmod : ∀ k < 4, (4 * i + k) % 4 = k := by omega
  have h0 := hdiv 0 (by decide)
  have m0 := hmod 0 (by decide)
  simp only [Nat.add_zero] at h0 m0
  simp only [wordAt, ofWords, h0, m0, hdiv 1 (by decide), hdiv 2 (by decide), hdiv 3 (by decide),
    hmod 1 (by decide), hmod 2 (by decide), hmod 3 (by decide)]
  exact word_byte _

/-- Words read back from where they were laid out. -/
theorem wordsAt_ofWords {m : Nat → BitVec 8} {a : Nat} {ws : List (BitVec 32)}
    (h : ∀ k < 4 * ws.length, m (a + k) = ofWords ws k) : wordsAt m a ws.length = ws := by
  apply List.ext_getElem
  · simp [wordsAt]
  · intro i h1 h2
    have hword : wordAt m (a + 4 * i) = wordAt (ofWords ws) (4 * i) := by
      apply wordAt_congr
      intro k hk
      rw [Nat.add_assoc]
      exact h _ (by omega)
    simp only [wordsAt, List.getElem_map, List.getElem_range]
    rw [hword, wordAt_ofWords, List.getD_eq_getElem?_getD, List.getElem?_eq_getElem h2, Option.getD_some]

variable {β : Type}

/-- Copy `n` values, from address `i` of `src` to address `j` of `dst`. -/
def copy (src : Nat → β) (i : Nat) (dst : Nat → β) (j n : Nat) : Nat → β :=
  fun a => if j ≤ a ∧ a < j + n then src (i + (a - j)) else dst a

theorem copy_of_mem (src : Nat → β) (i : Nat) (dst : Nat → β) {j n a : Nat} (h1 : j ≤ a) (h2 : a < j + n) :
    copy src i dst j n a = src (i + (a - j)) :=
  if_pos ⟨h1, h2⟩

theorem copy_of_not_mem (src : Nat → β) (i : Nat) (dst : Nat → β) {j n a : Nat} (h : ¬ (j ≤ a ∧ a < j + n)) :
    copy src i dst j n a = dst a :=
  if_neg h

/-- Copy `l` to the addresses from `start` on. -/
def blit (m : Nat → β) (start : Int) (l : List β) : Nat → β :=
  fun a => if start ≤ a then l.getD ((a : Int) - start).toNat (m a) else m a

theorem blit_apply (m : Nat → β) (start : Nat) (l : List β) (a : Nat) :
    blit m start l a = if start ≤ a then l.getD (a - start) (m a) else m a := by
  unfold blit
  by_cases h : start ≤ a
  · rw [if_pos (by omega), if_pos h]
    congr 1
    omega
  · rw [if_neg (by omega), if_neg h]

theorem blit_apply_of_mem (m : Nat → β) {start a : Nat} {l : List β} (h1 : start ≤ a)
    (h2 : a < start + l.length) : blit m start l a = l[a - start] := by
  rw [blit_apply, if_pos h1, List.getD_eq_getElem?_getD, List.getElem?_eq_getElem, Option.getD_some]

theorem blit_apply_of_not_mem (m : Nat → β) {start a : Nat} {l : List β}
    (h : ¬ (start ≤ a ∧ a < start + l.length)) : blit m start l a = m a := by
  rw [blit_apply]
  split
  · rw [List.getD_eq_getElem?_getD, List.getElem?_eq_none (by omega), Option.getD_none]
  · rfl

/-! ## Overlays -/

/-- `g` is `f` with the values of `src` on `S`. -/
structure Overlay (src : Nat → β) (S : Set Nat) (f g : Nat → β) : Prop where
  inside : ∀ v ∈ S, g v = src v
  outside : ∀ v, v ∉ S → g v = f v

variable {src f g h : Nat → β} {S T : Set Nat}

theorem Overlay.refl : Overlay src ∅ f f := ⟨fun _ hv => hv.elim, fun _ _ => rfl⟩

/-- Pieces of one source may be copied in any order. -/
theorem Overlay.trans (h1 : Overlay src S f g) (h2 : Overlay src T g h) :
    Overlay src (S ∪ T) f h := by
  constructor
  · intro v hv
    by_cases hT : v ∈ T
    · exact h2.inside v hT
    · rw [h2.outside v hT]
      exact h1.inside v (hv.resolve_right hT)
  · intro v hv
    rw [h2.outside v (fun hT => hv (Or.inr hT))]
    exact h1.outside v (fun hS => hv (Or.inl hS))

theorem overlay_copy (src : Nat → β) (i : Nat) (dst : Nat → β) (j n : Nat) :
    Overlay (fun a => src (i + (a - j))) (Set.Ico j (j + n)) dst (copy src i dst j n) :=
  ⟨fun _ hv => if_pos hv, fun _ hv => if_neg hv⟩

theorem overlay_blit (m : Nat → β) (start : Nat) (l : List β) (d : β) :
    Overlay (fun a => l.getD (a - start) d) (Set.Ico start (start + l.length)) m (blit m start l) := by
  constructor
  · rintro v ⟨h1, h2⟩
    rw [blit_apply_of_mem m h1 h2, List.getD_eq_getElem?_getD, List.getElem?_eq_getElem, Option.getD_some]
  · intro v hv
    exact blit_apply_of_not_mem m hv

/-- The same copy over bases that agree at `v`. -/
theorem Overlay.agree {f' g' : Nat → β} (h1 : Overlay src S f g) (h2 : Overlay src S f' g') {v : Nat}
    (hbase : f v = f' v) : g v = g' v := by
  by_cases hv : v ∈ S
  · rw [h1.inside v hv, h2.inside v hv]
  · rw [h1.outside v hv, h2.outside v hv, hbase]

end Bytes
