import Mathlib.Data.Finset.Card
import Mathlib.Data.Finset.Range
import Nachos.Machine.Machine

/-!
# Bitmaps

`userprog/bitmap.cc`: an array of bits kept in an array of unsigned words.  The structure
carries the length of its storage.  `setBit`, `clearBit` and `bit` are the bodies of `Mark`,
`Clear` and `Test`; `mark`, `clear` and `test` put their `ASSERT` in front, `none` being an
abort.  `Find` and `NumClear` only use indices that pass it.

* `bit_setBit`, `bit_clearBit` — the word operations change one bit, bit 31 of a word included.
* `find_spec` — `Find` marks the first clear bit, or there is none.
-/

set_option autoImplicit false

namespace Nachos

def BitsInWord : Nat := 32

/-- `divRoundUp` of `threads/utility.h`. -/
def divRoundUp (n s : Nat) : Nat := n / s + if n % s > 0 then 1 else 0

theorem lt_divRoundUp {i n s : Nat} (hs : 0 < s) (h : i < n) : i / s < divRoundUp n s := by
  have h1 := Nat.div_add_mod n s
  have h2 := Nat.mod_lt n hs
  rw [divRoundUp, Nat.div_lt_iff_lt_mul hs, Nat.add_mul, Nat.mul_comm (n / s)]
  split
  · omega
  · omega

theorem le_divRoundUp_mul (n : Nat) {s : Nat} (hs : 0 < s) : n ≤ divRoundUp n s * s := by
  have h1 := Nat.div_add_mod n s
  have h2 := Nat.mod_lt n hs
  rw [divRoundUp, Nat.add_mul, Nat.mul_comm (n / s)]
  split
  · omega
  · omega

theorem divRoundUp_le {n s k : Nat} (h : n ≤ k * s) : divRoundUp n s ≤ k := by
  have h1 := Nat.div_add_mod n s
  have hle : n / s ≤ k := Nat.div_le_of_le_mul (by rwa [Nat.mul_comm])
  rw [divRoundUp]
  split
  · have hne : n / s ≠ k := by
      intro heq
      rw [heq, Nat.mul_comm] at h1
      omega
    omega
  · omega

/-- The words of a bitmap of the frames. -/
theorem length_replicate_words : (List.replicate 4 (0 : Word)).length = divRoundUp NumPhysPages BitsInWord := rfl

/-- `class BitMap`. -/
structure BitMap where
  numBits : Nat
  map : List Word
  numWords : map.length = divRoundUp numBits BitsInWord
  deriving DecidableEq

namespace BitMap

/-- `1 << (which % BitsInWord)`. -/
def mask (which : Nat) : Word := 1#32 <<< (which % BitsInWord)

/-- `map[which / BitsInWord]`. -/
def word (b : BitMap) (which : Nat) : Word := b.map.getD (which / BitsInWord) 0

def setWord (b : BitMap) (which : Nat) (w : Word) : BitMap where
  numBits := b.numBits
  map := b.map.set (which / BitsInWord) w
  numWords := by rw [List.length_set]; exact b.numWords

/-- The body of `Mark`. -/
def setBit (b : BitMap) (which : Nat) : BitMap := b.setWord which (b.word which ||| mask which)

/-- The body of `Clear`. -/
def clearBit (b : BitMap) (which : Nat) : BitMap := b.setWord which (b.word which &&& ~~~ mask which)

/-- The body of `Test`. -/
def bit (b : BitMap) (which : Nat) : Bool := b.word which &&& mask which != 0

/-- `ASSERT(which >= 0 && which < numBits)`. -/
def inRange (b : BitMap) (which : Int) : Bool := 0 ≤ which && which < b.numBits

theorem inRange_iff {b : BitMap} {which : Int} : b.inRange which = true ↔ 0 ≤ which ∧ which < b.numBits := by
  unfold inRange
  rw [Bool.and_eq_true, decide_eq_true_eq, decide_eq_true_eq]

def mark (b : BitMap) (which : Int) : Option BitMap :=
  if b.inRange which then some (b.setBit which.toNat) else none

def clear (b : BitMap) (which : Int) : Option BitMap :=
  if b.inRange which then some (b.clearBit which.toNat) else none

def test (b : BitMap) (which : Int) : Option Bool :=
  if b.inRange which then some (b.bit which.toNat) else none

/-- `BitMap::Find`; `none` is -1. -/
def find (b : BitMap) : Option Nat × BitMap :=
  match (List.range b.numBits).find? (fun i => !b.bit i) with
  | some i => (some i, b.setBit i)
  | none => (none, b)

/-- `BitMap::NumClear`. -/
def numClear (b : BitMap) : Nat := (List.range b.numBits).countP (fun i => !b.bit i)

/-- `BitMap::BitMap(nitems)`, over storage that holds anything. -/
def init (nitems : Nat) (junk : List Word) (h : junk.length = divRoundUp nitems BitsInWord) :
    BitMap :=
  (List.range nitems).foldl clearBit ⟨nitems, junk, h⟩

/-! ## One bit -/

theorem mask_getLsbD (which j : Nat) :
    (mask which).getLsbD j = decide (j < 32 ∧ j = which % BitsInWord) := by
  have hlt : which % BitsInWord < 32 := Nat.mod_lt _ (by decide)
  simp only [mask, BitVec.getLsbD_shiftLeft, BitVec.getLsbD_one]
  grind

theorem bit_eq_getLsbD (b : BitMap) (which : Nat) :
    b.bit which = (b.word which).getLsbD (which % BitsInWord) := by
  have hlt : which % BitsInWord < 32 := Nat.mod_lt _ (by decide)
  rw [bit, Bool.eq_iff_iff, bne_iff_ne]
  constructor
  · intro hne
    by_contra hbit
    apply hne
    apply BitVec.eq_of_getLsbD_eq
    intro j hj
    rw [BitVec.getLsbD_and, mask_getLsbD]
    grind
  · intro hbit heq
    have h0 := congrArg (fun w : Word => w.getLsbD (which % BitsInWord)) heq
    simp only [BitVec.getLsbD_and, mask_getLsbD, hbit] at h0
    grind

theorem word_setWord {b : BitMap} {which : Nat} (h : which < b.numBits) (w : Word) (j : Nat) :
    (b.setWord which w).word j = if j / BitsInWord = which / BitsInWord then w else b.word j := by
  have hlen : which / BitsInWord < b.map.length := by
    rw [b.numWords]
    exact lt_divRoundUp (by decide) h
  simp only [word, setWord, List.getD_eq_getElem?_getD, List.getElem?_set]
  grind

/-- Two bit numbers in the same word at the same offset are the same. -/
theorem eq_of_div_mod {i j : Nat} (hd : j / BitsInWord = i / BitsInWord)
    (hm : j % BitsInWord = i % BitsInWord) : j = i := by
  have h1 := Nat.div_add_mod i BitsInWord
  have h2 := Nat.div_add_mod j BitsInWord
  rw [hd, hm] at h2
  omega

@[simp] theorem numBits_setBit (b : BitMap) (i : Nat) : (b.setBit i).numBits = b.numBits := rfl

@[simp] theorem numBits_clearBit (b : BitMap) (i : Nat) : (b.clearBit i).numBits = b.numBits := rfl

/-- **`Mark` sets the bit it is given and no other.** -/
theorem bit_setBit {b : BitMap} {i : Nat} (h : i < b.numBits) (j : Nat) :
    (b.setBit i).bit j = if j = i then true else b.bit j := by
  have hj : j % BitsInWord < 32 := Nat.mod_lt _ (by decide)
  rw [bit_eq_getLsbD, bit_eq_getLsbD, setBit, word_setWord h]
  by_cases hw : j / BitsInWord = i / BitsInWord
  · rw [if_pos hw, BitVec.getLsbD_or, mask_getLsbD]
    have hword : b.word i = b.word j := by rw [word, word, hw]
    by_cases hm : j % BitsInWord = i % BitsInWord
    · rw [if_pos (eq_of_div_mod hw hm)]
      simp [hm ▸ hj, hm]
    · have hne : j ≠ i := fun he => hm (by rw [he])
      simp [hne, hm, hword]
  · have hne : j ≠ i := fun he => hw (by rw [he])
    rw [if_neg hw, if_neg hne]

/-- **`Clear` clears the bit it is given and no other.** -/
theorem bit_clearBit {b : BitMap} {i : Nat} (h : i < b.numBits) (j : Nat) :
    (b.clearBit i).bit j = if j = i then false else b.bit j := by
  have hj : j % BitsInWord < 32 := Nat.mod_lt _ (by decide)
  rw [bit_eq_getLsbD, bit_eq_getLsbD, clearBit, word_setWord h]
  by_cases hw : j / BitsInWord = i / BitsInWord
  · rw [if_pos hw, BitVec.getLsbD_and, BitVec.getLsbD_not, mask_getLsbD]
    have hword : b.word i = b.word j := by rw [word, word, hw]
    by_cases hm : j % BitsInWord = i % BitsInWord
    · rw [if_pos (eq_of_div_mod hw hm)]
      simp [hm ▸ hj, hm]
    · have hne : j ≠ i := fun he => hm (by rw [he])
      simp [hne, hm, hword, hj]
  · have hne : j ≠ i := fun he => hw (by rw [he])
    rw [if_neg hw, if_neg hne]

/-- `Clear` undoes the `Mark` of a bit that was clear. -/
theorem clearBit_setBit {b : BitMap} {i : Nat} (h : i < b.numBits) (hbit : b.bit i = false) :
    (b.setBit i).clearBit i = b := by
  have hlen : i / BitsInWord < b.map.length := by
    rw [b.numWords]
    exact lt_divRoundUp (by decide) h
  have hword : b.word i = b.map[i / BitsInWord] := by
    rw [word, List.getD_eq_getElem?_getD, List.getElem?_eq_getElem hlen, Option.getD_some]
  have hclear : (b.word i ||| mask i) &&& ~~~ mask i = b.word i := by
    apply BitVec.eq_of_getLsbD_eq
    intro j hj
    rw [bit_eq_getLsbD] at hbit
    rw [BitVec.getLsbD_and, BitVec.getLsbD_or, BitVec.getLsbD_not, mask_getLsbD]
    by_cases hji : j = i % BitsInWord
    · rw [hji, hbit]
      simp
    · simp [hji, hj]
  have hmap : ((b.setBit i).clearBit i).map = b.map := by
    show ((b.setBit i).map.set _ ((b.setBit i).word i &&& ~~~ mask i)) = b.map
    rw [setBit, word_setWord h, if_pos rfl, hclear]
    show (b.map.set _ _).set _ _ = b.map
    rw [List.set_set, hword, List.set_getElem_self]
  obtain ⟨numBits, map, numWords⟩ := b
  simp only [setBit, clearBit, setWord, mk.injEq, true_and] at hmap ⊢
  exact hmap

/-! ## Whole maps -/

theorem numBits_foldl_clearBit (l : List Nat) (b : BitMap) :
    (l.foldl clearBit b).numBits = b.numBits := by
  induction l generalizing b with
  | nil => rfl
  | cons i l ih => rw [List.foldl_cons, ih, numBits_clearBit]

theorem bit_foldl_clearBit {l : List Nat} {b : BitMap} (h : ∀ i ∈ l, i < b.numBits) (j : Nat) :
    (l.foldl clearBit b).bit j = if j ∈ l then false else b.bit j := by
  induction l generalizing b with
  | nil => simp
  | cons i l ih =>
    have htail : ∀ k ∈ l, k < (b.clearBit i).numBits := fun k hk => h k (List.mem_cons_of_mem i hk)
    rw [List.foldl_cons, ih htail, bit_clearBit (h i List.mem_cons_self)]
    grind

theorem numBits_init (n : Nat) (junk : List Word) (h : junk.length = divRoundUp n BitsInWord) :
    (init n junk h).numBits = n :=
  numBits_foldl_clearBit _ _

/-- A new bitmap is clear, whatever its storage held. -/
theorem bit_init (n : Nat) (junk : List Word) (h : junk.length = divRoundUp n BitsInWord) {j : Nat}
    (hj : j < n) : (init n junk h).bit j = false := by
  rw [init, bit_foldl_clearBit (by simp), if_pos (by simpa using hj)]

/-- **`Find`** returns the first clear bit and marks it, or there is none. -/
theorem find_spec (b : BitMap) :
    (∃ i, b.find = (some i, b.setBit i) ∧ i < b.numBits ∧ b.bit i = false ∧
      ∀ j < i, b.bit j = true) ∨
    (b.find = (none, b) ∧ ∀ j < b.numBits, b.bit j = true) := by
  unfold find
  cases hf : (List.range b.numBits).find? (fun i => !b.bit i) with
  | some i =>
    left
    have hbit := List.find?_some hf
    have hmem := List.mem_of_find?_eq_some hf
    rw [List.mem_range] at hmem
    refine ⟨i, rfl, hmem, by simpa using hbit, ?_⟩
    intro j hj
    have := List.find?_range_eq_some.1 hf
    simpa using this.2.2 j hj
  | none =>
    right
    rw [List.find?_eq_none] at hf
    exact ⟨rfl, fun j hj => by simpa using hf j (List.mem_range.2 hj)⟩

theorem numClear_le (b : BitMap) : b.numClear ≤ b.numBits := by
  have := List.countP_le_length (p := fun i => !b.bit i) (l := List.range b.numBits)
  rwa [List.length_range] at this

theorem numClear_pos {b : BitMap} : 0 < b.numClear ↔ ∃ i < b.numBits, b.bit i = false := by
  rw [numClear, List.countP_pos_iff]
  simp

/-- All bits are clear exactly when `NumClear` counts them all. -/
theorem numClear_eq_numBits {b : BitMap} :
    b.numClear = b.numBits ↔ ∀ i < b.numBits, b.bit i = false := by
  have hlen : b.numBits = (List.range b.numBits).length := by simp
  rw [numClear]
  nth_rewrite 2 [hlen]
  rw [List.countP_eq_length]
  simp

/-- The clear bits, as a set. -/
def clearSet (b : BitMap) : Finset Nat := (Finset.range b.numBits).filter (fun i => b.bit i = false)

theorem mem_clearSet {b : BitMap} {i : Nat} :
    i ∈ b.clearSet ↔ i < b.numBits ∧ b.bit i = false := by
  simp [clearSet]

theorem numClear_eq_card (b : BitMap) : b.numClear = b.clearSet.card := by
  rw [numClear, clearSet, List.countP_eq_length_filter]
  have hset : (Finset.range b.numBits).filter (fun i => b.bit i = false) =
      ((List.range b.numBits).filter (fun i => !b.bit i)).toFinset := by
    ext i
    simp
  rw [hset, List.toFinset_card_of_nodup (List.nodup_range.filter _)]

theorem clearSet_setBit {b : BitMap} {i : Nat} (h : i < b.numBits) :
    (b.setBit i).clearSet = b.clearSet.erase i := by
  ext j
  rw [Finset.mem_erase, mem_clearSet, mem_clearSet, numBits_setBit, bit_setBit h]
  by_cases hj : j = i
  · simp [hj]
  · simp [hj]

/-- Marking a clear bit leaves one clear bit fewer. -/
theorem numClear_setBit {b : BitMap} {i : Nat} (h : i < b.numBits) (hbit : b.bit i = false) :
    (b.setBit i).numClear + 1 = b.numClear := by
  rw [numClear_eq_card, numClear_eq_card, clearSet_setBit h]
  exact Finset.card_erase_add_one (mem_clearSet.2 ⟨h, hbit⟩)

/-- `Find` succeeds while a bit is clear. -/
theorem find_of_numClear_pos {b : BitMap} (h : 0 < b.numClear) :
    ∃ i, b.find = (some i, b.setBit i) ∧ i < b.numBits ∧ b.bit i = false := by
  rcases b.find_spec with ⟨i, hf, hi, hbit, -⟩ | ⟨-, hall⟩
  · exact ⟨i, hf, hi, hbit⟩
  · obtain ⟨i, hi, hbit⟩ := numClear_pos.1 h
    rw [hall i hi] at hbit
    cases hbit

/-- `b'` is `b` after calls of `Find` that returned `l`. -/
structure Taken (b : BitMap) (l : List Nat) (b' : BitMap) : Prop where
  nodup : l.Nodup
  free : ∀ i ∈ l, i < b.numBits ∧ b.bit i = false
  numBits : b'.numBits = b.numBits
  bits : ∀ j, b'.bit j = if j ∈ l then true else b.bit j

theorem Taken.nil (b : BitMap) : Taken b [] b := ⟨List.nodup_nil, by simp, rfl, by simp⟩

theorem Taken.cons {b b' : BitMap} {i : Nat} {l : List Nat} (hi : i < b.numBits) (hbit : b.bit i = false)
    (h : Taken (b.setBit i) l b') : Taken b (i :: l) b' := by
  have hnot : i ∉ l := by
    intro hmem
    have := (h.free i hmem).2
    rw [bit_setBit hi, if_pos rfl] at this
    cases this
  refine ⟨List.nodup_cons.2 ⟨hnot, h.nodup⟩, ?_, h.numBits, ?_⟩
  · intro g hg
    rcases List.mem_cons.1 hg with rfl | hg'
    · exact ⟨hi, hbit⟩
    · obtain ⟨h1, h2⟩ := h.free g hg'
      have hne : g ≠ i := by
        rintro rfl
        exact hnot hg'
      rw [bit_setBit hi, if_neg hne] at h2
      exact ⟨h1, h2⟩
  · intro j
    rw [h.bits j, bit_setBit hi]
    by_cases hj : j = i
    · simp [hj]
    · simp [hj]

theorem Taken.append {b b' b'' : BitMap} {l l' : List Nat} (h : Taken b l b') (h' : Taken b' l' b'') :
    Taken b (l ++ l') b'' := by
  have hdisj : ∀ i ∈ l', i ∉ l := by
    intro i hi hmem
    have := (h'.free i hi).2
    rw [h.bits, if_pos hmem] at this
    cases this
  refine ⟨List.nodup_append.2 ⟨h.nodup, h'.nodup, ?_⟩, ?_, h'.numBits.trans h.numBits, ?_⟩
  · rintro i hi j hj rfl
    exact hdisj i hj hi
  · intro i hi
    rcases List.mem_append.1 hi with hi | hi
    · exact h.free i hi
    · obtain ⟨h1, h2⟩ := h'.free i hi
      rw [h.numBits] at h1
      rw [h.bits, if_neg (hdisj i hi)] at h2
      exact ⟨h1, h2⟩
  · intro j
    rw [h'.bits, h.bits]
    by_cases hj : j ∈ l
    · simp [hj]
    · simp [hj]

theorem Taken.numClear {b b' : BitMap} {l : List Nat} (h : Taken b l b') :
    b'.numClear + l.length = b.numClear := by
  have hset : b'.clearSet = b.clearSet \ l.toFinset := by
    ext j
    rw [Finset.mem_sdiff, mem_clearSet, mem_clearSet, List.mem_toFinset, h.numBits, h.bits]
    by_cases hj : j ∈ l
    · simp [hj]
    · simp [hj]
  have hsub : l.toFinset ⊆ b.clearSet := by
    intro j hj
    exact mem_clearSet.2 (h.free j (List.mem_toFinset.1 hj))
  rw [numClear_eq_card, numClear_eq_card, hset, ← List.toFinset_card_of_nodup h.nodup]
  exact Finset.card_sdiff_add_card_eq_card hsub

end BitMap

end Nachos
