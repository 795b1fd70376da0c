import Mathlib.Tactic.SplitIfs
import Nachos.Lib.CString
import Nachos.Machine.Machine

/-!
# Copying between user and kernel memory

`User2System` and `System2User` of `userprog/exception.cc`, over any machine `κ` with a `ReadMem`
and a `WriteMem` of one byte.  Where these raise an exception the kernel halts: `none`.

Both stop at a zero byte.

* `user2System_spec` — the kernel buffer holds the string, padded with zeros.
* `MemoryLaws` — what a byte-wise memory is, and on top of it `user2System_view` and
  `system2User_spec`: the bytes up to the first zero are written, that one included.
-/

set_option autoImplicit false

namespace Nachos

open CString

section Copy

variable {κ : Type} (readMem : κ → Word → Option (Byte × κ)) (writeMem : κ → Word → Byte → Option κ)

/-- The loop of `User2System`, from `i` on, for `n` more bytes. -/
def user2SystemFrom (virtAddr : Word) : κ → (Nat → Byte) → Nat → Nat → Option ((Nat → Byte) × κ)
  | k, kernelBuf, _, 0 => some (kernelBuf, k)
  | k, kernelBuf, i, n + 1 => do
      let (oneChar, k) ← readMem k (virtAddr + BitVec.ofNat 32 i)
      let kernelBuf := Function.update kernelBuf i oneChar
      if oneChar = 0 then some (kernelBuf, k) else user2SystemFrom virtAddr k kernelBuf (i + 1) n

/-- `User2System`. -/
def user2System (k : κ) (virtAddr : Word) (limit : Nat) : Option ((Nat → Byte) × κ) :=
  user2SystemFrom readMem virtAddr k (fun _ => 0) 0 limit

/-- The loop of `System2User`, from `i` on, for `n` more bytes. -/
def system2UserFrom (virtAddr : Word) (buffer : Nat → Byte) : κ → Nat → Nat → Option (Nat × κ)
  | k, i, 0 => some (i, k)
  | k, i, n + 1 => do
      let k ← writeMem k (virtAddr + BitVec.ofNat 32 i) (buffer i)
      if buffer i ≠ 0 then system2UserFrom virtAddr buffer k (i + 1) n else some (i + 1, k)

/-- `System2User`. -/
def system2User (k : κ) (virtAddr : Word) (len : Int) (buffer : Nat → Byte) : Option (Int × κ) :=
  if len < 0 then some (-1, k)
  else (system2UserFrom writeMem virtAddr buffer k 0 len.toNat).map (fun r => ((r.1 : Int), r.2))

variable {readMem writeMem} {virtAddr : Word}

/-- The bytes in front of the next one are in `l`; the rest of the buffer is zero. -/
theorem user2SystemFrom_spec {I : κ → Prop} {m : Nat → Byte} (limit : Nat)
    (hread : ∀ k i, I k → i < limit → (∀ j < i, m j ≠ 0) →
      ∃ k', readMem k (virtAddr + BitVec.ofNat 32 i) = some (m i, k') ∧ I k') :
    ∀ (n : Nat) (k : κ) (l : List Byte), l.length + n = limit → (∀ j < l.length, m j ≠ 0) → I k →
      ∃ k', user2SystemFrom readMem virtAddr k (padded l) l.length n = some (padded (l ++ str m l.length n), k') ∧
        I k' := by
  intro n
  induction n with
  | zero =>
    intro k l _ _ hk
    exact ⟨k, by simp [user2SystemFrom, str], hk⟩
  | succ n ih =>
    intro k l hlen hnz hk
    obtain ⟨k1, hk1, hI1⟩ := hread k l.length hk (by omega) hnz
    rw [user2SystemFrom, hk1, str]
    simp only [Option.bind_eq_bind, Option.bind_some, update_padded]
    by_cases hz : m l.length = 0
    · rw [if_pos hz, if_pos hz, hz, padded_append_zero, List.append_nil]
      exact ⟨k1, rfl, hI1⟩
    · rw [if_neg hz, if_neg hz]
      have hlen' : (l ++ [m l.length]).length = l.length + 1 := by simp
      have hnz' : ∀ j < (l ++ [m l.length]).length, m j ≠ 0 := by
        intro j hj
        rw [hlen'] at hj
        rcases Nat.lt_or_ge j l.length with hlt | hge
        · exact hnz j hlt
        · rw [show j = l.length by omega]
          exact hz
      have hih := ih k1 (l ++ [m l.length]) (by omega) hnz' hI1
      rw [hlen', List.append_assoc] at hih
      exact hih

/-- **`User2System`**, when the string can be read. -/
theorem user2System_spec {I : κ → Prop} {m : Nat → Byte} {limit : Nat} {k : κ}
    (hread : ∀ k i, I k → i < limit → (∀ j < i, m j ≠ 0) →
      ∃ k', readMem k (virtAddr + BitVec.ofNat 32 i) = some (m i, k') ∧ I k') (hk : I k) :
    ∃ k', user2System readMem k virtAddr limit = some (padded (str m 0 limit), k') ∧ I k' :=
  user2SystemFrom_spec limit hread limit k [] (by simp) (by simp) hk

/-- What a read keeps, `User2System` keeps. -/
theorem user2SystemFrom_keeps {J : κ → Prop} (hread : ∀ k a b k', J k → readMem k a = some (b, k') → J k') :
    ∀ (n i : Nat) (k k' : κ) (buf buf' : Nat → Byte), J k →
      user2SystemFrom readMem virtAddr k buf i n = some (buf', k') → J k' := by
  intro n
  induction n with
  | zero =>
    intro i k k' buf buf' hk h
    cases h
    exact hk
  | succ n ih =>
    intro i k k' buf buf' hk h
    rw [user2SystemFrom] at h
    obtain ⟨⟨c, k1⟩, hk1, h⟩ := Option.bind_eq_some_iff.1 h
    have hJ1 := hread k _ c k1 hk hk1
    simp only at h
    split at h
    · cases h
      exact hJ1
    · exact ih (i + 1) k1 k' _ buf' hJ1 h

/-- What `User2System` comes back with, when the reads show the bytes `m`. -/
theorem user2SystemFrom_some {J : κ → Prop} {m : Nat → Byte}
    (hread : ∀ k i b k', J k → readMem k (virtAddr + BitVec.ofNat 32 i) = some (b, k') → b = m i ∧ J k') :
    ∀ (n : Nat) (k k' : κ) (l : List Byte) (buf : Nat → Byte), J k →
      user2SystemFrom readMem virtAddr k (padded l) l.length n = some (buf, k') →
      buf = padded (l ++ str m l.length n) ∧ J k' := by
  intro n
  induction n with
  | zero =>
    intro k k' l buf hk h
    cases h
    exact ⟨by rw [str, List.append_nil], hk⟩
  | succ n ih =>
    intro k k' l buf hk h
    rw [user2SystemFrom] at h
    obtain ⟨⟨c, k1⟩, hk1, h⟩ := Option.bind_eq_some_iff.1 h
    obtain ⟨rfl, hJ1⟩ := hread k _ c k1 hk hk1
    simp only [update_padded] at h
    rw [str]
    split at h
    · rename_i hz
      cases h
      rw [if_pos hz, hz, padded_append_zero, List.append_nil]
      exact ⟨rfl, hJ1⟩
    · rename_i hz
      have hlen : (l ++ [m l.length]).length = l.length + 1 := by rw [List.length_append, List.length_singleton]
      rw [← hlen] at h
      rw [if_neg hz, List.append_cons, ← hlen]
      exact ih k1 k' _ buf hJ1 h

/-- What a write keeps, `System2User` keeps. -/
theorem system2UserFrom_keeps {J : κ → Prop} (hwrite : ∀ k a b k', J k → writeMem k a b = some k' → J k')
    {buffer : Nat → Byte} : ∀ (n i m : Nat) (k k' : κ), J k →
      system2UserFrom writeMem virtAddr buffer k i n = some (m, k') → J k' := by
  intro n
  induction n with
  | zero =>
    intro i m k k' hk h
    cases h
    exact hk
  | succ n ih =>
    intro i m k k' hk h
    rw [system2UserFrom] at h
    obtain ⟨k1, hk1, h⟩ := Option.bind_eq_some_iff.1 h
    have hJ1 := hwrite k _ _ k1 hk hk1
    split at h
    · exact ih (i + 1) m k1 k' hJ1 h
    · cases h
      exact hJ1

/-! ## Writing, with a view of what can be read -/

/-- `ReadMem` and `WriteMem` of one byte, on the states in `I`, work on `view`. -/
structure MemoryLaws (readMem : κ → Word → Option (Byte × κ)) (writeMem : κ → Word → Byte → Option κ)
    (I : κ → Prop) (view : κ → Word → Option Byte) (writable : κ → Word → Prop) : Prop where
  read_some : ∀ k a b, I k → view k a = some b →
    ∃ k', readMem k a = some (b, k') ∧ I k' ∧ view k' = view k ∧ writable k' = writable k
  write_some : ∀ k a b, I k → writable k a →
    ∃ k', writeMem k a b = some k' ∧ I k' ∧ view k' = Function.update (view k) a (some b) ∧
      writable k' = writable k
  write_none : ∀ k a b, I k → ¬ writable k a → writeMem k a b = none

/-- How many of the next `n` bytes `System2User` writes. -/
def sent (buffer : Nat → Byte) : Nat → Nat → Nat
  | _, 0 => 0
  | i, n + 1 => if buffer i ≠ 0 then sent buffer (i + 1) n + 1 else 1

theorem sent_le (buffer : Nat → Byte) (i n : Nat) : sent buffer i n ≤ n := by
  induction n generalizing i with
  | zero => exact Nat.le_refl 0
  | succ n ih =>
    rw [sent]
    split
    · exact Nat.succ_le_succ (ih (i + 1))
    · omega

/-- All of `n + 1` bytes are written if there is no zero in front of the last one. -/
theorem sent_succ_eq_iff (buffer : Nat → Byte) (i n : Nat) :
    sent buffer i (n + 1) = n + 1 ↔ ∀ j < n, buffer (i + j) ≠ 0 := by
  induction n generalizing i with
  | zero =>
    refine ⟨fun _ j hj => absurd hj (Nat.not_lt_zero j), fun _ => ?_⟩
    rw [sent]
    split <;> rfl
  | succ n ih =>
    rw [sent]
    split
    · rename_i hz
      rw [Nat.add_right_cancel_iff, ih]
      constructor
      · intro h j hj
        cases j with
        | zero => exact hz
        | succ j =>
          have := h j (by omega)
          rwa [Nat.add_assoc, Nat.add_comm 1 j] at this
      · intro h j hj
        rw [Nat.add_assoc, Nat.add_comm 1 j]
        exact h (j + 1) (by omega)
    · rename_i hz
      refine ⟨fun h => absurd h (by omega), fun h => absurd (h 0 (by omega)) hz⟩

/-- A string is written with the zero behind it. -/
theorem sent_padded {l : List Byte} (hl : ∀ x ∈ l, x ≠ 0) :
    ∀ (d i n : Nat), i + d = l.length → d < n → sent (padded l) i n = d + 1 := by
  intro d
  induction d with
  | zero =>
    intro i n hi hn
    obtain ⟨n, rfl⟩ : ∃ n', n = n' + 1 := ⟨n - 1, by omega⟩
    have hz : padded l i = 0 := by rw [padded_apply, List.getElem?_eq_none (by omega), Option.getD_none]
    rw [sent, if_neg (not_not.2 hz)]
  | succ d ih =>
    intro i n hi hn
    obtain ⟨n, rfl⟩ : ∃ n', n = n' + 1 := ⟨n - 1, by omega⟩
    have hget : l[i]? = some l[i] := List.getElem?_eq_getElem (by omega)
    have hnz : padded l i ≠ 0 := by
      rw [padded_apply, hget]
      exact hl _ (List.getElem_mem _)
    rw [sent, if_pos hnz, ih (i + 1) n (by omega) (by omega)]

section Laws

variable {I : κ → Prop} {view : κ → Word → Option Byte} {writable : κ → Word → Prop} {buffer : Nat → Byte}

theorem system2UserFrom_spec (L : MemoryLaws readMem writeMem I view writable) :
    ∀ (n i : Nat) (k : κ), i + n ≤ 2 ^ 32 → I k →
      (∀ j < sent buffer i n, writable k (virtAddr + BitVec.ofNat 32 (i + j))) →
      ∃ k', system2UserFrom writeMem virtAddr buffer k i n = some (i + sent buffer i n, k') ∧ I k' ∧
        writable k' = writable k ∧
        ∀ a, view k' a = if i ≤ (a - virtAddr).toNat ∧ (a - virtAddr).toNat < i + sent buffer i n then
          some (buffer (a - virtAddr).toNat) else view k a := by
  intro n
  induction n with
  | zero =>
    intro i k _ hk _
    refine ⟨k, rfl, hk, rfl, ?_⟩
    intro a
    rw [sent, if_neg (by omega)]
  | succ n ih =>
    intro i k hle hk hw
    have hfirst : 0 < sent buffer i (n + 1) := by
      rw [sent]
      split <;> omega
    obtain ⟨k1, hk1, hI1, hview1, hw1⟩ := L.write_some k _ (buffer i) hk (hw 0 hfirst)
    have haddr : ∀ a : Word, a = virtAddr + BitVec.ofNat 32 i ↔ (a - virtAddr).toNat = i := by
      intro a
      constructor
      · rintro rfl
        rw [BitVec.add_comm, BitVec.add_sub_cancel, BitVec.toNat_ofNat]
        omega
      · intro h
        rw [← h, BitVec.ofNat_toNat, BitVec.setWidth_eq, BitVec.add_comm, BitVec.sub_add_cancel]
    have hview1' : ∀ a, view k1 a = if (a - virtAddr).toNat = i then some (buffer i) else view k a := by
      intro a
      rw [hview1, Function.update_apply, Nat.add_zero]
      simp only [haddr]
    rw [system2UserFrom]
    simp only [Nat.add_zero] at hk1
    rw [hk1, Option.bind_eq_bind, Option.bind_some]
    by_cases hz : buffer i ≠ 0
    · have hsent : sent buffer i (n + 1) = sent buffer (i + 1) n + 1 := by rw [sent, if_pos hz]
      rw [if_pos hz, hsent]
      obtain ⟨k2, hk2, hI2, hw2, hview2⟩ := ih (i + 1) k1 (by omega) hI1 (by
        intro j hj
        rw [hw1, Nat.add_assoc, Nat.add_comm 1 j]
        exact hw (j + 1) (by omega))
      refine ⟨k2, ?_, hI2, hw2.trans hw1, ?_⟩
      · rw [hk2, Nat.add_assoc, Nat.add_comm 1]
      · intro a
        rw [hview2, hview1']
        split_ifs with h1 h2 h2 h3 h3
        · rfl
        · omega
        · rw [h2]
        · omega
        · omega
        · rfl
    · have hsent : sent buffer i (n + 1) = 1 := by rw [sent, if_neg hz]
      rw [if_neg hz, hsent]
      refine ⟨k1, rfl, hI1, hw1, ?_⟩
      intro a
      rw [hview1']
      split_ifs with h1 h2 h2
      · rw [h1]
      · omega
      · omega
      · rfl

theorem system2UserFrom_none (L : MemoryLaws readMem writeMem I view writable) :
    ∀ (n i : Nat) (k : κ), I k →
      (∃ j < sent buffer i n, ¬ writable k (virtAddr + BitVec.ofNat 32 (i + j))) →
      system2UserFrom writeMem virtAddr buffer k i n = none := by
  intro n
  induction n with
  | zero =>
    rintro i k - ⟨j, hj, -⟩
    cases hj
  | succ n ih =>
    rintro i k hk ⟨j, hj, hw⟩
    rw [system2UserFrom]
    by_cases hfirst : writable k (virtAddr + BitVec.ofNat 32 i)
    · obtain ⟨k1, hk1, hI1, -, hw1⟩ := L.write_some k _ (buffer i) hk hfirst
      have hj0 : j ≠ 0 := by
        rintro rfl
        exact hw hfirst
      have hz : buffer i ≠ 0 := by
        intro hz
        rw [sent, if_neg (not_not.2 hz)] at hj
        omega
      rw [sent, if_pos hz] at hj
      rw [hk1, Option.bind_eq_bind, Option.bind_some, if_pos hz]
      refine ih (i + 1) k1 hI1 ⟨j - 1, by omega, ?_⟩
      rw [hw1, show i + 1 + (j - 1) = i + j by omega]
      exact hw
    · rw [L.write_none k _ _ hk hfirst]
      rfl

/-- **`System2User`**: it succeeds if what it writes can be written. -/
theorem system2User_spec (L : MemoryLaws readMem writeMem I view writable) {k : κ} (hk : I k) {n : Nat}
    (hn : n ≤ 2 ^ 32) (hw : ∀ j < sent buffer 0 n, writable k (virtAddr + BitVec.ofNat 32 j)) :
    ∃ k', system2User writeMem k virtAddr n buffer = some ((sent buffer 0 n : Int), k') ∧ I k' ∧
      writable k' = writable k ∧
      ∀ a, view k' a = if (a - virtAddr).toNat < sent buffer 0 n then some (buffer (a - virtAddr).toNat)
        else view k a := by
  obtain ⟨k', hk', hI, hw', hview⟩ := system2UserFrom_spec L n 0 k (by omega) hk (by simpa using hw)
  refine ⟨k', ?_, hI, hw', by simpa using hview⟩
  rw [system2User, if_neg (by omega), Int.toNat_natCast, hk', Option.map_some, Nat.zero_add]

/-- It halts the machine otherwise. -/
theorem system2User_none (L : MemoryLaws readMem writeMem I view writable) {k : κ} (hk : I k) {n j : Nat}
    (hj : j < sent buffer 0 n) (hw : ¬ writable k (virtAddr + BitVec.ofNat 32 j)) :
    system2User writeMem k virtAddr n buffer = none := by
  rw [system2User, if_neg (by omega), Int.toNat_natCast,
    system2UserFrom_none L n 0 k hk ⟨j, hj, by rw [Nat.zero_add]; exact hw⟩, Option.map_none]

/-- `User2System` of what can be read; nothing else changes. -/
theorem user2System_view (L : MemoryLaws readMem writeMem I view writable) {k : κ} (hk : I k) {m : Nat → Byte}
    {limit : Nat} (hm : ∀ i < limit, (∀ j < i, m j ≠ 0) → view k (virtAddr + BitVec.ofNat 32 i) = some (m i)) :
    ∃ k', user2System readMem k virtAddr limit = some (padded (str m 0 limit), k') ∧ I k' ∧
      view k' = view k ∧ writable k' = writable k := by
  refine user2System_spec (I := fun k' => I k' ∧ view k' = view k ∧ writable k' = writable k) ?_ ⟨hk, rfl, rfl⟩
  rintro k1 i ⟨hI1, hview1, hw1⟩ hi hnz
  obtain ⟨k2, hk2, hI2, hview2, hw2⟩ := L.read_some k1 _ (m i) hI1 (by rw [hview1]; exact hm i hi hnz)
  exact ⟨k2, hk2, hI2, hview2.trans hview1, hw2.trans hw1⟩

end Laws

end Copy

end Nachos
