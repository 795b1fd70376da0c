import Nachos.Userprog.EchoCalls

/-!
# Strings from the kernel to a process and back

`System2User` of a string with the zero behind it, and `User2System` from the same address, of
`userprog/exception.cc`, for a page table with distinct frames.

* `system2User_string` — the string is written, and nothing but it.
* `user2System_string` — its first bytes are read, up to the limit.
* `string_survives_iff` — the only limit for which it is not.
-/

set_option autoImplicit false

namespace Nachos

open CString Exception Partial

namespace Stub

namespace Kernel

variable {S : Services Kernel} {k k' : Kernel} {addr : Word} {s : List Byte} {buffer : Nat → Byte}

/-- A buffer of `n` bytes holds the string `l`; the zero behind it is in the buffer. -/
def HoldsString (buf : Nat → Byte) (n : Nat) (l : List Byte) : Prop := l.length < n ∧ str buf 0 n = l

/-- The string `s` and a zero at `addr`, where `k` had other bytes. -/
structure StringAt (k k' : Kernel) (addr : Word) (s : List Byte) : Prop where
  inside : ∀ j ≤ s.length, k'.user.view (addr + BitVec.ofNat 32 j) = some (padded s j)
  outside : ∀ a, (∀ j ≤ s.length, a ≠ addr + BitVec.ofNat 32 j) → k'.user.view a = k.user.view a
  memory : ∀ pa, k'.user.mainMemory pa ≠ k.user.mainMemory pa →
    ∃ j ≤ s.length, UserSpace.physAddr k.user.pageTable (addr + BitVec.ofNat 32 j) true = some pa
  rest : k' = { k with user := k'.user }

/-- A string that fits into the memory of a process. -/
theorem length_lt_of_writable (hd : k.user.Distinct)
    (hw : ∀ j ≤ s.length, k.user.writable (addr + BitVec.ofNat 32 j)) : s.length + 1 ≤ MemorySize := by
  have hview : ∀ j ≤ s.length, ∃ b, k.user.view (addr + BitVec.ofNat 32 j) = some b := by
    intro j hj
    obtain ⟨pa, hpa⟩ := Option.isSome_iff_exists.1 (hw j hj)
    exact ⟨_, by rw [UserSpace.view, UserSpace.physAddr_of_writable hpa, Option.map_some]⟩
  have hmem : MemorySize < 2 ^ 32 := by decide
  have hmin := UserSpace.length_le_memorySize (n := min (s.length + 1) (2 ^ 32)) hd (Nat.min_le_right _ _)
    (fun j hj => hview j (by omega))
  omega

theorem sent_string (hs : 0 ∉ s) (hbuf : ∀ j ≤ s.length, buffer j = padded s j) :
    sent buffer 0 (s.length + 1) = s.length + 1 := by
  rw [sent_succ_eq_iff]
  intro j hj hzero
  rw [Nat.zero_add, hbuf j (Nat.le_of_lt hj), padded_apply, List.getElem?_eq_getElem hj, Option.getD_some] at hzero
  exact hs (hzero ▸ List.getElem_mem hj)

/-- **`System2User`** writes a string with its zero, and nothing else. -/
theorem system2User_string (S : Services Kernel) (hd : k.user.Distinct) (hs : 0 ∉ s)
    (hbuf : ∀ j ≤ s.length, buffer j = padded s j)
    (hw : ∀ j ≤ s.length, k.user.writable (addr + BitVec.ofNat 32 j)) :
    ∃ k', system2User (services S).writeMem k addr (s.length + 1 : Nat) buffer = some (((s.length + 1 : Nat) : Int), k') ∧
      k'.user.Distinct ∧ StringAt k k' addr s := by
  have hsent := sent_string hs hbuf
  have hlen := length_lt_of_writable hd hw
  have hmem : MemorySize < 2 ^ 32 := by decide
  have hwritable : ∀ j < sent buffer 0 (s.length + 1), k.user.writable (addr + BitVec.ofNat 32 j) := by
    rw [hsent]
    exact fun j hj => hw j (by omega)
  obtain ⟨k', hk', ⟨hd', hrest⟩, -, hview⟩ := system2User_spec (memoryLaws S k) ⟨hd, rfl⟩
    (show s.length + 1 ≤ 2 ^ 32 by omega) hwritable
  rw [hsent] at hk' hview
  refine ⟨k', hk', hd', ?_, ?_, ?_, hrest⟩
  · intro j hj
    rw [hview, sub_base addr (by omega), if_pos (by omega), hbuf j hj]
  · intro a ha
    rw [hview, if_neg]
    intro hlt
    apply ha (a - addr).toNat (by omega)
    rw [BitVec.ofNat_toNat, BitVec.setWidth_eq, BitVec.add_comm, BitVec.sub_add_cancel]
  · intro pa hne
    rw [system2User, if_neg (by omega), Int.toNat_natCast, system2UserFrom_services] at hk'
    obtain ⟨r, hr, heq⟩ := Option.map_eq_some_iff.1 hk'
    obtain ⟨⟨m, u⟩, hu, rfl⟩ := Option.map_eq_some_iff.1 hr
    cases heq
    obtain ⟨j, hj, hpa⟩ := (UserSpace.system2UserFrom_of_some _ _ _ _ _ hu).changed pa hne
    rw [hsent] at hj
    rw [Nat.zero_add] at hpa
    exact ⟨j, by omega, hpa⟩

/-- **`User2System`** reads it back, cut off at the limit. -/
theorem user2System_string (S : Services Kernel) (hd : k.user.Distinct) (hs : 0 ∉ s)
    (hview : ∀ j ≤ s.length, k.user.view (addr + BitVec.ofNat 32 j) = some (padded s j)) {n : Nat}
    (hn : n + 1 < 2 ^ 31) :
    ∃ buf k', userString (services S) k addr (BitVec.ofNat 32 n) = .ok (buf, k') ∧
      HoldsString buf (n + 1) (s.take n) := by
  have hlast : padded s s.length = 0 := by
    rw [padded_apply, List.getElem?_eq_none (Nat.le_refl _), Option.getD_none]
  have hm : ∀ j < n, (∀ l < j, padded s l ≠ 0) → k.user.view (addr + BitVec.ofNat 32 j) = some (padded s j) := by
    intro j hj hnz
    apply hview
    -- the loop does not get behind the zero
    by_contra hgt
    exact hnz s.length (by omega) hlast
  have hne : ∀ x ∈ s, x ≠ 0 := fun x hx h0 => hs (h0 ▸ hx)
  obtain ⟨u, hu, -⟩ := userString_eq (S := S) hn hd hm
  refine ⟨_, _, hu, ?_, ?_⟩
  · rw [List.length_take]
    omega
  · rw [str_padded hne, List.drop_zero, str_padded (fun x hx => hne x (List.mem_of_mem_take hx)), List.drop_zero,
      List.take_take, Nat.min_eq_right (Nat.le_succ n)]

end Kernel

open Nachos.Stub.Kernel in
/-- `System2User(addr, length(s) + 1, buffer)`, and then `User2System(addr, limit)`: the string is there,
and its first `limit` bytes come back. -/
def StringSurvives (S : Services Kernel) (k : Kernel) (addr : Word) (s : List Byte) (buffer : Nat → Byte)
    (limit : Word) : Prop :=
  ∃ k1, system2User (Kernel.services S).writeMem k addr (s.length + 1 : Nat) buffer = some (((s.length + 1 : Nat) : Int), k1) ∧
    StringAt k k1 addr s ∧
    ∃ buf k2, userString (Kernel.services S) k1 addr limit = .ok (buf, k2) ∧
      HoldsString buf (limit.toNat + 1) (s.take limit.toNat)

open Nachos.Stub.Kernel in
/-- **Strings survive the kernel/user boundary**, for every string, page layout and limit but 2^31 - 1:
there `limit + 1`, the size of the kernel's buffer, is negative. -/
theorem string_survives_iff {S : Services Kernel} {k : Kernel} {addr limit : Word} {s : List Byte}
    {buffer : Nat → Byte} (hd : k.user.Distinct) (hs : 0 ∉ s) (hbuf : ∀ j ≤ s.length, buffer j = padded s j)
    (hw : ∀ j ≤ s.length, k.user.writable (addr + BitVec.ofNat 32 j)) (hlimit : 0 ≤ limit.toInt) :
    StringSurvives S k addr s buffer limit ↔ limit.toInt ≠ 2 ^ 31 - 1 := by
  obtain ⟨n, hn, rfl⟩ := CInt.exists_ofNat hlimit
  rw [CInt.toInt_ofNat hn]
  constructor
  · rintro ⟨k1, -, -, buf, k2, hread, -⟩ hmax
    obtain rfl : n = 2 ^ 31 - 1 := by omega
    obtain ⟨hnew, -⟩ := userString_of_ok hread
    exact absurd hnew (by decide)
  · intro hne
    obtain ⟨k1, hwrite, hd1, hstring⟩ := system2User_string S hd hs hbuf hw
    obtain ⟨buf, k2, hread, hholds⟩ := user2System_string S hd1 hs hstring.inside (n := n) (by omega)
    refine ⟨k1, hwrite, hstring, buf, k2, hread, ?_⟩
    rw [CInt.toNat_ofNat hn]
    exact hholds

open Nachos.Stub.Kernel in
theorem writable_typingA : ∀ j ≤ ([255] : List Byte).length, (typingA []).user.writable (5 + BitVec.ofNat 32 j) := by
  intro j hj
  have hone : j ≤ 1 := hj
  obtain rfl | rfl : j = 0 ∨ j = 1 := by omega
  · rfl
  · rfl

open Nachos.Stub.Kernel in
/-- A byte above `0x7f`, and a limit of 255. -/
theorem string_survives_ff : (typingA []).user.Distinct ∧ (0 : Byte) ∉ ([255] : List Byte) ∧
    ∀ S, StringSurvives S (typingA []) 5 [255] (padded [255]) 255 := by
  have hz : (0 : Byte) ∉ ([255] : List Byte) := by decide
  refine ⟨distinct_onePage [], hz, ?_⟩
  intro S
  exact (string_survives_iff (distinct_onePage []) hz (fun _ _ => rfl) writable_typingA (by decide)).mpr (by decide)

open Nachos.Stub.Kernel in
/-- `User2System(5, 2^31 - 1)` does not come back. -/
theorem string_lost_intMax : (typingA []).user.Distinct ∧ (0 : Byte) ∉ ([255] : List Byte) ∧
    (∀ j ≤ ([255] : List Byte).length, (typingA []).user.writable (5 + BitVec.ofNat 32 j)) ∧
    (([255] : List Byte).length : Int) ≤ (0x7fffffff : Word).toInt ∧
    ∀ S, ¬ StringSurvives S (typingA []) 5 [255] (padded [255]) 0x7fffffff := by
  refine ⟨distinct_onePage [], by decide, writable_typingA, by decide, ?_⟩
  rintro S ⟨k1, -, -, buf, k2, hread, -⟩
  obtain ⟨hnew, -⟩ := userString_of_ok hread
  exact absurd hnew (by decide)

end Stub

end Nachos
