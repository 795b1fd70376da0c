import Nachos.Lib.Answers
import Nachos.Lib.CInt
import Nachos.Userprog.FileTable

/-!
# Lines from the console

`SynchConsole::Read` with a buffer of `numBytes` bytes, on lines that are typed one after the other.
A call ends with the newline or with a full buffer; the newline behind a full buffer is left for the
next call.

* `consoleRead_short`, `consoleRead_full` — one call on one line.
* `console_framing_iff` — when the calls return the lines.
-/

set_option autoImplicit false

namespace Nachos

open Answers Partial

namespace Stub

/-- A line, without its newline: Ctrl-A and `EOF` do not occur in it either. -/
def IsLine (l : List Byte) : Prop := ∀ c ∈ l, c ≠ 10 ∧ c ≠ 1 ∧ c ≠ 255

/-- Lines, as they are typed. -/
def typed (lines : List (List Byte)) : List Byte := lines.flatMap (· ++ [10])

theorem IsLine.tail {c : Byte} {l : List Byte} (h : IsLine (c :: l)) : IsLine l :=
  fun x hx => h x (List.mem_cons_of_mem c hx)

theorem typed_cons (l : List Byte) (lines : List (List Byte)) (rest : List Byte) :
    typed (l :: lines) ++ rest = l ++ 10 :: (typed lines ++ rest) := by
  simp [typed]

/-- A byte of a line is stored. -/
theorem consoleLine_cons {c : Byte} (hc : c ≠ 10 ∧ c ≠ 1 ∧ c ≠ 255) (input : List Byte) (n : Nat) :
    consoleLine (c :: input) (n + 1) = (consoleLine input n).map fun r => (c :: r.1, r.2) := by
  rw [consoleLine, if_neg hc.2.2, if_neg hc.1, if_neg hc.2.1]

/-- A line that is shorter than the buffer is taken with its newline. -/
theorem consoleLine_short {l : List Byte} (hl : IsLine l) (rest : List Byte) {n : Nat} (hn : l.length < n) :
    consoleLine (l ++ 10 :: rest) n = some (l, false, rest) := by
  induction l generalizing n with
  | nil =>
    obtain ⟨m, rfl⟩ : ∃ m, n = m + 1 := ⟨n - 1, by simp only [List.length_nil] at hn; omega⟩
    rw [List.nil_append, consoleLine, if_neg (by decide), if_pos rfl]
  | cons c l ih =>
    rw [List.length_cons] at hn
    obtain ⟨m, rfl⟩ : ∃ m, n = m + 1 := ⟨n - 1, by omega⟩
    rw [List.cons_append, consoleLine_cons (hl c List.mem_cons_self), ih hl.tail (by omega), Option.map_some]

/-- A longer one fills the buffer. -/
theorem consoleLine_full {l : List Byte} (hl : IsLine l) (rest : List Byte) {n : Nat} (hn : n ≤ l.length) :
    consoleLine (l ++ rest) n = some (l.take n, false, l.drop n ++ rest) := by
  induction n generalizing l with
  | zero => rw [consoleLine, List.take_zero, List.drop_zero]
  | succ n ih =>
    cases l with
    | nil => cases hn
    | cons c l =>
      rw [List.cons_append, consoleLine_cons (hl c List.mem_cons_self), ih hl.tail (Nat.le_of_succ_le_succ hn),
        Option.map_some, List.take_succ_cons, List.drop_succ_cons]

namespace Kernel

variable {k : Kernel} {numBytes : Word} {l rest : List Byte}

theorem toNat_of_one_le (h : 1 ≤ numBytes.toInt) : 1 ≤ numBytes.toNat ∧ numBytes.toNat < 2 ^ 31 := by
  obtain ⟨n, hn, rfl⟩ := CInt.exists_ofNat (show 0 ≤ numBytes.toInt by omega)
  rw [CInt.toInt_ofNat hn] at h
  rw [CInt.toNat_ofNat hn]
  exact ⟨by omega, hn⟩

/-- **`SynchConsole::Read`** of a line that is shorter than the buffer. -/
theorem consoleRead_short (hn : 1 ≤ numBytes.toInt) (hl : IsLine l) (hlen : l.length < numBytes.toNat)
    (hin : k.input = l ++ 10 :: rest) :
    consoleRead k numBytes = .ok (l, BitVec.ofNat 32 l.length, { k with input := rest }) := by
  rw [consoleRead, if_neg (by omega), hin, consoleLine_short hl rest hlen]
  rfl

/-- One that is not leaves its end, and its newline. -/
theorem consoleRead_full (hn : 1 ≤ numBytes.toInt) (hl : IsLine l) (hlen : numBytes.toNat ≤ l.length)
    (hin : k.input = l ++ 10 :: rest) :
    consoleRead k numBytes = .ok (l.take numBytes.toNat, BitVec.ofNat 32 numBytes.toNat,
      { k with input := l.drop numBytes.toNat ++ 10 :: rest }) := by
  rw [consoleRead, if_neg (by omega), hin, consoleLine_full hl _ hlen]
  simp only [Bool.false_eq_true, if_false, List.length_take, Nat.min_eq_left hlen]

/-! ## One call after the other -/

/-- One call of `SynchConsole::Read`: what it stores, and what it returns. -/
def readLine (numBytes : Word) (k : Kernel) (_ : Unit) : Except Stop ((List Byte × Word) × Kernel) :=
  (fun r => ((r.1, r.2.1), r.2.2)) <$> consoleRead k numBytes

/-- The answers of the first `m` calls. -/
def reads (numBytes : Word) (k : Kernel) (m : Nat) : List (Except Stop (List Byte × Word)) :=
  answers (readLine numBytes) k (List.replicate m ())

/-- What a call answers that returns exactly the line `l`. -/
def answer (l : List Byte) : Except Stop (List Byte × Word) := .ok (l, BitVec.ofNat 32 l.length)

theorem answer_inj {l' : List Byte} (h : answer l = answer l') : l = l' :=
  (Prod.mk.inj (Except.ok.inj h)).1

theorem reads_succ {stored : List Byte} {sz : Word} {k' : Kernel} (h : consoleRead k numBytes = .ok (stored, sz, k'))
    (m : Nat) : reads numBytes k (m + 1) = .ok (stored, sz) :: reads numBytes k' m := by
  have hstep : readLine numBytes k () = .ok ((stored, sz), k') := by
    rw [readLine, h]
    rfl
  rw [reads, List.replicate_succ, answers_cons_ok hstep]
  rfl

/-- With a newline left over, each call returns the line before the one it should: only empty lines come out
right. -/
theorem reads_behind (hn : 1 ≤ numBytes.toInt) : ∀ (lines : List (List Byte)) (k : Kernel),
    (∀ l ∈ lines, IsLine l ∧ l.length ≤ numBytes.toNat) → k.input = 10 :: (typed lines ++ rest) →
    (reads numBytes k lines.length = lines.map answer ↔ ∀ l ∈ lines, l = []) := by
  have hpos := toNat_of_one_le hn
  intro lines
  induction lines with
  | nil =>
    intro k _ _
    exact iff_of_true rfl (by simp)
  | cons l lines ih =>
    intro k hlines hin
    have hread := consoleRead_short (l := []) hn (by simp [IsLine]) (Nat.lt_of_lt_of_le Nat.zero_lt_one hpos.1) hin
    rw [List.length_cons, reads_succ hread, List.map_cons, List.cons.injEq, List.forall_mem_cons]
    have hhead : (.ok ([], BitVec.ofNat 32 ([] : List Byte).length) : Except Stop (List Byte × Word)) = answer l ↔
        l = [] := by
      constructor
      · intro h
        exact (answer_inj (l := []) h).symm
      · rintro rfl
        rfl
    rw [hhead]
    apply and_congr_right
    rintro rfl
    apply ih _ (fun l hl => hlines l (List.mem_cons_of_mem _ hl))
    simp [typed]

end Kernel

open Nachos.Stub.Kernel in
/-- **Console line framing**, for every buffer and every sequence of lines that fit in it: the calls return
the lines exactly if a line that fills the buffer is followed by empty lines only. -/
theorem console_framing_iff {k : Kernel} {numBytes : Word} {lines : List (List Byte)} {rest : List Byte}
    (hn : 1 ≤ numBytes.toInt) (hlines : ∀ l ∈ lines, IsLine l ∧ l.length ≤ numBytes.toNat)
    (hin : k.input = typed lines ++ rest) :
    reads numBytes k lines.length = lines.map answer ↔
      lines.Pairwise fun l l' => l.length = numBytes.toNat → l' = [] := by
  induction lines generalizing k with
  | nil => exact iff_of_true rfl List.Pairwise.nil
  | cons l lines ih =>
    rw [typed_cons] at hin
    obtain ⟨hl, hlen⟩ := hlines l List.mem_cons_self
    have htail : ∀ l ∈ lines, IsLine l ∧ l.length ≤ numBytes.toNat :=
      fun l hl => hlines l (List.mem_cons_of_mem _ hl)
    rw [List.pairwise_cons, List.length_cons, List.map_cons]
    rcases Nat.lt_or_eq_of_le hlen with hlt | heq
    · rw [reads_succ (consoleRead_short hn hl hlt hin), List.cons.injEq, ih htail rfl]
      refine and_congr (iff_of_true rfl ?_) Iff.rfl
      intro l' _ hfull
      omega
    · rw [reads_succ (consoleRead_full hn hl heq.ge hin), List.cons.injEq]
      have hread : (.ok (l.take numBytes.toNat, BitVec.ofNat 32 numBytes.toNat) : Except Stop (List Byte × Word)) =
          answer l := by
        rw [← heq, List.take_length]
        rfl
      have hrest : l.drop numBytes.toNat ++ 10 :: (typed lines ++ rest) = 10 :: (typed lines ++ rest) := by
        rw [← heq, List.drop_length, List.nil_append]
      rw [and_iff_right hread, reads_behind hn lines _ htail hrest]
      constructor
      · intro hempty
        refine ⟨fun l' hl' _ => hempty l' hl', ?_⟩
        exact List.pairwise_of_forall_mem_list (fun _ _ l' hl' _ => hempty l' hl')
      · rintro ⟨hempty, -⟩
        exact fun l' hl' => hempty l' hl' heq

namespace Kernel

/-- The lines are typed on the console of a new kernel. -/
def typing (lines : List (List Byte)) : Kernel := { started with input := typed lines }

end Kernel

open Nachos.Stub.Kernel in
/-- `"ab"` fills a buffer of two bytes; an empty line follows. -/
theorem console_framing_ab : (1 : Int) ≤ (2 : Word).toInt ∧
    (∀ l ∈ [[97], [97, 98], []], IsLine l ∧ l.length ≤ (2 : Word).toNat) ∧
    reads 2 (typing [[97], [97, 98], []]) 3 = [[97], [97, 98], []].map answer := by
  have hlines : ∀ l ∈ [[97], [97, 98], []], IsLine l ∧ l.length ≤ (2 : Word).toNat := by
    unfold IsLine
    decide
  have hin : (typing [[97], [97, 98], []]).input = typed [[97], [97, 98], []] ++ [] := rfl
  refine ⟨by decide, hlines, ?_⟩
  apply (console_framing_iff (by decide) hlines hin).2
  decide

open Nachos.Stub.Kernel in
/-- After `"ab"` in a buffer of two bytes, the next call returns an empty line instead of `"c"`. -/
theorem console_framing_shifted : ¬ ∀ (k : Kernel) (numBytes : Word) (lines : List (List Byte)) (rest : List Byte),
    1 ≤ numBytes.toInt → (∀ l ∈ lines, IsLine l ∧ l.length ≤ numBytes.toNat) → k.input = typed lines ++ rest →
    reads numBytes k lines.length = lines.map answer := by
  intro hall
  have hread := hall (typing [[97, 98], [99]]) 2 [[97, 98], [99]] [] (by decide) (by unfold IsLine; decide)
    (List.append_nil _).symm
  have hsecond := (List.cons.inj (List.cons.inj hread).2).1
  exact absurd (Prod.mk.inj (Except.ok.inj hsecond)).1 (by decide)

end Stub

end Nachos
