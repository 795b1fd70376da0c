import Nachos.Lib.Checked
import Nachos.Userprog.InputCalls
import Nachos.Userprog.IntCalls

/-!
# The kernel's buffers

The console calls of `userprog/exception.cc`, and `SynchConsole::Read` and `Write`, with every access to a
buffer of the kernel spelled out: one outside of it is `undefined`.  What an array holds before it is
written is arbitrary.

* `readInt_eq`, `printInt_eq`, `readChar_eq`, `readString_eq` — these are the handlers of
  `Exception.lean`, whatever the arrays hold.
* `consoleLine_eq` — what `Read` finds in the input.
* `kernel_buffers_iff` — when a call stays inside of its buffer.
-/

set_option autoImplicit false

namespace Nachos

open Checked CString Decimal Exception Partial

namespace Stub

namespace KernelBuffer

/-! ## The console, and the user's memory -/

/-- The loop of `SynchConsole::Read`, for `n` more bytes: `loop`, whether it ended with Ctrl-A, the buffer and
the input that is left. -/
def readLoop : List Byte → Nat → Nat → List Byte → Except Stop (Nat × Bool × List Byte × List Byte)
  | input, loop, 0, into => .ok (loop, false, into, input)
  | [], _, _ + 1, _ => .error .forever
  | ch :: input, loop, n + 1, into =>
    if ch = 255 then readLoop input loop (n + 1) into
    else if ch = 10 then .ok (loop, false, into, input)
    else if ch = 1 then .ok (loop, true, into, input)
    else do
      let into ← store .undefined into loop ch
      readLoop input (loop + 1) n into

/-- `SynchConsole::Read(into, numBytes)`. -/
def read (k : Kernel) (into : List Byte) (numBytes : Word) : Except Stop (Word × List Byte × Kernel) := do
  let into ← fill .undefined 0 0 numBytes.toInt.toNat into
  if numBytes.toInt ≤ 0 then .ok (if k.ch = 1 then -1 else 0, into, k)
  else
    let (loop, ctrlA, into, input) ← readLoop k.input 0 numBytes.toInt.toNat into
    .ok (if ctrlA then -1 else BitVec.ofNat 32 loop, into, { k with input := input })

/-- `SynchConsole::Write(buffer, numBytes)`. -/
def write (k : Kernel) (buffer : List Byte) (numBytes : Nat) : Except Stop Kernel := do
  let l ← loads .undefined buffer 0 numBytes
  .ok { k with output := k.output ++ l }

variable (S : Services Kernel)

/-- The loop of `System2User`, from `i` on, for `n` more bytes. -/
def toUserFrom (virtAddr : Word) (buffer : List Byte) : Kernel → Nat → Nat → Except Stop Kernel
  | k, _, 0 => .ok k
  | k, i, n + 1 => do
    let oneChar ← load .undefined buffer i
    let k ← orHalt ((Kernel.services S).writeMem k (virtAddr + BitVec.ofNat 32 i) oneChar)
    if oneChar ≠ 0 then toUserFrom virtAddr buffer k (i + 1) n else .ok k

/-- `System2User(virtAddr, len, buffer)`. -/
def toUser (k : Kernel) (virtAddr len : Word) (buffer : List Byte) : Except Stop Kernel :=
  if len.toInt < 0 then .ok k else toUserFrom S virtAddr buffer k 0 len.toInt.toNat

/-! ## The loops of the handlers -/

/-- `while (buffer[i] == ' ' || buffer[i] == '\t') i++`. -/
def skipFrom (buffer : List Byte) : Nat → Nat → Except Stop Nat
  | 0, _ => .error .forever
  | fuel + 1, i => do
    let c ← load .undefined buffer i
    if c = 32 ∨ c = 9 then skipFrom buffer fuel (i + 1) else .ok i

/-- `for (; i < nDigit; ++i)`, for `n` more bytes; `none` is `not_a_number`. -/
def digitsFrom (buffer : List Byte) : Nat → Nat → Word → Except Stop (Option Word)
  | _, 0, number => .ok (some number)
  | i, n + 1, number => do
    let c ← load .undefined buffer i
    if 48 ≤ c.toInt ∧ c.toInt ≤ 57 then
      digitsFrom buffer (i + 1) n (number * 10 + (c &&& MASK_GET_NUM).setWidth 32)
    else .ok none

/-- `do s[i++] = n % 10 + '0'; while ((n /= 10) > 0)`. -/
def digitLoop : Nat → Nat → List Byte → Word → Except Stop (Nat × List Byte)
  | 0, _, _, _ => .error .forever
  | fuel + 1, i, s, n => do
    let s ← store .undefined s i ((n.srem 10 + 48).setWidth 8)
    if 0 < (n.sdiv 10).toInt then digitLoop fuel (i + 1) s (n.sdiv 10) else .ok (i + 1, s)

/-- `while (i-- > mid)`, which swaps `s[sz - i - 1]` and `s[i]`. -/
def swapLoop (sz mid : Nat) : Nat → List Byte → Except Stop (List Byte)
  | 0, s => .ok s
  | i + 1, s =>
    if mid < i + 1 then do
      let tmp ← load .undefined s ((sz : Int) - i - 1)
      let c ← load .undefined s i
      let s ← store .undefined s ((sz : Int) - i - 1) c
      let s ← store .undefined s i tmp
      swapLoop sz mid i s
    else .ok s

/-! ## The handlers -/

/-- What the arrays of the kernel hold before they are written. -/
abbrev Junk : Type := (n : Nat) → Vector Byte n

/-- What `SC_ReadInt` returns for a buffer with `nDigit` bytes. -/
def parseInt (buffer : List Byte) (nDigit : Int) : Except Stop Word := do
  let i ← skipFrom buffer (buffer.length + 1) 0
  let c ← load .undefined buffer i
  let i' := if c = 45 then i + 1 else i
  match ← digitsFrom buffer i' (nDigit - i').toNat 0 with
  | none => .ok 0
  | some number => .ok (if c = 45 then number * (-1) else number)

variable (junk : Junk)

def readInt (k : Kernel) : Except Stop (Option Word × Kernel) := do
  let (nDigit, buffer, k) ← read k (junk MAX_INT_LENGTH).toList (BitVec.ofNat 32 MAX_INT_LENGTH)
  let number ← parseInt buffer nDigit.toInt
  .ok (some number, k)

def printInt (k : Kernel) (n : Word) : Except Stop (Option Word × Kernel) := do
  let (n, k) ← printSign (Kernel.services S) k n
  let (sz, s) ← digitLoop (MAX_INT_LENGTH + 1) 0 (junk MAX_INT_LENGTH).toList n
  let s ← store .undefined s sz 10
  let s ← swapLoop sz (sz / 2) sz s
  let k ← write k s sz
  .ok (none, k)

def readChar (k : Kernel) : Except Stop (Option Word × Kernel) := do
  let (sz, buf, k) ← read k (junk MAX_INT_LENGTH).toList (BitVec.ofNat 32 MAX_INT_LENGTH)
  let c ← load .undefined buf (sz.toInt - 1)
  .ok (some (c.signExtend 32), k)

def readString (k : Kernel) (bufAddrUser length : Word) : Except Stop (Option Word × Kernel) := do
  let (sz, buf, k) ← read k (junk LIMIT).toList length
  let k ← toUser S k bufAddrUser sz buf
  .ok (none, k)

/-! ## The console, and the user's memory: what they do inside of the buffer -/

variable {S} {junk} {k : Kernel}

theorem readLoop_eq {input : List Byte} {n : Nat} {pre post : List Byte} (h : n ≤ post.length) :
    readLoop input pre.length n (pre ++ post) =
      match consoleLine input n with
      | none => .error .forever
      | some (stored, ctrlA, rest) =>
        .ok ((pre ++ stored).length, ctrlA, pre ++ stored ++ post.drop stored.length, rest) := by
  induction input generalizing n pre post with
  | nil =>
    cases n with
    | zero => simp [readLoop, consoleLine]
    | succ n => rfl
  | cons ch input ih =>
    cases n with
    | zero => simp [readLoop, consoleLine]
    | succ n =>
      rw [readLoop, consoleLine]
      split
      · exact ih h
      · split
        · simp
        · split
          · simp
          · obtain ⟨x, post, rfl⟩ := List.exists_cons_of_length_pos (Nat.lt_of_lt_of_le n.succ_pos h)
            obtain ⟨hseam, hlen⟩ := seam pre ch post
            have hrest : readLoop input (pre ++ [ch]).length n ((pre ++ [ch]) ++ post) = _ :=
              ih (Nat.le_of_succ_le_succ h)
            rw [← hseam, hlen] at hrest
            rw [store_append, ok_bind, hrest]
            cases consoleLine input n with
            | none => rfl
            | some r => simp

theorem stored_filled {stored : List Byte} {n : Nat} (h : stored.length ≤ n) (rest : List Byte) :
    stored ++ (List.replicate n 0 ++ rest).drop stored.length = filled stored n ++ rest := by
  rw [filled_eq h, List.drop_append_of_le_length (by rw [List.length_replicate]; exact h), List.drop_replicate,
    List.append_assoc]

/-- **`SynchConsole::Read`** into an array that is long enough. -/
theorem read_eq {buf : List Byte} {numBytes : Word} (h : numBytes.toInt ≤ buf.length) :
    read k buf numBytes = (fun r : List Byte × Word × Kernel =>
      (r.2.1, filled r.1 numBytes.toInt.toNat ++ buf.drop numBytes.toInt.toNat, r.2.2)) <$>
        Kernel.consoleRead k numBytes := by
  have hn : numBytes.toInt.toNat ≤ buf.length := by omega
  have hfill : fill Stop.undefined (0 : Byte) ([] : List Byte).length numBytes.toInt.toNat ([] ++ buf) = .ok _ :=
    fill_append 0 hn
  simp only [List.nil_append, List.length_nil] at hfill
  rw [read, hfill, ok_bind, Kernel.consoleRead]
  split
  · rename_i hneg
    have hzero : numBytes.toInt.toNat = 0 := by omega
    simp [hzero, filled]
  · rename_i hpos
    have hnat := Kernel.toInt_eq_toNat (Int.le_of_lt (Int.lt_of_not_ge hpos))
    have hcount : numBytes.toInt.toNat = numBytes.toNat := by omega
    have hloop : readLoop k.input ([] : List Byte).length numBytes.toNat
        ([] ++ (List.replicate numBytes.toNat 0 ++ buf.drop numBytes.toNat)) = _ :=
      readLoop_eq (by rw [List.length_append, List.length_replicate]; omega)
    simp only [List.nil_append, List.length_nil] at hloop
    simp only [hcount, hloop]
    cases hline : consoleLine k.input numBytes.toNat with
    | none => rfl
    | some r =>
      obtain ⟨stored, ctrlA, rest⟩ := r
      have hstored := stored_filled (Kernel.length_consoleLine _ _ hline) (buf.drop numBytes.toNat)
      simp only [ok_bind, hstored]
      rfl

/-- Into one that is too short. -/
theorem read_out {buf : List Byte} {numBytes : Word} (h : (buf.length : Int) < numBytes.toInt) :
    read k buf numBytes = .error .undefined := by
  have hfill : fill Stop.undefined (0 : Byte) ([] : List Byte).length numBytes.toInt.toNat ([] ++ buf) = _ :=
    fill_out 0 (by omega)
  rw [List.nil_append, List.length_nil] at hfill
  rw [read, hfill, error_bind]

theorem write_append (s post : List Byte) :
    write k (s ++ post) s.length = (Kernel.services S).consoleWrite k s := by
  have hloads : loads Stop.undefined ([] ++ (s ++ post)) ([] : List Byte).length s.length = .ok s := loads_append
  rw [List.nil_append, List.length_nil] at hloads
  rw [write, hloads]
  rfl

theorem toUserFrom_eq {virtAddr : Word} {buffer : List Byte} {b : Nat → Byte} {i n : Nat}
    (h : ∀ j, j < i + n → buffer[j]? = some (b j)) :
    toUserFrom S virtAddr buffer k i n =
      orHalt ((system2UserFrom (Kernel.services S).writeMem virtAddr b k i n).map (·.2)) := by
  induction n generalizing i k with
  | zero => rfl
  | succ n ih =>
    rw [toUserFrom, system2UserFrom, load_natCast (h i (by omega)), ok_bind]
    cases hwrite : (Kernel.services S).writeMem k (virtAddr + BitVec.ofNat 32 i) (b i) with
    | none => rfl
    | some k1 =>
      have hrest := ih (k := k1) (i := i + 1) (fun j hj => h j (by omega))
      show (if b i ≠ 0 then _ else _) = orHalt (Option.map _ (if b i ≠ 0 then _ else _))
      split
      · exact hrest
      · rfl

/-- **`System2User`** reads the buffer where it has been filled. -/
theorem toUser_eq {virtAddr len : Word} {buffer : List Byte} {b : Nat → Byte}
    (h : ∀ j, j < len.toInt.toNat → buffer[j]? = some (b j)) :
    toUser S k virtAddr len buffer = Exception.toUser (Kernel.services S) k virtAddr len b := by
  rw [toUser, Exception.toUser, system2User]
  split
  · rfl
  · rw [toUserFrom_eq (b := b) (by simpa using h), Option.map_map]
    rfl

/-! ## The loops of the handlers: what they do inside of the buffer -/

theorem skipFrom_eq {pre post : List Byte} {fuel : Nat} (h : post.length < fuel) :
    skipFrom (pre ++ post) fuel pre.length = (pre.length + ·) <$> skipBlanks post := by
  induction post generalizing pre fuel with
  | nil =>
    obtain ⟨fuel, rfl⟩ : ∃ m, fuel = m + 1 := ⟨fuel - 1, by omega⟩
    rw [skipFrom, load_out (by rw [List.append_nil]; exact .inr (Int.le_refl _))]
    rfl
  | cons c post ih =>
    obtain ⟨fuel, rfl⟩ : ∃ m, fuel = m + 1 := ⟨fuel - 1, by omega⟩
    rw [skipFrom, load_append, ok_bind, skipBlanks]
    split
    · obtain ⟨hseam, hlen⟩ := seam pre c post
      have hrest : skipFrom ((pre ++ [c]) ++ post) fuel (pre ++ [c]).length = _ := ih (Nat.lt_of_succ_lt_succ h)
      rw [← hseam, hlen] at hrest
      rw [hrest]
      cases skipBlanks post with
      | error e => rfl
      | ok i =>
        have hsum : pre.length + 1 + i = pre.length + (i + 1) := by omega
        exact congrArg Except.ok hsum
    · rfl

theorem digitsFrom_eq (pre l post : List Byte) (number : Word) :
    digitsFrom (pre ++ (l ++ post)) pre.length l.length number = .ok (digits l number) := by
  induction l generalizing pre number with
  | nil => rfl
  | cons c l ih =>
    rw [List.length_cons, digitsFrom, List.cons_append, load_append, ok_bind, digits]
    split
    · obtain ⟨hseam, hlen⟩ := seam pre c (l ++ post)
      have hrest := ih (pre ++ [c]) (number * 10 + (c &&& MASK_GET_NUM).setWidth 32)
      rw [← hseam, hlen] at hrest
      exact hrest
    · rfl

/-- The loop over the digits of `n`, for a number that `intDigits` has the fuel for. -/
theorem digitLoop_ofNat {fuel : Nat} {n : Nat} {pre post : List Byte} (hn : n < 2 ^ 31) (hlen : n < 10 ^ fuel)
    (hpos : 0 < fuel) (hroom : fuel ≤ post.length) :
    digitLoop (fuel + 1) pre.length (pre ++ post) (BitVec.ofNat 32 n) =
      .ok ((pre ++ intDigits fuel (BitVec.ofNat 32 n)).length,
        pre ++ intDigits fuel (BitVec.ofNat 32 n) ++ post.drop (intDigits fuel (BitVec.ofNat 32 n)).length) := by
  induction fuel generalizing n pre post with
  | zero => cases hpos
  | succ fuel ih =>
    obtain ⟨x, post, rfl⟩ := List.exists_cons_of_length_pos (Nat.lt_of_lt_of_le fuel.succ_pos hroom)
    have hdiv : (BitVec.ofNat 32 n).sdiv 10 = BitVec.ofNat 32 (n / 10) := CInt.sdiv_ofNat hn (by decide)
    rw [digitLoop, store_append, ok_bind, intDigits, hdiv, CInt.toInt_ofNat (show n / 10 < 2 ^ 31 by omega)]
    generalize (((BitVec.ofNat 32 n).srem 10 + 48).setWidth 8 : Byte) = c
    obtain ⟨hseam, hone⟩ := seam pre c post
    by_cases hmore : (0 : Int) < (n / 10 : Nat)
    · rw [if_pos hmore, if_pos hmore]
      rw [Nat.pow_succ] at hlen
      have hfuel : 0 < fuel := by
        rcases Nat.eq_zero_or_pos fuel with rfl | hpos
        · rw [Nat.pow_zero] at hlen
          omega
        · exact hpos
      have hrest : digitLoop (fuel + 1) (pre ++ [c]).length ((pre ++ [c]) ++ post) (BitVec.ofNat 32 (n / 10)) = _ :=
        ih (by omega) (by omega) hfuel (Nat.le_of_succ_le_succ hroom)
      rw [← hseam, hone] at hrest
      rw [hrest]
      simp
    · rw [if_neg hmore, if_neg hmore]
      simp

theorem reverseLoop_append {sz mid : Nat} (i : Nat) {s : List Byte} (t : List Byte) (hs : sz = s.length)
    (hi : i ≤ sz) : reverseLoop sz mid i (s ++ t) = reverseLoop sz mid i s ++ t := by
  induction i generalizing s with
  | zero => rfl
  | succ i ih =>
    rw [reverseLoop, reverseLoop]
    split
    · have hget : ∀ j < sz, (s ++ t).getD j 0 = s.getD j 0 := by
        intro j hj
        rw [List.getD_eq_getElem?_getD, List.getD_eq_getElem?_getD, List.getElem?_append_left (by omega)]
      rw [hget i (by omega), hget (sz - i - 1) (by omega), List.set_append_left _ _ (by omega),
        List.set_append_left _ _ (by rw [List.length_set]; omega)]
      exact ih (by rw [List.length_set, List.length_set]; exact hs) (by omega)
    · rfl

/-- **The swaps** stay among the digits. -/
theorem swapLoop_eq {sz mid : Nat} {i : Nat} {s : List Byte} (hi : i ≤ sz) (hs : sz ≤ s.length) :
    swapLoop sz mid i s = .ok (reverseLoop sz mid i s) := by
  induction i generalizing s with
  | zero => rfl
  | succ i ih =>
    rw [swapLoop, reverseLoop]
    split
    · have hget : ∀ j < sz, s[j]? = some (s.getD j 0) := by
        intro j hj
        rw [List.getD_eq_getElem?_getD, List.getElem?_eq_getElem (by omega), Option.getD_some]
      have hfar : (sz : Int) - i - 1 = (sz - i - 1 : Nat) := by omega
      rw [hfar, load_natCast (hget _ (by omega)), ok_bind, load_natCast (hget i (by omega)), ok_bind,
        store_natCast (by omega), ok_bind, store_natCast (by rw [List.length_set]; omega), ok_bind]
      exact ih (by omega) (by rw [List.length_set, List.length_set]; exact hs)
    · rfl

/-! ## The handlers are those of `Exception.lean` -/

theorem skipBlanks_lt {buffer : List Byte} {i : Nat} (h : skipBlanks buffer = .ok i) : i < buffer.length := by
  induction buffer generalizing i with
  | nil => cases h
  | cons c cs ih =>
    rw [skipBlanks] at h
    rw [List.length_cons]
    split at h
    · obtain ⟨j, hj, rfl⟩ := map_eq_ok.1 h
      exact Nat.succ_lt_succ (ih hj)
    · cases h
      exact Nat.succ_pos _

/-- The digits are read from the part of the buffer that `Read` has filled. -/
theorem digitsFrom_drop {buffer : List Byte} {i : Nat} {nDigit : Int} (hi : i ≤ buffer.length)
    (hn : nDigit ≤ buffer.length) (number : Word) :
    digitsFrom buffer i (nDigit - i).toNat number = .ok (digits ((buffer.drop i).take (nDigit - i).toNat) number) := by
  have hseg := digitsFrom_eq (buffer.take i) ((buffer.drop i).take (nDigit - i).toNat)
    ((buffer.drop i).drop (nDigit - i).toNat) number
  rwa [List.take_append_drop, List.take_append_drop, List.length_take, List.length_take, List.length_drop,
    Nat.min_eq_left hi, Nat.min_eq_left (by omega)] at hseg

theorem parseInt_eq {buffer : List Byte} {nDigit : Int} (h : nDigit ≤ buffer.length) :
    parseInt buffer nDigit = Exception.parseInt buffer nDigit := by
  have hskip : skipFrom ([] ++ buffer) (buffer.length + 1) ([] : List Byte).length = _ :=
    skipFrom_eq (Nat.lt_succ_self _)
  have hid : ((([] : List Byte).length + ·) : Nat → Nat) = id := funext fun i => Nat.zero_add i
  rw [hid, id_map, List.nil_append, List.length_nil] at hskip
  rw [parseInt, Exception.parseInt, hskip]
  cases hi : skipBlanks buffer with
  | error e => rfl
  | ok i =>
    have hlt := skipBlanks_lt hi
    have hget : buffer[i]? = some buffer[i] := List.getElem?_eq_getElem hlt
    rw [ok_bind, ok_bind, load_natCast hget, ok_bind]
    simp only [hget, Option.some.injEq]
    by_cases h45 : buffer[i] = 45
    · simp only [h45, if_true]
      rw [digitsFrom_drop (by omega) h]
      rfl
    · simp only [h45, if_false]
      rw [digitsFrom_drop (by omega) h]
      rfl

/-- **`Read`** into an array of `n` bytes, all of it. -/
theorem read_all {n : Nat} (hn : n < 2 ^ 31) :
    read k (junk n).toList (BitVec.ofNat 32 n) = (fun r : List Byte × Word × Kernel =>
      (r.2.1, filled r.1 n, r.2.2)) <$> Kernel.consoleRead k (BitVec.ofNat 32 n) := by
  have hlen : (junk n).toList.length = n := Vector.length_toList
  have hint := CInt.toInt_ofNat hn
  rw [read_eq (by rw [hlen, hint]), hint, Int.toNat_natCast, List.drop_of_length_le (Nat.le_of_eq hlen)]
  simp only [List.append_nil]

theorem length_filled (stored : List Byte) (n : Nat) : (filled stored n).length = n := by
  rw [filled, List.length_take, List.length_append, List.length_replicate]
  omega

/-- What `Read` returns are bytes that it has stored. -/
theorem consoleRead_stored {k' : Kernel} {numBytes sz : Word} {stored : List Byte}
    (h : Kernel.consoleRead k numBytes = .ok (stored, sz, k')) :
    sz.toInt ≤ stored.length ∧ stored.length ≤ numBytes.toInt.toNat := by
  by_cases hn : 0 < numBytes.toInt
  · obtain ⟨ctrlA, hline, hsz⟩ := Kernel.consoleRead_of_ok hn h
    have hle := Kernel.length_consoleLine _ _ hline
    have hnat := Kernel.toInt_eq_toNat (Int.le_of_lt hn)
    have hlt : numBytes.toInt < 2 ^ 31 := BitVec.toInt_lt
    refine ⟨?_, by omega⟩
    rw [hsz]
    cases ctrlA with
    | true =>
      have hneg : (-1 : Word).toInt ≤ 0 := by decide
      rw [if_pos rfl]
      omega
    | false =>
      rw [if_neg Bool.false_ne_true, CInt.toInt_ofNat (by omega)]
  · rw [Kernel.consoleRead, if_pos (by omega)] at h
    cases h
    refine ⟨?_, Nat.zero_le _⟩
    split
    · decide
    · decide

theorem readInt_ok {k' : Kernel} {stored : List Byte} {nDigit : Word}
    (h : Kernel.consoleRead k (BitVec.ofNat 32 MAX_INT_LENGTH) = .ok (stored, nDigit, k')) :
    readInt junk k = (fun number => (some number, k')) <$>
      Exception.parseInt (filled stored MAX_INT_LENGTH) nDigit.toInt := by
  obtain ⟨hsz, hstored⟩ := consoleRead_stored h
  have hparse : parseInt (filled stored MAX_INT_LENGTH) nDigit.toInt = _ := parseInt_eq (by
    rw [length_filled]
    exact Int.le_trans hsz (Int.ofNat_le.2 hstored))
  rw [readInt, read_all (by decide), h, ← hparse]
  rfl

theorem readInt_eq : readInt junk k = Exception.readInt (Kernel.services S) k := by
  have hread : (Kernel.services S).consoleRead k (BitVec.ofNat 32 MAX_INT_LENGTH) =
      Kernel.consoleRead k (BitVec.ofNat 32 MAX_INT_LENGTH) := rfl
  rw [Exception.readInt, hread]
  cases hcons : Kernel.consoleRead k (BitVec.ofNat 32 MAX_INT_LENGTH) with
  | error e =>
    rw [readInt, read_all (by decide), hcons]
    rfl
  | ok r => exact readInt_ok hcons

theorem readChar_ok {k' : Kernel} {stored : List Byte} {sz : Word}
    (h : Kernel.consoleRead k (BitVec.ofNat 32 MAX_INT_LENGTH) = .ok (stored, sz, k')) :
    readChar junk k = (fun c => (some (c.signExtend 32), k')) <$>
      load .undefined (filled stored MAX_INT_LENGTH) (sz.toInt - 1) := by
  rw [readChar, read_all (by decide), h]
  rfl

theorem readChar_eq : readChar junk k = Exception.readChar (Kernel.services S) k := by
  have hread : (Kernel.services S).consoleRead k (BitVec.ofNat 32 MAX_INT_LENGTH) =
      Kernel.consoleRead k (BitVec.ofNat 32 MAX_INT_LENGTH) := rfl
  rw [Exception.readChar, hread]
  cases hcons : Kernel.consoleRead k (BitVec.ofNat 32 MAX_INT_LENGTH) with
  | error e =>
    rw [readChar, read_all (by decide), hcons]
    rfl
  | ok r =>
    obtain ⟨stored, sz, k1⟩ := r
    rw [readChar_ok hcons, ok_bind, load]
    by_cases hneg : sz.toInt - 1 < 0
    · simp only [hneg, if_true]
      rfl
    · simp only [hneg, if_false]
      cases (filled stored MAX_INT_LENGTH)[(sz.toInt - 1).toNat]? with
      | none => rfl
      | some c => rfl

theorem length_intDigits_le (fuel : Nat) (n : Word) : (intDigits fuel n).length ≤ fuel := by
  induction fuel generalizing n with
  | zero => exact Nat.le_refl 0
  | succ fuel ih =>
    rw [intDigits]
    split
    · rw [List.length_cons]
      exact Nat.succ_le_succ (ih _)
    · exact Nat.succ_le_succ (Nat.zero_le _)

/-- The digits of what is left without its sign. -/
theorem digitLoop_magnitude (n : Word) {buf : List Byte} (h : buf.length = MAX_INT_LENGTH) :
    digitLoop (MAX_INT_LENGTH + 1) 0 buf (magnitude n) =
      .ok ((intDigits MAX_INT_LENGTH (magnitude n)).length, intDigits MAX_INT_LENGTH (magnitude n) ++
        buf.drop (intDigits MAX_INT_LENGTH (magnitude n)).length) := by
  by_cases hmin : n = INT_MIN
  · obtain ⟨x, post, rfl⟩ := List.exists_cons_of_length_pos (show 0 < buf.length by rw [h]; decide)
    have hmag : magnitude n = INT_MIN := by
      rw [hmin]
      decide
    have hstore : store Stop.undefined (x :: post) (0 : Nat) (40 : Byte) = _ := store_append [] x 40 post
    have hchar : ((INT_MIN.srem 10 + 48).setWidth 8 : Byte) = 40 := by decide
    rw [hmag, digitLoop, hchar, hstore, ok_bind, if_neg (by decide)]
    rfl
  · obtain ⟨hmag, hlt⟩ := magnitude_eq hmin
    have hloop : digitLoop (MAX_INT_LENGTH + 1) ([] : List Byte).length ([] ++ buf) _ = _ :=
      digitLoop_ofNat hlt (Nat.lt_trans hlt (by decide)) (by decide) (Nat.le_of_eq h.symm)
    rw [List.nil_append, List.length_nil, List.nil_append, ← hmag] at hloop
    exact hloop

/-- What is printed, in the buffer's order. -/
theorem output_magnitude (n : Word) : (PrintCall.printInt n).output =
    (if n.toInt < 0 then [45] else []) ++ (intDigits MAX_INT_LENGTH (magnitude n)).reverse := by
  rw [← reverseLoop_eq, PrintCall.output, PrintCall.writes, magnitude]
  split
  · exact congrArg ([45] ++ ·) (List.append_nil _)
  · exact List.append_nil _

theorem printInt_eq (n : Word) : printInt S junk k n = Exception.printInt (Kernel.services S) k n := by
  have hlen : (junk MAX_INT_LENGTH).toList.length = MAX_INT_LENGTH := Vector.length_toList
  rw [Kernel.printInt_services]
  obtain ⟨k1, hsign, hout⟩ : ∃ k1, printSign (Kernel.services S) k n = .ok (magnitude n, k1) ∧
      ∀ l, ({ k1 with output := k1.output ++ l } : Kernel) =
        { k with output := k.output ++ ((if n.toInt < 0 then [45] else []) ++ l) } := by
    unfold printSign magnitude
    split
    · exact ⟨_, rfl, fun l => by rw [← List.append_assoc]⟩
    · exact ⟨k, rfl, fun l => rfl⟩
  rw [printInt, hsign, ok_bind]
  simp only [digitLoop_magnitude n hlen, ok_bind]
  have hle := length_intDigits_le MAX_INT_LENGTH (magnitude n)
  generalize hds : intDigits MAX_INT_LENGTH (magnitude n) = ds
  rw [hds] at hle
  have hrest : ((junk MAX_INT_LENGTH).toList.drop ds.length).length = MAX_INT_LENGTH - ds.length := by
    rw [List.length_drop, hlen]
  split
  · rename_i hfits
    obtain ⟨x, post, hpost⟩ := List.exists_cons_of_length_pos
      (show 0 < ((junk MAX_INT_LENGTH).toList.drop ds.length).length by omega)
    have hall : (ds ++ 10 :: post).length = ds.length + (post.length + 1) := by
      rw [List.length_append, List.length_cons]
    have hwrite := write_append (S := S) (k := k1) ds.reverse (10 :: post)
    rw [List.length_reverse] at hwrite
    rw [hpost, store_append, ok_bind, swapLoop_eq (Nat.le_refl _) (by omega), ok_bind,
      reverseLoop_append _ _ rfl (Nat.le_refl _), reverseLoop_eq, hwrite, output_magnitude, hds, ← hout]
    rfl
  · rename_i hfull
    rw [store_out, error_bind]
    right
    rw [List.length_append]
    omega

theorem readString_eq (bufAddrUser length : Word) :
    readString S junk k bufAddrUser length = Exception.readString (Kernel.services S) k bufAddrUser length := by
  have hlen : (junk LIMIT).toList.length = LIMIT := Vector.length_toList
  have hread : (Kernel.services S).consoleRead k length = Kernel.consoleRead k length := rfl
  rw [readString, Exception.readString]
  split
  · rename_i hlim
    rw [read_out (by rw [hlen]; exact hlim), error_bind]
  · rename_i hlim
    rw [read_eq (by rw [hlen]; exact Int.le_of_not_gt hlim), hread]
    cases hcons : Kernel.consoleRead k length with
    | error e => rfl
    | ok r =>
      obtain ⟨stored, sz, k1⟩ := r
      obtain ⟨hsz, hstored⟩ := consoleRead_stored hcons
      have hcopy : toUser S k1 bufAddrUser sz
          (filled stored length.toInt.toNat ++ (junk LIMIT).toList.drop length.toInt.toNat) =
          Exception.toUser (Kernel.services S) k1 bufAddrUser sz (fun i => (filled stored LIMIT).getD i 0) := by
        apply toUser_eq
        intro j hj
        -- only bytes that have been stored are sent
        have hjs : j < stored.length := by omega
        rw [filled_eq hstored, filled_eq (by omega), List.append_assoc, List.getElem?_append_left hjs,
          List.getD_eq_getElem?_getD, List.getElem?_append_left hjs, List.getElem?_eq_getElem hjs, Option.getD_some]
      show (toUser S k1 bufAddrUser sz _ >>= _) = _
      rw [hcopy]
      rfl

/-! ## What `Read` finds -/

/-- The input without the bytes that `Read` skips. -/
def keys (input : List Byte) : List Byte := input.filter fun c => decide (c ≠ 255)

/-- The bytes in front of the first newline or Ctrl-A. -/
def lineOf (input : List Byte) : List Byte := (keys input).takeWhile fun c => decide (c ≠ 10 ∧ c ≠ 1)

/-- The newline or Ctrl-A, if it has been typed. -/
def enderOf (input : List Byte) : Option Byte := ((keys input).dropWhile fun c => decide (c ≠ 10 ∧ c ≠ 1)).head?

theorem enderOf_eq {input : List Byte} {c : Byte} (h : enderOf input = some c) : c = 10 ∨ c = 1 := by
  have hhead := List.head?_dropWhile_not (fun c => decide (c ≠ 10 ∧ c ≠ 1)) (keys input)
  rw [enderOf] at h
  rw [h] at hhead
  by_contra hne
  exact of_decide_eq_false hhead (not_or.1 hne)

/-- **A line**, cut off where the buffer is full, or whole. -/
theorem consoleLine_eq (input : List Byte) (n : Nat) :
    (consoleLine input n).map (fun r => (r.1, r.2.1)) =
      if n ≤ (lineOf input).length then some ((lineOf input).take n, false)
      else (enderOf input).map fun c => (lineOf input, decide (c = 1)) := by
  induction input generalizing n with
  | nil =>
    cases n with
    | zero => rfl
    | succ n => rfl
  | cons c input ih =>
    cases n with
    | zero =>
      rw [consoleLine, if_pos (Nat.zero_le _), List.take_zero]
      rfl
    | succ n =>
      rw [consoleLine]
      by_cases hskip : c = 255
      · have hkeys : keys (c :: input) = keys input :=
          List.filter_cons_of_neg (by rw [decide_eq_true_eq, not_not]; exact hskip)
        rw [if_pos hskip, ih, lineOf, lineOf, enderOf, enderOf, hkeys]
      · have hkeys : keys (c :: input) = c :: keys input :=
          List.filter_cons_of_pos (by rw [decide_eq_true_eq]; exact hskip)
        rw [if_neg hskip]
        by_cases hend : c = 10 ∨ c = 1
        · have hstop : ¬ (c ≠ 10 ∧ c ≠ 1) := by
            rw [not_and_or, not_not, not_not]
            exact hend
          have hline : lineOf (c :: input) = [] := by
            rw [lineOf, hkeys, List.takeWhile_cons_of_neg (by rw [decide_eq_true_eq]; exact hstop)]
          have hender : enderOf (c :: input) = some c := by
            rw [enderOf, hkeys, List.dropWhile_cons_of_neg (by rw [decide_eq_true_eq]; exact hstop), List.head?_cons]
          have hlen : ¬ n + 1 ≤ ([] : List Byte).length := Nat.not_succ_le_zero n
          rw [hline, hender, if_neg hlen, Option.map_some]
          rcases hend with rfl | rfl
          · rfl
          · rfl
        · rw [not_or] at hend
          have hline : lineOf (c :: input) = c :: lineOf input := by
            rw [lineOf, hkeys, List.takeWhile_cons_of_pos (by rw [decide_eq_true_eq]; exact hend), lineOf]
          have hender : enderOf (c :: input) = enderOf input := by
            rw [enderOf, hkeys, List.dropWhile_cons_of_pos (by rw [decide_eq_true_eq]; exact hend), enderOf]
          rw [if_neg hend.1, if_neg hend.2, hline, hender, List.length_cons, Option.map_map]
          have hrest := congrArg (Option.map fun r : List Byte × Bool => (c :: r.1, r.2)) (ih n)
          rw [Option.map_map] at hrest
          apply hrest.trans
          by_cases hn : n ≤ (lineOf input).length
          · rw [if_pos hn, if_pos (Nat.succ_le_succ hn), Option.map_some, List.take_succ_cons]
          · rw [if_neg hn, if_neg (fun h => hn (Nat.le_of_succ_le_succ h)), Option.map_map]
            rfl

theorem consoleRead_line {stored : List Byte} {ctrlA : Bool}
    (h : (consoleLine k.input MAX_INT_LENGTH).map (fun r => (r.1, r.2.1)) = some (stored, ctrlA)) :
    ∃ k', Kernel.consoleRead k (BitVec.ofNat 32 MAX_INT_LENGTH) =
      .ok (stored, if ctrlA then -1 else BitVec.ofNat 32 stored.length, k') := by
  obtain ⟨⟨stored', ctrlA', rest⟩, hline, hr⟩ := Option.map_eq_some_iff.1 h
  obtain ⟨rfl, rfl⟩ := Prod.mk.inj hr
  have hnat : (BitVec.ofNat 32 MAX_INT_LENGTH).toNat = MAX_INT_LENGTH := rfl
  refine ⟨{ k with input := rest }, ?_⟩
  rw [Kernel.consoleRead, if_neg (by decide), hnat, hline]

/-- `Read` with a buffer that is filled. -/
theorem consoleRead_cut (h : MAX_INT_LENGTH ≤ (lineOf k.input).length) :
    ∃ k', Kernel.consoleRead k (BitVec.ofNat 32 MAX_INT_LENGTH) =
      .ok ((lineOf k.input).take MAX_INT_LENGTH, BitVec.ofNat 32 MAX_INT_LENGTH, k') := by
  have hline := consoleLine_eq k.input MAX_INT_LENGTH
  rw [if_pos h] at hline
  obtain ⟨k', hread⟩ := consoleRead_line hline
  rw [if_neg Bool.false_ne_true, List.length_take, Nat.min_eq_left h] at hread
  exact ⟨k', hread⟩

/-- `Read` of a whole line. -/
theorem consoleRead_ended {c : Byte} (h : (lineOf k.input).length < MAX_INT_LENGTH) (hc : enderOf k.input = some c) :
    ∃ k', Kernel.consoleRead k (BitVec.ofNat 32 MAX_INT_LENGTH) =
      .ok (lineOf k.input, if c = 1 then -1 else BitVec.ofNat 32 (lineOf k.input).length, k') := by
  have hline := consoleLine_eq k.input MAX_INT_LENGTH
  rw [if_neg (Nat.not_le_of_lt h), hc, Option.map_some] at hline
  obtain ⟨k', hread⟩ := consoleRead_line hline
  simp only [decide_eq_true_eq] at hread
  exact ⟨k', hread⟩

/-- `Read` of a line that is never ended. -/
theorem consoleRead_waits (h : (lineOf k.input).length < MAX_INT_LENGTH) (hc : enderOf k.input = none) :
    Kernel.consoleRead k (BitVec.ofNat 32 MAX_INT_LENGTH) = .error .forever := by
  have hline := consoleLine_eq k.input MAX_INT_LENGTH
  rw [if_neg (Nat.not_le_of_lt h), hc, Option.map_none, Option.map_eq_none_iff] at hline
  have hnat : (BitVec.ofNat 32 MAX_INT_LENGTH).toNat = MAX_INT_LENGTH := rfl
  rw [Kernel.consoleRead, if_neg (by decide), hnat, hline]

/-! ## Which calls stay inside -/

/-- The console calls that have a buffer in the kernel. -/
inductive ConsoleCall where
  | readInt
  | printInt (n : Word)
  | readChar
  | readString (bufAddrUser length : Word)

def ConsoleCall.run (S : Services Kernel) (junk : Junk) (k : Kernel) : ConsoleCall → Except Stop (Option Word × Kernel)
  | .readInt => KernelBuffer.readInt junk k
  | .printInt n => KernelBuffer.printInt S junk k n
  | .readChar => KernelBuffer.readChar junk k
  | .readString bufAddrUser length => KernelBuffer.readString S junk k bufAddrUser length

/-- `ReadInt` with ten blanks or more in front; `PrintInt` of ten digits; `ReadChar` of an empty line, or of
one that Ctrl-A ends; `ReadString` of more bytes than the buffer has. -/
def Leaves (k : Kernel) : ConsoleCall → Prop
  | .readInt => MAX_INT_LENGTH ≤ (lineOf k.input).length ∧ ∀ c ∈ (lineOf k.input).take MAX_INT_LENGTH, IsBlank c
  | .printInt n => 10 ^ 9 ≤ n.toInt.natAbs ∧ n ≠ INT_MIN
  | .readChar => (lineOf k.input = [] ∧ enderOf k.input = some 10) ∨
      ((lineOf k.input).length < MAX_INT_LENGTH ∧ enderOf k.input = some 1)
  | .readString _ length => (LIMIT : Int) < length.toInt

theorem skipBlanks_undefined_iff (l : List Byte) : skipBlanks l = .error .undefined ↔ ∀ c ∈ l, IsBlank c := by
  induction l with
  | nil => exact iff_of_true rfl (by simp)
  | cons c l ih =>
    rw [skipBlanks, List.forall_mem_cons]
    split
    · rename_i hblank
      have hc : IsBlank c := hblank
      rw [map_eq_error, ih, and_iff_right hc]
    · rename_i hblank
      refine iff_of_false ?_ (fun h => hblank h.1)
      intro h
      cases h

/-- The parser leaves the buffer exactly if there are only blanks in it. -/
theorem parseInt_undefined_iff (buffer : List Byte) (nDigit : Int) :
    Exception.parseInt buffer nDigit = .error .undefined ↔ ∀ c ∈ buffer, IsBlank c := by
  rw [← skipBlanks_undefined_iff, Exception.parseInt]
  cases skipBlanks buffer with
  | error e =>
    rw [error_bind]
    constructor
    · intro h
      cases h
      rfl
    · intro h
      cases h
      rfl
  | ok i =>
    refine iff_of_false ?_ nofun
    intro h
    simp only [ok_bind] at h
    split at h
    · cases h
    · cases h

theorem leaves_readInt : readInt junk k ≠ .error .undefined ↔ ¬ Leaves k .readInt := by
  rw [not_iff_not, Leaves]
  rcases Nat.lt_or_ge (lineOf k.input).length MAX_INT_LENGTH with hlt | hge
  · refine iff_of_false ?_ (fun h => absurd h.1 (Nat.not_le_of_lt hlt))
    cases hc : enderOf k.input with
    | none =>
      rw [readInt, read_all (by decide), consoleRead_waits hlt hc]
      exact nofun
    | some c =>
      obtain ⟨k', hread⟩ := consoleRead_ended hlt hc
      rw [readInt_ok hread, map_eq_error, parseInt_undefined_iff, filled_eq (Nat.le_of_lt hlt)]
      intro hall
      -- a zero stands behind the line
      have hzero : (0 : Byte) ∈ List.replicate (MAX_INT_LENGTH - (lineOf k.input).length) 0 :=
        List.mem_replicate.2 ⟨by omega, rfl⟩
      exact absurd (hall 0 (List.mem_append_right _ hzero)) (by decide)
  · obtain ⟨k', hread⟩ := consoleRead_cut hge
    have hlen : ((lineOf k.input).take MAX_INT_LENGTH).length = MAX_INT_LENGTH := by
      rw [List.length_take, Nat.min_eq_left hge]
    rw [readInt_ok hread, map_eq_error, parseInt_undefined_iff, filled_eq (Nat.le_of_eq hlen), hlen, Nat.sub_self,
      List.replicate_zero, List.append_nil, and_iff_right hge]

theorem leaves_printInt (n : Word) : printInt S junk k n ≠ .error .undefined ↔ ¬ Leaves k (.printInt n) := by
  rw [printInt_eq, Kernel.printInt_services, Leaves]
  by_cases hmin : n = INT_MIN
  · subst hmin
    rw [if_pos (by decide)]
    exact iff_of_true (by simp) (fun h => h.2 rfl)
  · have hfits := Kernel.fits_iff hmin
    split
    · rename_i hlt
      have hsmall := hfits.1 hlt
      exact iff_of_true (by simp) (fun h => by omega)
    · rename_i hfull
      have hbig := mt hfits.2 hfull
      exact iff_of_false (fun h => h rfl) (not_not.2 ⟨Nat.le_of_not_lt hbig, hmin⟩)

theorem leaves_readChar : readChar junk k ≠ .error .undefined ↔ ¬ Leaves k .readChar := by
  rw [not_iff_not, Leaves]
  rcases Nat.lt_or_ge (lineOf k.input).length MAX_INT_LENGTH with hlt | hge
  · have h10 : MAX_INT_LENGTH = 10 := rfl
    cases hc : enderOf k.input with
    | none =>
      rw [readChar, read_all (by decide), consoleRead_waits hlt hc]
      exact iff_of_false nofun (by simp)
    | some c =>
      obtain ⟨k', hread⟩ := consoleRead_ended hlt hc
      rw [readChar_ok hread, map_eq_error, load_eq_bad_iff, length_filled, Option.some.injEq, Option.some.injEq,
        and_iff_right hlt, ← List.length_eq_zero_iff]
      rcases enderOf_eq hc with rfl | rfl
      · have hne : ¬ (10 : Byte) = 1 := by decide
        rw [if_neg hne, CInt.toInt_ofNat (by omega), and_iff_left rfl, or_iff_left hne]
        omega
      · have hneg : (-1 : Word).toInt - 1 < 0 := by decide
        rw [if_pos rfl]
        exact iff_of_true (.inl hneg) (.inr rfl)
  · obtain ⟨k', hread⟩ := consoleRead_cut hge
    rw [readChar_ok hread, map_eq_error, load_eq_bad_iff, length_filled]
    apply iff_of_false (by decide)
    rintro (⟨hnil, -⟩ | ⟨hlt, -⟩)
    · rw [hnil] at hge
      exact absurd hge (by decide)
    · exact absurd hlt (Nat.not_lt_of_le hge)

theorem leaves_readString (bufAddrUser length : Word) :
    readString S junk k bufAddrUser length ≠ .error .undefined ↔ ¬ Leaves k (.readString bufAddrUser length) := by
  rw [readString_eq, Leaves, Exception.readString]
  split
  · rename_i hlim
    exact iff_of_false (fun h => h rfl) (not_not.2 hlim)
  · rename_i hlim
    refine iff_of_true (Ends.ne_bad ((Kernel.ends_consoleRead k length).bind (R := fun _ => True) (fun r _ => ?_))) hlim
    exact (Kernel.ends_toUser _ _ _ _).bind (fun _ _ => trivial)

end KernelBuffer

open Nachos.Stub.KernelBuffer in
/-- **The console calls stay inside of their buffers**, for every input and every argument and whatever the
arrays hold before, exactly if they do not leave them as `Leaves` says. -/
theorem kernel_buffers_iff {S : Services Kernel} (junk : Junk) (k : Kernel) (c : ConsoleCall) :
    c.run S junk k ≠ .error .undefined ↔ ¬ Leaves k c := by
  cases c with
  | readInt => exact leaves_readInt
  | printInt n => exact leaves_printInt n
  | readChar => exact leaves_readChar
  | readString bufAddrUser length => exact leaves_readString bufAddrUser length

open Nachos.Stub.KernelBuffer in
/-- `ReadChar` of an empty line reads `buf[-1]`. -/
theorem readChar_leaves_buffer : (Kernel.typing [[]]).input = [10] ∧
    ∀ S, ConsoleCall.readChar.run S (fun n => Vector.replicate n 0) (Kernel.typing [[]]) = .error .undefined := by
  have hleaves : Leaves (Kernel.typing [[]]) .readChar := .inl ⟨rfl, rfl⟩
  refine ⟨rfl, ?_⟩
  intro S
  rw [ConsoleCall.run]
  by_contra hrun
  exact leaves_readChar.1 hrun hleaves

end Stub

end Nachos
