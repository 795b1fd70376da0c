import Nachos.Userprog.RoundTrip

/-!
# What the file system calls report and write

`ReadFile`, `WriteFile` and `ReadString` of the FILESYS_STUB build for any page table: what comes
back in `r2`, and which bytes of the process change.

* `readFile_open`, `writeFile_of_ok` — the two calls on an open file.
* `file_counts_iff` — when `r2` is the number of bytes moved.
* `file_call_result_iff` — when `r2` is written at all.
-/

set_option autoImplicit false

namespace Nachos

open CString Exception Partial

namespace Stub

namespace Kernel

variable {S : Services Kernel} {k k' : Kernel} {m_index bufAddr numBuf : Word} {i : Fin 10} {f : OpenFile}

/-! ## The memory of the process, in the kernel -/

theorem user2SystemFrom_services (S : Services Kernel) (virtAddr : Word) : ∀ (n i : Nat) (k : Kernel) (buf : Nat → Byte),
    user2SystemFrom (services S).readMem virtAddr k buf i n =
      (user2SystemFrom UserSpace.readByte virtAddr k.user buf i n).map fun r => (r.1, { k with user := r.2 }) := by
  intro n
  induction n with
  | zero =>
    intro i k buf
    rfl
  | succ n ih =>
    intro i k buf
    rw [user2SystemFrom, user2SystemFrom]
    show ((k.user.readByte _).map _).bind _ = ((k.user.readByte _).bind _).map _
    cases k.user.readByte (virtAddr + BitVec.ofNat 32 i) with
    | none => rfl
    | some r =>
      simp only [Option.map_some, Option.bind_some]
      split
      · rfl
      · rw [ih]

theorem system2UserFrom_services (S : Services Kernel) (virtAddr : Word) (buffer : Nat → Byte) :
    ∀ (n i : Nat) (k : Kernel), system2UserFrom (services S).writeMem virtAddr buffer k i n =
      (system2UserFrom UserSpace.writeByte virtAddr buffer k.user i n).map fun r => (r.1, { k with user := r.2 }) := by
  intro n
  induction n with
  | zero =>
    intro i k
    rfl
  | succ n ih =>
    intro i k
    rw [system2UserFrom, system2UserFrom]
    show ((k.user.writeByte _ _).map _).bind _ = ((k.user.writeByte _ _).bind _).map _
    cases k.user.writeByte (virtAddr + BitVec.ofNat 32 i) (buffer i) with
    | none => rfl
    | some u =>
      simp only [Option.map_some, Option.bind_some]
      split
      · rw [ih]
      · rfl

theorem orHalt_eq_ok {α : Type} {x : Option α} {a : α} : orHalt x = .ok a ↔ x = some a := by
  cases x with
  | none => exact ⟨nofun, nofun⟩
  | some b => exact ⟨fun h => by cases h; rfl, fun h => by cases h; rfl⟩

theorem newChars_eq_ok {n : Word} : newChars n = .ok () ↔ 0 ≤ n.toInt := by
  unfold newChars
  split
  · exact ⟨nofun, fun h => by omega⟩
  · exact ⟨fun _ => by omega, fun _ => rfl⟩

/-- `User2System`, when it comes back. -/
theorem userString_of_ok {virtAddr limit : Word} {buf : Nat → Byte}
    (h : userString (services S) k virtAddr limit = .ok (buf, k')) :
    0 ≤ (limit + 1).toInt ∧ buf = padded (str (k.user.bytesAt virtAddr) 0 limit.toNat) ∧
      k' = { k with user := k'.user } ∧ UserSpace.Quiet k.user k'.user := by
  obtain ⟨⟨⟩, hnew, h⟩ := bind_eq_ok.1 h
  rw [orHalt_eq_ok, user2System, user2SystemFrom_services] at h
  obtain ⟨⟨buf', u⟩, hu, heq⟩ := Option.map_eq_some_iff.1 h
  cases heq
  obtain ⟨rfl, hquiet⟩ := UserSpace.user2System_of_some hu
  exact ⟨newChars_eq_ok.1 hnew, rfl, rfl, hquiet⟩

/-- It comes back if the buffer can be read. -/
theorem userString_isOk {virtAddr : Word} {n : Nat} (hn : n + 1 < 2 ^ 31)
    (h : ∀ j < n, (k.user.view (virtAddr + BitVec.ofNat 32 j)).isSome) :
    ∃ r, userString (services S) k virtAddr (BitVec.ofNat 32 n) = .ok r := by
  obtain ⟨u, hu, -⟩ := UserSpace.user2System_isSome (u := k.user) (fun j hj _ => h j hj)
  have hnew : newChars (BitVec.ofNat 32 n + 1) = .ok () := by
    rw [show (1 : Word) = BitVec.ofNat 32 1 from rfl, ← BitVec.ofNat_add]
    exact newChars_ofNat hn
  rw [user2System] at hu
  rw [userString, hnew, ok_bind, CInt.toNat_ofNat (by omega), user2System, user2SystemFrom_services, hu]
  exact ⟨_, rfl⟩

/-- `System2User`, when it comes back. -/
theorem toUser_of_ok {virtAddr len : Word} {buffer : Nat → Byte}
    (h : toUser (services S) k virtAddr len buffer = .ok k') :
    k' = { k with user := k'.user } ∧
      k.user.Wrote k'.user virtAddr buffer 0 (sent buffer 0 len.toInt.toNat) := by
  rw [toUser, orHalt_eq_ok] at h
  obtain ⟨⟨m, k1⟩, hk1, rfl⟩ := Option.map_eq_some_iff.1 h
  rw [system2User] at hk1
  split at hk1
  · rename_i hneg
    cases hk1
    rw [Int.toNat_of_nonpos (by omega)]
    exact ⟨rfl, UserSpace.Wrote.none _ _ _ _⟩
  · rw [system2UserFrom_services] at hk1
    obtain ⟨_, hfrom, heq⟩ := Option.map_eq_some_iff.1 hk1
    obtain ⟨⟨m', u⟩, hu, rfl⟩ := Option.map_eq_some_iff.1 hfrom
    cases heq
    exact ⟨rfl, UserSpace.system2UserFrom_of_some _ _ _ _ _ hu⟩

/-- It comes back if what it writes can be written. -/
theorem toUser_isOk {virtAddr : Word} {n : Nat} {buffer : Nat → Byte} (hn : n < 2 ^ 31)
    (hw : ∀ j < sent buffer 0 n, k.user.writable (virtAddr + BitVec.ofNat 32 j)) :
    ∃ k', toUser (services S) k virtAddr (BitVec.ofNat 32 n) buffer = .ok k' := by
  obtain ⟨m, u, hu⟩ := UserSpace.system2UserFrom_isSome n 0 k.user (by simpa using hw)
  refine ⟨{ k with user := u }, ?_⟩
  rw [toUser, CInt.toInt_ofNat hn, system2User, if_neg (by omega), Int.toNat_natCast, system2UserFrom_services, hu]
  rfl

/-! ## The two calls on an open file -/

/-- `openf[i]->GetCurrentPos()`. -/
def atPos (k : Kernel) (i : Fin 10) (f : OpenFile) : Kernel := k.setFile i (some { f with currentOffset := f.offset })

/-- The next `n` bytes of a file. -/
def next (k : Kernel) (f : OpenFile) (n : Nat) : List Byte := ((k.host.content f.file).drop f.offset).take n

/-- A file after `m` more bytes. -/
def advance (f : OpenFile) (m : Nat) : OpenFile := { f with offset := f.offset + m, currentOffset := f.offset + m }

/-- `ReadFile`, when the index has been checked and the buffer has been fetched. -/
def readOpen (S : Services Kernel) (i : Fin 10) (f : OpenFile) (bufAddr numBuf : Word) (buf : Nat → Byte) (k : Kernel) :
    Except Stop (Option Word × Kernel) :=
  if f.type = 2 then do
    let (stored, sz, k) ← consoleRead k numBuf
    let k ← toUser (services S) k bufAddr sz (fun i => (filled stored numBuf.toNat).getD i 0)
    .ok (some sz, k)
  else
    let data := next k f numBuf.toNat
    let k := k.setFile i (some (advance f data.length))
    if 0 < data.length then do
      let k ← toUser (services S) k bufAddr (BitVec.ofNat 32 (data.length + 1)) (fun j => data.getD j (buf j))
      .ok (some (BitVec.ofNat 32 (data.length + 1)), k)
    else .ok (some (-1), k)

theorem length_next_le (k : Kernel) (f : OpenFile) (n : Nat) : (next k f n).length ≤ n := by
  rw [next, List.length_take]
  omega

/-- `GetCurrentPos` where the file is already at its position. -/
theorem getCurrentPos_advance {m : Nat} (hi : slot m_index = .ok i) (hf : k.openf i = some (advance f m)) :
    (services S).getCurrentPos k m_index = .ok (BitVec.ofNat 32 (f.offset + m), k) := by
  simp only [services, file_eq hi hf, ok_bind]
  show Except.ok (_, { k with openf := Function.update k.openf i (some (advance f m)) }) = _
  rw [← hf, Function.update_eq_self]
  rfl

/-- `NewPos - OldPos + 1`, after `m` bytes. -/
theorem newPos_sub_oldPos (p m : Nat) :
    BitVec.ofNat 32 (p + m) - BitVec.ofNat 32 p + 1 = BitVec.ofNat 32 (m + 1) := by
  rw [BitVec.ofNat_add, BitVec.add_comm (BitVec.ofNat 32 p), BitVec.add_sub_cancel, BitVec.ofNat_add]
  rfl

/-- **`ReadFile` of an open file.** -/
theorem readFile_open (hi : slot m_index = .ok i) (hf : k.openf i = some f) :
    readFile (services S) k bufAddr numBuf m_index = (do
      newChars numBuf
      let r ← userString (services S) (k.atPos i f) bufAddr numBuf
      readOpen S i f bufAddr numBuf r.1 r.2) := by
  have hat : At k i (k.host.content f.file) f := ⟨hf, rfl⟩
  have hat1 : At (k.atPos i f) i (k.host.content f.file) { f with currentOffset := f.offset } :=
    ⟨by simp [atPos, setFile], rfl⟩
  have hpos : (services S).getCurrentPos k m_index = .ok (BitVec.ofNat 32 f.offset, k.atPos i f) := by
    simp only [services, file_eq hi hf]
    rfl
  unfold readFile
  cases hnew : newChars numBuf with
  | error e => rfl
  | ok _ =>
    obtain ⟨n, hn, rfl⟩ := CInt.exists_ofNat (newChars_eq_ok.1 hnew)
    simp only [ok_bind, if_neg (not_badIndex hi), hat.isNull hi, Bool.false_eq_true, if_false, hpos]
    cases hstr : userString (services S) (k.atPos i f) bufAddr (BitVec.ofNat 32 n) with
    | error e => rfl
    | ok r =>
      obtain ⟨buf, k2⟩ := r
      obtain ⟨-, -, hk2, -⟩ := userString_of_ok hstr
      have hat2 : At k2 i (k.host.content f.file) { f with currentOffset := f.offset } := by
        rw [hk2]
        exact hat1.user _
      simp only [ok_bind, hat2.type hi, readOpen]
      split
      · rfl
      · have hlen := length_next_le k2 f n
        have hread : (services S).read k2 m_index buf (BitVec.ofNat 32 n) =
            .ok (BitVec.ofNat 32 (next k2 f n).length, fun j => (next k2 f n).getD j (buf j),
              k2.setFile i (some (advance f (next k2 f n).length))) := by
          simp only [services, file_eq hi hat2.openf, ok_bind, OpenFile.read, OpenFile.readAt, CInt.toNat_ofNat hn]
          rfl
        simp only [hread, ok_bind, CInt.toNat_ofNat hn]
        rw [CInt.toInt_ofNat (by omega)]
        by_cases hpos0 : 0 < (next k2 f n).length
        · have hadv : (k2.setFile i (some (advance f (next k2 f n).length))).openf i = some (advance f (next k2 f n).length) :=
            Function.update_self _ _ _
          rw [if_pos hpos0, if_pos (by omega), getCurrentPos_advance hi hadv, ok_bind]
          simp only [newPos_sub_oldPos]
        · rw [if_neg hpos0, if_neg (by omega)]

theorem length_consoleLine : ∀ (input : List Byte) (n : Nat) {stored input' : List Byte} {ctrlA : Bool},
    consoleLine input n = some (stored, ctrlA, input') → stored.length ≤ n := by
  intro input n
  induction input, n using consoleLine.induct with
  | case1 input =>
    intro stored input' ctrlA h
    rw [consoleLine] at h
    cases h
    exact Nat.le_refl 0
  | case2 n =>
    intro stored input' ctrlA h
    cases h
  | case3 input n ih =>
    intro stored input' ctrlA h
    rw [consoleLine, if_pos rfl] at h
    exact ih h
  | case4 input n hne =>
    intro stored input' ctrlA h
    rw [consoleLine, if_neg hne, if_pos rfl] at h
    cases h
    exact Nat.zero_le _
  | case5 input n hne hne' =>
    intro stored input' ctrlA h
    rw [consoleLine, if_neg hne, if_neg hne', if_pos rfl] at h
    cases h
    exact Nat.zero_le _
  | case6 c input n h255 h10 h1 ih =>
    intro stored input' ctrlA h
    rw [consoleLine, if_neg h255, if_neg h10, if_neg h1] at h
    obtain ⟨⟨stored1, ctrlA1, input1⟩, hr, heq⟩ := Option.map_eq_some_iff.1 h
    cases heq
    exact Nat.succ_le_succ (ih hr)

/-- `SynchConsole::Read` of at least one byte. -/
theorem consoleRead_of_ok {stored : List Byte} {sz : Word} (hn : 0 < numBuf.toInt)
    (h : consoleRead k numBuf = .ok (stored, sz, k')) :
    ∃ ctrlA, consoleLine k.input numBuf.toNat = some (stored, ctrlA, k'.input) ∧
      sz = (if ctrlA then -1 else BitVec.ofNat 32 stored.length) := by
  rw [consoleRead, if_neg (by omega)] at h
  cases hline : consoleLine k.input numBuf.toNat with
  | none =>
    rw [hline] at h
    cases h
  | some r =>
    obtain ⟨stored', ctrlA, input⟩ := r
    rw [hline] at h
    cases h
    exact ⟨ctrlA, rfl, rfl⟩

/-- It reports at most the bytes it was asked for, and changes only the input. -/
theorem consoleRead_le {stored : List Byte} {sz : Word} (h : consoleRead k numBuf = .ok (stored, sz, k')) :
    sz.toInt.toNat ≤ numBuf.toInt.toNat ∧ k' = { k with input := k'.input } := by
  by_cases hn : 0 < numBuf.toInt
  · obtain ⟨ctrlA, hline, rfl⟩ := consoleRead_of_ok hn h
    obtain ⟨n, hlt, rfl⟩ := CInt.exists_ofNat (Int.le_of_lt hn)
    rw [CInt.toNat_ofNat hlt] at hline
    have hlen := length_consoleLine _ _ hline
    constructor
    · cases ctrlA with
      | true => exact Nat.zero_le _
      | false =>
        rw [if_neg Bool.false_ne_true, CInt.toInt_ofNat (by omega), CInt.toInt_ofNat hlt]
        omega
    · rw [consoleRead, if_neg (by omega), CInt.toNat_ofNat hlt, hline] at h
      exact (congrArg (fun r => r.2.2) (Except.ok.inj h)).symm
  · rw [consoleRead, if_pos (by omega)] at h
    cases h
    refine ⟨?_, rfl⟩
    split
    · exact Nat.zero_le _
    · exact Nat.zero_le _

/-- Only the input and `ch` matter to it. -/
theorem consoleRead_congr {k2 k3 : Kernel} {stored : List Byte} {sz : Word} (hinput : k2.input = k.input)
    (hch : k2.ch = k.ch) (h : consoleRead k2 numBuf = .ok (stored, sz, k3)) :
    consoleRead k numBuf = .ok (stored, sz, { k with input := k3.input }) := by
  unfold consoleRead at h ⊢
  rw [hinput, hch] at h
  split at h
  · rename_i hn
    cases h
    rw [if_pos hn, hinput]
  · rename_i hn
    rw [if_neg hn]
    split at h
    · cases h
    · cases h
      rfl

/-- What an open file, the console and the process look like after `ReadFile` has returned with `r2`. -/
structure AfterRead (k k' : Kernel) (i : Fin 10) (f : OpenFile) (bufAddr numBuf : Word) (r2 : Option Word) : Prop where
  console : f.type = 2 → ∃ stored sz, consoleRead k numBuf = .ok (stored, sz, { k with input := k'.input }) ∧
    r2 = some sz ∧ k.user.Wrote k'.user bufAddr (fun j => (filled stored numBuf.toNat).getD j 0) 0
      (sent (fun j => (filled stored numBuf.toNat).getD j 0) 0 sz.toInt.toNat)
  position : f.type ≠ 2 → k'.openf i = some (advance f (next k f numBuf.toNat).length) ∧ k'.host = k.host
  some : f.type ≠ 2 → 0 < (next k f numBuf.toNat).length →
    r2 = some (BitVec.ofNat 32 ((next k f numBuf.toNat).length + 1)) ∧
    k.user.Wrote k'.user bufAddr
      (fun j => (next k f numBuf.toNat).getD j (padded (str (k.user.bytesAt bufAddr) 0 numBuf.toNat) j)) 0
      (sent (fun j => (next k f numBuf.toNat).getD j (padded (str (k.user.bytesAt bufAddr) 0 numBuf.toNat) j)) 0
        ((next k f numBuf.toNat).length + 1))
  none : f.type ≠ 2 → (next k f numBuf.toNat).length = 0 → r2 = Option.some (-1) ∧
    k'.user.mainMemory = k.user.mainMemory

/-- `ReadFile` of an open file, when it comes back. -/
theorem readFile_of_ok {r2 : Option Word} (hi : slot m_index = .ok i) (hf : k.openf i = some f)
    (h : readFile (services S) k bufAddr numBuf m_index = .ok (r2, k')) :
    numBuf.toNat + 1 < 2 ^ 31 ∧ AfterRead k k' i f bufAddr numBuf r2 := by
  rw [readFile_open hi hf] at h
  obtain ⟨⟨⟩, hnew, h⟩ := bind_eq_ok.1 h
  obtain ⟨⟨buf, k2⟩, hstr, h⟩ := bind_eq_ok.1 h
  obtain ⟨hlim, rfl, hk2, hquiet⟩ := userString_of_ok hstr
  have hn : numBuf.toNat + 1 < 2 ^ 31 := by
    obtain ⟨n, hn, rfl⟩ := CInt.exists_ofNat (newChars_eq_ok.1 hnew)
    rw [CInt.toNat_ofNat hn]
    by_contra hge
    obtain rfl : n = 2 ^ 31 - 1 := by omega
    exact absurd hlim (by decide)
  refine ⟨hn, ?_⟩
  have hbytes : (k.atPos i f).user.bytesAt bufAddr = k.user.bytesAt bufAddr := rfl
  have hnext : next k2 f numBuf.toNat = next k f numBuf.toNat := by
    rw [hk2]
    rfl
  have hlen := length_next_le k f numBuf.toNat
  rw [hbytes] at h
  unfold readOpen at h
  split at h
  · rename_i htype
    refine ⟨fun _ => ?_, fun hne => absurd htype hne, fun hne => absurd htype hne, fun hne => absurd htype hne⟩
    obtain ⟨⟨stored, sz, k3⟩, hread, h⟩ := bind_eq_ok.1 h
    obtain ⟨k4, hcopy, h⟩ := bind_eq_ok.1 h
    cases h
    obtain ⟨hk4, hwrote⟩ := toUser_of_ok hcopy
    have hk3 := (consoleRead_le hread).2
    have hinput : k'.input = k3.input := by rw [hk4]
    have huser : k3.user = k2.user := by rw [hk3]
    rw [huser] at hwrote
    refine ⟨stored, sz, ?_, rfl, hwrote.of_quiet hquiet⟩
    rw [hinput]
    refine consoleRead_congr ?_ ?_ hread
    · rw [hk2]
      rfl
    · rw [hk2]
      rfl
  · rename_i htype
    simp only [hnext] at h
    have hhost : k2.host = k.host := by
      rw [hk2]
      rfl
    refine ⟨fun h2 => absurd h2 htype, fun _ => ?_, fun _ hpos => ?_, fun _ hzero => ?_⟩
    · split at h
      · obtain ⟨k4, hcopy, h⟩ := bind_eq_ok.1 h
        cases h
        rw [(toUser_of_ok hcopy).1]
        exact ⟨Function.update_self _ _ _, hhost⟩
      · cases h
        exact ⟨Function.update_self _ _ _, hhost⟩
    · rw [if_pos hpos] at h
      obtain ⟨k4, hcopy, h⟩ := bind_eq_ok.1 h
      cases h
      obtain ⟨-, hwrote⟩ := toUser_of_ok hcopy
      rw [CInt.toInt_ofNat (by omega), Int.toNat_natCast] at hwrote
      exact ⟨rfl, hwrote.of_quiet hquiet⟩
    · rw [if_neg (by omega)] at h
      cases h
      exact ⟨rfl, hquiet.mainMemory⟩

theorem writeChars_eq (l : List Byte) (k : Kernel) :
    writeChars (services S) k l = .ok { k with output := k.output ++ l } := by
  induction l generalizing k with
  | nil =>
    rw [List.append_nil]
    rfl
  | cons c l ih =>
    have hstep : writeChars (services S) k (c :: l) = writeChars (services S) { k with output := k.output ++ [c] } l :=
      rfl
    rw [hstep, ih, List.append_assoc]
    rfl

/-- What `WriteFile` of the bytes at `bufAddr` sends to the console. -/
theorem str_padded_str (b : Nat → Byte) (n : Nat) : str (padded (str b 0 n)) 0 (n + 1) = str b 0 n := by
  rw [str_padded (fun x hx => ne_zero_of_mem_str hx), List.drop_zero, List.take_of_length_le]
  exact Nat.le_succ_of_le (length_str_le b 0 n)

theorem write_eq (hi : slot m_index = .ok i) (hf : k.openf i = some { f with currentOffset := f.offset })
    (buf : Nat → Byte) {n : Nat} (hn : n < 2 ^ 31) (hfits : f.offset + n ≤ OFFSET_MAX) :
    ∃ host, (services S).write k m_index buf (BitVec.ofNat 32 n) =
        .ok (BitVec.ofNat 32 n, { k.setFile i (some (advance f n)) with host := host }) ∧
      host.content f.file = overwrite (k.host.content f.file) f.offset ((List.range n).map buf) := by
  have hlen : ((List.range n).map buf).length = n := by rw [List.length_map, List.length_range]
  simp only [services, file_eq hi hf, ok_bind, OpenFile.write, OpenFile.writeAt, CInt.toNat_ofNat hn, hlen]
  rw [dif_pos hfits]
  refine ⟨_, rfl, ?_⟩
  simp [Host.setContent]

/-- What an open file and the console look like after `WriteFile` has returned with `r2`. -/
structure AfterWrite (k k' : Kernel) (i : Fin 10) (f : OpenFile) (b : Nat → Byte) (n : Nat) (r2 : Option Word) : Prop where
  regular : f.type = 0 → k'.output = k.output ∧ r2 = (if 0 < n then some (BitVec.ofNat 32 (n + 1)) else none) ∧
    ∃ f', k'.openf i = some f' ∧ f'.offset = f.offset + n ∧
      k'.host.content f.file = overwrite (k.host.content f.file) f.offset (asWritten b n)
  console : f.type = 3 → k'.output = k.output ++ str b 0 n ∧ r2 = some (BitVec.ofNat 32 (str b 0 n).length - 1)
  other : f.type ≠ 0 → f.type ≠ 3 → r2 = none ∧ k'.output = k.output ∧ k'.host = k.host ∧
    k'.openf i = some { f with currentOffset := f.offset }

/-- **`WriteFile` of an open file**, when it comes back. -/
theorem writeFile_of_ok {r2 : Option Word} (hi : slot m_index = .ok i) (hf : k.openf i = some f)
    (h : writeFile (services S) k bufAddr numBuf m_index = .ok (r2, k')) :
    AfterWrite k k' i f (k.user.bytesAt bufAddr) numBuf.toNat r2 := by
  have hat : At k i (k.host.content f.file) f := ⟨hf, rfl⟩
  have hat1 : At (k.atPos i f) i (k.host.content f.file) { f with currentOffset := f.offset } :=
    ⟨by simp [atPos, setFile], rfl⟩
  have hpos : (services S).getCurrentPos k m_index = .ok (BitVec.ofNat 32 f.offset, k.atPos i f) := by
    simp only [services, file_eq hi hf]
    rfl
  obtain ⟨⟨⟩, hnew, h⟩ := bind_eq_ok.1 h
  obtain ⟨n, hn, rfl⟩ := CInt.exists_ofNat (newChars_eq_ok.1 hnew)
  simp only [if_neg (not_badIndex hi), hat.isNull hi, ok_bind, Bool.false_eq_true, if_false, hpos] at h
  obtain ⟨⟨buf, k2⟩, hstr, h⟩ := bind_eq_ok.1 h
  obtain ⟨-, rfl, hk2, -⟩ := userString_of_ok hstr
  have hat2 : At k2 i (k.host.content f.file) { f with currentOffset := f.offset } := by
    rw [hk2]
    exact hat1.user _
  have hout : k2.output = k.output ∧ k2.host = k.host := by
    rw [hk2]
    exact ⟨rfl, rfl⟩
  rw [CInt.toNat_ofNat hn] at h ⊢
  have hbytes : (k.atPos i f).user.bytesAt bufAddr = k.user.bytesAt bufAddr := rfl
  simp only [hat2.type hi, ok_bind, hbytes] at h
  obtain ⟨⟨r2', k3⟩, hwrite, h⟩ := bind_eq_ok.1 h
  unfold writeOpen at hwrite
  by_cases htype : f.type = 0 ∨ f.type = 3
  · rw [if_pos htype] at hwrite
    by_cases hfits : f.offset + n ≤ OFFSET_MAX
    · obtain ⟨host, hw4, hcontent⟩ := write_eq (S := S) hi hat2.openf (padded (str (k.user.bytesAt bufAddr) 0 n)) hn hfits
      rw [hw4, ok_bind] at hwrite
      simp only [CInt.toInt_ofNat hn] at hwrite
      have hadv : ({ k2.setFile i (some (advance f n)) with host := host } : Kernel).openf i = some (advance f n) :=
        Function.update_self _ _ _
      -- the state does not depend on whether anything has been written
      obtain ⟨rfl, hr2'⟩ : k3 = { k2.setFile i (some (advance f n)) with host := host } ∧
          r2' = if 0 < n then some (BitVec.ofNat 32 (n + 1)) else none := by
        by_cases hn0 : 0 < n
        · rw [if_pos (by omega), getCurrentPos_advance hi hadv, ok_bind] at hwrite
          simp only [newPos_sub_oldPos] at hwrite
          cases hwrite
          exact ⟨rfl, by rw [if_pos hn0]⟩
        · rw [if_neg (by omega)] at hwrite
          cases hwrite
          exact ⟨rfl, by rw [if_neg hn0]⟩
      rw [hout.2] at hcontent
      rw [writeChars_eq, str_padded_str] at h
      simp only [ok_bind] at h
      refine ⟨?_, ?_, fun h0 h3 => absurd htype (not_or.2 ⟨h0, h3⟩)⟩
      · intro h0
        rw [if_neg (by rw [h0]; decide)] at h
        cases h
        exact ⟨hout.1, hr2', advance f n, Function.update_self _ _ _, rfl, hcontent⟩
      · intro h3
        rw [if_pos h3] at h
        cases h
        refine ⟨?_, rfl⟩
        show k2.output ++ _ = _
        rw [hout.1]
    · rw [hat2.write_abort hi _ hn (Nat.lt_of_not_le hfits)] at hwrite
      cases hwrite
  · rw [if_neg htype] at hwrite
    cases hwrite
    rw [if_neg (fun h3 => htype (.inr h3))] at h
    cases h
    refine ⟨fun h0 => absurd (.inl h0) htype, fun h3 => absurd (.inr h3) htype, fun _ _ => ?_⟩
    exact ⟨rfl, hout.1, hout.2, hat2.openf⟩

/-! ## The number of bytes moved -/

/-- `ReadFile` has obtained `m` bytes: from the console, or the position is `m` bytes further on. -/
def Obtained (k k' : Kernel) (i : Fin 10) (f : OpenFile) (numBuf : Word) (m : Nat) : Prop :=
  if f.type = 2 then ∃ stored ctrlA, consoleLine k.input numBuf.toNat = some (stored, ctrlA, k'.input) ∧ stored.length = m
  else ∃ f', k'.openf i = some f' ∧ f'.offset = f.offset + m

/-- `WriteFile` has sent `m` bytes to the console, or stored `m` bytes at the position. -/
def Stored (k k' : Kernel) (i : Fin 10) (f : OpenFile) (m : Nat) : Prop :=
  if f.type = 3 then ∃ l, k'.output = k.output ++ l ∧ l.length = m
  else ∃ f' l, k'.openf i = some f' ∧ f'.offset = f.offset + m ∧ l.length = m ∧
    k'.host.content f.file = overwrite (k.host.content f.file) f.offset l

/-- `ReadFile` of at least one byte, again and again, until what it returns is not positive: what it has
returned before.  The memory of the process and its arguments may be others each time. -/
inductive ReadLoop (S : Services Kernel) (m_index : Word) : Kernel → List Int → Prop where
  | done {k k' : Kernel} {user : UserSpace} {bufAddr numBuf v : Word} (hn : 1 ≤ numBuf.toInt)
      (h : readFile (services S) { k with user := user } bufAddr numBuf m_index = .ok (some v, k'))
      (hv : v.toInt ≤ 0) : ReadLoop S m_index k []
  | more {k k' : Kernel} {user : UserSpace} {bufAddr numBuf v : Word} {vs : List Int} (hn : 1 ≤ numBuf.toInt)
      (h : readFile (services S) { k with user := user } bufAddr numBuf m_index = .ok (some v, k'))
      (hv : 0 < v.toInt) (hrest : ReadLoop S m_index k' vs) : ReadLoop S m_index k (v.toInt :: vs)

theorem toNat_pos {w : Word} (h : 1 ≤ w.toInt) : 0 < w.toNat := by
  obtain ⟨n, hn, rfl⟩ := CInt.exists_ofNat (Int.le_of_lt h)
  rw [CInt.toInt_ofNat hn] at h
  rw [CInt.toNat_ofNat hn]
  omega

theorem sub_one_ne (w : Word) : w - 1 ≠ w := by
  intro h
  bv_omega

theorem ofNat_ne_succ (m : Nat) : BitVec.ofNat 32 m ≠ BitVec.ofNat 32 (m + 1) := by
  intro h
  have := congrArg BitVec.toNat h
  rw [BitVec.toNat_ofNat, BitVec.toNat_ofNat] at this
  omega

theorem obtained_regular {m : Nat} (htype : f.type ≠ 2)
    (hopen : k'.openf i = some (advance f (next k f numBuf.toNat).length)) :
    Obtained k k' i f numBuf m ↔ m = (next k f numBuf.toNat).length := by
  rw [Obtained, if_neg htype]
  constructor
  · rintro ⟨f', hf', hoff⟩
    rw [hopen] at hf'
    cases hf'
    exact (Nat.add_left_cancel hoff).symm
  · rintro rfl
    exact ⟨_, hopen, rfl⟩

theorem next_eq_nil_iff {n : Nat} (hn : 0 < n) :
    (next k f n).length = 0 ↔ (k.host.content f.file).length ≤ f.offset := by
  rw [next, List.length_take, List.length_drop]
  omega

/-- What `ReadFile` returns is what it has obtained, unless that comes from a file, or the line ends in Ctrl-A. -/
theorem readFile_count_iff {r2 : Option Word} (hi : slot m_index = .ok i) (hf : k.openf i = some f)
    (hn : 1 ≤ numBuf.toInt) (h : readFile (services S) k bufAddr numBuf m_index = .ok (r2, k')) :
    (∀ m, 1 ≤ m → Obtained k k' i f numBuf m → r2 = some (BitVec.ofNat 32 m)) ↔
    if f.type = 2 then ∀ stored input, consoleLine k.input numBuf.toNat = some (stored, true, input) → stored = []
    else (k.host.content f.file).length ≤ f.offset := by
  obtain ⟨hlt, hafter⟩ := readFile_of_ok hi hf h
  have hn0 := toNat_pos hn
  by_cases htype : f.type = 2
  · obtain ⟨stored, sz, hread, rfl, -⟩ := hafter.console htype
    obtain ⟨ctrlA, hline, rfl⟩ := consoleRead_of_ok (by omega) hread
    have hobt : ∀ m, Obtained k k' i f numBuf m ↔ stored.length = m := by
      intro m
      rw [Obtained, if_pos htype]
      constructor
      · rintro ⟨stored', ctrlA', hline', rfl⟩
        rw [hline] at hline'
        cases hline'
        rfl
      · intro hm
        exact ⟨stored, ctrlA, hline, hm⟩
    simp only [hobt, if_pos htype, hline]
    cases ctrlA with
    | false =>
      refine ⟨fun _ => nofun, fun _ m _ hm => ?_⟩
      rw [if_neg Bool.false_ne_true, hm]
    | true =>
      constructor
      · intro hall stored' input' heq
        cases heq
        by_contra hne
        have hlen : 1 ≤ stored.length := List.length_pos_iff.2 hne
        have hle := length_consoleLine _ _ hline
        have hbad := congrArg BitVec.toInt (Option.some.inj (hall _ hlen rfl))
        rw [if_pos rfl, CInt.toInt_ofNat (by omega), show (-1 : Word).toInt = -1 from rfl] at hbad
        omega
      · intro hall m hm hlen
        rw [hall stored _ rfl] at hlen
        cases hlen
        exact absurd hm (by decide)
  · rw [if_neg htype, ← next_eq_nil_iff hn0]
    have hobt := fun m => obtained_regular (m := m) htype (hafter.position htype).1
    simp only [hobt]
    constructor
    · intro hall
      by_contra hne
      have hpos : 0 < (next k f numBuf.toNat).length := by omega
      have hr2 := (hafter.some htype hpos).1
      rw [hall _ hpos rfl] at hr2
      exact ofNat_ne_succ _ (Option.some.inj hr2)
    · intro hzero m hm heq
      omega

/-- What `WriteFile` returns is never what it has stored or sent. -/
theorem writeFile_count_iff {r2 : Option Word} (hi : slot m_index = .ok i) (hf : k.openf i = some f)
    (hn : 1 ≤ numBuf.toInt) (h : writeFile (services S) k bufAddr numBuf m_index = .ok (r2, k')) :
    (∀ m, 1 ≤ m → Stored k k' i f m → r2 = some (BitVec.ofNat 32 m)) ↔
    f.type ≠ 0 ∧ (f.type = 3 → k.user.bytesAt bufAddr 0 = 0) := by
  have hafter := writeFile_of_ok hi hf h
  have hn0 := toNat_pos hn
  by_cases h0 : f.type = 0
  · obtain ⟨-, hr2, f', hf', hoff, hcontent⟩ := hafter.regular h0
    have hne3 : f.type ≠ 3 := by
      rw [h0]
      decide
    have hstored : Stored k k' i f numBuf.toNat := by
      rw [Stored, if_neg hne3]
      exact ⟨f', asWritten (k.user.bytesAt bufAddr) numBuf.toNat, hf', hoff, length_asWritten _ _, hcontent⟩
    refine iff_of_false ?_ (fun hcond => hcond.1 h0)
    intro hall
    rw [if_pos hn0, hall _ hn0 hstored] at hr2
    exact ofNat_ne_succ _ (Option.some.inj hr2)
  · rw [and_iff_right h0]
    by_cases h3 : f.type = 3
    · obtain ⟨hout, rfl⟩ := hafter.console h3
      have hstored : ∀ m, Stored k k' i f m ↔ m = (str (k.user.bytesAt bufAddr) 0 numBuf.toNat).length := by
        intro m
        rw [Stored, if_pos h3, hout]
        constructor
        · rintro ⟨l, hl, rfl⟩
          rw [List.append_cancel_left hl]
        · rintro rfl
          exact ⟨_, rfl, rfl⟩
      have hempty : k.user.bytesAt bufAddr 0 = 0 ↔ (str (k.user.bytesAt bufAddr) 0 numBuf.toNat).length = 0 := by
        obtain ⟨n, hn'⟩ : ∃ n, numBuf.toNat = n + 1 := ⟨numBuf.toNat - 1, by omega⟩
        rw [hn', str]
        split
        · rename_i hz
          exact iff_of_true hz rfl
        · rename_i hz
          exact iff_of_false hz (Nat.succ_ne_zero _)
      simp only [hstored, hempty]
      constructor
      · intro hall _
        by_contra hne
        exact sub_one_ne _ (Option.some.inj (hall _ (Nat.one_le_iff_ne_zero.2 hne) rfl))
      · intro hzero m hm heq
        have := hzero h3
        omega
    · obtain ⟨-, -, -, hopen⟩ := hafter.other h0 h3
      refine iff_of_true ?_ (fun h3' => absurd h3' h3)
      intro m hm hstored
      rw [Stored, if_neg h3] at hstored
      obtain ⟨f', l, hf', hoff, -⟩ := hstored
      rw [hopen] at hf'
      cases hf'
      simp only [Nat.left_eq_add] at hoff
      omega

/-- One more `ReadFile` of a file: its position and contents, and what has been returned. -/
theorem readFile_regular {user : UserSpace} {v : Word} (hi : slot m_index = .ok i) (hf : k.openf i = some f)
    (htype : f.type ≠ 2) (h : readFile (services S) { k with user := user } bufAddr numBuf m_index = .ok (some v, k')) :
    numBuf.toNat + 1 < 2 ^ 31 ∧ k'.openf i = some (advance f (next k f numBuf.toNat).length) ∧ k'.host = k.host ∧
      v = if 0 < (next k f numBuf.toNat).length then BitVec.ofNat 32 ((next k f numBuf.toNat).length + 1) else -1 := by
  obtain ⟨hlt, hafter⟩ := readFile_of_ok (k := { k with user := user }) hi hf h
  obtain ⟨hopen, hhost⟩ := hafter.position htype
  refine ⟨hlt, hopen, hhost, ?_⟩
  split
  · rename_i hpos
    exact Option.some.inj (hafter.some htype hpos).1
  · rename_i hpos
    exact Option.some.inj (hafter.none htype (Nat.eq_zero_of_not_pos hpos)).1

/-- **A loop of `ReadFile` counts one byte too many for each call.** -/
theorem readLoop_sum (hi : slot m_index = .ok i) {vs : List Int} (h : ReadLoop S m_index k vs) :
    ∀ f, k.openf i = some f → f.type ≠ 2 →
      vs.sum = ((k.host.content f.file).length - f.offset : Nat) + vs.length ∧
      (vs = [] ↔ (k.host.content f.file).length ≤ f.offset) := by
  induction h with
  | @done k k' user bufAddr numBuf v hn h hv =>
    intro f hf htype
    obtain ⟨hlt, -, -, rfl⟩ := readFile_regular hi hf htype h
    have hle := length_next_le k f numBuf.toNat
    split at hv
    · rw [CInt.toInt_ofNat (by omega)] at hv
      omega
    · rename_i hpos
      have hend := (next_eq_nil_iff (k := k) (f := f) (toNat_pos hn)).1 (Nat.eq_zero_of_not_pos hpos)
      rw [Nat.sub_eq_zero_of_le hend]
      exact ⟨rfl, iff_of_true rfl hend⟩
  | @more k k' user bufAddr numBuf v vs hn h hv hrest ih =>
    intro f hf htype
    obtain ⟨hlt, hopen, hhost, rfl⟩ := readFile_regular hi hf htype h
    have hle := length_next_le k f numBuf.toNat
    obtain ⟨hsum, -⟩ := ih _ hopen htype
    rw [hhost] at hsum
    split at hv
    · rename_i hpos
      rw [if_pos hpos, CInt.toInt_ofNat (by omega), List.sum_cons, hsum, List.length_cons]
      have hlen : (next k f numBuf.toNat).length ≤ (k.host.content f.file).length - f.offset := by
        rw [next, List.length_take, List.length_drop]
        omega
      have hleft : (k.host.content (advance f (next k f numBuf.toNat).length).file).length -
          (advance f (next k f numBuf.toNat).length).offset =
          (k.host.content f.file).length - f.offset - (next k f numBuf.toNat).length := Nat.sub_add_eq _ _ _
      rw [hleft]
      constructor
      · push_cast
        omega
      · exact iff_of_false (List.cons_ne_nil _ _) (by omega)
    · cases hv

end Kernel

open Nachos.Stub.Kernel in
/-- **The number of bytes moved**, for every open file, buffer and count.  What `ReadFile` returns is the
number of bytes it has obtained exactly when they come from the console and the line does not end in Ctrl-A
behind them, or when there are none; `WriteFile` never returns what it has stored or sent, unless that is
nothing; and the counts of a loop of `ReadFile` sum up to what is left of the file only if nothing is. -/
theorem file_counts_iff {S : Services Kernel} {k : Kernel} {m_index : Word} {i : Fin 10} {f : OpenFile}
    (hi : slot m_index = .ok i) (hf : k.openf i = some f) :
    (∀ bufAddr numBuf r2 k', 1 ≤ numBuf.toInt → readFile (services S) k bufAddr numBuf m_index = .ok (r2, k') →
      ((∀ m, 1 ≤ m → Obtained k k' i f numBuf m → r2 = some (BitVec.ofNat 32 m)) ↔
        if f.type = 2 then ∀ stored input, consoleLine k.input numBuf.toNat = some (stored, true, input) → stored = []
        else (k.host.content f.file).length ≤ f.offset)) ∧
    (∀ bufAddr numBuf r2 k', 1 ≤ numBuf.toInt → writeFile (services S) k bufAddr numBuf m_index = .ok (r2, k') →
      ((∀ m, 1 ≤ m → Stored k k' i f m → r2 = some (BitVec.ofNat 32 m)) ↔
        f.type ≠ 0 ∧ (f.type = 3 → k.user.bytesAt bufAddr 0 = 0))) ∧
    (f.type ≠ 2 → ∀ vs, ReadLoop S m_index k vs →
      (vs.sum = ((k.host.content f.file).length - f.offset : Nat) ↔ (k.host.content f.file).length ≤ f.offset)) := by
  refine ⟨?_, ?_, ?_⟩
  · intro bufAddr numBuf r2 k' hn h
    exact readFile_count_iff hi hf hn h
  · intro bufAddr numBuf r2 k' hn h
    exact writeFile_count_iff hi hf hn h
  · intro htype vs hloop
    obtain ⟨hsum, hnil⟩ := readLoop_sum hi hloop f hf htype
    rw [hsum, ← hnil, ← List.length_eq_zero_iff]
    omega

namespace Kernel

/-- A kernel where `"ab"` has been typed. -/
def typedAb : Kernel := { withFile [] 1 with input := [97, 98, 10] }

end Kernel

open Nachos.Stub.Kernel in
/-- `ReadFile` on the console returns 2 for the line `"ab"`. -/
theorem file_counts_typed : slot 0 = .ok 0 ∧ typedAb.openf 0 = some ⟨0, 0, 0, 2⟩ ∧ 1 ≤ (4 : Word).toInt ∧
    ∀ S, ∃ r2 k', readFile (services S) typedAb 8 4 0 = .ok (r2, k') ∧ Obtained typedAb k' 0 ⟨0, 0, 0, 2⟩ 4 2 ∧
      r2 = some 2 := by
  refine ⟨rfl, rfl, by decide, ?_⟩
  intro S
  obtain ⟨r2, k', hread, hobtained⟩ : ∃ r2 k', readFile (services S) typedAb 8 4 0 = .ok (r2, k') ∧
      Obtained typedAb k' 0 ⟨0, 0, 0, 2⟩ 4 2 := ⟨_, _, rfl, [97, 98], false, rfl, rfl⟩
  refine ⟨r2, k', hread, hobtained, ?_⟩
  refine ((file_counts_iff (i := 0) (f := ⟨0, 0, 0, 2⟩) rfl rfl).1 8 4 r2 k' (by decide) hread).2 ?_ 2 (by decide)
    hobtained
  intro stored input hline
  cases hline

open Nachos.Stub.Kernel in
/-- `WriteFile` of the two bytes `"ab"` stores them, and returns 3. -/
theorem writeFile_ab_three : (withFile [97, 98] 0).openf 2 = some ⟨2, 0, 0, 0⟩ ∧
    ∀ S, ∃ k', writeFile (services S) (withFile [97, 98] 0) 0 2 2 = .ok (some 3, k') ∧
      Stored (withFile [97, 98] 0) k' 2 ⟨2, 0, 0, 0⟩ 2 ∧ (3 : Word) ≠ BitVec.ofNat 32 2 := by
  refine ⟨rfl, ?_⟩
  intro S
  exact ⟨_, rfl, ⟨_, [97, 98], rfl, rfl, rfl, rfl⟩, by decide⟩

namespace Kernel

/-! ## What is in `r2` -/

variable {S : Services Kernel} {k k' : Kernel} {r r' : Regs}

/-- The calls that deliver a result for a file. -/
def fileCodes : List SyscallCode := [.createFile, .openFileID, .seekFile, .readFile, .writeFile]

/-- `r2` is what the handler has put there, and would be that for any registers. -/
def Delivered (S : Services Kernel) (r r' : Regs) (k k' : Kernel) : Prop :=
  ∃ r2, syscall (services S) r k = .ok (.brk, r2, k') ∧ ∀ s : Regs, advancePC (writeR2 s r2) (gpr 2) = r' (gpr 2)

/-- The file in slot `m_index` is of type 1. -/
def ReadOnly (k : Kernel) (m_index : Word) (i : Fin 10) (f : OpenFile) : Prop :=
  slot m_index = .ok i ∧ k.openf i = some f ∧ f.type = 1

/-- `WriteFile` on an open file that is neither of type 0 nor of type 3, or of type 0 and for no bytes. -/
def Silent (k : Kernel) (numBuf m_index : Word) : Prop :=
  ∃ i f, slot m_index = .ok i ∧ k.openf i = some f ∧ f.type ≠ 3 ∧ (f.type = 0 → numBuf = 0)

/-- The contents and the position of the file in slot `i` are the same. -/
def Untouched (k k' : Kernel) (i : Fin 10) (f : OpenFile) : Prop :=
  k'.host = k.host ∧ ∃ f', k'.openf i = some f' ∧ f'.file = f.file ∧ f'.offset = f.offset

section Results

variable {κ : Type} (T : Services κ) (t : κ)

/-- The call writes `r2`. -/
def Writes (x : Except Stop (Option Word × κ)) : Prop := Returns x fun r => r.1 ≠ none

variable {T t}

theorem writes_ok (v : Word) : Writes (.ok (some v, t)) := Returns.ok (Option.some_ne_none v)

theorem writes_createFile (bufAddr : Word) : Writes (createFile T t bufAddr) := by
  refine .bind fun _ _ => .bind fun _ _ => ?_
  exact writes_ok _

theorem writes_openFileID (bufAddr type : Word) : Writes (openFileID T t bufAddr type) := by
  refine .ite (fun _ => writes_ok _) (fun _ => .bind fun _ _ => ?_)
  refine .ite (fun _ => writes_ok _) (fun _ => .ite (fun _ => writes_ok _) (fun _ => .bind fun _ _ => ?_))
  exact writes_ok _

/-- The two checks in front of the calls with a descriptor. -/
theorem writes_checked {x : Except Stop (Option Word × κ)} {m_index : Word} (hx : Writes x) :
    Writes (if badIndex m_index then .ok (some (-1), t)
      else T.isNull t m_index >>= fun isNull => if isNull = true then .ok (some (-1), t) else x) := by
  refine .ite (fun _ => writes_ok _) (fun _ => .bind fun _ _ => ?_)
  exact .ite (fun _ => writes_ok _) (fun _ => hx)

theorem writes_seekFile (pos m_index : Word) : Writes (seekFile T t pos m_index) := by
  apply writes_checked
  refine .bind fun _ _ => .bind fun _ _ => .ite (fun _ => writes_ok _) (fun _ => .bind fun _ _ => ?_)
  exact writes_ok _

theorem writes_readFile (bufAddr numBuf m_index : Word) : Writes (readFile T t bufAddr numBuf m_index) := by
  refine .bind fun _ _ => writes_checked ?_
  refine .bind fun _ _ => .bind fun _ _ => .bind fun _ _ => .ite (fun _ => ?_) (fun _ => ?_)
  · refine .bind fun _ _ => .bind fun _ _ => ?_
    exact writes_ok _
  · refine .bind fun _ _ => .ite (fun _ => .bind fun _ _ => .bind fun _ _ => ?_) (fun _ => writes_ok _)
    exact writes_ok _

end Results

/-- `WriteFile` leaves `r2` alone when it is silent. -/
theorem writeFile_eq_none_iff {bufAddr numBuf m_index : Word} {r2 : Option Word}
    (h : writeFile (services S) k bufAddr numBuf m_index = .ok (r2, k')) : r2 = none ↔ Silent k numBuf m_index := by
  by_cases ho : Open k m_index
  · obtain ⟨i, f, hi, hf⟩ := ho
    have hafter := writeFile_of_ok hi hf h
    have hsilent : Silent k numBuf m_index ↔ f.type ≠ 3 ∧ (f.type = 0 → numBuf = 0) := by
      constructor
      · rintro ⟨i', f', hi', hf', hcond⟩
        rw [hi] at hi'
        cases hi'
        rw [hf] at hf'
        cases hf'
        exact hcond
      · intro hcond
        exact ⟨i, f, hi, hf, hcond⟩
    rw [hsilent]
    by_cases h0 : f.type = 0
    · have hne3 : f.type ≠ 3 := by
        rw [h0]
        decide
      rw [(hafter.regular h0).2.1, and_iff_right hne3]
      split
      · rename_i hpos
        refine iff_of_false (Option.some_ne_none _) (fun hz => ?_)
        rw [hz h0] at hpos
        exact absurd hpos (by decide)
      · rename_i hzero
        exact iff_of_true rfl (fun _ => BitVec.eq_of_toNat_eq (by rw [Nat.eq_zero_of_not_pos hzero]; rfl))
    · by_cases h3 : f.type = 3
      · rw [(hafter.console h3).2]
        exact iff_of_false (Option.some_ne_none _) (fun hcond => hcond.1 h3)
      · exact iff_of_true (hafter.other h0 h3).1 ⟨h3, fun h0' => absurd h0' h0⟩
  · refine iff_of_false ?_ (fun ⟨i, f, hi, hf, _⟩ => ho ⟨i, f, hi, hf⟩)
    obtain ⟨⟨⟩, -, h⟩ := bind_eq_ok.1 h
    by_cases hbad : badIndex m_index
    · rw [if_pos hbad] at h
      cases h
      exact Option.some_ne_none _
    · obtain ⟨i, hi⟩ := slot_of_range hbad
      have hnull : k.openf i = none := by
        cases hf : k.openf i with
        | none => rfl
        | some f => exact absurd ⟨i, f, hi, hf⟩ ho
      rw [if_neg hbad, isNull_eq hi, hnull] at h
      cases h
      exact Option.some_ne_none _

/-- The five calls return with `r2` written, unless a `WriteFile` is silent. -/
theorem fileCall_eq_none_iff {c : SyscallCode} {r2 : Option Word} (hcode : syscallCode (r (gpr 2)) = some c)
    (hc : c ∈ fileCodes) (h : syscall (services S) r k = .ok (.brk, r2, k')) :
    r2 = none ↔ c = .writeFile ∧ Silent k (r (gpr 5)) (r (gpr 6)) := by
  rw [syscall, hcode] at h
  simp only [fileCodes, List.mem_cons, List.not_mem_nil, or_false] at hc
  rcases hc with rfl | rfl | rfl | rfl | rfl
  all_goals
    obtain ⟨⟨r2', k1⟩, hcall, heq⟩ := map_eq_ok.1 h
    cases heq
  · exact iff_of_false (writes_createFile _ _ hcall) (fun hw => SyscallCode.noConfusion hw.1)
  · exact iff_of_false (writes_openFileID _ _ _ hcall) (fun hw => SyscallCode.noConfusion hw.1)
  · exact iff_of_false (writes_seekFile _ _ _ hcall) (fun hw => SyscallCode.noConfusion hw.1)
  · exact iff_of_false (writes_readFile _ _ _ _ hcall) (fun hw => SyscallCode.noConfusion hw.1)
  · rw [writeFile_eq_none_iff hcall, and_iff_right rfl]

theorem advancePC_r2 (s : Regs) : advancePC s (gpr 2) = s (gpr 2) := rfl

theorem delivered_iff {r2 : Option Word} (h : syscall (services S) r k = .ok (.brk, r2, k'))
    (hr' : r' = advancePC (writeR2 r r2)) : Delivered S r r' k k' ↔ r2 ≠ none := by
  constructor
  · rintro ⟨r2', h', hall⟩
    rw [h] at h'
    cases h'
    rintro rfl
    have hother := hall (Function.update r (gpr 2) (r' (gpr 2) - 1))
    rw [advancePC_r2, writeR2, Function.update_self] at hother
    exact sub_one_ne _ hother
  · intro hne
    obtain ⟨v, rfl⟩ := Option.ne_none_iff_exists'.1 hne
    refine ⟨some v, h, fun s => ?_⟩
    rw [hr', advancePC_r2, advancePC_r2, writeR2, writeR2, Function.update_self, Function.update_self]

end Kernel

open Nachos.Stub.Kernel in
/-- **A file system call delivers its own result**, and `-1` for a `WriteFile` to a read-only file, exactly
if it is not a `WriteFile` on an open file that is neither of type 0 nor of type 3, or of type 0 and for no
bytes.  A `WriteFile` to a read-only file changes neither its contents nor its position in any case. -/
theorem file_call_result_iff {S : Services Kernel} {k k' : Kernel} {r r' : Regs} {c : SyscallCode}
    (hcode : syscallCode (r (gpr 2)) = some c) (hc : c ∈ fileCodes)
    (h : exceptionHandler (services S) .syscallException r k = .ok (r', k')) :
    (Delivered S r r' k k' ∧
      (c = .writeFile → ∀ i f, ReadOnly k (r (gpr 6)) i f → r' (gpr 2) = -1 ∧ Untouched k k' i f) ↔
      ¬ (c = .writeFile ∧ Silent k (r (gpr 5)) (r (gpr 6)))) ∧
    (c = .writeFile → ∀ i f, ReadOnly k (r (gpr 6)) i f → Untouched k k' i f) := by
  obtain ⟨⟨leave, r2, k1⟩, hcall, h⟩ := bind_eq_ok.1 h
  have hbrk : leave = .brk := by
    apply syscall_brk hcall
    rw [hcode]
    rintro ⟨⟩
    exact absurd hc (by decide)
  subst hbrk
  cases h
  constructor
  · rw [delivered_iff hcall rfl, ne_eq, fileCall_eq_none_iff hcode hc hcall]
    refine ⟨fun hboth => hboth.1, fun hnot => ⟨hnot, ?_⟩⟩
    rintro hw i f ⟨hi, hf, htype⟩
    refine absurd ⟨hw, i, f, hi, hf, ?_, ?_⟩ hnot
    · rw [htype]
      decide
    · rw [htype]
      intro h0
      cases h0
  · rintro rfl i f ⟨hi, hf, htype⟩
    rw [syscall, hcode] at hcall
    obtain ⟨⟨r2', k1⟩, hwrite, heq⟩ := map_eq_ok.1 hcall
    cases heq
    obtain ⟨-, -, hhost, hopen⟩ := (writeFile_of_ok hi hf hwrite).other (by rw [htype]; decide) (by rw [htype]; decide)
    exact ⟨hhost, _, hopen, rfl, rfl⟩

namespace Kernel

/-- The registers of a system call. -/
def callRegs (code r4 r5 r6 : Word) : Regs := fun n =>
  if n = gpr 2 then code else if n = gpr 4 then r4 else if n = gpr 5 then r5 else if n = gpr 6 then r6 else 0

end Kernel

open Nachos.Stub.Kernel in
/-- `SeekFile(0, 2)` delivers 0. -/
theorem file_call_result_seek : syscallCode (callRegs 22 0 2 0 (gpr 2)) = some .seekFile ∧
    ∀ S, ∃ r' k', exceptionHandler (services S) .syscallException (callRegs 22 0 2 0) (withFile [] 1) = .ok (r', k') ∧
      Delivered S (callRegs 22 0 2 0) r' (withFile [] 1) k' ∧ r' (gpr 2) = 0 := by
  refine ⟨rfl, ?_⟩
  intro S
  have h : ∃ r' k', exceptionHandler (services S) .syscallException (callRegs 22 0 2 0) (withFile [] 1) = .ok (r', k') ∧
      r' (gpr 2) = 0 := ⟨_, _, rfl, rfl⟩
  obtain ⟨r', k', h, hr'⟩ := h
  have hseek : ¬ (SyscallCode.seekFile = .writeFile ∧ Silent (withFile [] 1) 2 0) := fun hw => nomatch hw.1
  exact ⟨r', k', h, ((file_call_result_iff rfl (by decide) h).1.2 hseek).1, hr'⟩

open Nachos.Stub.Kernel in
/-- `WriteFile(0, 1, 2)` to a read-only file returns the code of the call. -/
theorem writeFile_readOnly_code : ReadOnly (withFile [97] 1) 2 2 ⟨2, 0, 0, 1⟩ ∧
    ∀ S, ∃ r' k', exceptionHandler (services S) .syscallException (callRegs 21 0 1 2) (withFile [97] 1) = .ok (r', k') ∧
      r' (gpr 2) = 21 ∧ r' (gpr 2) ≠ -1 ∧ ¬ Delivered S (callRegs 21 0 1 2) r' (withFile [97] 1) k' := by
  refine ⟨⟨rfl, rfl, rfl⟩, ?_⟩
  intro S
  refine ⟨_, _, rfl, rfl, by decide, ?_⟩
  rintro ⟨r2, hcall, hall⟩
  obtain rfl : r2 = none := by
    cases hcall
    rfl
  exact absurd (hall (callRegs 0 0 0 0)) (by decide)

end Stub

end Nachos
