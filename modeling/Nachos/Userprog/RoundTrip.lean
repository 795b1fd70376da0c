import Nachos.Userprog.FileTable

/-!
# Writing to a file and reading it back

`WriteFile`, `SeekFile` and `ReadFile` of the FILESYS_STUB build, one after the other, on a regular
file.  The data goes through `User2System` and `System2User`, which stop at a zero byte.

* `writeFile_eq`, `seekFile_eq`, `readFile_spec` — the three calls.
* `file_round_trip_iff` — when the data comes back.
-/

set_option autoImplicit false

namespace Nachos

open CString Exception Partial

namespace Stub

namespace Kernel

variable {S : Services Kernel} {k : Kernel} {m_index : Word} {i : Fin 10} {f : OpenFile}

/-- The memory of the calling process, in the kernel. -/
theorem memoryLaws (S : Services Kernel) (k : Kernel) :
    MemoryLaws (services S).readMem (services S).writeMem
      (fun k' => k'.user.Distinct ∧ k' = { k with user := k'.user }) (fun k' => k'.user.view)
      (fun k' => k'.user.writable) where
  read_some := by
    rintro k1 a b ⟨hd, hk1⟩ hview
    obtain ⟨u, hu, hd', hview', hw⟩ := UserSpace.memoryLaws.read_some k1.user a b hd hview
    refine ⟨{ k1 with user := u }, ?_, ⟨hd', ?_⟩, hview', hw⟩
    · show (k1.user.readByte a).map _ = _
      rw [hu, Option.map_some]
    · rw [hk1]
  write_some := by
    rintro k1 a b ⟨hd, hk1⟩ hw
    obtain ⟨u, hu, hd', hview', hw'⟩ := UserSpace.memoryLaws.write_some k1.user a b hd hw
    refine ⟨{ k1 with user := u }, ?_, ⟨hd', ?_⟩, hview', hw'⟩
    · show (k1.user.writeByte a b).map _ = _
      rw [hu, Option.map_some]
    · rw [hk1]
  write_none := by
    rintro k1 a b ⟨hd, -⟩ hw
    show (k1.user.writeByte a b).map _ = _
    rw [UserSpace.memoryLaws.write_none k1.user a b hd hw, Option.map_none]

/-- `User2System` of `n` bytes that can be read. -/
theorem userString_eq {m : Nat → Byte} {virtAddr : Word} {n : Nat} (hn : n + 1 < 2 ^ 31) (hd : k.user.Distinct)
    (hm : ∀ j < n, (∀ l < j, m l ≠ 0) → k.user.view (virtAddr + BitVec.ofNat 32 j) = some (m j)) :
    ∃ u, userString (services S) k virtAddr (BitVec.ofNat 32 n) = .ok (padded (str m 0 n), { k with user := u }) ∧
      u.Distinct ∧ u.view = k.user.view ∧ u.writable = k.user.writable := by
  obtain ⟨k', hk', ⟨hd', heq⟩, hview, hw⟩ := user2System_view (memoryLaws S k) ⟨hd, rfl⟩ hm
  refine ⟨k'.user, ?_, hd', hview, hw⟩
  have hnew : newChars (BitVec.ofNat 32 n + 1) = .ok () := by
    rw [newChars, if_neg]
    rw [show (1 : Word) = BitVec.ofNat 32 1 from rfl, ← BitVec.ofNat_add, CInt.toInt_ofNat hn]
    omega
  rw [userString, hnew, ok_bind, CInt.toNat_ofNat (by omega), hk']
  rw [← heq]
  rfl

/-- `System2User` of `n` bytes, when those it writes can be written. -/
theorem toUser_eq {buffer : Nat → Byte} {virtAddr : Word} {n : Nat} (hn : n < 2 ^ 31) (hd : k.user.Distinct)
    (hw : ∀ j < sent buffer 0 n, k.user.writable (virtAddr + BitVec.ofNat 32 j)) :
    ∃ u, toUser (services S) k virtAddr (BitVec.ofNat 32 n) buffer = .ok { k with user := u } ∧ u.Distinct ∧
      u.writable = k.user.writable ∧
      ∀ a, u.view a = if (a - virtAddr).toNat < sent buffer 0 n then some (buffer (a - virtAddr).toNat)
        else k.user.view a := by
  obtain ⟨k', hk', ⟨hd', heq⟩, hw', hview⟩ := system2User_spec (memoryLaws S k) ⟨hd, rfl⟩ (by omega) hw
  refine ⟨k'.user, ?_, hd', hw', hview⟩
  rw [toUser, CInt.toInt_ofNat hn, hk', ← heq]
  rfl

/-- When one of them cannot. -/
theorem toUser_halt {buffer : Nat → Byte} {virtAddr : Word} {n j : Nat} (hn : n < 2 ^ 31) (hd : k.user.Distinct)
    (hj : j < sent buffer 0 n) (hw : ¬ k.user.writable (virtAddr + BitVec.ofNat 32 j)) :
    toUser (services S) k virtAddr (BitVec.ofNat 32 n) buffer = .error .halt := by
  rw [toUser, CInt.toInt_ofNat hn, system2User_none (memoryLaws S k) ⟨hd, rfl⟩ hj hw]
  rfl

/-! ## One service after the other -/

/-- Slot `i` is `f`, and its file has the bytes `c`. -/
structure At (k : Kernel) (i : Fin 10) (c : List Byte) (f : OpenFile) : Prop where
  openf : k.openf i = some f
  content : k.host.content f.file = c

section Services

variable {c : List Byte} (hi : slot m_index = .ok i) (h : At k i c f)

include hi h

theorem At.getCurrentPos : ∃ k', (services S).getCurrentPos k m_index = .ok (BitVec.ofNat 32 f.offset, k') ∧
    At k' i c { f with currentOffset := f.offset } ∧ k'.user = k.user := by
  refine ⟨k.setFile i (some { f with currentOffset := f.offset }), ?_, ⟨by simp [setFile], h.content⟩, rfl⟩
  simp only [services, file_eq hi h.openf]
  rfl

theorem At.length : ∃ k', (services S).length k m_index = .ok (BitVec.ofNat 32 c.length, k') ∧
    At k' i c { f with offset := f.currentOffset } ∧ k'.user = k.user := by
  refine ⟨k.setFile i (some { f with offset := f.currentOffset }), ?_, ⟨by simp [setFile], h.content⟩, rfl⟩
  simp only [services, file_eq hi h.openf, ← h.content]
  rfl

theorem At.seek {p : Nat} (hp : p < 2 ^ 31) : ∃ k', (services S).seek k m_index (BitVec.ofNat 32 p) = .ok k' ∧
    At k' i c { f with offset := p, currentOffset := p } ∧ k'.user = k.user := by
  refine ⟨k.setFile i (some (f.seek p)), ?_, ⟨by simp [setFile, OpenFile.seek], h.content⟩, rfl⟩
  simp only [services, file_eq hi h.openf, ok_bind]
  rw [if_neg (by rw [CInt.toInt_ofNat hp]; omega), CInt.toNat_ofNat hp]

theorem At.type : (services S).type k m_index = .ok f.type := by
  simp only [services, file_eq hi h.openf]
  rfl

theorem At.isNull : (services S).isNull k m_index = .ok false := by
  rw [isNull_eq hi, h.openf]
  rfl

theorem At.read (buf : Nat → Byte) {n : Nat} (hn : n < 2 ^ 31) {data : List Byte}
    (hdata : (c.drop f.currentOffset).take n = data) :
    ∃ k', (services S).read k m_index buf (BitVec.ofNat 32 n) =
      .ok (BitVec.ofNat 32 data.length, fun j => data.getD j (buf j), k') ∧
      At k' i c { f with offset := f.currentOffset + data.length, currentOffset := f.currentOffset + data.length } ∧
      k'.user = k.user := by
  refine ⟨k.setFile i (some { f with
    offset := f.currentOffset + data.length, currentOffset := f.currentOffset + data.length }), ?_,
    ⟨by simp [setFile], h.content⟩, rfl⟩
  simp only [services, file_eq hi h.openf, ok_bind, OpenFile.read, OpenFile.readAt, CInt.toNat_ofNat hn, h.content,
    hdata]

theorem At.write (buf : Nat → Byte) {n : Nat} (hn : n < 2 ^ 31) (hfits : f.currentOffset + n ≤ OFFSET_MAX) :
    ∃ k', (services S).write k m_index buf (BitVec.ofNat 32 n) = .ok (BitVec.ofNat 32 n, k') ∧
      At k' i (overwrite c f.currentOffset ((List.range n).map buf))
        { f with offset := f.currentOffset + n, currentOffset := f.currentOffset + n } ∧
      k'.user = k.user := by
  have hlen : ((List.range n).map buf).length = n := by rw [List.length_map, List.length_range]
  simp only [services, file_eq hi h.openf, ok_bind, OpenFile.write, OpenFile.writeAt, CInt.toNat_ofNat hn, hlen]
  rw [dif_pos hfits]
  refine ⟨_, rfl, ⟨?_, ?_⟩, rfl⟩
  · simp [setFile]
  · simp [Host.setContent, h.content]

theorem At.write_abort (buf : Nat → Byte) {n : Nat} (hn : n < 2 ^ 31) (hfits : OFFSET_MAX < f.currentOffset + n) :
    (services S).write k m_index buf (BitVec.ofNat 32 n) = .error .abort := by
  have hlen : ((List.range n).map buf).length = n := by rw [List.length_map, List.length_range]
  simp only [services, file_eq hi h.openf, ok_bind, OpenFile.write, OpenFile.writeAt, CInt.toNat_ofNat hn, hlen]
  rw [dif_neg (Nat.not_le.2 hfits)]
  rfl

end Services

theorem At.user {c : List Byte} (h : At k i c f) (u : UserSpace) : At { k with user := u } i c f := ⟨h.openf, h.content⟩

theorem not_badIndex (hi : slot m_index = .ok i) : ¬ badIndex m_index := by
  rw [eq_ofNat_of_slot hi, badIndex, CInt.toInt_ofNat (by omega)]
  omega

theorem newChars_ofNat {n : Nat} (hn : n < 2 ^ 31) : newChars (BitVec.ofNat 32 n) = .ok () := by
  rw [newChars, if_neg (by rw [CInt.toInt_ofNat hn]; omega)]

/-! ## The three calls -/

/-- What `WriteFile` of the `n` bytes `b` passes on: everything behind the first zero is lost. -/
def asWritten (b : Nat → Byte) (n : Nat) : List Byte := (List.range n).map (padded (str b 0 n))

theorem length_asWritten (b : Nat → Byte) (n : Nat) : (asWritten b n).length = n := by
  rw [asWritten, List.length_map, List.length_range]

section Calls

variable {c : List Byte} {addr : Word} {n : Nat} {b : Nat → Byte}

/-- `WriteFile`, up to the call of `Write`. -/
theorem writeFile_upto (hi : slot m_index = .ok i) (h : At k i c f) (htype : f.type = 0) (hn : n + 1 < 2 ^ 31)
    (hd : k.user.Distinct) (hb : ∀ j < n, k.user.view (addr + BitVec.ofNat 32 j) = some (b j)) :
    ∃ k', At k' i c { f with currentOffset := f.offset } ∧
      writeFile (services S) k addr (BitVec.ofNat 32 n) m_index =
        writeOpen (services S) k' m_index (padded (str b 0 n)) (BitVec.ofNat 32 n) (BitVec.ofNat 32 f.offset) 0 := by
  obtain ⟨k1, hpos, h1, hu1⟩ := h.getCurrentPos (S := S) hi
  have hview : ∀ j < n, (∀ l < j, b l ≠ 0) → k1.user.view (addr + BitVec.ofNat 32 j) = some (b j) := by
    intro j hj _
    rw [hu1]
    exact hb j hj
  obtain ⟨u, hstr, -⟩ := userString_eq (S := S) hn (by rw [hu1]; exact hd) hview
  have h2 := h1.user u
  refine ⟨_, h2, ?_⟩
  simp only [writeFile, newChars_ofNat (show n < 2 ^ 31 by omega), ok_bind, if_neg (not_badIndex hi), h.isNull hi,
    Bool.false_eq_true, if_false, hpos, hstr, h2.type hi, htype]
  -- what follows for a file of type 0 is nothing
  cases writeOpen (services S) { k1 with user := u } m_index (padded (str b 0 n)) (BitVec.ofNat 32 n)
    (BitVec.ofNat 32 f.offset) 0 with
  | error e => rfl
  | ok r => rfl

theorem writeFile_eq (hi : slot m_index = .ok i) (h : At k i c f) (htype : f.type = 0) (hn0 : 0 < n)
    (hn : n + 1 < 2 ^ 31) (hd : k.user.Distinct)
    (hb : ∀ j < n, k.user.view (addr + BitVec.ofNat 32 j) = some (b j)) (hfits : f.offset + n ≤ OFFSET_MAX) :
    ∃ r k', writeFile (services S) k addr (BitVec.ofNat 32 n) m_index = .ok (r, k') ∧
      At k' i (overwrite c f.offset (asWritten b n)) { f with offset := f.offset + n, currentOffset := f.offset + n } := by
  obtain ⟨k1, h1, hcall⟩ := writeFile_upto (S := S) hi h htype hn hd hb
  obtain ⟨k2, hwrite, h2, -⟩ := h1.write (S := S) hi (padded (str b 0 n)) (by omega) hfits
  obtain ⟨k3, hpos, h3, -⟩ := h2.getCurrentPos (S := S) hi
  have hpos0 : 0 < (BitVec.ofNat 32 n).toInt := by
    rw [CInt.toInt_ofNat (by omega)]
    omega
  refine ⟨some (BitVec.ofNat 32 (f.offset + n) - BitVec.ofNat 32 f.offset + 1), k3, ?_, h3⟩
  rw [hcall, writeOpen, if_pos (.inl rfl), hwrite, ok_bind]
  simp only [if_pos hpos0, hpos, ok_bind]

theorem writeFile_abort (hi : slot m_index = .ok i) (h : At k i c f) (htype : f.type = 0)
    (hn : n + 1 < 2 ^ 31) (hd : k.user.Distinct)
    (hb : ∀ j < n, k.user.view (addr + BitVec.ofNat 32 j) = some (b j)) (hfits : OFFSET_MAX < f.offset + n) :
    writeFile (services S) k addr (BitVec.ofNat 32 n) m_index = .error .abort := by
  obtain ⟨k1, h1, hcall⟩ := writeFile_upto (S := S) hi h htype hn hd hb
  rw [hcall, writeOpen, if_pos (.inl rfl), h1.write_abort hi (padded (str b 0 n)) (by omega) hfits]
  rfl

theorem seekFile_eq (hi : slot m_index = .ok i) (h : At k i c f) {p : Nat} (hp : p ≤ c.length)
    (hc : c.length ≤ OFFSET_MAX) :
    ∃ k', seekFile (services S) k (BitVec.ofNat 32 p) m_index = .ok (some (BitVec.ofNat 32 p), k') ∧
      At k' i c { f with offset := p, currentOffset := p } := by
  have hmax : OFFSET_MAX < 2 ^ 31 := by decide
  have hp31 : p < 2 ^ 31 := by omega
  have hneg : BitVec.ofNat 32 p ≠ -1 := by
    intro heq
    have := congrArg BitVec.toInt heq
    rw [CInt.toInt_ofNat hp31] at this
    have hminus : (-1 : Word).toInt = -1 := by decide
    omega
  obtain ⟨k1, hlen, h1, -⟩ := h.length (S := S) hi
  obtain ⟨k2, hseek, h2, -⟩ := h1.seek (S := S) hi hp31
  have hrange : ¬ ((BitVec.ofNat 32 c.length).toInt < (BitVec.ofNat 32 p).toInt ∨ (BitVec.ofNat 32 p).toInt < 0) := by
    rw [CInt.toInt_ofNat hp31, CInt.toInt_ofNat (by omega)]
    omega
  refine ⟨k2, ?_, h2⟩
  simp only [seekFile, seekPos, ok_bind, if_neg (not_badIndex hi), h.isNull hi, Bool.false_eq_true, if_false,
    if_neg hneg, hlen, if_neg hrange, hseek]

/-- `ReadFile` of a regular file, up to the copy to the process. -/
theorem readFile_upto (hi : slot m_index = .ok i) (h : At k i c f) (htype : f.type ≠ 2) (hn : n + 1 < 2 ^ 31)
    (hd : k.user.Distinct) (hb : ∀ j < n, (∀ l < j, b l ≠ 0) → k.user.view (addr + BitVec.ofNat 32 j) = some (b j))
    {data : List Byte} (hdata : (c.drop f.offset).take n = data) :
    ∃ k', At k' i c { f with offset := f.offset + data.length, currentOffset := f.offset + data.length } ∧
      k'.user.Distinct ∧ k'.user.view = k.user.view ∧ k'.user.writable = k.user.writable ∧
      readFile (services S) k addr (BitVec.ofNat 32 n) m_index =
        if 0 < data.length then (do
          let k ← toUser (services S) k' addr (BitVec.ofNat 32 (data.length + 1))
            (fun j => data.getD j (padded (str b 0 n) j))
          .ok (some (BitVec.ofNat 32 (data.length + 1)), k))
        else .ok (some (-1), k') := by
  have hlen : data.length ≤ n := by
    rw [← hdata, List.length_take]
    omega
  have hcount : BitVec.ofNat 32 (f.offset + data.length) - BitVec.ofNat 32 f.offset + 1 =
      BitVec.ofNat 32 (data.length + 1) := by
    rw [BitVec.ofNat_add, BitVec.add_comm (BitVec.ofNat 32 f.offset), BitVec.add_sub_cancel, BitVec.ofNat_add]
    rfl
  obtain ⟨k1, hpos, h1, hu1⟩ := h.getCurrentPos (S := S) hi
  have hview : ∀ j < n, (∀ l < j, b l ≠ 0) → k1.user.view (addr + BitVec.ofNat 32 j) = some (b j) := by
    rw [hu1]
    exact hb
  obtain ⟨u, hstr, hdu, hvu, hwu⟩ := userString_eq (S := S) hn (by rw [hu1]; exact hd) hview
  have h2 := h1.user u
  obtain ⟨k3, hread, h3, hu3⟩ := h2.read (S := S) hi (padded (str b 0 n)) (by omega) hdata
  obtain ⟨k4, hpos4, h4, hu4⟩ := h3.getCurrentPos (S := S) hi
  rw [hu1] at hvu hwu
  by_cases hpos0 : 0 < data.length
  · refine ⟨k4, h4, by rw [hu4, hu3]; exact hdu, by rw [hu4, hu3]; exact hvu, by rw [hu4, hu3]; exact hwu, ?_⟩
    have hread0 : 0 < (BitVec.ofNat 32 data.length).toInt := by
      rw [CInt.toInt_ofNat (by omega)]
      omega
    simp only [readFile, newChars_ofNat (show n < 2 ^ 31 by omega), ok_bind, if_neg (not_badIndex hi), h.isNull hi,
      Bool.false_eq_true, if_false, hpos, hstr, h2.type hi, if_neg htype, hread, if_pos hread0, if_pos hpos0, hpos4,
      hcount]
  · refine ⟨k3, h3, by rw [hu3]; exact hdu, by rw [hu3]; exact hvu, by rw [hu3]; exact hwu, ?_⟩
    have hread0 : ¬ 0 < (BitVec.ofNat 32 data.length).toInt := by
      rw [CInt.toInt_ofNat (by omega)]
      omega
    simp only [readFile, newChars_ofNat (show n < 2 ^ 31 by omega), ok_bind, if_neg (not_badIndex hi), h.isNull hi,
      Bool.false_eq_true, if_false, hpos, hstr, h2.type hi, if_neg htype, hread, if_neg hread0, if_neg hpos0]

end Calls

/-- `WriteFile(addr, n, fd)`, `SeekFile(p, fd)` and `ReadFile(buf, n, fd)`; `u1` and `u2` are the memory of the
process at the second and the third call. -/
def roundTrip (S : Services Kernel) (k : Kernel) (fd addr : Word) (n p : Nat) (u1 u2 : UserSpace) (buf : Word) :
    Except Stop Kernel := do
  let (_, k) ← writeFile (services S) k addr (BitVec.ofNat 32 n) fd
  let (_, k) ← seekFile (services S) { k with user := u1 } (BitVec.ofNat 32 p) fd
  let (_, k) ← readFile (services S) { k with user := u2 } buf (BitVec.ofNat 32 n) fd
  .ok k

section RoundTrip

variable {fd addr buf : Word} {n : Nat} {b : Nat → Byte} {u2 : UserSpace}

/-- What `ReadFile` copies back is the string at the start of `b`. -/
theorem readBack_eq (old : Nat → Byte) :
    (fun j => (asWritten b n).getD j (padded (str old 0 n) j)) = padded (str b 0 n) := by
  funext j
  rw [List.getD_eq_getElem?_getD]
  by_cases hj : j < n
  · rw [asWritten, List.getElem?_map, List.getElem?_range hj]
    rfl
  · have hold := length_str_le old 0 n
    have hb := length_str_le b 0 n
    rw [List.getElem?_eq_none (by rw [length_asWritten]; omega), Option.getD_none, padded_apply, padded_apply,
      List.getElem?_eq_none (by omega), List.getElem?_eq_none (by omega)]

/-- The three calls, up to the copy to the process. -/
theorem roundTrip_upto (S : Services Kernel) (u1 : UserSpace) (hfd : slot fd = .ok i) (hf : k.openf i = some f)
    (htype : f.type = 0) (hn0 : 0 < n) (hn : n + 1 < 2 ^ 31) (hpos : f.offset ≤ (k.host.content f.file).length) (hd : k.user.Distinct)
    (hb : ∀ j < n, k.user.view (addr + BitVec.ofNat 32 j) = some (b j)) (hd2 : u2.Distinct)
    (hbuf : ∀ j < n, u2.writable (buf + BitVec.ofNat 32 j)) (hfits : f.offset + n ≤ OFFSET_MAX) :
    ∃ k', k'.user.Distinct ∧ k'.user.view = u2.view ∧ k'.user.writable = u2.writable ∧
      roundTrip S k fd addr n f.offset u1 u2 buf =
        toUser (services S) k' buf (BitVec.ofNat 32 (n + 1)) (padded (str b 0 n)) := by
  have hw : asWritten b n ≠ [] := by
    intro hnil
    have := length_asWritten b n
    rw [hnil] at this
    exact absurd this (by simpa using hn0.ne)
  obtain ⟨r1, k1, hwrite, h1⟩ := writeFile_eq (S := S) hfd ⟨hf, rfl⟩ htype hn0 hn hd hb hfits
  have hp1 : f.offset ≤ (overwrite (k.host.content f.file) f.offset (asWritten b n)).length := by
    rw [length_overwrite hw]
    omega
  have hc1 : (overwrite (k.host.content f.file) f.offset (asWritten b n)).length ≤ OFFSET_MAX := by
    rw [← h1.content]
    exact k1.host.bounded _
  obtain ⟨k2, hseek, h2⟩ := seekFile_eq (S := S) hfd (h1.user u1) hp1 hc1
  -- what the buffer holds before
  have hold : ∀ j < n, (∀ l < j, (u2.view (buf + BitVec.ofNat 32 l)).getD 0 ≠ 0) →
      u2.view (buf + BitVec.ofNat 32 j) = some ((u2.view (buf + BitVec.ofNat 32 j)).getD 0) := by
    intro j hj _
    obtain ⟨pa, hpa⟩ := Option.isSome_iff_exists.1 (hbuf j hj)
    rw [UserSpace.view, UserSpace.physAddr_of_writable hpa]
    rfl
  have hwindow : ((overwrite (k.host.content f.file) f.offset (asWritten b n)).drop f.offset).take n =
      asWritten b n := by
    have := overwrite_window (c := k.host.content f.file) (p := f.offset) hw
    rwa [length_asWritten] at this
  obtain ⟨k3, -, hd3, hv3, hw3, hread⟩ := readFile_upto (S := S) hfd (h2.user u2) (by rw [htype]; decide) hn hd2
    hold hwindow
  refine ⟨k3, hd3, hv3, hw3, ?_⟩
  rw [length_asWritten, if_pos hn0, readBack_eq] at hread
  simp only [roundTrip, hwrite, ok_bind, hseek, hread]
  cases toUser (services S) k3 buf (BitVec.ofNat 32 (n + 1)) (padded (str b 0 n)) with
  | error e => rfl
  | ok k' => rfl

/-- The length of the string at the start of `b`. -/
theorem length_str_cases (b : Nat → Byte) (n : Nat) :
    ((str b 0 n).length = n ∧ ∀ j < n, b j ≠ 0) ∨
    ((str b 0 n).length < n ∧ b (str b 0 n).length = 0 ∧ ∀ j < (str b 0 n).length, b j ≠ 0) := by
  obtain ⟨hbytes, hend⟩ := str_apply b 0 n
  simp only [Nat.zero_add] at hbytes hend
  rcases Nat.lt_or_eq_of_le (length_str_le b 0 n) with hlt | heq
  · exact .inr ⟨hlt, hend hlt, fun j hj => (hbytes j hj).2⟩
  · exact .inl ⟨heq, fun j hj => (hbytes j (by omega)).2⟩

/-- The string with the zero behind it is the start of `b`. -/
theorem padded_str_eq {j : Nat} (hj : j < n) (hle : j ≤ (str b 0 n).length) : padded (str b 0 n) j = b j := by
  obtain ⟨hbytes, hend⟩ := str_apply b 0 n
  simp only [Nat.zero_add] at hbytes hend
  rcases Nat.lt_or_eq_of_le hle with hlt | rfl
  · exact (hbytes j hlt).1
  · rw [hend hj, padded_apply, List.getElem?_eq_none (Nat.le_refl _), Option.getD_none]

end RoundTrip

end Kernel

open Nachos.Stub.Kernel in
/-- **Data written to a file comes back**, for a regular file at any position inside of it and any `n` bytes
`b`, exactly when the file may grow that far, every byte of `b` behind a zero is what the buffer holds
already, and, if `b` has no zero, the byte behind the buffer can be written too. -/
theorem file_round_trip_iff {S : Services Kernel} {k : Kernel} {fd addr buf : Word} {i : Fin 10} {f : OpenFile}
    {n : Nat} {b : Nat → Byte} {u1 u2 : UserSpace}
    (hfd : slot fd = .ok i) (hf : k.openf i = some f) (htype : f.type = 0) (hn0 : 0 < n) (hn : n < 2 ^ 31)
    (hpos : f.offset ≤ (k.host.content f.file).length) (hd : k.user.Distinct)
    (hb : ∀ j < n, k.user.view (addr + BitVec.ofNat 32 j) = some (b j)) (hd2 : u2.Distinct)
    (hbuf : ∀ j < n, u2.writable (buf + BitVec.ofNat 32 j)) :
    (∃ k', roundTrip S k fd addr n f.offset u1 u2 buf = .ok k' ∧
      ∀ j < n, k'.user.view (buf + BitVec.ofNat 32 j) = some (b j)) ↔
    f.offset + n ≤ OFFSET_MAX ∧
    (∀ j < n, (∃ l < j, b l = 0) → u2.view (buf + BitVec.ofNat 32 j) = some (b j)) ∧
    ((∀ j < n, b j ≠ 0) → u2.writable (buf + BitVec.ofNat 32 n)) := by
  have hsmall : n ≤ MemorySize := UserSpace.length_le_memorySize hd (by omega) (fun j hj => ⟨b j, hb j hj⟩)
  have hmem : MemorySize + 1 < 2 ^ 31 := by decide
  by_cases hfits : f.offset + n ≤ OFFSET_MAX
  · obtain ⟨k3, hd3, hv3, hw3, htrip⟩ := roundTrip_upto S u1 hfd hf htype hn0 (by omega) hpos hd hb hd2 hbuf hfits
    have hsent : sent (padded (str b 0 n)) 0 (n + 1) = (str b 0 n).length + 1 :=
      sent_padded (fun x hx => ne_zero_of_mem_str hx) _ 0 (n + 1) (Nat.zero_add _)
        (Nat.lt_succ_of_le (length_str_le b 0 n))
    rw [htrip, and_iff_right hfits]
    by_cases hw : ∀ j < (str b 0 n).length + 1, u2.writable (buf + BitVec.ofNat 32 j)
    · have hwr : ∀ j < sent (padded (str b 0 n)) 0 (n + 1), k3.user.writable (buf + BitVec.ofNat 32 j) := by
        rw [hsent, hw3]
        exact hw
      obtain ⟨u, hcopy, -, -, hview⟩ := toUser_eq (S := S) (show n + 1 < 2 ^ 31 by omega) hd3 hwr
      rw [hcopy]
      have hread : ∀ j < n, u.view (buf + BitVec.ofNat 32 j) =
          if j < (str b 0 n).length + 1 then some (b j) else u2.view (buf + BitVec.ofNat 32 j) := by
        intro j hj
        have hoff : (buf + BitVec.ofNat 32 j - buf).toNat = j := by
          rw [BitVec.add_comm, BitVec.add_sub_cancel, CInt.toNat_ofNat (by omega)]
        rw [hview, hoff, hsent, hv3]
        split
        · rw [padded_str_eq hj (by omega)]
        · rfl
      constructor
      · rintro ⟨k', hk', hback⟩
        cases hk'
        refine ⟨?_, ?_⟩
        · rintro j hj ⟨l, hlj, hl⟩
          have hlt : ¬ j < (str b 0 n).length + 1 := by
            rcases length_str_cases b n with ⟨-, hnz⟩ | ⟨-, -, hnz⟩
            · exact absurd hl (hnz l (by omega))
            · intro hlt
              exact hnz l (by omega) hl
          have := hback j hj
          rw [show ({ k3 with user := u } : Kernel).user = u from rfl, hread j hj, if_neg hlt] at this
          exact this
        · intro hnz
          rcases length_str_cases b n with ⟨hlen, -⟩ | ⟨hlt, hz, -⟩
          · exact hw n (by omega)
          · exact absurd hz (hnz _ hlt)
      · rintro ⟨hrest, -⟩
        refine ⟨_, rfl, ?_⟩
        intro j hj
        rw [show ({ k3 with user := u } : Kernel).user = u from rfl, hread j hj]
        split
        · rfl
        · rename_i hge
          rcases length_str_cases b n with ⟨hlen, -⟩ | ⟨-, hz, -⟩
          · omega
          · exact hrest j hj ⟨_, by omega, hz⟩
    · push Not at hw
      obtain ⟨j, hj, hjw⟩ := hw
      have hjs : j < sent (padded (str b 0 n)) 0 (n + 1) := by
        rw [hsent]
        exact hj
      rw [toUser_halt (show n + 1 < 2 ^ 31 by omega) hd3 hjs (by rw [hw3]; exact hjw)]
      constructor
      · rintro ⟨k', hk', -⟩
        cases hk'
      · rintro ⟨-, hlast⟩
        rcases length_str_cases b n with ⟨hlen, hnz⟩ | ⟨hlt, -, -⟩
        · have hjn : ¬ j < n := fun hlt => hjw (hbuf j hlt)
          rw [show j = n by omega] at hjw
          exact absurd (hlast hnz) hjw
        · exact absurd (hbuf j (by omega)) hjw
  · constructor
    · rintro ⟨k', htrip, -⟩
      rw [roundTrip, writeFile_abort hfd ⟨hf, rfl⟩ htype (by omega) hd hb (by omega), error_bind] at htrip
      cases htrip
    · rintro ⟨h, -⟩
      exact absurd h hfits

namespace Kernel

/-- A process with one page, in frame 0, that starts with the bytes `l`. -/
def onePage (l : List Byte) : UserSpace :=
  ⟨[⟨0, 0, true, false, false, false⟩], fun a => l.getD a 0⟩

theorem distinct_onePage (l : List Byte) : (onePage l).Distinct := List.nodup_singleton _

/-- A new kernel with that process, after `CreateFile` and `OpenFileID` of a file `"f"`. -/
def withFile (l : List Byte) (type : Word) : Kernel :=
  let host := (started.host.create [102]).get rfl
  { started.setFile 2 (openHost host [102] type) with user := onePage l, host := host }

end Kernel

open Nachos.Stub.Kernel in
/-- `"ab"` comes back. -/
theorem file_round_trip_ab : ((97 : Byte) ≠ 0 ∧ (98 : Byte) ≠ 0) ∧
    ∀ S, ∃ k', roundTrip S (withFile [97, 98] 0) 2 0 2 0 (onePage []) (onePage []) 8 = .ok k' ∧
      ∀ j < 2, k'.user.view (8 + BitVec.ofNat 32 j) = some ([97, 98].getD j 0) := by
  refine ⟨by decide, ?_⟩
  intro S
  have htext : ∀ j < 2, (withFile [97, 98] 0).user.view (0 + BitVec.ofNat 32 j) = some ([97, 98].getD j 0) := by decide
  refine (file_round_trip_iff (i := 2) (f := ⟨2, 0, 0, 0⟩) rfl rfl rfl (by decide) (by decide) (Nat.zero_le _)
    (distinct_onePage _) htext (distinct_onePage _) ?_).2 ⟨by decide, ?_, fun _ => by decide⟩
  · decide
  · rintro j hj ⟨l, hl, hz⟩
    obtain rfl : l = 0 := by omega
    cases hz

open Nachos.Stub.Kernel in
/-- What is behind the zero of `"a\0b"` does not come back. -/
theorem file_round_trip_zero_lost : (∀ j < 3, (withFile [97, 0, 98] 0).user.view (BitVec.ofNat 32 j) =
      some ([97, 0, 98].getD j 0)) ∧
    ∀ S, ∃ k', roundTrip S (withFile [97, 0, 98] 0) 2 0 3 0 (onePage []) (onePage []) 8 = .ok k' ∧
      k'.user.view (8 + 2) = some 0 := by
  refine ⟨by decide, ?_⟩
  intro S
  exact ⟨_, rfl, rfl⟩

end Stub

end Nachos
