import Nachos.Userprog.UserCode

/-!
# The start-up code of user programs

`test/start.s`, as the words that the programs in `test/` begin with: `__start` at 0, then one stub of four
words for each system call.  The assembler has put the `move` of `__start` into the delay slot of the call
of `Exit`, and a `nop` into the others.

* `stub_enters` — the first two instructions of a stub, up to the exception handler.
* `stub_leaves` — the last two.
* `user_program_calls` — `main` is called, a program that returns from it halts the machine, and a stub is
  a function that leaves the result of the system call in r2.
-/

set_option autoImplicit false

namespace Nachos

open Instruction MachineState Partial

namespace Start

/-! ## The words -/

/-- The number of a system call in `userprog/syscall.h`, from `SC_Halt` to `SC_Signal`. -/
def numSyscalls : Nat := 29

/-- `addiu $2,$0,code`, `syscall`, `j $31` and `nop`. -/
def stub (code : Word) : List Word := [0x24020000 ||| code, 0x0000000c, 0x03e00008, 0]

/-- Where the stub of a system call is. -/
def stubAddr (n : Nat) : Word := BitVec.ofNat 32 (16 + 16 * n)

/-- `jal`. -/
def jal (target : Word) : Word := (0x0c000000 : Word) + (target >>> (2 : Nat))

/-- `__start`: `jal main`, `nop`, `jal Exit`, `move $4,$0`. -/
def startCode (main : Word) : List Word := [jal main, 0, jal (stubAddr 1), 0x00002021]

def stubs : List Word := ((List.range numSyscalls).map (fun n => stub (BitVec.ofNat 32 n))).flatten

def start (main : Word) : List Word := startCode main ++ stubs

theorem decode_addiu : ∀ n < numSyscalls, (decode (0x24020000 ||| BitVec.ofNat 32 n)).opCode = .addiu ∧
    (decode (0x24020000 ||| BitVec.ofNat 32 n)).rs = 0 ∧ (decode (0x24020000 ||| BitVec.ofNat 32 n)).rt = 2 ∧
    (decode (0x24020000 ||| BitVec.ofNat 32 n)).extra = BitVec.ofNat 32 n := by
  decide

/-- A target in the first 256 megabytes. -/
theorem decode_jal (target : Word) (halign : target.toNat % 4 = 0) (hlow : target.toNat < 2 ^ 28) :
    (decode (jal target)).opCode = .jal ∧ indexToAddr (decode (jal target)).extra = target := by
  have hword : (jal target).toNat = 0x0c000000 + target.toNat / 4 := by
    rw [jal, BitVec.toNat_add, BitVec.toNat_ushiftRight, Nat.shiftRight_eq_div_pow,
      show (0x0c000000 : Word).toNat = 0x0c000000 from rfl]
    omega
  have hop : opField (jal target) = 3 := by
    apply Fin.ext
    show ((jal target >>> 26).setWidth 6).toNat = 3
    rw [BitVec.toNat_setWidth, BitVec.toNat_ushiftRight, Nat.shiftRight_eq_div_pow, hword]
    omega
  have hdecode : decode (jal target) = ⟨.jal, regField (jal target) 21, regField (jal target) 16,
      regField (jal target) 11, jal target &&& 0x3ffffff⟩ := by
    unfold decode
    rw [hop]
    rfl
  rw [hdecode]
  refine ⟨rfl, ?_⟩
  apply BitVec.eq_of_toNat_eq
  have hmask : (jal target).toNat &&& 0x3ffffff = (jal target).toNat % 2 ^ 26 := Nat.and_two_pow_sub_one_eq_mod _ 26
  rw [indexToAddr, BitVec.toNat_shiftLeft, BitVec.toNat_and, show (0x3ffffff : Word).toNat = 0x3ffffff from rfl, hmask,
    hword, Nat.shiftLeft_eq]
  omega

/-- The stubs are in the order of their numbers. -/
theorem start_stub (main : Word) {n : Nat} (hn : n < numSyscalls) :
    ((start main).drop (4 + 4 * n)).take 4 = stub (BitVec.ofNat 32 n) := by
  have hall : ∀ n < numSyscalls, (stubs.drop (4 * n)).take 4 = stub (BitVec.ofNat 32 n) := by decide
  have hdrop : (start main).drop (4 + 4 * n) = stubs.drop (4 * n) := by
    rw [← List.drop_drop, show (start main).drop 4 = stubs from rfl]
  rw [hdrop, hall n hn]

variable {m : MachineState} {main : Word}

theorem contains_drop {addr : Word} {ws : List Word} (h : m.Contains addr ws) (n : Nat) :
    m.Contains (addr + BitVec.ofNat 32 (4 * n)) (ws.drop n) := by
  induction n generalizing addr ws with
  | zero =>
    show m.Contains (addr + 0#32) ws
    rw [BitVec.add_zero]
    exact h
  | succ n ih =>
    cases ws with
    | nil => trivial
    | cons w ws =>
      have hnext := ih h.2
      have haddr : addr + 4 + BitVec.ofNat 32 (4 * n) = addr + BitVec.ofNat 32 (4 * (n + 1)) := by
        apply BitVec.eq_of_toNat_eq
        rw [BitVec.toNat_add, BitVec.toNat_add, BitVec.toNat_add, BitVec.toNat_ofNat, BitVec.toNat_ofNat,
          show (4 : Word).toNat = 4 from rfl]
        omega
      rwa [haddr] at hnext

theorem contains_take {addr : Word} {ws : List Word} (h : m.Contains addr ws) (n : Nat) :
    m.Contains addr (ws.take n) := by
  induction n generalizing addr ws with
  | zero => trivial
  | succ n ih =>
    cases ws with
    | nil => trivial
    | cons w ws => exact ⟨h.1, ih h.2⟩

/-- The words of a stub. -/
theorem contains_stub (h : m.Contains 0 (start main)) {n : Nat} (hn : n < numSyscalls) :
    m.Contains (stubAddr n) (stub (BitVec.ofNat 32 n)) := by
  have hdrop := contains_take (contains_drop h (4 + 4 * n)) 4
  have haddr : 0 + BitVec.ofNat 32 (4 * (4 + 4 * n)) = stubAddr n := by
    rw [show 4 * (4 + 4 * n) = 16 + 16 * n by omega]
    exact BitVec.zero_add _
  rwa [start_stub main hn, haddr] at hdrop

/-! ## A stub -/

/-- The processor comes to `addr`, where no load to `d` is pending. -/
structure Arrives (m : MachineState) (addr : Word) (d : Fin 32) : Prop where
  zero : m.registers (gpr 0) = 0
  pc : m.registers PCReg = addr
  nextPC : m.registers NextPCReg = addr + 4
  load : ∃ t : Fin 32, t ≠ d ∧ m.registers LoadReg = BitVec.ofNat 32 t.val

/-- The registers that a system call does not keep. -/
def callRegs : List (Fin NumTotalRegs) := [gpr 2, PrevPCReg, PCReg, NextPCReg, BadVAddrReg]

/-- A function has returned: `r` are the registers of the call. -/
structure Returns (r r' : Regs) (v : Word) : Prop where
  settled : Settled r'
  pc : r' PCReg = r RetAddrReg
  nextPC : r' NextPCReg = r RetAddrReg + 4
  result : r' (gpr 2) = v
  others : ∀ i ∉ callRegs, r' i = r i

/-- The processor comes to a settled state. -/
theorem Arrives.settles {κ : Type} {S : Services (κ × Memory × List TranslationEntry)} {k : κ} {addr w : Word}
    {d : Fin 32} (h : Arrives m addr d) (hw : m.word addr = some w)
    (hind : ∀ t : Fin 32, t ≠ d → (decode w).Independent (gpr t)) (due : Nat × Nat) :
    round S (m, k) due = round S (m.interrupt, k) (0, 0) ∧ Settled m.interrupt.registers ∧
      m.interrupt.registers PCReg = addr ∧ m.interrupt.registers NextPCReg = addr + 4 := by
  obtain ⟨t, ht, hload⟩ := h.load
  refine ⟨round_settles h.zero hload ?_ due, settled_delayedLoad _, ?_, ?_⟩
  · intro instr hinstr
    rw [fetched_of_word (by rw [h.pc]; exact hw)] at hinstr
    cases hinstr
    exact hind t ht
  · rw [interrupt_special hload (by decide) (by decide) (by decide), h.pc]
  · rw [interrupt_special hload (by decide) (by decide) (by decide), h.nextPC]

/-- **The first two instructions** of a stub put its number into r2 and call the exception handler. -/
theorem stub_enters {κ : Type} {S : Services (κ × Memory × List TranslationEntry)} {k : κ} {n : Nat}
    (hn : n < numSyscalls) (h : Arrives m (stubAddr n) 2) (hc : m.Contains (stubAddr n) (stub (BitVec.ofNat 32 n)))
    (d₁ d₂ : Nat × Nat) :
    ∃ r pt, UserSpace.Same m.pageTable pt ∧ Settled r ∧ r PCReg = stubAddr n + 4 ∧ r NextPCReg = stubAddr n + 8 ∧
      r (gpr 2) = BitVec.ofNat 32 n ∧ (∀ i ∉ callRegs, r i = m.interrupt.registers i) ∧
      rounds S (m, k) [d₁, d₂] = outcome S k (.exception .syscallException ⟨r, pt, m.mainMemory⟩) := by
  obtain ⟨hop, hrs, hrt, hextra⟩ := decode_addiu n hn
  obtain ⟨hw₁, hw₂, -⟩ := hc
  have hind : ∀ t : Fin 32, t ≠ 2 → (decode (0x24020000 ||| BitVec.ofNat 32 n)).Independent (gpr t) := by
    intro t ht
    unfold Independent reads writes
    rw [hop, hrs, hrt]
    split
    · exact ⟨by simp, by simp⟩
    · rename_i h0
      exact ⟨by simpa using h0, by simpa using ht⟩
  obtain ⟨hround, hsettled, hpc, hnext⟩ := h.settles (S := S) (k := k) hw₁ hind d₁
  obtain ⟨pt₁, hsame₁, hround₁⟩ := round_done (S := S) (k := k) (0, 0) hsettled (by rw [hpc]; exact hw₁)
    (fun pt => execute_addiu hsettled hop (by rw [hrt]; decide))
  rw [hrt, hrs, hextra, hsettled.zero, show (0 : Word) + BitVec.ofNat 32 n = BitVec.ofNat 32 n from BitVec.zero_add _,
    hnext] at hround₁
  generalize hr₁ : MachineState.next (Function.update m.interrupt.registers (gpr 2) (BitVec.ofNat 32 n))
    (stubAddr n + 4 + 4) = r₁ at hround₁
  have hsettled₁ : Settled r₁ := by
    rw [← hr₁]
    exact settled_next (settled_update hsettled (by decide) (by decide) (by decide) _) _
  have hpc₁ : r₁ PCReg = stubAddr n + 4 := by
    rw [← hr₁, next_pc, Function.update_of_ne (by decide), hnext]
  have hcode₁ : SameCode m ⟨r₁, pt₁, m.mainMemory⟩ := ⟨hsame₁, rfl⟩
  change round S (m.interrupt, k) (0, 0) = .ok (⟨r₁, pt₁, m.mainMemory⟩, k) at hround₁
  -- the system call
  obtain ⟨pt₂, hsame₂, hround₂⟩ := round_word (S := S) (k := k) (m := ⟨r₁, pt₁, m.mainMemory⟩)
    (w := 0x0000000c) (by
      show word _ (r₁ PCReg) = _
      rw [hpc₁, word_same hcode₁]
      exact hw₂)
  have hbad : Settled (Function.update r₁ BadVAddrReg 0) :=
    settled_update hsettled₁ (by decide) (by decide) (by decide) _
  refine ⟨Function.update r₁ BadVAddrReg 0, pt₂, hsame₁.trans hsame₂, hbad, ?_, ?_, ?_, ?_, ?_⟩
  · rw [Function.update_of_ne (by decide), hpc₁]
  · rw [Function.update_of_ne (by decide), ← hr₁, next_nextPC]
    exact BitVec.add_assoc _ 4 4
  · rw [Function.update_of_ne (by decide), ← hr₁, next_of_ne _ _ (by decide) (by decide) (by decide),
      Function.update_self]
  · intro i hi
    simp only [callRegs, List.mem_cons, List.not_mem_nil, or_false, not_or] at hi
    obtain ⟨h2, hprev, hpcreg, hnextreg, hbadreg⟩ := hi
    rw [Function.update_of_ne hbadreg, ← hr₁, next_of_ne _ _ hprev hpcreg hnextreg, Function.update_of_ne h2]
  · rw [rounds, hround, hround₁]
    show (round S _ d₂).bind _ = _
    rw [round_settled hsettled₁, hround₂, execute_syscall hsettled₁]
    cases outcome S k (.exception .syscallException ⟨Function.update r₁ BadVAddrReg 0, pt₂, m.mainMemory⟩) with
    | ok y => rfl
    | error stop => rfl

/-- **The last two instructions** of a stub go back to the caller. -/
theorem stub_leaves {κ : Type} {S : Services (κ × Memory × List TranslationEntry)} {k : κ} {addr code : Word}
    (h : Settled m.registers) (hpc : m.registers PCReg = addr + 8) (hnext : m.registers NextPCReg = addr + 8 + 4)
    (hc : m.Contains addr (stub code)) (d₃ d₄ : Nat × Nat) :
    ∃ r pt, UserSpace.Same m.pageTable pt ∧ rounds S (m, k) [d₃, d₄] = .ok (⟨r, pt, m.mainMemory⟩, k) ∧ Settled r ∧
      r PCReg = m.registers RetAddrReg ∧ r NextPCReg = m.registers RetAddrReg + 4 ∧
      ∀ i ≠ PrevPCReg, i ≠ PCReg → i ≠ NextPCReg → r i = m.registers i := by
  obtain ⟨-, -, hw₃, hw₄, -⟩ := hc
  have h8 : addr + 4 + 4 = addr + 8 := BitVec.add_assoc _ 4 4
  rw [h8] at hw₃ hw₄
  obtain ⟨pt₃, hsame₃, hround₃⟩ := round_done (S := S) (k := k) d₃ h (by rw [hpc]; exact hw₃)
    (fun pt => execute_jr h rfl)
  change round S (m, k) d₃ = .ok (⟨MachineState.next m.registers (m.registers RetAddrReg), pt₃, m.mainMemory⟩, k)
    at hround₃
  have h₃ := settled_next h (m.registers RetAddrReg)
  have hcode₃ : SameCode m ⟨MachineState.next m.registers (m.registers RetAddrReg), pt₃, m.mainMemory⟩ := ⟨hsame₃, rfl⟩
  obtain ⟨pt₄, hsame₄, hround₄⟩ := round_done (S := S) (k := k)
    (m := ⟨MachineState.next m.registers (m.registers RetAddrReg), pt₃, m.mainMemory⟩) d₄ h₃ (by
      show word _ (MachineState.next m.registers (m.registers RetAddrReg) PCReg) = _
      rw [next_pc, hnext, word_same hcode₃]
      exact hw₄) (fun pt => execute_nop h₃)
  dsimp only at hround₄
  rw [next_nextPC] at hround₄
  refine ⟨MachineState.next (MachineState.next m.registers (m.registers RetAddrReg)) (m.registers RetAddrReg + 4), pt₄,
    hsame₃.trans hsame₄, ?_, settled_next h₃ _, ?_, ?_, ?_⟩
  · rw [rounds, hround₃]
    show (round S _ d₄).bind _ = _
    rw [hround₄]
    rfl
  · rw [next_pc, next_nextPC]
  · rw [next_nextPC]
  · intro i hprev hpcreg hnextreg
    rw [next_of_ne _ _ hprev hpcreg hnextreg, next_of_ne _ _ hprev hpcreg hnextreg]

/-! ## Every system call -/

/-- A create that fails leaves -1 in r2. -/
theorem syscall_ret {κ : Type} {S : Services κ} {r : Regs} {k k' : κ} {r2 : Option Word}
    (h : Exception.syscall S r k = .ok (.ret, r2, k')) : r2 = some (-1) := by
  have hcode : syscallCode (r (gpr 2)) = some .create := by
    by_contra hne
    exact absurd (Exception.syscall_brk h hne) (by simp)
  unfold Exception.syscall at h
  rw [hcode] at h
  dsimp only at h
  unfold Exception.create at h
  obtain ⟨⟨filename, k1⟩, -, h⟩ := bind_eq_ok.1 h
  obtain ⟨⟨created, k2⟩, -, h⟩ := bind_eq_ok.1 h
  cases created with
  | true => cases h
  | false =>
    cases h
    rfl

theorem rounds_append {κ : Type} {S : Services (κ × Memory × List TranslationEntry)} (x : MachineState × κ)
    (due due' : List (Nat × Nat)) : rounds S x (due ++ due') = (rounds S x due).bind (fun y => rounds S y due') := by
  induction due generalizing x with
  | nil => rfl
  | cons d due ih =>
    rw [List.cons_append, rounds, rounds]
    cases round S x d with
    | error stop => rfl
    | ok y => exact ih y

/-- **A stub is a function**: it passes r4 to r6 to the system call, and returns to the caller with the
result in r2 and the other registers unchanged.  `Create` does not return if it fails. -/
theorem stub_calls {κ : Type} {S : Services (κ × Memory × List TranslationEntry)} {k : κ} {n : Nat}
    (hn : n < numSyscalls) (h : Arrives m (stubAddr n) 2) (hc : m.Contains 0 (start main)) (d₁ d₂ d₃ d₄ : Nat × Nat) :
    ∃ r pt, UserSpace.Same m.pageTable pt ∧ r (gpr 2) = BitVec.ofNat 32 n ∧
      (∀ i ∉ callRegs, r i = m.interrupt.registers i) ∧
      (∀ stop, Exception.syscall S r (k, m.mainMemory, pt) = .error stop →
        rounds S (m, k) [d₁, d₂, d₃, d₄] = .error stop) ∧
      ∀ leave r2 k' mainMemory pt', Exception.syscall S r (k, m.mainMemory, pt) = .ok (leave, r2, k', mainMemory, pt') →
        Contains ⟨r, pt', mainMemory⟩ 0 (start main) →
        (leave = .ret → rounds S (m, k) [d₁, d₂, d₃, d₄] = .error .halt) ∧
        (leave = .brk → ∃ r' pt'', UserSpace.Same pt' pt'' ∧
          rounds S (m, k) [d₁, d₂, d₃, d₄] = .ok (⟨r', pt'', mainMemory⟩, k') ∧
          Returns m.interrupt.registers r' (r2.getD (BitVec.ofNat 32 n))) := by
  obtain ⟨r, pt, hsame, hr, hpc, hnext, h2, hothers, hrounds⟩ := stub_enters (S := S) (k := k) hn h
    (contains_stub hc hn) d₁ d₂
  have hsplit := rounds_append (S := S) (m, k) [d₁, d₂] [d₃, d₄]
  rw [hrounds] at hsplit
  refine ⟨r, pt, hsame, h2, hothers, ?_, ?_⟩
  · intro stop hstop
    rw [List.cons_append, List.cons_append, List.nil_append] at hsplit
    rw [hsplit, outcome, Exception.exceptionHandler]
    dsimp only
    rw [hstop]
    rfl
  · intro leave r2 k' mainMemory pt' hcall hkept
    have hstub := contains_stub hkept hn
    have hwrite : ∀ i ≠ gpr 2, Exception.writeR2 r r2 i = r i := fun i hi => Exception.writeR2_of_ne r r2 hi
    have hsettled : Settled (Exception.writeR2 r r2) :=
      ⟨(hwrite _ (by decide)).trans hr.zero, (hwrite _ (by decide)).trans hr.load,
        (hwrite _ (by decide)).trans hr.loadValue⟩
    rw [List.cons_append, List.cons_append, List.nil_append, outcome, Exception.exceptionHandler] at hsplit
    dsimp only at hsplit
    rw [hcall] at hsplit
    constructor
    · -- the program counters are where they were, and -1 is no system call
      rintro rfl
      cases syscall_ret hcall
      rw [hsplit]
      show (round S (⟨Exception.writeR2 r (some (-1)), pt', mainMemory⟩, k') d₃).bind _ = _
      have hword : MachineState.word ⟨Exception.writeR2 r (some (-1)), pt', mainMemory⟩
          (Exception.writeR2 r (some (-1)) PCReg) = some 0x0000000c := by
        rw [hwrite _ (by decide), hpc]
        exact hstub.2.1
      obtain ⟨pt₃, -, hround₃⟩ := round_word (S := S) (k := k')
        (m := ⟨Exception.writeR2 r (some (-1)), pt', mainMemory⟩) hword
      have hnone : Exception.syscall S (Function.update (Exception.writeR2 r (some (-1))) BadVAddrReg 0)
          (k', mainMemory, pt₃) = .error .halt := by
        unfold Exception.syscall
        rw [show Function.update (Exception.writeR2 r (some (-1))) BadVAddrReg 0 (gpr 2) = -1 by
          rw [Function.update_of_ne (by decide), Exception.writeR2, Function.update_self]]
        rfl
      rw [round_settled hsettled, hround₃, execute_syscall hsettled, outcome, Exception.exceptionHandler]
      dsimp only
      rw [hnone]
      rfl
    · rintro rfl
      rw [hsplit]
      show ∃ r' pt'', _ ∧
        rounds S (⟨Exception.advancePC (Exception.writeR2 r r2), pt', mainMemory⟩, k') [d₃, d₄] = _ ∧ _
      rw [advancePC_eq, hwrite _ (by decide), hnext]
      have hcode : SameCode ⟨r, pt', mainMemory⟩
          ⟨MachineState.next (Exception.writeR2 r r2) (stubAddr n + 8 + 4), pt', mainMemory⟩ := .refl _
      have hpc₂ : MachineState.next (Exception.writeR2 r r2) (stubAddr n + 8 + 4) PCReg = stubAddr n + 8 := by
        rw [next_pc, hwrite _ (by decide), hnext]
      have hnext₂ := next_nextPC (Exception.writeR2 r r2) (stubAddr n + 8 + 4)
      obtain ⟨r', pt'', hsame', hrounds', hsettled', hpc', hnext', hothers'⟩ := stub_leaves (S := S) (k := k')
        (m := ⟨MachineState.next (Exception.writeR2 r r2) (stubAddr n + 8 + 4), pt', mainMemory⟩)
        (settled_next hsettled _) hpc₂ hnext₂ (hstub.same hcode) d₃ d₄
      have hkeep : ∀ i ∉ callRegs, MachineState.next (Exception.writeR2 r r2) (stubAddr n + 8 + 4) i =
          m.interrupt.registers i := by
        intro i hi
        have hi' := hothers i hi
        simp only [callRegs, List.mem_cons, List.not_mem_nil, or_false, not_or] at hi
        obtain ⟨hi2, hprev, hpcreg, hnextreg, -⟩ := hi
        rw [next_of_ne _ _ hprev hpcreg hnextreg, hwrite _ hi2, hi']
      have hra := hkeep RetAddrReg (by decide)
      refine ⟨r', pt'', hsame', hrounds', hsettled', hpc'.trans hra, hnext'.trans (congrArg (· + 4) hra), ?_, ?_⟩
      · rw [hothers' _ (by decide) (by decide) (by decide)]
        show MachineState.next (Exception.writeR2 r r2) (stubAddr n + 8 + 4) (gpr 2) = _
        rw [next_of_ne _ _ (by decide) (by decide) (by decide)]
        cases r2 with
        | none => exact h2
        | some v =>
          show Function.update r (gpr 2) v (gpr 2) = v
          rw [Function.update_self]
      · intro i hi
        have hi' := hkeep i hi
        simp only [callRegs, List.mem_cons, List.not_mem_nil, or_false, not_or] at hi
        obtain ⟨-, hprev, hpcreg, hnextreg, -⟩ := hi
        exact (hothers' i hprev hpcreg hnextreg).trans hi'

/-! ## The calls of `__start` -/

/-- A call with its delay slot, from the first 256 megabytes. -/
theorem call_enters {κ : Type} {S : Services (κ × Memory × List TranslationEntry)} {k : κ} {addr target w : Word}
    {f : Regs → Regs} (h : Settled m.registers) (hpc : m.registers PCReg = addr)
    (hnext : m.registers NextPCReg = addr + 4) (haddr : addr + 4 + 4 &&& 0xf0000000 = 0)
    (halign : target.toNat % 4 = 0) (hlow : target.toNat < 2 ^ 28) (hw₁ : m.word addr = some (jal target)) (hw₂ : m.word (addr + 4) = some w)
    (hslot : ∀ r pt, Settled r → execute ⟨r, pt, m.mainMemory⟩ (decode w) =
      .done ⟨MachineState.next (f r) (r NextPCReg + 4), pt, m.mainMemory⟩) (d₁ d₂ : Nat × Nat) :
    ∃ r pt, r = MachineState.next
        (f (MachineState.next (Function.update m.registers RetAddrReg (addr + 4 + 4)) target)) (target + 4) ∧
      UserSpace.Same m.pageTable pt ∧ rounds S (m, k) [d₁, d₂] = .ok (⟨r, pt, m.mainMemory⟩, k) := by
  obtain ⟨hop, hextra⟩ := decode_jal target halign hlow
  obtain ⟨pt₁, hsame₁, hround₁⟩ := round_done (S := S) (k := k) d₁ h (by rw [hpc]; exact hw₁)
    (fun pt => execute_jal h hop)
  rw [hextra, hnext, haddr, show (0 : Word) ||| target = target from BitVec.zero_or] at hround₁
  generalize hr₁ : MachineState.next (Function.update m.registers RetAddrReg (addr + 4 + 4)) target = r₁ at hround₁ ⊢
  have h₁ : Settled r₁ := by
    rw [← hr₁]
    exact settled_next (settled_update h (by decide) (by decide) (by decide) _) _
  have hcode₁ : SameCode m ⟨r₁, pt₁, m.mainMemory⟩ := ⟨hsame₁, rfl⟩
  obtain ⟨pt₂, hsame₂, hround₂⟩ := round_done (S := S) (k := k) (m := ⟨r₁, pt₁, m.mainMemory⟩) d₂ h₁ (by
    show word _ (r₁ PCReg) = _
    rw [word_same hcode₁, ← hr₁, next_pc, Function.update_of_ne (by decide), hnext]
    exact hw₂) (fun pt => hslot r₁ pt h₁)
  refine ⟨_, pt₂, rfl, hsame₁.trans hsame₂, ?_⟩
  rw [rounds, hround₁]
  show (round S _ d₂).bind _ = _
  rw [hround₂, ← hr₁, next_nextPC]
  rfl

theorem independent_jal {target : Word} (hop : (decode (jal target)).opCode = .jal) (t : Fin 32) (ht : t ≠ 31) :
    (decode (jal target)).Independent (gpr t) := by
  have hra : gpr t ≠ RetAddrReg := fun heq => ht (gpr_inj.1 heq)
  unfold Independent reads writes
  rw [hop]
  split
  · exact ⟨by simp, by simp⟩
  · exact ⟨by simp, by simpa using hra⟩

/-- `__start` calls `main`. -/
theorem start_calls_main {κ : Type} {S : Services (κ × Memory × List TranslationEntry)} {k : κ}
    (h : Settled m.registers) (hpc : m.registers PCReg = 0) (hnext : m.registers NextPCReg = 4)
    (halign : main.toNat % 4 = 0) (hlow : main.toNat < 2 ^ 28) (hc : m.Contains 0 (start main)) (d₁ d₂ : Nat × Nat) :
    ∃ r pt, UserSpace.Same m.pageTable pt ∧ rounds S (m, k) [d₁, d₂] = .ok (⟨r, pt, m.mainMemory⟩, k) ∧ Settled r ∧
      r PCReg = main ∧ r NextPCReg = main + 4 ∧ r RetAddrReg = 8 ∧
      ∀ i ∉ [RetAddrReg, PrevPCReg, PCReg, NextPCReg], r i = m.registers i := by
  obtain ⟨hw₁, hw₂, -⟩ := hc
  obtain ⟨r, pt, rfl, hsame, hrounds⟩ := call_enters (S := S) (k := k) (f := id) h hpc hnext rfl halign hlow hw₁ hw₂
    (fun r pt hr => execute_nop hr) d₁ d₂
  refine ⟨_, pt, hsame, hrounds, ?_, ?_, ?_, ?_, ?_⟩
  · exact settled_next (settled_next (settled_update h (by decide) (by decide) (by decide) _) _) _
  · rw [next_pc, id, next_nextPC]
  · rw [next_nextPC]
  · rw [next_of_ne _ _ (by decide) (by decide) (by decide), id, next_of_ne _ _ (by decide) (by decide) (by decide),
      Function.update_self]
    rfl
  · intro i hi
    simp only [List.mem_cons, List.not_mem_nil, or_false, not_or] at hi
    obtain ⟨hra, hprev, hpcreg, hnextreg⟩ := hi
    rw [next_of_ne _ _ hprev hpcreg hnextreg, id, next_of_ne _ _ hprev hpcreg hnextreg, Function.update_of_ne hra]

/-- A program that returns from `main` calls `Exit`. -/
theorem start_exits {κ : Type} {S : Services (κ × Memory × List TranslationEntry)} {k : κ} (h : Arrives m 8 31)
    (hc : m.Contains 0 (start main)) (d₁ d₂ d₃ d₄ : Nat × Nat) :
    rounds S (m, k) [d₁, d₂, d₃, d₄] = .error .halt := by
  have hcode : SameCode m m.interrupt := .refl m
  obtain ⟨-, -, hw₁, hw₂, -⟩ := id hc
  have hexit := decode_jal (stubAddr 1) (by decide) (by decide)
  obtain ⟨hround, hsettled, hpc, hnext⟩ := h.settles (S := S) (k := k) hw₁ (independent_jal hexit.1) d₁
  obtain ⟨r, pt, hr, hsame, hrounds⟩ := call_enters (S := S) (k := k) (m := m.interrupt) (w := 0x00002021)
    (f := fun r => Function.update r (gpr 4) (r (gpr 0) + r (gpr 0))) hsettled hpc hnext rfl (by decide) (by decide)
    ((word_same hcode _).trans hw₁) ((word_same hcode _).trans hw₂)
    (fun r pt hr => execute_addu hr rfl (by decide)) d₁ d₂
  have hr' : Settled r := by
    rw [hr]
    exact settled_next (settled_update (settled_next (settled_update hsettled (by decide) (by decide) (by decide) _) _)
      (by decide) (by decide) (by decide) _) _
  have harrives : Arrives ⟨r, pt, m.mainMemory⟩ (stubAddr 1) 2 := by
    refine ⟨hr'.zero, ?_, ?_, 0, by decide, hr'.load⟩
    · show r PCReg = _
      rw [hr, next_pc, Function.update_of_ne (by decide), next_nextPC]
    · show r NextPCReg = _
      rw [hr, next_nextPC]
  have hcode' : SameCode m ⟨r, pt, m.mainMemory⟩ := ⟨hsame, rfl⟩
  obtain ⟨r', pt', -, -, -, -, h2, -, hrounds'⟩ := stub_enters (S := S) (k := k) (n := 1) (by decide) harrives
    ((contains_stub hc (by decide)).same hcode') d₃ d₄
  have hfirst : rounds S (m, k) [d₁, d₂] = rounds S (m.interrupt, k) [d₁, d₂] := by
    rw [rounds, rounds, hround, round_settled hsettled d₁]
  have hsplit := rounds_append (S := S) (m, k) [d₁, d₂] [d₃, d₄]
  rw [hfirst, hrounds] at hsplit
  refine hsplit.trans (hrounds'.trans ?_)
  have hexit : Exception.syscall S r' (k, m.mainMemory, pt') = .error .halt := by
    unfold Exception.syscall
    rw [h2]
    rfl
  rw [outcome, Exception.exceptionHandler]
  dsimp only
  rw [hexit]
  rfl

/-- **Calls between a user program and its start-up code**, for every kernel and whenever interrupts fire:
`__start` calls `main` with the address behind the call in r31; a program that returns from `main` halts the
machine; and every stub passes its arguments to the system call and returns the result in r2, with the other
registers as they were, unless the call ends the program or is a `Create` that fails, which halts the machine. -/
theorem user_program_calls {κ : Type} (S : Services (κ × Memory × List TranslationEntry)) (k : κ) (main : Word)
    (halign : main.toNat % 4 = 0) (hlow : main.toNat < 2 ^ 28) :
    (∀ m : MachineState, Settled m.registers → m.registers PCReg = 0 → m.registers NextPCReg = 4 →
      m.Contains 0 (start main) → ∀ d₁ d₂, ∃ r pt, UserSpace.Same m.pageTable pt ∧
        rounds S (m, k) [d₁, d₂] = .ok (⟨r, pt, m.mainMemory⟩, k) ∧ Settled r ∧ r PCReg = main ∧
        r NextPCReg = main + 4 ∧ r RetAddrReg = 8 ∧
        ∀ i ∉ [RetAddrReg, PrevPCReg, PCReg, NextPCReg], r i = m.registers i) ∧
    (∀ m, Arrives m 8 31 → m.Contains 0 (start main) → ∀ d₁ d₂ d₃ d₄,
      rounds S (m, k) [d₁, d₂, d₃, d₄] = .error .halt) ∧
    ∀ m n, n < numSyscalls → Arrives m (stubAddr n) 2 → m.Contains 0 (start main) → ∀ d₁ d₂ d₃ d₄,
      ∃ r pt, UserSpace.Same m.pageTable pt ∧ r (gpr 2) = BitVec.ofNat 32 n ∧
        (∀ i ∉ callRegs, r i = m.interrupt.registers i) ∧
        (∀ stop, Exception.syscall S r (k, m.mainMemory, pt) = .error stop →
          rounds S (m, k) [d₁, d₂, d₃, d₄] = .error stop) ∧
        ∀ leave r2 k' mainMemory pt',
          Exception.syscall S r (k, m.mainMemory, pt) = .ok (leave, r2, k', mainMemory, pt') →
          Contains ⟨r, pt', mainMemory⟩ 0 (start main) →
          (leave = .ret → rounds S (m, k) [d₁, d₂, d₃, d₄] = .error .halt) ∧
          (leave = .brk → ∃ r' pt'', UserSpace.Same pt' pt'' ∧
            rounds S (m, k) [d₁, d₂, d₃, d₄] = .ok (⟨r', pt'', mainMemory⟩, k') ∧
            Returns m.interrupt.registers r' (r2.getD (BitVec.ofNat 32 n))) :=
  ⟨fun _ h hpc hnext hc d₁ d₂ => start_calls_main h hpc hnext halign hlow hc d₁ d₂,
    fun _ h hc d₁ d₂ d₃ d₄ => start_exits h hc d₁ d₂ d₃ d₄,
    fun _ _ hn h hc d₁ d₂ d₃ d₄ => stub_calls hn h hc d₁ d₂ d₃ d₄⟩

instance decidableContains (m : MachineState) : ∀ (addr : Word) (ws : List Word), Decidable (m.Contains addr ws)
  | _, [] => isTrue trivial
  | addr, w :: ws =>
    have := decidableContains m (addr + 4) ws
    inferInstanceAs (Decidable (m.word addr = some w ∧ m.Contains (addr + 4) ws))

/-- The code of a program whose `main` is at 0x1f0, and the program counters at an address. -/
def programAt (addr : Word) : MachineState where
  registers := Function.update (Function.update (fun _ => 0) PCReg addr) NextPCReg (addr + 4)
  pageTable := (List.range 9).map fun i => ⟨i, i, true, false, false, false⟩
  mainMemory := Bytes.ofWords (start 0x1f0)

theorem contains_programAt (addr : Word) : (programAt addr).Contains 0 (start 0x1f0) := by
  have h : (programAt 0).Contains 0 (start 0x1f0) := by decide +kernel
  exact h.same ⟨rfl, rfl⟩

/-- A kernel with a console that takes every byte. -/
def consoleOnly : Services (List Byte × Memory × List TranslationEntry) where
  readMem _ _ := none
  writeMem _ _ _ := none
  create _ _ := .error .abort
  findFreeSlot _ := 10
  openSlot _ _ _ _ := .error .abort
  isNull _ _ := .ok true
  type _ _ := .error .abort
  length _ _ := .error .abort
  seek _ _ _ := .error .abort
  getCurrentPos _ _ := .error .abort
  read _ _ _ _ := .error .abort
  write _ _ _ _ := .error .abort
  close _ _ := .error .abort
  consoleRead _ _ := .error .abort
  consoleWrite k l := .ok (k.1 ++ l, k.2)
  execUpdate _ _ := .error .abort
  joinUpdate _ _ := .error .abort
  exitUpdate _ _ := .error .abort
  semCreate _ _ _ := .error .abort
  semWait _ _ := .error .abort
  semSignal _ _ := .error .abort

/-- `PrintChar(0)` returns to 0 with its number in r2, and the byte is on the console. -/
theorem user_program_calls_printChar :
    (∃ r pt, rounds consoleOnly (programAt 0, []) [(0, 0), (1, 2)] = .ok (⟨r, pt, Bytes.ofWords (start 0x1f0)⟩, []) ∧
      r PCReg = 0x1f0 ∧ r RetAddrReg = 8) ∧
    rounds consoleOnly (programAt 8, []) [(0, 0), (1, 0), (0, 0), (0, 3)] = .error .halt ∧
    ∃ r pt, rounds consoleOnly (programAt (stubAddr 14), []) [(0, 0), (0, 1), (0, 0), (0, 0)] =
      .ok (⟨r, pt, Bytes.ofWords (start 0x1f0)⟩, [0]) ∧ r PCReg = 0 ∧ r (gpr 2) = 14 := by
  obtain ⟨hmain, hexit, hstub⟩ := user_program_calls consoleOnly [] 0x1f0 (by decide) (by decide)
  refine ⟨?_, hexit _ ?_ (contains_programAt 8) _ _ _ _, ?_⟩
  · obtain ⟨r, pt, -, hrounds, -, hpc, -, hra, -⟩ := hmain (programAt 0) ⟨rfl, rfl, rfl⟩ rfl rfl (contains_programAt 0)
      (0, 0) (1, 2)
    exact ⟨r, pt, hrounds, hpc, hra⟩
  · exact ⟨rfl, rfl, rfl, 0, by decide, rfl⟩
  · obtain ⟨r, pt, hsame, h2, hothers, -, hcall⟩ := hstub (programAt (stubAddr 14)) 14 (by decide)
      ⟨rfl, rfl, rfl, 0, by decide, rfl⟩ (contains_programAt _) (0, 0) (0, 1) (0, 0) (0, 0)
    have hcode : SameCode (programAt (stubAddr 14)) ⟨r, pt, (programAt (stubAddr 14)).mainMemory⟩ := ⟨hsame, rfl⟩
    have h4 : r (gpr 4) = 0 := hothers (gpr 4) (by decide)
    have hsyscall : Exception.syscall consoleOnly r ([], (programAt (stubAddr 14)).mainMemory, pt) =
        .ok (.brk, none, [0], (programAt (stubAddr 14)).mainMemory, pt) := by
      unfold Exception.syscall
      rw [h2, h4]
      rfl
    obtain ⟨r', pt', -, hrounds, hreturns⟩ := (hcall _ _ _ _ _ hsyscall
      ((contains_programAt (stubAddr 14)).same hcode)).2 rfl
    exact ⟨r', pt', hrounds, hreturns.pc, hreturns.result⟩

end Start

end Nachos
