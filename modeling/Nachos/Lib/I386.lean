import Mathlib.Logic.Function.Basic

/-!
# A fragment of the 80386

The instructions that move words, push, pop, call through a register and return, in the order of
operands of the AT&T syntax.  Memory is made of aligned words: an access that is not aligned stops the
machine.  Code is at the addresses of `code`, and not part of the memory.

* `evals_saves`, `evals_restores` — registers stored in a block of memory, and loaded from it.
* `runs_placed`, `step_call` — instructions that lie one behind the other, and a call among them.
-/

set_option autoImplicit false

namespace I386

/-- The general registers. -/
inductive Reg where
  | eax | ebx | ecx | edx | esp | ebp | esi | edi
  deriving DecidableEq, Repr

/-- Registers and memory. -/
structure State where
  regs : Reg → BitVec 32
  mem : BitVec 32 → BitVec 32

/-- A register, a symbol, or the word at a displacement from a register. -/
inductive Operand where
  | reg (r : Reg)
  | sym (addr : BitVec 32)
  | disp (d : BitVec 32) (base : Reg)

/-- The instructions that do not jump. -/
inductive Op where
  | movl (src dst : Operand)
  | pushl (src : Reg)
  | popl (dst : Reg)

inductive Instr where
  | op (o : Op)
  | call (target : Reg)
  | ret

/-- The address of a word. -/
def Aligned (a : BitVec 32) : Prop := a.toNat % 4 = 0

instance (a : BitVec 32) : Decidable (Aligned a) := inferInstanceAs (Decidable (_ = _))

namespace State

variable (s : State)

def load (a : BitVec 32) : Option (BitVec 32) := if Aligned a then some (s.mem a) else none

def store (a w : BitVec 32) : Option State :=
  if Aligned a then some { s with mem := Function.update s.mem a w } else none

def setReg (r : Reg) (w : BitVec 32) : State := { s with regs := Function.update s.regs r w }

/-- The word that an operand stands for. -/
def read : Operand → Option (BitVec 32)
  | .reg r => some (s.regs r)
  | .sym a => s.load a
  | .disp d base => s.load (s.regs base + d)

def write (w : BitVec 32) : Operand → Option State
  | .reg r => some (s.setReg r w)
  | .sym a => s.store a w
  | .disp d base => s.store (s.regs base + d) w

def push (w : BitVec 32) : Option State := (s.setReg .esp (s.regs .esp - 4)).store (s.regs .esp - 4) w

/-- The word on top of the stack, and the stack without it. -/
def pop : Option (BitVec 32 × State) := (s.load (s.regs .esp)).map (fun w => (w, s.setReg .esp (s.regs .esp + 4)))

end State

def Op.eval (s : State) : Op → Option State
  | .movl src dst => (s.read src).bind (fun w => s.write w dst)
  | .pushl src => s.push (s.regs src)
  | .popl dst => s.pop.map (fun p => p.2.setReg dst p.1)

/-- Straight-line code. -/
def evals (s : State) : List Op → Option State
  | [] => some s
  | o :: os => (o.eval s).bind (fun u => evals u os)

/-- The instruction pointer, and the rest of the machine. -/
structure Config where
  eip : BitVec 32
  state : State

/-- The instruction at an address, and the address behind it. -/
abbrev Code := BitVec 32 → Option (Instr × BitVec 32)

/-- One instruction. -/
def step (code : Code) (k : Config) : Option Config :=
  match code k.eip with
  | none => none
  | some (.op o, next) => (o.eval k.state).map (fun s => ⟨next, s⟩)
  | some (.call target, next) => (k.state.push next).map (fun s => ⟨k.state.regs target, s⟩)
  | some (.ret, _) => k.state.pop.map (fun p => ⟨p.1, p.2⟩)

def runs (code : Code) : Nat → Config → Option Config
  | 0, k => some k
  | n + 1, k => (step code k).bind (runs code n)

/-- The instructions lie one behind the other, from `a` up to `b`. -/
def Placed (code : Code) : BitVec 32 → List Instr → BitVec 32 → Prop
  | a, [], b => a = b
  | a, i :: is, b => ∃ next, code a = some (i, next) ∧ Placed code next is b

/-! ## Words in memory -/

variable {s s' : State} {a b w : BitVec 32}

theorem Aligned.add (ha : Aligned a) (hb : Aligned b) : Aligned (a + b) := by
  unfold Aligned at *
  rw [BitVec.toNat_add]
  omega

theorem Aligned.sub (ha : Aligned a) (hb : Aligned b) : Aligned (a - b) := by
  unfold Aligned at *
  rw [BitVec.toNat_sub]
  omega

theorem load_eq (h : Aligned a) : s.load a = some (s.mem a) := if_pos h

theorem store_eq (h : Aligned a) (w : BitVec 32) :
    s.store a w = some { s with mem := Function.update s.mem a w } := if_pos h

theorem evals_append (os os' : List Op) (s : State) : evals s (os ++ os') = (evals s os).bind (evals · os') := by
  induction os generalizing s with
  | nil => rfl
  | cons o os ih =>
    rw [List.cons_append, evals, evals, Option.bind_assoc]
    congr 1
    funext u
    exact ih u

/-! ## Blocks of registers -/

/-- Store registers at displacements from `base`. -/
def saves (base : Reg) (l : List (BitVec 32 × Reg)) : List Op := l.map (fun p => .movl (.reg p.2) (.disp p.1 base))

/-- Load registers from displacements from `base`. -/
def restores (base : Reg) (l : List (BitVec 32 × Reg)) : List Op := l.map (fun p => .movl (.disp p.1 base) (.reg p.2))

theorem evals_saves (base : Reg) {regs : Reg → BitVec 32} (hbase : Aligned (regs base)) :
    ∀ (l : List (BitVec 32 × Reg)) (mem : BitVec 32 → BitVec 32), (∀ p ∈ l, Aligned p.1) → (l.map Prod.fst).Nodup →
      ∃ mem', evals ⟨regs, mem⟩ (saves base l) = some ⟨regs, mem'⟩ ∧
        (∀ p ∈ l, mem' (regs base + p.1) = regs p.2) ∧
        ∀ a, (∀ p ∈ l, a ≠ regs base + p.1) → mem' a = mem a := by
  intro l
  induction l with
  | nil => exact fun mem _ _ => ⟨mem, rfl, List.forall_mem_nil _, fun _ _ => rfl⟩
  | cons p l ih =>
    intro mem haligned hnd
    obtain ⟨hp, hl⟩ := List.forall_mem_cons.1 haligned
    obtain ⟨hnot, hnd'⟩ := List.nodup_cons.1 hnd
    obtain ⟨mem', heval, hin, hout⟩ := ih (Function.update mem (regs base + p.1) (regs p.2)) hl hnd'
    refine ⟨mem', ?_, ?_, ?_⟩
    · rw [saves, List.map_cons, evals]
      simp only [Op.eval, State.read, State.write, Option.bind_some, store_eq (hbase.add hp)]
      exact heval
    · refine List.forall_mem_cons.2 ⟨?_, hin⟩
      rw [hout, Function.update_self]
      intro q hq heq
      apply hnot
      rw [BitVec.add_right_inj] at heq
      rw [heq]
      exact List.mem_map_of_mem hq
    · intro a ha
      obtain ⟨hap, hal⟩ := List.forall_mem_cons.1 ha
      rw [hout a hal, Function.update_of_ne hap]

theorem evals_restores (base : Reg) (mem : BitVec 32 → BitVec 32) :
    ∀ (l : List (BitVec 32 × Reg)) (regs : Reg → BitVec 32), Aligned (regs base) → (∀ p ∈ l, Aligned p.1) →
      (l.map Prod.snd).Nodup → (∀ p ∈ l, p.2 ≠ base) →
      ∃ regs', evals ⟨regs, mem⟩ (restores base l) = some ⟨regs', mem⟩ ∧
        (∀ p ∈ l, regs' p.2 = mem (regs base + p.1)) ∧ ∀ r, (∀ p ∈ l, r ≠ p.2) → regs' r = regs r := by
  intro l
  induction l with
  | nil => exact fun regs _ _ _ _ => ⟨regs, rfl, List.forall_mem_nil _, fun _ _ => rfl⟩
  | cons p l ih =>
    intro regs hbase haligned hnd hne
    obtain ⟨hp, hl⟩ := List.forall_mem_cons.1 haligned
    obtain ⟨hnot, hnd'⟩ := List.nodup_cons.1 hnd
    obtain ⟨hpb, hlb⟩ := List.forall_mem_cons.1 hne
    have hkeep : Function.update regs p.2 (mem (regs base + p.1)) base = regs base :=
      Function.update_of_ne hpb.symm _ _
    obtain ⟨regs', heval, hin, hout⟩ := ih (Function.update regs p.2 (mem (regs base + p.1)))
      (by rw [hkeep]; exact hbase) hl hnd' hlb
    rw [hkeep] at hin
    refine ⟨regs', ?_, ?_, ?_⟩
    · rw [restores, List.map_cons, evals]
      simp only [Op.eval, State.read, State.write, Option.bind_some, load_eq (hbase.add hp)]
      exact heval
    · refine List.forall_mem_cons.2 ⟨?_, hin⟩
      rw [hout, Function.update_self]
      intro q hq heq
      apply hnot
      rw [heq]
      exact List.mem_map_of_mem hq
    · intro r hr
      obtain ⟨hrp, hrl⟩ := List.forall_mem_cons.1 hr
      rw [hout r hrl, Function.update_of_ne hrp]

/-! ## Runs -/

variable {code : Code} {k k' : Config}

theorem runs_add (m n : Nat) (k : Config) : runs code (m + n) k = (runs code m k).bind (runs code n) := by
  induction m generalizing k with
  | zero => rw [Nat.zero_add]; rfl
  | succ m ih =>
    rw [Nat.succ_add, runs, runs, Option.bind_assoc]
    congr 1
    funext u
    exact ih u

/-- **Straight-line code** runs as `evals` says. -/
theorem runs_placed {os : List Op} {is : List Instr} (hcode : Placed code a (os.map .op ++ is) b)
    (h : evals s os = some s') :
    ∃ c, Placed code c is b ∧ runs code os.length ⟨a, s⟩ = some ⟨c, s'⟩ := by
  induction os generalizing a s with
  | nil =>
    cases h
    exact ⟨a, hcode, rfl⟩
  | cons o os ih =>
    obtain ⟨next, hat, hrest⟩ := hcode
    obtain ⟨u, hu, hs'⟩ := Option.bind_eq_some_iff.1 h
    obtain ⟨c, hc, hruns⟩ := ih hrest hs'
    refine ⟨c, hc, ?_⟩
    rw [List.length_cons, runs, step, hat]
    simp only [hu, Option.map_some, Option.bind_some]
    exact hruns

/-- A call leaves the address of the next instruction on the stack. -/
theorem step_call {r : Reg} {is : List Instr} (hcode : Placed code a (.call r :: is) b) (hsp : Aligned (s.regs .esp)) :
    ∃ next, Placed code next is b ∧ step code ⟨a, s⟩ = some ⟨s.regs r,
      ⟨Function.update s.regs .esp (s.regs .esp - 4), Function.update s.mem (s.regs .esp - 4) next⟩⟩ := by
  obtain ⟨next, hat, hrest⟩ := hcode
  refine ⟨next, hrest, ?_⟩
  rw [step, hat]
  simp only [State.push, store_eq (hsp.sub (show Aligned 4 by decide)), State.setReg, Option.map_some]

end I386
