import Mathlib.Algebra.GroupWithZero.Nat
import Mathlib.Tactic.Common

/-!
# x86-64 programs

Programs of the integer instructions with labels, over a machine whose memory is an array
of bytes. Functions outside the program are a parameter: each answers a call with the
state it returns in. What a program leads to is proved one instruction at a time.
-/

namespace X86

abbrev Word := BitVec 64

/-- The bytes of the address space. -/
abbrev Mem := Word → BitVec 8

/-! ## Memory -/

/-- The value of `n` bytes, the lowest first. -/
def readBytes (m : Mem) : Nat → Word → Nat
  | 0, _ => 0
  | n + 1, a => (m a).toNat + 256 * readBytes m n (a + 1)

namespace Mem

/-- The quadword at an address. -/
def read (m : Mem) (a : Word) : Word := BitVec.ofNat 64 (readBytes m 8 a)

/-- Stores a quadword, the lowest byte first. -/
def write (m : Mem) (a v : Word) : Mem := fun x =>
  if (x - a).toNat < 8 then BitVec.ofNat 8 (v.toNat / 256 ^ (x - a).toNat) else m x

end Mem

theorem add_one_ofNat (a : Word) (i : Nat) :
    a + 1 + BitVec.ofNat 64 i = a + BitVec.ofNat 64 (i + 1) := by
  rw [BitVec.ofNat_add, BitVec.add_comm (BitVec.ofNat 64 i), ← BitVec.add_assoc]
  rfl

theorem readBytes_congr {m m' : Mem} : ∀ (n : Nat) (a : Word),
    (∀ i < n, m (a + BitVec.ofNat 64 i) = m' (a + BitVec.ofNat 64 i)) →
      readBytes m n a = readBytes m' n a
  | 0, _, _ => rfl
  | n + 1, a, h => by
    have hfirst : m a = m' a := by simpa using h 0 (by omega)
    have hrest : readBytes m n (a + 1) = readBytes m' n (a + 1) := by
      refine readBytes_congr n (a + 1) fun i hi => ?_
      rw [add_one_ofNat]
      exact h (i + 1) (by omega)
    rw [readBytes, readBytes, hfirst, hrest]

/-- Bytes that are the digits of a number have its value. -/
theorem readBytes_digits {m : Mem} : ∀ (n : Nat) (a : Word) (v : Nat),
    (∀ i < n, (m (a + BitVec.ofNat 64 i)).toNat = v / 256 ^ i % 256) →
      readBytes m n a = v % 256 ^ n
  | 0, _, v, _ => by simp [readBytes, Nat.mod_one]
  | n + 1, a, v, h => by
    have hfirst : (m a).toNat = v % 256 := by simpa using h 0 (by omega)
    have hrest : readBytes m n (a + 1) = v / 256 % 256 ^ n := by
      refine readBytes_digits n (a + 1) (v / 256) fun i hi => ?_
      rw [add_one_ofNat, h (i + 1) (by omega), Nat.div_div_eq_div_mul, Nat.pow_succ']
    rw [readBytes, hfirst, hrest, Nat.pow_succ', Nat.mod_mul]

namespace Mem

theorem read_congr {m m' : Mem} {a : Word}
    (h : ∀ i < 8, m (a + BitVec.ofNat 64 i) = m' (a + BitVec.ofNat 64 i)) :
    m.read a = m'.read a := by
  rw [read, read, readBytes_congr 8 a h]

/-- A stored quadword is read back. -/
theorem read_write (m : Mem) (a v : Word) : (m.write a v).read a = v := by
  have hdigits : readBytes (m.write a v) 8 a = v.toNat % 256 ^ 8 := by
    refine readBytes_digits 8 a v.toNat fun i hi => ?_
    have hoffset : (a + BitVec.ofNat 64 i - a).toNat = i := by
      have : i < 8 := hi
      bv_omega
    simp only [write, hoffset, hi, if_true, BitVec.toNat_ofNat]
  rw [read, hdigits, Nat.mod_eq_of_lt (by have := v.isLt; omega), BitVec.ofNat_toNat,
    BitVec.setWidth_eq]

/-- A store changes no byte away from the quadword. -/
theorem write_of_away {m : Mem} {a v x : Word} (h : 8 ≤ (x - a).toNat) :
    m.write a v x = m x := by
  rw [write, if_neg (by omega)]

end Mem

/-! ## The machine -/

inductive Reg
  | rax | rbx | rcx | rdx | rsi | rdi | rbp | rsp
  | r8 | r9 | r10 | r11 | r12 | r13 | r14 | r15
  deriving DecidableEq, Repr

/-- The registers a function gives back as it found them. -/
def calleeSaved : List Reg := [.rbx, .rbp, .r12, .r13, .r14, .r15]

theorem forall_calleeSaved {p : Reg → Prop} :
    (∀ r ∈ calleeSaved, p r) ↔ p .rbx ∧ p .rbp ∧ p .r12 ∧ p .r13 ∧ p .r14 ∧ p .r15 := by
  simp [calleeSaved]

/-- An instruction, with labels from `L` and the names of outside functions from `X`. -/
inductive Instr (L X : Type)
  | label (l : L)
  | push (r : Reg)
  | pop (r : Reg)
  | mov (dst src : Reg)
  | movImm (dst : Reg) (v : Word)
  /-- `mov dst, [base + disp]` -/
  | load (dst base : Reg) (disp : Word)
  /-- `mov [base + disp], src` -/
  | store (base : Reg) (disp : Word) (src : Reg)
  | subImm (dst : Reg) (v : Word)
  | xor (dst src : Reg)
  | test (a b : Reg)
  | jmp (l : L)
  | jz (l : L)
  /-- `jz` to an outside function that does not return. -/
  | jzSymbol (x : X)
  | call (l : L)
  | callReg (r : Reg)
  | callSymbol (x : X)
  | ret
  deriving DecidableEq, Repr

/-- The registers, the zero flag (no program reads another flag), the memory, and the
state `env` of everything outside the machine. -/
structure State (σ : Type) where
  regs : Reg → Word
  zf : Bool
  mem : Mem
  env : σ

namespace State

variable {σ : Type}

def set (s : State σ) (r : Reg) (v : Word) : State σ :=
  { s with regs := fun r' => if r' = r then v else s.regs r' }

def setZf (s : State σ) (v : Word) : State σ := { s with zf := v == 0 }

/-- The word the stack pointer points at. -/
def top (s : State σ) : Word := s.mem.read (s.regs .rsp)

def push (s : State σ) (v : Word) : State σ :=
  let rsp := s.regs .rsp - 8
  { s.set .rsp rsp with mem := s.mem.write rsp v }

/-- Drops the word the stack pointer points at. -/
def drop (s : State σ) : State σ := s.set .rsp (s.regs .rsp + 8)

def pop (s : State σ) (r : Reg) : State σ := s.drop.set r s.top

def store (s : State σ) (a v : Word) : State σ := { s with mem := s.mem.write a v }

section Lemmas

variable (s : State σ) (r : Reg) (a v : Word)

theorem set_regs (r' : Reg) : (s.set r v).regs r' = if r' = r then v else s.regs r' := rfl
@[simp] theorem set_regs_self : (s.set r v).regs r = v := if_pos rfl
@[simp] theorem set_regs_of_ne {r' : Reg} (h : r' ≠ r) : (s.set r v).regs r' = s.regs r' :=
  if_neg h
@[simp] theorem set_zf : (s.set r v).zf = s.zf := rfl
@[simp] theorem set_mem : (s.set r v).mem = s.mem := rfl
@[simp] theorem set_env : (s.set r v).env = s.env := rfl
@[simp] theorem setZf_regs : (s.setZf v).regs = s.regs := rfl
@[simp] theorem setZf_mem : (s.setZf v).mem = s.mem := rfl
@[simp] theorem setZf_env : (s.setZf v).env = s.env := rfl
@[simp] theorem setZf_zf : (s.setZf v).zf = (v == 0) := rfl
@[simp] theorem push_rsp : (s.push v).regs .rsp = s.regs .rsp - 8 := rfl
@[simp] theorem push_regs {r : Reg} (h : r ≠ .rsp) : (s.push v).regs r = s.regs r := if_neg h
@[simp] theorem push_env : (s.push v).env = s.env := rfl
@[simp] theorem push_mem : (s.push v).mem = s.mem.write (s.regs .rsp - 8) v := rfl
@[simp] theorem drop_rsp : s.drop.regs .rsp = s.regs .rsp + 8 := rfl
@[simp] theorem drop_regs {r : Reg} (h : r ≠ .rsp) : s.drop.regs r = s.regs r := if_neg h
@[simp] theorem drop_mem : s.drop.mem = s.mem := rfl
@[simp] theorem drop_env : s.drop.env = s.env := rfl
@[simp] theorem pop_regs_self : (s.pop r).regs r = s.top := if_pos rfl
@[simp] theorem pop_regs {r' : Reg} (h : r' ≠ r) : (s.pop r).regs r' = s.drop.regs r' :=
  if_neg h
@[simp] theorem pop_mem : (s.pop r).mem = s.mem := rfl
@[simp] theorem pop_env : (s.pop r).env = s.env := rfl
@[simp] theorem store_regs : (s.store a v).regs = s.regs := rfl
@[simp] theorem store_mem : (s.store a v).mem = s.mem.write a v := rfl
@[simp] theorem store_env : (s.store a v).env = s.env := rfl

end Lemmas

end State

/-- What is outside the program. A function of it is entered with the return address on
the stack and answers the state in which it has returned. -/
structure Host (X σ : Type) where
  /-- The functions the program names. -/
  symbol : X → State σ → State σ
  /-- The functions at the addresses the program is given. -/
  func : Word → State σ → State σ

/-- A configuration of a run: the index of the next instruction, which is its address,
with the state and the first arguments of the calls through a register so far; or the end
in an outside function that does not return. -/
inductive Config (X σ : Type)
  | running (pc : Nat) (s : State σ) (calls : List Word)
  | exited (x : X)

section Step

variable {L X σ : Type} [DecidableEq L] [DecidableEq X]

/-- The address of a label. -/
def target (P : List (Instr L X)) (l : L) : Nat := P.idxOf (.label l)

/-- The state in which a called function starts. -/
def enter (pc : Nat) (s : State σ) : State σ := s.push (BitVec.ofNat 64 (pc + 1))

/-- What an instruction does. -/
def execute (P : List (Instr L X)) (host : Host X σ) (pc : Nat) (s : State σ)
    (calls : List Word) : Instr L X → Config X σ
  | .label _ => .running (pc + 1) s calls
  | .push r => .running (pc + 1) (s.push (s.regs r)) calls
  | .pop r => .running (pc + 1) (s.pop r) calls
  | .mov dst src => .running (pc + 1) (s.set dst (s.regs src)) calls
  | .movImm dst v => .running (pc + 1) (s.set dst v) calls
  | .load dst base disp =>
    .running (pc + 1) (s.set dst (s.mem.read (s.regs base + disp))) calls
  | .store base disp src =>
    .running (pc + 1) (s.store (s.regs base + disp) (s.regs src)) calls
  | .subImm dst v => .running (pc + 1) ((s.set dst (s.regs dst - v)).setZf (s.regs dst - v)) calls
  | .xor dst src =>
    let v := s.regs dst ^^^ s.regs src
    .running (pc + 1) ((s.set dst v).setZf v) calls
  | .test a b => .running (pc + 1) (s.setZf (s.regs a &&& s.regs b)) calls
  | .jmp l => .running (target P l) s calls
  | .jz l => .running (if s.zf then target P l else pc + 1) s calls
  | .jzSymbol x => if s.zf then .exited x else .running (pc + 1) s calls
  | .call l => .running (target P l) (enter pc s) calls
  | .callReg r =>
    .running (pc + 1) (host.func (s.regs r) (enter pc s)) (calls ++ [s.regs .rdi])
  | .callSymbol x => .running (pc + 1) (host.symbol x (enter pc s)) calls
  | .ret => .running s.top.toNat s.drop calls

/-- One step; a run is stuck where there is no instruction. -/
def step (P : List (Instr L X)) (host : Host X σ) : Config X σ → Option (Config X σ)
  | .exited _ => none
  | .running pc s calls => P[pc]?.map (execute P host pc s calls)

/-! ## What a program leads to -/

/-- The run from a configuration reaches one with `Q`. -/
inductive Leads (P : List (Instr L X)) (host : Host X σ) (Q : Config X σ → Prop) :
    Config X σ → Prop
  | here {c : Config X σ} : Q c → Leads P host Q c
  | step {c c' : Config X σ} : step P host c = some c' → Leads P host Q c' → Leads P host Q c

/-- The run from a configuration does what a computation has come to: it reaches one with
`Q a` if the computation has returned `a`, and ends in the outside function `ends e` if it
has stopped with `e`. Nothing is promised of a stop with no such function. -/
def Follows {ε α : Type} (P : List (Instr L X)) (host : Host X σ) (ends : ε → Option X)
    (Q : α → Config X σ → Prop) : Except ε α → Config X σ → Prop
  | .ok a, c => Leads P host (Q a) c
  | .error e, c => ∀ x, ends e = some x → Leads P host (fun c => c = .exited x) c

variable {P : List (Instr L X)} {host : Host X σ} {c c' : Config X σ} {s : State σ}
  {calls : List Word} {pc : Nat}

theorem Leads.trans {Q R : Config X σ → Prop} (h : Leads P host Q c)
    (hQ : ∀ c, Q c → Leads P host R c) : Leads P host R c := by
  induction h with
  | here hc => exact hQ _ hc
  | step hstep _ ih => exact .step hstep ih

namespace Follows

variable {ε α β : Type} {ends : ε → Option X} {Q : α → Config X σ → Prop}
  {R : β → Config X σ → Prop} {x : Except ε α} {k : α → Except ε β}

theorem step (h : step P host c = some c') (hc : Follows P host ends Q x c') :
    Follows P host ends Q x c := by
  cases x with
  | ok a => exact .step h hc
  | error e => exact fun x hx => .step h (hc x hx)

theorem ok {a : α} (h : Q a c) : Follows P host ends Q (.ok a) c := .here h

/-- A computation followed by another. -/
theorem bind (h : Follows P host ends Q x c)
    (hk : ∀ a c, Q a c → Follows P host ends R (k a) c) : Follows P host ends R (x >>= k) c := by
  cases x with
  | ok a =>
    show Follows P host ends R (k a) c
    cases hr : k a with
    | ok b =>
      refine Leads.trans h fun c hc => ?_
      have hgoes := hk a c hc
      rwa [hr] at hgoes
    | error e =>
      refine fun x hx => Leads.trans h fun c hc => ?_
      have hstops := hk a c hc
      rw [hr] at hstops
      exact hstops x hx
  | error e => exact h

/-- Names the state a run is in. -/
theorem named (pc : Nat) (s : State σ) (hc : c = .running pc s calls)
    (h : ∀ s', s' = s → Follows P host ends Q x (.running pc s' calls)) :
    Follows P host ends Q x c :=
  hc ▸ h s rfl

/-- The rule of an instruction. -/
theorem next {i : Instr L X} (h : P[pc]? = some i)
    (hc : Follows P host ends Q x (execute P host pc s calls i)) :
    Follows P host ends Q x (.running pc s calls) :=
  .step (by rw [X86.step, h, Option.map_some]) hc

theorem jump {l : L} (n : Nat) (h : P[pc]? = some (.jmp l)) (ht : target P l = n)
    (hc : Follows P host ends Q x (.running n s calls)) :
    Follows P host ends Q x (.running pc s calls) := by
  refine .next h ?_
  rw [execute, ht]
  exact hc

theorem jump_zero {l : L} (n : Nat) (h : P[pc]? = some (.jz l)) (ht : target P l = n)
    (hz : s.zf = true) (hc : Follows P host ends Q x (.running n s calls)) :
    Follows P host ends Q x (.running pc s calls) := by
  refine .next h ?_
  rw [execute, if_pos hz, ht]
  exact hc

theorem no_jump {l : L} (h : P[pc]? = some (.jz l)) (hz : s.zf = false)
    (hc : Follows P host ends Q x (.running (pc + 1) s calls)) :
    Follows P host ends Q x (.running pc s calls) := by
  refine .next h ?_
  rw [execute, hz]
  exact hc

theorem exit {f : X} {e : ε} (h : P[pc]? = some (.jzSymbol f)) (hz : s.zf = true)
    (he : ends e = some f) : Follows P host ends Q (.error e) (.running pc s calls) := by
  refine .next h ?_
  rw [execute, if_pos hz]
  intro x hx
  exact .here (by rw [he] at hx; cases hx; rfl)

theorem no_exit {f : X} (h : P[pc]? = some (.jzSymbol f)) (hz : s.zf = false)
    (hc : Follows P host ends Q x (.running (pc + 1) s calls)) :
    Follows P host ends Q x (.running pc s calls) := by
  refine .next h ?_
  rw [execute, hz]
  exact hc

theorem call {l : L} (n : Nat) (h : P[pc]? = some (.call l)) (ht : target P l = n)
    (hc : Follows P host ends Q x (.running n (enter pc s) calls)) :
    Follows P host ends Q x (.running pc s calls) := by
  refine .next h ?_
  rw [execute, ht]
  exact hc

end Follows

end Step

end X86
