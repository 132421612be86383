import CourseWork.Asm.MainC

/-!
# main.asm and main-optimised.asm

The instructions of `add_element`, `m` and `f` in the two programs, and what the functions
outside them owe.
-/

namespace CourseWork.Asm

open X86

inductive Label
  | addElement | m | outm | f | z | ff | outf
  | loopmf | endmf | filterLoop | nextNode | filterDone
  deriving DecidableEq, Repr

/-- The functions of the C library that the programs name. -/
inductive Symbol
  | malloc | abort
  deriving DecidableEq, Repr

/-! ## The instructions -/

/-- `add_element`, which is the same in both programs. -/
def addElementCode : List (Instr Label Symbol) := [
  .label .addElement,
  .push .rbp,
  .push .rbx,
  .push .r14,
  .mov .rbp .rsp,
  .subImm .rsp 16,
  .mov .r14 .rdi,
  .mov .rbx .rsi,
  .movImm .rdi 16,
  .callSymbol .malloc,
  .test .rax .rax,
  .jzSymbol .abort,
  .store .rax 0 .r14,
  .store .rax 8 .rbx,
  .mov .rsp .rbp,
  .pop .r14,
  .pop .rbx,
  .pop .rbp,
  .ret]

namespace Plain

def mCode : List (Instr Label Symbol) := [
  .label .m,
  .push .rbp,
  .mov .rbp .rsp,
  .subImm .rsp 16,
  .test .rdi .rdi,
  .jz .outm,
  .push .rbp,
  .push .rbx,
  .mov .rbx .rdi,
  .mov .rbp .rsi,
  .load .rdi .rdi 0,
  .callReg .rsi,
  .load .rdi .rbx 8,
  .mov .rsi .rbp,
  .call .m,
  .pop .rbx,
  .pop .rbp,
  .label .outm,
  .mov .rsp .rbp,
  .pop .rbp,
  .ret]

def fCode : List (Instr Label Symbol) := [
  .label .f,
  .mov .rax .rsi,
  .test .rdi .rdi,
  .jz .outf,
  .push .rbx,
  .push .r12,
  .push .r13,
  .mov .rbx .rdi,
  .mov .r12 .rsi,
  .mov .r13 .rdx,
  .load .rdi .rdi 0,
  .callReg .rdx,
  .test .rax .rax,
  .jz .z,
  .load .rdi .rbx 0,
  .mov .rsi .r12,
  .call .addElement,
  .mov .rsi .rax,
  .jmp .ff,
  .label .z,
  .mov .rsi .r12,
  .label .ff,
  .load .rdi .rbx 8,
  .mov .rdx .r13,
  .call .f,
  .pop .r13,
  .pop .r12,
  .pop .rbx,
  .label .outf,
  .ret]

/-- The functions of main.asm. -/
def code : List (Instr Label Symbol) := addElementCode ++ (mCode ++ fCode)

end Plain

namespace Optimised

def mCode : List (Instr Label Symbol) := [
  .label .m,
  .push .rbp,
  .push .rbx,
  .mov .rbp .rsi,
  .mov .rbx .rdi,
  .label .loopmf,
  .test .rbx .rbx,
  .jz .endmf,
  .load .rdi .rbx 0,
  .callReg .rbp,
  .load .rbx .rbx 8,
  .jmp .loopmf,
  .label .endmf,
  .pop .rbx,
  .pop .rbp,
  .ret]

def fCode : List (Instr Label Symbol) := [
  .label .f,
  .push .rbx,
  .push .r12,
  .push .r13,
  .mov .rbx .rdi,
  .mov .r12 .rsi,
  .mov .r13 .rdx,
  .xor .rcx .rcx,
  .label .filterLoop,
  .test .rbx .rbx,
  .jz .filterDone,
  .load .rdi .rbx 0,
  .callReg .r13,
  .test .rax .rax,
  .jz .nextNode,
  .load .rdi .rbx 0,
  .mov .rsi .r12,
  .call .addElement,
  .mov .r12 .rax,
  .label .nextNode,
  .load .rbx .rbx 8,
  .jmp .filterLoop,
  .label .filterDone,
  .mov .rax .r12,
  .pop .r13,
  .pop .r12,
  .pop .rbx,
  .ret]

/-- The functions of main-optimised.asm. -/
def code : List (Instr Label Symbol) := addElementCode ++ (mCode ++ fCode)

end Optimised

/-! ## The functions outside -/

section Contracts

variable {σ : Type} (S : Stack) (host : Host Symbol σ) (env : Env σ)

/-- A function outside may be called in `s`: the reserve is left to it, and the return
address is on the stack. -/
structure Callable (s : State σ) : Prop where
  floor : S.floor ≤ (s.regs .rsp).toNat
  top : (s.regs .rsp).toNat + 8 ≤ S.top

/-- `malloc` of a node keeps the calling convention and does to the heap what the C
program's does. -/
def IsMalloc : Prop :=
  ∀ s, Callable S s → s.regs .rdi = 16 →
    Returned S s (host.symbol .malloc s) ∧
      (host.symbol .malloc s).regs .rax = (env.malloc (S.view s) 16).1 ∧
        S.view (host.symbol .malloc s) = (env.malloc (S.view s) 16).2

/-- The function at an address keeps the calling convention and does to the heap what the C
program's does with the value in `rdi`. -/
def IsCallback (func : Word) : Prop :=
  ∀ s, Callable S s →
    Returned S s (host.func func s) ∧
      S.view (host.func func s) = env.func func (S.view s) (s.regs .rdi)

/-- The function at an address is a callback whose `rax` is not zero exactly when it accepts
the value. -/
def IsPredicate (func : Word) : Prop :=
  IsCallback S host env func ∧ ∀ s, Callable S s →
    ((host.func func s).regs .rax ≠ 0 ↔ env.accepts func (S.view s) (s.regs .rdi) = true)

/-- Where a stop of the C program ends: nothing is said of one that does not end in
`abort`. -/
def ends : Stop → Option Symbol
  | .abort => some .abort
  | .undefined => none
  | .outOfFuel => none

end Contracts

end CourseWork.Asm
