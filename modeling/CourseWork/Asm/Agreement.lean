import CourseWork.Asm.Plain
import CourseWork.Asm.Optimised

/-!
# Agreement of the three programs

Both assembly programs do what the C program does, from every state in which a function of
theirs can be entered.
-/

namespace CourseWork.Asm

open X86

inductive Version
  | plain | optimised
  deriving DecidableEq

def Version.code : Version → List (Instr Label Symbol)
  | .plain => Plain.code
  | .optimised => Optimised.code

section Versions

variable {σ τ α : Type} (S : Stack) (host : Host Symbol σ) (env : Env σ)

/-- A function is entered in this state: the stack has room for `n` nested calls, and the
return address is on it. -/
structure Entered (n : Nat) (s : State σ) : Prop where
  room : S.floor + 48 * n + 80 ≤ (s.regs .rsp).toNat
  top : (s.regs .rsp).toNat + 8 ≤ S.top

/-- The function at a label is entered in this state. -/
def start (v : Version) (l : Label) (s : State σ) (calls : List Word) : Config Symbol σ :=
  .running (target v.code l) s calls

/-- Both versions of a function do what the function of the C program has come to. -/
def BothFollow (l : Label) (s : State σ) (calls : List Word) (Q : α → Config Symbol σ → Prop)
    (r : Except Stop α) : Prop :=
  ∀ v : Version, Follows v.code host ends Q r (start v l s calls)

variable {S host env} {s : State σ} {n : Nat}

theorem f_follows (hmalloc : IsMalloc S host env) (hfunc : IsPredicate S host env (s.regs .rdx))
    (hs : Entered S n s) (calls : List Word) :
    BothFollow host .f s calls (fun r => Returns S s r.2 (· = r.1))
      (f S env (s.regs .rdx) n (s.regs .rdi) (s.regs .rsi) ⟨S.view s, calls⟩) := by
  have hroom := hs.room
  intro v
  cases v with
  | plain => exact Plain.f_follows hmalloc hfunc n rfl (by omega) hs.top rfl
  | optimised => exact Optimised.f_follows hmalloc hfunc n rfl (by omega) hs.top rfl

theorem m_follows (hfunc : IsCallback S host env (s.regs .rsi)) (hs : Entered S n s)
    (calls : List Word) :
    BothFollow host .m s calls (fun w => Returns S s w fun _ => True)
      (m S env (s.regs .rsi) n (s.regs .rdi) ⟨S.view s, calls⟩) := by
  have hroom := hs.room
  intro v
  cases v with
  | plain => exact Plain.m_follows hfunc n rfl (by omega) hs.top rfl
  | optimised => exact Optimised.m_follows hfunc n rfl (by omega) hs.top rfl

end Versions

/-- Both versions of `f` and of `m` do what the C program does, whatever the functions they
are given do to the heap. On lists that these functions keep, all three programs return the
accepted values in reverse in front of the accumulator, or all three abort, and call the
functions on the values of the list in order; and the assembly programs return to their
callers with the stack and the saved registers as they were. -/
theorem versions_agree {σ τ : Type} {S : Stack} {host : Host Symbol σ} {env : Env σ}
    (hmalloc : IsMalloc S host env) (s : State σ) (calls : List Word) :
    (∀ n, Entered S n s →
      (IsPredicate S host env (s.regs .rdx) →
        BothFollow host .f s calls (fun r => Returns S s r.2 (· = r.1))
          (f S env (s.regs .rdx) n (s.regs .rdi) (s.regs .rsi) ⟨S.view s, calls⟩)) ∧
      (IsCallback S host env (s.regs .rsi) →
        BothFollow host .m s calls (fun w => Returns S s w fun _ => True)
          (m S env (s.regs .rsi) n (s.regs .rdi) ⟨S.view s, calls⟩))) ∧
    ∀ (kept : σ → Word → Prop) (xs : List Word), Entered S (xs.length + 1) s →
      ListAt S kept (S.view s) (s.regs .rdi) xs →
      (∀ (ys : List Word) (view : Heap σ → τ) (verdict : τ → Word → Bool × τ),
        IsPredicate S host env (s.regs .rdx) → Allocates S env kept →
        Preserves env kept (s.regs .rdx) → Decides env (s.regs .rdx) view verdict →
        ListAt S kept (S.view s) (s.regs .rsi) ys →
          (f S env (s.regs .rdx) (xs.length + 1) (s.regs .rdi) (s.regs .rsi) ⟨S.view s, calls⟩
              = .error .abort ∧
            ∀ v : Version, Leads v.code host (· = .exited .abort) (start v .f s calls)) ∨
          ∃ p w, f S env (s.regs .rdx) (xs.length + 1) (s.regs .rdi) (s.regs .rsi)
              ⟨S.view s, calls⟩ = .ok (p, w) ∧
            w.calls = calls ++ xs ∧
            ListAt S kept w.heap p ((accepted verdict (view (S.view s)) xs).reverse ++ ys) ∧
            ∀ v : Version, Leads v.code host (Returns S s w (· = p)) (start v .f s calls)) ∧
      (IsCallback S host env (s.regs .rsi) → Preserves env kept (s.regs .rsi) →
        ∃ w, m S env (s.regs .rsi) (xs.length + 1) (s.regs .rdi) ⟨S.view s, calls⟩ = .ok w ∧
          w.calls = calls ++ xs ∧
          ∀ v : Version, Leads v.code host (Returns S s w fun _ => True) (start v .m s calls)) := by
  refine ⟨fun n hs => ⟨fun hfunc => f_follows hmalloc hfunc hs calls, fun hfunc =>
    m_follows hfunc hs calls⟩,
    fun kept xs hs hlist => ⟨?_, ?_⟩⟩
  · intro ys view verdict hfunc halloc hkeeps hdecides hstore
    have hboth := f_follows hmalloc hfunc hs calls
    obtain habort | ⟨p, w, hrun, hcalls, hresult⟩ :=
      f_accepted (w := ⟨S.view s, calls⟩) halloc hkeeps hdecides hlist hstore
    · rw [habort] at hboth
      exact .inl ⟨habort, fun v => hboth v .abort rfl⟩
    · rw [hrun] at hboth
      exact .inr ⟨p, w, hrun, hcalls, hresult, hboth⟩
  · intro hfunc hkeeps
    have hboth := m_follows hfunc hs calls
    obtain ⟨w, hrun, hcalls⟩ := m_calls (w := ⟨S.view s, calls⟩) hkeeps hlist
    rw [hrun] at hboth
    exact ⟨w, hrun, hcalls, hboth⟩

/-! ## A run on a list of three values -/

/-- The heap is below the stack, which is from 8192 to 16384. -/
def lowStack : Stack := ⟨8192, 8192, 16384, by decide, by decide⟩

/-- A `malloc` that hands out 256 blocks from 4096 on, and a predicate for odd values. -/
def lowEnv : Env Nat where
  malloc h _ := if h.env < 256 then (BitVec.ofNat 64 (4096 + 16 * h.env), { h with env := h.env + 1 })
    else (0, h)
  func _ h _ := h
  accepts _ _ value := value &&& 1 != 0

def lowHost : Host Symbol Nat where
  symbol _ s := if s.env < 256 then
      { (s.set .rax (BitVec.ofNat 64 (4096 + 16 * s.env))).drop with env := s.env + 1 }
    else (s.set .rax 0).drop
  func _ s := (s.set .rax (s.regs .rdi &&& 1)).drop

/-- The blocks that have been handed out. -/
def lowKept (n : Nat) (a : Word) : Prop := 4096 ≤ a.toNat ∧ a.toNat < 4096 + 16 * n

instance (n : Nat) (a : Word) : Decidable (lowKept n a) := inferInstanceAs (Decidable (_ ∧ _))

/-- The list of 1, 2 and 3 at 4096, the accumulator of 9 at 4144, and the arguments of `f`. -/
def lowState : State Nat where
  regs r := match r with
    | .rsp => 12288
    | .rdi => 4096
    | .rsi => 4144
    | _ => 0
  zf := false
  mem := [((4096 : Word), (1 : Word)), (4104, 4112), (4112, 2), (4120, 4128), (4128, 3),
    (4144, 9)].foldl (fun m cell => Mem.write m cell.1 cell.2) fun _ => 0
  env := 4

theorem lowMalloc : IsMalloc lowStack lowHost lowEnv := by
  intro s _ _
  by_cases hfull : s.env < 256
  · refine ⟨⟨?_, ?_, ?_⟩, ?_, ?_⟩ <;> simp [lowHost, lowEnv, Stack.view, hfull, calleeSaved]
  · refine ⟨⟨?_, ?_, ?_⟩, ?_, ?_⟩ <;> simp [lowHost, lowEnv, Stack.view, hfull, calleeSaved]

theorem lowPredicate (func : Word) : IsPredicate lowStack lowHost lowEnv func := by
  refine ⟨fun s _ => ⟨⟨?_, ?_, ?_⟩, ?_⟩, fun s _ => ?_⟩ <;>
    simp [lowHost, lowEnv, Stack.view, calleeSaved]

theorem lowAllocates : Allocates lowStack lowEnv lowKept := by
  intro h hp
  by_cases hfull : h.env < 256
  · have hblock : lowEnv.malloc h 16
        = (BitVec.ofNat 64 (4096 + 16 * h.env), { h with env := h.env + 1 }) := if_pos hfull
    have hbyte : ∀ i < 16, (BitVec.ofNat 64 (4096 + 16 * h.env) + BitVec.ofNat 64 i).toNat
        = 4096 + 16 * h.env + i := by
      intro i hi
      bv_omega
    rw [hblock] at hp ⊢
    refine ⟨⟨hp, ⟨?_, ?_⟩, fun i hi => ?_⟩, fun i hi hkept => ?_, fun a ha => ⟨?_, rfl⟩⟩
    · bv_omega
    · exact .inl (by simp only [lowStack]; bv_omega)
    · show lowKept (h.env + 1) _
      rw [lowKept, hbyte i hi]
      omega
    · rw [lowKept, hbyte i hi] at hkept
      omega
    · simp only [lowKept] at ha ⊢
      omega
  · simp [lowEnv, hfull] at hp

theorem lowList : ListAt lowStack lowKept (lowStack.view lowState) 4096 [1, 2, 3] := by
  refine ⟨⟨?_, ?_, ?_⟩, ?_, ⟨?_, ?_, ?_⟩, ?_, ⟨?_, ?_, ?_⟩, ?_, ?last⟩
  case last =>
    rw [ListAt]
    decide +kernel
  all_goals decide +kernel

theorem lowStore : ListAt lowStack lowKept (lowStack.view lowState) 4144 [9] := by
  refine ⟨⟨?_, ?_, ?_⟩, ?_, ?last⟩
  case last =>
    rw [ListAt]
    decide +kernel
  all_goals decide +kernel

theorem versions_agree_odd :
    (∃ p w, f lowStack lowEnv 0 4 4096 4144 ⟨lowStack.view lowState, []⟩ = .ok (p, w) ∧
      w.calls = [1, 2, 3] ∧ ListAt lowStack lowKept w.heap p [3, 1, 9] ∧
      ∀ v : Version, Leads v.code lowHost (Returns lowStack lowState w (· = p))
        (start v .f lowState [])) ∧
    ∃ w, m lowStack lowEnv 4144 4 4096 ⟨lowStack.view lowState, []⟩ = .ok w ∧
      w.calls = [1, 2, 3] ∧
      ∀ v : Version, Leads v.code lowHost (Returns lowStack lowState w fun _ => True)
        (start v .m lowState []) := by
  obtain ⟨-, hlists⟩ := versions_agree (τ := Unit) lowMalloc lowState []
  obtain ⟨hf, hm⟩ := hlists lowKept [1, 2, 3] ⟨by decide, by decide⟩ lowList
  have hkeeps : ∀ func, Preserves lowEnv lowKept func := fun _ _ _ _ ha => ⟨ha, rfl⟩
  constructor
  · obtain ⟨habort, -⟩ | hreturns := hf [9] (fun _ => ()) (fun _ value => (value &&& 1 != 0, ()))
      (lowPredicate _) lowAllocates (hkeeps _)
      ⟨fun _ _ => rfl, fun _ _ => rfl, fun _ _ _ _ => rfl⟩ lowStore
    · have hruns : (f lowStack lowEnv 0 4 4096 4144 ⟨lowStack.view lowState, []⟩).toBool = true := by
        decide +kernel
      change f lowStack lowEnv 0 4 4096 4144 ⟨lowStack.view lowState, []⟩ = _ at habort
      rw [habort] at hruns
      cases hruns
    · exact hreturns
  · exact hm (lowPredicate _).1 (hkeeps _)

end CourseWork.Asm
