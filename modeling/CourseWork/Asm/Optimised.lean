import CourseWork.Asm.AddElement

/-!
# main-optimised.asm against main.c

The loops of main-optimised.asm do what the recursions of the C program do. A loop keeps its
state in the registers its function has saved, so all rounds share one frame.
-/

namespace CourseWork.Asm.Optimised

open X86

variable {σ : Type} {S : Stack} {host : Host Symbol σ} {env : Env σ}

/-! ## m -/

/-- A state at the head of the loop of `m`: the node in `rbx` and the function in `rbp`. -/
structure Mapping (S : Stack) (entry : State σ) (func list : Word) (w : World σ)
    (s : State σ) : Prop where
  frame : Frame S entry w.heap [entry.regs .rbx, entry.regs .rbp] s
  rbx : s.regs .rbx = list
  rbp : s.regs .rbp = func
  kept : ∀ r ∈ [Reg.r12, .r13, .r14, .r15], s.regs r = entry.regs r

/-- The loop of `m` from any node does what `m` of the C program does from there. -/
theorem loopmf_follows {func : Word} (hfunc : IsCallback S host env func) (n : Nat)
    {entry s : State σ} {w : World σ} {list : Word}
    (hroom : S.floor + 24 ≤ (entry.regs .rsp).toNat) (M : Mapping S entry func list w s) :
    Follows code host ends (fun w => Returns S entry w fun _ => True) (m S env func n list w)
      (.running 24 s w.calls) := by
  induction n generalizing s w list with
  | zero => exact follows_outOfFuel
  | succ n ih =>
  refine .next rfl (.next rfl ?_)
  by_cases hlist : list = 0
  · have hnull : m S env func (n + 1) list w = .ok w := if_neg (not_not.mpr hlist)
    rw [hnull]
    refine .jump_zero 31 rfl rfl (by simp [M.rbx, hlist]) (.next rfl ?_)
    refine .restore entry.regs [.rbx, .rbp] ⟨rfl, rfl, trivial⟩ (by decide) (by decide)
      (M.frame.setZf _) fun s1 f1 hrestored hregs1 => ?_
    refine .next rfl (.ok (f1.ret (forall_calleeSaved.mpr ?_) trivial))
    simp [hrestored, hregs1, M.kept]
  · rw [m, if_pos hlist]
    refine .no_jump rfl (by simpa [M.rbx] using hlist) ?_
    refine follows_load fun hvalue => .next rfl ?_
    have f1 := (M.frame.setZf (s.regs .rbx &&& s.regs .rbx)).set (r := .rdi) (by decide)
      (s.mem.read (s.regs .rbx + 0))
    have hrdi : s.mem.read (s.regs .rbx + 0) = w.heap.bytes.read list := by
      rw [← M.frame.read hvalue, M.rbx]
      simp
    refine follows_call hfunc rfl M.rbp hrdi f1 (by simp; omega) fun s2 _ f2 hsaved2 => ?_
    obtain ⟨hrbx2, hrbp2, hr12, hr13, hr14, hr15⟩ := forall_calleeSaved.mp hsaved2
    refine follows_load fun hnext => .next rfl (.jump 24 rfl rfl ?_)
    have hread : s2.mem.read (s2.regs .rbx + 8)
        = (call env func (w.heap.bytes.read list) w).heap.bytes.read (list + 8) := by
      rw [← f2.read hnext]
      simp [hrbx2, M.rbx]
    refine ih ⟨f2.set (by decide) _, ?_, ?_, ?_⟩
    · exact (State.set_regs_self ..).trans hread
    · simp [hrbp2, M.rbp]
    · simp [hr12, hr13, hr14, hr15, M.kept]

/-- `m` with its loop does what `m` of the C program does. -/
theorem m_follows {func : Word} (hfunc : IsCallback S host env func) (n : Nat) {s : State σ}
    {w : World σ} (hrsi : s.regs .rsi = func) (hroom : S.floor + 24 ≤ (s.regs .rsp).toNat)
    (htop : (s.regs .rsp).toNat + 8 ≤ S.top) (hview : S.view s = w.heap) :
    Follows code host ends (fun w => Returns S s w fun _ => True)
      (m S env func n (s.regs .rdi) w) (.running 19 s w.calls) := by
  have f0 : Frame S s w.heap [] s := hview ▸ Frame.enter (by omega) htop
  refine .next rfl ?_
  refine .save [.rbp, .rbx] ⟨rfl, rfl, trivial⟩ (by decide) f0 (by simp; omega)
    fun s1 f1 hregs1 => .next rfl (.next rfl ?_)
  refine loopmf_follows hfunc n hroom ⟨(f1.set (by decide) _).set (by decide) _, ?_, ?_, ?_⟩
  all_goals simp [hregs1, hrsi]

/-! ## f -/

/-- The loop of `f` from any node, with the accumulator in `r12`, does what `f` of the C
program does from there. -/
theorem filterLoop_follows (hmalloc : IsMalloc S host env) {func : Word}
    (hfunc : IsPredicate S host env func) (n : Nat) {entry s : State σ} {w : World σ}
    {list store : Word} (hroom : S.floor + 80 ≤ (entry.regs .rsp).toNat)
    (F : Filtering S entry func list w s) (hr12 : s.regs .r12 = store) :
    Follows code host ends (fun r => Returns S entry r.2 (· = r.1))
      (f S env func n list store w) (.running 43 s w.calls) := by
  induction n generalizing s w list store with
  | zero => exact follows_outOfFuel
  | succ n ih =>
  refine .next rfl (.next rfl ?_)
  by_cases hlist : list = 0
  · have hnull : f S env func (n + 1) list store w = .ok (store, w) := if_neg (not_not.mpr hlist)
    rw [hnull]
    refine .jump_zero 57 rfl rfl (by simp [F.rbx, hlist]) (.next rfl (.next rfl ?_))
    refine .restore entry.regs [.r13, .r12, .rbx] ⟨rfl, rfl, rfl, trivial⟩ (by decide) (by decide)
      (F.setZf.set (r := .rax) (by decide) (by decide)).frame fun s1 f1 hrestored hregs1 => ?_
    refine .next rfl (.ok (f1.ret (forall_calleeSaved.mpr ?_) ?_))
    · simp [hrestored, hregs1, F.rbp, F.r14, F.r15]
    · simp [hregs1, hr12]
  · rw [f_succ S env n w hlist]
    refine .no_jump rfl (by simpa [F.rbx] using hlist) (.next rfl ?_)
    -- The next node, with the accumulator in `r12` again.
    have hloop : ∀ s' w' store', Filtering S entry func list w' s' → s'.regs .r12 = store' →
        Follows code host ends (fun r => Returns S entry r.2 (· = r.1))
          (load S w' (list + 8) >>= fun next => f S env func n next store' w')
          (.running 54 s' w'.calls) := by
      intro s' w' store' F' hr12'
      refine .next rfl (follows_load fun hnext => .next rfl (.jump 43 rfl rfl ?_))
      have hread : s'.mem.read (s'.regs .rbx + 8) = w'.heap.bytes.read (list + 8) := by
        rw [← F'.frame.read hnext, F'.rbx]
      rw [← hread]
      exact ih F'.setNode hr12'
    refine filterNode_follows (r := .r13) hmalloc hfunc 54 ⟨rfl, rfl, rfl, rfl, rfl, rfl, trivial⟩ rfl
      (by decide) hroom (F.setZf.set (r := .rdi) (by decide) (by decide)) F.r13 ?_ hr12 ?_ ?_
    · simp [F.rbx]
    · intro s' w' F' hr12'
      exact hloop s' w' store F' hr12'
    · intro s' w' store' F' hrax
      exact .next rfl (hloop _ w' store' (F'.set (r := .r12) (by decide) (by decide)) (by simp [hrax]))

/-- `f` with its loop does what `f` of the C program does. -/
theorem f_follows (hmalloc : IsMalloc S host env) {func : Word}
    (hfunc : IsPredicate S host env func) (n : Nat) {s : State σ} {w : World σ}
    (hrdx : s.regs .rdx = func) (hroom : S.floor + 80 ≤ (s.regs .rsp).toNat)
    (htop : (s.regs .rsp).toNat + 8 ≤ S.top) (hview : S.view s = w.heap) :
    Follows code host ends (fun r => Returns S s r.2 (· = r.1))
      (f S env func n (s.regs .rdi) (s.regs .rsi) w) (.running 35 s w.calls) := by
  have f0 : Frame S s w.heap [] s := hview ▸ Frame.enter (by omega) htop
  refine .next rfl ?_
  refine .save [.rbx, .r12, .r13] ⟨rfl, rfl, rfl, trivial⟩ (by decide) f0 (by simp; omega)
    fun s1 f1 hregs1 => .next rfl (.next rfl (.next rfl (.next rfl ?_)))
  -- The state at the head of the loop.
  refine .named 43 (((((s1.set .rbx (s1.regs .rdi)).set .r12 (s1.regs .rsi)).set .r13
    (s1.regs .rdx)).set .rcx (s1.regs .rcx ^^^ s1.regs .rcx)).setZf
      (s1.regs .rcx ^^^ s1.regs .rcx)) rfl fun s2 hs2 => ?_
  refine filterLoop_follows hmalloc hfunc n hroom ⟨?_, ?_, ?_, ?_, ?_, ?_⟩ ?_
  · exact hs2 ▸ ((((f1.set (by decide) _).set (by decide) _).set (by decide) _).set
      (by decide) _).setZf _
  all_goals simp [hs2, hregs1, hrdx]

end CourseWork.Asm.Optimised
