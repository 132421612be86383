import CourseWork.Asm.AddElement

/-!
# main.asm against main.c

The recursive `m` and `f` of main.asm do what those of the C program do. Each level of a
recursion has its own frame, with the registers it has saved.
-/

namespace CourseWork.Asm.Plain

open X86

variable {σ : Type} {S : Stack} {host : Host Symbol σ} {env : Env σ}

/-! ## m -/

/-- The end of `m`, which drops everything above the saved frame pointer. -/
theorem outm_follows {s s' : State σ} {w : World σ} {us : List Word}
    (f : Frame S s w.heap (us ++ [s.regs .rbp]) s')
    (hrbp : (s'.regs .rbp).toNat + 8 = (s.regs .rsp).toNat)
    (hsaved : ∀ r ∈ [Reg.rbx, .r12, .r13, .r14, .r15], s'.regs r = s.regs r) :
    Follows code host ends (fun w => Returns S s w fun _ => True) (.ok w)
      (.running 36 s' w.calls) := by
  have f1 : Frame S s w.heap [s.regs .rbp] (s'.set .rsp (s'.regs .rbp)) :=
    f.release (by simpa using hrbp)
  refine .next rfl (.next rfl ?_)
  refine .restore s.regs [.rbp] ⟨rfl, trivial⟩ (by decide) (by decide) f1
    fun s1 f2 hrestored hregs => ?_
  refine .next rfl (.ok (f2.ret (forall_calleeSaved.mpr ?_) trivial))
  simp [hrestored, hregs, hsaved]

/-- A state in the body of `m` behind the call of the function: the node in `rbx`, the function
in `rbp`, and on the stack the two registers as they were, over the words `us` and the frame
pointer of the caller. -/
structure Mapping (S : Stack) (entry : State σ) (func list : Word) (w : World σ) (fp : Word)
    (us : List Word) (s : State σ) : Prop where
  frame : Frame S entry w.heap ([entry.regs .rbx, fp] ++ (us ++ [entry.regs .rbp])) s
  length : us.length = 2
  pointer : fp.toNat + 8 = (entry.regs .rsp).toNat
  rbx : s.regs .rbx = list
  rbp : s.regs .rbp = func
  kept : ∀ r ∈ [Reg.r12, .r13, .r14, .r15], s.regs r = entry.regs r

/-- The rest of `m` behind the call of the function: the recursion on the rest of the list. -/
theorem rest_follows {func : Word} (n : Nat) {s s' : State σ} {w : World σ} {list fp : Word}
    {us : List Word}
    (hrec : ∀ {s : State σ} {w : World σ}, s.regs .rsi = func →
      S.floor + 48 * n ≤ (s.regs .rsp).toNat → (s.regs .rsp).toNat + 8 ≤ S.top →
      S.view s = w.heap → Follows code host ends (fun w => Returns S s w fun _ => True)
        (m S env func n (s.regs .rdi) w) (.running 19 s w.calls))
    (hroom : S.floor + 48 * (n + 1) ≤ (s.regs .rsp).toNat)
    (M : Mapping S s func list w fp us s') :
    Follows code host ends (fun w => Returns S s w fun _ => True)
      (do
        let next ← load S w (list + 8)
        let w ← m S env func n next w
        return w) (.running 31 s' w.calls) := by
  refine follows_load fun hnext => .next rfl (.next rfl ?_)
  -- The state in which `m` is called.
  refine .named 33 ((s'.set .rdi (s'.mem.read (s'.regs .rbx + 8))).set .rsi (s'.regs .rbp)) rfl
    fun s1 hs1 => ?_
  have f1 : Frame S s w.heap ([s.regs .rbx, fp] ++ (us ++ [s.regs .rbp])) s1 :=
    hs1 ▸ (M.frame.set (by decide) _).set (by decide) _
  have hrdi1 : s1.regs .rdi = w.heap.bytes.read (list + 8) := by
    rw [← M.frame.read hnext]
    simp [hs1, M.rbx]
  have hrsi1 : s1.regs .rsi = func := by simp [hs1, M.rbp]
  have hlength : ([s.regs .rbx, fp] ++ (us ++ [s.regs .rbp])).length = 5 := by simp [M.length]
  have hrsp1 := f1.rsp
  have hbelow := f1.below
  rw [hlength] at hrsp1
  have hdown : ((enter 33 s1).regs .rsp).toNat = (s1.regs .rsp).toNat - 8 := by
    rw [enter, State.push_rsp]
    bv_omega
  have hbody := hrec (s := enter 33 s1) (w := w) (by rw [enter_regs (by decide), hrsi1])
    (by omega) (by omega) (view_enter f1 (by omega) 33)
  rw [enter_regs (by decide), hrdi1] at hbody
  rw [← bind_pure (m S env func n _ w)]
  refine .callee (w := id) 19 rfl rfl (by decide) f1 (by omega) hbody
    fun w' s2 f2 hsaved2 _ => ?_
  obtain ⟨-, -, hr12, hr13, hr14, hr15⟩ := forall_calleeSaved.mp hsaved2
  refine .restore (s.set .rbp fp).regs [.rbx, .rbp] ⟨rfl, rfl, trivial⟩ (by decide) (by decide) f2
    fun s3 f3 hrestored hregs3 => ?_
  refine outm_follows f3 ?_ ?_
  · rw [hrestored .rbp (by decide), State.set_regs_self, M.pointer]
  · simp [hrestored, hregs3, hr12, hr13, hr14, hr15, hs1, M.kept]

/-- The recursive `m` does what `m` of the C program does. -/
theorem m_follows {func : Word} (hfunc : IsCallback S host env func) (n : Nat) {s : State σ}
    {w : World σ} (hrsi : s.regs .rsi = func)
    (hroom : S.floor + 48 * n ≤ (s.regs .rsp).toNat) (htop : (s.regs .rsp).toNat + 8 ≤ S.top)
    (hview : S.view s = w.heap) :
    Follows code host ends (fun w => Returns S s w fun _ => True)
      (m S env func n (s.regs .rdi) w) (.running 19 s w.calls) := by
  induction n generalizing s w with
  | zero => exact follows_outOfFuel
  | succ n ih =>
  have f0 : Frame S s w.heap [] s := hview ▸ Frame.enter (by omega) htop
  refine .next rfl ?_
  refine .save [.rbp] ⟨rfl, trivial⟩ (by decide) f0 (by simp; omega) fun s1 f1 hregs1 => ?_
  have hpointer : (s1.regs .rsp).toNat + 8 = (s.regs .rsp).toNat := by simpa using f1.rsp
  obtain ⟨us, hlength, f2⟩ := (f1.set (r := .rbp) (by decide) (s1.regs .rsp)).reserve 2
    (by simp; omega)
  refine .next rfl (.next rfl (.next rfl ?_))
  -- The state in which the list is tested.
  refine .named 24 ((((s1.set .rbp (s1.regs .rsp)).set .rsp (s1.regs .rsp - 16)).setZf
    (s1.regs .rsp - 16)).setZf (s1.regs .rdi &&& s1.regs .rdi)) rfl fun s2 hs2 => ?_
  have f3 : Frame S s w.heap (us ++ [s.regs .rbp]) s2 := hs2 ▸ (f2.setZf _).setZf _
  have hrbp2 : s2.regs .rbp = s1.regs .rsp := by simp [hs2]
  have hregs2 : ∀ r, r ≠ .rsp → r ≠ .rbp → s2.regs r = s.regs r := by
    intro r hrsp hrbp
    simp [hs2, hregs1, hrsp, hrbp]
  have hzf : s2.zf = (s.regs .rdi &&& s.regs .rdi == 0) := by simp [hs2, hregs1]
  by_cases hlist : s.regs .rdi = 0
  · have hnull : m S env func (n + 1) (s.regs .rdi) w = .ok w := if_neg (not_not.mpr hlist)
    rw [hnull]
    refine .jump_zero 36 rfl rfl (by simp [hzf, hlist]) (outm_follows f3 ?_ ?_)
    · rw [hrbp2, hpointer]
    · simp [hregs2]
  · rw [m, if_pos hlist]
    refine .no_jump rfl (by simpa [hzf] using hlist) ?_
    refine .save [.rbp, .rbx] ⟨rfl, rfl, trivial⟩ (by decide) f3 (by simp [hlength]; omega)
      fun s3 f4 hregs3 => ?_
    refine follows_load fun hvalue => .next rfl (.next rfl (.next rfl ?_))
    -- The state in which the function is called.
    refine .named 30 (((s3.set .rbx (s3.regs .rdi)).set .rbp (s3.regs .rsi)).set .rdi
      (s3.mem.read (s3.regs .rdi + 0))) rfl fun s4 hs4 => ?_
    have f5 : Frame S s w.heap ([s.regs .rbx, s1.regs .rsp] ++ (us ++ [s.regs .rbp])) s4 := by
      have hwords : ([Reg.rbp, .rbx].map s2.regs).reverse = [s.regs .rbx, s1.regs .rsp] := by
        simp [hregs2, hrbp2]
      rw [hwords] at f4
      exact hs4 ▸ ((f4.set (by decide) _).set (by decide) _).set (by decide) _
    have hrdi4 : s4.regs .rdi = w.heap.bytes.read (s.regs .rdi) := by
      rw [← f4.read hvalue]
      simp [hs4, hregs3, hregs2]
    refine follows_call hfunc rfl (by simp [hs4, hregs3, hregs2, hrsi]) hrdi4 f5
      (by simp [hlength]; omega) fun s5 _ f6 hsaved5 => ?_
    obtain ⟨hrbx, hrbp, hr12, hr13, hr14, hr15⟩ := forall_calleeSaved.mp hsaved5
    refine rest_follows n ih hroom ⟨f6, hlength, hpointer, ?_, ?_, ?_⟩
    · simp [hrbx, hs4, hregs3, hregs2]
    · simp [hrbp, hs4, hregs3, hregs2, hrsi]
    · simp [hr12, hr13, hr14, hr15, hs4, hregs3, hregs2]

/-! ## f -/

/-- The rest of `f` from the label `ff` on: the recursion on the rest of the list, with the
accumulator in `rsi`. -/
theorem ff_follows {func : Word} (n : Nat) {s s' : State σ} {w : World σ} {list store : Word}
    (hrec : ∀ {s : State σ} {w : World σ}, s.regs .rdx = func →
      S.floor + 32 * n + 80 ≤ (s.regs .rsp).toNat → (s.regs .rsp).toNat + 8 ≤ S.top →
      S.view s = w.heap → Follows code host ends (fun r => Returns S s r.2 (· = r.1))
        (f S env func n (s.regs .rdi) (s.regs .rsi) w) (.running 40 s w.calls))
    (hroom : S.floor + 32 * (n + 1) + 80 ≤ (s.regs .rsp).toNat)
    (F : Filtering S s func list w s') (hrsi : s'.regs .rsi = store) :
    Follows code host ends (fun r => Returns S s r.2 (· = r.1))
      (load S w (list + 8) >>= fun next => f S env func n next store w)
      (.running 61 s' w.calls) := by
  refine follows_load fun hnext => .next rfl (.next rfl (.next rfl ?_))
  -- The state in which `f` is called.
  refine .named 64 ((s'.set .rdi (s'.mem.read (s'.regs .rbx + 8))).set .rdx (s'.regs .r13)) rfl
    fun s1 hs1 => ?_
  have F1 : Filtering S s func list w s1 :=
    hs1 ▸ (F.set (by decide) (by decide)).set (by decide) (by decide)
  have hrdi1 : s1.regs .rdi = w.heap.bytes.read (list + 8) := by
    rw [← F.frame.read hnext]
    simp [hs1, F.rbx]
  have hrsi1 : s1.regs .rsi = store := by simp [hs1, hrsi]
  have hrdx1 : s1.regs .rdx = func := by simp [hs1, F.r13]
  have hroom4 : S.floor + 8 * ([s.regs .r13, s.regs .r12, s.regs .rbx].length + 1)
      ≤ (s.regs .rsp).toNat := by
    simp only [List.length]
    omega
  have hrsp1 := F1.frame.rsp
  simp only [List.length] at hrsp1
  have hbelow := F1.frame.below
  have hdown : ((enter 64 s1).regs .rsp).toNat = (s1.regs .rsp).toNat - 8 := by
    rw [enter, State.push_rsp]
    bv_omega
  have hbody := hrec (s := enter 64 s1) (w := w) (by rw [enter_regs (by decide), hrdx1])
    (by omega) (by omega) (view_enter F1.frame hroom4 64)
  rw [enter_regs (by decide), enter_regs (by decide), hrdi1, hrsi1] at hbody
  rw [← bind_pure (f S env func n _ store w)]
  refine .callee (w := Prod.snd) 40 rfl rfl (by decide) F1.frame hroom4 hbody ?_
  rintro ⟨store', w'⟩ s2 f2 hsaved2 hrax2
  have F2 : Filtering S s func list w' s2 := F1.called f2 hsaved2
  refine .restore s.regs [.r13, .r12, .rbx] ⟨rfl, rfl, rfl, trivial⟩ (by decide) (by decide) F2.frame
    fun s3 f3 hrestored hregs3 => ?_
  refine .next rfl (.next rfl (.ok (f3.ret (forall_calleeSaved.mpr ?_) ?_)))
  · simp [hrestored, hregs3, F2.rbp, F2.r14, F2.r15]
  · simp [hregs3, hrax2]

/-- The recursive `f` does what `f` of the C program does. -/
theorem f_follows (hmalloc : IsMalloc S host env) {func : Word}
    (hfunc : IsPredicate S host env func) (n : Nat) {s : State σ} {w : World σ}
    (hrdx : s.regs .rdx = func) (hroom : S.floor + 32 * n + 80 ≤ (s.regs .rsp).toNat)
    (htop : (s.regs .rsp).toNat + 8 ≤ S.top) (hview : S.view s = w.heap) :
    Follows code host ends (fun r => Returns S s r.2 (· = r.1))
      (f S env func n (s.regs .rdi) (s.regs .rsi) w) (.running 40 s w.calls) := by
  induction n generalizing s w with
  | zero => exact follows_outOfFuel
  | succ n ih =>
  have f0 : Frame S s w.heap [] s := hview ▸ Frame.enter (by omega) htop
  refine .next rfl (.next rfl (.next rfl ?_))
  -- The state in which the list is tested.
  refine .named 43 ((s.set .rax (s.regs .rsi)).setZf (s.regs .rdi &&& s.regs .rdi)) rfl
    fun s1 hs1 => ?_
  have f1 : Frame S s w.heap [] s1 := hs1 ▸ (f0.set (by decide) _).setZf _
  have hregs1 : ∀ r, r ≠ .rax → s1.regs r = s.regs r := fun r hr => by simp [hs1, hr]
  have hzf : s1.zf = (s.regs .rdi &&& s.regs .rdi == 0) := by simp [hs1]
  by_cases hlist : s.regs .rdi = 0
  · have hnull : f S env func (n + 1) (s.regs .rdi) (s.regs .rsi) w = .ok (s.regs .rsi, w) :=
      if_neg (not_not.mpr hlist)
    rw [hnull]
    refine .jump_zero 68 rfl rfl (by simp [hzf, hlist]) (.next rfl (.next rfl (.ok ?_)))
    exact f1.ret (fun r hr => hregs1 r (by rintro rfl; exact absurd hr (by decide)))
      (by simp [hs1])
  · rw [f_succ S env n w hlist]
    refine .no_jump rfl (by simpa [hzf] using hlist) ?_
    refine .save [.rbx, .r12, .r13] ⟨rfl, rfl, rfl, trivial⟩ (by decide) f1 (by simp; omega)
      fun s2 f2 hregs2 => ?_
    refine .next rfl (.next rfl (.next rfl (.next rfl ?_)))
    -- The state in which the predicate is called.
    refine .named 51 ((((s2.set .rbx (s2.regs .rdi)).set .r12 (s2.regs .rsi)).set .r13
      (s2.regs .rdx)).set .rdi (s2.mem.read (s2.regs .rdi + 0))) rfl fun s3 hs3 => ?_
    have F3 : Filtering S s func (s.regs .rdi) w s3 := by
      constructor
      · have f3 : Frame S s w.heap [s.regs .r13, s.regs .r12, s.regs .rbx] s2 := by
          simpa [hregs1] using f2
        exact hs3 ▸ (((f3.set (by decide) _).set (by decide) _).set (by decide) _).set (by decide) _
      all_goals simp [hs3, hregs2, hregs1, hrdx]
    refine filterNode_follows hmalloc hfunc 59 ⟨rfl, rfl, rfl, rfl, rfl, rfl, trivial⟩ rfl
      (by decide) (by omega) F3 ?_ ?_ ?_ ?_ ?_
    · simp [hs3, hregs2, hregs1, hrdx]
    · simp [hs3, hregs2, hregs1]
    · simp [hs3, hregs2, hregs1]
    · intro s' w' F' hr12
      refine .next rfl (.next rfl ?_)
      exact ff_follows n ih hroom (F'.set (r := .rsi) (by decide) (by decide)) (by simp [hr12])
    · intro s' w' store' F' hrax
      refine .next rfl (.jump 61 rfl rfl ?_)
      exact ff_follows n ih hroom (F'.set (r := .rsi) (by decide) (by decide)) (by simp [hrax])

end CourseWork.Asm.Plain
