import CourseWork.Asm.Programs

/-!
# What both programs share

`add_element`, and the test of a node in `f`, against the C program.
-/

namespace CourseWork.Asm

open X86

variable {σ : Type} {S : Stack} {host : Host Symbol σ} {env : Env σ}
  {rest : List (Instr Label Symbol)}

/-! ## Steps of the C program -/

section Undefined

variable {α : Type} {P : List (Instr Label Symbol)} {Q : α → Config Symbol σ → Prop}
  {c : Config Symbol σ}

theorem follows_undefined : Follows P host ends Q (.error .undefined) c :=
  fun _ hx => by cases hx

theorem follows_outOfFuel : Follows P host ends Q (.error .outOfFuel) c :=
  fun _ hx => by cases hx

/-- A load is defined only off the stack. -/
theorem follows_load {w : World σ} {a : Word} {k : Word → Except Stop α}
    (h : S.Off a 8 → Follows P host ends Q (k (w.heap.bytes.read a)) c) :
    Follows P host ends Q (load S w a >>= k) c := by
  by_cases ha : S.Off a 8
  · rw [load_off ha]
    exact h ha
  · rw [load, if_neg ha]
    exact follows_undefined

theorem follows_store {w : World σ} {a v : Word} {k : World σ → Except Stop α}
    (h : S.Off a 8 → Follows P host ends Q (k { w with heap := w.heap.write a v }) c) :
    Follows P host ends Q (store S w a v >>= k) c := by
  by_cases ha : S.Off a 8
  · rw [store_off ha]
    exact h ha
  · rw [store, if_neg ha]
    exact follows_undefined

end Undefined

/-! ## Calls -/

theorem callable_enter {entry s : State σ} {h : Heap σ} {ws : List Word}
    (f : Frame S entry h ws s) (hroom : S.floor + 8 * (ws.length + 1) ≤ (entry.regs .rsp).toNat)
    (pc : Nat) :
    Callable S (enter pc s) := by
  have hrsp := f.rsp
  have hbelow := f.below
  have hdown : ((enter pc s).regs .rsp).toNat = (s.regs .rsp).toNat - 8 := by
    rw [enter, State.push_rsp]
    bv_omega
  constructor <;> omega

theorem view_enter {entry s : State σ} {h : Heap σ} {ws : List Word} (f : Frame S entry h ws s)
    (hroom : S.floor + 8 * (ws.length + 1) ≤ (entry.regs .rsp).toNat) (pc : Nat) :
    S.view (enter pc s) = h := (f.push hroom _).heap

/-- Calling a callback through a register. -/
theorem follows_call {α : Type} {P : List (Instr Label Symbol)} {Q : α → Config Symbol σ → Prop}
    {x : Except Stop α} {func : Word} (hfunc : IsCallback S host env func) {entry s : State σ}
    {w : World σ} {ws : List Word} {pc : Nat} {r : Reg} {value : Word}
    (hcode : P[pc]? = some (.callReg r)) (hr : s.regs r = func) (hrdi : s.regs .rdi = value)
    (f : Frame S entry w.heap ws s)
    (hroom : S.floor + 8 * (ws.length + 1) ≤ (entry.regs .rsp).toNat)
    (hk : ∀ s', host.func func (enter pc s) = s' →
      Frame S entry (call env func value w).heap ws s' →
      (∀ r ∈ calleeSaved, s'.regs r = s.regs r) →
        Follows P host ends Q x (.running (pc + 1) s' (call env func value w).calls)) :
    Follows P host ends Q x (.running pc s w.calls) := by
  subst hr hrdi
  obtain ⟨hreturned, hheap⟩ := hfunc (enter pc s) (callable_enter f hroom pc)
  rw [view_enter f hroom, enter_regs (by decide)] at hheap
  exact .callback hcode f hroom hreturned hheap hk

/-! ## add_element -/

/-- What follows `malloc` in `add_element`: the abort, or the node and the way back to the
caller. -/
theorem fill_follows {s s' : State σ} {w : World σ} {us : List Word} {node next data : Word}
    (f : Frame S s w.heap (us ++ [s.regs .r14, s.regs .rbx, s.regs .rbp]) s')
    (hrax : s'.regs .rax = node) (hr14 : s'.regs .r14 = data) (hrbx : s'.regs .rbx = next)
    (hrbp : (s'.regs .rbp).toNat + 24 = (s.regs .rsp).toNat)
    (hkept : ∀ r ∈ [Reg.r12, .r13, .r15], s'.regs r = s.regs r) :
    Follows (addElementCode ++ rest) host ends (fun r => Returns S s r.2 (· = r.1))
      (if node ≠ 0 then do
        let w ← store S w node data
        let w ← store S w (node + 8) next
        return (node, w)
      else throw .abort) (.running 10 s' w.calls) := by
  by_cases hnode : node = 0
  · have hzero : (s'.regs .rax &&& s'.regs .rax == 0) = true := by simp [hrax, hnode]
    rw [hnode]
    exact .next rfl (.exit rfl hzero rfl)
  have hzero : (s'.regs .rax &&& s'.regs .rax == 0) = false := by simpa [hrax] using hnode
  rw [if_pos hnode]
  refine .next rfl (.no_exit rfl hzero ?_)
  refine follows_store fun hvalue => .next rfl (follows_store fun hnext => .next rfl (.next rfl ?_))
  -- The node is filled and what is above the saved registers is dropped.
  refine .named 15 ((((s'.setZf (s'.regs .rax &&& s'.regs .rax)).store (s'.regs .rax + 0)
    (s'.regs .r14)).store (s'.regs .rax + 8) (s'.regs .rbx)).set .rsp (s'.regs .rbp)) rfl
    fun s1 hs1 => ?_
  have hplace : s'.regs .rax + 0 = node := (BitVec.add_zero _).trans hrax
  have f1 : Frame S s ((w.heap.write node data).write (node + 8) next)
      [s.regs .r14, s.regs .rbx, s.regs .rbp] s1 := by
    rw [hs1, hplace, hrax, hr14, hrbx]
    exact (((f.setZf _).store hvalue _).store hnext _).release hrbp
  refine .restore s.regs [.r14, .rbx, .rbp] ⟨rfl, rfl, rfl, trivial⟩ (by decide) (by decide) f1
    fun s2 f2 hrestored hregs2 => ?_
  refine .next rfl (.ok (Frame.ret (w := ⟨_, w.calls⟩) f2 (forall_calleeSaved.mpr ?_) ?_))
  · simp [hrestored, hregs2, hs1, hkept]
  · simp [hregs2, hs1, hrax]

theorem addElement_follows (hmalloc : IsMalloc S host env) {s : State σ} {w : World σ}
    (hroom : S.floor + 48 ≤ (s.regs .rsp).toNat) (htop : (s.regs .rsp).toNat + 8 ≤ S.top)
    (hview : S.view s = w.heap) :
    Follows (addElementCode ++ rest) host ends (fun r => Returns S s r.2 (· = r.1))
      (addElement S env (s.regs .rsi) (s.regs .rdi) w) (.running 0 s w.calls) := by
  have f0 : Frame S s w.heap [] s := hview ▸ Frame.enter (by omega) htop
  refine .next rfl ?_
  refine .save [.rbp, .rbx, .r14] ⟨rfl, rfl, rfl, trivial⟩ (by decide) f0 (by simp; omega)
    fun s1 f1 hregs1 => ?_
  have hpointer : (s1.regs .rsp).toNat + 24 = (s.regs .rsp).toNat := by simpa using f1.rsp
  obtain ⟨us, hlength, f2⟩ := (f1.set (r := .rbp) (by decide) (s1.regs .rsp)).reserve 2
    (by simp; omega)
  refine .next rfl (.next rfl (.next rfl (.next rfl (.next rfl ?_))))
  -- The state in which `malloc` is called.
  refine .named 9 ((((((s1.set .rbp (s1.regs .rsp)).set .rsp (s1.regs .rsp - 16)).setZf
    (s1.regs .rsp - 16)).set .r14 (s1.regs .rdi)).set .rbx (s1.regs .rsi)).set .rdi 16) rfl
    fun s2 hs2 => ?_
  have f3 : Frame S s w.heap (us ++ [s.regs .r14, s.regs .rbx, s.regs .rbp]) s2 :=
    hs2 ▸ (((f2.setZf _).set (by decide) _).set (by decide) _).set (by decide) _
  have hroom3 : S.floor + 8 * ((us ++ [s.regs .r14, s.regs .rbx, s.regs .rbp]).length + 1)
      ≤ (s.regs .rsp).toNat := by
    simp [hlength]
    omega
  have hsize : (enter 9 s2).regs .rdi = 16 := by
    rw [enter_regs (by decide), hs2]
    rfl
  obtain ⟨hreturned, hrax, hheap⟩ := hmalloc (enter 9 s2) (callable_enter f3 hroom3 9) hsize
  obtain ⟨⟨node, heap⟩, hnew⟩ : ∃ r, env.malloc w.heap 16 = r := ⟨_, rfl⟩
  rw [view_enter f3 hroom3, hnew] at hrax hheap
  rw [addElement, hnew]
  refine .symbol rfl f3 hroom3 hreturned hheap fun s3 hs3 f4 hsaved3 => ?_
  obtain ⟨hrbx, hrbp, hr12, hr13, hr14, hr15⟩ := forall_calleeSaved.mp hsaved3
  refine fill_follows (w := { w with heap }) f4 (hs3 ▸ hrax) ?_ ?_ ?_ ?_
  · simp [hr14, hs2, hregs1]
  · simp [hrbx, hs2, hregs1]
  · simp [hrbp, hs2, hpointer]
  · simp [hr12, hr13, hr15, hs2, hregs1]

/-! ## The test of a node in f -/

/-- A state in the body of either `f` that was entered in `entry`: the registers it has saved,
the node it is at in `rbx`, and the predicate in `r13`. -/
structure Filtering (S : Stack) (entry : State σ) (func list : Word) (w : World σ)
    (s : State σ) : Prop where
  frame : Frame S entry w.heap [entry.regs .r13, entry.regs .r12, entry.regs .rbx] s
  rbx : s.regs .rbx = list
  r13 : s.regs .r13 = func
  rbp : s.regs .rbp = entry.regs .rbp
  r14 : s.regs .r14 = entry.regs .r14
  r15 : s.regs .r15 = entry.regs .r15

namespace Filtering

variable {entry s s' : State σ} {func list v : Word} {w w' : World σ}

theorem set (F : Filtering S entry func list w s) {r : Reg} (hr : r ≠ .rsp)
    (hsaved : r ∉ [Reg.rbx, .r13, .rbp, .r14, .r15]) :
    Filtering S entry func list w (s.set r v) := by
  simp only [List.mem_cons, List.not_mem_nil, or_false, not_or] at hsaved
  obtain ⟨hrbx, hr13, hrbp, hr14, hr15⟩ := hsaved
  refine ⟨F.frame.set hr v, ?_, ?_, ?_, ?_, ?_⟩
  · rw [State.set_regs_of_ne _ _ _ (Ne.symm hrbx), F.rbx]
  · rw [State.set_regs_of_ne _ _ _ (Ne.symm hr13), F.r13]
  · rw [State.set_regs_of_ne _ _ _ (Ne.symm hrbp), F.rbp]
  · rw [State.set_regs_of_ne _ _ _ (Ne.symm hr14), F.r14]
  · rw [State.set_regs_of_ne _ _ _ (Ne.symm hr15), F.r15]

theorem setZf (F : Filtering S entry func list w s) :
    Filtering S entry func list w (s.setZf v) :=
  ⟨F.frame.setZf v, F.rbx, F.r13, F.rbp, F.r14, F.r15⟩

/-- Going on to another node. -/
theorem setNode (F : Filtering S entry func list w s) :
    Filtering S entry func v w (s.set .rbx v) :=
  ⟨F.frame.set (by decide) v, State.set_regs_self .., F.r13, F.rbp, F.r14, F.r15⟩

/-- A call that has returned keeps the registers. -/
theorem called (F : Filtering S entry func list w s)
    (f : Frame S entry w'.heap [entry.regs .r13, entry.regs .r12, entry.regs .rbx] s')
    (hsaved : ∀ r ∈ calleeSaved, s'.regs r = s.regs r) : Filtering S entry func list w' s' := by
  obtain ⟨hrbx, hrbp, -, hr13, hr14, hr15⟩ := forall_calleeSaved.mp hsaved
  exact ⟨f, hrbx.trans F.rbx, hr13.trans F.r13, hrbp.trans F.rbp, hr14.trans F.r14,
    hr15.trans F.r15⟩

end Filtering

/-- The predicate is asked about the value of the node, and if it accepts `add_element` is
called: the instructions are the same in both programs, up to the register of the predicate
and the label behind them. -/
theorem filterNode_follows {α : Type} {Q : α → Config Symbol σ → Prop}
    {k : Word × World σ → Except Stop α} (hmalloc : IsMalloc S host env) {func : Word}
    (hfunc : IsPredicate S host env func) {pc : Nat} {r : Reg} {l : Label} (n : Nat)
    (hcode : CodeAt (addElementCode ++ rest) pc [.callReg r, .test .rax .rax, .jz l,
      .load .rdi .rbx 0, .mov .rsi .r12, .call .addElement])
    (ht : target (addElementCode ++ rest) l = n) (hpc : pc + 6 < 2 ^ 64) {entry s : State σ}
    {list store : Word}
    {w : World σ} (hroom : S.floor + 80 ≤ (entry.regs .rsp).toNat)
    (F : Filtering S entry func list w s) (hr : s.regs r = func)
    (hrdi : s.regs .rdi = s.mem.read list) (hr12 : s.regs .r12 = store)
    (hrejected : ∀ s' w', Filtering S entry func list w' s' → s'.regs .r12 = store →
      Follows (addElementCode ++ rest) host ends Q (k (store, w')) (.running n s' w'.calls))
    (haccepted : ∀ s' w' store', Filtering S entry func list w' s' → s'.regs .rax = store' →
      Follows (addElementCode ++ rest) host ends Q (k (store', w'))
        (.running (pc + 6) s' w'.calls)) :
    Follows (addElementCode ++ rest) host ends Q (filterNode S env func list store w >>= k)
      (.running pc s w.calls) := by
  obtain ⟨hcallReg, htest, hjz, hload, hmov, hcall, -⟩ := hcode
  have hrsp := F.frame.rsp
  simp only [List.length] at hrsp
  rw [filterNode, bind_assoc]
  refine follows_load fun hoff => ?_
  obtain ⟨value, hvalue⟩ : ∃ value, w.heap.bytes.read list = value := ⟨_, rfl⟩
  have hrdi' : s.regs .rdi = value := by rw [hrdi, F.frame.read hoff, hvalue]
  have hroom4 : S.floor + 8 * ([entry.regs .r13, entry.regs .r12, entry.regs .rbx].length + 1)
      ≤ (entry.regs .rsp).toNat := by
    simp only [List.length]
    omega
  rw [hvalue]
  refine follows_call hfunc.1 hcallReg hr hrdi' F.frame hroom4 fun s1 hs1 f1 hsaved1 => ?_
  have haccepts := hfunc.2 (enter pc s) (callable_enter F.frame hroom4 pc)
  rw [hs1, view_enter F.frame hroom4, enter_regs (by decide), hrdi'] at haccepts
  have F1 : Filtering S entry func list (call env func value w) s1 := F.called f1 hsaved1
  have hr12' : s1.regs .r12 = store := (hsaved1 .r12 (by decide)).trans hr12
  refine .next htest ?_
  cases hok : env.accepts func w.heap value with
  | false =>
    have hrax : s1.regs .rax = 0 := by simpa [hok] using haccepts
    exact .jump_zero n hjz ht (by simp [hrax]) (hrejected _ _ F1.setZf hr12')
  | true =>
    have hrax : s1.regs .rax ≠ 0 := haccepts.mpr hok
    refine .no_jump hjz (by simpa using hrax) ?_
    simp only [if_true, bind_assoc]
    refine follows_load fun _ => .next hload (.next hmov ?_)
    -- The state in which `add_element` is called.
    refine .named (pc + 5) (((s1.setZf (s1.regs .rax &&& s1.regs .rax)).set .rdi
      (s1.mem.read (s1.regs .rbx + 0))).set .rsi (s1.regs .r12)) rfl fun s2 hs2 => ?_
    have F2 : Filtering S entry func list (call env func value w) s2 :=
      hs2 ▸ (F1.setZf.set (by decide) (by decide)).set (by decide) (by decide)
    have hdata : s2.regs .rdi = (call env func value w).heap.bytes.read list := by
      rw [hs2, ← F1.frame.read hoff, F1.rbx]
      simp
    have hnext : s2.regs .rsi = store := by simp [hs2, hr12']
    have hrsp2 := F2.frame.rsp
    simp only [List.length] at hrsp2
    have hdown : ((enter (pc + 5) s2).regs .rsp).toNat = (s2.regs .rsp).toNat - 8 := by
      rw [enter, State.push_rsp]
      bv_omega
    have hbelow := F2.frame.below
    have hbody : Follows (addElementCode ++ rest) host ends _ _ _ :=
      addElement_follows hmalloc (s := enter (pc + 5) s2) (w := call env func value w)
        (by omega) (by omega) (view_enter F2.frame hroom4 _)
    rw [enter_regs (by decide), enter_regs (by decide), hdata, hnext] at hbody
    refine .callee (w := Prod.snd) 0 hcall rfl (by omega) F2.frame hroom4 hbody ?_
    rintro ⟨store', w'⟩ s3 f3 hsaved3 hrax3
    exact haccepted s3 w' store' (F2.called f3 hsaved3) hrax3

end CourseWork.Asm
