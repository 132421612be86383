import CourseWork.Lib.X86
import Mathlib.Tactic.Common

/-!
# Frames and calls

The calling convention on a stack segment: what a function that has returned owes its
caller, and the frame of a running function, with the words it has pushed. The memory off
the segment and the state outside the machine are the heap, which a frame carries along.
-/

namespace X86

/-- A stack segment; the bytes below `floor` are left to outside functions. -/
structure Stack where
  lo : Nat
  floor : Nat
  top : Nat
  lo_le : lo ≤ floor
  top_le : top ≤ 2 ^ 64

/-- What a function can change besides the registers and the stack. -/
structure Heap (σ : Type) where
  bytes : Mem
  env : σ

namespace Heap

variable {σ : Type}

def write (h : Heap σ) (a v : Word) : Heap σ := { h with bytes := h.bytes.write a v }

end Heap

/-- The heap, with the calls of functions at given addresses made so far. -/
structure World (σ : Type) where
  heap : Heap σ
  calls : List Word

namespace Stack

variable {σ : Type}

/-- The memory with the segment blanked. -/
def off (S : Stack) (m : Mem) : Mem := fun a =>
  if S.lo ≤ a.toNat ∧ a.toNat < S.top then 0 else m a

/-- The heap of a state. -/
def view (S : Stack) (s : State σ) : Heap σ := ⟨S.off s.mem, s.env⟩

/-- The `n` bytes at `a` are off the segment. -/
def Off (S : Stack) (a : Word) (n : Nat) : Prop :=
  a.toNat + n ≤ 2 ^ 64 ∧ (a.toNat + n ≤ S.lo ∨ S.top ≤ a.toNat)

instance (S : Stack) (a : Word) (n : Nat) : Decidable (S.Off a n) :=
  inferInstanceAs (Decidable (_ ∧ _))

variable {S : Stack} {m : Mem} {a v x : Word}

theorem off_apply (h : ¬(S.lo ≤ x.toNat ∧ x.toNat < S.top)) : S.off m x = m x := if_neg h

theorem off_apply_segment (h : S.lo ≤ x.toNat ∧ x.toNat < S.top) : S.off m x = 0 := if_pos h

/-- What is off the segment is read the same from the heap. -/
theorem off_read (h : S.Off a 8) : (S.off m).read a = m.read a := by
  refine Mem.read_congr fun i hi => off_apply ?_
  have haddress : (a + BitVec.ofNat 64 i).toNat = a.toNat + i := by
    have := h.1
    bv_omega
  rw [haddress]
  have := h.2
  omega

/-- A store on the segment does not show in the heap. -/
theorem off_write_segment (hlo : S.lo ≤ a.toNat) (htop : a.toNat + 8 ≤ S.top) :
    S.off (m.write a v) = S.off m := by
  funext x
  by_cases hx : S.lo ≤ x.toNat ∧ x.toNat < S.top
  · rw [off_apply_segment hx, off_apply_segment hx]
  · rw [off_apply hx, off_apply hx, Mem.write_of_away]
    have := S.top_le
    bv_omega

/-- A store off the segment is the same store to the heap. -/
theorem off_write (h : S.Off a 8) : S.off (m.write a v) = (S.off m).write a v := by
  funext x
  by_cases hx : S.lo ≤ x.toNat ∧ x.toNat < S.top
  · have haway : 8 ≤ (x - a).toNat := by
      have := h.1
      have := h.2
      bv_omega
    rw [off_apply_segment hx, Mem.write_of_away haway, off_apply_segment hx]
  · rw [off_apply hx, Mem.write, Mem.write, off_apply hx]

end Stack

/-! ## Words on the stack -/

/-- The words from an address up. -/
def Words (m : Mem) (p : Word) : List Word → Prop
  | [] => True
  | w :: ws => m.read p = w ∧ Words m (p + 8) ws

section Words

variable {m m' : Mem}

theorem words_congr : ∀ {ws : List Word} {p : Word}, p.toNat + 8 * ws.length < 2 ^ 64 →
    (∀ a : Word, p.toNat ≤ a.toNat → a.toNat < p.toNat + 8 * ws.length → m a = m' a) →
      Words m p ws → Words m' p ws
  | [], _, _, _, _ => trivial
  | w :: ws, p, hfits, hsame, ⟨hfirst, hrest⟩ => by
    rw [List.length_cons] at hfits hsame
    have hup : (p + 8).toNat = p.toNat + 8 := by bv_omega
    constructor
    · rw [← hfirst]
      refine (Mem.read_congr fun i hi => hsame _ ?_ ?_).symm <;> bv_omega
    · refine words_congr (by omega) (fun a hlo hhi => hsame a ?_ ?_) hrest <;> omega

/-- Any memory holds some words. -/
theorem exists_words (m : Mem) : ∀ (n : Nat) (p : Word) {ws : List Word},
    Words m (p + BitVec.ofNat 64 (8 * n)) ws → ∃ us, us.length = n ∧ Words m p (us ++ ws)
  | 0, p, ws, h => ⟨[], rfl, by simpa using h⟩
  | n + 1, p, ws, h => by
    have hshift : p + 8 + BitVec.ofNat 64 (8 * n) = p + BitVec.ofNat 64 (8 * (n + 1)) := by
      rw [Nat.mul_succ, BitVec.ofNat_add]
      bv_omega
    rw [← hshift] at h
    obtain ⟨us, hlength, hwords⟩ := exists_words m n (p + 8) h
    exact ⟨m.read p :: us, by rw [List.length_cons, hlength], rfl, hwords⟩

theorem words_of_append : ∀ {us ws : List Word} {p : Word}, Words m p (us ++ ws) →
    Words m (p + BitVec.ofNat 64 (8 * us.length)) ws
  | [], ws, p, h => by simpa using h
  | u :: us, ws, p, ⟨_, h⟩ => by
    have hrest := words_of_append h
    have hshift : p + 8 + BitVec.ofNat 64 (8 * us.length)
        = p + BitVec.ofNat 64 (8 * (us.length + 1)) := by
      rw [Nat.mul_succ, BitVec.ofNat_add]
      bv_omega
    rwa [hshift] at hrest

end Words

/-! ## Functions that have returned -/

variable {σ : Type}

/-- What a function entered in `s` has kept when it has returned in `s'`: the stack
pointer is above the return address, the registers of its caller are as they were, and so
is the stack from there up. -/
structure Returned (S : Stack) (s s' : State σ) : Prop where
  rsp : s'.regs .rsp = s.regs .rsp + 8
  saved : ∀ r ∈ calleeSaved, s'.regs r = s.regs r
  above : ∀ a : Word, (s.regs .rsp).toNat + 8 ≤ a.toNat → a.toNat < S.top → s'.mem a = s.mem a

/-- A configuration in which the function entered in `s` has returned to its caller, in
this world and with a result of this kind. -/
def Returns {X : Type} (S : Stack) (s : State σ) (w : World σ) (result : Word → Prop)
    (c : Config X σ) : Prop :=
  ∃ s', c = .running s.top.toNat s' w.calls ∧ Returned S s s' ∧ S.view s' = w.heap ∧
    result (s'.regs .rax)

/-! ## Frames -/

/-- `s` is in the frame of the function entered in `entry`, which has pushed `ws` (the
last word first) and sees the heap `h`. -/
structure Frame (S : Stack) (entry : State σ) (h : Heap σ) (ws : List Word) (s : State σ) :
    Prop where
  rsp : (s.regs .rsp).toNat + 8 * ws.length = (entry.regs .rsp).toNat
  words : Words s.mem (s.regs .rsp) ws
  above : ∀ a : Word, (entry.regs .rsp).toNat ≤ a.toNat → a.toNat < S.top →
    s.mem a = entry.mem a
  floor : S.floor ≤ (s.regs .rsp).toNat
  below : (entry.regs .rsp).toNat + 8 ≤ S.top
  heap : S.view s = h

namespace Frame

variable {S : Stack} {entry s s' : State σ} {h h' : Heap σ} {w v : Word} {ws us : List Word}

theorem enter (hfloor : S.floor ≤ (s.regs .rsp).toNat)
    (htop : (s.regs .rsp).toNat + 8 ≤ S.top) : Frame S s (S.view s) [] s where
  rsp := rfl
  words := trivial
  above := fun _ _ _ => rfl
  floor := hfloor
  below := htop
  heap := rfl

theorem set (f : Frame S entry h ws s) {r : Reg} (hr : r ≠ .rsp) (v : Word) :
    Frame S entry h ws (s.set r v) := by
  have hrsp : (s.set r v).regs .rsp = s.regs .rsp := State.set_regs_of_ne s r v hr.symm
  exact ⟨hrsp ▸ f.rsp, hrsp ▸ f.words, f.above, hrsp ▸ f.floor, f.below, f.heap⟩

theorem setZf (f : Frame S entry h ws s) (v : Word) : Frame S entry h ws (s.setZf v) :=
  ⟨f.rsp, f.words, f.above, f.floor, f.below, f.heap⟩

/-- Pushing a word, where the floor leaves room for it. -/
theorem push (f : Frame S entry h ws s)
    (hroom : S.floor + 8 * (ws.length + 1) ≤ (entry.regs .rsp).toNat) (v : Word) :
    Frame S entry h (v :: ws) (s.push v) := by
  have hrsp := f.rsp
  have hdown : (s.regs .rsp - 8).toNat = (s.regs .rsp).toNat - 8 := by bv_omega
  have hbelow := f.below
  have hlo := S.lo_le
  have htop := S.top_le
  -- The word is stored below everything the frame has pushed.
  have hsame : ∀ a : Word, (s.regs .rsp).toNat ≤ a.toNat → (s.push v).mem a = s.mem a :=
    fun a ha => Mem.write_of_away (by bv_omega)
  refine ⟨?_, ⟨Mem.read_write .., ?_⟩, fun a ha hatop => ?_, ?_, hbelow, ?_⟩
  · rw [State.push_rsp, hdown, List.length_cons]
    omega
  · rw [State.push_rsp, BitVec.sub_add_cancel]
    exact words_congr (by omega) (fun a ha _ => (hsame a ha).symm) f.words
  · rw [hsame a (by omega), f.above a ha hatop]
  · rw [State.push_rsp, hdown]
    omega
  · rw [← f.heap, Stack.view, Stack.view, State.push_mem, State.push_env,
      Stack.off_write_segment (by omega) (by omega)]

theorem top_eq (f : Frame S entry h (w :: ws) s) : s.top = w := f.words.1

/-- Dropping what the function has pushed on top of some words. -/
theorem release (f : Frame S entry h (us ++ ws) s)
    (hv : v.toNat + 8 * ws.length = (entry.regs .rsp).toNat) :
    Frame S entry h ws (s.set .rsp v) := by
  have hrsp := f.rsp
  have hfloor := f.floor
  rw [List.length_append] at hrsp
  have hvalue : v = s.regs .rsp + BitVec.ofNat 64 (8 * us.length) := by bv_omega
  refine ⟨?_, ?_, f.above, ?_, f.below, f.heap⟩
  · rw [State.set_regs_self, hv]
  · rw [State.set_regs_self, hvalue]
    exact words_of_append f.words
  · rw [State.set_regs_self]
    omega

theorem drop (f : Frame S entry h (w :: ws) s) : Frame S entry h ws s.drop := by
  have hrsp := f.rsp
  have hbelow := f.below
  have htop := S.top_le
  rw [List.length_cons] at hrsp
  have hall : Frame S entry h ([w] ++ ws) s := f
  refine hall.release ?_
  bv_omega

theorem pop (f : Frame S entry h (w :: ws) s) {r : Reg} (hr : r ≠ .rsp) :
    Frame S entry h ws (s.pop r) := f.drop.set hr _

/-- Taking room for some words on the stack. -/
theorem reserve (f : Frame S entry h ws s) (n : Nat)
    (hroom : S.floor + 8 * (ws.length + n) ≤ (entry.regs .rsp).toNat) :
    ∃ us, us.length = n ∧
      Frame S entry h (us ++ ws) (s.set .rsp (s.regs .rsp - BitVec.ofNat 64 (8 * n))) := by
  have hwords : Words s.mem (s.regs .rsp - BitVec.ofNat 64 (8 * n)
      + BitVec.ofNat 64 (8 * n)) ws := by
    rw [BitVec.sub_add_cancel]
    exact f.words
  obtain ⟨us, hlength, hus⟩ := exists_words s.mem n _ hwords
  have hrsp := f.rsp
  have hdown : (s.regs .rsp - BitVec.ofNat 64 (8 * n)).toNat
      = (s.regs .rsp).toNat - 8 * n := by bv_omega
  refine ⟨us, hlength, ?_, ?_, f.above, ?_, f.below, f.heap⟩
  · rw [State.set_regs_self, hdown, List.length_append]
    omega
  · rw [State.set_regs_self]
    exact hus
  · rw [State.set_regs_self, hdown]
    omega

theorem store (f : Frame S entry h ws s) {a : Word} (ha : S.Off a 8) (v : Word) :
    Frame S entry (h.write a v) ws (s.store a v) := by
  have hrsp := f.rsp
  have hfloor := f.floor
  have hbelow := f.below
  have hlo := S.lo_le
  have htop := S.top_le
  obtain ⟨hfits, haway⟩ := ha
  have hsame : ∀ x : Word, (s.regs .rsp).toNat ≤ x.toNat → x.toNat < S.top →
      (s.store a v).mem x = s.mem x := fun x _ _ => Mem.write_of_away (by bv_omega)
  refine ⟨hrsp, ?_, fun x hx hxtop => ?_, hfloor, hbelow, ?_⟩
  · exact words_congr (by rw [State.store_regs]; omega)
      (fun x hx _ => (hsame x hx (by rw [State.store_regs] at *; omega)).symm) f.words
  · rw [hsame x (by omega) hxtop, f.above x hx hxtop]
  · rw [← f.heap, Stack.view, Stack.view, State.store_mem, State.store_env,
      Stack.off_write ⟨hfits, haway⟩]
    rfl

/-- What is off the segment is read from the heap. -/
theorem read (f : Frame S entry h ws s) {a : Word} (ha : S.Off a 8) :
    s.mem.read a = h.bytes.read a := by
  rw [← f.heap, ← Stack.off_read ha]
  rfl

/-- The frame of the caller when a function it has called has returned. -/
theorem returned (f : Frame S entry h ws s)
    (hroom : S.floor + 8 * (ws.length + 1) ≤ (entry.regs .rsp).toNat)
    {pc : Nat} (hreturned : Returned S (X86.enter pc s) s') (hheap : S.view s' = h') :
    Frame S entry h' ws s' := by
  have hrspnat := f.rsp
  have hdown : (s.regs .rsp - 8).toNat = (s.regs .rsp).toNat - 8 := by bv_omega
  have hrsp : s'.regs .rsp = s.regs .rsp := by
    rw [hreturned.rsp]
    exact BitVec.sub_add_cancel ..
  have hentry := f.rsp
  have hbelow := f.below
  have htop := S.top_le
  have hsame : ∀ a : Word, (s.regs .rsp).toNat ≤ a.toNat → a.toNat < S.top →
      s'.mem a = s.mem a := by
    intro a ha hatop
    rw [hreturned.above a (by rw [X86.enter, State.push_rsp, hdown]; omega) hatop]
    exact Mem.write_of_away (by bv_omega)
  refine ⟨?_, ?_, fun a ha hatop => ?_, ?_, hbelow, hheap⟩
  · rw [hrsp, hentry]
  · rw [hrsp]
    exact words_congr (by omega) (fun a ha hhi => (hsame a ha (by omega)).symm) f.words
  · rw [hsame a (by omega) hatop, f.above a ha hatop]
  · rw [hrsp]
    exact f.floor

/-- Returning from a frame that has popped what it pushed and restored the registers. -/
theorem ret {X : Type} {w : World σ} (f : Frame S entry w.heap [] s)
    (hsaved : ∀ r ∈ calleeSaved, s.regs r = entry.regs r) {result : Word → Prop}
    (hresult : result (s.regs .rax)) :
    Returns (X := X) S entry w result (.running s.top.toNat s.drop w.calls) := by
  have hrsp : s.regs .rsp = entry.regs .rsp := BitVec.eq_of_toNat_eq f.rsp
  have hbelow := f.below
  have htop := S.top_le
  have haddress : s.top = entry.top := by
    rw [State.top, State.top, hrsp]
    refine Mem.read_congr fun i hi => f.above _ ?_ ?_ <;> bv_omega
  refine ⟨s.drop, by rw [haddress], ⟨?_, fun r hr => ?_, fun a ha hatop => ?_⟩, f.heap, ?_⟩
  · rw [State.drop_rsp, hrsp]
  · have hne : r ≠ .rsp := by
      rintro rfl
      exact absurd hr (by decide)
    rw [State.drop_regs s hne, hsaved r hr]
  · exact f.above a (by omega) hatop
  · rwa [State.drop_regs s (by decide)]

end Frame

/-! ## Rules of the calling convention -/

section Calls

variable {L X : Type} [DecidableEq L] [DecidableEq X] {P : List (Instr L X)} {host : Host X σ}
  {ε α β : Type} {ends : ε → Option X} {Q : β → Config X σ → Prop} {x : Except ε α}
  {y : Except ε β} {k : α → Except ε β} {S : Stack} {entry s : State σ} {h : Heap σ}
  {ws : List Word} {calls : List Word} {pc : Nat}

/-- The instructions from `pc` on. -/
def CodeAt (P : List (Instr L X)) : Nat → List (Instr L X) → Prop
  | _, [] => True
  | pc, i :: is => P[pc]? = some i ∧ CodeAt P (pc + 1) is

/-- Saving registers by pushing them one after another. -/
theorem Follows.save : ∀ (rs : List Reg) {pc : Nat} {s : State σ} {ws : List Word},
    CodeAt P pc (rs.map .push) → .rsp ∉ rs → Frame S entry h ws s →
    S.floor + 8 * (ws.length + rs.length) ≤ (entry.regs .rsp).toNat →
    (∀ s', Frame S entry h ((rs.map s.regs).reverse ++ ws) s' →
      (∀ r, r ≠ .rsp → s'.regs r = s.regs r) →
        Follows P host ends Q y (.running (pc + rs.length) s' calls)) →
    Follows P host ends Q y (.running pc s calls)
  | [], _, s, _, _, _, f, _, hk => hk s f fun _ _ => rfl
  | r :: rs, pc, s, ws, hcode, hrsp, f, hroom, hk => by
    rw [List.length_cons] at hroom hk
    obtain ⟨hr, hrs⟩ := List.ne_and_not_mem_of_not_mem_cons hrsp
    have hpushed := f.push (by omega) (s.regs r)
    refine .next hcode.1 (Follows.save rs hcode.2 hrs hpushed (by rw [List.length_cons]; omega)
      fun s' f' hregs => ?_)
    have hsame : rs.map (s.push (s.regs r)).regs = rs.map s.regs := by
      refine List.map_congr_left fun r' hr' => State.push_regs s _ ?_
      rintro rfl
      exact hrs hr'
    rw [Nat.add_right_comm, Nat.add_assoc]
    refine hk s' ?_ fun r' hr' => ?_
    · rw [hsame] at f'
      simpa using f'
    · rw [hregs r' hr', State.push_regs s _ hr']

/-- Restoring registers by popping the values they are to have. -/
theorem Follows.restore (ρ : Reg → Word) : ∀ (rs : List Reg) {pc : Nat} {s : State σ},
    CodeAt P pc (rs.map .pop) → .rsp ∉ rs → rs.Nodup → Frame S entry h (rs.map ρ ++ ws) s →
    (∀ s', Frame S entry h ws s' → (∀ r ∈ rs, s'.regs r = ρ r) →
      (∀ r, r ≠ .rsp → r ∉ rs → s'.regs r = s.regs r) →
        Follows P host ends Q y (.running (pc + rs.length) s' calls)) →
    Follows P host ends Q y (.running pc s calls)
  | [], _, s, _, _, _, f, hk => hk s f (fun _ hr => absurd hr (by simp)) fun _ _ _ => rfl
  | r :: rs, pc, s, hcode, hrsp, hnodup, f, hk => by
    rw [List.length_cons] at hk
    obtain ⟨hr, hrs⟩ := List.ne_and_not_mem_of_not_mem_cons hrsp
    obtain ⟨hfirst, hnodup⟩ := List.nodup_cons.mp hnodup
    have htop : s.top = ρ r := f.top_eq
    refine .next hcode.1 (Follows.restore ρ rs hcode.2 hrs hnodup (f.pop hr.symm)
      fun s' f' hrestored hregs => ?_)
    rw [Nat.add_right_comm, Nat.add_assoc]
    refine hk s' f' (fun r' hr' => ?_) fun r' hne hr' => ?_
    · obtain rfl | hr' := List.mem_cons.mp hr'
      · rw [hregs r' hr.symm hfirst, State.pop_regs_self, htop]
      · exact hrestored r' hr'
    · obtain ⟨hne', hr'⟩ := List.ne_and_not_mem_of_not_mem_cons hr'
      rw [hregs r' hne hr', State.pop_regs s r hne', State.drop_regs s hne]

theorem enter_regs {r : Reg} (hr : r ≠ .rsp) : (enter pc s).regs r = s.regs r :=
  State.push_regs s _ hr

/-- The registers of a caller after a call. -/
theorem Returned.caller {s' : State σ} (hreturned : Returned S (enter pc s) s') :
    ∀ r ∈ calleeSaved, s'.regs r = s.regs r := by
  intro r hr
  have hne : r ≠ .rsp := by
    rintro rfl
    exact absurd hr (by decide)
  rw [hreturned.saved r hr, enter_regs hne]

/-- Calling a function of the program that does what a computation has come to. -/
theorem Follows.callee {l : L} (n : Nat) {w : α → World σ} {result : α → Word → Prop}
    (hcall : P[pc]? = some (.call l)) (ht : target P l = n) (hpc : pc + 1 < 2 ^ 64)
    (f : Frame S entry h ws s)
    (hroom : S.floor + 8 * (ws.length + 1) ≤ (entry.regs .rsp).toNat)
    (hbody : Follows P host ends (fun a => Returns S (enter pc s) (w a) (result a)) x
      (.running n (enter pc s) calls))
    (hk : ∀ a s', Frame S entry (w a).heap ws s' →
      (∀ r ∈ calleeSaved, s'.regs r = s.regs r) → result a (s'.regs .rax) →
        Follows P host ends Q (k a) (.running (pc + 1) s' (w a).calls)) :
    Follows P host ends Q (x >>= k) (.running pc s calls) := by
  refine .call n hcall ht (.bind hbody ?_)
  rintro a c ⟨s', rfl, hreturned, hheap, hresult⟩
  have haddress : (enter pc s).top.toNat = pc + 1 := by
    rw [State.top, enter, State.push_mem, State.push_rsp, Mem.read_write, BitVec.toNat_ofNat,
      Nat.mod_eq_of_lt hpc]
  rw [haddress]
  exact hk a s' (f.returned hroom hreturned hheap) hreturned.caller hresult

/-- Calling an outside function through a register. -/
theorem Follows.callback {r : Reg} {h' : Heap σ} (hcall : P[pc]? = some (.callReg r))
    (f : Frame S entry h ws s)
    (hroom : S.floor + 8 * (ws.length + 1) ≤ (entry.regs .rsp).toNat)
    (hreturned : Returned S (enter pc s) (host.func (s.regs r) (enter pc s)))
    (hheap : S.view (host.func (s.regs r) (enter pc s)) = h')
    (hk : ∀ s', host.func (s.regs r) (enter pc s) = s' → Frame S entry h' ws s' →
      (∀ r ∈ calleeSaved, s'.regs r = s.regs r) →
        Follows P host ends Q y (.running (pc + 1) s' (calls ++ [s.regs .rdi]))) :
    Follows P host ends Q y (.running pc s calls) :=
  .next hcall (hk _ rfl (f.returned hroom hreturned hheap) hreturned.caller)

/-- Calling an outside function by its name. -/
theorem Follows.symbol {f : X} {h' : Heap σ} (hcall : P[pc]? = some (.callSymbol f))
    (hframe : Frame S entry h ws s)
    (hroom : S.floor + 8 * (ws.length + 1) ≤ (entry.regs .rsp).toNat)
    (hreturned : Returned S (enter pc s) (host.symbol f (enter pc s)))
    (hheap : S.view (host.symbol f (enter pc s)) = h')
    (hk : ∀ s', host.symbol f (enter pc s) = s' → Frame S entry h' ws s' →
      (∀ r ∈ calleeSaved, s'.regs r = s.regs r) →
        Follows P host ends Q y (.running (pc + 1) s' calls)) :
    Follows P host ends Q y (.running pc s calls) :=
  .next hcall (hk _ rfl (hframe.returned hroom hreturned hheap) hreturned.caller)

end Calls

end X86
