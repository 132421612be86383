import CourseWork.Lib.CallFrame

/-!
# The list functions of main.c

`add_element`, `m` and `f` of the C program over the heap. `malloc` and the functions it is
given are parameters. An access to memory that is kept for the stack is undefined.
-/

namespace CourseWork.Asm

open X86

/-- What the program does not define: `malloc`, the functions at the addresses it is
given, and which values they accept when they are used as predicates. -/
structure Env (σ : Type) where
  malloc : Heap σ → Word → Word × Heap σ
  func : Word → Heap σ → Word → Heap σ
  accepts : Word → Heap σ → Word → Bool

/-- Why a run does not return. -/
inductive Stop
  | abort
  | undefined
  | outOfFuel
  deriving DecidableEq

section Program

variable {σ : Type} (S : Stack) (env : Env σ)

def load (w : World σ) (a : Word) : Except Stop Word :=
  if S.Off a 8 then .ok (w.heap.bytes.read a) else .error .undefined

def store (w : World σ) (a v : Word) : Except Stop (World σ) :=
  if S.Off a 8 then .ok { w with heap := w.heap.write a v } else .error .undefined

/-- `func(value)`. -/
def call (func value : Word) (w : World σ) : World σ :=
  ⟨env.func func w.heap value, w.calls ++ [value]⟩

def addElement (next data : Word) (w : World σ) : Except Stop (Word × World σ) := do
  let (node, heap) := env.malloc w.heap 16
  if node ≠ 0 then
    let w ← store S { w with heap } node data
    let w ← store S w (node + 8) next
    return (node, w)
  else throw .abort

/-- The recursion on `list->next`, for at most as many nodes as the fuel allows. -/
def m (func : Word) : Nat → Word → World σ → Except Stop (World σ)
  | 0, _, _ => .error .outOfFuel
  | n + 1, list, w =>
    if list ≠ 0 then do
      let value ← load S w list
      let w := call env func value w
      let next ← load S w (list + 8)
      let w ← m func n next w
      return w
    else return w

/-- `if (func(list->value)) store = add_element(store, list->value);` -/
def filterNode (func list store : Word) (w : World σ) : Except Stop (Word × World σ) := do
  let value ← load S w list
  let accepted := env.accepts func w.heap value
  let w := call env func value w
  if accepted then
    let value ← load S w list
    let (store, w) ← addElement S env store value w
    return (store, w)
  else return (store, w)

def f (func : Word) : Nat → Word → Word → World σ → Except Stop (Word × World σ)
  | 0, _, _, _ => .error .outOfFuel
  | n + 1, list, store, w =>
    if list ≠ 0 then do
      let (store, w) ← filterNode S env func list store w
      let next ← load S w (list + 8)
      let (store, w) ← f func n next store w
      return (store, w)
    else return (store, w)

/-- What `f` does at a node. -/
theorem f_succ {func list store : Word} (n : Nat) (w : World σ) (hlist : list ≠ 0) :
    f S env func (n + 1) list store w = filterNode S env func list store w >>= fun r =>
      load S r.2 (list + 8) >>= fun next => f S env func n next r.1 r.2 := by
  rw [f, if_pos hlist]
  refine bind_congr fun r => bind_congr fun next => ?_
  exact bind_pure (f S env func n next r.1 r.2)

end Program

/-! ## Lists in the heap -/

section Lists

variable {σ τ : Type} {S : Stack} {env : Env σ} {kept : σ → Word → Prop}

/-- What is kept stays kept, with the same bytes. -/
def Keeps (kept : σ → Word → Prop) (h h' : Heap σ) : Prop :=
  ∀ a, kept h.env a → kept h'.env a ∧ h'.bytes a = h.bytes a

/-- The node at `p`, off the stack and in kept memory. -/
structure NodeAt (S : Stack) (kept : σ → Word → Prop) (h : Heap σ) (p : Word) : Prop where
  ne : p ≠ 0
  off : S.Off p 16
  kept : ∀ i < 16, kept h.env (p + BitVec.ofNat 64 i)

/-- The list from an address on has these values. -/
def ListAt (S : Stack) (kept : σ → Word → Prop) (h : Heap σ) : Word → List Word → Prop
  | p, [] => p = 0
  | p, v :: vs => NodeAt S kept h p ∧ h.bytes.read p = v ∧
      ListAt S kept h (h.bytes.read (p + 8)) vs

/-- What `malloc` promises: a block is off the stack and apart from what is kept, and is
kept from then on. -/
def Allocates (S : Stack) (env : Env σ) (kept : σ → Word → Prop) : Prop :=
  ∀ h, (env.malloc h 16).1 ≠ 0 →
    NodeAt S kept (env.malloc h 16).2 (env.malloc h 16).1 ∧
      (∀ i < 16, ¬kept h.env ((env.malloc h 16).1 + BitVec.ofNat 64 i)) ∧
        Keeps kept h (env.malloc h 16).2

/-- The function at an address keeps what is kept. -/
def Preserves (env : Env σ) (kept : σ → Word → Prop) (func : Word) : Prop :=
  ∀ h value, Keeps kept h (env.func func h value)

/-- The heap with a new node in a block of `malloc`. -/
def withNode (env : Env σ) (data next : Word) (h : Heap σ) : Heap σ :=
  ((env.malloc h 16).2.write (env.malloc h 16).1 data).write ((env.malloc h 16).1 + 8) next

/-- The predicate at an address decides by `verdict`, which has the state `view` shows; a
new node does not touch that state. -/
structure Decides (env : Env σ) (func : Word) (view : Heap σ → τ)
    (verdict : τ → Word → Bool × τ) : Prop where
  accepts : ∀ h value, env.accepts func h value = (verdict (view h) value).1
  after : ∀ h value, view (env.func func h value) = (verdict (view h) value).2
  node : ∀ h data next, (env.malloc h 16).1 ≠ 0 → view (withNode env data next h) = view h

/-- The values a predicate accepts, in the order in which it is asked. -/
def accepted (verdict : τ → Word → Bool × τ) : τ → List Word → List Word
  | _, [] => []
  | t, value :: values =>
    let (ok, t) := verdict t value
    if ok then value :: accepted verdict t values else accepted verdict t values

theorem Keeps.trans {h h' h'' : Heap σ} (h1 : Keeps kept h h') (h2 : Keeps kept h' h'') :
    Keeps kept h h'' := by
  intro a ha
  obtain ⟨ha', hbytes⟩ := h1 a ha
  obtain ⟨ha'', hbytes'⟩ := h2 a ha'
  exact ⟨ha'', hbytes'.trans hbytes⟩

namespace NodeAt

variable {h h' : Heap σ} {p : Word}

theorem off_value (n : NodeAt S kept h p) : S.Off p 8 := by
  obtain ⟨hfits, haway⟩ := n.off
  exact ⟨by omega, by omega⟩

theorem off_next (n : NodeAt S kept h p) : S.Off (p + 8) 8 := by
  obtain ⟨hfits, haway⟩ := n.off
  have hup : (p + 8).toNat = p.toNat + 8 := by bv_omega
  exact ⟨by omega, by omega⟩

theorem keeps (n : NodeAt S kept h p) (hk : Keeps kept h h') : NodeAt S kept h' p :=
  ⟨n.ne, n.off, fun i hi => (hk _ (n.kept i hi)).1⟩

theorem read_value (n : NodeAt S kept h p) (hk : Keeps kept h h') :
    h'.bytes.read p = h.bytes.read p :=
  Mem.read_congr fun i hi => (hk _ (n.kept i (by omega))).2

theorem read_next (n : NodeAt S kept h p) (hk : Keeps kept h h') :
    h'.bytes.read (p + 8) = h.bytes.read (p + 8) := by
  refine Mem.read_congr fun i hi => ?_
  have hshift : p + 8 + BitVec.ofNat 64 i = p + BitVec.ofNat 64 (i + 8) := by bv_omega
  rw [hshift]
  exact (hk _ (n.kept (i + 8) (by omega))).2

end NodeAt

theorem ListAt.keeps {h h' : Heap σ} (hk : Keeps kept h h') : ∀ {vs : List Word} {p : Word},
    ListAt S kept h p vs → ListAt S kept h' p vs
  | [], _, hp => hp
  | _ :: vs, p, ⟨node, hv, hnext⟩ => by
    refine ⟨node.keeps hk, (node.read_value hk).trans hv, ?_⟩
    rw [node.read_next hk]
    exact hnext.keeps hk

/-! ## What the functions do to lists -/

theorem load_off {w : World σ} {a : Word} (h : S.Off a 8) :
    load S w a = .ok (w.heap.bytes.read a) := if_pos h

theorem store_off {w : World σ} {a v : Word} (h : S.Off a 8) :
    store S w a v = .ok { w with heap := w.heap.write a v } := if_pos h

/-- Writing a node changes nothing apart from it. -/
theorem write_node_away {h : Heap σ} {p data next x : Word} (hp : S.Off p 16)
    (hx : ∀ i < 16, x ≠ p + BitVec.ofNat 64 i) :
    ((h.write p data).write (p + 8) next).bytes x = h.bytes x := by
  have hfits := hp.1
  have hoffset : ¬(x - p).toNat < 16 := by
    intro hlt
    refine hx (x - p).toNat hlt ?_
    rw [BitVec.ofNat_toNat, BitVec.setWidth_eq, BitVec.add_comm, BitVec.sub_add_cancel]
  show ((h.bytes.write p data).write (p + 8) next) x = h.bytes x
  rw [Mem.write_of_away (by bv_omega), Mem.write_of_away (by bv_omega)]

theorem read_node {h : Heap σ} {p : Word} (hp : S.Off p 16) (data next : Word) :
    ((h.write p data).write (p + 8) next).bytes.read p = data ∧
      ((h.write p data).write (p + 8) next).bytes.read (p + 8) = next := by
  have hfits := hp.1
  constructor
  · refine Eq.trans (Mem.read_congr fun i hi => ?_) (Mem.read_write h.bytes p data)
    exact Mem.write_of_away (by bv_omega)
  · exact Mem.read_write ..

/-- A new node keeps what is kept. -/
theorem Allocates.keeps (halloc : Allocates S env kept) {h : Heap σ}
    (hp : (env.malloc h 16).1 ≠ 0) (data next : Word) : Keeps kept h (withNode env data next h) := by
  obtain ⟨hnode, hfresh, hmalloc⟩ := halloc h hp
  intro a ha
  refine ⟨(hmalloc a ha).1, ?_⟩
  rw [withNode, write_node_away hnode.off, (hmalloc a ha).2]
  rintro i hi rfl
  exact hfresh i hi ha

/-- A new node is in front of the list. -/
theorem Allocates.cons (halloc : Allocates S env kept) {h : Heap σ}
    (hp : (env.malloc h 16).1 ≠ 0) (data : Word) {next : Word} {vs : List Word}
    (hlist : ListAt S kept h next vs) :
    ListAt S kept (withNode env data next h) (env.malloc h 16).1 (data :: vs) := by
  obtain ⟨hnode, -, -⟩ := halloc h hp
  obtain ⟨hvalue, hnext⟩ := read_node (h := (env.malloc h 16).2) hnode.off data next
  refine ⟨⟨hnode.ne, hnode.off, hnode.kept⟩, hvalue, ?_⟩
  rw [withNode, hnext]
  exact hlist.keeps (halloc.keeps hp data next)

/-- Where `malloc` fails, `add_element` aborts. -/
theorem addElement_abort {w : World σ} (hp : (env.malloc w.heap 16).1 = 0) (next data : Word) :
    addElement S env next data w = .error .abort := by
  simp only [addElement, hp, ne_eq, not_true_eq_false, if_false]
  rfl

theorem addElement_ok (halloc : Allocates S env kept) {w : World σ}
    (hp : (env.malloc w.heap 16).1 ≠ 0) (next data : Word) :
    addElement S env next data w
      = .ok ((env.malloc w.heap 16).1, ⟨withNode env data next w.heap, w.calls⟩) := by
  obtain ⟨hnode, -, -⟩ := halloc w.heap hp
  simp only [addElement, ne_eq, hp, not_false_eq_true, if_true, store_off hnode.off_value,
    store_off hnode.off_next, bind, Except.bind]
  rfl

/-- On a list that the function at the address keeps, `m` calls it on the values of the list,
first to last. -/
theorem m_calls {func : Word} (hfunc : Preserves env kept func) {vs : List Word} {list : Word}
    {w : World σ} (hlist : ListAt S kept w.heap list vs) :
    ∃ w', m S env func (vs.length + 1) list w = .ok w' ∧ w'.calls = w.calls ++ vs := by
  induction vs generalizing list w with
  | nil =>
    subst hlist
    exact ⟨w, rfl, (List.append_nil _).symm⟩
  | cons v vs ih =>
    obtain ⟨node, hv, hnext⟩ := hlist
    have hkeeps : Keeps kept w.heap (call env func v w).heap := hfunc w.heap v
    have hrest : ListAt S kept (call env func v w).heap
        ((call env func v w).heap.bytes.read (list + 8)) vs := by
      rw [node.read_next hkeeps]
      exact hnext.keeps hkeeps
    obtain ⟨w', hrun, hcalls⟩ := ih hrest
    refine ⟨w', ?_, ?_⟩
    · rw [List.length_cons, m, if_pos node.ne]
      simp only [load_off node.off_value, hv, load_off node.off_next, bind, Except.bind, hrun]
    · rw [hcalls, call, List.append_assoc]
      rfl

theorem filterNode_accepted {func list store : Word} {w w1 : World σ} (hoff : S.Off list 8)
    (hcall : call env func (w.heap.bytes.read list) w = w1)
    (hok : env.accepts func w.heap (w.heap.bytes.read list) = true) :
    filterNode S env func list store w
      = addElement S env store (w1.heap.bytes.read list) w1 := by
  rw [filterNode, load_off hoff]
  simp only [bind, Except.bind, hok, if_true, hcall, load_off hoff]
  cases addElement S env store (w1.heap.bytes.read list) w1 <;> rfl

theorem filterNode_rejected {func list store : Word} {w w1 : World σ} (hoff : S.Off list 8)
    (hcall : call env func (w.heap.bytes.read list) w = w1)
    (hok : env.accepts func w.heap (w.heap.bytes.read list) = false) :
    filterNode S env func list store w = .ok (store, w1) := by
  rw [filterNode, load_off hoff]
  simp only [bind, Except.bind, hok, Bool.false_eq_true, if_false, hcall]
  rfl

/-- What the test of one node comes to, on a list that the predicate keeps. -/
theorem filterNode_cases (halloc : Allocates S env kept) {func : Word}
    (hfunc : Preserves env kept func) {view : Heap σ → τ} {verdict : τ → Word → Bool × τ}
    (hdecides : Decides env func view verdict) {list store v : Word} {w : World σ}
    {ys : List Word} (node : NodeAt S kept w.heap list) (hv : w.heap.bytes.read list = v)
    (hstore : ListAt S kept w.heap store ys) :
    filterNode S env func list store w = .error .abort ∨
    ∃ store' w', filterNode S env func list store w = .ok (store', w') ∧
      Keeps kept w.heap w'.heap ∧ w'.calls = w.calls ++ [v] ∧
      view w'.heap = (verdict (view w.heap) v).2 ∧
      ListAt S kept w'.heap store' (if (verdict (view w.heap) v).1 then v :: ys else ys) := by
  obtain ⟨w1, hcall⟩ : ∃ w1, call env func (w.heap.bytes.read list) w = w1 := ⟨_, rfl⟩
  have hheap : w1.heap = env.func func w.heap v := by rw [← hcall, ← hv]; rfl
  have hcalls : w1.calls = w.calls ++ [v] := by rw [← hcall, ← hv]; rfl
  have hkeeps : Keeps kept w.heap w1.heap := hheap ▸ hfunc w.heap v
  have hview : view w1.heap = (verdict (view w.heap) v).2 := by
    rw [hheap, hdecides.after]
  have hstore1 := hstore.keeps hkeeps
  have haccepts := hdecides.accepts w.heap v
  rw [← hv] at haccepts
  cases hok : (verdict (view w.heap) v).1 with
  | false =>
    rw [filterNode_rejected node.off_value hcall (by rw [haccepts, hv, hok])]
    exact .inr ⟨store, w1, rfl, hkeeps, hcalls, hview, hstore1⟩
  | true =>
    rw [filterNode_accepted node.off_value hcall (by rw [haccepts, hv, hok]),
      node.read_value hkeeps, hv]
    by_cases hp : (env.malloc w1.heap 16).1 = 0
    · exact .inl (addElement_abort hp store v)
    · refine .inr ⟨_, _, addElement_ok halloc hp store v,
        hkeeps.trans (halloc.keeps hp v store), hcalls, ?_, halloc.cons hp v hstore1⟩
      rw [hdecides.node _ _ _ hp, hview]

/-- On a list that the predicate keeps, `f` asks it about the values of the list, first to
last, and pushes those it accepts in front of the accumulator, or else aborts. -/
theorem f_accepted (halloc : Allocates S env kept) {func : Word}
    (hfunc : Preserves env kept func) {view : Heap σ → τ} {verdict : τ → Word → Bool × τ}
    (hdecides : Decides env func view verdict) {vs : List Word} {list store : Word} {w : World σ}
    {ys : List Word} (hlist : ListAt S kept w.heap list vs)
    (hstore : ListAt S kept w.heap store ys) :
    f S env func (vs.length + 1) list store w = .error .abort ∨
    ∃ p w', f S env func (vs.length + 1) list store w = .ok (p, w') ∧
      w'.calls = w.calls ++ vs ∧
      ListAt S kept w'.heap p ((accepted verdict (view w.heap) vs).reverse ++ ys) := by
  induction vs generalizing list store w ys with
  | nil =>
    subst hlist
    exact .inr ⟨store, w, rfl, (List.append_nil _).symm, hstore⟩
  | cons v vs ih =>
    obtain ⟨node, hv, hnext⟩ := hlist
    rw [List.length_cons, f, if_pos node.ne]
    obtain habort | ⟨store1, w1, hfilter, hkeeps, hcalls, hview, hstore1⟩ :=
      filterNode_cases halloc hfunc hdecides node hv hstore
    · rw [habort]
      exact .inl rfl
    have hnext1 : ListAt S kept w1.heap (w1.heap.bytes.read (list + 8)) vs := by
      rw [node.read_next hkeeps]
      exact hnext.keeps hkeeps
    rw [hfilter]
    simp only [bind, Except.bind, load_off node.off_next]
    obtain habort | ⟨p, w', hrun, hcalls', hlist'⟩ := ih hnext1 hstore1
    · rw [habort]
      exact .inl rfl
    rw [hrun]
    refine .inr ⟨p, w', rfl, ?_, ?_⟩
    · rw [hcalls', hcalls, List.append_assoc]
      rfl
    · rw [hview] at hlist'
      rw [accepted]
      cases hok : (verdict (view w.heap) v).1 with
      | false => simpa [hok] using hlist'
      | true => simpa [hok] using hlist'

end Lists

end CourseWork.Asm
