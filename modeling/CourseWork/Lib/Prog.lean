import Mathlib.Logic.Basic

/-!
# Programs over a state that may stop

Programs over a state `σ` that return a value or stop for a reason `ε`, and Hoare
triples for them. The last assertion of a triple holds where a program stops.
-/

/-- A program over the state `σ` that returns an `α` or stops with an `ε`. -/
def Prog (ε σ α : Type) := σ → Except ε α × σ

namespace Prog

variable {ε σ τ α β : Type}

instance : Monad (Prog ε σ) where
  pure a := fun s => (.ok a, s)
  bind p f := fun s =>
    match p s with
    | (.ok a, s) => f a s
    | (.error e, s) => (.error e, s)

/-- Stops. -/
def stop (e : ε) : Prog ε σ α := fun s => (.error e, s)

/-- Reads the state. -/
def get : Prog ε σ σ := fun s => (.ok s, s)

/-- Updates the state. -/
def modify (f : σ → σ) : Prog ε σ Unit := fun s => (.ok (), f s)

/-- Runs a program on a part of the state. -/
def zoom (part : τ → σ) (put : σ → τ → τ) (p : Prog ε σ α) : Prog ε τ α := fun t =>
  let (r, s) := p (part t)
  (r, put s t)

/-- What follows a program that has returned. -/
theorem bind_ok {p : Prog ε σ α} {s s' : σ} {a : α} (h : p s = (.ok a, s'))
    (f : α → Prog ε σ β) : (p >>= f) s = f a s' := by
  show (match p s with
    | (.ok a, s) => f a s
    | (.error e, s) => (.error e, s)) = f a s'
  rw [h]

/-- What follows a program that has stopped. -/
theorem bind_error {p : Prog ε σ α} {s s' : σ} {e : ε} (h : p s = (.error e, s'))
    (f : α → Prog ε σ β) : (p >>= f) s = (.error e, s') := by
  show (match p s with
    | (.ok a, s) => f a s
    | (.error e, s) => (.error e, s)) = (.error e, s')
  rw [h]

/-! ## Triples -/

/-- From a state with `P`, the program returns with `Q` or stops with `E`. -/
def Triple (P : σ → Prop) (p : Prog ε σ α) (Q : α → σ → Prop) (E : σ → Prop) : Prop :=
  ∀ s, P s →
    match p s with
    | (.ok a, s') => Q a s'
    | (.error _, s') => E s'

namespace Triple

variable {P P' : σ → Prop} {p : Prog ε σ α} {Q Q' : α → σ → Prop} {E E' : σ → Prop}

theorem pure {a : α} (h : ∀ s, P s → Q a s) : Triple P (Pure.pure a : Prog ε σ α) Q E := h

theorem bind {f : α → Prog ε σ β} {R : β → σ → Prop} (hp : Triple P p Q E)
    (hf : ∀ a, Triple (Q a) (f a) R E) : Triple P (p >>= f) R E := by
  intro s hs
  have h := hp s hs
  show match (match p s with
    | (.ok a, s) => f a s
    | (.error e, s) => (.error e, s) : Except ε β × σ) with
    | (.ok a, s') => R a s'
    | (.error _, s') => E s'
  generalize p s = r at h
  obtain ⟨r, s'⟩ := r
  cases r with
  | ok a => exact hf a s' h
  | error e => exact h

theorem conseq (h : Triple P p Q E) (hP : ∀ s, P' s → P s) (hQ : ∀ a s, Q a s → Q' a s)
    (hE : ∀ s, E s → E' s) : Triple P' p Q' E' := by
  intro s hs
  have h := h s (hP s hs)
  generalize p s = r at h ⊢
  obtain ⟨r, s'⟩ := r
  cases r with
  | ok a => exact hQ a s' h
  | error e => exact hE s' h

theorem pre (h : Triple P p Q E) (hP : ∀ s, P' s → P s) : Triple P' p Q E :=
  h.conseq hP (fun _ _ h => h) (fun _ h => h)

theorem post (h : Triple P p Q E) (hQ : ∀ a s, Q a s → Q' a s) : Triple P p Q' E :=
  h.conseq (fun _ h => h) hQ (fun _ h => h)

theorem stop {e : ε} (h : ∀ s, P s → E s) : Triple P (Prog.stop e : Prog ε σ α) Q E := h

theorem get {Q : σ → σ → Prop} (h : ∀ s, P s → Q s s) :
    Triple P (Prog.get : Prog ε σ σ) Q E := h

theorem modify {f : σ → σ} {Q : Unit → σ → Prop} (h : ∀ s, P s → Q () (f s)) :
    Triple P (Prog.modify f : Prog ε σ Unit) Q E := h

theorem ite {c : Prop} [Decidable c] {q : Prog ε σ α} (hp : c → Triple P p Q E)
    (hq : ¬c → Triple P q Q E) : Triple P (if c then p else q) Q E := by
  split
  · next h => exact hp h
  · next h => exact hq h

/-- Any program, with assertions that always hold. -/
theorem of_true (hQ : ∀ a s, Q a s) (hE : ∀ s, E s) : Triple P p Q E := by
  intro s _
  generalize p s = r
  obtain ⟨r, s'⟩ := r
  cases r with
  | ok a => exact hQ a s'
  | error e => exact hE s'

/-- A triple for each single state. -/
theorem of_eq (h : ∀ s, P s → Triple (· = s) p Q E) : Triple P p Q E :=
  fun s hs => h s hs s rfl

/-- A fact that does not depend on the state. -/
theorem assume {φ : Prop} (h : φ → Triple P p Q E) : Triple (fun s => φ ∧ P s) p Q E :=
  fun s hs => h hs.1 s hs.2

/-- What a program on a part of the state does to the whole. -/
theorem zoom {part : τ → σ} {put : σ → τ → τ} {P : τ → Prop} {Q : α → τ → Prop} {E : τ → Prop}
    (h : ∀ t, P t → Triple (· = part t) p (fun a s => Q a (put s t)) (fun s => E (put s t))) :
    Triple P (Prog.zoom part put p) Q E := by
  intro t ht
  have h := h t ht (part t) rfl
  unfold Prog.zoom
  generalize p (part t) = r at h ⊢
  obtain ⟨r, s'⟩ := r
  cases r with
  | ok a => exact h
  | error e => exact h

end Triple

end Prog
