import Mathlib.Logic.Function.Basic

/-!
# Tables that refer to each other

Handles that are given out for objects, each with a cell of its own, and the cells with the
handle that they belong to. Opening a handle takes a free cell, closing it frees the cell; in
between the two tables are inverse to each other, so that no handle refers to a free cell and
no cell is left without its handle.
-/

namespace Handles

variable {η κ π δ : Type}

theorem update_eq_some {α : Type} [DecidableEq η] {f : η → Option α} {a x : η} {v : Option α} {y : α} :
    Function.update f a v x = some y ↔ (x = a ∧ v = some y) ∨ (x ≠ a ∧ f x = some y) := by
  rcases eq_or_ne x a with rfl | hne
  · simp
  · simp [hne]

/-- A handle has its object and its cell, a cell its handle and its data. -/
structure Paired (handles : η → Option (κ × π)) (cells : π → Option (η × δ)) : Prop where
  known : ∀ {fd k p}, handles fd = some (k, p) → ∃ data, cells p = some (fd, data)
  owned : ∀ {p fd data}, cells p = some (fd, data) → ∃ k, handles fd = some (k, p)
  /-- No object has two handles. -/
  one : ∀ {fd fd' k p p'}, handles fd = some (k, p) → handles fd' = some (k, p') → fd = fd'

section Paired

variable {handles : η → Option (κ × π)} {cells : π → Option (η × δ)} {fd fd' : η} {k k' : κ}
  {p p' : π} {data : δ}

theorem Paired.none :
    Paired (fun _ => none : η → Option (κ × π)) (fun _ => none : π → Option (η × δ)) :=
  ⟨nofun, nofun, nofun⟩

/-- The object and the cell of a handle are those of no other handle. -/
theorem Paired.unique (h : Paired handles cells) (hfd : handles fd = some (k, p))
    (hfd' : handles fd' = some (k', p')) (hsame : k = k' ∨ p = p') :
    fd = fd' ∧ k = k' ∧ p = p' := by
  have heq : fd = fd' := by
    rcases hsame with rfl | rfl
    · exact h.one hfd hfd'
    · obtain ⟨data, hp⟩ := h.known hfd
      obtain ⟨data', hp'⟩ := h.known hfd'
      exact congrArg Prod.fst (Option.some.inj (hp.symm.trans hp'))
  subst heq
  exact ⟨rfl, Prod.mk.inj (Option.some.inj (hfd.symm.trans hfd'))⟩

variable [DecidableEq η] [DecidableEq π]

/-- A new handle, for an object that has none and with a free cell. -/
theorem Paired.open (h : Paired handles cells) (hfd : handles fd = Option.none)
    (hp : cells p = Option.none) (hk : ∀ fd' p', handles fd' ≠ some (k, p')) (data : δ) :
    Paired (Function.update handles fd (some (k, p)))
      (Function.update cells p (some (fd, data))) := by
  have hcell : ∀ {p' x}, cells p' = some x → p' ≠ p := by
    rintro p' x hx rfl
    rw [hp] at hx
    exact nomatch hx
  have hhandle : ∀ {fd' x}, handles fd' = some x → fd' ≠ fd := by
    rintro fd' x hx rfl
    rw [hfd] at hx
    exact nomatch hx
  refine ⟨fun {fd' k' p'} hfd' => ?_, fun {p' fd' data'} hp' => ?_,
    fun {fd1 fd2 k' p1 p2} h1 h2 => ?_⟩
  · rcases update_eq_some.mp hfd' with ⟨rfl, heq⟩ | ⟨_, hold⟩
    · cases heq
      exact ⟨data, Function.update_self _ _ _⟩
    · obtain ⟨data', hp'⟩ := h.known hold
      exact ⟨data', (Function.update_of_ne (hcell hp') _ _).trans hp'⟩
  · rcases update_eq_some.mp hp' with ⟨rfl, heq⟩ | ⟨_, hold⟩
    · cases heq
      exact ⟨k, Function.update_self _ _ _⟩
    · obtain ⟨k', hfd'⟩ := h.owned hold
      exact ⟨k', (Function.update_of_ne (hhandle hfd') _ _).trans hfd'⟩
  · rcases update_eq_some.mp h1 with ⟨rfl, heq⟩ | ⟨_, hold1⟩
    · cases heq
      rcases update_eq_some.mp h2 with ⟨rfl, _⟩ | ⟨_, hold2⟩
      · rfl
      · exact absurd hold2 (hk _ _)
    · rcases update_eq_some.mp h2 with ⟨rfl, heq⟩ | ⟨_, hold2⟩
      · cases heq
        exact absurd hold1 (hk _ _)
      · exact h.one hold1 hold2

/-- A handle is closed and its cell freed. -/
theorem Paired.close (h : Paired handles cells) (hfd : handles fd = some (k, p)) :
    Paired (Function.update handles fd Option.none) (Function.update cells p Option.none) := by
  refine ⟨fun {fd' k' p'} hfd' => ?_, fun {p' fd' data'} hp' => ?_,
    fun {fd1 fd2 k' p1 p2} h1 h2 => ?_⟩
  · obtain ⟨hne, hold⟩ := (update_eq_some.mp hfd').resolve_left fun heq => nomatch heq.2
    obtain ⟨data', hp'⟩ := h.known hold
    refine ⟨data', (Function.update_of_ne ?_ _ _).trans hp'⟩
    rintro rfl
    exact hne (h.unique hold hfd (.inr rfl)).1
  · obtain ⟨hne, hold⟩ := (update_eq_some.mp hp').resolve_left fun heq => nomatch heq.2
    obtain ⟨k', hfd'⟩ := h.owned hold
    refine ⟨k', (Function.update_of_ne ?_ _ _).trans hfd'⟩
    rintro rfl
    exact hne (congrArg Prod.snd (Option.some.inj (hfd'.symm.trans hfd)))
  · obtain ⟨_, hold1⟩ := (update_eq_some.mp h1).resolve_left fun heq => nomatch heq.2
    obtain ⟨_, hold2⟩ := (update_eq_some.mp h2).resolve_left fun heq => nomatch heq.2
    exact h.one hold1 hold2

omit [DecidableEq η] in
/-- The data of a cell change. -/
theorem Paired.write (h : Paired handles cells) (hfd : handles fd = some (k, p)) (data : δ) :
    Paired handles (Function.update cells p (some (fd, data))) := by
  refine ⟨fun {fd' k' p'} hfd' => ?_, fun {p' fd' data'} hp' => ?_, h.one⟩
  · rcases eq_or_ne p' p with rfl | hne
    · obtain ⟨rfl, _⟩ := h.unique hfd' hfd (.inr rfl)
      exact ⟨data, Function.update_self _ _ _⟩
    · obtain ⟨data', hp'⟩ := h.known hfd'
      exact ⟨data', (Function.update_of_ne hne _ _).trans hp'⟩
  · rcases update_eq_some.mp hp' with ⟨rfl, heq⟩ | ⟨_, hold⟩
    · cases heq
      exact ⟨k, hfd⟩
    · exact h.owned hold

end Paired

end Handles
