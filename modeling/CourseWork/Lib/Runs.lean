/-!
# Runs

Runs of step functions that answer each operation, with simulation between two of them,
and runs of a labelled transition relation, with the states before the steps.
-/

namespace Runs

section Functions

variable {α β σ τ : Type}

/-- The answers and the last state of a sequence of operations; `none` if one of them has
none. -/
def answers (step : α → σ → Option (β × σ)) : List α → σ → Option (List β × σ)
  | [], s => some ([], s)
  | a :: as, s => do
    let (b, s) ← step a s
    let (bs, s) ← answers step as s
    return (b :: bs, s)

/-- The answers and the last state of operations that always have one. -/
def totalAnswers (step : α → τ → β × τ) : List α → τ → List β × τ
  | [], t => ([], t)
  | a :: as, t =>
    let (b, t) := step a t
    let (bs, t) := totalAnswers step as t
    (b :: bs, t)

/-- If related states give the same answers and related states, related states give the
same answers to every sequence. -/
theorem answers_simulation {step : α → σ → Option (β × σ)} {spec : α → τ → β × τ}
    {R : σ → τ → Prop}
    (h : ∀ a s t, R s t → ∃ s', step a s = some ((spec a t).1, s') ∧ R s' (spec a t).2) :
    ∀ (as : List α) {s : σ} {t : τ}, R s t →
      ∃ s', answers step as s = some ((totalAnswers spec as t).1, s') ∧
        R s' (totalAnswers spec as t).2
  | [], s, _, hR => ⟨s, rfl, hR⟩
  | a :: as, s, t, hR => by
    obtain ⟨s1, hstep, hR1⟩ := h a s t hR
    obtain ⟨s', hrest, hR'⟩ := answers_simulation h as hR1
    refine ⟨s', ?_, hR'⟩
    rw [answers, hstep]
    simp only [Option.bind_eq_bind, Option.bind_some, hrest]
    rfl

/-- An invariant of the steps holds at the end of a run. -/
theorem answers_invariant {step : α → σ → Option (β × σ)} {I : σ → Prop}
    (h : ∀ a s b s', I s → step a s = some (b, s') → I s') :
    ∀ (as : List α) {s : σ} {bs : List β} {s' : σ}, I s → answers step as s = some (bs, s') → I s'
  | [], _, _, _, hI, hrun => by
    cases hrun
    exact hI
  | a :: as, s, _, _, hI, hrun => by
    obtain ⟨⟨b, s1⟩, hstep, hrun⟩ := Option.bind_eq_some_iff.mp hrun
    obtain ⟨⟨bs, s2⟩, hrest, hrun⟩ := Option.bind_eq_some_iff.mp hrun
    cases hrun
    exact answers_invariant h as (h a s b s1 hI hstep) hrest

/-- A watcher of the calls that accepts those of each step, and goes on to a state that fits
the one after the step, accepts those of a run. -/
theorem answers_watched {γ : Type} {step : α → σ → Option (List γ × σ)} {watch : τ → γ → Option τ}
    {I : τ → σ → Prop}
    (h : ∀ a s t calls s', I t s → step a s = some (calls, s') →
      ∃ t', calls.foldlM watch t = some t' ∧ I t' s') :
    ∀ (as : List α) {s : σ} {t : τ} {calls : List (List γ)} {s' : σ}, I t s →
      answers step as s = some (calls, s') →
      ∃ t', calls.flatten.foldlM watch t = some t' ∧ I t' s'
  | [], _, t, _, _, hI, hrun => by
    cases hrun
    exact ⟨t, rfl, hI⟩
  | a :: as, s, t, _, _, hI, hrun => by
    obtain ⟨⟨first, s1⟩, hstep, hrun⟩ := Option.bind_eq_some_iff.mp hrun
    obtain ⟨⟨rest, s2⟩, hrest, hrun⟩ := Option.bind_eq_some_iff.mp hrun
    cases hrun
    obtain ⟨t1, hfirst, hI1⟩ := h a s t first s1 hI hstep
    obtain ⟨t', hwatch, hI'⟩ := answers_watched h as hI1 hrest
    refine ⟨t', ?_, hI'⟩
    rw [List.flatten_cons, List.foldlM_append, hfirst]
    exact hwatch

/-- A part of accepted calls is accepted from some state on. -/
theorem watched_infix {γ : Type} {watch : τ → γ → Option τ} {t t' : τ} {calls part : List γ}
    (h : calls.foldlM watch t = some t') (hpart : part <:+: calls) :
    ∃ t1 t2, part.foldlM watch t1 = some t2 := by
  obtain ⟨before, after, rfl⟩ := hpart
  rw [List.append_assoc, List.foldlM_append] at h
  obtain ⟨t1, _, h⟩ := Option.bind_eq_some_iff.mp h
  rw [List.foldlM_append] at h
  obtain ⟨t2, hmid, _⟩ := Option.bind_eq_some_iff.mp h
  exact ⟨t1, t2, hmid⟩

end Functions

section Relations

variable {α σ : Type}

/-- A run from `start` to a state. The steps are given by the states before them and their
labels, the latest first. -/
inductive Run (step : σ → α → σ → Prop) (start : σ) : List (σ × α) → σ → Prop
  | nil : Run step start [] start
  | cons {trace : List (σ × α)} {s s' : σ} {a : α} :
      Run step start trace s → step s a s' → Run step start ((s, a) :: trace) s'

/-- Each step of a run is as `C` says of the state before it and its label. -/
def Steps (C : σ → α → Prop) (trace : List (σ × α)) : Prop := ∀ x ∈ trace, C x.1 x.2

/-- Each state of a run is as `P` says. -/
def Always (P : σ → Prop) (trace : List (σ × α)) (s : σ) : Prop := P s ∧ ∀ x ∈ trace, P x.1

variable {step : σ → α → σ → Prop} {start s : σ} {trace : List (σ × α)}

theorem Steps.cons {C : σ → α → Prop} {x : σ × α} (h : Steps C (x :: trace)) :
    C x.1 x.2 ∧ Steps C trace := List.forall_mem_cons.mp h

/-- An invariant holds at the end of every run whose steps are as `C` says. -/
theorem Run.invariant {I : σ → Prop} {C : σ → α → Prop} (hrun : Run step start trace s)
    (hstart : I start) (hstep : ∀ s a s', I s → C s a → step s a s' → I s')
    (hsteps : Steps C trace) : I s := by
  induction hrun with
  | nil => exact hstart
  | cons _ ha ih =>
    obtain ⟨hC, hsteps⟩ := hsteps.cons
    exact hstep _ _ _ (ih hsteps) hC ha

/-- It holds in all states of the run. -/
theorem Run.always {I : σ → Prop} {C : σ → α → Prop} (hrun : Run step start trace s)
    (hstart : I start) (hstep : ∀ s a s', I s → C s a → step s a s' → I s')
    (hsteps : Steps C trace) : Always I trace s := by
  refine ⟨hrun.invariant hstart hstep hsteps, ?_⟩
  induction hrun with
  | nil => exact nofun
  | cons hrun ha ih =>
    obtain ⟨_, hsteps⟩ := hsteps.cons
    exact List.forall_mem_cons.mpr ⟨hrun.invariant hstart hstep hsteps, ih hsteps⟩

theorem always_cons {P : σ → Prop} {s' : σ} {a : α} :
    Always P ((s, a) :: trace) s' ↔ P s' ∧ Always P trace s := by
  rw [Always, Always, List.forall_mem_cons]

theorem steps_cons {C : σ → α → Prop} {a : α} :
    Steps C ((s, a) :: trace) ↔ C s a ∧ Steps C trace := List.forall_mem_cons

/-- If each step from a good state leads to a good one exactly if `C` says so, a run has only
good states exactly if all its steps are as `C` says. -/
theorem Run.always_iff {I P : σ → Prop} {C : σ → α → Prop} (hrun : Run step start trace s)
    (hI : I start) (hP : P start)
    (h : ∀ s a s', I s → P s → step s a s' → I s' ∧ (P s' ↔ C s a)) :
    Always P trace s ↔ Steps C trace := by
  have hboth : (Always P trace s ↔ Steps C trace) ∧ (Always P trace s → I s) := by
    induction hrun with
    | nil => exact ⟨⟨fun _ => nofun, fun _ => ⟨hP, nofun⟩⟩, fun _ => hI⟩
    | cons _ ha ih =>
      obtain ⟨hiff, hinv⟩ := ih
      rw [always_cons, steps_cons, ← hiff]
      refine ⟨⟨?_, ?_⟩, ?_⟩
      · rintro ⟨hP', halways⟩
        exact ⟨(h _ _ _ (hinv halways) halways.1 ha).2.mp hP', halways⟩
      · rintro ⟨hC, halways⟩
        exact ⟨(h _ _ _ (hinv halways) halways.1 ha).2.mpr hC, halways⟩
      · rintro ⟨_, halways⟩
        exact (h _ _ _ (hinv halways) halways.1 ha).1
  exact hboth.1

/-- The state after the actions, if each can be taken. -/
def exec (next : σ → α → Option σ) : List α → σ → Option σ
  | [], s => some s
  | a :: as, s => (next s a).bind (exec next as)

theorem exec_append (next : σ → α → Option σ) (as bs : List α) (s : σ) :
    exec next (as ++ bs) s = (exec next as s).bind (exec next bs) := by
  induction as generalizing s with
  | nil => rfl
  | cons a as ih =>
    rw [List.cons_append, exec, exec, Option.bind_assoc]
    exact congrArg _ (funext ih)

theorem Run.exec {next : σ → α → Option σ} :
    ∀ {as : List α} {trace : List (σ × α)} {s s' : σ},
      Run (fun s a s' => next s a = some s') start trace s → exec next as s = some s' →
        ∃ trace', Run (fun s a s' => next s a = some s') start trace' s'
  | [], trace, _, _, hrun, hexec => ⟨trace, Option.some.inj hexec ▸ hrun⟩
  | _ :: _, _, _, _, hrun, hexec => by
    obtain ⟨s1, hstep, hrest⟩ := Option.bind_eq_some_iff.mp hexec
    exact (hrun.cons hstep).exec hrest

/-- A run of actions that each pass a test where they are taken. -/
theorem Run.exec_checked {next : σ → α → Option σ} {check : σ → α → Bool} :
    ∀ {as : List α} {trace : List (σ × α)} {s s' : σ},
      Run (fun s a s' => next s a = some s') start trace s → Steps (fun s a => check s a) trace →
        Runs.exec (fun s a => if check s a then next s a else none) as s = some s' →
          ∃ later, later.map Prod.snd = as.reverse ∧
            Run (fun s a s' => next s a = some s') start (later ++ trace) s' ∧
            Steps (fun s a => check s a) (later ++ trace)
  | [], _, _, _, hrun, hsteps, hexec => ⟨[], rfl, Option.some.inj hexec ▸ hrun, hsteps⟩
  | a :: as, trace, s, _, hrun, hsteps, hexec => by
    obtain ⟨s1, hstep, hrest⟩ := Option.bind_eq_some_iff.mp hexec
    dsimp only at hstep
    split at hstep
    · next hcheck =>
      obtain ⟨later, hlabels, hrun', hsteps'⟩ :=
        (hrun.cons hstep).exec_checked (List.forall_mem_cons.mpr ⟨hcheck, hsteps⟩) hrest
      refine ⟨later ++ [(s, a)], ?_, ?_⟩
      · rw [List.map_append, hlabels, List.reverse_cons]
        rfl
      · rw [List.append_assoc]
        exact ⟨hrun', hsteps'⟩
    · cases hstep

theorem Always.mono {P Q : σ → Prop} (h : ∀ s, P s → Q s) (halways : Always P trace s) :
    Always Q trace s := ⟨h _ halways.1, fun x hx => h _ (halways.2 x hx)⟩

end Relations

end Runs
