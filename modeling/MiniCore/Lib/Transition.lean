/-!
# MiniCore.Lib.Transition

Systems that move by a partial step function `step : σ → α → Option σ`: an
action either is not enabled in a state or leads to exactly one next state, so
all nondeterminism (who moves, which allocation fails) sits in the action.

`Reach step ok s₀` collects the states that a run from `s₀` can get to when
every step of it meets the side condition `ok`; the plain notion is
`Reach step Always s₀`.  The induction over runs is done once, in
`Reach.invariant`: a safety theorem is then an initial goal and a step goal.
This module depends only on the Lean 4 core library.
-/

namespace MiniCore.Lib

variable {σ α : Type}

/-- The side condition that every step meets. -/
def Always (_ : σ) (_ : α) : Prop := True

/-- The states a run from `s₀` reaches when all of its steps meet `ok`. -/
inductive Reach (step : σ → α → Option σ) (ok : σ → α → Prop) (s₀ : σ) : σ → Prop
  | refl : Reach step ok s₀ s₀
  | tail {s s' : σ} {a : α} : Reach step ok s₀ s → ok s a → step s a = some s' →
      Reach step ok s₀ s'

/-- Run a list of actions, stopping at the first one that is not enabled. -/
def runSteps (step : σ → α → Option σ) : σ → List α → Option σ
  | s, [] => some s
  | s, a :: as => (step s a).bind fun s' => runSteps step s' as

variable {step : σ → α → Option σ} {ok : σ → α → Prop} {s₀ : σ}

/-- **Invariant rule**: what holds initially and is kept by every step that
meets the side condition holds in every reachable state. -/
theorem Reach.invariant {I : σ → Prop} (h0 : I s₀)
    (hstep : ∀ s a s', I s → ok s a → step s a = some s' → I s') {s : σ}
    (h : Reach step ok s₀ s) : I s := by
  induction h with
  | refl => exact h0
  | tail _ hok hs ih => exact hstep _ _ _ ih hok hs

/-- Runs under a stronger side condition are runs under a weaker one. -/
theorem Reach.mono {ok' : σ → α → Prop} (hle : ∀ s a, ok s a → ok' s a) {s : σ}
    (h : Reach step ok s₀ s) : Reach step ok' s₀ s := by
  induction h with
  | refl => exact .refl
  | tail _ hok hs ih => exact .tail ih (hle _ _ hok) hs

/-- Runs compose. -/
theorem Reach.trans {s s' : σ} (h : Reach step ok s₀ s) (h' : Reach step ok s s') :
    Reach step ok s₀ s' := by
  induction h' with
  | refl => exact h
  | tail _ hok hs ih => exact .tail ih hok hs

/-- A list of actions that runs to the end is a run. -/
theorem Reach.of_runSteps {s s' : σ} {as : List α} (h : runSteps step s as = some s')
    (hok : ∀ a ∈ as, ∀ s, ok s a) : Reach step ok s s' := by
  induction as generalizing s with
  | nil =>
    cases h
    exact .refl
  | cons a as ih =>
    rw [runSteps, Option.bind_eq_some_iff] at h
    obtain ⟨u, hu, hrun⟩ := h
    exact Reach.trans (.tail .refl (hok a List.mem_cons_self s) hu)
      (ih hrun fun b hb => hok b (List.mem_cons_of_mem _ hb))

theorem runSteps_append {s : σ} {as bs : List α} :
    runSteps step s (as ++ bs) = (runSteps step s as).bind fun s' => runSteps step s' bs := by
  induction as generalizing s with
  | nil => rfl
  | cons a as ih =>
    rw [List.cons_append, runSteps, runSteps, Option.bind_assoc]
    exact Option.bind_congr fun u _ => ih

/-- **Simulation rule**: where related states take related steps, they take related
runs: both stop at the same action, or both get to the end. -/
theorem runSteps_rel {τ : Type} {step' : τ → α → Option τ} {R : σ → τ → Prop}
    (hstep : ∀ s t a, R s t → Option.Rel R (step s a) (step' t a)) {s : σ} {t : τ} (h : R s t)
    (as : List α) : Option.Rel R (runSteps step s as) (runSteps step' t as) := by
  induction as generalizing s t with
  | nil => exact .some h
  | cons a as ih =>
    have h' := hstep s t a h
    rw [runSteps, runSteps]
    generalize step s a = u, step' t a = v at h' ⊢
    cases h' with
    | none => exact .none
    | some h' => exact ih h'

/-- The steps that meet a decidable side condition. -/
def guarded (step : σ → α → Option σ) (ok : σ → α → Prop) [∀ s a, Decidable (ok s a)] (s : σ)
    (a : α) : Option σ :=
  if ok s a then step s a else none

/-- A list of actions that runs to the end with every step meeting the side
condition is a run under it. -/
theorem Reach.of_guarded [∀ s a, Decidable (ok s a)] {s s' : σ} {as : List α}
    (h : runSteps (guarded step ok) s as = some s') : Reach step ok s s' := by
  induction as generalizing s with
  | nil =>
    cases h
    exact .refl
  | cons a as ih =>
    rw [runSteps, Option.bind_eq_some_iff] at h
    obtain ⟨u, hu, hrun⟩ := h
    simp only [guarded, Option.ite_none_right_eq_some] at hu
    exact Reach.trans (.tail .refl hu.1 hu.2) (ih hrun)

end MiniCore.Lib
