import Mathlib.Logic.Relation

/-!
# Runs of a labelled step function

A system is a function `step : σ → α → Option σ`: in a state, an action either cannot be taken
or leads to one state. `Run step ok s t` says that `t` is reached from `s` by actions each of
which is taken in a state where `ok` allows it, so a condition on the steps of a run is the
`ok` of the run, and a run without one is `Reachable`.

`Run.invariant` is the one induction over runs. `run_of_exec` is its executable side: a list of
actions is run by evaluation.
-/

set_option autoImplicit false

namespace Primitives.Lib

variable {σ α : Type} {step : σ → α → Option σ}

/-- The states reached from `s` by steps taken where `ok` holds. -/
inductive Run (step : σ → α → Option σ) (ok : σ → α → Prop) (s : σ) : σ → Prop
  | refl : Run step ok s s
  | tail {t u : σ} {a : α} : Run step ok s t → ok t a → step t a = some u → Run step ok s u

/-- The states reached from `s`. -/
abbrev Reachable (step : σ → α → Option σ) (s : σ) : σ → Prop := Run step (fun _ _ => True) s

/-- **What holds at the start and is kept by every allowed step holds in every state of a
run.** -/
theorem Run.invariant {ok : σ → α → Prop} {s t : σ} (h : Run step ok s t) {inv : σ → Prop}
    (hinit : inv s)
    (hstep : ∀ {t u : σ} {a : α}, inv t → ok t a → step t a = some u → inv u) : inv t := by
  induction h with
  | refl => exact hinit
  | tail _ hok hs ih => exact hstep ih hok hs

theorem Run.mono {ok ok' : σ → α → Prop} {s t : σ} (h : Run step ok s t)
    (hle : ∀ {t : σ} {a : α}, ok t a → ok' t a) : Run step ok' s t := by
  induction h with
  | refl => exact .refl
  | tail _ hok hs ih => exact .tail ih (hle hok) hs

theorem Run.reachable {ok : σ → α → Prop} {s t : σ} (h : Run step ok s t) : Reachable step s t :=
  h.mono fun _ => trivial

theorem Run.trans {ok : σ → α → Prop} {s t u : σ} (h : Run step ok s t) (h' : Run step ok t u) :
    Run step ok s u := by
  induction h' with
  | refl => exact h
  | tail _ hok hs ih => exact .tail ih hok hs

/-- A run that begins with a step. -/
theorem Run.head {ok : σ → α → Prop} {s t u : σ} {a : α} (hok : ok s a) (hs : step s a = some t)
    (h : Run step ok t u) : Run step ok s u := Run.trans (.tail .refl hok hs) h

/-- The state after the actions, if each can be taken and `ok` allows it. -/
def exec (step : σ → α → Option σ) (ok : σ → α → Bool) : σ → List α → Option σ
  | s, [] => some s
  | s, a :: as =>
    if ok s a then
      match step s a with
      | none => none
      | some t => exec step ok t as
    else none

theorem run_of_exec {ok : σ → α → Bool} {as : List α} :
    ∀ {s t : σ}, exec step ok s as = some t → Run step (fun s a => ok s a = true) s t := by
  have hrun : ∀ {s t u : σ}, Run step (fun s a => ok s a = true) s t →
      exec step ok t as = some u → Run step (fun s a => ok s a = true) s u := by
    induction as with
    | nil =>
      intro s t u hr he
      cases he
      exact hr
    | cons a as ih =>
      intro s t u hr he
      rw [exec] at he
      split at he
      · split at he
        · cases he
        · exact ih (hr.tail ‹_› ‹_›) he
      · cases he
  intro s t he
  exact hrun .refl he

/-- A state with a property that can be tested, reached by actions that can be run. -/
theorem exists_run_of_exec (step : σ → α → Option σ) (ok : σ → α → Bool) (s : σ) (as : List α)
    (p : σ → Bool) (h : (exec step ok s as).any p = true) :
    ∃ t, Run step (fun s a => ok s a = true) s t ∧ p t = true := by
  obtain ⟨t, he, hp⟩ := (Option.any_eq_true p _).mp h
  exact ⟨t, run_of_exec he, hp⟩

/-- The same for a run, an action, and a run from there on. -/
theorem exists_runs_of_exec (step : σ → α → Option σ) (ok ok' : σ → α → Bool) (s : σ)
    (as : List α) (a : α) (as' : List α) (p : σ → σ → Bool)
    (h : ((exec step ok s as).any fun t => (step t a).any fun u =>
      (exec step ok' u as').any (p t)) = true) :
    ∃ t u v, Run step (fun s a => ok s a = true) s t ∧ step t a = some u ∧
      Run step (fun s a => ok' s a = true) u v ∧ p t v = true := by
  obtain ⟨t, hrun, hu⟩ := exists_run_of_exec step ok s as _ h
  obtain ⟨u, hu, hv⟩ := (Option.any_eq_true _ _).mp hu
  obtain ⟨v, hrun', hp⟩ := exists_run_of_exec step ok' u as' (p t) hv
  exact ⟨t, u, v, hrun, hu, hrun', hp⟩

end Primitives.Lib
