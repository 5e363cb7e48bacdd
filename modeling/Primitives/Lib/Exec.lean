import Mathlib.Order.Basic

/-!
# Programs with a state that may throw

A program on a state returns a value or throws, and leaves a state either way, so an exception does not
undo what was done before it. `Ends` gives a program two postconditions: one for the value that it
returns, and one for what it throws. Both come with the state that is left.
-/

set_option autoImplicit false

namespace Primitives.Lib

/-- A program on states `σ`. -/
def Exec (ε σ α : Type) := σ → Except ε α × σ

namespace Exec

variable {ε σ α β : Type}

instance monad : Monad (Exec ε σ) where
  pure a := fun s => (.ok a, s)
  bind x f := fun s =>
    match x s with
    | (.ok a, t) => f a t
    | (.error e, t) => (.error e, t)

def throw (e : ε) : Exec ε σ α := fun s => (.error e, s)

/-- The state, or a part of it. -/
def gets (g : σ → α) : Exec ε σ α := fun s => (.ok (g s), s)

def put (s : σ) : Exec ε σ Unit := fun _ => (.ok (), s)

def ofExcept : Except ε α → Exec ε σ α
  | .ok a => pure a
  | .error e => throw e

/-- Every end of the program: `q` holds where it returns, and `r` where it throws. -/
structure Ends (x : Exec ε σ α) (s : σ) (q : α → σ → Prop) (r : ε → σ → Prop) : Prop where
  ok : ∀ a t, x s = (.ok a, t) → q a t
  error : ∀ e t, x s = (.error e, t) → r e t

variable {x : Exec ε σ α} {f : α → Exec ε σ β} {s : σ} {q q' : α → σ → Prop} {p : β → σ → Prop}
  {r r' : ε → σ → Prop}

theorem Ends.pure {a : α} (h : q a s) : Ends (Pure.pure a : Exec ε σ α) s q r := by
  refine ⟨fun b t hb => ?_, fun e t he => ?_⟩
  · cases hb
    exact h
  · cases he

theorem Ends.throw {e : ε} (h : r e s) : Ends (Exec.throw e : Exec ε σ α) s q r := by
  refine ⟨fun b t hb => ?_, fun e' t he => ?_⟩
  · cases hb
  · cases he
    exact h

theorem Ends.gets {g : σ → α} (h : q (g s) s) : Ends (Exec.gets g : Exec ε σ α) s q r := by
  refine ⟨fun b t hb => ?_, fun e t he => ?_⟩
  · cases hb
    exact h
  · cases he

theorem Ends.put {t : σ} {q : Unit → σ → Prop} (h : q () t) : Ends (Exec.put t : Exec ε σ Unit) s q r := by
  refine ⟨fun b u hb => ?_, fun e u he => ?_⟩
  · cases hb
    exact h
  · cases he

theorem bind_of_ok {a : α} {t : σ} (h : x s = (.ok a, t)) : (x >>= f) s = f a t := by
  simp only [Bind.bind, h]

theorem bind_of_error {e : ε} {t : σ} (h : x s = (.error e, t)) : (x >>= f) s = (.error e, t) := by
  simp only [Bind.bind, h]

/-- **One program after another**: what the first throws is thrown. -/
theorem Ends.bind (hx : Ends x s q r) (hf : ∀ a t, q a t → Ends (f a) t p r) :
    Ends (x >>= f) s p r := by
  cases h : x s with
  | mk res t =>
    cases res with
    | ok a =>
      have hfa := hf a t (hx.ok a t h)
      refine ⟨fun b u hb => hfa.ok b u ?_, fun e u he => hfa.error e u ?_⟩
      · rwa [bind_of_ok h] at hb
      · rwa [bind_of_ok h] at he
    | error e =>
      refine ⟨fun b u hb => ?_, fun e' u he => ?_⟩
      · rw [bind_of_error h] at hb
        cases hb
      · rw [bind_of_error h] at he
        cases he
        exact hx.error e t h

theorem Ends.mono (h : Ends x s q r) (hq : ∀ a t, q a t → q' a t) (hr : ∀ e t, r e t → r' e t) :
    Ends x s q' r' :=
  ⟨fun a t ha => hq a t (h.ok a t ha), fun e t he => hr e t (h.error e t he)⟩

/-- A program that does not return where `q` never holds throws. -/
theorem Ends.throws (h : Ends x s q r) (hno : ∀ a t, ¬ q a t) : ∃ e t, x s = (.error e, t) ∧ r e t := by
  cases hx : x s with
  | mk res t =>
    cases res with
    | ok a => exact absurd (h.ok a t hx) (hno a t)
    | error e => exact ⟨e, t, rfl, h.error e t hx⟩

end Exec

end Primitives.Lib
