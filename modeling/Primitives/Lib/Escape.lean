import Mathlib.Algebra.Ring.Parity
import Mathlib.Data.List.DropRight

/-!
# Escaping

Some elements of a list, the escaping one among them, get an escaping one before them. What is escaped
can be read from left to right (`unescape_escape`), and an element that must be escaped stands behind an
odd run of escaping ones, so that its escape is not an escaped one itself (`odd_run_of_escape`).
-/

set_option autoImplicit false

namespace Primitives.Lib

variable {α : Type}

/-- What is written for one element. -/
def escapeOne (e : α) (special : α → Bool) (c : α) : List α := if special c then [e, c] else [c]

def escape (e : α) (special : α → Bool) (s : List α) : List α := s.flatMap (escapeOne e special)

theorem escape_cons (e : α) (special : α → Bool) (c : α) (s : List α) :
    escape e special (c :: s) = escapeOne e special c ++ escape e special s := List.flatMap_cons

theorem escape_append (e : α) (special : α → Bool) (s t : List α) :
    escape e special (s ++ t) = escape e special s ++ escape e special t := List.flatMap_append

variable [DecidableEq α]

/-- Each escape and what it escapes, from left to right, by what it escapes. -/
def unescape (e : α) (special : α → Bool) : List α → List α
  | [] => []
  | [c] => [c]
  | c :: d :: s =>
    if c = e ∧ special d = true then d :: unescape e special s else c :: unescape e special (d :: s)

variable {e : α} {special : α → Bool}

theorem unescape_cons_of_ne {c : α} (h : c ≠ e) (s : List α) :
    unescape e special (c :: s) = c :: unescape e special s := by
  cases s with
  | nil => rfl
  | cons d s =>
    rw [unescape, if_neg]
    rintro ⟨rfl, -⟩
    exact h rfl

/-- **What is escaped is read back.** -/
theorem unescape_escape (he : special e = true) (s : List α) :
    unescape e special (escape e special s) = s := by
  induction s with
  | nil => rfl
  | cons c s ih =>
    rw [escape_cons, escapeOne]
    split
    · rename_i hc
      rw [List.cons_append, List.singleton_append, unescape, if_pos ⟨rfl, hc⟩, ih]
    · rename_i hc
      have hne : c ≠ e := by
        rintro rfl
        exact hc he
      rw [List.singleton_append, unescape_cons_of_ne hne, ih]

/-! ## Runs of escapes -/

/-- How many escaping elements the list ends with. -/
def run (e : α) (s : List α) : Nat := (s.rtakeWhile (· = e)).length

theorem run_concat_of_ne {c : α} (h : c ≠ e) (s : List α) : run e (s ++ [c]) = 0 := by
  rw [run, List.rtakeWhile_concat_neg _ _ _ (by simpa using h)]
  rfl

theorem run_concat_self (e : α) (s : List α) : run e (s ++ [e]) = run e s + 1 := by
  rw [run, List.rtakeWhile_concat_pos _ _ _ (by simp), List.length_append]
  rfl

/-- A run does not go over an element of another kind. -/
theorem run_cons_of_ne {c : α} (h : c ≠ e) (s : List α) : run e (c :: s) = run e s := by
  induction s using List.reverseRecOn with
  | nil => exact run_concat_of_ne h []
  | append_singleton s d ih =>
    rw [← List.cons_append]
    by_cases hd : d = e
    · subst hd
      rw [run_concat_self, run_concat_self, ih]
    · rw [run_concat_of_ne hd, run_concat_of_ne hd]

/-- Whole escapes end in an even run. -/
theorem even_run_escape (he : special e = true) (s : List α) : Even (run e (escape e special s)) := by
  induction s using List.reverseRecOn with
  | nil => exact Even.zero
  | append_singleton s c ih =>
    have hlast : escape e special (s ++ [c]) = escape e special s ++ escapeOne e special c := by
      rw [escape_append, escape_cons]
      exact congrArg _ (List.append_nil _)
    rw [hlast, escapeOne]
    by_cases hc : c = e
    · subst hc
      rw [if_pos he, show ∀ t : List α, t ++ [c, c] = (t ++ [c]) ++ [c] from fun t => by simp,
        run_concat_self, run_concat_self]
      exact ih.add even_two
    · split
      · rw [show ∀ t : List α, t ++ [e, c] = (t ++ [e]) ++ [c] from fun t => by simp,
          run_concat_of_ne hc]
        exact Even.zero
      · rw [run_concat_of_ne hc]
        exact Even.zero

omit [DecidableEq α] in
/-- An element that must be escaped is found behind its escape. -/
theorem exists_of_escape_eq {q : α} (hq : special q = true) (hne : q ≠ e) {s l r : List α}
    (h : escape e special s = l ++ q :: r) : ∃ t, l = escape e special t ++ [e] := by
  induction s generalizing l with
  | nil => exact absurd h.symm (by simp [escape])
  | cons c s ih =>
    rw [escape_cons, escapeOne] at h
    split at h
    · rename_i hc
      rw [List.cons_append, List.singleton_append] at h
      cases l with
      | nil =>
        rw [List.nil_append, List.cons.injEq] at h
        exact absurd h.1.symm hne
      | cons a l =>
        rw [List.cons_append, List.cons.injEq] at h
        obtain ⟨rfl, h⟩ := h
        cases l with
        | nil => exact ⟨[], rfl⟩
        | cons b l =>
          rw [List.cons_append, List.cons.injEq] at h
          obtain ⟨rfl, h⟩ := h
          obtain ⟨t, rfl⟩ := ih h
          refine ⟨c :: t, ?_⟩
          rw [escape_cons, escapeOne, if_pos hc]
          rfl
    · rename_i hc
      rw [List.singleton_append] at h
      cases l with
      | nil =>
        rw [List.nil_append, List.cons.injEq] at h
        exact absurd (h.1 ▸ hq) hc
      | cons a l =>
        rw [List.cons_append, List.cons.injEq] at h
        obtain ⟨rfl, h⟩ := h
        obtain ⟨t, rfl⟩ := ih h
        refine ⟨c :: t, ?_⟩
        rw [escape_cons, escapeOne, if_neg hc]
        rfl

/-- **An element that must be escaped** stands behind an odd run of escapes. -/
theorem odd_run_of_escape (he : special e = true) {q : α} (hq : special q = true) (hne : q ≠ e)
    {s l r : List α} (h : escape e special s = l ++ q :: r) : Odd (run e l) := by
  obtain ⟨t, rfl⟩ := exists_of_escape_eq hq hne h
  rw [run_concat_self]
  exact (even_run_escape he t).add_one

end Primitives.Lib
