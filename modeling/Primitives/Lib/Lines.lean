import Mathlib.Data.List.Basic

/-!
# Lines

Lines without a newline in them are known from the text that they are written as, each with a newline
behind it.
-/

set_option autoImplicit false

namespace Primitives.Lib

/-- What stands before a character's first occurrence, and what stands behind it. -/
theorem append_cons_inj {α : Type} {c : α} {x y r r' : List α} (hx : c ∉ x) (hy : c ∉ y)
    (h : x ++ c :: r = y ++ c :: r') : x = y ∧ r = r' := by
  induction x generalizing y with
  | nil =>
    cases y with
    | nil => exact ⟨rfl, (List.cons.inj h).2⟩
    | cons d y =>
      have hd := (List.cons.inj h).1
      exact absurd (hd ▸ List.mem_cons_self) hy
  | cons a x ih =>
    cases y with
    | nil =>
      have ha := (List.cons.inj h).1
      exact absurd (ha ▸ List.mem_cons_self) hx
    | cons d y =>
      obtain ⟨hd, htail⟩ := List.cons.inj h
      obtain ⟨hxy, hr⟩ :=
        ih (fun hc => hx (List.mem_cons_of_mem _ hc)) (fun hc => hy (List.mem_cons_of_mem _ hc)) htail
      exact ⟨congrArg₂ _ hd hxy, hr⟩

/-- The text of some lines. -/
def unlines (ls : List (List Char)) : List Char := ls.flatMap (· ++ ['\n'])

theorem unlines_cons (l : List Char) (ls : List (List Char)) : unlines (l :: ls) = l ++ '\n' :: unlines ls := by
  rw [unlines, List.flatMap_cons, List.append_assoc]
  rfl

theorem unlines_inj {ls : List (List Char)} : ∀ {ls' : List (List Char)}, (∀ l ∈ ls, '\n' ∉ l) →
    (∀ l ∈ ls', '\n' ∉ l) → unlines ls = unlines ls' → ls = ls' := by
  induction ls with
  | nil =>
    intro ls' _ _ h
    cases ls' with
    | nil => rfl
    | cons l' ls' =>
      rw [unlines_cons] at h
      exact absurd h.symm (List.append_ne_nil_of_right_ne_nil _ (List.cons_ne_nil _ _))
  | cons l ls ih =>
    intro ls' hls hls' h
    cases ls' with
    | nil =>
      rw [unlines_cons] at h
      exact absurd h (List.append_ne_nil_of_right_ne_nil _ (List.cons_ne_nil _ _))
    | cons l' ls' =>
      rw [unlines_cons, unlines_cons] at h
      obtain ⟨hl, hrest⟩ := append_cons_inj (hls l List.mem_cons_self) (hls' l' List.mem_cons_self) h
      rw [hl, ih (fun x hx => hls x (List.mem_cons_of_mem _ hx))
        (fun x hx => hls' x (List.mem_cons_of_mem _ hx)) hrest]

end Primitives.Lib
