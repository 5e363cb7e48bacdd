import Mathlib.Data.List.Infix

/-!
# Searching in a text

`find pat s` is where `pat` occurs first in `s`, as `std::string::find` has it: the empty text occurs
everywhere. It is the least place whose rest begins with `pat` (`find_eq_some_iff`).
-/

set_option autoImplicit false

namespace Primitives.Lib

variable {α : Type} [DecidableEq α] {pat s : List α} {i : Nat}

/-- The first place where `pat` occurs. -/
def find (pat : List α) : List α → Option Nat
  | [] => if pat = [] then some 0 else none
  | c :: s => if pat <+: c :: s then some 0 else (find pat s).map (· + 1)

/-- **The first place**: the rest begins with `pat` there, and nowhere before. -/
theorem find_eq_some_iff :
    find pat s = some i ↔ i ≤ s.length ∧ pat <+: s.drop i ∧ ∀ j < i, ¬ pat <+: s.drop j := by
  induction s generalizing i with
  | nil =>
    rw [find]
    by_cases h : pat = []
    · rw [if_pos h]
      constructor
      · intro hi
        cases hi
        refine ⟨Nat.le_refl 0, ?_, fun j hj => absurd hj (Nat.not_lt_zero j)⟩
        rw [h]
        exact List.nil_prefix
      · intro hi
        rw [Nat.le_zero.mp hi.1]
    · rw [if_neg h]
      refine iff_of_false (by simp) ?_
      rintro ⟨-, hpre, -⟩
      rw [List.drop_nil] at hpre
      exact h (List.prefix_nil.mp hpre)
  | cons c s ih =>
    rw [find]
    by_cases h : pat <+: c :: s
    · rw [if_pos h]
      constructor
      · intro hi
        cases hi
        exact ⟨Nat.zero_le _, h, fun j hj => absurd hj (Nat.not_lt_zero j)⟩
      · rintro ⟨-, -, hfirst⟩
        cases i with
        | zero => rfl
        | succ i => exact absurd h (hfirst 0 i.succ_pos)
    · rw [if_neg h, Option.map_eq_some_iff]
      constructor
      · rintro ⟨j, hj, rfl⟩
        obtain ⟨hle, hpre, hfirst⟩ := ih.mp hj
        refine ⟨Nat.succ_le_succ hle, hpre, ?_⟩
        intro k hk
        cases k with
        | zero => exact h
        | succ k => exact hfirst k (Nat.lt_of_succ_lt_succ hk)
      · rintro ⟨hle, hpre, hfirst⟩
        cases i with
        | zero => exact absurd hpre h
        | succ i =>
          refine ⟨i, ih.mpr ⟨Nat.le_of_succ_le_succ hle, hpre, ?_⟩, rfl⟩
          intro k hk
          exact hfirst (k + 1) (Nat.succ_lt_succ hk)

theorem find_eq_none_iff : find pat s = none ↔ ∀ j ≤ s.length, ¬ pat <+: s.drop j := by
  constructor
  · intro h j
    -- the least place where it occurs would be found
    induction j using Nat.strongRecOn with
    | ind j ih =>
      intro hj hpre
      have hfirst : ∀ k < j, ¬ pat <+: s.drop k := fun k hk => ih k hk (hk.le.trans hj)
      rw [find_eq_some_iff.mpr ⟨hj, hpre, hfirst⟩] at h
      cases h
  · intro h
    cases hi : find pat s with
    | none => rfl
    | some i =>
      obtain ⟨hle, hpre, -⟩ := find_eq_some_iff.mp hi
      exact absurd hpre (h i hle)

theorem find_eq_zero_iff : find pat s = some 0 ↔ pat <+: s := by
  rw [find_eq_some_iff]
  constructor
  · exact fun h => h.2.1
  · exact fun h => ⟨Nat.zero_le _, h, fun j hj => absurd hj (Nat.not_lt_zero j)⟩

theorem find_isNone_iff : (find pat s).isNone = true ↔ ¬ pat <:+: s := by
  rw [Option.isNone_iff_eq_none, find_eq_none_iff]
  constructor
  · rintro h ⟨l, r, rfl⟩
    refine h l.length ?_ ?_
    · simp only [List.length_append]
      omega
    · rw [List.append_assoc, List.drop_left]
      exact List.prefix_append pat r
  · intro h j _ hpre
    exact h (hpre.isInfix.trans (List.drop_suffix j s).isInfix)

end Primitives.Lib
