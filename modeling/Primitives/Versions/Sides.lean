import Primitives.Versions.Order
import Mathlib.Data.Bool.Basic
import Mathlib.Order.BoundedOrder.Basic

/-!
# The sides of a pair

A `Side` is a version and whether the relation to it is strong, and is ordered as that tuple. As
the left side of a pair it stands for a cut of the keys below or above its version, and so it
does as the right side, but there a strong relation is the lower cut (`Side.left`,
`Side.right`). The order of the tuples is the order of the left cuts. It is the order of the
right cuts only where two sides with one version have one relation: where they do not, they
`Clash`.
-/

set_option autoImplicit false

namespace Primitives.Versions

structure Side where
  v : Version
  strong : Bool
deriving DecidableEq, Repr

/-- `std::max`: the first of two that are equal. -/
def stdMax {α : Type} (less : α → α → Bool) (a b : α) : α := if less a b then b else a

/-- `std::min`: the first of two that are equal. -/
def stdMin {α : Type} (less : α → α → Bool) (a b : α) : α := if less b a then b else a

theorem stdMax_cases {α : Type} (less : α → α → Bool) (a b : α) :
    stdMax less a b = a ∨ stdMax less a b = b := by
  unfold stdMax
  split
  · exact .inr rfl
  · exact .inl rfl

theorem stdMin_cases {α : Type} (less : α → α → Bool) (a b : α) :
    stdMin less a b = a ∨ stdMin less a b = b := by
  unfold stdMin
  split
  · exact .inr rfl
  · exact .inl rfl

namespace Side

/-- `operator<(const Side &)`: the order of the tuple, `false` before `true`. -/
def lt (l r : Side) : Bool :=
  if l.v.lt r.v then true
  else if r.v.lt l.v then false
  else !l.strong && r.strong

/-- `operator==`. -/
def eq (l r : Side) : Bool := l.v.eq r.v && l.strong == r.strong

/-- `operator<(const Version &)`. -/
def ltVersion (s : Side) (v : Version) : Bool := if s.strong then s.v.lt v else s.v.le v

/-- `operator>(const Version &)`. -/
def gtVersion (s : Side) (v : Version) : Bool := if s.strong then s.v.gt v else s.v.ge v

end Side

/-! ## Cuts -/

/-- A place below or above a key. -/
abbrev Cut : Type := Key ×ₗ Bool

/-- The cut below a version. -/
def Version.cut (v : Version) : Cut := toLex (v.key, false)

namespace Side

def left (s : Side) : Cut := toLex (s.v.key, s.strong)

def right (s : Side) : Cut := toLex (s.v.key, !s.strong)

theorem ltVersion_iff (s : Side) (v : Version) : s.ltVersion v = true ↔ s.left ≤ v.cut := by
  rw [ltVersion, left, Version.cut, Prod.Lex.toLex_le_toLex]
  cases s.strong
  · simp [le_iff_lt_or_eq]
  · simp

theorem gtVersion_iff (s : Side) (v : Version) : s.gtVersion v = true ↔ v.cut < s.right := by
  rw [gtVersion, right, Version.cut, Prod.Lex.toLex_lt_toLex]
  cases s.strong
  · simp [le_iff_lt_or_eq]
  · simp

theorem lt_iff (l r : Side) : l.lt r = true ↔ l.left < r.left := by
  rw [lt, left, left, Prod.Lex.toLex_lt_toLex]
  split
  · rename_i h
    simp [(Version.lt_iff _ _).mp h]
  · rename_i h
    rw [Version.lt_iff] at h
    split
    · rename_i h'
      have hne := ((Version.lt_iff _ _).mp h').ne'
      simp [h, hne]
    · rename_i h'
      rw [Version.lt_iff] at h'
      have heq := le_antisymm (not_lt.mp h') (not_lt.mp h)
      simp [heq, Bool.lt_iff]

theorem eq_iff (l r : Side) : l.eq r = true ↔ l.left = r.left := by
  simp [eq, left]

theorem left_stdMax (l r : Side) : (stdMax lt l r).left = max l.left r.left := by
  unfold stdMax
  split
  · rename_i h
    exact (max_eq_right ((lt_iff l r).mp h).le).symm
  · rename_i h
    rw [lt_iff] at h
    exact (max_eq_left (not_lt.mp h)).symm

theorem left_stdMin (l r : Side) : (stdMin lt l r).left = min l.left r.left := by
  unfold stdMin
  split
  · rename_i h
    exact (min_eq_right ((lt_iff r l).mp h).le).symm
  · rename_i h
    rw [lt_iff] at h
    exact (min_eq_left (not_lt.mp h)).symm

/-- Where two sides are one left cut they are one right cut. -/
theorem right_congr {l r : Side} (h : l.left = r.left) : l.right = r.right := by
  rw [left, left, toLex_inj, Prod.mk.injEq] at h
  rw [right, right, h.1, h.2]

theorem key_le_of_left_le {l r : Side} (h : l.left ≤ r.left) : l.v.key ≤ r.v.key := by
  rw [left, left, Prod.Lex.toLex_le_toLex] at h
  exact h.elim le_of_lt fun h => h.1.le

theorem key_le_of_left_le_right {l r : Side} (h : l.left ≤ r.right) : l.v.key ≤ r.v.key := by
  rw [left, right, Prod.Lex.toLex_le_toLex] at h
  exact h.elim le_of_lt fun h => h.1.le

/-- One version, and two relations. -/
def Clash (l r : Side) : Prop := l.v.eq r.v = true ∧ l.strong ≠ r.strong

instance (l r : Side) : Decidable (Clash l r) := inferInstanceAs (Decidable (_ ∧ _))

theorem Clash.symm {l r : Side} (h : Clash l r) : Clash r l := by
  refine ⟨?_, h.2.symm⟩
  rw [Version.eq_iff]
  exact ((Version.eq_iff _ _).mp h.1).symm

/-- Without a clash the order of the tuples is that of the right cuts. -/
theorem lt_iff_right {l r : Side} (h : ¬ Clash l r) : l.lt r = true ↔ l.right < r.right := by
  rw [lt_iff, left, left, right, right, Prod.Lex.toLex_lt_toLex, Prod.Lex.toLex_lt_toLex]
  refine or_congr Iff.rfl (and_congr_right fun heq => ?_)
  have hs : l.strong = r.strong := by
    by_contra hne
    exact h ⟨(Version.eq_iff _ _).mpr heq, hne⟩
  simp [hs]

theorem right_stdMax {l r : Side} (h : ¬ Clash l r) :
    (stdMax lt l r).right = max l.right r.right := by
  unfold stdMax
  split
  · rename_i hlt
    exact (max_eq_right ((lt_iff_right h).mp hlt).le).symm
  · rename_i hlt
    rw [lt_iff_right h] at hlt
    exact (max_eq_left (not_lt.mp hlt)).symm

theorem right_stdMin {l r : Side} (h : ¬ Clash l r) :
    (stdMin lt l r).right = min l.right r.right := by
  have h' : ¬ Clash r l := fun hc => h hc.symm
  unfold stdMin
  split
  · rename_i hlt
    exact (min_eq_right ((lt_iff_right h').mp hlt).le).symm
  · rename_i hlt
    rw [lt_iff_right h'] at hlt
    exact (min_eq_left (not_lt.mp hlt)).symm

/-- Of two sides that clash the maximum is the lower right cut. -/
theorem Clash.right_stdMax {l r : Side} (h : Clash l r) : (stdMax lt l r).right = l.v.cut := by
  obtain ⟨heq, hne⟩ := h
  rw [Version.eq_iff] at heq
  unfold stdMax
  split
  · rename_i hlt
    rw [lt_iff, left, left, Prod.Lex.toLex_lt_toLex, Bool.lt_iff] at hlt
    have hs : r.strong = true := by simpa [heq] using hlt.imp_right fun h => h.2.2
    rw [right, Version.cut, heq, hs]
    rfl
  · rename_i hlt
    have hs : l.strong = true := by
      rw [lt_iff, left, left, Prod.Lex.toLex_lt_toLex, Bool.lt_iff] at hlt
      by_contra hl
      have hl' : l.strong = false := Bool.eq_false_iff.mpr hl
      have hr : r.strong = true := by
        by_contra hr
        exact hne (hl'.trans (Bool.eq_false_iff.mpr hr).symm)
      exact hlt (.inr ⟨heq, hl', hr⟩)
    rw [right, Version.cut, hs]
    rfl

/-- And the minimum is the upper one. -/
theorem Clash.right_stdMin {l r : Side} (h : Clash l r) :
    (stdMin lt l r).right = toLex (l.v.key, true) := by
  obtain ⟨heq, hne⟩ := h
  rw [Version.eq_iff] at heq
  unfold stdMin
  split
  · rename_i hlt
    rw [lt_iff, left, left, Prod.Lex.toLex_lt_toLex, Bool.lt_iff] at hlt
    have hs : r.strong = false := by simpa [heq] using hlt.imp_right fun h => h.2.1
    rw [right, heq, hs]
    rfl
  · rename_i hlt
    have hs : l.strong = false := by
      rw [lt_iff, left, left, Prod.Lex.toLex_lt_toLex, Bool.lt_iff] at hlt
      by_contra hl
      have hl' : l.strong = true := Bool.eq_true_of_not_eq_false hl
      have hr : r.strong = false := by
        by_contra hr
        exact hne (hl'.trans (Bool.eq_true_of_not_eq_false hr).symm)
      exact hlt (.inr ⟨heq.symm, hr, hl'⟩)
    rw [right, hs]
    rfl

/-- A side to the left of another holds versions between them, or is one version with it. -/
theorem left_lt_right_iff (l r : Side) : l.left < r.right ↔
    l.v.lt r.v = true ∨ l.v.eq r.v = true ∧ l.strong = false ∧ r.strong = false := by
  rw [left, right, Prod.Lex.toLex_lt_toLex, Version.lt_iff, Version.eq_iff]
  refine or_congr Iff.rfl (and_congr_right fun _ => ?_)
  cases l.strong <;> cases r.strong <;> simp

theorem left_le_right_iff (l r : Side) : l.left ≤ r.right ↔
    l.v.lt r.v = true ∨ l.v.eq r.v = true ∧ (l.strong = false ∨ r.strong = false) := by
  rw [left, right, Prod.Lex.toLex_le_toLex, Version.lt_iff, Version.eq_iff]
  refine or_congr Iff.rfl (and_congr_right fun _ => ?_)
  cases l.strong <;> cases r.strong <;> simp

end Side

end Primitives.Versions
