import Mathlib.Algebra.BigOperators.Group.List.Basic
import Mathlib.Algebra.Ring.Nat
import Mathlib.Data.List.Forall2
import Mathlib.Order.Bounds.Defs
import Mathlib.Data.List.Lex

/-!
# Giving out

A number of equal things is given out to a row of takers. Each of them wants a least number of them and
takes no more than a greatest one, if it has one (`Slot`). There is a way if there are enough for the least
numbers, and what is over can be taken (`exists_allocation_iff`). One of the ways is to give the first taker
as much as the others leave it, then the second one, and so on (`greedy`): of all ways it is the greatest
one in the order of lists (`greedy_isGreatest`).
-/

set_option autoImplicit false

namespace Primitives.Lib

/-- A taker of at least `lo` things and at most `hi`. -/
structure Slot where
  lo : Nat
  hi : Option Nat
  le : ∀ h ∈ hi, lo ≤ h

namespace Slot

def Fits (b : Slot) (k : Nat) : Prop := b.lo ≤ k ∧ ∀ h ∈ b.hi, k ≤ h

/-- How many of `s` more things are taken. -/
def extra (b : Slot) (s : Nat) : Nat :=
  match b.hi with
  | none => s
  | some h => min (h - b.lo) s

theorem extra_le (b : Slot) (s : Nat) : b.extra s ≤ s := by
  rw [extra]
  split
  · exact Nat.le_refl s
  · exact Nat.min_le_right _ _

theorem fits_extra (b : Slot) (s : Nat) : b.Fits (b.lo + b.extra s) := by
  refine ⟨Nat.le_add_right _ _, fun h hh => ?_⟩
  have hle := b.le h hh
  rw [extra, hh]
  show b.lo + min (h - b.lo) s ≤ h
  omega

/-- No more than that can be taken. -/
theorem le_extra {b : Slot} {k s : Nat} (hk : b.Fits k) (hs : k ≤ b.lo + s) : k ≤ b.lo + b.extra s := by
  rw [extra]
  split
  · exact hs
  · rename_i h hh
    have hle := hk.2 h hh
    omega

/-- What is left is more if there was more. -/
theorem sub_extra_mono (b : Slot) {s t : Nat} (h : s ≤ t) : s - b.extra s ≤ t - b.extra t := by
  rw [extra, extra]
  split
  · omega
  · omega

end Slot

/-- The least numbers together. -/
def leastSum (l : List Slot) : Nat := (l.map Slot.lo).sum

/-- A way to give out `n` things. -/
structure Allocation (l : List Slot) (n : Nat) (sizes : List Nat) : Prop where
  fits : List.Forall₂ Slot.Fits l sizes
  sum : sizes.sum = n

/-- With `s` things over the least numbers, give out as many as possible to each in turn. -/
def greedy : List Slot → Nat → List Nat
  | [], _ => []
  | b :: l, s => (b.lo + b.extra s) :: greedy l (s - b.extra s)

/-- All of `s` things are taken. -/
def Enough : List Slot → Nat → Prop
  | [], s => s = 0
  | b :: l, s => Enough l (s - b.extra s)

theorem Enough.mono {l : List Slot} {s t : Nat} (h : Enough l t) (hst : s ≤ t) : Enough l s := by
  induction l generalizing s t with
  | nil =>
    have ht : t = 0 := h
    exact Nat.le_zero.mp (ht ▸ hst)
  | cons b l ih => exact ih h (b.sub_extra_mono hst)

theorem enough_zero (l : List Slot) : Enough l 0 := by
  induction l with
  | nil => rfl
  | cons b l ih =>
    rw [Enough, Nat.zero_sub]
    exact ih

theorem length_greedy (l : List Slot) (s : Nat) : (greedy l s).length = l.length := by
  induction l generalizing s with
  | nil => rfl
  | cons b l ih => rw [greedy, List.length_cons, List.length_cons, ih]

theorem greedy_fits (l : List Slot) (s : Nat) : List.Forall₂ Slot.Fits l (greedy l s) := by
  induction l generalizing s with
  | nil => exact .nil
  | cons b l ih => exact .cons (b.fits_extra s) (ih _)

theorem sum_greedy {l : List Slot} {s : Nat} (h : Enough l s) : (greedy l s).sum = leastSum l + s := by
  induction l generalizing s with
  | nil =>
    have hs : s = 0 := h
    rw [hs]
    rfl
  | cons b l ih =>
    have hle := b.extra_le s
    have hsum := ih h
    rw [greedy, List.sum_cons, hsum, leastSum, leastSum, List.map_cons, List.sum_cons]
    omega

theorem leastSum_le {l : List Slot} {sizes : List Nat} (h : List.Forall₂ Slot.Fits l sizes) :
    leastSum l ≤ sizes.sum := by
  induction h with
  | nil => exact Nat.le_refl 0
  | cons hk _ ih =>
    rw [leastSum, List.map_cons, List.sum_cons, List.sum_cons]
    exact Nat.add_le_add hk.1 ih

/-- The first one cannot be given more than the others leave it. -/
theorem le_of_fits_cons {b : Slot} {l : List Slot} {k s : Nat} {sizes : List Nat} (hk : b.Fits k)
    (hl : List.Forall₂ Slot.Fits l sizes) (hsum : (k :: sizes).sum = leastSum (b :: l) + s) :
    k ≤ b.lo + b.extra s ∧ sizes.sum = leastSum l + (s - (k - b.lo)) := by
  have hleast := leastSum_le hl
  have hlo := hk.1
  rw [List.sum_cons, leastSum, List.map_cons, List.sum_cons] at hsum
  rw [leastSum] at hleast ⊢
  exact ⟨Slot.le_extra hk (by omega), by omega⟩

theorem enough_of_fits {l : List Slot} {sizes : List Nat} (h : List.Forall₂ Slot.Fits l sizes) {s : Nat}
    (hsum : sizes.sum = leastSum l + s) : Enough l s := by
  induction h generalizing s with
  | nil =>
    rw [List.sum_nil, leastSum, List.map_nil, List.sum_nil, Nat.zero_add] at hsum
    exact hsum.symm
  | @cons b k l sizes hk hl ih =>
    obtain ⟨hle, hrest⟩ := le_of_fits_cons hk hl hsum
    exact (ih hrest).mono (by omega)

/-- **There is a way** if there is enough of everything. -/
theorem exists_allocation_iff (l : List Slot) (n : Nat) :
    (∃ sizes, Allocation l n sizes) ↔ leastSum l ≤ n ∧ Enough l (n - leastSum l) := by
  constructor
  · rintro ⟨sizes, h⟩
    have hle := leastSum_le h.fits
    rw [h.sum] at hle
    refine ⟨hle, enough_of_fits h.fits ?_⟩
    rw [h.sum]
    omega
  · rintro ⟨hle, h⟩
    refine ⟨greedy l (n - leastSum l), greedy_fits l _, ?_⟩
    rw [sum_greedy h]
    omega

/-- Each way is not before the greedy one. -/
theorem le_greedy {l : List Slot} {sizes : List Nat} (h : List.Forall₂ Slot.Fits l sizes) {s : Nat}
    (hsum : sizes.sum = leastSum l + s) : sizes ≤ greedy l s := by
  induction h generalizing s with
  | nil => exact le_refl []
  | @cons b k l sizes hk hl ih =>
    obtain ⟨hle, hrest⟩ := le_of_fits_cons hk hl hsum
    rw [greedy]
    rcases Nat.lt_or_eq_of_le hle with hlt | heq
    · exact le_of_lt (List.Lex.rel hlt)
    · have hs : s - (k - b.lo) = s - b.extra s := by omega
      rw [heq]
      exact List.cons_le_cons _ (ih (hs ▸ hrest))

/-- **The greedy way** is the greatest one. -/
theorem greedy_isGreatest {l : List Slot} {n : Nat} (h : ∃ sizes, Allocation l n sizes) :
    IsGreatest { sizes | Allocation l n sizes } (greedy l (n - leastSum l)) := by
  obtain ⟨hle, henough⟩ := (exists_allocation_iff l n).mp h
  constructor
  · refine ⟨greedy_fits l _, ?_⟩
    rw [sum_greedy henough]
    omega
  · intro sizes hsizes
    refine le_greedy hsizes.fits ?_
    rw [hsizes.sum]
    omega

end Primitives.Lib
