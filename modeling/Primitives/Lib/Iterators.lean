import Mathlib.Data.List.Basic

/-!
# Iterators

Positions that are compared, read and moved on, each of which may be undefined. A range is what the walk
from its first position to its last one reads (`Walk`). The algorithms are bounded in their steps, and
have no value where the bound is too small or a position is used that is not in the range; on a range
there is always one (`Walk.collect`).

A list is a range in both directions (`Walk.forward`, `Walk.backward`).
-/

set_option autoImplicit false

namespace Primitives.Lib

/-- Iterators of the type `ι`, to elements of the type `α`. -/
structure Iterators (ι α : Type) where
  /-- `==` -/
  equal : ι → ι → Bool
  /-- `*` -/
  get : ι → Option α
  /-- `++` -/
  next : ι → Option ι

variable {ι α : Type}

/-! ## Algorithms -/

/-- `std::find_if`. -/
def Iterators.findIf (its : Iterators ι α) (pred : α → Bool) : Nat → ι → ι → Option ι
  | 0, _, _ => none
  | n + 1, first, last =>
    if its.equal first last then some first
    else do
      let a ← its.get first
      if pred a then some first
      else
        let next ← its.next first
        its.findIf pred n next last

/-- The elements that a `for` over the range has, in this order. -/
def Iterators.collect (its : Iterators ι α) : Nat → ι → ι → Option (List α)
  | 0, _, _ => none
  | n + 1, first, last =>
    if its.equal first last then some []
    else do
      let a ← its.get first
      let next ← its.next first
      let rest ← its.collect n next last
      some (a :: rest)

/-! ## Ranges -/

/-- From a position on, up to the last one, there are these elements. -/
inductive Walk (its : Iterators ι α) (last : ι) : ι → List α → Prop
  | nil {p : ι} (hlast : its.equal p last = true) : Walk its last p []
  | cons {p q : ι} {a : α} {l : List α} (hlast : its.equal p last = false) (hget : its.get p = some a)
      (hnext : its.next p = some q) (hl : Walk its last q l) : Walk its last p (a :: l)

section

variable {its : Iterators ι α} {p last : ι} {l : List α}

theorem Walk.equal_iff (h : Walk its last p l) : its.equal p last = true ↔ l = [] := by
  cases h with
  | nil hlast => simp [hlast]
  | cons hlast _ _ _ => simp [hlast]

theorem Walk.collect (h : Walk its last p l) {n : Nat} (hn : l.length < n) :
    its.collect n p last = some l := by
  induction h generalizing n with
  | nil hlast =>
    obtain ⟨n, rfl⟩ := Nat.exists_eq_succ_of_ne_zero (Nat.ne_of_gt hn)
    rw [Iterators.collect, if_pos hlast]
  | @cons p q a l hlast hget hnext _ ih =>
    rw [List.length_cons] at hn
    obtain ⟨n, rfl⟩ := Nat.exists_eq_succ_of_ne_zero (show n ≠ 0 by omega)
    rw [Iterators.collect, hlast, if_neg Bool.false_ne_true, hget, hnext]
    show (its.collect n q last).bind _ = _
    rw [ih (by omega)]
    rfl

/-! ### The steps of a search -/

variable {pred : α → Bool} {n : Nat} {q : ι} {a : α}

theorem Iterators.findIf_of_equal (hlast : its.equal p last = true) :
    its.findIf pred (n + 1) p last = some p :=
  if_pos hlast

theorem Iterators.findIf_of_pos (hlast : its.equal p last = false) (hget : its.get p = some a)
    (hpred : pred a = true) : its.findIf pred (n + 1) p last = some p := by
  rw [Iterators.findIf, hlast, if_neg Bool.false_ne_true, hget]
  exact if_pos hpred

theorem Iterators.findIf_of_neg (hlast : its.equal p last = false) (hget : its.get p = some a)
    (hpred : pred a = false) (hnext : its.next p = some q) :
    its.findIf pred (n + 1) p last = its.findIf pred n q last := by
  rw [Iterators.findIf, hlast, if_neg Bool.false_ne_true, hget, hnext]
  show (if pred a = true then some p else its.findIf pred n q last) = its.findIf pred n q last
  rw [hpred, if_neg Bool.false_ne_true]

end

/-! ## Lists -/

/-- The positions of a list, from 0 on. -/
def forward (l : List α) : Iterators Nat α where
  equal p q := p == q
  get p := l[p]?
  next p := if p < l.length then some (p + 1) else none

/-- `std::reverse_iterator`: the element is the one before the position. -/
def backward (l : List α) : Iterators Nat α where
  equal p q := p == q
  get p := if p = 0 then none else l[p - 1]?
  next p := if p = 0 then none else some (p - 1)

theorem Walk.forward (l : List α) {p : Nat} (hp : p ≤ l.length) :
    Walk (forward l) l.length p (l.drop p) := by
  induction hn : l.length - p generalizing p with
  | zero =>
    have heq : p = l.length := by omega
    rw [heq, List.drop_length]
    exact .nil (beq_self_eq_true _)
  | succ n ih =>
    have hlt : p < l.length := by omega
    rw [List.drop_eq_getElem_cons hlt]
    refine .cons (beq_eq_false_iff_ne.mpr (Nat.ne_of_lt hlt)) (List.getElem?_eq_getElem hlt) (if_pos hlt) ?_
    exact ih hlt (by omega)

theorem Walk.backward (l : List α) {p : Nat} (hp : p ≤ l.length) :
    Walk (backward l) 0 p (l.take p).reverse := by
  induction p with
  | zero => exact .nil rfl
  | succ p ih =>
    have hlt : p < l.length := hp
    rw [List.take_succ_eq_append_getElem hlt, List.reverse_append, List.reverse_singleton,
      List.singleton_append]
    exact .cons rfl (List.getElem?_eq_getElem hlt) rfl (ih (Nat.le_of_lt hlt))

end Primitives.Lib
