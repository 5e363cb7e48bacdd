import Mathlib.Algebra.Order.Ring.Int
import Primitives.Basic
import Primitives.Lib.Lex

/-!
# The positions of arguments

Arguments are sorted by sequences of numbers. Sequences of one length are compared by the order of
`std::vector`, and others by `position_compare`, which reads what the shorter one lacks as zeros. Both
are one order (`less_iff`): that of the sequences which go on with zeros for ever. So positions can be
sorted by, whatever their lengths are (`less_strictWeakOrder`).
-/

set_option autoImplicit false

namespace Primitives.Command

open Lib

/-! ## The code -/

/-- The loop over the rest of the second sequence. -/
def secondRest : List Int → Bool
  | [] => false
  | b :: m =>
    -- 1,2,3 < 1,2,3,1
    if b > 0 then true
    -- 1,2,3 > 1,2,3,-1
    else if b < 0 then false
    else secondRest m

/-- The loop over the rest of the first sequence. -/
def firstRest : List Int → Bool
  | [] => false
  | a :: l =>
    -- 1,2,3,-1 < 1,2,3
    if a < 0 then true
    -- 1,2,3,1 > 1,2,3
    else if a > 0 then false
    else firstRest l

/-- `position_compare` -/
def positionCompare : List Int → List Int → Bool
  | a :: l, b :: m =>
    if a < b then true
    else if a > b then false
    else positionCompare l m
  | [], [] => false
  | [], b :: m => secondRest (b :: m)
  | a :: l, [] => firstRest (a :: l)

structure ArgumentPosition where
  positions : List Int
deriving DecidableEq, Repr

namespace ArgumentPosition

/-- `operator<` -/
def less (lhs rhs : ArgumentPosition) : Bool :=
  if lhs.positions.length = rhs.positions.length then
    lexicographicalCompare (fun a b => decide (a < b)) lhs.positions rhs.positions
  else positionCompare lhs.positions rhs.positions

end ArgumentPosition

/-! ## The order -/

theorem secondRest_iff (m : List Int) :
    secondRest m = true ↔ sequence 0 [] < sequence 0 m := by
  induction m with
  | nil => exact iff_of_false Bool.false_ne_true (lt_irrefl _)
  | cons b m ih =>
    rw [secondRest, sequence_lt_iff_headD, List.headD_nil, List.headD_cons, List.tail_nil,
      List.tail_cons, ← ih]
    exact compared_iff Iff.rfl Iff.rfl _

theorem firstRest_iff (l : List Int) :
    firstRest l = true ↔ sequence 0 l < sequence 0 [] := by
  induction l with
  | nil => exact iff_of_false Bool.false_ne_true (lt_irrefl _)
  | cons a l ih =>
    rw [firstRest, sequence_lt_iff_headD, List.headD_nil, List.headD_cons, List.tail_nil,
      List.tail_cons, ← ih]
    exact compared_iff Iff.rfl Iff.rfl _

theorem positionCompare_iff (l m : List Int) :
    positionCompare l m = true ↔ sequence 0 l < sequence 0 m := by
  induction l generalizing m with
  | nil =>
    cases m with
    | nil => exact iff_of_false Bool.false_ne_true (lt_irrefl _)
    | cons b m => exact secondRest_iff (b :: m)
  | cons a l ih =>
    cases m with
    | nil => exact firstRest_iff (a :: l)
    | cons b m =>
      rw [positionCompare, sequence_cons_lt_iff, ← ih]
      exact compared_iff Iff.rfl Iff.rfl _

namespace ArgumentPosition

/-- **Both comparisons** are that of the sequences with zeros behind them. -/
theorem less_iff (p q : ArgumentPosition) :
    p.less q = true ↔ sequence 0 p.positions < sequence 0 q.positions := by
  rw [less]
  split
  · rename_i hlen
    rw [lexicographicalCompare_self_iff (fun a b => decide_eq_true_iff), sequence_lt_iff 0 hlen]
  · exact positionCompare_iff _ _

/-- They differ in zeros at their ends only. -/
def EqualUpToZeros (p q : ArgumentPosition) : Prop :=
  ∃ n k, p.positions ++ List.replicate n 0 = q.positions ++ List.replicate k 0

/-- **Positions can be sorted by**: `operator<` is the lexicographic order of the sequences with zeros
behind them, whatever the lengths are, and does not tell apart those that differ in zeros at the end. -/
theorem less_strictWeakOrder :
    (∀ p q : ArgumentPosition,
        p.less q = true ↔ sequence 0 p.positions < sequence 0 q.positions) ∧
      StrictWeakOrder less ∧
        ∀ p q : ArgumentPosition, Incomparable less p q ↔ p.EqualUpToZeros q := by
  refine ⟨less_iff, .of_key less_iff, fun p q => ?_⟩
  rw [incomparable_iff_key less_iff]
  exact sequence_eq_iff_padded 0 p.positions q.positions

example : less ⟨[1, 2, 3, 0, 0, 0, -1]⟩ ⟨[1, 2, 3]⟩ = true := by decide

end ArgumentPosition

end Primitives.Command
