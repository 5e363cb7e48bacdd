import Mathlib.Data.List.DropRight
import Mathlib.Algebra.Ring.Int.Defs
import Mathlib.Algebra.Ring.Nat

/-!
# Strings and machine integers

The types every module of the development reads the source's values at. A `String` of the
source is a `std::string`, a sequence of bytes with no encoding attached, so it is a list here
and not Lean's `String`, which is Unicode text: the parsers below compare, split and cut
single bytes, and every theorem about them is then an induction on a list.

Numbers are `Int` or `Nat`. Where the source's type is fixed-width and a value can leave it,
the operation that leaves it says what happens: `sizeT` for a cast to `size_t`, `incInt` for
`++` on an `int`, and a `Fault` where the standard library throws.
-/

set_option autoImplicit false

namespace Primitives

/-- A `std::string`: its bytes in order, each written as the `Char` with that code. -/
abbrev Str := List Char

/-- `Strings`, a `std::vector<String>`. -/
abbrev Strings := List Str

/-- `INT_MAX` at 32 bits. -/
def intMax : Nat := 2147483647

/-- `INT64_MAX`, the largest `int64_t` and the largest `long long`. -/
def int64Max : Nat := 9223372036854775807

/-- The cast `(size_t)i`, at 64 bits. -/
def sizeT (i : Int) : Nat := (i % 2 ^ 64).toNat

/-- `++` on an `int`, at 32 bits: the value after `INT_MAX` is `INT_MIN`. -/
def incInt (i : Int) : Int := (i + 1).bmod (2 ^ 32)

theorem sizeT_of_nonneg {n : Nat} (h : n < 2 ^ 64) : sizeT (n : Int) = n := by
  unfold sizeT
  omega

theorem sizeT_add {m n : Nat} (h : m + n < 2 ^ 64) : sizeT ((m : Int) + n) = m + n := by
  unfold sizeT
  omega

/-- The difference of two positions. -/
theorem sizeT_sub {m n : Nat} (hmn : m ≤ n) (h : n < 2 ^ 64) : sizeT ((n : Int) - m) = n - m := by
  unfold sizeT
  omega

theorem sizeT_add_sub {m n : Nat} (h : m + n < 2 ^ 64) : sizeT (((m + n : Nat) : Int) - m) = n :=
  (sizeT_sub (Nat.le_add_right m n) h).trans (Nat.add_sub_cancel_left m n)

theorem incInt_of_lt {n : Nat} (h : n < intMax) : incInt (n : Int) = ((n + 1 : Nat) : Int) := by
  unfold incInt intMax at *
  rw [Int.bmod_eq_of_le] <;> omega

/-- What the code can do instead of returning. -/
inductive Fault where
  /-- A vector is read past its end: undefined behaviour. -/
  | outOfBounds
  /-- `std::out_of_range`, thrown by `std::stoi` or `std::stoll`. -/
  | outOfRange
deriving DecidableEq, Repr

/-- `v[i]` of a `std::vector`. -/
def index {α : Type} (v : List α) (i : Nat) : Except Fault α :=
  match v[i]? with
  | some x => .ok x
  | none => .error .outOfBounds

theorem index_of_lt {α : Type} {v : List α} {i : Nat} (h : i < v.length) :
    index v i = .ok v[i] := by
  simp [index, h]

theorem index_of_le {α : Type} {v : List α} {i : Nat} (h : v.length ≤ i) :
    index v i = .error .outOfBounds := by
  simp [index, h]

/-- A list that stands at index `i` of a vector is read off it element by element. -/
theorem singleton_prefix_drop_iff {α : Type} {v : List α} {i : Nat} {x : α} :
    [x] <+: v.drop i ↔ index v i = .ok x := by
  by_cases hi : i < v.length
  · rw [List.drop_eq_getElem_cons hi, index_of_lt hi, List.cons_prefix_cons, Except.ok.injEq,
      and_iff_left (List.nil_prefix), eq_comm]
  · simp [List.drop_eq_nil_of_le (Nat.le_of_not_lt hi), index_of_le (Nat.le_of_not_lt hi)]

theorem append_prefix_drop_iff {α : Type} {v xs ys : List α} {i : Nat} :
    xs ++ ys <+: v.drop i ↔ xs <+: v.drop i ∧ ys <+: v.drop (i + xs.length) := by
  constructor
  · rintro ⟨t, ht⟩
    refine ⟨⟨ys ++ t, by simp [← ht]⟩, ⟨t, ?_⟩⟩
    rw [← List.drop_drop, ← ht, List.append_assoc, List.drop_left]
  · rintro ⟨⟨t, ht⟩, hys⟩
    rw [← List.drop_drop, ← ht, List.drop_left] at hys
    rw [← ht]
    exact (List.prefix_append_right_inj xs).mpr hys

/-- `std::isdigit` on one byte, in the classic locale. -/
def isDigit (c : Char) : Bool := c.isDigit

/-- The number a run of decimal digits writes. -/
def decimal (ds : Str) : Nat := Nat.ofDigitChars 10 ds 0

/-- `std::to_string` of a number that is not negative. -/
def decimalStr (n : Nat) : Str := Nat.toDigits 10 n

theorem decimal_decimalStr (n : Nat) : decimal (decimalStr n) = n :=
  Nat.ofDigitChars_toDigits (by omega) (by omega)

theorem isDigit_of_mem_decimalStr {n : Nat} {c : Char} (h : c ∈ decimalStr n) :
    isDigit c = true :=
  Nat.isDigit_of_mem_toDigits (by omega) (by omega) h

theorem decimalStr_ne_nil (n : Nat) : decimalStr n ≠ [] := Nat.toDigits_ne_nil

/-- `std::stoi` on a run of digits. -/
def stoi (ds : Str) : Except Fault Int :=
  if decimal ds ≤ intMax then .ok (decimal ds) else .error .outOfRange

end Primitives
