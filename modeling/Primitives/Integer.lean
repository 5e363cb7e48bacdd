import Primitives.Basic

/-!
# Integers and their texts

`std::to_string` of an integer, and the integer that `std::stoi` and `std::stoll` find at the beginning
of a text, blanks in front of it aside. What follows the digits is not looked at. Each caller has its own
bounds for what it finds.
-/

set_option autoImplicit false

namespace Primitives

/-- `std::to_string` of an integer. -/
def intStr (i : Int) : Str :=
  if i < 0 then '-' :: decimalStr i.natAbs else decimalStr i.natAbs

/-- `isspace`. -/
def isSpace (c : Char) : Bool := c ∈ [' ', '\t', '\n', '\u000b', '\u000c', '\x0d']

/-- The integer that a text begins with, if there is one. -/
def parseInt (s : Str) : Option Int :=
  let s := s.dropWhile isSpace
  let negative := s.head? = some '-'
  let s := if negative ∨ s.head? = some '+' then s.tail else s
  let ds := s.takeWhile isDigit
  if ds = [] then none else some (if negative then -(decimal ds) else decimal ds)

theorem not_isSpace_of_isDigit {c : Char} (h : isDigit c = true) : isSpace c = false := by
  rw [Bool.eq_false_iff]
  intro hspace
  have hall : ([' ', '\t', '\n', '\u000b', '\u000c', '\x0d'].all fun c => !isDigit c) = true := by decide
  have hno := List.all_eq_true.mp hall c (of_decide_eq_true hspace)
  rw [h] at hno
  cases hno

/-- **Digits in front of something else.** -/
theorem parseInt_digits {ds : Str} (rest : Str) (hne : ds ≠ []) (hds : ∀ c ∈ ds, isDigit c = true)
    (hrest : ∀ c ∈ rest.head?, isDigit c = false) : parseInt (ds ++ rest) = some (decimal ds : Int) := by
  obtain ⟨c, s, rfl⟩ := List.exists_cons_of_ne_nil hne
  have hc : isDigit c = true := hds c List.mem_cons_self
  have hminus : c ≠ '-' := by
    rintro rfl
    cases hc
  have hplus : c ≠ '+' := by
    rintro rfl
    cases hc
  have hspace : ((c :: s) ++ rest).dropWhile isSpace = (c :: s) ++ rest := by
    rw [List.cons_append, List.dropWhile_cons_of_neg]
    rw [not_isSpace_of_isDigit hc]
    exact Bool.false_ne_true
  have htake : ((c :: s) ++ rest).takeWhile isDigit = c :: s := by
    rw [List.takeWhile_append_of_pos hds]
    cases rest with
    | nil => exact List.append_nil _
    | cons d rest =>
      rw [List.takeWhile_cons_of_neg, List.append_nil]
      rw [hrest d rfl]
      exact Bool.false_ne_true
  have hhead : ((c :: s) ++ rest).head? = some c := rfl
  simp only [parseInt, hspace, hhead, Option.some.injEq, hminus, hplus, or_self, if_false, htake,
    if_neg hne]

/-- **An integer is read back.** -/
theorem parseInt_intStr (i : Int) : parseInt (intStr i) = some i := by
  unfold intStr
  split
  · rename_i hneg
    have hspace : ('-' :: decimalStr i.natAbs).dropWhile isSpace = '-' :: decimalStr i.natAbs := rfl
    have htake : (decimalStr i.natAbs).takeWhile isDigit = decimalStr i.natAbs :=
      List.takeWhile_eq_self_iff.mpr fun _ => isDigit_of_mem_decimalStr
    have hvalue : -((i.natAbs : Nat) : Int) = i := by omega
    simp only [parseInt, hspace, List.head?_cons, true_or, if_true, List.tail_cons, htake,
      if_neg (decimalStr_ne_nil _), decimal_decimalStr, hvalue]
  · have hvalue : ((i.natAbs : Nat) : Int) = i := by omega
    have hparse := parseInt_digits [] (decimalStr_ne_nil i.natAbs)
      (fun c hc => isDigit_of_mem_decimalStr hc) fun c hc => nomatch hc
    rw [List.append_nil, decimal_decimalStr, hvalue] at hparse
    exact hparse

end Primitives
