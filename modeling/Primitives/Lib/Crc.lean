import Mathlib.Algebra.Field.ZMod
import Mathlib.Algebra.Polynomial.Degree.Operations
import Mathlib.Algebra.Polynomial.Div

/-!
# Cyclic redundancy checks

A remainder of `w` bits, and a divisor whose bits below the highest are `poly`. A bit more of the dividend
is a shift, and the divisor when a bit falls out (`feed`); the highest bits come first. A step is linear
in the remainder and the bit together (`feed_xor`), so `n` of them at once are a shift by `n` and what
becomes of the bits that fall out, which a table has for each of the `2 ^ n` values (`reduction_bits`).

Over the field of two elements this is the division of polynomials (`toPoly_reduction`).
-/

set_option autoImplicit false

namespace Primitives.Lib.Crc

variable {w n : Nat}

/-! ## Bit by bit -/

/-- One bit of the dividend. -/
def feed (poly c : BitVec w) (b : Bool) : BitVec w :=
  if c.msb ^^ b then (c <<< 1) ^^^ poly else c <<< 1

def reduction (poly init : BitVec w) (bits : List Bool) : BitVec w := bits.foldl (feed poly) init

/-- From the highest on. -/
def bits (b : BitVec n) : List Bool := (List.range n).map b.getMsbD

/-- The `n` highest bits. -/
def top (n : Nat) (c : BitVec w) : BitVec n := (c >>> (w - n)).setWidth n

theorem reduction_append (poly init : BitVec w) (bs bs' : List Bool) :
    reduction poly init (bs ++ bs') = reduction poly (reduction poly init bs) bs' :=
  List.foldl_append

theorem reduction_range_succ (poly init : BitVec w) (f : Nat → Bool) (n : Nat) :
    reduction poly init ((List.range (n + 1)).map f) =
      feed poly (reduction poly init ((List.range n).map f)) (f n) := by
  rw [List.range_succ, List.map_append, reduction_append]
  rfl

/-! ## Linear -/

theorem feed_xor (poly c c' : BitVec w) (b b' : Bool) :
    feed poly (c ^^^ c') (b ^^ b') = feed poly c b ^^^ feed poly c' b' := by
  have hbit : ((c ^^^ c').msb ^^ (b ^^ b')) = ((c.msb ^^ b) ^^ (c'.msb ^^ b')) := by
    rw [BitVec.msb_xor, Bool.xor_assoc, Bool.xor_assoc, Bool.xor_left_comm b]
  unfold feed
  rw [hbit, BitVec.shiftLeft_xor_distrib]
  cases c.msb ^^ b with
  | false =>
    cases c'.msb ^^ b' with
    | false => rfl
    | true => exact BitVec.xor_assoc _ _ _
  | true =>
    cases c'.msb ^^ b' with
    | false =>
      show (c <<< 1 ^^^ c' <<< 1) ^^^ poly = (c <<< 1 ^^^ poly) ^^^ c' <<< 1
      ac_rfl
    | true =>
      show c <<< 1 ^^^ c' <<< 1 = (c <<< 1 ^^^ poly) ^^^ (c' <<< 1 ^^^ poly)
      rw [BitVec.xor_assoc, BitVec.xor_comm poly, BitVec.xor_assoc, BitVec.xor_self, BitVec.xor_zero]

theorem reduction_xor (poly c c' : BitVec w) (f g : Nat → Bool) (n : Nat) :
    reduction poly (c ^^^ c') ((List.range n).map fun i => f i ^^ g i) =
      reduction poly c ((List.range n).map f) ^^^ reduction poly c' ((List.range n).map g) := by
  induction n with
  | zero => rfl
  | succ n ih => rw [reduction_range_succ, reduction_range_succ, reduction_range_succ, ih, feed_xor]

/-- A remainder that meets its own bits is shifted only. -/
theorem reduction_self (poly c : BitVec w) (n : Nat) :
    reduction poly c ((List.range n).map c.getMsbD) = c <<< n := by
  induction n with
  | zero => exact (BitVec.shiftLeft_zero c).symm
  | succ n ih =>
    have hmsb : (c <<< n).msb = c.getMsbD n := by
      rw [BitVec.msb, BitVec.getMsbD_shiftLeft, Nat.zero_add]
    rw [reduction_range_succ, ih, feed, hmsb, Bool.xor_self, BitVec.shiftLeft_add]
    rfl

/-! ## By a table -/

theorem getMsbD_top (h : n ≤ w) (c : BitVec w) {i : Nat} (hi : i < n) :
    (top n c).getMsbD i = c.getMsbD i := by
  have hin : i < w := Nat.lt_of_lt_of_le hi h
  have hbit : w - n + (n - 1 - i) = w - 1 - i := by omega
  have hlow : n - 1 - i < n := by omega
  rw [top, BitVec.getMsbD_eq_getLsbD, BitVec.getMsbD_eq_getLsbD, decide_eq_true hi, decide_eq_true hin,
    BitVec.getLsbD_setWidth, decide_eq_true hlow, BitVec.getLsbD_ushiftRight, hbit, Bool.true_and]

/-- **`n` bits at once**: a shift, and the word of the table for what falls out. -/
theorem reduction_bits (h : n ≤ w) (poly c : BitVec w) (b : BitVec n) :
    reduction poly c (bits b) = (c <<< n) ^^^ reduction poly (0#w) (bits (top n c ^^^ b)) := by
  have hb : bits b = (List.range n).map fun i => c.getMsbD i ^^ (top n c ^^^ b).getMsbD i := by
    refine List.map_congr_left fun i hi => ?_
    rw [BitVec.getMsbD_xor, getMsbD_top h c (List.mem_range.mp hi), ← Bool.xor_assoc, Bool.xor_self,
      Bool.false_xor]
  calc reduction poly c (bits b)
      = reduction poly (c ^^^ 0#w) ((List.range n).map fun i =>
          c.getMsbD i ^^ (top n c ^^^ b).getMsbD i) := by rw [hb, BitVec.xor_zero]
    _ = (c <<< n) ^^^ reduction poly (0#w) (bits (top n c ^^^ b)) := by
        rw [reduction_xor, reduction_self, bits]

/-! ## Polynomials -/

section

open Polynomial

/-- A bit, in the field of two elements. -/
def digit (b : Bool) : ZMod 2 := if b then 1 else 0

theorem digit_xor (a b : Bool) : digit (a ^^ b) = digit a + digit b := by
  cases a <;> cases b <;> rfl

/-- The lowest bit is the constant term. -/
noncomputable def toPoly (c : BitVec w) : Polynomial (ZMod 2) :=
  ∑ i ∈ Finset.range w, monomial i (digit (c.getLsbD i))

/-- The last bit is the constant term. -/
noncomputable def dividend (bs : List Bool) : Polynomial (ZMod 2) :=
  bs.foldl (fun p b => X * p + C (digit b)) 0

/-- The divisor: `poly` below the term of degree `w`. -/
noncomputable def divisor (poly : BitVec w) : Polynomial (ZMod 2) := X ^ w + toPoly poly

theorem coeff_toPoly (c : BitVec w) (i : Nat) : (toPoly c).coeff i = digit (c.getLsbD i) := by
  rw [toPoly, finsetSum_coeff]
  by_cases hi : i < w
  · rw [Finset.sum_eq_single i]
    · exact coeff_monomial_same i _
    · exact fun j _ hne => coeff_monomial_of_ne _ (Ne.symm hne)
    · exact fun hout => absurd (Finset.mem_range.mpr hi) hout
  · rw [BitVec.getLsbD_of_ge c i (Nat.le_of_not_lt hi)]
    refine Finset.sum_eq_zero fun j hj => coeff_monomial_of_ne _ fun heq => hi ?_
    rw [heq]
    exact Finset.mem_range.mp hj

theorem degree_toPoly_lt (c : BitVec w) : (toPoly c).degree < w := by
  rw [degree_lt_iff_coeff_zero]
  intro i hi
  rw [coeff_toPoly, BitVec.getLsbD_of_ge c i hi]
  rfl

theorem toPoly_injective {c c' : BitVec w} (h : toPoly c = toPoly c') : c = c' := by
  refine BitVec.eq_of_getLsbD_eq fun i _ => ?_
  have hcoeff : digit (c.getLsbD i) = digit (c'.getLsbD i) := by
    rw [← coeff_toPoly, ← coeff_toPoly, h]
  revert hcoeff
  cases c.getLsbD i <;> cases c'.getLsbD i <;> decide

theorem toPoly_xor (c c' : BitVec w) : toPoly (c ^^^ c') = toPoly c + toPoly c' := by
  ext i
  rw [coeff_add, coeff_toPoly, coeff_toPoly, coeff_toPoly, BitVec.getLsbD_xor, digit_xor]

/-- A shift is a multiplication by `X`, but for the bit that falls out. -/
theorem toPoly_shiftLeft (c : BitVec w) :
    X * toPoly c = C (digit c.msb) * X ^ w + toPoly (c <<< 1) := by
  ext i
  rw [coeff_add, coeff_C_mul, coeff_X_pow, coeff_toPoly, BitVec.getLsbD_shiftLeft,
    BitVec.msb_eq_getLsbD_last]
  cases i with
  | zero =>
    rw [coeff_X_mul_zero]
    cases w with
    | zero => simp [digit]
    | succ w => simp [digit]
  | succ i =>
    rw [coeff_X_mul, coeff_toPoly]
    by_cases hlt : i + 1 < w
    · have hne : i + 1 ≠ w := Nat.ne_of_lt hlt
      simp [hlt, hne]
    · by_cases heq : i + 1 = w
      · subst heq
        simp [digit]
      · have hout : w ≤ i := by omega
        simp [hlt, heq, BitVec.getLsbD_of_ge c i hout, digit]

theorem feed_eq (poly c : BitVec w) (b : Bool) :
    X * toPoly c + C (digit b) * X ^ w =
      C (digit (c.msb ^^ b)) * divisor poly + toPoly (feed poly c b) := by
  have htwo : toPoly poly + toPoly poly = 0 := CharTwo.add_self_eq_zero _
  rw [toPoly_shiftLeft, digit_xor, C_add, feed, divisor]
  cases hbit : c.msb ^^ b with
  | false =>
    have hsum : C (digit c.msb) + C (digit b) = 0 := by
      rw [← C_add, ← digit_xor, hbit]
      exact C_0
    rw [if_neg Bool.false_ne_true, hsum, zero_mul, zero_add, add_right_comm, ← add_mul, hsum, zero_mul,
      zero_add]
  | true =>
    have hsum : C (digit c.msb) + C (digit b) = 1 := by
      rw [← C_add, ← digit_xor, hbit]
      exact C_1
    rw [if_pos rfl, hsum, one_mul, toPoly_xor, add_right_comm, ← add_mul, hsum, one_mul]
    calc X ^ w + toPoly (c <<< 1) = X ^ w + toPoly (c <<< 1) + (toPoly poly + toPoly poly) := by
          rw [htwo, add_zero]
      _ = X ^ w + toPoly poly + (toPoly (c <<< 1) + toPoly poly) := by ring

theorem dividend_concat (bs : List Bool) (b : Bool) :
    dividend (bs ++ [b]) = X * dividend bs + C (digit b) := by
  rw [dividend, List.foldl_append]
  rfl

/-- What is divided so far, of the start value before the bits. -/
theorem reduction_eq (poly init : BitVec w) (bs : List Bool) :
    ∃ q, X ^ bs.length * toPoly init + X ^ w * dividend bs =
      q * divisor poly + toPoly (reduction poly init bs) := by
  induction bs using List.reverseRecOn with
  | nil =>
    refine ⟨0, ?_⟩
    show X ^ 0 * toPoly init + X ^ w * 0 = 0 * divisor poly + toPoly init
    ring
  | append_singleton bs b ih =>
    obtain ⟨q, hq⟩ := ih
    refine ⟨X * q + C (digit ((reduction poly init bs).msb ^^ b)), ?_⟩
    rw [reduction_append, List.length_append, List.length_singleton, dividend_concat]
    calc X ^ (bs.length + 1) * toPoly init + X ^ w * (X * dividend bs + C (digit b))
        = X * (X ^ bs.length * toPoly init + X ^ w * dividend bs) + C (digit b) * X ^ w := by ring
      _ = X * q * divisor poly +
            (X * toPoly (reduction poly init bs) + C (digit b) * X ^ w) := by rw [hq]; ring
      _ = (X * q + C (digit ((reduction poly init bs).msb ^^ b))) * divisor poly +
            toPoly (reduction poly (reduction poly init bs) [b]) := by
          rw [feed_eq poly]
          show _ = _ + toPoly (feed poly (reduction poly init bs) b)
          ring

/-- **The reduction is a remainder**: of the start value before the bits, and `w` zeros behind. -/
theorem toPoly_reduction (poly init : BitVec w) (bs : List Bool) :
    toPoly (reduction poly init bs) =
      (X ^ bs.length * toPoly init + X ^ w * dividend bs) %ₘ divisor poly := by
  obtain ⟨q, hq⟩ := reduction_eq poly init bs
  have hmonic : (divisor poly).Monic := monic_X_pow_add (degree_toPoly_lt poly)
  have hdegree : (toPoly (reduction poly init bs)).degree < (divisor poly).degree := by
    rw [divisor, degree_add_eq_left_of_degree_lt]
    · rw [degree_X_pow]
      exact degree_toPoly_lt _
    · rw [degree_X_pow]
      exact degree_toPoly_lt poly
  refine (div_modByMonic_unique q _ hmonic ⟨?_, hdegree⟩).2.symm
  rw [hq]
  ring

end

end Primitives.Lib.Crc
