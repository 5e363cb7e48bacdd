import Mathlib.Data.List.Basic
import Mathlib.Algebra.Ring.Nat

/-!
# The bits of a byte string

A byte string as one sequence of bits, each byte from its highest bit on (`bit`). Strings of one
length are equal when their bits are (`ext_bit`), and what an operation does to a string is said by
what it does to a bit.
-/

set_option autoImplicit false

namespace Primitives.Lib

/-- The bit at position `j`; behind the end of the string all bits are 0. -/
def bit (bs : List UInt8) (j : Nat) : Bool := (bs[j / 8]?.getD 0).toNat.testBit (7 - j % 8)

/-- `bs[i] |= v`, with the bits of `v` that a byte has. -/
def orAt (bs : List UInt8) (i v : Nat) : List UInt8 :=
  bs.set i (UInt8.ofNat ((bs[i]?.getD 0).toNat ||| v))

theorem bit_of_le {bs : List UInt8} {j : Nat} (h : 8 * bs.length ≤ j) : bit bs j = false := by
  have hnone : bs.length ≤ j / 8 := by omega
  rw [bit, List.getElem?_eq_none hnone]
  exact Nat.zero_testBit _

theorem bit_append (xs ys : List UInt8) (j : Nat) :
    bit (xs ++ ys) j = if j < 8 * xs.length then bit xs j else bit ys (j - 8 * xs.length) := by
  by_cases h : j < 8 * xs.length
  · have hlt : j / 8 < xs.length := by omega
    rw [if_pos h, bit, bit, List.getElem?_append_left hlt]
  · have hge : xs.length ≤ j / 8 := by omega
    have hdiv : (j - 8 * xs.length) / 8 = j / 8 - xs.length := by omega
    have hmod : (j - 8 * xs.length) % 8 = j % 8 := by omega
    rw [if_neg h, bit, bit, List.getElem?_append_right hge, hdiv, hmod]

theorem bit_replicate_zero (n j : Nat) : bit (List.replicate n 0) j = false := by
  rw [bit, List.getElem?_replicate]
  split <;> exact Nat.zero_testBit _

@[simp] theorem length_orAt (bs : List UInt8) (i v : Nat) : (orAt bs i v).length = bs.length :=
  List.length_set

/-- The byte at `i` gets the bits of `v` on top of its own. -/
theorem bit_orAt {bs : List UInt8} {i : Nat} (v j : Nat) (h : i < bs.length) :
    bit (orAt bs i v) j = (bit bs j || (decide (j / 8 = i) && v.testBit (7 - j % 8))) := by
  rw [bit, bit, orAt]
  by_cases hi : j / 8 = i
  · have hbyte : 7 - j % 8 < 8 := by omega
    rw [hi, List.getElem?_set_self h, Option.getD_some, UInt8.toNat_ofNat', Nat.testBit_mod_two_pow,
      decide_eq_true hbyte, Nat.testBit_or]
    simp
  · rw [List.getElem?_set_ne (Ne.symm hi), decide_eq_false hi, Bool.false_and, Bool.or_false]

theorem UInt8.ext_testBit {a b : UInt8} (h : ∀ i < 8, a.toNat.testBit i = b.toNat.testBit i) :
    a = b := by
  refine UInt8.toNat_inj.mp (Nat.eq_of_testBit_eq fun i => ?_)
  by_cases hi : i < 8
  · exact h i hi
  · have hpow : 2 ^ 8 ≤ 2 ^ i := Nat.pow_le_pow_right (by decide) (Nat.le_of_not_lt hi)
    rw [Nat.testBit_lt_two_pow (Nat.lt_of_lt_of_le a.toNat_lt hpow),
      Nat.testBit_lt_two_pow (Nat.lt_of_lt_of_le b.toNat_lt hpow)]

/-- **Strings of one length are their bits.** -/
theorem ext_bit {xs ys : List UInt8} (hlen : xs.length = ys.length)
    (h : ∀ j < 8 * xs.length, bit xs j = bit ys j) : xs = ys := by
  refine List.ext_getElem hlen fun i hx hy => UInt8.ext_testBit fun k hk => ?_
  have hj := h (8 * i + (7 - k)) (by omega)
  have hdiv : (8 * i + (7 - k)) / 8 = i := by omega
  have hmod : 7 - (8 * i + (7 - k)) % 8 = k := by omega
  rw [bit, bit, hdiv, hmod, List.getElem?_eq_getElem hx, List.getElem?_eq_getElem hy] at hj
  exact hj

end Primitives.Lib
