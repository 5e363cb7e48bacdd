import Primitives.Base64.Model

/-!
# Base encodings — windows of bits

What `get_bits` reads and `set_bits` writes, bit by bit: a window of `n` bits, at most 8, may lie in
one byte or in two. The windows that a string is read in (`groups`) are those of its blocks, one
after another, since a block holds a whole number of windows.
-/

set_option autoImplicit false

namespace Primitives.Base64

open Lib

/-! ## Reading -/

/-- A byte has no bits beyond 8. -/
theorem testBit_byte (a : UInt8) {i : Nat} (h : 8 ≤ i) : a.toNat.testBit i = false :=
  Nat.testBit_lt_two_pow (Nat.lt_of_lt_of_le a.toNat_lt (Nat.pow_le_pow_right (by decide) h))

/-- The bits of a window, from its highest on, are those of the string. -/
theorem testBit_getBits {n : Nat} (hn : n ≤ 8) (data : List UInt8) (start : Nat) {i : Nat}
    (hi : i < n) : (getBits n data start).testBit (n - 1 - i) = bit data (start + i) := by
  unfold getBits bit
  dsimp only
  split
  · -- the window is in one byte
    rename_i hbyte
    have hdiv : (start + i) / 8 = start / 8 := by omega
    have hmod : (start + i) % 8 = start % 8 + i := by omega
    have hlt : n - 1 - i < n := by omega
    have hpos : 8 - start % 8 - n + (n - 1 - i) = 7 - (start % 8 + i) := by omega
    rw [Nat.testBit_and, Nat.testBit_two_pow_sub_one, decide_eq_true hlt, Bool.and_true,
      Nat.testBit_shiftRight, hdiv, hmod, hpos]
  · rename_i hbytes
    rw [Nat.testBit_or, Nat.testBit_shiftLeft, Nat.testBit_and, Nat.testBit_two_pow_sub_one,
      Nat.testBit_shiftRight]
    by_cases hfirst : i < 8 - start % 8
    · -- a bit of the first byte
      have hdiv : (start + i) / 8 = start / 8 := by omega
      have hmod : (start + i) % 8 = start % 8 + i := by omega
      have hge : n - 1 - i ≥ n - (8 - start % 8) := by omega
      have hpos : n - 1 - i - (n - (8 - start % 8)) = 7 - (start % 8 + i) := by omega
      have hlt : 7 - (start % 8 + i) < 8 - start % 8 := by omega
      have hsecond : (data[(start + n - 1) / 8]?.getD 0).toNat.testBit
          (8 - (n - (8 - start % 8)) + (n - 1 - i)) = false := testBit_byte _ (by omega)
      rw [hsecond, Bool.or_false, decide_eq_true hge, Bool.true_and, hpos,
        decide_eq_true hlt, Bool.and_true, hdiv, hmod]
    · -- a bit of the second byte
      have hdiv : (start + i) / 8 = (start + n - 1) / 8 := by omega
      have hmod : (start + i) % 8 = i - (8 - start % 8) := by omega
      have hlt : ¬ n - 1 - i ≥ n - (8 - start % 8) := by omega
      have hpos : 8 - (n - (8 - start % 8)) + (n - 1 - i) = 7 - (i - (8 - start % 8)) := by omega
      rw [decide_eq_false hlt, Bool.false_and, Bool.false_or, hpos, hdiv, hmod]

theorem getBits_lt {n : Nat} (hpos : 0 < n) (hn : n ≤ 8) (data : List UInt8) (start : Nat) :
    getBits n data start < 2 ^ n := by
  unfold getBits
  dsimp only
  split
  · exact Nat.lt_of_le_of_lt Nat.and_le_right (Nat.sub_lt (Nat.two_pow_pos n) Nat.one_pos)
  · rename_i hbytes
    refine Nat.or_lt_two_pow ?_ ?_
    · have hl : ((data[start / 8]?.getD 0).toNat &&& (2 ^ (8 - start % 8) - 1)) <
          2 ^ (8 - start % 8) :=
        Nat.lt_of_le_of_lt Nat.and_le_right (Nat.sub_lt (Nat.two_pow_pos _) Nat.one_pos)
      have hpow : 2 ^ n = 2 ^ (8 - start % 8) * 2 ^ (n - (8 - start % 8)) := by
        rw [← Nat.pow_add]
        congr 1
        omega
      rw [Nat.shiftLeft_eq, hpow]
      exact Nat.mul_lt_mul_of_pos_right hl (Nat.two_pow_pos _)
    · have hbyte := (data[(start + n - 1) / 8]?.getD 0).toNat_lt
      have hpow : 2 ^ 8 = 2 ^ (n - (8 - start % 8)) * 2 ^ (8 - (n - (8 - start % 8))) := by
        rw [← Nat.pow_add]
        congr 1
        omega
      have hr : (data[(start + n - 1) / 8]?.getD 0).toNat >>> (8 - (n - (8 - start % 8))) <
          2 ^ (n - (8 - start % 8)) := by
        rw [Nat.shiftRight_eq_div_pow, Nat.div_lt_iff_lt_mul (Nat.two_pow_pos _), ← hpow]
        exact hbyte
      exact Nat.lt_of_lt_of_le hr (Nat.pow_le_pow_right (by decide) (by omega))

/-- A window is its bits. -/
theorem getBits_congr {n : Nat} (hpos : 0 < n) (hn : n ≤ 8) {xs ys : List UInt8} {start start' : Nat}
    (h : ∀ i < n, bit xs (start + i) = bit ys (start' + i)) :
    getBits n xs start = getBits n ys start' := by
  refine Nat.eq_of_testBit_eq fun i => ?_
  by_cases hi : i < n
  · have hj : i = n - 1 - (n - 1 - i) := by omega
    rw [hj, testBit_getBits hn xs start (by omega), testBit_getBits hn ys start' (by omega)]
    exact h _ (by omega)
  · have hpow : 2 ^ n ≤ 2 ^ i := Nat.pow_le_pow_right (by decide) (Nat.le_of_not_lt hi)
    rw [Nat.testBit_lt_two_pow (Nat.lt_of_lt_of_le (getBits_lt hpos hn xs start) hpow),
      Nat.testBit_lt_two_pow (Nat.lt_of_lt_of_le (getBits_lt hpos hn ys start') hpow)]

/-! ## Writing -/

/-- `p[i] |= v` inside the string. -/
theorem orByte_inside {d : Decoder} {p i v : Nat} (hp : d.p = p) (h : p + i < d.out.length) :
    d.orByte i v = .ok { d with out := orAt d.out (p + i) v } := by
  have hnat : (d.p + i).toNat = p + i := by omega
  rw [Decoder.orByte, if_pos (by omega), hnat]

/-- The end of the string may be or-ed to as well, by a value whose byte is zero. -/
theorem orByte_spec {d : Decoder} {p i v : Nat} (hp : d.p = p)
    (h : p + i < d.out.length ∨ p + i = d.out.length ∧ v % 2 ^ 8 = 0) :
    ∃ out, d.orByte i v = .ok { d with out := out } ∧ out.length = d.out.length ∧
      ∀ j, bit out j = (bit d.out j || (decide (j / 8 = p + i) && v.testBit (7 - j % 8))) := by
  rcases h with hlt | ⟨heq, hzero⟩
  · exact ⟨_, orByte_inside hp hlt, length_orAt .., fun j => bit_orAt v j hlt⟩
  · refine ⟨d.out, ?_, rfl, fun j => ?_⟩
    · rw [Decoder.orByte, if_neg (by omega), if_pos ⟨by omega, hzero⟩]
    · have hmod := Nat.testBit_mod_two_pow v 8 (7 - j % 8)
      have hlt8 : 7 - j % 8 < 8 := by omega
      rw [hzero, Nat.zero_testBit, decide_eq_true hlt8, Bool.true_and] at hmod
      rw [← hmod, Bool.and_false, Bool.or_false]

/-- The bits of the value, from its highest on, are or-ed to those of the string. -/
theorem setBits_spec {n : Nat} (hpos : 0 < n) (hn : n ≤ 8) {d : Decoder} {p v : Nat} (hp : d.p = p)
    (hv : v < 2 ^ n) (start : Nat) (hroom : 8 * p + start + n ≤ 8 * d.out.length) :
    ∃ out, d.setBits n v start = .ok { d with out := out } ∧ out.length = d.out.length ∧
      ∀ j, bit out j = (bit d.out j || (decide (8 * p + start ≤ j ∧ j < 8 * p + start + n) &&
        v.testBit (n - 1 - (j - (8 * p + start))))) := by
  have hhigh : ∀ i, n ≤ i → v.testBit i = false := fun i hi =>
    Nat.testBit_lt_two_pow (Nat.lt_of_lt_of_le hv (Nat.pow_le_pow_right (by decide) hi))
  unfold Decoder.setBits
  dsimp only
  split
  · -- the window is in one byte, and does not end with it
    rename_i hbyte
    refine ⟨_, orByte_inside hp (by omega), length_orAt .., fun j => ?_⟩
    rw [bit_orAt _ j (by omega), Nat.testBit_shiftLeft]
    congr 1
    by_cases hj : 8 * p + start ≤ j ∧ j < 8 * p + start + n
    · have hdiv : j / 8 = p + start / 8 := by omega
      have hge : 7 - j % 8 ≥ 8 - start % 8 - n := by omega
      have hidx : 7 - j % 8 - (8 - start % 8 - n) = n - 1 - (j - (8 * p + start)) := by omega
      rw [decide_eq_true hdiv, decide_eq_true hge, hidx, decide_eq_true hj, Bool.true_and]
    · rw [decide_eq_false hj, Bool.false_and]
      by_cases hdiv : j / 8 = p + start / 8
      · by_cases hge : 7 - j % 8 ≥ 8 - start % 8 - n
        · rw [hhigh _ (by omega), Bool.and_false, Bool.and_false]
        · rw [decide_eq_false hge, Bool.false_and, Bool.and_false]
      · rw [decide_eq_false hdiv, Bool.false_and]
  · -- the window ends with its first byte, or in the second
    rename_i hbytes
    have hnext : (start + n) / 8 = start / 8 + 1 := by omega
    obtain ⟨out₁, hout₁, hlen₁, hbit₁⟩ :=
      orByte_spec (i := start / 8) (v := v >>> (n - (8 - start % 8))) hp (.inl (by omega))
    have hroom₂ : p + (start + n) / 8 < out₁.length ∨
        p + (start + n) / 8 = out₁.length ∧
          (v <<< (8 - (n - (8 - start % 8)))) % 2 ^ 8 = 0 := by
      by_cases hend : n = 8 - start % 8
      · have hshift : (v <<< (8 - (n - (8 - start % 8)))) % 2 ^ 8 = 0 := by
          rw [hend, Nat.sub_self, Nat.sub_zero, Nat.shiftLeft_eq]
          exact Nat.mul_mod_left v _
        rcases Nat.lt_or_ge (p + (start + n) / 8) out₁.length with hlt | hge
        · exact .inl hlt
        · exact .inr ⟨by omega, hshift⟩
      · exact .inl (by omega)
    obtain ⟨out₂, hout₂, hlen₂, hbit₂⟩ := orByte_spec (d := { d with out := out₁ }) hp hroom₂
    refine ⟨out₂, ?_, hlen₂.trans hlen₁, fun j => ?_⟩
    · rw [hout₁]
      exact hout₂
    · rw [hbit₂, hbit₁, Bool.or_assoc, Nat.testBit_shiftRight, Nat.testBit_shiftLeft, hnext]
      congr 1
      by_cases hfirst : j / 8 = p + start / 8
      · have hsecond : ¬ j / 8 = p + (start / 8 + 1) := by omega
        rw [decide_eq_true hfirst, decide_eq_false hsecond, Bool.true_and, Bool.false_and,
          Bool.or_false]
        by_cases hj : 8 * p + start ≤ j ∧ j < 8 * p + start + n
        · have hidx : n - (8 - start % 8) + (7 - j % 8) = n - 1 - (j - (8 * p + start)) := by omega
          rw [hidx, decide_eq_true hj, Bool.true_and]
        · rw [decide_eq_false hj, Bool.false_and, hhigh _ (by omega)]
      · rw [decide_eq_false hfirst, Bool.false_and, Bool.false_or]
        by_cases hj : 8 * p + start ≤ j ∧ j < 8 * p + start + n
        · have hsecond : j / 8 = p + (start / 8 + 1) := by omega
          have hge : 7 - j % 8 ≥ 8 - (n - (8 - start % 8)) := by omega
          have hidx : 7 - j % 8 - (8 - (n - (8 - start % 8))) = n - 1 - (j - (8 * p + start)) := by
            omega
          rw [decide_eq_true hsecond, decide_eq_true hge, hidx, decide_eq_true hj, Bool.true_and]
        · rw [decide_eq_false hj, Bool.false_and]
          by_cases hsecond : j / 8 = p + (start / 8 + 1)
          · have hlt : ¬ 7 - j % 8 ≥ 8 - (n - (8 - start % 8)) := by omega
            rw [decide_eq_false hlt, Bool.false_and, Bool.and_false]
          · rw [decide_eq_false hsecond, Bool.false_and]

end Primitives.Base64
