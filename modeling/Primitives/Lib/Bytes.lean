import Mathlib.Data.List.Basic
import Mathlib.Algebra.Ring.Nat

/-!
# Runs of a list, and numbers as bytes

`window` reads the run of a list at an index and `overwrite` puts another run there; a list that
is cut as `pre ++ run ++ post` is read and overwritten at `pre.length` by the lemmas below, so that
what a memory holds can be said by appending its parts.

`encodeLE` writes a number as bytes, the lowest first, and `decodeLE` reads it.
-/

set_option autoImplicit false

namespace Primitives.Lib

variable {α : Type}

/-- The run of `n` elements at index `i`. -/
def window (xs : List α) (i n : Nat) : List α := (xs.drop i).take n

/-- The run `ys` in place of what stands at index `i`. -/
def overwrite (xs : List α) (i : Nat) (ys : List α) : List α :=
  xs.take i ++ (ys ++ xs.drop (i + ys.length))

@[simp] theorem length_window {xs : List α} {i n : Nat} (h : i + n ≤ xs.length) :
    (window xs i n).length = n := by
  rw [window, List.length_take, List.length_drop]
  omega

@[simp] theorem length_overwrite {xs ys : List α} {i : Nat} (h : i + ys.length ≤ xs.length) :
    (overwrite xs i ys).length = xs.length := by
  simp only [overwrite, List.length_append, List.length_take, List.length_drop]
  omega

/-- The run that stands after `pre` is read off. -/
theorem window_append (pre run post : List α) :
    window (pre ++ (run ++ post)) pre.length run.length = run := by
  rw [window, List.drop_left, List.take_left]

/-- What stands after `pre` is replaced by a run of the same length. -/
theorem overwrite_append {pre old post new : List α} (h : old.length = new.length) :
    overwrite (pre ++ (old ++ post)) pre.length new = pre ++ (new ++ post) := by
  have hdrop : (pre ++ (old ++ post)).drop (pre.length + new.length) = post := by
    rw [← List.drop_drop, List.drop_left, ← h, List.drop_left]
  rw [overwrite, List.take_left, hdrop]

/-- A list that ends in one repeated element is overwritten from there on. -/
theorem overwrite_replicate {pre ys : List α} {x : α} {n : Nat} (h : ys.length ≤ n) :
    overwrite (pre ++ List.replicate n x) pre.length ys =
      pre ++ (ys ++ List.replicate (n - ys.length) x) := by
  have hsplit : List.replicate n x =
      List.replicate ys.length x ++ List.replicate (n - ys.length) x := by
    rw [List.replicate_append_replicate, Nat.add_sub_cancel' h]
  rw [hsplit]
  exact overwrite_append (List.length_replicate ..)

/-! ## Numbers as bytes -/

/-- The number that the bytes stand for, the lowest first. -/
def decodeLE : List UInt8 → Nat
  | [] => 0
  | b :: bs => b.toNat + 256 * decodeLE bs

/-- The `width` lowest bytes of a number, the lowest first. -/
def encodeLE : Nat → Nat → List UInt8
  | 0, _ => []
  | width + 1, n => UInt8.ofNat n :: encodeLE width (n / 256)

@[simp] theorem length_encodeLE (width n : Nat) : (encodeLE width n).length = width := by
  induction width generalizing n with
  | zero => rfl
  | succ width ih => rw [encodeLE, List.length_cons, ih]

theorem decodeLE_encodeLE {width n : Nat} (h : n < 256 ^ width) :
    decodeLE (encodeLE width n) = n := by
  induction width generalizing n with
  | zero =>
    rw [Nat.pow_zero, Nat.lt_one_iff] at h
    rw [h]
    rfl
  | succ width ih =>
    have hdiv : n / 256 < 256 ^ width := by
      rw [Nat.div_lt_iff_lt_mul (by decide), ← Nat.pow_succ]
      exact h
    rw [encodeLE, decodeLE, ih hdiv, UInt8.toNat_ofNat']
    exact Nat.mod_add_div n 256

/-- Bytes stand for a number that they have room for. -/
theorem decodeLE_lt (bs : List UInt8) : decodeLE bs < 256 ^ bs.length := by
  induction bs with
  | nil => exact Nat.one_pos
  | cons b bs ih =>
    have hb := b.toNat_lt
    rw [decodeLE, List.length_cons, Nat.pow_succ]
    omega

@[simp] theorem decodeLE_replicate_zero (n : Nat) : decodeLE (List.replicate n 0) = 0 := by
  induction n with
  | zero => rfl
  | succ n ih =>
    rw [List.replicate_succ, decodeLE, ih]
    rfl

end Primitives.Lib
