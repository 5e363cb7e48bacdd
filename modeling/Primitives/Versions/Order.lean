import Primitives.Versions.Model
import Mathlib.Data.Sum.Order
import Mathlib.Data.Prod.Lex
import Mathlib.Order.WithBot
import Mathlib.Data.Char
import Mathlib.Data.Int.Order.Basic

/-!
# The order of versions

A version's key (`Version.key`) is the sequence of its numbers, going on with zeros, and then its
extra part, where none is above all others. Keys are linearly ordered, and the five operators
compare keys (`Version.lt_iff` and the four after it).
-/

set_option autoImplicit false

namespace Primitives.Versions

open Lib

/-! ## Keys -/

def Value.key : Value → Lex (Str ⊕ Int)
  | .string s => toLex (.inl s)
  | .number n => toLex (.inr n)

/-- An empty extra part is the top. -/
def Extra.key (e : Extra) : WithTop (List (Lex (Str ⊕ Int))) :=
  if e = [] then ⊤ else ↑(e.map Value.key)

abbrev Key : Type := Lex (ℕ → ℤ) ×ₗ WithTop (List (Lex (Str ⊕ Int)))

def Version.key (v : Version) : Key := toLex (sequence 0 v.numbers, Extra.key v.extra)

theorem Value.less_iff (a b : Value) : a.less b = true ↔ a.key < b.key := by
  cases a with
  | string s =>
    cases b with
    | string t =>
      rw [Value.less, Value.key, Value.key, Sum.Lex.inl_lt_inl_iff,
        lexicographicalCompare_self_iff (by simp)]
    | number n => simp [Value.less, Value.key]
  | number m =>
    cases b with
    | string t => simp [Value.less, Value.key]
    | number n => simp [Value.less, Value.key]

theorem Value.key_injective : Function.Injective Value.key := by
  intro a b h
  cases a <;> cases b <;> simp_all [Value.key]

theorem Extra.less_iff (l r : Extra) : l.less r = true ↔ l.key < r.key := by
  cases l with
  | nil => cases r <;> simp [Extra.less, Extra.key]
  | cons a l =>
    cases r with
    | nil => simp [Extra.less, Extra.key]
    | cons b r =>
      simp only [Extra.less, Extra.key, List.isEmpty_cons, Bool.false_eq_true, if_false,
        Bool.and_self, reduceCtorEq, WithTop.coe_lt_coe]
      exact lexicographicalCompare_iff Value.key Value.less_iff _ _

theorem Extra.key_injective : Function.Injective Extra.key := by
  intro l r h
  cases l <;> cases r <;> simp_all [Extra.key, Value.key_injective.eq_iff,
    (List.map_injective_iff.mpr Value.key_injective).eq_iff]

namespace Version

/-! ## Padding -/

theorem resize_length (v : Version) (n : Nat) : (v.resize n).numbers.length = n := by
  simp only [resize, List.length_append, List.length_take, List.length_replicate]
  omega

theorem resize_key (v : Version) {n : Nat} (h : v.numbers.length ≤ n) :
    (v.resize n).key = v.key := by
  rw [key, key, resize, List.take_of_length_le h, sequence_append_replicate]

theorem resize_self (v : Version) : v.resize v.numbers.length = v := by
  simp [resize]

/-- Both versions are padded to the greater length. -/
theorem cmp_eq (v w : Version) (f : Version → Version → Bool) :
    cmp v w f = f (v.resize (Max.max v.numbers.length w.numbers.length))
      (w.resize (Max.max v.numbers.length w.numbers.length)) := by
  rw [cmp]
  split
  · rfl
  · rename_i heq
    have hlen : v.numbers.length = w.numbers.length := not_not.mp heq
    rw [← hlen, Nat.max_self, resize_self, hlen, resize_self]

/-! ## The operators -/

theorem tieLess_iff {v w : Version} (h : v.numbers.length = w.numbers.length) :
    v.tieLess w = true ↔ v.key < w.key := by
  have hless : ∀ l m : List Int,
      lexicographicalCompare (fun m n : Int => m < n) l m = true ↔ l < m :=
    lexicographicalCompare_self_iff (by simp)
  rw [tieLess, key, key, Prod.Lex.toLex_lt_toLex, sequence_lt_iff 0 h, sequence_inj 0 h,
    ← Extra.less_iff]
  exact compared_iff (hless _ _) (hless _ _) _

theorem tieEqual_iff {v w : Version} (h : v.numbers.length = w.numbers.length) :
    v.tieEqual w = true ↔ v.key = w.key := by
  rw [tieEqual, key, key, Bool.and_eq_true, beq_iff_eq, beq_iff_eq, toLex_inj, Prod.mk.injEq,
    sequence_inj 0 h, Extra.key_injective.eq_iff]

section Operators

variable (v w : Version)

/-- What a functor that compares keys gives. -/
theorem cmp_iff {f : Version → Version → Bool} {r : Key → Key → Prop}
    (h : ∀ {a b : Version}, a.numbers.length = b.numbers.length →
      (f a b = true ↔ r a.key b.key)) : cmp v w f = true ↔ r v.key w.key := by
  rw [cmp_eq, h (by rw [resize_length, resize_length]), resize_key _ (Nat.le_max_left _ _),
    resize_key _ (Nat.le_max_right _ _)]

@[simp] theorem lt_iff : v.lt w = true ↔ v.key < w.key :=
  cmp_iff v w tieLess_iff

@[simp] theorem gt_iff : v.gt w = true ↔ w.key < v.key :=
  cmp_iff (r := fun a b => b < a) v w fun h => tieLess_iff h.symm

@[simp] theorem le_iff : v.le w = true ↔ v.key ≤ w.key := by
  refine cmp_iff v w fun {a b} h => ?_
  rw [Bool.not_eq_true', ← Bool.not_eq_true, tieLess_iff h.symm, not_lt]

@[simp] theorem ge_iff : v.ge w = true ↔ w.key ≤ v.key := by
  refine cmp_iff (r := fun a b => b ≤ a) v w fun {a b} h => ?_
  rw [Bool.not_eq_true', ← Bool.not_eq_true, tieLess_iff h, not_lt]

@[simp] theorem eq_iff : v.eq w = true ↔ v.key = w.key :=
  cmp_iff v w tieEqual_iff

end Operators

/-! ## The total preorder -/

/-- The version with `n` more components, all 0. -/
def addZeros (v : Version) (n : Nat) : Version :=
  { v with numbers := v.numbers ++ List.replicate n 0 }

theorem addZeros_key (v : Version) (n : Nat) : (v.addZeros n).key = v.key := by
  rw [key, key, addZeros, sequence_append_replicate]

/-- **The order of versions.** Exactly one of `<`, `==` and `>` holds, `<` and `<=` are
transitive, the other operators follow from `<` and `==`, components of 0 at the end do not
count, and a version with an extra part is below its numbers alone. -/
theorem order_total :
    (∀ v w : Version, [v.lt w, v.eq w, w.lt v].count true = 1) ∧
    (∀ u v w : Version, u.lt v = true → v.lt w = true → u.lt w = true) ∧
    (∀ u v w : Version, u.le v = true → v.le w = true → u.le w = true) ∧
    (∀ v w : Version, v.gt w = w.lt v ∧ v.ge w = w.le v ∧ v.le w = (v.lt w || v.eq w)) ∧
    (∀ (v w : Version) (m n : Nat), ∀ op ∈ [lt, gt, le, ge, eq],
      op (v.addZeros m) (w.addZeros n) = op v w) ∧
    (∀ v w : Version, v.extra ≠ [] → w.extra = [] →
      (⟨v.numbers, []⟩ : Version).eq ⟨w.numbers, []⟩ = true → v.lt w = true) := by
  refine ⟨fun v w => ?_, fun u v w => ?_, fun u v w => ?_, fun v w => ⟨?_, ?_, ?_⟩,
    fun v w m n op hop => ?_, fun v w hv hw heq => ?_⟩
  · exact count_trichotomy (lt_iff v w) (eq_iff v w) (lt_iff w v)
  · rw [lt_iff, lt_iff, lt_iff]
    exact lt_trans
  · rw [le_iff, le_iff, le_iff]
    exact le_trans
  · rw [Bool.eq_iff_iff, gt_iff, lt_iff]
  · rw [Bool.eq_iff_iff, ge_iff, le_iff]
  · rw [Bool.eq_iff_iff, Bool.or_eq_true, le_iff, lt_iff, eq_iff]
    exact le_iff_lt_or_eq
  · have hkey : (v.addZeros m).key = v.key ∧ (w.addZeros n).key = w.key :=
      ⟨addZeros_key v m, addZeros_key w n⟩
    simp only [List.mem_cons, List.not_mem_nil, or_false] at hop
    rcases hop with rfl | rfl | rfl | rfl | rfl
    all_goals rw [Bool.eq_iff_iff]; simp [hkey]
  · rw [eq_iff, key, key, toLex_inj, Prod.mk.injEq] at heq
    rw [lt_iff, key, key, Prod.Lex.toLex_lt_toLex]
    refine .inr ⟨heq.1, ?_⟩
    rw [Extra.key, Extra.key, if_neg hv, if_pos hw]
    exact WithTop.coe_lt_top _

end Version

end Primitives.Versions
