import Mathlib.Algebra.Order.Group.Int
import Mathlib.Algebra.Order.SuccPred
import Mathlib.Data.Int.SuccPred
import Primitives.Lib.Odometer
import Primitives.Versions.Order

/-!
# The next version and the one before

`++` and `--` count in digits up to `maxNumber()`: a release has a next one of its length unless all its
components are the greatest, and one before it unless all are 0, and the two take each other back
(`increment_decrement`).
-/

set_option autoImplicit false

namespace Primitives.Versions

open Lib

/-- No extra part, and components in `[0, maxNumber()]`. -/
structure Version.Release (v : Version) : Prop where
  numbers : ∀ n ∈ v.numbers, 0 ≤ n ∧ n ≤ Version.maxNumber
  extra : v.extra = []

/-! ## The loops -/

/-- The greatest components become 0, and the one before them goes up. -/
theorem carry_replicate {n : Int} (hn : n < Version.maxNumber) (k : ℕ) (rest : List Int) :
    carry (List.replicate k Version.maxNumber ++ n :: rest) =
      .ok (List.replicate k 0 ++ (n + 1) :: rest) := by
  induction k with
  | zero =>
    have hmax : n ≠ int64Max := by
      unfold Version.maxNumber at hn
      unfold int64Max
      omega
    exact (if_neg hn.ne).trans (if_neg hmax)
  | succ k ih =>
    rw [List.replicate_succ, List.cons_append, carry, if_pos rfl, ih]
    rfl

/-- Components of 0 become the greatest, and the one before them goes down. -/
theorem borrow_replicate {n : Int} (hn : 0 < n) (k : ℕ) (rest : List Int) :
    borrow (List.replicate k 0 ++ n :: rest) =
      .ok (List.replicate k Version.maxNumber ++ (n - 1) :: rest) := by
  induction k with
  | zero =>
    have hmin : n ≠ -(int64Max + 1) := by omega
    exact (if_neg hn.ne').trans (if_neg hmin)
  | succ k ih =>
    rw [List.replicate_succ, List.cons_append, borrow, if_pos rfl, ih]
    rfl

theorem reverse_append_replicate (pre : List Int) (n c : Int) (k : ℕ) :
    (pre ++ n :: List.replicate k c).reverse = List.replicate k c ++ n :: pre.reverse := by
  rw [List.reverse_append, List.reverse_cons, List.reverse_replicate, List.append_assoc,
    List.singleton_append]

namespace Version

/-! ## Bounds -/

/-- `max()` is above every release. -/
theorem Release.lt_max {v : Version} (h : v.Release) : v.key < max.key := by
  rw [key, key, Prod.Lex.toLex_lt_toLex]
  refine .inl ?_
  show sequence 0 v.numbers < sequence 0 [maxNumber + 1]
  cases hv : v.numbers with
  | nil =>
    have hzero : sequence (0 : Int) [] = sequence 0 [0] := (sequence_append_replicate 0 [] 1).symm
    rw [hzero]
    exact (sequence_cons_lt_iff 0 _ _ _ _).mpr (.inl (by decide))
  | cons n ns =>
    refine (sequence_cons_lt_iff 0 _ _ _ _).mpr (.inl (Int.lt_add_one_iff.mpr ?_))
    exact (h.numbers n (hv ▸ List.mem_cons_self)).2

theorem Release.eq_max {v : Version} (h : v.Release) : v.eq max = false := by
  rw [Bool.eq_false_iff]
  exact (eq_iff _ _).not.mpr h.lt_max.ne

/-- Only components of 0 are `min()`. -/
theorem eq_min_of_ne_zero {v : Version} (h : ∃ n ∈ v.numbers, n ≠ 0) : v.eq min = false := by
  obtain ⟨n, hn, hne⟩ := h
  obtain ⟨i, hi, rfl⟩ := List.getElem_of_mem hn
  rw [Bool.eq_false_iff]
  intro heq
  have hseq := (Prod.mk.inj (toLex_inj.mp ((eq_iff _ _).mp heq))).1
  have hzero : v.numbers.getD i 0 = [0].getD i 0 := congrFun (toLex_inj.mp hseq) i
  rw [List.getD_eq_getElem v.numbers 0 hi] at hzero
  refine hne (hzero.trans ?_)
  cases i with
  | zero => rfl
  | succ i => rfl

/-- Releases of one length are ordered as their components. -/
theorem Release.lt_iff {v w : Version} (hv : v.Release) (hw : w.Release)
    (hlen : v.numbers.length = w.numbers.length) : v.lt w = true ↔ v.numbers < w.numbers := by
  rw [Version.lt_iff, key, key, hv.extra, hw.extra, Prod.Lex.toLex_lt_toLex, sequence_lt_iff 0 hlen]
  exact or_iff_left fun h => lt_irrefl _ h.2

theorem Release.le_iff {v w : Version} (hv : v.Release) (hw : w.Release)
    (hlen : v.numbers.length = w.numbers.length) : v.le w = true ↔ v.numbers ≤ w.numbers := by
  rw [Version.le_iff, ← not_lt, ← Version.lt_iff, hw.lt_iff hv hlen.symm, not_lt]

/-! ## Steps -/

/-- The components of a release up to one of them, with another one in its place and all those behind it
alike. -/
theorem Release.replaced {v : Version} (h : v.Release) {pre rest : List Int} {n m c : Int}
    (hv : v.numbers = pre ++ n :: rest) (hm : 0 ≤ m ∧ m ≤ maxNumber) (hc : 0 ≤ c ∧ c ≤ maxNumber) (k : ℕ) :
    (⟨pre ++ m :: List.replicate k c, []⟩ : Version).Release := by
  refine ⟨fun x hx => ?_, rfl⟩
  rcases List.mem_append.mp hx with hx | hx
  · refine h.numbers x ?_
    rw [hv]
    exact List.mem_append_left _ hx
  · rcases List.mem_cons.mp hx with rfl | hx
    · exact hm
    · rw [List.eq_of_mem_replicate hx]
      exact hc

/-- `++`: the components of the next version. -/
theorem Release.incrementVersion_eq {v : Version} (h : v.Release)
    (hmax : ∃ n ∈ v.numbers, n ≠ maxNumber) :
    ∃ ns, v.incrementVersion = .ok ⟨ns, []⟩ ∧ Next 0 maxNumber v.numbers ns ∧
      (⟨ns, []⟩ : Version).Release := by
  obtain ⟨pre, n, k, hv, hn⟩ := exists_append_replicate hmax
  have hmem : n ∈ v.numbers := by
    rw [hv]
    exact List.mem_append_right _ List.mem_cons_self
  obtain ⟨hpos, hle⟩ := h.numbers n hmem
  have hlt : n < maxNumber := lt_of_le_of_ne hle hn
  refine ⟨pre ++ (n + 1) :: List.replicate k 0, ?_, ⟨pre, n, n + 1, k, Order.covBy_add_one n, hv, rfl⟩,
    h.replaced hv ⟨by omega, hlt⟩ ⟨le_rfl, by decide⟩ k⟩
  rw [incrementVersion, if_neg (Bool.eq_false_iff.mp h.eq_max), hv, reverse_append_replicate,
    carry_replicate hlt, h.extra]
  show Except.ok (Version.mk (List.reverse _) []) = _
  rw [← reverse_append_replicate, List.reverse_reverse]

/-- `--`: the components of the version before. -/
theorem Release.decrementVersion_eq {v : Version} (h : v.Release) (hmin : ∃ n ∈ v.numbers, n ≠ 0) :
    ∃ ns, v.decrementVersion = .ok ⟨ns, []⟩ ∧ Next 0 maxNumber ns v.numbers ∧
      (⟨ns, []⟩ : Version).Release := by
  obtain ⟨pre, n, k, hv, hn⟩ := exists_append_replicate hmin
  have hmem : n ∈ v.numbers := by
    rw [hv]
    exact List.mem_append_right _ List.mem_cons_self
  obtain ⟨hpos, hle⟩ := h.numbers n hmem
  have hlt : 0 < n := lt_of_le_of_ne hpos (Ne.symm hn)
  have hcov : n - 1 ⋖ n := by
    have h := Order.covBy_add_one (n - 1)
    rwa [Int.sub_add_cancel] at h
  refine ⟨pre ++ (n - 1) :: List.replicate k maxNumber, ?_, ⟨pre, n - 1, n, k, hcov, rfl, hv⟩,
    h.replaced hv ⟨by omega, by omega⟩ ⟨by decide, le_rfl⟩ k⟩
  rw [decrementVersion, if_neg (Bool.eq_false_iff.mp (eq_min_of_ne_zero hmin)), hv,
    reverse_append_replicate, borrow_replicate hlt, h.extra]
  show Except.ok (Version.mk (List.reverse _) []) = _
  rw [← reverse_append_replicate, List.reverse_reverse]

/-! ## Least and greatest -/

/-- The least version of its length that is above `v`. -/
structure LeastAbove (v w : Version) : Prop where
  release : w.Release
  length : w.numbers.length = v.numbers.length
  lt : v.lt w = true
  least : ∀ u : Version, u.Release → u.numbers.length = v.numbers.length → v.lt u = true → w.le u = true

/-- The greatest version of its length that is below `v`. -/
structure GreatestBelow (v w : Version) : Prop where
  release : w.Release
  length : w.numbers.length = v.numbers.length
  lt : w.lt v = true
  greatest : ∀ u : Version, u.Release → u.numbers.length = v.numbers.length → u.lt v = true → u.le w = true

theorem Release.leastAbove {v w : Version} (hv : v.Release) (hw : w.Release)
    (h : Next 0 maxNumber v.numbers w.numbers) : LeastAbove v w where
  release := hw
  length := h.length_eq
  lt := (hv.lt_iff hw h.length_eq.symm).mpr h.lt
  least u hu hlen hlt := by
    rw [hv.lt_iff hu hlen.symm, h.lt_iff_le hlen hu.numbers] at hlt
    exact (hw.le_iff hu (h.length_eq.trans hlen.symm)).mpr hlt

theorem Release.greatestBelow {v w : Version} (hv : v.Release) (hw : w.Release)
    (h : Next 0 maxNumber w.numbers v.numbers) : GreatestBelow v w where
  release := hw
  length := h.length_eq.symm
  lt := (hw.lt_iff hv h.length_eq.symm).mpr h.lt
  greatest u hu hlen hlt := by
    have hlen' := hlen.trans h.length_eq
    rw [hu.lt_iff hv hlen, h.lt_iff_le' hlen' hu.numbers] at hlt
    exact (hu.le_iff hw hlen').mpr hlt

/-- **`++` and `--`** are the next version of the length and the one before, and each takes the other
back. -/
theorem increment_decrement (v : Version) (h : v.Release) :
    ((∃ n ∈ v.numbers, n ≠ maxNumber) →
      ∃ w, v.incrementVersion = .ok w ∧ LeastAbove v w ∧ w.decrementVersion = .ok v) ∧
    ((∃ n ∈ v.numbers, n ≠ 0) →
      ∃ w, v.decrementVersion = .ok w ∧ GreatestBelow v w ∧ w.incrementVersion = .ok v) := by
  have hv : (⟨v.numbers, []⟩ : Version) = v := by rw [← h.extra]
  constructor
  · intro hmax
    obtain ⟨ns, hinc, hnext, hns⟩ := h.incrementVersion_eq hmax
    have hmin := hnext.exists_ne_bot fun x hx => (h.numbers x hx).1
    obtain ⟨ms, hdec, hback, hms⟩ := hns.decrementVersion_eq hmin
    refine ⟨⟨ns, []⟩, hinc, h.leastAbove hns hnext, ?_⟩
    rw [hdec, hback.left_unique hnext hms.numbers h.numbers, hv]
  · intro hmin
    obtain ⟨ns, hdec, hnext, hns⟩ := h.decrementVersion_eq hmin
    have hmax := hnext.exists_ne_top fun x hx => (h.numbers x hx).2
    obtain ⟨ms, hinc, hback, hms⟩ := hns.incrementVersion_eq hmax
    refine ⟨⟨ns, []⟩, hdec, h.greatestBelow hns hnext, ?_⟩
    rw [hinc, hback.right_unique hnext hms.numbers h.numbers, hv]

/-- `0.1.999999999` -/
theorem increment_decrement_carry :
    (∃ w, (⟨[0, 1, 999999999], []⟩ : Version).incrementVersion = .ok w ∧
      LeastAbove ⟨[0, 1, 999999999], []⟩ w ∧ w.decrementVersion = .ok ⟨[0, 1, 999999999], []⟩) ∧
    ∃ w, (⟨[0, 1, 0], []⟩ : Version).decrementVersion = .ok w ∧
      GreatestBelow ⟨[0, 1, 0], []⟩ w ∧ w.incrementVersion = .ok ⟨[0, 1, 0], []⟩ :=
  ⟨(increment_decrement ⟨[0, 1, 999999999], []⟩ ⟨by decide, rfl⟩).1
      ⟨0, by decide, by decide⟩,
    (increment_decrement ⟨[0, 1, 0], []⟩ ⟨by decide, rfl⟩).2
      ⟨1, by decide, by decide⟩⟩

end Version

end Primitives.Versions
