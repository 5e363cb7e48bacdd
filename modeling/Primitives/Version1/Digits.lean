import Primitives.Lib.Fallible
import Primitives.Version1.Actions
import Primitives.Version1.Pairs

/-!
# Numbers as digits

When the loops of `++` and `--` leave the vector: a carry does if every number is the greatest, a
borrow if every one is 0, and the two versions that are returned as they are do not stand for all of
these. What `prepare_version` and `prepare_pair` do to a version neither brings it there nor away from
there, but for the numbers that were open.
-/

set_option autoImplicit false

namespace Primitives.Version1

open Lib
open Versions (Extra)

namespace Version

/-! ## The loops -/

theorem carry_eq_outOfBounds_iff (l : List Int) :
    carry l = .error .outOfBounds ↔ ∀ n ∈ l, n = maxNumber := by
  induction l with
  | nil => exact iff_of_true rfl (List.forall_mem_nil _)
  | cons n l ih =>
    rw [carry, List.forall_mem_cons]
    split
    · rename_i hn
      rw [bind_eq_error_iff, ih]
      constructor
      · rintro (h | ⟨ns, -, h⟩)
        · exact ⟨hn, h⟩
        · cases h
      · exact fun h => .inl h.2
    · rename_i hn
      refine iff_of_false ?_ fun h => hn h.1
      split
      · exact fun h => by cases h
      · exact fun h => by cases h

theorem borrow_eq_outOfBounds_iff (l : List Int) :
    borrow l = .error .outOfBounds ↔ ∀ n ∈ l, n = 0 := by
  induction l with
  | nil => exact iff_of_true rfl (List.forall_mem_nil _)
  | cons n l ih =>
    rw [borrow, List.forall_mem_cons]
    split
    · rename_i hn
      rw [bind_eq_error_iff, ih]
      constructor
      · rintro (h | ⟨ns, -, h⟩)
        · exact ⟨hn, h⟩
        · cases h
      · exact fun h => .inl h.2
    · rename_i hn
      refine iff_of_false ?_ fun h => hn h.1
      split
      · exact fun h => by cases h
      · exact fun h => by cases h

/-- The number that a carry comes to is the greatest that there is. -/
def carryStops (ns : List Int) : Bool :=
  (ns.reverse.dropWhile (· = maxNumber)).head? = some (int64Max : Int)

theorem carry_eq_overflow_iff (l : List Int) :
    carry l = .error .overflow ↔ (l.dropWhile (· = maxNumber)).head? = some (int64Max : Int) := by
  induction l with
  | nil => exact iff_of_false (fun h => by cases h) (fun h => by cases h)
  | cons n l ih =>
    rw [carry]
    split
    · rename_i hn
      rw [bind_eq_error_iff, ih, List.dropWhile_cons_of_pos (by simpa using hn)]
      refine or_iff_left ?_
      rintro ⟨ns, -, h⟩
      cases h
    · rename_i hn
      rw [List.dropWhile_cons_of_neg (by simpa using hn), List.head?_cons, Option.some.injEq]
      split
      · rename_i hmax
        exact iff_of_true rfl hmax
      · rename_i hmax
        exact iff_of_false (fun h => by cases h) hmax

/-- `++` leaves the vector. -/
def leavesUp (v : Version) : Bool := v.numbers.all (· = maxNumber) && !v.eq (max v.getLevel)

/-- `--` leaves the vector. -/
def leavesDown (v : Version) : Bool := v.numbers.all (· = 0) && !v.eq (min v.getLevel)

theorem incrementVersion_outOfBounds_iff (v : Version) :
    v.incrementVersion = .error .outOfBounds ↔ v.leavesUp = true := by
  rw [incrementVersion, leavesUp, Bool.and_eq_true, Bool.not_eq_true', List.all_eq_true]
  split
  · rename_i h
    refine iff_of_false (fun h' => by cases h') fun h' => ?_
    exact Bool.false_ne_true (h'.2.symm.trans h)
  · rename_i h
    rw [bind_eq_error_iff, carry_eq_outOfBounds_iff]
    constructor
    · rintro (h' | ⟨ns, -, h'⟩)
      · exact ⟨fun n hn => decide_eq_true (h' n (List.mem_reverse.mpr hn)), Bool.eq_false_iff.mpr h⟩
      · cases h'
    · exact fun h' => .inl fun n hn => of_decide_eq_true (h'.1 n (List.mem_reverse.mp hn))

theorem decrementVersion_outOfBounds_iff (v : Version) :
    v.decrementVersion = .error .outOfBounds ↔ v.leavesDown = true := by
  rw [decrementVersion, leavesDown, Bool.and_eq_true, Bool.not_eq_true', List.all_eq_true]
  split
  · rename_i h
    refine iff_of_false (fun h' => by cases h') fun h' => ?_
    exact Bool.false_ne_true (h'.2.symm.trans h)
  · rename_i h
    rw [bind_eq_error_iff, borrow_eq_outOfBounds_iff]
    constructor
    · rintro (h' | ⟨ns, -, h'⟩)
      · exact ⟨fun n hn => decide_eq_true (h' n (List.mem_reverse.mpr hn)), Bool.eq_false_iff.mpr h⟩
      · cases h'
    · exact fun h' => .inl fun n hn => of_decide_eq_true (h'.1 n (List.mem_reverse.mp hn))

/-! ## Versions of one level -/

variable {v w : Version} {level : Nat}

theorem length_max (h : minimumLevel ≤ level) : (max level).numbers.length = level := by
  rw [max, List.length_replicate]
  exact Nat.max_eq_left h

theorem length_min (h : minimumLevel ≤ level) : (min level).numbers.length = level := by
  rw [min, List.length_append, List.length_replicate, List.length_singleton]
  exact Nat.sub_add_cancel (le_trans (by decide) (Nat.le_max_right level minimumLevel)) |>.trans
    (Nat.max_eq_left h)

/-- Versions of one level are equal if their parts are. -/
theorem eq_iff_of_length (h : v.numbers.length = w.numbers.length) (hw : w.branch = []) :
    v.eq w = true ↔ v.numbers = w.numbers ∧ v.extra = w.extra ∧ v.branch = [] := by
  have hwb : w.isBranch = false := by rw [isBranch, hw]; rfl
  rw [eq, hwb, Bool.or_false]
  split
  · rename_i hb
    rw [isBranch, decide_eq_true_eq] at hb
    rw [beq_iff_eq, hw]
    exact iff_of_false hb fun h' => hb h'.2.2
  · rename_i hb
    rw [isBranch, decide_eq_true_eq, not_not] at hb
    have hlevel : ¬ v.base.getLevel ≠ w.base.getLevel := not_not.mpr h
    rw [Versions.Version.eq, Versions.Version.cmp, if_neg hlevel, Versions.Version.tieEqual,
      Bool.and_eq_true, beq_iff_eq, beq_iff_eq]
    exact ⟨fun h' => ⟨h'.1, h'.2, hb⟩, fun h' => ⟨h'.1, h'.2.1⟩⟩

/-- All numbers are the greatest, and the version is not the greatest one. -/
def top (v : Version) : Bool := v.numbers.all (· = maxNumber) && (v.extra ≠ [] || v.isBranch)

theorem leavesUp_eq (h : minimumLevel ≤ v.getLevel) : v.leavesUp = v.top := by
  rw [Bool.eq_iff_iff, leavesUp, top, Bool.and_eq_true, Bool.and_eq_true, Bool.not_eq_true',
    List.all_eq_true]
  refine and_congr_right fun hall => ?_
  have hnumbers : v.numbers = (max v.getLevel).numbers := by
    rw [max, List.eq_replicate_iff]
    exact ⟨(Nat.max_eq_left h).symm, fun n hn => of_decide_eq_true (hall n hn)⟩
  rw [Bool.eq_false_iff, ne_eq, eq_iff_of_length (length_max h).symm rfl, Bool.or_eq_true,
    decide_eq_true_eq, isBranch, decide_eq_true_eq, ← not_and_or]
  exact not_congr ⟨fun h' => h'.2, fun h' => ⟨hnumbers, h'⟩⟩

theorem leavesDown_iff (h : minimumLevel ≤ v.getLevel) :
    v.leavesDown = true ↔ ∀ n ∈ v.numbers, n = 0 := by
  rw [leavesDown, Bool.and_eq_true, Bool.not_eq_true', List.all_eq_true]
  simp only [decide_eq_true_eq]
  refine and_iff_left_of_imp fun hall => ?_
  rw [Bool.eq_false_iff, ne_eq, eq_iff_of_length (length_min h).symm rfl]
  intro h'
  have hone : (1 : Int) ∈ v.numbers := by
    rw [h'.1, min]
    exact List.mem_append_right _ List.mem_cons_self
  exact absurd (hall 1 hone) (by decide)

theorem key_lt_iff (h : v.numbers.length = w.numbers.length) :
    v.key < w.key ↔ v.numbers < w.numbers ∨
      v.numbers = w.numbers ∧ Extra.key v.extra < Extra.key w.extra := by
  rw [key, key, Versions.Version.key, Versions.Version.key, Prod.Lex.toLex_lt_toLex]
  exact or_congr (sequence_lt_iff 0 h) (and_congr_left' (sequence_inj 0 h))

theorem mem_of_carryStops {l : List Int} (h : carryStops l = true) : (int64Max : Int) ∈ l := by
  rw [carryStops, decide_eq_true_eq] at h
  exact List.mem_reverse.mp ((List.dropWhile_sublist _).subset (List.mem_of_mem_head? h))

theorem incrementVersion_overflow_iff (h : minimumLevel ≤ v.getLevel) :
    v.incrementVersion = .error .overflow ↔ carryStops v.numbers = true := by
  rw [incrementVersion]
  split
  · rename_i hmax
    rw [eq_iff_of_length (length_max h).symm rfl] at hmax
    refine iff_of_false (fun h => by cases h) fun hstops => ?_
    have hmem := mem_of_carryStops hstops
    rw [hmax.1, max] at hmem
    exact absurd (List.eq_of_mem_replicate hmem) (by decide)
  · rw [bind_eq_error_iff, carry_eq_overflow_iff, carryStops, decide_eq_true_eq]
    refine or_iff_left ?_
    rintro ⟨l, -, h⟩
    cases h

theorem carry_error {l : List Int} {f : Failure} (h : carry l = .error f) :
    f = .outOfBounds ∨ f = .overflow := by
  induction l with
  | nil =>
    cases h
    exact .inl rfl
  | cons n l ih =>
    rw [carry] at h
    split at h
    · rcases bind_eq_error_iff.mp h with h | ⟨l', -, h⟩
      · exact ih h
      · cases h
    · split at h
      · cases h
        exact .inr rfl
      · cases h

/-- `++` gives a version if it neither leaves the vector nor overflows. -/
theorem exists_incrementVersion_iff (h : minimumLevel ≤ v.getLevel) :
    (∃ w, v.incrementVersion = .ok w) ↔
      ¬ v.leavesUp = true ∧ ¬ carryStops v.numbers = true := by
  rw [← incrementVersion_outOfBounds_iff, ← incrementVersion_overflow_iff h]
  cases hinc : v.incrementVersion with
  | ok w => exact iff_of_true ⟨w, rfl⟩ ⟨(fun h => by cases h), fun h => by cases h⟩
  | error f =>
    refine iff_of_false ?_ fun hnot => ?_
    · rintro ⟨w, hw⟩
      cases hw
    · rw [incrementVersion] at hinc
      split at hinc
      · cases hinc
      · rcases bind_eq_error_iff.mp hinc with hc | ⟨l, -, hc⟩
        · rcases carry_error hc with rfl | rfl
          · exact hnot.1 rfl
          · exact hnot.2 rfl
        · cases hc

/-! ## The bounds of a level -/

theorem not_replicate_lt {c : Int} {l : List Int} (h : ∀ n ∈ l, n ≤ c) :
    ¬ List.replicate l.length c < l := by
  induction l with
  | nil => exact lt_irrefl _
  | cons n l ih =>
    obtain ⟨hn, hl⟩ := List.forall_mem_cons.mp h
    rw [List.length_cons, List.replicate_succ, List.cons_lt_cons_iff]
    rintro (hlt | ⟨-, hlt⟩)
    · exact absurd hlt (not_lt.mpr hn)
    · exact ih hl hlt

/-- Numbers that are not above `0 … 0 1`. -/
theorem le_one_of_not_lt {l : List Int} {k : Nat} (hlen : l.length = k + 1)
    (hpos : ∀ n ∈ l, 0 ≤ n) (h : ¬ List.replicate k 0 ++ [1] < l) : ∀ n ∈ l, n ≤ 1 := by
  induction k generalizing l with
  | zero =>
    obtain ⟨n, rfl⟩ := List.length_eq_one_iff.mp hlen
    rw [List.replicate_zero, List.nil_append, List.cons_lt_cons_iff, not_or] at h
    rw [List.forall_mem_singleton]
    exact not_lt.mp h.1
  | succ k ih =>
    cases l with
    | nil => cases hlen
    | cons n l =>
      obtain ⟨hn, hl⟩ := List.forall_mem_cons.mp hpos
      rw [List.replicate_succ, List.cons_append, List.cons_lt_cons_iff, not_or] at h
      have hzero : 0 = n := le_antisymm hn (not_lt.mp h.1)
      have hrest := ih (Nat.succ.inj hlen) hl fun hlt => h.2 ⟨hzero, hlt⟩
      exact List.forall_mem_cons.mpr ⟨hzero ▸ zero_le_one, hrest⟩

theorem append_cons_lt {pre l m : List Int} {a b : Int} (h : a < b) :
    pre ++ a :: l < pre ++ b :: m := by
  induction pre with
  | nil => exact List.cons_lt_cons_iff.mpr (.inl h)
  | cons c pre ih => exact List.cons_lt_cons_iff.mpr (.inr ⟨rfl, ih⟩)

/-- What is below the least version has small numbers only. -/
theorem le_one_of_lt_min (hv : v.isBranch = false) (hlevel : v.getLevel = level)
    (h : minimumLevel ≤ level) (hpos : ∀ n ∈ v.numbers, 0 ≤ n) (hlt : v.lt (min level) = true) :
    ∀ n ∈ v.numbers, n ≤ 1 := by
  have hlen : v.numbers.length = level - 1 + 1 :=
    hlevel.trans (Nat.sub_add_cancel (le_trans (by decide) h)).symm
  refine le_one_of_not_lt hlen hpos fun hgt => ?_
  have hnumbers : (min level).numbers = List.replicate (level - 1) 0 ++ [1] := by
    rw [min, Nat.max_eq_left h]
  rw [lt_iff hv rfl, key_lt_iff (hlevel.trans (length_min h).symm), hnumbers] at hlt
  rcases hlt with hlt | ⟨heq, -⟩
  · exact lt_asymm hgt hlt
  · exact hgt.ne' heq

/-- The numbers of what is above the greatest version are not all below a number of it. -/
theorem not_max_lt (hv : v.isBranch = false) (hlevel : v.getLevel = level)
    (h : minimumLevel ≤ level) (hle : ∀ n ∈ v.numbers, n ≤ maxNumber) : v.gt (max level) = false := by
  have hnumbers : (max level).numbers = List.replicate v.numbers.length maxNumber := by
    rw [max, Nat.max_eq_left h, ← hlevel, getLevel]
  rw [Bool.eq_false_iff, ne_eq, gt_iff hv rfl, key_lt_iff ((length_max h).trans hlevel.symm),
    hnumbers]
  rintro (hlt | ⟨-, hlt⟩)
  · exact not_replicate_lt hle hlt
  · exact not_top_lt hlt

/-! ## Prepared versions -/

/-- All numbers are 0. -/
def zero (v : Version) : Bool := v.numbers.all (· = 0)

/-- No number is positive. -/
def blank (v : Version) : Bool := v.numbers.all (· ≤ 0)

theorem top_iff : v.top = true ↔
    (∀ n ∈ v.numbers, n = maxNumber) ∧ (v.extra ≠ [] ∨ v.isBranch = true) := by
  rw [top, Bool.and_eq_true, List.all_eq_true, Bool.or_eq_true, decide_eq_true_eq]
  simp only [decide_eq_true_eq]

theorem zero_iff : v.zero = true ↔ ∀ n ∈ v.numbers, n = 0 := by
  rw [zero, List.all_eq_true]
  simp only [decide_eq_true_eq]

theorem blank_iff : v.blank = true ↔ ∀ n ∈ v.numbers, n ≤ 0 := by
  rw [blank, List.all_eq_true]
  simp only [decide_eq_true_eq]

theorem getLevel_prepareVersion (val : Int) :
    (prepareVersion v val level).getLevel = Max.max v.getLevel level := by
  rw [getLevel, prepareVersion, List.length_append, List.length_map, List.length_replicate, getLevel]
  omega

/-- The numbers of a prepared version, and what is filled up with. -/
theorem forall_mem_prepareVersion {p : Int → Prop} {val : Int} :
    (∀ n ∈ (prepareVersion v val level).numbers, p n) ↔
      (∀ n ∈ v.numbers, p (if n < 0 then val else n)) ∧ (v.getLevel < level → p val) := by
  rw [prepareVersion, List.forall_mem_append, List.forall_mem_map]
  refine and_congr_right' ⟨fun h hlt => ?_, fun h n hn => ?_⟩
  · exact h val (List.mem_replicate.mpr ⟨Nat.sub_ne_zero_of_lt hlt, rfl⟩)
  · obtain ⟨hne, rfl⟩ := List.mem_replicate.mp hn
    exact h (Nat.lt_of_sub_ne_zero hne)

theorem nonneg_prepareVersion {val : Int} (hval : 0 ≤ val) :
    ∀ n ∈ (prepareVersion v val level).numbers, 0 ≤ n := by
  rw [forall_mem_prepareVersion]
  refine ⟨fun n _ => ?_, fun _ => hval⟩
  split
  · exact hval
  · rename_i h
    exact not_lt.mp h

theorem top_prepareVersion :
    (prepareVersion v 0 level).top = true ↔ level ≤ v.getLevel ∧ v.top = true := by
  rw [top_iff, top_iff, forall_mem_prepareVersion, and_assoc, and_left_comm]
  refine and_congr ⟨fun h => ?_, fun h hlt => absurd h (not_le.mpr hlt)⟩
    (and_congr_left' (forall₂_congr fun n _ => ?_))
  · exact not_lt.mp fun hlt => absurd (h hlt) (by decide)
  · rw [maxNumber]
    omega

theorem zero_prepareVersion :
    (prepareVersion v maxNumber level).zero = true ↔ level ≤ v.getLevel ∧ v.zero = true := by
  rw [zero_iff, zero_iff, forall_mem_prepareVersion, and_comm]
  refine and_congr ⟨fun h => ?_, fun h hlt => absurd h (not_le.mpr hlt)⟩
    (forall₂_congr fun n _ => ?_)
  · exact not_lt.mp fun hlt => absurd (h hlt) (by decide)
  · rw [maxNumber]
    omega

/-- Open numbers count as 0. -/
theorem zero_prepareVersion_zero : (prepareVersion v 0 level).zero = v.blank := by
  rw [Bool.eq_iff_iff, zero_iff, blank_iff, forall_mem_prepareVersion]
  refine (and_iff_left fun _ => rfl).trans (forall₂_congr fun n _ => ?_)
  omega

theorem carryStops_prepareVersion : carryStops (prepareVersion v 0 level).numbers = true ↔
    level ≤ v.getLevel ∧ carryStops v.numbers = true := by
  rw [prepareVersion]
  rcases Nat.lt_or_ge v.getLevel level with hlt | hle
  · refine iff_of_false (fun h => ?_) fun h => absurd h.1 (not_le.mpr hlt)
    obtain ⟨k, hk⟩ := Nat.exists_eq_succ_of_ne_zero (Nat.sub_ne_zero_of_lt hlt)
    rw [hk, carryStops, List.reverse_append, List.reverse_replicate, List.replicate_succ,
      List.cons_append, List.dropWhile_cons_of_neg (by decide), List.head?_cons, decide_eq_true_eq,
      Option.some.injEq] at h
    exact absurd h (by decide)
  · rw [Nat.sub_eq_zero_of_le hle, List.replicate_zero, List.append_nil, carryStops, carryStops,
      ← List.map_reverse, List.dropWhile_map, List.head?_map, decide_eq_true_eq, decide_eq_true_eq]
    have hopen : ∀ n : Int, (if n < 0 then 0 else n) = maxNumber ↔ n = maxNumber := by
      intro n
      rw [maxNumber]
      omega
    have hmax : ((fun n : Int => decide (n = maxNumber)) ∘ fun n => if n < 0 then 0 else n) =
        fun n => decide (n = maxNumber) := funext fun n => decide_eq_decide.mpr (hopen n)
    rw [hmax, and_iff_right hle]
    cases (v.numbers.reverse.dropWhile fun n => decide (n = maxNumber)).head? with
    | none => exact Iff.rfl
    | some n =>
      rw [Option.map_some, Option.some.injEq, Option.some.injEq, int64Max]
      omega

/-! ## Bounded versions -/

theorem exists_mem_of_level (hlevel : v.getLevel = level) (h : minimumLevel ≤ level) :
    ∃ n, n ∈ v.numbers := by
  refine List.exists_mem_of_length_pos ?_
  rw [← getLevel, hlevel]
  exact lt_of_lt_of_le (by decide) h

section Bounded

variable (hv : v.isBranch = false) (hlevel : v.getLevel = level) (h : minimumLevel ≤ level)
include hv hlevel h

theorem top_atLeastMin (hpos : ∀ n ∈ v.numbers, 0 ≤ n) : (atLeastMin level v).top = v.top := by
  rw [atLeastMin]
  split
  · rename_i hlt
    have hone := le_one_of_lt_min hv hlevel h hpos hlt
    rw [Bool.eq_iff_iff, top_iff, top_iff]
    refine iff_of_false (fun htop => ?_) fun htop => ?_
    · exact absurd (htop.1 1 (List.mem_append_right _ List.mem_cons_self)) (by decide)
    · obtain ⟨n, hn⟩ := exists_mem_of_level hlevel h
      have hle := hone n hn
      rw [htop.1 n hn] at hle
      exact absurd hle (by decide)
  · rfl

theorem carryStops_atLeastMin (hpos : ∀ n ∈ v.numbers, 0 ≤ n) :
    carryStops (atLeastMin level v).numbers = carryStops v.numbers := by
  rw [atLeastMin]
  split
  · rename_i hlt
    have hone := le_one_of_lt_min hv hlevel h hpos hlt
    rw [Bool.eq_iff_iff]
    refine iff_of_false (fun hstops => ?_) fun hstops => ?_
    · rcases List.mem_append.mp (mem_of_carryStops hstops) with hmem | hmem
      · exact absurd (List.eq_of_mem_replicate hmem) (by decide)
      · exact absurd (List.mem_singleton.mp hmem) (by decide)
    · exact absurd (hone _ (mem_of_carryStops hstops)) (by decide)
  · rfl

theorem zero_atMostMax : (atMostMax level v).zero = v.zero := by
  rw [atMostMax]
  split
  · rename_i hgt
    rw [Bool.eq_iff_iff, zero_iff, zero_iff]
    refine iff_of_false (fun hzero => ?_) fun hzero => ?_
    · obtain ⟨n, hn⟩ := exists_mem_of_level (length_max h) h
      have hn' : n = maxNumber := List.eq_of_mem_replicate hn
      exact absurd (hn'.symm.trans (hzero n hn)) (by decide)
    · have hle := not_max_lt hv hlevel h fun n hn => (hzero n hn).le.trans (by decide)
      exact Bool.false_ne_true (hle.symm.trans hgt)
  · rfl

theorem top_atMostMax : (atMostMax level v).top = v.top := by
  rw [atMostMax]
  split
  · rename_i hgt
    rw [Bool.eq_iff_iff, top_iff, top_iff]
    refine iff_of_false (fun htop => ?_) fun htop => ?_
    · rcases htop.2 with hextra | hbranch
      · exact hextra rfl
      · exact Bool.false_ne_true hbranch
    · have hle := not_max_lt hv hlevel h fun n hn => (htop.1 n hn).le
      exact Bool.false_ne_true (hle.symm.trans hgt)
  · rfl

end Bounded

end Version

end Primitives.Version1
