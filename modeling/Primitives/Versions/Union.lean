import Primitives.Versions.Range

/-!
# Unions and intersections

A pair is the interval of cuts from its left one to its right one. `|` and `&` of two pairs are
the union and the intersection of the intervals, unless the right sides clash: then the order of
the tuples takes the wrong one. Without a clash the loop of `operator|=` loses no version and adds
none (`or_contains`), whatever the order of the pairs is, and neither does `operator&=`
(`and_contains`).
-/

set_option autoImplicit false

namespace Primitives.Versions

open Side (Clash)

namespace RangePair

variable {p q u : RangePair}

theorem contains_iff (p : RangePair) (v : Version) :
    p.contains v = true ↔ v.cut ∈ Set.Ico p.left p.right := by
  rw [contains, Bool.and_eq_true, Side.ltVersion_iff, Side.gtVersion_iff]
  exact Iff.rfl

/-! ## Two pairs -/

theorem or_left (h : p.or q = some u) : u.left = min p.left q.left := by
  simp only [or] at h
  split at h <;> cases h
  exact Side.left_stdMin p.first q.first

theorem or_second (h : p.or q = some u) : u.second = stdMax Side.lt p.second q.second := by
  simp only [or] at h
  split at h <;> cases h
  rfl

theorem or_isSome_iff (p q : RangePair) : (p.or q).isSome = true ↔
    max p.left q.left ≤ (stdMin Side.lt p.second q.second).right := by
  rw [show max p.left q.left = (stdMax Side.lt p.first q.first).left from
    (Side.left_stdMax p.first q.first).symm, Side.left_le_right_iff]
  simp only [or]
  split
  · rename_i h
    exact iff_of_true rfl h
  · rename_i h
    exact iff_of_false Bool.false_ne_true h

/-- The union of two pairs that meet or touch. -/
theorem or_contains (hc : ¬ Clash p.second q.second) (h : p.or q = some u) (v : Version) :
    u.contains v = true ↔ p.contains v = true ∨ q.contains v = true := by
  have htouch := (or_isSome_iff p q).mp (by rw [h]; rfl)
  rw [Side.right_stdMin hc, max_le_iff, le_min_iff, le_min_iff] at htouch
  have hpq : p.left ≤ q.right := htouch.1.2
  have hqp : q.left ≤ p.right := htouch.2.1
  have hright : u.right = max p.right q.right := by
    rw [right, or_second h]
    exact Side.right_stdMax hc
  rw [contains_iff, contains_iff, contains_iff, ← Set.mem_union, Set.Ico_union_Ico' hqp hpq,
    or_left h, hright]

/-- The intersection of two pairs. -/
theorem and_contains (hc : ¬ Clash p.second q.second) (v : Version) :
    (∃ u, p.and q = some u ∧ u.contains v = true) ↔
      p.contains v = true ∧ q.contains v = true := by
  rw [contains_iff, contains_iff, ← Set.mem_inter_iff, Set.Ico_inter_Ico]
  have hleft := Side.left_stdMax p.first q.first
  have hright := Side.right_stdMin hc
  simp only [and]
  split
  · constructor
    · rintro ⟨u, h, hu⟩
      cases h
      rw [contains_iff] at hu
      exact ⟨hleft.symm.trans_le hu.1, hu.2.trans_eq hright⟩
    · intro hv
      refine ⟨_, rfl, (contains_iff _ v).mpr ⟨hleft.trans_le hv.1, hv.2.trans_eq hright.symm⟩⟩
  · rename_i hnone
    rw [← Side.left_lt_right_iff, hleft, hright] at hnone
    constructor
    · rintro ⟨u, h, -⟩
      cases h
    · intro hv
      exact absurd (hv.1.trans_lt hv.2) hnone

theorem and_second (h : p.and q = some u) : u.second = p.second ∨ u.second = q.second := by
  simp only [and] at h
  split at h <;> cases h
  exact stdMin_cases Side.lt p.second q.second

end RangePair

/-! ## The loop -/

/-- No two right sides clash. -/
def NoClash (l : List RangePair) : Prop := ∀ p ∈ l, ∀ q ∈ l, ¬ Clash p.second q.second

instance (l : List RangePair) : Decidable (NoClash l) :=
  inferInstanceAs (Decidable (∀ p ∈ l, ∀ q ∈ l, ¬ Clash p.second q.second))

/-- The right sides are right sides of the pairs of another list. -/
def Inherits (m l : List RangePair) : Prop := ∀ p ∈ m, ∃ q ∈ l, p.second = q.second

theorem NoClash.inherit {m l : List RangePair} (h : NoClash l) (hm : Inherits m l) :
    NoClash m := by
  intro p hp q hq
  obtain ⟨p', hp', heq⟩ := hm p hp
  obtain ⟨q', hq', heq'⟩ := hm q hq
  rw [heq, heq']
  exact h p' hp' q' hq'

theorem Inherits.of_subset {m l : List RangePair} (h : m ⊆ l) : Inherits m l :=
  fun p hp => ⟨p, h hp, rfl⟩

theorem Inherits.trans {k l m : List RangePair} (h : Inherits k l) (h' : Inherits l m) :
    Inherits k m := by
  intro p hp
  obtain ⟨q, hq, heq⟩ := h p hp
  obtain ⟨r, hr, heq'⟩ := h' q hq
  exact ⟨r, hr, heq.trans heq'⟩

theorem Inherits.cons {m l : List RangePair} (p : RangePair) (h : Inherits m l) :
    Inherits (p :: m) (p :: l) := by
  intro q hq
  rcases List.mem_cons.mp hq with rfl | hq
  · exact ⟨_, List.mem_cons_self, rfl⟩
  · obtain ⟨r, hr, heq⟩ := h q hq
    exact ⟨r, List.mem_cons_of_mem _ hr, heq⟩

/-- A union takes the place of its two pairs. -/
theorem Inherits.union {p q u : RangePair} (h : p.or q = some u) (l : List RangePair) :
    Inherits (u :: l) (p :: q :: l) := by
  intro r hr
  rcases List.mem_cons.mp hr with rfl | hr
  · rcases stdMax_cases Side.lt p.second q.second with heq | heq
    · exact ⟨p, by simp, (RangePair.or_second h).trans heq⟩
    · exact ⟨q, by simp, (RangePair.or_second h).trans heq⟩
  · exact ⟨r, by simp [hr], rfl⟩

namespace VersionRange

theorem mergeFollowing_inherits (prev : RangePair) (l : List RangePair) :
    Inherits (mergeFollowing prev l) (prev :: l) := by
  induction l generalizing prev with
  | nil => exact .of_subset (List.Subset.refl _)
  | cons i rest ih =>
    rw [mergeFollowing]
    split
    · exact .of_subset (List.Subset.refl _)
    · split
      · exact (ih _).trans (.union ‹_› rest)
      · exact (ih i).cons prev

theorem addPair_inherits (rhs : RangePair) (l : List RangePair) :
    Inherits (addPair rhs l) (rhs :: l) := by
  induction l with
  | nil => exact .of_subset (List.Subset.refl _)
  | cons i rest ih =>
    rw [addPair]
    split
    · exact (ih.cons i).trans (.of_subset (by simp))
    · split
      · exact .of_subset (by simp)
      · split
        · exact (mergeFollowing_inherits _ rest).trans
            ((Inherits.union ‹_› rest).trans (.of_subset (by simp)))
        · exact ((mergeFollowing_inherits rhs rest).cons i).trans (.of_subset (by simp))

section Contains

variable {v : Version}

theorem mergeFollowing_contains {prev : RangePair} {l : List RangePair}
    (h : NoClash (prev :: l)) : (mergeFollowing prev l).any (·.contains v) = true ↔
      prev.contains v = true ∨ l.any (·.contains v) = true := by
  induction l generalizing prev with
  | nil => simp [mergeFollowing]
  | cons i rest ih =>
    rw [mergeFollowing]
    split
    · simp
    · split
      · rename_i u hu
        rw [ih (h.inherit (.union hu rest)), RangePair.or_contains (h prev (by simp) i (by simp)) hu]
        simp [or_assoc]
      · rw [List.any_cons, Bool.or_eq_true, ih (h.inherit (.of_subset (by simp)))]
        simp

theorem addPair_contains {rhs : RangePair} {l : List RangePair} (h : NoClash (rhs :: l)) :
    (addPair rhs l).any (·.contains v) = true ↔
      l.any (·.contains v) = true ∨ rhs.contains v = true := by
  induction l with
  | nil => simp [addPair]
  | cons i rest ih =>
    rw [addPair]
    split
    · rw [List.any_cons, Bool.or_eq_true, ih (h.inherit (.of_subset (by simp)))]
      simp [or_assoc]
    · split
      · -- the pair is added twice, and is contained once more
        simp only [List.any_append, List.any_cons, List.any_nil, Bool.or_false, Bool.or_eq_true]
        tauto
      · split
        · rename_i u hu
          have hin := (Inherits.union hu rest).trans
            (.of_subset (show i :: rhs :: rest ⊆ rhs :: i :: rest by simp))
          rw [mergeFollowing_contains (h.inherit hin),
            RangePair.or_contains (h i (by simp) rhs (by simp)) hu, List.any_cons, Bool.or_eq_true]
          tauto
        · rw [List.any_cons, Bool.or_eq_true,
            mergeFollowing_contains (h.inherit (.of_subset (by simp))), List.any_cons,
            Bool.or_eq_true]
          tauto

theorem foldl_orPair_contains {l : List RangePair} {r : VersionRange}
    (h : NoClash (r.range ++ l)) : (l.foldl orPair r).contains v = true ↔
      r.contains v = true ∨ l.any (·.contains v) = true := by
  induction l generalizing r with
  | nil => simp
  | cons p l ih =>
    have hin : Inherits ((orPair r p).range ++ l) (r.range ++ p :: l) := by
      intro q hq
      rcases List.mem_append.mp hq with hq | hq
      · obtain ⟨q', hq', heq⟩ := addPair_inherits p r.range q hq
        exact ⟨q', by simp only [List.mem_cons] at hq'; simp; tauto, heq⟩
      · exact ⟨q, by simp [hq], rfl⟩
    rw [List.foldl_cons, ih (h.inherit hin), List.any_cons, Bool.or_eq_true, ← or_assoc]
    refine or_congr_left (addPair_contains (h.inherit (.of_subset ?_)))
    intro q hq
    rcases List.mem_cons.mp hq with rfl | hq
    · simp
    · simp [hq]

end Contains

/-! ## The operators -/

theorem or_contains {a b : VersionRange} (h : NoClash (a.range ++ b.range)) (v : Version) :
    (a.or b).contains v = (a.contains v || b.contains v) := by
  rw [Bool.eq_iff_iff, Bool.or_eq_true]
  exact foldl_orPair_contains h

theorem meets_inherits (a b : VersionRange) : Inherits (meets a b) (a.range ++ b.range) := by
  intro u hu
  simp only [meets, List.mem_flatMap, List.mem_filterMap] at hu
  obtain ⟨p, hp, q, hq, h⟩ := hu
  rcases RangePair.and_second h with heq | heq
  · exact ⟨p, by simp [hp], heq⟩
  · exact ⟨q, by simp [hq], heq⟩

theorem and_contains {a b : VersionRange} (h : NoClash (a.range ++ b.range)) (v : Version) :
    (a.and b).contains v = (a.contains v && b.contains v) := by
  rw [Bool.eq_iff_iff, Bool.and_eq_true, and,
    foldl_orPair_contains (h.inherit (meets_inherits a b))]
  have hpair : ∀ p ∈ a.range, ∀ q ∈ b.range, (∃ u, p.and q = some u ∧ u.contains v = true) ↔
      p.contains v = true ∧ q.contains v = true := by
    intro p hp q hq
    exact RangePair.and_contains (h p (by simp [hp]) q (by simp [hq])) v
  simp only [contains, empty, List.any_nil, Bool.false_eq_true, false_or, List.any_eq_true, meets,
    List.mem_flatMap, List.mem_filterMap]
  constructor
  · rintro ⟨u, ⟨p, hp, q, hq, hu⟩, huv⟩
    obtain ⟨hpv, hqv⟩ := (hpair p hp q hq).mp ⟨u, hu, huv⟩
    exact ⟨⟨p, hp, hpv⟩, ⟨q, hq, hqv⟩⟩
  · rintro ⟨⟨p, hp, hpv⟩, ⟨q, hq, hqv⟩⟩
    obtain ⟨u, hu, huv⟩ := (hpair p hp q hq).mpr ⟨hpv, hqv⟩
    exact ⟨u, ⟨p, hp, q, hq, hu⟩, huv⟩

end VersionRange

/-! ## Two pairs that clash -/

namespace RangePair

variable {p q : RangePair}

/-- Below the upper of the two cuts of a version is below the lower one or at it. -/
theorem lt_upper_iff (x : Cut) (k : Key) : x < toLex (k, true) ↔ x ≤ toLex (k, false) := by
  obtain ⟨k', b⟩ := x
  rw [show (k', b) = (toLex (k', b) : Cut) from rfl, Prod.Lex.toLex_lt_toLex,
    Prod.Lex.toLex_le_toLex]
  cases b <;> simp [le_iff_lt_or_eq]

/-- The version of the right side is in the pair just when the side is closed. -/
theorem contains_second_iff (p : RangePair) {v : Version} (h : v.key = p.second.v.key) :
    p.contains v = true ↔ p.second.strong = false := by
  rw [contains_iff, Set.mem_Ico, Version.cut, h]
  have hlt := p.left_lt_right
  rw [right, Side.right] at hlt ⊢
  cases hs : p.second.strong with
  | true => simp
  | false =>
    rw [hs] at hlt
    refine iff_of_true ⟨(lt_upper_iff p.left _).mp hlt, ?_⟩ rfl
    exact (lt_upper_iff _ _).mpr le_rfl

theorem second_of_clash (hc : Clash p.second q.second) :
    (p.contains p.second.v || q.contains p.second.v) = true ∧
    (p.contains p.second.v && q.contains p.second.v) = false := by
  have hp := contains_second_iff p rfl
  have hq := contains_second_iff q ((Version.eq_iff _ _).mp hc.1)
  have hne := hc.2
  cases h : p.second.strong <;> cases h' : q.second.strong
  · exact absurd (h.trans h'.symm) hne
  · simp [hp.mpr h, Bool.eq_false_iff.mpr (hq.not.mpr (by simp [h']))]
  · simp [hq.mpr h', Bool.eq_false_iff.mpr (hp.not.mpr (by simp [h]))]
  · exact absurd (h.trans h'.symm) hne

/-- Pairs that clash meet. -/
theorem left_lt_of_clash (hc : Clash p.second q.second) :
    max p.left q.left < (stdMin Side.lt p.second q.second).right := by
  have hle : ∀ s : Side, s.v.key = p.second.v.key → s.right ≤ toLex (p.second.v.key, true) := by
    intro s hs
    rw [Side.right, hs, Prod.Lex.toLex_le_toLex]
    exact .inr ⟨rfl, le_top⟩
  rw [hc.right_stdMin]
  exact max_lt (p.left_lt_right.trans_le (hle _ rfl))
    (q.left_lt_right.trans_le (hle _ ((Version.eq_iff _ _).mp hc.1).symm))

/-- The union loses the version. -/
theorem or_of_clash (hc : Clash p.second q.second) :
    ∃ u, p.or q = some u ∧ u.contains p.second.v = false := by
  obtain ⟨u, hu⟩ := Option.isSome_iff_exists.mp
    ((or_isSome_iff p q).mpr (left_lt_of_clash hc).le)
  refine ⟨u, hu, ?_⟩
  rw [Bool.eq_false_iff, ne_eq, contains_iff, right, or_second hu, hc.right_stdMax]
  exact fun h => lt_irrefl _ h.2

/-- The intersection gains it. -/
theorem and_of_clash (hc : Clash p.second q.second) :
    ∃ u, p.and q = some u ∧ u.contains p.second.v = true := by
  have hmeet := left_lt_of_clash hc
  have hmeet' := hmeet
  rw [show max p.left q.left = (stdMax Side.lt p.first q.first).left from
    (Side.left_stdMax p.first q.first).symm, Side.left_lt_right_iff] at hmeet'
  simp only [and]
  rw [dif_pos hmeet']
  refine ⟨_, rfl, (contains_iff _ _).mpr ⟨?_, ?_⟩⟩
  · show (stdMax Side.lt p.first q.first).left ≤ p.second.v.cut
    rw [hc.right_stdMin, lt_upper_iff] at hmeet
    exact (Side.left_stdMax p.first q.first).trans_le hmeet
  · show p.second.v.cut < (stdMin Side.lt p.second q.second).right
    rw [hc.right_stdMin]
    exact (lt_upper_iff _ _).mpr le_rfl

/-- Pairs that meet or touch: neither is wholly below the other. -/
theorem not_apart (h : (p.or q).isSome = true) :
    p.second.v.lt q.first.v = false ∧ p.first.v.gt q.second.v = false := by
  have htouch := (or_isSome_iff p q).mp h
  have hmin := Side.left_stdMin p.second q.second
  have hp : (stdMin Side.lt p.second q.second).v.key ≤ p.second.v.key :=
    Side.key_le_of_left_le (hmin.trans_le (min_le_left _ _))
  have hq : (stdMin Side.lt p.second q.second).v.key ≤ q.second.v.key :=
    Side.key_le_of_left_le (hmin.trans_le (min_le_right _ _))
  refine ⟨?_, ?_⟩
  · rw [Bool.eq_false_iff, ne_eq, Version.lt_iff, not_lt]
    exact (Side.key_le_of_left_le_right ((le_max_right _ _).trans htouch)).trans hp
  · rw [Bool.eq_false_iff, ne_eq, Version.gt_iff, not_lt]
    exact (Side.key_le_of_left_le_right ((le_max_left _ _).trans htouch)).trans hq

/-- A range of one pair and another pair that meet or touch. -/
theorem addPair_one {u : RangePair} (h : p.or q = some u) :
    VersionRange.addPair q [p] = [u] := by
  obtain ⟨hlt, hgt⟩ := not_apart (by rw [h]; rfl : (p.or q).isSome = true)
  simp [VersionRange.addPair, hlt, hgt, h, VersionRange.mergeFollowing]

end RangePair

namespace VersionRange

theorem noClash_two {p q : RangePair} (h : ¬ Clash p.second q.second) : NoClash [p, q] := by
  intro r hr s hs hc
  simp only [List.mem_cons, List.not_mem_nil, or_false] at hr hs
  rcases hr with rfl | rfl
  · rcases hs with rfl | rfl
    · exact hc.2 rfl
    · exact h hc
  · rcases hs with rfl | rfl
    · exact h hc.symm
    · exact hc.2 rfl

/-- The pair from 1, closed, to 2. -/
def oneTwo (strong : Bool) : RangePair :=
  ⟨⟨⟨[1], []⟩, false⟩, ⟨⟨[2], []⟩, strong⟩, (Side.left_lt_right_iff _ _).mpr
    (.inl (show Version.lt ⟨[1], []⟩ ⟨[2], []⟩ = true by decide))⟩

end VersionRange

end Primitives.Versions
