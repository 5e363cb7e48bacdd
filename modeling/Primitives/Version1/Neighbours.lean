import Primitives.Version1.Digits

/-!
# The versions before and after

What `--` and `++` give at the edge of the numbers that a range takes: before a version that is just
above the greatest numbers (`aboveMax`) comes one with these, and a pair up to it keeps it; after it
comes a version that is above the greatest one, and a pair from there on begins with that.
-/

set_option autoImplicit false

namespace Primitives.Version1

open Lib
open Versions (Extra)

namespace Version

/-! ## Just above the greatest numbers -/

/-- The numbers, from the last to the first, are the least ones above all that have the greatest
numbers. -/
def aboveMaxNumbers : List Int → Bool
  | [] => false
  | n :: ns =>
    if n ≤ 0 then aboveMaxNumbers ns else n = maxNumber + 1 && ns.all (· = maxNumber)

/-- The version before has the greatest numbers, and is not the greatest one. -/
def aboveMax (v : Version) : Bool := aboveMaxNumbers v.numbers.reverse && v.extra ≠ []

theorem borrow_cases {l : List Int} (hpos : ∀ n ∈ l, 0 ≤ n) :
    borrow l = .error .outOfBounds ∨ ∃ l', borrow l = .ok l' ∧ l'.length = l.length ∧
      (∀ n ∈ l', 0 ≤ n) ∧ ((∀ n ∈ l', n = maxNumber) ↔ aboveMaxNumbers l = true) := by
  induction l with
  | nil => exact .inl rfl
  | cons n l ih =>
    obtain ⟨hn, hl⟩ := List.forall_mem_cons.mp hpos
    rw [borrow, aboveMaxNumbers]
    split
    · rename_i hzero
      rw [if_pos hzero.le]
      rcases ih hl with h | ⟨l', h, hlen, hpos', hmax⟩
      · exact .inl (by rw [h]; rfl)
      · refine .inr ⟨maxNumber :: l', by rw [h]; rfl, congrArg Nat.succ hlen, ?_, ?_⟩
        · exact List.forall_mem_cons.mpr ⟨by decide, hpos'⟩
        · rw [List.forall_mem_cons, and_iff_right rfl, hmax]
    · rename_i hzero
      have hlt : 0 < n := lt_of_le_of_ne hn (Ne.symm hzero)
      rw [if_neg (by rw [int64Max]; omega), if_neg (not_le.mpr hlt)]
      refine .inr ⟨(n - 1) :: l, rfl, rfl, ?_, ?_⟩
      · exact List.forall_mem_cons.mpr ⟨Int.sub_nonneg_of_le hlt, hl⟩
      · rw [List.forall_mem_cons, Bool.and_eq_true, decide_eq_true_eq, List.all_eq_true]
        simp only [decide_eq_true_eq]
        exact and_congr_left' sub_eq_iff_eq_add

/-- The greatest numbers are below. -/
theorem replicate_lt_of_aboveMaxNumbers {l : List Int} (h : aboveMaxNumbers l = true) (m : List Int) :
    List.replicate (l.length + m.length) maxNumber < l.reverse ++ m := by
  induction l generalizing m with
  | nil => cases h
  | cons n l ih =>
    rw [aboveMaxNumbers] at h
    rw [List.reverse_cons, List.append_assoc, List.singleton_append]
    split at h
    · have hlt := ih h (n :: m)
      rwa [List.length_cons, ← Nat.add_assoc, Nat.add_right_comm] at hlt
    · rw [Bool.and_eq_true, decide_eq_true_eq, List.all_eq_true] at h
      have hl : l.reverse = List.replicate l.length maxNumber := by
        rw [List.eq_replicate_iff, List.length_reverse]
        exact ⟨rfl, fun n hn => of_decide_eq_true (h.2 n (List.mem_reverse.mp hn))⟩
      rw [hl, h.1, List.length_cons, Nat.add_assoc, Nat.add_comm 1, List.replicate_add,
        List.replicate_succ]
      exact append_cons_lt (Int.lt_succ _)

theorem decrementVersion_error {v : Version} {f : Failure} (hpos : ∀ n ∈ v.numbers, 0 ≤ n)
    (h : v.decrementVersion = .error f) : f = .outOfBounds := by
  rw [decrementVersion] at h
  split at h
  · cases h
  · rcases borrow_cases (fun n hn => hpos n (List.mem_reverse.mp hn)) with hb | ⟨l, hb, -⟩
    · rw [hb] at h
      cases h
      rfl
    · rw [hb] at h
      cases h

theorem isBranch_decrementVersion {v w : Version} (h : v.decrementVersion = .ok w) :
    w.isBranch = v.isBranch := by
  rw [decrementVersion] at h
  split at h
  · cases h
    rfl
  · obtain ⟨ns, -, h⟩ := of_bind_eq_ok h
    cases h
    rfl

theorem length_of_carry {l l' : List Int} (h : carry l = .ok l') : l'.length = l.length := by
  induction l generalizing l' with
  | nil => cases h
  | cons n l ih =>
    rw [carry] at h
    split at h
    · obtain ⟨l'', hl'', h⟩ := of_bind_eq_ok h
      cases h
      exact congrArg Nat.succ (ih hl'')
    · split at h
      · cases h
      · cases h
        rfl

theorem getLevel_incrementVersion {v w : Version} (h : v.incrementVersion = .ok w) :
    w.getLevel = v.getLevel := by
  rw [incrementVersion] at h
  split at h
  · cases h
    rfl
  · obtain ⟨ns, hns, h⟩ := of_bind_eq_ok h
    cases h
    exact (List.length_reverse.trans (length_of_carry hns)).trans List.length_reverse

/-- What comes after is above the greatest numbers too. -/
theorem carry_of_aboveMaxNumbers {l : List Int} (hpos : ∀ n ∈ l, 0 ≤ n)
    (h : aboveMaxNumbers l = true) : ∃ l', carry l = .ok l' ∧ l'.length = l.length ∧
      (∀ n ∈ l', 0 ≤ n) ∧ List.replicate l.length maxNumber < l'.reverse := by
  cases l with
  | nil => cases h
  | cons n l =>
    obtain ⟨hn, hl⟩ := List.forall_mem_cons.mp hpos
    have hn' : n ≠ maxNumber ∧ n ≠ int64Max := by
      rw [aboveMaxNumbers] at h
      split at h
      · rename_i hle
        have hzero := le_antisymm hle hn
        rw [hzero]
        decide
      · rw [Bool.and_eq_true, decide_eq_true_eq] at h
        rw [h.1]
        decide
    refine ⟨(n + 1) :: l, by rw [carry, if_neg hn'.1, if_neg hn'.2], rfl, ?_, ?_⟩
    · exact List.forall_mem_cons.mpr ⟨Int.add_nonneg hn (by decide), hl⟩
    · have hlt := replicate_lt_of_aboveMaxNumbers h []
      rw [List.length_nil, Nat.add_zero, List.append_nil] at hlt
      refine hlt.trans ?_
      rw [List.reverse_cons, List.reverse_cons]
      exact append_cons_lt (Int.lt_succ _)

variable {v w : Version} {level : Nat}

theorem aboveMaxNumbers_open (l : List Int) :
    aboveMaxNumbers (l.map fun n => if n < 0 then 0 else n) = aboveMaxNumbers l := by
  have hmax : ∀ n : Int, (if n < 0 then 0 else n) = maxNumber ↔ n = maxNumber := by
    intro n
    rw [maxNumber]
    omega
  induction l with
  | nil => rfl
  | cons n l ih =>
    rw [List.map_cons, aboveMaxNumbers, aboveMaxNumbers, ih]
    by_cases h : n ≤ 0
    · rw [if_pos h, if_pos (by omega)]
    · rw [if_neg h, if_neg (by omega), if_neg (by omega), List.all_map]
      congr 2
      exact funext fun n => decide_eq_decide.mpr (hmax n)

/-- Open numbers count as 0. -/
theorem aboveMax_prepareVersion (h : level ≤ v.getLevel) :
    (prepareVersion v 0 level).aboveMax = v.aboveMax := by
  rw [aboveMax, aboveMax, prepareVersion, Nat.sub_eq_zero_of_le h, List.replicate_zero,
    List.append_nil, ← List.map_reverse, aboveMaxNumbers_open]

/-- The version before one that is not negative. -/
theorem decrementVersion_cases (hv : v.isBranch = false) (h : minimumLevel ≤ v.getLevel)
    (hpos : ∀ n ∈ v.numbers, 0 ≤ n) :
    v.decrementVersion = .error .outOfBounds ∨ ∃ w, v.decrementVersion = .ok w ∧
      w.isBranch = false ∧ w.getLevel = v.getLevel ∧ (∀ n ∈ w.numbers, 0 ≤ n) ∧
      w.top = v.aboveMax := by
  rw [decrementVersion]
  split
  · rename_i hmin
    rw [eq_iff_of_length (length_min h).symm rfl] at hmin
    refine .inr ⟨v, rfl, hv, rfl, hpos, ?_⟩
    rw [top, aboveMax, hmin.2.1, hv]
    simp only [min, ne_eq, not_true_eq_false, decide_false, Bool.or_self, Bool.and_false]
  · rcases borrow_cases (fun n hn => hpos n (List.mem_reverse.mp hn)) with hb | ⟨l, hb, hlen, hl, hmax⟩
    · exact .inl (by rw [hb]; rfl)
    · refine .inr ⟨{ v with numbers := l.reverse }, by rw [hb]; rfl, hv, ?_, ?_, ?_⟩
      · exact (List.length_reverse.trans hlen).trans List.length_reverse
      · exact fun n hn => hl n (List.mem_reverse.mp hn)
      · have hall : (∀ n ∈ l.reverse, n = maxNumber) ↔ aboveMaxNumbers v.numbers.reverse = true := by
          simp only [List.mem_reverse]
          exact hmax
        have hbranch : ¬ Version.isBranch { v with numbers := l.reverse } = true :=
          Bool.eq_false_iff.mp hv
        rw [Bool.eq_iff_iff, top_iff, aboveMax, Bool.and_eq_true, hall, or_iff_left hbranch,
          decide_eq_true_eq]

/-- The version after one that is above the greatest numbers. -/
theorem incrementVersion_of_aboveMax (hv : v.isBranch = false) (h : minimumLevel ≤ v.getLevel)
    (hpos : ∀ n ∈ v.numbers, 0 ≤ n) (hmax : v.aboveMax = true) :
    ∃ w, v.incrementVersion = .ok w ∧ w.isBranch = false ∧ w.getLevel = v.getLevel ∧
      (max v.getLevel).key < w.key := by
  rw [aboveMax, Bool.and_eq_true, decide_eq_true_eq] at hmax
  rw [incrementVersion]
  split
  · rename_i heq
    rw [eq_iff_of_length (length_max h).symm rfl] at heq
    exact absurd heq.2.1 hmax.2
  · obtain ⟨l, hl, hlen, -, hlt⟩ :=
      carry_of_aboveMaxNumbers (fun n hn => hpos n (List.mem_reverse.mp hn)) hmax.1
    have hlevel : l.reverse.length = v.getLevel :=
      (List.length_reverse.trans hlen).trans List.length_reverse
    refine ⟨{ v with numbers := l.reverse }, by rw [hl]; rfl, hv, hlevel, ?_⟩
    rw [key_lt_iff ((length_max h).trans hlevel.symm)]
    refine .inl ?_
    rw [List.length_reverse] at hlt
    rw [max, Nat.max_eq_left h]
    exact hlt

end Version

/-! ## Pairs in order -/

/-- The versions of a pair, in their order. -/
def RangePair.ordered (p : RangePair) : RangePair :=
  if p.second.lt p.first then ⟨p.second, p.first⟩ else p

theorem RangePair.level_ordered (p : RangePair) :
    max p.ordered.first.getLevel p.ordered.second.getLevel =
      max p.first.getLevel p.second.getLevel := by
  rw [ordered]
  split
  · exact max_comm _ _
  · rfl

theorem RangePair.Plain.ordered {p : RangePair} (hp : p.Plain) : p.ordered.Plain := by
  rw [RangePair.ordered]
  split
  · exact ⟨hp.second, hp.first⟩
  · exact hp

theorem preparePair_eq {p : RangePair} (hp : p.Plain) {level : Nat}
    (h : max p.first.getLevel p.second.getLevel = level) :
    preparePair p = ⟨atLeastMin level (prepareVersion p.ordered.first 0 level),
      atMostMax level (prepareVersion p.ordered.second Version.maxNumber level)⟩ := by
  rw [← h, ← p.level_ordered, preparePair, p.plain_iff.mp hp]
  rfl

/-- What is in a pair is of one level. -/
theorem preparePair_levels {p : RangePair} (hp : p.Plain) {level : Nat}
    (hlevel : max p.first.getLevel p.second.getLevel = level) (h : Version.minimumLevel ≤ level) :
    (preparePair p).Plain ∧ (preparePair p).first.getLevel = level ∧
      (preparePair p).second.getLevel = level := by
  have hmax := p.level_ordered.trans hlevel
  have hfirst : (prepareVersion p.ordered.first 0 level).getLevel = level := by
    rw [Version.getLevel_prepareVersion]
    exact max_eq_right (hmax ▸ le_max_left _ _)
  have hsecond : (prepareVersion p.ordered.second Version.maxNumber level).getLevel = level := by
    rw [Version.getLevel_prepareVersion]
    exact max_eq_right (hmax ▸ le_max_right _ _)
  rw [preparePair_eq hp hlevel]
  refine ⟨⟨?_, ?_⟩, ?_, ?_⟩
  · show (atLeastMin _ _).isBranch = false
    rw [atLeastMin]
    split
    · rfl
    · exact hp.ordered.first
  · show (atMostMax _ _).isBranch = false
    rw [atMostMax]
    split
    · rfl
    · exact hp.ordered.second
  · show (atLeastMin _ _).getLevel = level
    rw [atLeastMin]
    split
    · exact Version.length_min h
    · exact hfirst
  · show (atMostMax _ _).getLevel = level
    rw [atMostMax]
    split
    · exact Version.length_max h
    · exact hsecond

theorem prepareVersion_eq_self {v : Version} {level : Nat} (h : level ≤ v.getLevel)
    (hpos : ∀ n ∈ v.numbers, 0 ≤ n) (val : Int) : prepareVersion v val level = v := by
  have hmap : v.numbers.map (fun n => if n < 0 then val else n) = v.numbers :=
    (List.map_congr_left (g := id) fun n hn => if_neg (not_lt.mpr (hpos n hn))).trans (List.map_id _)
  rw [prepareVersion, hmap, Nat.sub_eq_zero_of_le h, List.replicate_zero, List.append_nil]

/-! ## The first and the last pair -/

section Ends

variable {v : Version} {level : Nat} (hv : v.isBranch = false) (hlevel : v.getLevel = level)
  (h : Version.minimumLevel ≤ level)
include hv hlevel h

/-- What has the greatest numbers and an extra part is below the greatest version. -/
theorem lt_max_of_top (htop : v.top = true) : v.lt (Version.max level) = true := by
  rw [Version.top_iff] at htop
  have hextra : v.extra ≠ [] := htop.2.resolve_right (Bool.eq_false_iff.mp hv)
  rw [Version.lt_iff hv rfl, Version.key_lt_iff (hlevel.trans (Version.length_max h).symm)]
  refine .inr ⟨?_, ?_⟩
  · rw [Version.max, Nat.max_eq_left h, ← hlevel]
    exact List.eq_replicate_iff.mpr ⟨rfl, htop.1⟩
  · rw [Extra.key, if_neg hextra]
    exact WithTop.coe_lt_top _

/-- A pair from the least version on keeps an end with the greatest numbers, and has none other. -/
theorem second_of_least (hpos : ∀ n ∈ v.numbers, 0 ≤ n) :
    (v.top = true → (preparePair ⟨Version.min level, v⟩).second = v) ∧
      (preparePair ⟨Version.min level, v⟩).second.top = v.top := by
  have hp : RangePair.Plain ⟨Version.min level, v⟩ := ⟨rfl, hv⟩
  have hmax : max (Version.min level).getLevel v.getLevel = level := by
    rw [hlevel]
    exact max_eq_right (Version.length_min h).le
  have hnot : v.top = true → ¬ v.lt (Version.min level) = true := by
    intro htop hlt
    obtain ⟨n, hn⟩ := Version.exists_mem_of_level hlevel h
    have hle := Version.le_one_of_lt_min hv hlevel h hpos hlt n hn
    rw [(Version.top_iff.mp htop).1 n hn] at hle
    exact absurd hle (by decide)
  rw [preparePair_eq hp hmax, RangePair.ordered]
  split
  · rename_i hlt
    have hleast : prepareVersion (Version.min level) Version.maxNumber level = Version.min level := by
      refine prepareVersion_eq_self (Version.length_min h).ge (fun n hn => ?_) _
      rcases List.mem_append.mp hn with hn | hn
      · exact (List.eq_of_mem_replicate hn).ge
      · exact (List.mem_singleton.mp hn) ▸ zero_le_one
    refine ⟨fun htop => absurd hlt (hnot htop), ?_⟩
    show (atMostMax _ _).top = _
    rw [hleast, Version.top_atMostMax rfl (Version.length_min h) h,
      Bool.eq_false_iff.mpr fun htop => hnot htop hlt, Version.top]
    exact Bool.and_false _
  · show (_ → atMostMax _ _ = _) ∧ (atMostMax _ _).top = _
    rw [prepareVersion_eq_self hlevel.ge hpos]
    refine ⟨fun htop => ?_, Version.top_atMostMax hv hlevel h⟩
    rw [atMostMax, Version.not_max_lt hv hlevel h fun n hn => ((Version.top_iff.mp htop).1 n hn).le]
    rfl

/-- A pair that is to begin above the greatest version begins with it. -/
theorem first_of_greatest (hlt : (Version.max level).key < v.key) :
    (preparePair ⟨v, Version.max level⟩).first = Version.max level := by
  have hp : RangePair.Plain ⟨v, Version.max level⟩ := ⟨hv, rfl⟩
  have hmax : max v.getLevel (Version.max level).getLevel = level := by
    rw [hlevel]
    exact max_eq_left (Version.length_max h).le
  have hpos : ∀ n ∈ (Version.max level).numbers, 0 ≤ n := by
    intro n hn
    rw [List.eq_of_mem_replicate hn]
    decide
  have hnot : ¬ (Version.max level).lt (Version.min level) = true := by
    intro hlt
    obtain ⟨n, hn⟩ := Version.exists_mem_of_level (Version.length_max h) h
    have hle := Version.le_one_of_lt_min rfl (Version.length_max h) h hpos hlt n hn
    rw [List.eq_of_mem_replicate hn] at hle
    exact absurd hle (by decide)
  rw [preparePair_eq hp hmax, RangePair.ordered, if_pos ((Version.lt_iff rfl hv).mpr hlt)]
  show atLeastMin _ _ = _
  rw [prepareVersion_eq_self (Version.length_max h).ge hpos, atLeastMin, if_neg hnot]

end Ends

end Primitives.Version1
