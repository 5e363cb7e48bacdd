import Mathlib.Order.Interval.Set.LinearOrder
import Mathlib.Data.Int.ConditionallyCompleteOrder
import Primitives.Version1.Model

/-!
# What a union does

Two versions that are no branches are compared by their keys, which are those of `version`. Of the
loop of `operator|=` one statement is made (`Added`), and everything else about a union follows from
it: the pair goes behind all others, or it is put in before one, and then behind all others again, or
it is merged with one, and this with some that follow.
-/

set_option autoImplicit false

namespace Primitives.Version1

open Lib
open Versions (Key stdMax stdMin)

/-! ## Keys -/

namespace Version

def key (v : Version) : Key := v.base.key

variable {v w : Version}

theorem compare_versions (hv : v.isBranch = false) (hw : w.isBranch = false)
    (onBranches : Str → Str → Bool) (onVersions : Versions.Version → Versions.Version → Bool) :
    compare onBranches onVersions v w = onVersions v.base w.base := by
  rw [compare, hv, hw]
  rfl

theorem lt_iff (hv : v.isBranch = false) (hw : w.isBranch = false) :
    v.lt w = true ↔ v.key < w.key := by
  rw [lt, compare_versions hv hw, Versions.Version.lt_iff, key, key]

theorem gt_iff (hv : v.isBranch = false) (hw : w.isBranch = false) :
    v.gt w = true ↔ w.key < v.key := by
  rw [gt, compare_versions hv hw, Versions.Version.gt_iff, key, key]

theorem le_iff (hv : v.isBranch = false) (hw : w.isBranch = false) :
    v.le w = true ↔ v.key ≤ w.key := by
  rw [le, compare_versions hv hw, Versions.Version.le_iff, key, key]

theorem eq_iff (hv : v.isBranch = false) (hw : w.isBranch = false) :
    v.eq w = true ↔ v.key = w.key := by
  rw [eq, hv, hw]
  exact Versions.Version.eq_iff _ _

/-- The smaller of two versions, by key. -/
theorem key_stdMin (hv : v.isBranch = false) (hw : w.isBranch = false) :
    (stdMin lt v w).key = Min.min v.key w.key := by
  rw [stdMin]
  split
  · rename_i h
    exact (min_eq_right ((lt_iff hw hv).mp h).le).symm
  · rename_i h
    rw [lt_iff hw hv, not_lt] at h
    exact (min_eq_left h).symm

theorem key_stdMax (hv : v.isBranch = false) (hw : w.isBranch = false) :
    (stdMax lt v w).key = Max.max v.key w.key := by
  rw [stdMax]
  split
  · rename_i h
    exact (max_eq_right ((lt_iff hv hw).mp h).le).symm
  · rename_i h
    rw [lt_iff hv hw, not_lt] at h
    exact (max_eq_left h).symm

theorem of_stdMin {p : Version → Prop} (hv : p v) (hw : p w) : p (stdMin lt v w) := by
  rcases Versions.stdMin_cases lt v w with h | h
  · rw [h]
    exact hv
  · rw [h]
    exact hw

theorem of_stdMax {p : Version → Prop} (hv : p v) (hw : p w) : p (stdMax lt v w) := by
  rcases Versions.stdMax_cases lt v w with h | h
  · rw [h]
    exact hv
  · rw [h]
    exact hw

theorem isBranch_incrementVersion (h : v.incrementVersion = .ok w) : w.isBranch = v.isBranch := by
  rw [incrementVersion] at h
  split at h
  · cases h
    rfl
  · cases hc : carry v.numbers.reverse with
    | error f => rw [hc] at h; cases h
    | ok ns => rw [hc] at h; cases h; rfl

end Version

/-! ## Pairs of versions -/

/-- A pair without a branch. -/
structure RangePair.Plain (p : RangePair) : Prop where
  first : p.first.isBranch = false
  second : p.second.isBranch = false

theorem RangePair.plain_iff (p : RangePair) : p.Plain ↔ p.isBranch = false := by
  rw [RangePair.isBranch, Bool.or_eq_false_iff]
  exact ⟨fun h => ⟨h.first, h.second⟩, fun h => ⟨h.1, h.2⟩⟩

/-- The keys of its versions. -/
def RangePair.keys (p : RangePair) : Set Key := Set.Icc p.first.key p.second.key

theorem RangePair.Plain.hasVersion_iff {p : RangePair} (hp : p.Plain) {v : Version}
    (hv : v.isBranch = false) : p.hasVersion v = true ↔ v.key ∈ p.keys := by
  rw [RangePair.hasVersion, Bool.and_eq_true, Version.le_iff hp.first hv,
    Version.le_iff hv hp.second]
  rfl

/-- The pair of the greater first and the smaller second version, if it is not empty. -/
theorem RangePair.Plain.and_cases {p q : RangePair} (hp : p.Plain) (hq : q.Plain) :
    (p.and q = none ∧ min p.second.key q.second.key < max p.first.key q.first.key) ∨
      ∃ o, p.and q = some o ∧ o.Plain ∧ o.first.key = max p.first.key q.first.key ∧
        o.second.key = min p.second.key q.second.key ∧ o.first.key ≤ o.second.key ∧
        (o.second = p.second ∨ o.second = q.second) := by
  have hfirst := Version.of_stdMax (p := fun v => v.isBranch = false) hp.first hq.first
  have hsecond := Version.of_stdMin (p := fun v => v.isBranch = false) hp.second hq.second
  have hmax := Version.key_stdMax hp.first hq.first
  have hmin := Version.key_stdMin hp.second hq.second
  rw [RangePair.and, (p.plain_iff.mp hp), (q.plain_iff.mp hq), if_neg Bool.false_ne_true,
    if_neg Bool.false_ne_true]
  dsimp only
  split
  · rename_i h
    rw [Version.gt_iff hfirst hsecond, hmax, hmin] at h
    exact .inl ⟨rfl, h⟩
  · rename_i h
    rw [Version.gt_iff hfirst hsecond, not_lt] at h
    exact .inr ⟨_, rfl, ⟨hfirst, hsecond⟩, hmax, hmin, h, Versions.stdMin_cases _ _ _⟩

/-- What a pair has that was found by `and_cases`. -/
theorem RangePair.Plain.of_and {p q o : RangePair} (hp : p.Plain) (hq : q.Plain)
    (h : p.and q = some o) : o.Plain ∧ o.first.key = max p.first.key q.first.key ∧
      o.second.key = min p.second.key q.second.key ∧ o.first.key ≤ o.second.key ∧
      (o.second = p.second ∨ o.second = q.second) := by
  rcases hp.and_cases hq with ⟨hnone, -⟩ | ⟨o', ho', hspec⟩
  · rw [hnone] at h
    cases h
  · rw [ho', Option.some.injEq] at h
    exact h ▸ hspec

theorem RangePair.Plain.keys_and {p q o : RangePair} (hp : p.Plain) (hq : q.Plain)
    (h : p.and q = some o) : o.keys = p.keys ∩ q.keys := by
  obtain ⟨-, hfirst, hsecond, -⟩ := hp.of_and hq h
  rw [RangePair.keys, hfirst, hsecond]
  exact Set.Icc_inter_Icc.symm

namespace VersionRange

/-! ## Merging -/

theorem plain_merge {i rhs : RangePair} (hi : i.Plain) (hr : rhs.Plain) : (merge i rhs).Plain :=
  ⟨Version.of_stdMin (p := fun v => v.isBranch = false) hi.first hr.first,
    Version.of_stdMax (p := fun v => v.isBranch = false) hi.second hr.second⟩

/-- `[i, rhs]` overlap, or `rhs` begins with the version after the last one of `i`. -/
def Touches (i rhs : RangePair) : Prop :=
  (rhs.first.key ≤ i.second.key ∧ i.first.key ≤ rhs.second.key) ∨
    i.second.key < rhs.first.key ∧
      ∃ e, i.second.incrementVersion = .ok e ∧ e.key = rhs.first.key

/-- The loop goes on behind `i`: that ends below the new pair, and not just below it. -/
structure Passes (i rhs : RangePair) : Prop where
  below : i.second.key < rhs.first.key
  apart : ∀ e, i.second.incrementVersion = .ok e → e.key ≠ rhs.first.key

/-- **What adding a pair does.** -/
inductive Added (rhs : RangePair) : List RangePair → List RangePair → Prop
  | appended {l : List RangePair} (above : ∀ p ∈ l, Passes p rhs) : Added rhs l (l ++ [rhs])
  | inserted {pre rest : List RangePair} {i : RangePair} (above : ∀ p ∈ pre, Passes p rhs)
    (reach : rhs.first.key ≤ i.second.key) (below : rhs.second.key < i.first.key) :
    Added rhs (pre ++ i :: rest) (pre ++ (rhs :: i :: rest ++ [rhs]))
  | merged {pre rest : List RangePair} {i : RangePair} (above : ∀ p ∈ pre, Passes p rhs)
    (touch : Touches i rhs) : Added rhs (pre ++ i :: rest) (pre ++ mergeFollowing (merge i rhs) rest)

theorem Added.cons {rhs i : RangePair} {l l' : List RangePair} (h : Added rhs l l')
    (hi : Passes i rhs) : Added rhs (i :: l) (i :: l') := by
  have habove : ∀ pre : List RangePair, (∀ p ∈ pre, Passes p rhs) → ∀ p ∈ i :: pre, Passes p rhs :=
    fun pre hpre => List.forall_mem_cons.mpr ⟨hi, hpre⟩
  cases h with
  | appended above => exact .appended (habove _ above)
  | inserted above reach below => exact .inserted (habove _ above) reach below
  | merged above touch => exact .merged (habove _ above) touch

/-- The loop does one of these. -/
theorem added_of_addPair {rhs : RangePair} (hr : rhs.Plain) {l l' : List RangePair}
    (hl : ∀ p ∈ l, p.Plain) (h : addPair rhs l = .ok l') : Added rhs l l' := by
  induction l generalizing l' with
  | nil =>
    cases h
    exact .appended fun p hp => absurd hp List.not_mem_nil
  | cons i rest ih =>
    have hi := hl i List.mem_cons_self
    have hnil : ∀ p ∈ ([] : List RangePair), Passes p rhs := List.forall_mem_nil _
    rw [addPair] at h
    split at h
    · rename_i hlt
      have hlt := (Version.lt_iff hi.second hr.first).mp hlt
      cases hinc : i.second.incrementVersion with
      | error f => rw [hinc] at h; cases h
      | ok e =>
        have he : e.isBranch = false := (Version.isBranch_incrementVersion hinc).trans hi.second
        rw [hinc] at h
        simp only [bind, Except.bind, pure, Except.pure] at h
        split at h
        · rename_i heq
          cases h
          exact .merged hnil (.inr ⟨hlt, e, hinc, (Version.eq_iff he hr.first).mp heq⟩)
        · rename_i hne
          have hpasses : Passes i rhs := by
            refine ⟨hlt, fun e' he' hkey => hne ?_⟩
            rw [hinc, Except.ok.injEq] at he'
            exact (Version.eq_iff he hr.first).mpr (he' ▸ hkey)
          cases hrest : addPair rhs rest with
          | error f => rw [hrest] at h; cases h
          | ok l'' =>
            rw [hrest] at h
            cases h
            exact (ih (fun p hp => hl p (List.mem_cons_of_mem _ hp)) hrest).cons hpasses
    · rename_i hge
      rw [Version.lt_iff hi.second hr.first, not_lt] at hge
      split at h
      · rename_i hgt
        cases h
        exact .inserted hnil hge ((Version.gt_iff hi.first hr.second).mp hgt)
      · rename_i hle
        rw [Version.gt_iff hi.first hr.second, not_lt] at hle
        cases h
        exact .merged hnil (.inl ⟨hge, hle⟩)

/-- It comes to an end if the versions behind the pairs' last ones can be made. -/
theorem addPair_ok (rhs : RangePair) {l : List RangePair}
    (h : ∀ p ∈ l, ∃ e, p.second.incrementVersion = .ok e) : ∃ l', addPair rhs l = .ok l' := by
  induction l with
  | nil => exact ⟨_, rfl⟩
  | cons i rest ih =>
    obtain ⟨e, he⟩ := h i List.mem_cons_self
    obtain ⟨l', hl'⟩ := ih fun p hp => h p (List.mem_cons_of_mem _ hp)
    rw [addPair, he, hl']
    simp only [bind, Except.bind, pure, Except.pure]
    split
    · split
      · exact ⟨_, rfl⟩
      · exact ⟨_, rfl⟩
    · split
      · exact ⟨_, rfl⟩
      · exact ⟨_, rfl⟩

end VersionRange

end Primitives.Version1
