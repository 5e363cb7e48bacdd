import Primitives.Versions.Union
import Primitives.Lib.Run
import Mathlib.Data.List.Pairwise

/-!
# The vector of pairs

Two pairs without a union are apart: one ends before the other begins. The loop of `operator|=`
keeps the pairs of a vector apart from one another, and in order, unless the pair that it adds is
wholly below the first one that it does not skip (`addPair_apart_iff`). There it is added twice,
before that pair and at the end of the vector, or behind that pair. In a run in which no pair is
added so, every vector is as it should be (`sorted_of_run`).
-/

set_option autoImplicit false

namespace Primitives.Versions

open Lib
open Side (Clash)

namespace RangePair

variable {p q u : RangePair}

/-- A pair begins before another one ends, or they touch there. -/
def beginsBy (p q : RangePair) : Bool :=
  p.first.v.lt q.second.v ||
    p.first.v.eq q.second.v && (!p.first.strong || !q.second.strong)

theorem beginsBy_iff (p q : RangePair) : p.beginsBy q = true ↔ p.left ≤ q.right := by
  rw [left, right, Side.left_le_right_iff, beginsBy]
  simp

theorem left_le_right_of_clash (hc : Clash p.second q.second) : q.left ≤ p.right := by
  have hmeet := left_lt_of_clash hc
  rw [hc.right_stdMin, lt_upper_iff, max_le_iff] at hmeet
  refine hmeet.2.trans ?_
  rw [right, Side.right, Prod.Lex.toLex_le_toLex]
  exact .inr ⟨rfl, bot_le⟩

/-- **Pairs without a union** are apart. -/
theorem or_eq_none_iff (p q : RangePair) :
    p.or q = none ↔ p.right < q.left ∨ q.right < p.left := by
  rw [← Option.not_isSome_iff_eq_none, or_isSome_iff, not_le]
  by_cases hc : Clash p.second q.second
  · have hpq := left_le_right_of_clash hc
    have hqp := left_le_right_of_clash hc.symm
    refine iff_of_false (left_lt_of_clash hc).not_gt ?_
    rintro (h | h)
    · exact h.not_ge hpq
    · exact h.not_ge hqp
  · rw [Side.right_stdMin hc, min_lt_iff, lt_max_iff, lt_max_iff]
    constructor
    · rintro ((h | h) | (h | h))
      · exact absurd h p.left_lt_right.not_gt
      · exact .inl h
      · exact .inr h
      · exact absurd h q.left_lt_right.not_gt
    · rintro (h | h)
      · exact .inl (.inr h)
      · exact .inr (.inl h)

theorem right_lt_left_of_lt (h : p.second.v.lt q.first.v = true) : p.right < q.left := by
  rw [left, right, Side.left, Side.right, Prod.Lex.toLex_lt_toLex]
  exact .inl ((Version.lt_iff _ _).mp h)

/-- Between the end of a pair and the beginning of another one with the same version there is
nothing. -/
theorem left_le_of_right_lt (h : p.right < q.left) (hno : p.second.v.lt q.first.v = false)
    {x : Cut} (hx : p.right < x) : q.left ≤ x := by
  have hkey : p.second.v.key = q.first.v.key := by
    have hle := not_lt.mp ((Version.lt_iff _ _).not.mp (Bool.eq_false_iff.mp hno))
    rw [left, right, Side.left, Side.right, Prod.Lex.toLex_lt_toLex] at h
    rcases h with h | h
    · exact absurd h hle.not_gt
    · exact h.1
  have hlow : toLex (q.first.v.key, false) < x := by
    refine lt_of_le_of_lt ?_ hx
    rw [right, Side.right, hkey, Prod.Lex.toLex_le_toLex]
    exact .inr ⟨rfl, bot_le⟩
  have hup : toLex (q.first.v.key, true) ≤ x := by
    rw [← not_lt, lt_upper_iff, not_le]
    exact hlow
  refine le_trans ?_ hup
  rw [left, Side.left, Prod.Lex.toLex_le_toLex]
  exact .inr ⟨rfl, le_top⟩

end RangePair

/-! ## What a step of the loop keeps -/

namespace VersionRange

/-- Every pair ends before the next one begins. -/
def Apart (l : List RangePair) : Prop := l.Pairwise fun p q => p.right < q.left

/-- Where `operator|=` puts a pair in its place: the first pair that is not skipped does not begin
behind it. -/
def Placed (rhs : RangePair) : List RangePair → Prop
  | [] => True
  | i :: rest => if i.second.v.lt rhs.first.v then Placed rhs rest else i.beginsBy rhs = true

instance decidablePlaced (rhs : RangePair) : (l : List RangePair) → Decidable (Placed rhs l)
  | [] => .isTrue trivial
  | i :: rest =>
    have := decidablePlaced rhs rest
    inferInstanceAs (Decidable (if i.second.v.lt rhs.first.v then Placed rhs rest
      else i.beginsBy rhs = true))

/-- What begins behind a cut is merged to what begins there. -/
theorem lt_left_of_mem_mergeFollowing {x : Cut} {prev : RangePair} {l : List RangePair}
    (hprev : x < prev.left) (hl : ∀ q ∈ l, x < q.left) : ∀ q ∈ mergeFollowing prev l, x < q.left := by
  induction l generalizing prev with
  | nil =>
    intro q hq
    rw [List.mem_singleton.mp hq]
    exact hprev
  | cons i rest ih =>
    have hi : x < i.left := hl i List.mem_cons_self
    have hrest : ∀ q ∈ rest, x < q.left := fun q hq => hl q (List.mem_cons_of_mem i hq)
    rw [mergeFollowing]
    split
    · intro q hq
      rcases List.mem_cons.mp hq with rfl | hq
      · exact hprev
      · exact hl q hq
    · split
      · rename_i u hu
        refine ih ?_ hrest
        rw [RangePair.or_left hu]
        exact lt_min hprev hi
      · intro q hq
        rcases List.mem_cons.mp hq with rfl | hq
        · exact hprev
        · exact ih hi hrest q hq

theorem exists_mem_mergeFollowing (prev : RangePair) (l : List RangePair) :
    ∃ q ∈ mergeFollowing prev l, q.left ≤ prev.left := by
  induction l generalizing prev with
  | nil => exact ⟨prev, List.mem_cons_self, le_rfl⟩
  | cons i rest ih =>
    rw [mergeFollowing]
    split
    · exact ⟨prev, List.mem_cons_self, le_rfl⟩
    · split
      · rename_i u hu
        obtain ⟨q, hq, hle⟩ := ih u
        refine ⟨q, hq, hle.trans ?_⟩
        rw [RangePair.or_left hu]
        exact min_le_left _ _
      · exact ⟨prev, List.mem_cons_self, le_rfl⟩

theorem lt_left_of_mem_addPair {x : Cut} {rhs : RangePair} {l : List RangePair}
    (hrhs : x < rhs.left) (hl : ∀ q ∈ l, x < q.left) : ∀ q ∈ addPair rhs l, x < q.left := by
  induction l with
  | nil =>
    intro q hq
    rw [List.mem_singleton.mp hq]
    exact hrhs
  | cons i rest ih =>
    have hi : x < i.left := hl i List.mem_cons_self
    have hrest : ∀ q ∈ rest, x < q.left := fun q hq => hl q (List.mem_cons_of_mem i hq)
    rw [addPair]
    split
    · intro q hq
      rcases List.mem_cons.mp hq with rfl | hq
      · exact hi
      · exact ih hrest q hq
    · split
      · intro q hq
        simp only [List.mem_append, List.mem_cons, List.not_mem_nil, or_false] at hq
        rcases hq with (rfl | rfl | hq) | rfl
        · exact hrhs
        · exact hi
        · exact hrest q hq
        · exact hrhs
      · split
        · rename_i u hu
          refine lt_left_of_mem_mergeFollowing ?_ hrest
          rw [RangePair.or_left hu]
          exact lt_min hi hrhs
        · intro q hq
          rcases List.mem_cons.mp hq with rfl | hq
          · exact hi
          · exact lt_left_of_mem_mergeFollowing hrhs hrest q hq

/-- The second phase of the loop: what follows begins at `prev` or behind it. -/
theorem mergeFollowing_apart {prev : RangePair} {l : List RangePair} (hl : Apart l)
    (hprev : ∀ q ∈ l, prev.left ≤ q.left) : Apart (mergeFollowing prev l) := by
  induction l generalizing prev with
  | nil => exact List.pairwise_singleton _ _
  | cons i rest ih =>
    obtain ⟨hi, hrest⟩ := List.pairwise_cons.mp hl
    have hle : prev.left ≤ i.left := hprev i List.mem_cons_self
    have hbehind : ∀ q ∈ rest, i.left ≤ q.left :=
      fun q hq => (i.left_lt_right.trans (hi q hq)).le
    rw [mergeFollowing]
    split
    · rename_i hlt
      have hpi := RangePair.right_lt_left_of_lt hlt
      refine List.pairwise_cons.mpr ⟨?_, hl⟩
      intro q hq
      rcases List.mem_cons.mp hq with rfl | hq
      · exact hpi
      · exact hpi.trans_le (hbehind q hq)
    · split
      · rename_i u hu
        refine ih hrest ?_
        intro q hq
        rw [RangePair.or_left hu]
        exact (min_le_right _ _).trans (hbehind q hq)
      · rename_i hnone
        have hpi : prev.right < i.left := by
          rcases (RangePair.or_eq_none_iff prev i).mp hnone with h | h
          · exact h
          · exact absurd (i.left_lt_right.trans h) hle.not_gt
        refine List.pairwise_cons.mpr ⟨?_, ih hrest hbehind⟩
        exact lt_left_of_mem_mergeFollowing hpi fun q hq => hpi.trans_le (hbehind q hq)

/-- **A step of `operator|=`** keeps pairs apart if and only if it puts its own in its place. -/
theorem addPair_apart_iff {rhs : RangePair} {l : List RangePair} (hl : Apart l) :
    Apart (addPair rhs l) ↔ Placed rhs l := by
  induction l with
  | nil => exact iff_of_true (List.pairwise_singleton _ _) trivial
  | cons i rest ih =>
    obtain ⟨hi, hrest⟩ := List.pairwise_cons.mp hl
    have hbehind : ∀ q ∈ rest, i.left ≤ q.left :=
      fun q hq => (i.left_lt_right.trans (hi q hq)).le
    rw [addPair, Placed]
    split
    · -- the pair is skipped
      rename_i hlt
      have hskip := RangePair.right_lt_left_of_lt hlt
      rw [← ih hrest, Apart, List.pairwise_cons]
      exact and_iff_right (lt_left_of_mem_addPair hskip hi)
    · rename_i hnlt
      rw [RangePair.beginsBy_iff]
      split
      · -- the pair is added twice
        rename_i hgt
        have hright : rhs.right < i.left := by
          refine RangePair.right_lt_left_of_lt ((Version.lt_iff _ _).mpr ?_)
          exact (Version.gt_iff _ _).mp hgt
        refine iff_of_false ?_ hright.not_ge
        intro h
        rw [Apart, List.cons_append, List.pairwise_cons] at h
        exact absurd rhs.left_lt_right (h.1 rhs (by simp)).not_gt
      · split
        · -- the two pairs become one
          rename_i u hu
          refine iff_of_true (mergeFollowing_apart hrest ?_) ?_
          · intro q hq
            rw [RangePair.or_left hu]
            exact (min_le_left _ _).trans (hbehind q hq)
          · by_contra hno
            have hnone := (RangePair.or_eq_none_iff i rhs).mpr (.inr (not_le.mp hno))
            rw [hu] at hnone
            cases hnone
        · rename_i hnone
          rcases (RangePair.or_eq_none_iff i rhs).mp hnone with hright | hright
          · -- the pair is added behind `i`, which is its place
            have hle : i.left ≤ rhs.right :=
              (i.left_lt_right.trans (hright.trans rhs.left_lt_right)).le
            refine iff_of_true (List.pairwise_cons.mpr ⟨?_, mergeFollowing_apart hrest ?_⟩) hle
            · exact lt_left_of_mem_mergeFollowing hright hi
            · intro q hq
              exact RangePair.left_le_of_right_lt hright (Bool.eq_false_iff.mpr hnlt) (hi q hq)
          · -- the pair is added behind `i`, and should stand before it
            refine iff_of_false ?_ hright.not_ge
            intro h
            obtain ⟨q, hq, hle⟩ := exists_mem_mergeFollowing rhs rest
            have hlt := (List.pairwise_cons.mp h).1 q hq
            have hback := hlt.trans_le (hle.trans (rhs.left_lt_right.trans hright).le)
            exact absurd i.left_lt_right hback.not_gt

/-! ## Runs -/

/-- Every pair of a list is put in its place when they are added one after another. -/
def AllPlaced (r : VersionRange) : List RangePair → Prop
  | [] => True
  | p :: ps => Placed p r.range ∧ AllPlaced (r.orPair p) ps

instance decidableAllPlaced : (r : VersionRange) → (ps : List RangePair) → Decidable (AllPlaced r ps)
  | _, [] => .isTrue trivial
  | r, p :: ps =>
    have := decidableAllPlaced (r.orPair p) ps
    inferInstanceAs (Decidable (Placed p r.range ∧ AllPlaced (r.orPair p) ps))

theorem apart_foldl {ps : List RangePair} {r : VersionRange} (hr : Apart r.range)
    (hps : AllPlaced r ps) : Apart (ps.foldl orPair r).range := by
  induction ps generalizing r with
  | nil => exact hr
  | cons p ps ih => exact ih ((addPair_apart_iff hr).mpr hps.1) hps.2

/-- The ranges of a program, under their names. -/
abbrev Store := Nat → VersionRange

/-- What is done with ranges. Parsing does these, on ranges of its own. -/
inductive Op where
  | new (x : Nat)
  | copy (x y : Nat)
  | orPair (x : Nat) (p : RangePair)
  | or (x y : Nat)
  | and (x y : Nat)

/-- The range that an operation leaves in `x`. -/
def Op.value (st : Store) : Op → Nat × VersionRange
  | new x => (x, VersionRange.empty)
  | copy x y => (x, st y)
  | orPair x p => (x, (st x).orPair p)
  | or x y => (x, (st x).or (st y))
  | and x y => (x, (st x).and (st y))

def step (st : Store) (op : Op) : Option Store :=
  some (Function.update st (op.value st).1 (op.value st).2)

/-- All the pairs that an operation adds are put in their places. -/
def Op.Placed (st : Store) : Op → Prop
  | new _ => True
  | copy _ _ => True
  | orPair x p => VersionRange.Placed p (st x).range
  | or x y => AllPlaced (st x) (st y).range
  | and x y => AllPlaced VersionRange.empty (meets (st x) (st y))

instance (st : Store) : (op : Op) → Decidable (op.Placed st)
  | .new _ => .isTrue trivial
  | .copy _ _ => .isTrue trivial
  | .orPair x p => inferInstanceAs (Decidable (VersionRange.Placed p (st x).range))
  | .or x y => inferInstanceAs (Decidable (AllPlaced (st x) (st y).range))
  | .and x y => inferInstanceAs (Decidable (AllPlaced VersionRange.empty (meets (st x) (st y))))

def init : Store := fun _ => VersionRange.empty

/-- The pairs of every range are apart. -/
def AllApart (st : Store) : Prop := ∀ x, Apart (st x).range

theorem AllApart.step {st st' : Store} {op : Op} (h : AllApart st) (hop : op.Placed st)
    (hs : step st op = some st') : AllApart st' := by
  have hempty : Apart VersionRange.empty.range := List.Pairwise.nil
  have hvalue : Apart (op.value st).2.range := by
    cases op with
    | new x => exact hempty
    | copy x y => exact h y
    | orPair x p => exact (addPair_apart_iff (h x)).mpr hop
    | or x y => exact apart_foldl (h x) hop
    | and x y => exact apart_foldl hempty hop
  cases hs
  intro y
  rw [Function.update_apply]
  split
  · exact hvalue
  · exact h y

/-- What the vector of a range should be: sorted by left side, without pairs that overlap or are
listed twice, and of pairs that hold a version or have room for one. -/
structure WellFormed (r : VersionRange) : Prop where
  sorted : r.range.Pairwise fun p q => p.first.lt q.first = true
  disjoint : r.range.Pairwise fun p q => ∀ v, ¬ (p.contains v = true ∧ q.contains v = true)
  once : r.range.Pairwise fun p q => p.eq q = false
  admissible : ∀ p ∈ r.range, p.first.v.lt p.second.v = true ∨
    p.first.v.eq p.second.v = true ∧ p.first.strong = false ∧ p.second.strong = false

theorem Apart.wellFormed {r : VersionRange} (h : Apart r.range) : WellFormed r where
  sorted := h.imp fun {p q} hpq => (Side.lt_iff _ _).mpr (p.left_lt_right.trans hpq)
  disjoint := by
    refine h.imp fun {p q} hpq v hv => ?_
    rw [RangePair.contains_iff, RangePair.contains_iff] at hv
    exact absurd (hv.1.2.trans hpq) (not_lt.mpr hv.2.1)
  once := by
    refine h.imp fun {p q} hpq => ?_
    rw [Bool.eq_false_iff]
    intro heq
    have hfirst := (Side.eq_iff _ _).mp (Bool.and_eq_true_iff.mp heq).1
    exact absurd hfirst (p.left_lt_right.trans hpq).ne
  admissible p _ := (Side.left_lt_right_iff _ _).mp p.valid

/-- The pair of the two versions of one component, both closed. -/
def closed (m n : Int) (h : Version.lt ⟨[m], []⟩ ⟨[n], []⟩ = true) : RangePair :=
  ⟨⟨⟨[m], []⟩, false⟩, ⟨⟨[n], []⟩, false⟩, (Side.left_lt_right_iff _ _).mpr (.inl h)⟩

/-- Two pairs that are apart, in their order and in the other one. -/
theorem orPair_two_ne {p q : RangePair} (h : p.right < q.left) :
    ([p, q].foldl orPair empty).eq ([q, p].foldl orPair empty) = false := by
  have hle : p.first.v.key ≤ q.second.v.key := by
    have hlt : p.first.left ≤ q.second.right :=
      (p.left_lt_right.trans (h.trans q.left_lt_right)).le
    exact Side.key_le_of_left_le_right hlt
  have hle' : q.second.v.lt p.first.v = false := by
    rw [Bool.eq_false_iff, ne_eq, Version.lt_iff, not_lt]
    exact hle
  have hgt : p.first.v.gt q.second.v = false := by
    rw [Bool.eq_false_iff, ne_eq, Version.gt_iff, not_lt]
    exact hle
  have hpq : p.or q = none := (RangePair.or_eq_none_iff p q).mpr (.inl h)
  have hqp : q.or p = none := (RangePair.or_eq_none_iff q p).mpr (.inr h)
  have hbehind : addPair q [p] = [p, q] := by
    rw [addPair]
    split
    · rfl
    · rw [hgt, hpq]
      rfl
  have hne : p.eq q = false := by
    rw [Bool.eq_false_iff]
    intro heq
    have hfirst := (Side.eq_iff _ _).mp (Bool.and_eq_true_iff.mp heq).1
    exact absurd hfirst (p.left_lt_right.trans h).ne
  show eqPairs (addPair q [p]) (addPair p [q]) = false
  rw [hbehind, addPair, hle', hqp]
  -- the other order lists `p` twice, or behind `q`
  cases q.first.v.gt p.second.v with
  | true => simp [eqPairs]
  | false => simp [eqPairs, mergeFollowing, hne]

/-- The sides of a pair over a list: the lowest left one, and the greatest right one as tuples
are ordered. -/
structure Hull (l : List RangePair) (u : RangePair) : Prop where
  left : IsLeast (RangePair.left '' {q | q ∈ l}) u.left
  second : IsGreatest ((fun q : RangePair => q.second.left) '' {q | q ∈ l}) u.second.left

theorem Hull.eq {l m : List RangePair} {u w : RangePair} (hu : Hull l u) (hw : Hull m w)
    (hlm : ∀ p, p ∈ l ↔ p ∈ m) : u.eq w = true := by
  have hset : {q | q ∈ l} = {q | q ∈ m} := Set.ext hlm
  have hleft : u.left = w.left := hu.left.unique (hset ▸ hw.left)
  have hsecond : u.second.left = w.second.left := hu.second.unique (hset ▸ hw.second)
  exact Bool.and_eq_true_iff.mpr ⟨(Side.eq_iff _ _).mpr hleft, (Side.eq_iff _ _).mpr hsecond⟩

theorem Hull.single (p : RangePair) : Hull [p] p := by
  have hset : {q | q ∈ [p]} = {p} := Set.ext fun q => List.mem_singleton
  constructor
  · rw [hset, Set.image_singleton]
    exact isLeast_singleton
  · rw [hset, Set.image_singleton]
    exact isGreatest_singleton

/-- A pair that has a union with all the pairs of a list has one with their hull. -/
theorem Hull.or_isSome {l : List RangePair} {u p : RangePair} (hu : Hull l u)
    (hp : ∀ q ∈ l, (q.or p).isSome = true) : (u.or p).isSome = true := by
  obtain ⟨q, hq, hsecond⟩ := hu.second.1
  have hmeet := (RangePair.or_isSome_iff q p).mp (hp q hq)
  have hleft : u.left ≤ q.left := hu.left.2 ⟨q, hq, rfl⟩
  have hright : (stdMin Side.lt q.second p.second).right =
      (stdMin Side.lt u.second p.second).right := by
    refine Side.right_congr ?_
    rw [Side.left_stdMin, Side.left_stdMin]
    exact congrArg (min · p.second.left) hsecond
  rw [RangePair.or_isSome_iff, ← hright]
  exact (max_le_max_right p.left hleft).trans hmeet

theorem Hull.concat {l : List RangePair} {u p w : RangePair} (hu : Hull l u) (h : u.or p = some w) :
    Hull (l ++ [p]) w := by
  have hset : {q | q ∈ l ++ [p]} = insert p {q | q ∈ l} := by
    ext q
    simp [or_comm]
  constructor
  · rw [hset, Set.image_insert_eq, RangePair.or_left h, min_comm]
    exact hu.left.insert p.left
  · rw [hset, Set.image_insert_eq, RangePair.or_second h, Side.left_stdMax, max_comm]
    exact hu.second.insert p.second.left

theorem exists_hull {l : List RangePair} (hne : l ≠ [])
    (hl : ∀ p ∈ l, ∀ q ∈ l, (p.or q).isSome = true) :
    ∃ u, l.foldl orPair empty = ⟨[u]⟩ ∧ Hull l u := by
  induction l using List.reverseRecOn with
  | nil => exact absurd rfl hne
  | append_singleton l p ih =>
    rcases eq_or_ne l [] with rfl | hl₀
    · exact ⟨p, rfl, .single p⟩
    · obtain ⟨u, hfold, hu⟩ := ih hl₀ fun q hq r hr => hl q (by simp [hq]) r (by simp [hr])
      have hsome := hu.or_isSome fun q hq => hl q (by simp [hq]) p (by simp)
      obtain ⟨w, hw⟩ := Option.isSome_iff_exists.mp hsome
      refine ⟨w, ?_, hu.concat hw⟩
      rw [List.foldl_concat, hfold, orPair, RangePair.addPair_one hw]

/-- **The order of unions** of pairs from a set, and how often a pair is added, does not count if
and only if every two pairs of the set have a union in one pair. -/
theorem foldl_orPair_eq_iff (S : Set RangePair) :
    (∀ l m : List RangePair, (∀ p ∈ l, p ∈ S) → (∀ p, p ∈ l ↔ p ∈ m) →
      (l.foldl orPair empty).eq (m.foldl orPair empty) = true) ↔
    ∀ p ∈ S, ∀ q ∈ S, (p.or q).isSome = true := by
  constructor
  · intro h p hp q hq
    by_contra hno
    have hapart := (RangePair.or_eq_none_iff p q).mp (Option.not_isSome_iff_eq_none.mp hno)
    have hset : ∀ r, r ∈ [p, q] ↔ r ∈ [q, p] := fun r => by simp [or_comm]
    rcases hapart with hlt | hlt
    · have heq := h [p, q] [q, p] (by simp [hp, hq]) hset
      rw [orPair_two_ne hlt] at heq
      cases heq
    · have heq := h [q, p] [p, q] (by simp [hp, hq]) fun r => (hset r).symm
      rw [orPair_two_ne hlt] at heq
      cases heq
  · intro h l m hl hlm
    rcases eq_or_ne l [] with rfl | hne
    · have hm : m = [] := List.eq_nil_iff_forall_not_mem.mpr fun p hp => by simpa using (hlm p).mpr hp
      rw [hm]
      rfl
    · have hne' : m ≠ [] := by
        rintro rfl
        exact hne (List.eq_nil_iff_forall_not_mem.mpr fun p hp => by simpa using (hlm p).mp hp)
      have hm : ∀ p ∈ m, p ∈ S := fun p hp => hl p ((hlm p).mpr hp)
      obtain ⟨u, hfold, hu⟩ := exists_hull hne fun p hp q hq => h p (hl p hp) q (hl q hq)
      obtain ⟨w, hfold', hw⟩ := exists_hull hne' fun p hp q hq => h p (hm p hp) q (hm q hq)
      rw [hfold, hfold']
      show eqPairs [u] [w] = true
      simp [eqPairs, hu.eq hw hlm]

/-- `[5, 6]` and then `[1, 2]` is not `[1, 2]` and then `[5, 6]`. -/
theorem foldl_orPair_five_one :
    ¬ ∀ l m : List RangePair, (∀ p, p ∈ l ↔ p ∈ m) →
      (l.foldl orPair empty).eq (m.foldl orPair empty) = true := by
  intro h
  have heq := h [closed 5 6 (by decide), closed 1 2 (by decide)]
    [closed 1 2 (by decide), closed 5 6 (by decide)] fun p => by simp [or_comm]
  revert heq
  decide

end VersionRange

end Primitives.Versions
