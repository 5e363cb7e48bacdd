import Primitives.Version1.Vectors
import Primitives.Version1.Neighbours

/-!
# Inside of the numbers

Which simple ranges make an action leave the vector of the numbers (`Range.inside`), and which unions
do (`clears`): `<0` has no version before it, nothing comes after the greatest numbers of a version with
an extra part, and behind `^0.0.0` there is nothing to fill. A text stays inside if all its actions do.
-/

set_option autoImplicit false

namespace Primitives.Version1

open Lib

/-! ## Conditions -/

def Comparison.inside (c : Comparison) (v : Version) : Bool :=
  match c with
  | .lt => !v.blank
  | .gt => !v.top
  | .ne => !v.blank && !v.top && !v.aboveMax
  | .le | .ge | .eq => true

/-- The versions of an interval, in their order. -/
def intervalEnds (v₁ v₂ : Version) : RangePair :=
  let p : RangePair := ⟨v₁, prepareVersion v₂ 0 (max v₁.getLevel v₂.getLevel)⟩
  if p.isBranch then p else p.ordered

/-- A version that is not of the level of the interval is filled up, and then its last number is
neither the greatest nor, as the second one, 0. -/
def intervalInside (leftOpen : Bool) (v₁ v₂ : Version) (rightOpen : Bool) : Bool :=
  let level := max v₁.getLevel v₂.getLevel
  let p := intervalEnds v₁ v₂
  let changed := leftOpen && level ≤ p.first.getLevel
  !(changed && p.first.top) &&
    -- an increment that overflows comes first
    !(rightOpen && level ≤ p.second.getLevel && p.second.zero &&
      !(changed && Version.carryStops p.first.numbers))

/-- No increment, decrement or fill of the range's action leaves the numbers. -/
def Range.inside : Range → Bool
  | compare c v => c.inside v.value
  | caret v =>
    !(v.value.numbers.head? = some 0 && v.value.blank && v.value.numbers.getLast? = some 0)
  | tilde _ | hyphen _ _ | version _ => true
  | interval leftOpen v₁ v₂ rightOpen => intervalInside leftOpen v₁.value v₂.value rightOpen
  | intervalFrom leftOpen v _ => !(leftOpen && v.value.top)
  | intervalTo _ v rightOpen => !(rightOpen && v.value.blank)

namespace VersionRange

/-- The loop of `operator|=` comes to a pair below the new one that ends with the greatest numbers,
but not with the greatest version. -/
def passesTop (rhs : RangePair) : List RangePair → Bool
  | [] => false
  | i :: rest =>
    i.second.lt rhs.first &&
      match i.second.incrementVersion with
      | .ok v => !v.eq rhs.first && passesTop rhs rest
      | .error _ => i.second.leavesUp

/-- To add the pairs one after the other does not do so. -/
def clears (r : VersionRange) (ps : List RangePair) : Bool :=
  allSteps (fun r p => r.isBranch || p.isBranch || !passesTop p r.range) orPair r ps

def orInside (r rhs : VersionRange) : Bool := r.isBranch || rhs.isBranch || r.clears rhs.range

def andInside (r rhs : VersionRange) : Bool :=
  r.isBranch || rhs.isBranch || empty.clears (meets r rhs)

end VersionRange

/-- No vector is left by the action. -/
def Action.inside (s : Sets) : Action → Bool
  | range r => r.inside
  | andSet =>
    match s.range, s.andSet with
    | none, _ => true
    | some vr, none => VersionRange.empty.orInside vr
    | some vr, some vrAnd => vrAnd.andInside vr
  | orSet =>
    match s.andSet, s.orSet with
    | none, _ => true
    | some _, none => true
    | some vrAnd, some vr => vr.orInside vrAnd

def parseInside (s : Sets) (as : List Action) : Bool := allSteps Action.inside Action.step s as

/-! ## Unions -/

namespace VersionRange

theorem addPair_outOfBounds_iff (rhs : RangePair) (l : List RangePair) :
    addPair rhs l = .error .outOfBounds ↔ passesTop rhs l = true := by
  induction l with
  | nil => exact iff_of_false (fun h => by cases h) Bool.false_ne_true
  | cons i rest ih =>
    rw [addPair, passesTop, Bool.and_eq_true]
    split
    · rename_i hlt
      rw [and_iff_right hlt, bind_eq_error_iff, Version.incrementVersion_outOfBounds_iff]
      cases hinc : i.second.incrementVersion with
      | error f =>
        refine or_iff_left ?_
        rintro ⟨v, hv, -⟩
        cases hv
      | ok v =>
        have hup : ¬ i.second.leavesUp = true := by
          rw [← Version.incrementVersion_outOfBounds_iff, hinc]
          exact fun h => by cases h
        rw [or_iff_right hup, Bool.and_eq_true, Bool.not_eq_true', ← ih]
        constructor
        · rintro ⟨v', hv', h⟩
          cases hv'
          split at h
          · cases h
          · rename_i heq
            refine ⟨Bool.eq_false_iff.mpr heq, ?_⟩
            rcases bind_eq_error_iff.mp h with h | ⟨l', -, h⟩
            · exact h
            · cases h
        · rintro ⟨heq, h⟩
          refine ⟨v, rfl, ?_⟩
          rw [heq, if_neg Bool.false_ne_true, h]
          rfl
    · rename_i hlt
      refine iff_of_false ?_ fun h => hlt h.1
      split
      · exact fun h => by cases h
      · exact fun h => by cases h

theorem orPair_outOfBounds_iff (r : VersionRange) (p : RangePair) :
    r.orPair p = .error .outOfBounds ↔
      (r.isBranch || p.isBranch || !passesTop p r.range) = false := by
  rw [orPair]
  cases hr : r.isBranch with
  | true => exact iff_of_false (fun h => by cases h) Bool.false_ne_true.symm
  | false =>
    cases hp : p.isBranch with
    | true =>
      refine iff_of_false ?_ Bool.false_ne_true.symm
      rw [if_neg Bool.false_ne_true, if_pos rfl]
      split
      · exact fun h => by cases h
      · exact fun h => by cases h
    | false =>
      rw [if_neg Bool.false_ne_true, if_neg Bool.false_ne_true, bind_eq_error_iff,
        addPair_outOfBounds_iff, Bool.false_or, Bool.false_or, Bool.not_eq_false']
      refine or_iff_left ?_
      rintro ⟨l, -, h⟩
      cases h

theorem foldlM_orPair_outOfBounds_iff (r : VersionRange) (ps : List RangePair) :
    ps.foldlM orPair r = .error .outOfBounds ↔ r.clears ps = false :=
  foldlM_eq_error_iff_allSteps orPair_outOfBounds_iff

/-- Two pairs in an empty range. -/
theorem clears_two {p q : RangePair} (hp : p.isBranch = false) (hq : q.isBranch = false) :
    empty.clears [p, q] = !(p.second.lt q.first && p.second.leavesUp) := by
  have hr : empty.orPair p = .ok ⟨[p], []⟩ := by
    rw [orPair, if_neg (by decide), hp, if_neg Bool.false_ne_true]
    rfl
  have hinc : (match p.second.incrementVersion with
      | .ok v => !v.eq q.first && passesTop q []
      | .error _ => p.second.leavesUp) = p.second.leavesUp := by
    have hup := p.second.incrementVersion_outOfBounds_iff
    cases h : p.second.incrementVersion with
    | error f => rfl
    | ok v =>
      rw [h] at hup
      have hfalse : p.second.leavesUp = false :=
        Bool.eq_false_iff.mpr fun h' => by cases hup.mpr h'
      rw [hfalse]
      exact Bool.and_false _
  have hq' : clears ⟨[p], []⟩ [q] = !(p.second.lt q.first && p.second.leavesUp) := by
    rw [clears, allSteps, hq, passesTop, hinc]
    show (!_ && _) = _
    split
    · exact Bool.and_true _
    · exact Bool.and_true _
  rw [clears, allSteps, hp, hr]
  exact hq'

theorem clears_of_isBranch {p : RangePair} (hp : p.isBranch = true) (q : RangePair) :
    empty.clears [p, q] = true := by
  have hr : empty.orPair p = .ok ⟨[], p.branch⟩ := by
    rw [orPair, if_neg (by decide), hp, if_pos rfl]
    rfl
  have hq : clears ⟨[], p.branch⟩ [q] = true := by
    rw [clears, allSteps, passesTop, Bool.not_false, Bool.or_true, Bool.true_and]
    split
    · rfl
    · rfl
  rw [clears, allSteps, hp, hr, Bool.or_true, Bool.true_or]
  exact hq

end VersionRange

/-! ## Simple ranges -/

theorem orPair_empty_ne (p : RangePair) {f : Failure} :
    VersionRange.empty.orPair p ≠ .error f := by
  rw [VersionRange.orPair, if_neg (by decide)]
  split
  · exact fun h => by cases h
  · exact fun h => by cases h

/-- A range of one pair fails where its pair does. -/
theorem Range.eval_eq_error_iff {r : Range} {f : Failure} (h : ∀ ps, r.pairs = .ok ps → ∃ p, ps = [p]) :
    r.eval = .error f ↔ r.pairs = .error f := by
  rw [eval, bind_eq_error_iff]
  refine or_iff_left ?_
  rintro ⟨ps, hps, hfold⟩
  obtain ⟨p, rfl⟩ := h ps hps
  rw [List.foldlM_cons, bind_eq_error_iff] at hfold
  rcases hfold with hfold | ⟨r', -, hfold⟩
  · exact orPair_empty_ne p hfold
  · cases hfold

/-! ## Unequal to a version -/

theorem VersionText.aboveMax_of_isBranch {t : VersionText} (h : t.value.isBranch = true) :
    t.value.aboveMax = false := by
  rw [Version.aboveMax, t.numbers_of_isBranch h]
  rfl

/-- The second pair begins above the first one, and this ends with the greatest numbers. -/
theorem clears_unequal {v prev next : Version} {level : Nat} (h : Version.minimumLevel ≤ level)
    (hprev : prev.isBranch = false) (hlevel : prev.getLevel = level)
    (hpos : ∀ n ∈ prev.numbers, 0 ≤ n) (htop : prev.top = v.aboveMax)
    (hnext : next.isBranch = false) (hlevel' : next.getLevel = level)
    (habove : v.aboveMax = true → (Version.max level).key < next.key) :
    VersionRange.empty.clears
      [preparePair ⟨Version.min level, prev⟩, preparePair ⟨next, Version.max level⟩] =
        !v.aboveMax := by
  have hmax : max (Version.min level).getLevel prev.getLevel = level := by
    rw [hlevel]
    exact max_eq_right (Version.length_min h).le
  have hmax' : max next.getLevel (Version.max level).getLevel = level := by
    rw [hlevel']
    exact max_eq_left (Version.length_max h).le
  obtain ⟨hp, -, hsecond⟩ := preparePair_levels (p := ⟨Version.min level, prev⟩) ⟨rfl, hprev⟩ hmax h
  obtain ⟨hq, -, -⟩ := preparePair_levels (p := ⟨next, Version.max level⟩) ⟨hnext, rfl⟩ hmax' h
  obtain ⟨hkeep, htop'⟩ := second_of_least hprev hlevel h hpos
  rw [VersionRange.clears_two (RangePair.plain_iff _ |>.mp hp) (RangePair.plain_iff _ |>.mp hq),
    Version.leavesUp_eq (h.trans hsecond.ge), htop', htop]
  cases hv : v.aboveMax with
  | false => rw [Bool.and_false]
  | true =>
    rw [hv] at htop
    rw [hkeep htop, first_of_greatest hnext hlevel' h (habove hv), lt_max_of_top hprev hlevel h htop]
    rfl

theorem ne_outOfBounds_iff (t : VersionText) :
    (Range.compare .ne t).eval = .error .outOfBounds ↔ Comparison.inside .ne t.value = false := by
  have hlevel := t.minimumLevel_le
  have hw : (prepared t.value).getLevel = t.value.getLevel :=
    (Version.getLevel_prepareVersion 0).trans (max_eq_left hlevel)
  have hpos : ∀ n ∈ (prepared t.value).numbers, 0 ≤ n := Version.nonneg_prepareVersion le_rfl
  have hmax : (prepared t.value).aboveMax = t.value.aboveMax := Version.aboveMax_prepareVersion hlevel
  have hdec := (prepared t.value).decrementVersion_outOfBounds_iff
  have hinc := (prepared t.value).incrementVersion_outOfBounds_iff
  rw [prepared_leavesDown] at hdec
  rw [t.prepared_leavesUp] at hinc
  rw [Comparison.inside, Bool.and_eq_false_iff, Bool.and_eq_false_iff, Bool.not_eq_false',
    Bool.not_eq_false', Bool.not_eq_false', ← hdec, ← hinc]
  have heval : (Range.compare .ne t).eval = (do
      let second ← (prepared t.value).decrementVersion
      let first ← (prepared t.value).incrementVersion
      [preparePair ⟨Version.min t.value.getLevel, second⟩,
        preparePair ⟨first, Version.max t.value.getLevel⟩].foldlM VersionRange.orPair
          VersionRange.empty) := by
    rw [Range.eval, Range.pairs, comparePairs]
    simp only [bind_assoc, pure_bind]
  rw [heval]
  cases hd : (prepared t.value).decrementVersion with
  | error f =>
    have hf := Version.decrementVersion_error hpos hd
    rw [hf]
    exact iff_of_true rfl (.inl (.inl rfl))
  | ok prev =>
    have hnot : ¬ (.ok prev : Except Failure Version) = .error .outOfBounds := fun h => by cases h
    rw [or_iff_right hnot]
    cases hi : (prepared t.value).incrementVersion with
    | error f =>
      refine Iff.trans ⟨fun h => by cases h; rfl, fun h => by cases h; rfl⟩
        (or_iff_left fun habove => ?_).symm
      have hv : t.value.isBranch = false := Bool.eq_false_iff.mpr fun hb =>
        Bool.false_ne_true ((t.aboveMax_of_isBranch hb).symm.trans habove)
      obtain ⟨w, hw', -⟩ := Version.incrementVersion_of_aboveMax (v := prepared t.value) hv
        (minimumLevel_le_prepared _) hpos (hmax.trans habove)
      cases hi.symm.trans hw'
    | ok next =>
      have hnot : ¬ (.ok next : Except Failure Version) = .error .outOfBounds := fun h => by cases h
      rw [or_iff_right hnot]
      show List.foldlM _ _ _ = _ ↔ _
      rw [VersionRange.foldlM_orPair_outOfBounds_iff]
      cases hb : t.value.isBranch with
      | true =>
        have hprev : prev.isBranch = true := (Version.isBranch_decrementVersion hd).trans hb
        have hpair : RangePair.isBranch ⟨Version.min t.value.getLevel, prev⟩ = true := by
          rw [RangePair.isBranch, hprev, Bool.or_true]
        rw [preparePair, if_pos hpair, VersionRange.clears_of_isBranch hpair, t.aboveMax_of_isBranch hb]
        exact iff_of_false Bool.false_ne_true.symm Bool.false_ne_true
      | false =>
        rcases Version.decrementVersion_cases (v := prepared t.value) hb (minimumLevel_le_prepared _) hpos
          with h | ⟨prev', hd', hprev, hlevel', hpos', htop⟩
        · cases hd.symm.trans h
        · cases hd.symm.trans hd'
          have hnext : next.isBranch = false := (Version.isBranch_incrementVersion hi).trans hb
          rw [clears_unequal hlevel hprev (hlevel'.trans hw) hpos' (htop.trans hmax) hnext
            ((Version.getLevel_incrementVersion hi).trans hw), Bool.not_eq_false']
          intro habove
          obtain ⟨w, hw', -, -, hlt⟩ := Version.incrementVersion_of_aboveMax (v := prepared t.value) hb
            (minimumLevel_le_prepared _) hpos (hmax.trans habove)
          cases hi.symm.trans hw'
          rwa [hw] at hlt

/-! ## Intervals -/

theorem ifOpen_eq_error_iff {isOpen : Bool} {change : Version → Except Failure Version} {v : Version}
    {f : Failure} : ifOpen isOpen change v = .error f ↔ isOpen = true ∧ change v = .error f := by
  cases isOpen with
  | false => exact iff_of_false (fun h => by cases h) fun h => Bool.false_ne_true h.1
  | true => exact (and_iff_right rfl).symm

/-- What `++` and `--` do to the versions of a pair that is filled up: the pair in its order tells. -/
structure Changes (rp p : RangePair) (level : Nat) : Prop where
  minimumLevel_le : Version.minimumLevel ≤ rp.first.getLevel
  leavesUp : rp.first.leavesUp = true ↔ level ≤ p.first.getLevel ∧ p.first.top = true
  carryStops : Version.carryStops rp.first.numbers = true ↔
    level ≤ p.first.getLevel ∧ Version.carryStops p.first.numbers = true
  leavesDown : rp.second.leavesDown = true ↔ level ≤ p.second.getLevel ∧ p.second.zero = true

theorem changes_of_plain {p : RangePair} (hp : p.Plain) {level : Nat}
    (hlevel : max p.first.getLevel p.second.getLevel = level) (h : Version.minimumLevel ≤ level) :
    Changes (preparePair p) p.ordered level := by
  obtain ⟨-, hfirst, hsecond⟩ := preparePair_levels hp hlevel h
  have hmax := p.level_ordered.trans hlevel
  have hfirst' : (prepareVersion p.ordered.first 0 level).getLevel = level :=
    (Version.getLevel_prepareVersion 0).trans (max_eq_right (hmax ▸ le_max_left _ _))
  have hsecond' : (prepareVersion p.ordered.second Version.maxNumber level).getLevel = level :=
    (Version.getLevel_prepareVersion _).trans (max_eq_right (hmax ▸ le_max_right _ _))
  have hpos : ∀ n ∈ (prepareVersion p.ordered.first 0 level).numbers, 0 ≤ n :=
    Version.nonneg_prepareVersion le_rfl
  have hbranch : (prepareVersion p.ordered.first 0 level).isBranch = false := hp.ordered.first
  have hbranch' : (prepareVersion p.ordered.second Version.maxNumber level).isBranch = false :=
    hp.ordered.second
  constructor
  case minimumLevel_le => exact h.trans hfirst.ge
  case leavesUp =>
    rw [Version.leavesUp_eq (h.trans hfirst.ge), preparePair_eq hp hlevel,
      Version.top_atLeastMin hbranch hfirst' h hpos, Version.top_prepareVersion]
  case carryStops =>
    rw [preparePair_eq hp hlevel, Version.carryStops_atLeastMin hbranch hfirst' h hpos,
      Version.carryStops_prepareVersion]
  case leavesDown =>
    rw [Version.leavesDown_iff (h.trans hsecond.ge), ← Version.zero_iff, preparePair_eq hp hlevel,
      Version.zero_atMostMax hbranch' hsecond' h, Version.zero_prepareVersion]

/-- The versions of an interval with a branch are not filled up, and a branch that is of a smaller
level is neither the greatest nor 0. -/
theorem changes_of_isBranch (t₁ t₂ : VersionText) {level : Nat}
    (hmax : max t₁.value.getLevel t₂.value.getLevel = level) (h : Version.minimumLevel ≤ level)
    (hb : RangePair.isBranch ⟨t₁.value, prepareVersion t₂.value 0 level⟩ = true) :
    Changes ⟨t₁.value, prepareVersion t₂.value 0 level⟩ ⟨t₁.value, prepareVersion t₂.value 0 level⟩
      level := by
  have hlevel₁ := t₁.minimumLevel_le
  have hlevel₂ : level ≤ (prepareVersion t₂.value 0 level).getLevel := by
    rw [Version.getLevel_prepareVersion]
    exact le_max_right _ _
  have hsmall : ¬ level ≤ t₁.value.getLevel → t₁.value.numbers = [0, 0, 1] := by
    intro hlt
    rw [RangePair.isBranch, Bool.or_eq_true] at hb
    refine t₁.numbers_of_isBranch (hb.resolve_right fun hb₂ => hlt ?_)
    have hbranch : t₂.value.numbers = [0, 0, 1] := t₂.numbers_of_isBranch hb₂
    have hthree : t₂.value.getLevel ≤ t₁.value.getLevel := by
      rw [Version.getLevel, hbranch]
      exact hlevel₁
    exact (hmax.symm.trans (max_eq_left hthree)).le
  constructor
  case minimumLevel_le => exact hlevel₁
  case leavesUp =>
    rw [Version.leavesUp_eq hlevel₁]
    refine (and_iff_right_of_imp fun htop => not_not.mp fun hlt => ?_).symm
    rw [Version.top, hsmall hlt] at htop
    exact Bool.false_ne_true htop
  case carryStops =>
    refine (and_iff_right_of_imp fun hstops => not_not.mp fun hlt => ?_).symm
    rw [hsmall hlt] at hstops
    exact absurd hstops (by decide)
  case leavesDown =>
    rw [Version.leavesDown_iff (h.trans hlevel₂), ← Version.zero_iff]
    exact (and_iff_right hlevel₂).symm

theorem changes_interval (t₁ t₂ : VersionText) :
    Changes (preparePair ⟨t₁.value,
        prepareVersion t₂.value 0 (max t₁.value.getLevel t₂.value.getLevel)⟩)
      (intervalEnds t₁.value t₂.value) (max t₁.value.getLevel t₂.value.getLevel) := by
  have h := t₁.minimumLevel_le.trans (le_max_left _ t₂.value.getLevel)
  cases hb : RangePair.isBranch ⟨t₁.value,
      prepareVersion t₂.value 0 (max t₁.value.getLevel t₂.value.getLevel)⟩ with
  | true =>
    rw [preparePair, if_pos hb, intervalEnds, if_pos hb]
    exact changes_of_isBranch t₁ t₂ rfl h hb
  | false =>
    rw [intervalEnds, if_neg (Bool.eq_false_iff.mp hb)]
    refine changes_of_plain ((RangePair.plain_iff _).mpr hb) ?_ h
    rw [Version.getLevel_prepareVersion]
    dsimp only
    omega

/-- The first version is made, and then the second one. -/
theorem Changes.outOfBounds_iff {rp p : RangePair} {level : Nat} (hc : Changes rp p level)
    (leftOpen rightOpen : Bool) (g : Version → Version → RangePair) :
    (do
      let first ← ifOpen leftOpen Version.incrementVersion rp.first
      let second ← ifOpen rightOpen Version.decrementVersion rp.second
      return [g first second] : Except Failure (List RangePair)) = .error .outOfBounds ↔
      (leftOpen = true ∧ level ≤ p.first.getLevel ∧ p.first.top = true) ∨
        rightOpen = true ∧ (level ≤ p.second.getLevel ∧ p.second.zero = true) ∧
          ¬ (leftOpen = true ∧ level ≤ p.first.getLevel ∧
            Version.carryStops p.first.numbers = true) := by
  have hfirst : (∃ w, ifOpen leftOpen Version.incrementVersion rp.first = .ok w) ↔
      ¬ (leftOpen = true ∧ rp.first.leavesUp = true) ∧
        ¬ (leftOpen = true ∧ Version.carryStops rp.first.numbers = true) := by
    cases leftOpen with
    | false =>
      exact iff_of_true ⟨_, rfl⟩ ⟨fun h => Bool.false_ne_true h.1, fun h => Bool.false_ne_true h.1⟩
    | true =>
      rw [and_iff_right rfl, and_iff_right rfl]
      exact Version.exists_incrementVersion_iff hc.minimumLevel_le
  rw [bind_eq_error_iff]
  simp only [bind_pair_eq_error_iff, exists_and_right]
  rw [hfirst, ifOpen_eq_error_iff, ifOpen_eq_error_iff, Version.incrementVersion_outOfBounds_iff,
    Version.decrementVersion_outOfBounds_iff, hc.leavesUp, hc.carryStops, hc.leavesDown]
  constructor
  · rintro (h | ⟨⟨-, hstops⟩, hopen, hdown⟩)
    · exact .inl h
    · exact .inr ⟨hopen, hdown, hstops⟩
  · rintro (h | ⟨hopen, hdown, hstops⟩)
    · exact .inl h
    · by_cases h : leftOpen = true ∧ level ≤ p.first.getLevel ∧ p.first.top = true
      · exact .inl h
      · exact .inr ⟨⟨h, hstops⟩, hopen, hdown⟩

theorem intervalPairs_outOfBounds_iff (leftOpen rightOpen : Bool) (t₁ t₂ : VersionText) :
    intervalPairs leftOpen t₁.value t₂.value rightOpen = .error .outOfBounds ↔
      intervalInside leftOpen t₁.value t₂.value rightOpen = false := by
  rw [intervalPairs, (changes_interval t₁ t₂).outOfBounds_iff, intervalInside]
  simp only [← Bool.not_eq_true, Bool.and_eq_true, Bool.not_eq_true', decide_eq_true_eq, and_assoc]
  exact or_iff_not_and_not

/-! ## Simple ranges -/

namespace Range

theorem value_ne_nil (t : VersionText) : t.value.numbers ≠ [] := by
  intro hnil
  have hlevel := t.minimumLevel_le
  rw [Version.getLevel, hnil] at hlevel
  exact absurd hlevel (by decide)

theorem exists_of_upTo {v : Version} {upper : List Int → Except Failure (List Int)}
    {ps : List RangePair} (h : upTo v upper = .ok ps) : ∃ p, ps = [p] := by
  rw [upTo] at h
  obtain ⟨n, -, h⟩ := of_bind_eq_ok h
  simp only [bind, Except.bind] at h
  split at h
  · cases h
  · obtain ⟨ns, -, h⟩ := of_bind_eq_ok (x := upper v.numbers) h
    exact exists_of_bind_pair h

theorem caret_outOfBounds_iff (t : VersionText) :
    (caret t).pairs = .error .outOfBounds ↔ (caret t).inside = false := by
  rw [pairs, upTo_outOfBounds_iff (value_ne_nil t) fun h₀ ns' => exists_pos_of_caretNumbers h₀, inside,
    Bool.not_eq_false', Bool.and_eq_true, Bool.and_eq_true, decide_eq_true_eq, decide_eq_true_eq,
    Version.blank_iff]
  constructor
  · rintro ⟨h₀, h⟩
    obtain ⟨hle, hlast⟩ := (caretNumbers_outOfBounds_iff h₀).mp h
    obtain ⟨n, hn, hpos⟩ := h₀
    have hzero := le_antisymm (hle n (List.mem_of_mem_head? hn)) hpos
    exact ⟨⟨hzero ▸ hn, hle⟩, hlast⟩
  · rintro ⟨⟨hhead, hle⟩, hlast⟩
    have h₀ : ∃ n, t.value.numbers.head? = some n ∧ 0 ≤ n := ⟨0, hhead, le_rfl⟩
    exact ⟨h₀, (caretNumbers_outOfBounds_iff h₀).mpr ⟨hle, hlast⟩⟩

theorem tilde_ne_outOfBounds (t : VersionText) : (tilde t).pairs ≠ .error .outOfBounds := by
  rw [pairs, ne_eq,
    upTo_outOfBounds_iff (value_ne_nil t) fun h₀ ns' => exists_pos_of_tildeNumbers h₀]
  rintro ⟨h₀, h⟩
  exact tildeNumbers_ne_outOfBounds h₀ h

theorem ifOpen_prepared_iff (isOpen : Bool) (t : VersionText) (g : Version → RangePair) :
    ((do let v ← ifOpen isOpen Version.incrementVersion (prepared t.value); return [g v] :
        Except Failure (List RangePair)) = .error .outOfBounds ↔ (!(isOpen && t.value.top)) = false) ∧
      ((do let v ← ifOpen isOpen Version.decrementVersion (prepared t.value); return [g v] :
        Except Failure (List RangePair)) = .error .outOfBounds ↔ (!(isOpen && t.value.blank)) = false) := by
  rw [bind_pair_eq_error_iff, bind_pair_eq_error_iff, ifOpen_eq_error_iff, ifOpen_eq_error_iff,
    Version.incrementVersion_outOfBounds_iff, Version.decrementVersion_outOfBounds_iff,
    t.prepared_leavesUp, prepared_leavesDown, Bool.not_eq_false', Bool.not_eq_false', Bool.and_eq_true,
    Bool.and_eq_true]
  exact ⟨Iff.rfl, Iff.rfl⟩

theorem compare_outOfBounds_iff (c : Comparison) (hc : c ≠ .ne) (t : VersionText) :
    (compare c t).pairs = .error .outOfBounds ↔ c.inside t.value = false := by
  cases c with
  | lt =>
    rw [pairs, comparePairs, bind_pair_eq_error_iff, Version.decrementVersion_outOfBounds_iff,
      prepared_leavesDown, Comparison.inside, Bool.not_eq_false']
  | gt =>
    rw [pairs, comparePairs, bind_pair_eq_error_iff, Version.incrementVersion_outOfBounds_iff,
      t.prepared_leavesUp, Comparison.inside, Bool.not_eq_false']
  | ne => exact absurd rfl hc
  | le | ge | eq => exact iff_of_false (fun h => by cases h) Bool.false_ne_true.symm

/-- All but `!=` make one pair. -/
theorem exists_of_pairs {r : Range} (hr : ∀ v, r ≠ compare .ne v) {ps : List RangePair}
    (h : r.pairs = .ok ps) : ∃ p, ps = [p] := by
  cases r with
  | compare c v =>
    cases c with
    | ne => exact absurd rfl (hr v)
    | lt | gt => exact exists_of_bind_pair h
    | le | ge | eq =>
      cases h
      exact ⟨_, rfl⟩
  | caret v => exact exists_of_upTo h
  | tilde v => exact exists_of_upTo h
  | hyphen v₁ v₂ =>
    cases h
    exact ⟨_, rfl⟩
  | version v =>
    cases h
    exact ⟨_, rfl⟩
  | interval leftOpen v₁ v₂ rightOpen =>
    obtain ⟨w, -, h⟩ := of_bind_eq_ok h
    exact exists_of_bind_pair h
  | intervalFrom leftOpen v rightOpen => exact exists_of_bind_pair h
  | intervalTo leftOpen v rightOpen => exact exists_of_bind_pair h

/-- **One simple range.** -/
theorem eval_outOfBounds_iff (r : Range) : r.eval = .error .outOfBounds ↔ r.inside = false := by
  by_cases hr : ∃ v, r = compare .ne v
  · obtain ⟨v, rfl⟩ := hr
    exact ne_outOfBounds_iff v
  · have hne : ∀ v, r ≠ compare .ne v := fun v hv => hr ⟨v, hv⟩
    rw [eval_eq_error_iff fun ps => exists_of_pairs hne]
    cases r with
    | compare c v => exact compare_outOfBounds_iff c (fun hc => hne v (by rw [hc])) v
    | caret v => exact caret_outOfBounds_iff v
    | tilde v => exact iff_of_false (tilde_ne_outOfBounds v) Bool.false_ne_true.symm
    | hyphen v₁ v₂ => exact iff_of_false (fun h => by cases h) Bool.false_ne_true.symm
    | version v => exact iff_of_false (fun h => by cases h) Bool.false_ne_true.symm
    | interval leftOpen v₁ v₂ rightOpen => exact intervalPairs_outOfBounds_iff leftOpen rightOpen v₁ v₂
    | intervalFrom leftOpen v rightOpen => exact (ifOpen_prepared_iff leftOpen v _).1
    | intervalTo leftOpen v rightOpen => exact (ifOpen_prepared_iff rightOpen v _).2

end Range

/-! ## Texts -/

namespace VersionRange

/-- What `|=` and `&=` do first, if one of the ranges is a branch. -/
theorem branches_outOfBounds_iff {a b : VersionRange} {text text' : String} {x : Except Failure VersionRange}
    {clear : Bool} (hx : x = .error .outOfBounds ↔ clear = false) :
    (if a.isBranch then .error (.runtimeError text)
      else if b.isBranch then
        if a.isEmpty then .ok ⟨[], b.branch⟩ else .error (.runtimeError text')
      else x) = .error .outOfBounds ↔ (a.isBranch || b.isBranch || clear) = false := by
  cases a.isBranch with
  | true => exact iff_of_false (fun h => by cases h) Bool.false_ne_true.symm
  | false =>
    cases b.isBranch with
    | true =>
      refine iff_of_false ?_ Bool.false_ne_true.symm
      rw [if_neg Bool.false_ne_true, if_pos rfl]
      split
      · exact fun h => by cases h
      · exact fun h => by cases h
    | false => exact hx

theorem or_outOfBounds_iff (a b : VersionRange) :
    a.or b = .error .outOfBounds ↔ a.orInside b = false :=
  branches_outOfBounds_iff (foldlM_orPair_outOfBounds_iff a b.range)

theorem and_outOfBounds_iff (a b : VersionRange) :
    a.and b = .error .outOfBounds ↔ a.andInside b = false :=
  branches_outOfBounds_iff (foldlM_orPair_outOfBounds_iff empty (meets a b))

end VersionRange

/-- **One action.** -/
theorem Action.step_outOfBounds_iff (s : Sets) (a : Action) :
    a.step s = .error .outOfBounds ↔ a.inside s = false := by
  have hok : ∀ (x : Except Failure VersionRange) (g : VersionRange → Sets),
      (do let r ← x; return g r : Except Failure Sets) = .error .outOfBounds ↔ x = .error .outOfBounds := by
    intro x g
    rw [bind_eq_error_iff]
    refine or_iff_left ?_
    rintro ⟨r, -, h⟩
    cases h
  cases a with
  | range r =>
    rw [step, hok, inside]
    exact r.eval_outOfBounds_iff
  | andSet =>
    rw [step, inside]
    cases s.range with
    | none => exact iff_of_false (fun h => by cases h) Bool.false_ne_true.symm
    | some vr =>
      cases s.andSet with
      | none => exact (hok _ _).trans (VersionRange.empty.or_outOfBounds_iff vr)
      | some vrAnd => exact (hok _ _).trans (vrAnd.and_outOfBounds_iff vr)
  | orSet =>
    rw [step, inside]
    cases s.andSet with
    | none => exact iff_of_false (fun h => by cases h) Bool.false_ne_true.symm
    | some vrAnd =>
      cases s.orSet with
      | none => exact iff_of_false (fun h => by cases h) Bool.false_ne_true.symm
      | some vr => exact (hok _ _).trans (vr.or_outOfBounds_iff vrAnd)

end Primitives.Version1
