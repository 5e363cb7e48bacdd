import Primitives.Lib.Fallible
import Primitives.Lib.Run
import Primitives.Version1.Actions
import Primitives.Version1.Union

/-!
# Programs with ranges

A program parses ranges and builds unions and intersections of them. `contains_of_run`: whatever it
has built, a union holds a version if one of the two ranges does, and an intersection if both do, for
every version that is `clearOf` the upper ends that were parsed: none of them is that close below it
that it is before the next version at the level of that end.
-/

set_option autoImplicit false

namespace Primitives.Version1

open Lib
open Versions (Key)

/-! ## Runs -/

/-- The ranges of a program, under their names. -/
abbrev Store := Nat → VersionRange

inductive Op where
  /-- A text is parsed, and it is not empty. -/
  | parse (z : Nat) (as : List Action)
  /-- An empty text: every version. -/
  | all (z : Nat)
  | or (z x y : Nat)
  | and (z x y : Nat)

/-- The range of an operation. -/
def Op.value (st : Store) : Op → Except Failure VersionRange
  | parse _ as => do
    let s ← Version1.parse as
    match s with
    | ⟨none, none, some r⟩ => return r
    | _ => throw (.runtimeError "parser error: empty result")
  | all _ =>
    .ok ⟨[⟨Version.min Version.minimumLevel, Version.max Version.minimumLevel⟩], []⟩
  | or _ x y => (st x).or (st y)
  | and _ x y => (st x).and (st y)

def Op.name : Op → Nat
  | parse z _ | all z | or z _ _ | and z _ _ => z

def step (st : Store) (op : Op) : Option Store :=
  match op.value st with
  | .ok r => some (Function.update st op.name r)
  | .error _ => none

def init : Store := fun _ => VersionRange.empty

/-- The range of the operation gets its name. -/
theorem step_cases {st st' : Store} {op : Op} (h : step st op = some st') :
    ∃ r, op.value st = .ok r ∧ st' = Function.update st op.name r := by
  rw [step] at h
  cases hr : op.value st with
  | error f =>
    rw [hr] at h
    cases h
  | ok r =>
    rw [hr] at h
    cases h
    exact ⟨r, rfl, rfl⟩

/-- What holds of the ranges before an operation and of its own holds of the ranges after it. -/
theorem forall_of_step {st st' : Store} {op : Op} {P : VersionRange → Prop}
    (h : step st op = some st') (hst : ∀ z, P (st z)) (hvalue : ∀ r, op.value st = .ok r → P r)
    (z : Nat) : P (st' z) := by
  obtain ⟨r, hr, rfl⟩ := step_cases h
  rw [Function.update_apply]
  split
  · exact hvalue r hr
  · exact hst z

/-- **What an action does** to the values that the parser has. -/
theorem Action.step_cases {s s' : Sets} {a : Action} (h : a.step s = .ok s') :
    s' = s ∨
    (∃ r vr, a = .range r ∧ r.eval = .ok vr ∧ s' = { s with range := some vr }) ∨
    (∃ vr vrAnd, a = .andSet ∧ s.range = some vr ∧ s.andSet = none ∧
      VersionRange.empty.or vr = .ok vrAnd ∧ s' = { s with range := none, andSet := some vrAnd }) ∨
    (∃ vr old vrAnd, a = .andSet ∧ s.range = some vr ∧ s.andSet = some old ∧
      old.and vr = .ok vrAnd ∧ s' = { s with range := none, andSet := some vrAnd }) ∨
    (∃ vrAnd, a = .orSet ∧ s.andSet = some vrAnd ∧ s.orSet = none ∧
      s' = { s with andSet := none, orSet := some vrAnd }) ∨
    ∃ vrAnd old vr, a = .orSet ∧ s.andSet = some vrAnd ∧ s.orSet = some old ∧
      old.or vrAnd = .ok vr ∧ s' = { s with andSet := none, orSet := some vr } := by
  cases a with
  | range r =>
    obtain ⟨vr, hvr, h⟩ := of_bind_eq_ok h
    cases h
    exact .inr (.inl ⟨r, vr, rfl, hvr, rfl⟩)
  | andSet =>
    rw [Action.step] at h
    split at h
    · cases h
      exact .inl rfl
    · rename_i vr hrange hset
      obtain ⟨vrAnd, hand, h⟩ := of_bind_eq_ok h
      cases h
      exact .inr (.inr (.inl ⟨vr, vrAnd, rfl, hrange, hset, hand, rfl⟩))
    · rename_i vr old hrange hset
      obtain ⟨vrAnd, hand, h⟩ := of_bind_eq_ok h
      cases h
      exact .inr (.inr (.inr (.inl ⟨vr, old, vrAnd, rfl, hrange, hset, hand, rfl⟩)))
  | orSet =>
    rw [Action.step] at h
    split at h
    · cases h
      exact .inl rfl
    · rename_i vrAnd hset hor
      cases h
      exact .inr (.inr (.inr (.inr (.inl ⟨vrAnd, rfl, hset, hor, rfl⟩))))
    · rename_i vrAnd old hset hor
      obtain ⟨vr, hvr, h⟩ := of_bind_eq_ok h
      cases h
      exact .inr (.inr (.inr (.inr (.inr ⟨vrAnd, old, vr, rfl, hset, hor, hvr, rfl⟩))))

/-! ## Versions that are in no gap -/

/-- `v` is not between `e` and the next version, and there is a next version. -/
def clearOf (v e : Version) : Bool :=
  match e.incrementVersion with
  | .ok e' => !(e.lt v && v.lt e')
  | .error _ => false

/-- The upper ends of a simple range have a property. -/
def Range.endsIn (q : Version → Bool) (r : Range) : Bool :=
  match r.pairs with
  | .ok ps => ps.all fun p => p.isBranch || q p.second
  | .error _ => true

def Action.endsIn (q : Version → Bool) : Action → Bool
  | range r => r.endsIn q
  | andSet | orSet => true

/-- `v` is clear of the upper ends that an operation parses. -/
def Op.clearOf (v : Version) : Op → Bool
  | parse _ as => as.all (·.endsIn (Version1.clearOf v))
  | all _ => Version1.clearOf v (Version.max Version.minimumLevel)
  | or _ _ _ | and _ _ _ => true

variable {v : Version}

theorem clear_of_clearOf (hv : v.isBranch = false) {e : Version} (he : e.isBranch = false)
    (h : clearOf v e = true) : VersionRange.Clear v.key e := by
  rw [clearOf] at h
  cases hinc : e.incrementVersion with
  | error f =>
    rw [hinc] at h
    cases h
  | ok e' =>
    have he' : e'.isBranch = false := (Version.isBranch_incrementVersion hinc).trans he
    rw [hinc, Bool.not_eq_true', Bool.and_eq_false_iff] at h
    refine ⟨e', hinc, fun hgap => ?_⟩
    rw [← Version.lt_iff he hv, ← Version.lt_iff hv he'] at hgap
    rcases h with h | h
    · exact Bool.false_ne_true (h.symm.trans hgap.1)
    · exact Bool.false_ne_true (h.symm.trans hgap.2)

/-! ## What every operation keeps -/

namespace VersionRange

variable {x : Key} {r r' a b : VersionRange} {ps : List RangePair}

theorem Good.orPair {p : RangePair} (hr : Good x r) (hp : p.isBranch = false → Sound x p)
    (h : r.orPair p = .ok r') : Good x r' := by
  rw [VersionRange.orPair] at h
  split at h
  · cases h
  · rename_i hb
    split at h
    · split at h
      · cases h
        exact good_of_nil rfl
      · cases h
    · rename_i hplain
      have hb := Bool.eq_false_iff.mpr hb
      have hplain := Bool.eq_false_iff.mpr hplain
      obtain ⟨r₁, hr₁, -, hgood, -⟩ := orPair_spec hb hr (hp hplain)
      rw [VersionRange.orPair, hb, hplain, if_neg Bool.false_ne_true, if_neg Bool.false_ne_true,
        h, Except.ok.injEq] at hr₁
      exact hr₁ ▸ hgood

theorem Good.foldlM (hr : Good x r) (hps : ∀ p ∈ ps, p.isBranch = false → Sound x p)
    (h : ps.foldlM VersionRange.orPair r = .ok r') : Good x r' :=
  foldlM_invariant (Good x) h hr fun hp hgood ho => hgood.orPair (hps _ hp) ho

theorem Good.or (ha : Good x a) (hb : Good x b) (h : a.or b = .ok r) : Good x r := by
  rw [VersionRange.or] at h
  split at h
  · cases h
  · split at h
    · split at h
      · cases h
        exact good_of_nil rfl
      · cases h
    · exact ha.foldlM (fun p hp _ => hb.sound p hp) h

theorem Good.and (ha : Good x a) (hb : Good x b) (h : a.and b = .ok r) : Good x r := by
  rw [VersionRange.and] at h
  split at h
  · cases h
  · split at h
    · split at h
      · cases h
        exact good_of_nil rfl
      · cases h
    · refine (good_of_nil rfl : Good x empty).foldlM (fun o ho _ => ?_) h
      exact (meets_spec ha.sound hb.sound).1 o ho

end VersionRange

theorem Range.eval_good (hv : v.isBranch = false) {r : Range} (hr : r.endsIn (clearOf v) = true)
    {vr : VersionRange} (h : r.eval = .ok vr) : VersionRange.Good v.key vr := by
  obtain ⟨ps, hps, hfold⟩ := of_bind_eq_ok h
  rw [endsIn, hps, List.all_eq_true] at hr
  refine (VersionRange.good_of_nil rfl).foldlM (fun p hp hb => ?_) hfold
  have hclear := hr p hp
  rw [hb, Bool.false_or] at hclear
  have hplain := p.plain_iff.mpr hb
  exact ⟨hplain, clear_of_clearOf hv hplain.second hclear⟩

/-- The ranges that a parser has are good. -/
structure Sets.Good (x : Key) (s : Sets) : Prop where
  range : ∀ r ∈ s.range, VersionRange.Good x r
  andSet : ∀ r ∈ s.andSet, VersionRange.Good x r
  orSet : ∀ r ∈ s.orSet, VersionRange.Good x r

theorem Sets.good_init (x : Key) : Sets.Good x Sets.init where
  range r hr := by cases hr
  andSet r hr := by cases hr
  orSet r hr := by cases hr

theorem Action.step_good (hv : v.isBranch = false) {s s' : Sets} {a : Action}
    (hs : s.Good v.key) (ha : a.endsIn (clearOf v) = true) (h : a.step s = .ok s') :
    s'.Good v.key := by
  have hnone : ∀ r ∈ (none : Option VersionRange), VersionRange.Good v.key r :=
    fun r hr => by cases hr
  have hsome : ∀ {vr : VersionRange}, VersionRange.Good v.key vr →
      ∀ r ∈ some vr, VersionRange.Good v.key r := fun h r hr => by cases hr; exact h
  obtain rfl | ⟨r, vr, rfl, hvr, rfl⟩ | ⟨vr, vrAnd, rfl, hrange, -, hand, rfl⟩ |
    ⟨vr, old, vrAnd, rfl, hrange, hset, hand, rfl⟩ | ⟨vrAnd, rfl, hset, -, rfl⟩ |
    ⟨vrAnd, old, vr, rfl, hset, hor, hvr, rfl⟩ := step_cases h
  · exact hs
  · exact { hs with range := hsome (Range.eval_good hv ha hvr) }
  · have hgood := (VersionRange.good_of_nil rfl).or (hs.range vr hrange) hand
    exact { hs with range := hnone, andSet := hsome hgood }
  · have hgood := (hs.andSet old hset).and (hs.range vr hrange) hand
    exact { hs with range := hnone, andSet := hsome hgood }
  · exact { hs with andSet := hnone, orSet := hsome (hs.andSet vrAnd hset) }
  · have hgood := (hs.orSet old hor).or (hs.andSet vrAnd hset) hvr
    exact { hs with andSet := hnone, orSet := hsome hgood }

theorem parse_good (hv : v.isBranch = false) {as : List Action} {s : Sets}
    (has : as.all (·.endsIn (clearOf v)) = true) (h : parse as = .ok s) : s.Good v.key :=
  foldlM_invariant (Sets.Good v.key) h (Sets.good_init _) fun ha hs =>
    Action.step_good hv hs (List.all_eq_true.mp has _ ha)

theorem isBranch_min (level : Nat) : (Version.min level).isBranch = false := rfl

theorem isBranch_max (level : Nat) : (Version.max level).isBranch = false := rfl

theorem step_good (hv : v.isBranch = false) {st st' : Store} {op : Op}
    (hst : ∀ z, VersionRange.Good v.key (st z)) (hop : op.clearOf v = true)
    (h : step st op = some st') (z : Nat) : VersionRange.Good v.key (st' z) := by
  refine forall_of_step h hst (fun r hr => ?_) z
  cases op with
  | parse _ as =>
    obtain ⟨s, hs, hr⟩ := of_bind_eq_ok hr
    have hgood := parse_good hv hop hs
    split at hr
    · cases hr
      exact hgood.orSet _ rfl
    · cases hr
  | all _ =>
    cases hr
    refine ⟨fun p hp => ?_, VersionRange.settled_singleton _ _⟩
    rw [List.mem_singleton.mp hp]
    exact ⟨⟨isBranch_min _, isBranch_max _⟩, clear_of_clearOf hv (isBranch_max _) hop⟩
  | or _ x y => exact (hst x).or (hst y) hr
  | and _ x y => exact (hst x).and (hst y) hr

/-- A text of one simple range, as the parser does it. -/
def single (r : Range) : List Action := [.range r, .andSet, .orSet]

/-- The version `n`, and `1.0.n`. -/
def wholeText (n : Nat) (h : n ≤ int64Max) : VersionText :=
  .version [.number n h] (List.cons_ne_nil _ _) []

def patchText (n : Nat) (h : n ≤ int64Max) : VersionText :=
  .version [.number 1 (by decide), .number 0 (by decide), .number n h] (List.cons_ne_nil _ _) []

end Primitives.Version1
