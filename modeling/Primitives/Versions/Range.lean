import Primitives.Versions.Sides
import Mathlib.Order.Interval.Set.Basic
import Mathlib.Data.Int.ConditionallyCompleteOrder

/-!
# Version ranges — the code

`RangePair` and `VersionRange` of `version_range.h`. Every pair that can be built holds a version
or is one version with both sides closed; the proof of it is a field. A range is a vector of
pairs, as `operator|=` leaves it.
-/

set_option autoImplicit false

namespace Primitives.Versions

structure RangePair where
  first : Side
  second : Side
  valid : first.left < second.right

namespace RangePair

/-- The cut at which the pair begins. -/
def left (p : RangePair) : Cut := p.first.left

/-- The cut at which the pair ends. -/
def right (p : RangePair) : Cut := p.second.right

theorem left_lt_right (p : RangePair) : p.left < p.right := p.valid

/-- `toStringInterval`. -/
def toStringInterval (first second : Side) : Str :=
  (if first.strong then ['('] else ['[']) ++ first.v.toString 3 ++ ", ".toList ++
    second.v.toString 3 ++ if second.strong then [')'] else [']']

/-- The constructor. -/
def make (v₁ : Version) (strong₁ : Bool) (v₂ : Version) (strong₂ : Bool) :
    Except Failure RangePair :=
  if h₁ : v₁.gt v₂ = true then
    .error (.runtimeError ("Left version must be <= than right: ".toList ++
      toStringInterval ⟨v₁, strong₁⟩ ⟨v₂, strong₂⟩))
  else if h₂ : (v₁.eq v₂ && (strong₁ || strong₂)) = true then
    .error (.runtimeError ("Pair does not contain any versions: ".toList ++
      toStringInterval ⟨v₁, strong₁⟩ ⟨v₂, strong₂⟩))
  else
    .ok ⟨⟨v₁, strong₁⟩, ⟨v₂, strong₂⟩, by
      rw [Side.left_lt_right_iff]
      rw [Version.gt_iff, not_lt] at h₁
      rcases h₁.lt_or_eq with hlt | heq
      · exact .inl ((Version.lt_iff _ _).mpr hlt)
      · have h₃ := (Version.eq_iff _ _).mpr heq
        refine .inr ⟨h₃, ?_⟩
        simpa [h₃] using h₂⟩

/-- `contains`. -/
def contains (p : RangePair) (v : Version) : Bool := p.first.ltVersion v && p.second.gtVersion v

/-- `getHash`. -/
def getHash (c : HashCombine) (p : RangePair) : Nat :=
  c.hash (c.hash 0 (p.first.v.getHash c)) (p.second.v.getHash c)

/-- `operator==`. -/
def eq (p q : RangePair) : Bool := p.first.eq q.first && p.second.eq q.second

/-- `operator&`. -/
def and (p q : RangePair) : Option RangePair :=
  let f := stdMax Side.lt p.first q.first
  let s := stdMin Side.lt p.second q.second
  if h : f.v.lt s.v = true ∨ f.v.eq s.v = true ∧ f.strong = false ∧ s.strong = false then
    some ⟨f, s, (Side.left_lt_right_iff f s).mpr h⟩
  else none

/-- The sides of a union are those of a pair: the lower left one, and one of the right ones. -/
theorem union_valid (p q : RangePair) :
    (stdMin Side.lt p.first q.first).left < (stdMax Side.lt p.second q.second).right := by
  rw [Side.left_stdMin]
  rcases stdMax_cases Side.lt p.second q.second with h | h
  · rw [h]
    exact (min_le_left _ _).trans_lt p.valid
  · rw [h]
    exact (min_le_right _ _).trans_lt q.valid

/-- `operator|`. -/
def or (p q : RangePair) : Option RangePair :=
  let f := stdMax Side.lt p.first q.first
  let s := stdMin Side.lt p.second q.second
  if f.v.lt s.v = true ∨ f.v.eq s.v = true ∧ (f.strong = false ∨ s.strong = false) then
    some ⟨stdMin Side.lt p.first q.first, stdMax Side.lt p.second q.second, union_valid p q⟩
  else none

end RangePair

structure VersionRange where
  range : List RangePair

namespace VersionRange

def empty : VersionRange := ⟨[]⟩

/-- `contains`. -/
def contains (r : VersionRange) (v : Version) : Bool := r.range.any (·.contains v)

/-- `getHash`. -/
def getHash (c : HashCombine) (r : VersionRange) : Nat :=
  r.range.foldl (fun h p => c.hash h (p.getHash c)) 0

/-- `std::hash<VersionRange>`. -/
def hash (c : HashCombine) (r : VersionRange) : Nat := r.getHash c

/-- `operator==` of the vectors. -/
def eqPairs : List RangePair → List RangePair → Bool
  | [], [] => true
  | p :: l, q :: m => p.eq q && eqPairs l m
  | _, _ => false

def eq (r s : VersionRange) : Bool := eqPairs r.range s.range

/-- The loop of `operator|=` once the pair was added: `prev` is `*(i - 1)`, the list is what
stands from `i` on. -/
def mergeFollowing (prev : RangePair) : List RangePair → List RangePair
  | [] => [prev]
  | i :: rest =>
    if prev.second.v.lt i.first.v then prev :: i :: rest
    else
      match prev.or i with
      | some u => mergeFollowing u rest
      | none => prev :: mergeFollowing i rest

/-- The loop of `operator|=` before, and the `push_back` after it. -/
def addPair (rhs : RangePair) : List RangePair → List RangePair
  | [] => [rhs]
  | i :: rest =>
    if i.second.v.lt rhs.first.v then i :: addPair rhs rest
    -- the loop is left with `added` still false
    else if i.first.v.gt rhs.second.v then rhs :: i :: rest ++ [rhs]
    else
      match i.or rhs with
      | some u => mergeFollowing u rest
      | none => i :: mergeFollowing rhs rest

/-- `operator|=(const RangePair &)`. -/
def orPair (r : VersionRange) (rhs : RangePair) : VersionRange := ⟨addPair rhs r.range⟩

/-- `operator|=(const VersionRange &)`, and `operator|`. -/
def or (r rhs : VersionRange) : VersionRange := rhs.range.foldl orPair r

/-- The pairs that `operator&=` adds, in its order. -/
def meets (r rhs : VersionRange) : List RangePair :=
  r.range.flatMap fun p => rhs.range.filterMap fun q => p.and q

/-- `operator&=`, and `operator&`. -/
def and (r rhs : VersionRange) : VersionRange := (meets r rhs).foldl orPair empty

end VersionRange

end Primitives.Versions
