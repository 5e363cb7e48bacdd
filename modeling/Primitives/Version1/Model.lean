import Primitives.Versions.Sides

/-!
# Ranges of the first versions — the code

`Version`, `RangePair` and `VersionRange` of `version1`. A version is a branch, or numbers and an
extra part; two versions that are no branches are compared by the `cmp` that `version` has too
(`Versions.Version.cmp`). A pair is closed on both sides. An increment and a decrement work on the
vector of the numbers from behind, and leave it where no number stops them.

Levels are the lengths of vectors. No version of a range is without numbers, so
`checkAndNormalizeLevel` throws for none; printing, hashes and the parser of versions are left out.
-/

set_option autoImplicit false

namespace Primitives.Version1

open Lib
open Versions (Extra Value stdMax stdMin)

inductive Failure where
  /-- A vector is read, written or filled outside of its elements: undefined behaviour. -/
  | outOfBounds
  /-- Signed overflow: undefined behaviour. -/
  | overflow
  /-- `SW_RUNTIME_ERROR` -/
  | runtimeError (text : String)
  /-- `YYABORT` -/
  | abort
deriving DecidableEq, Repr

/-! ## Versions -/

structure Version where
  numbers : List Int
  extra : Extra
  branch : Str
deriving DecidableEq, Repr

namespace Version

def minimumLevel : Nat := 3

def maxNumber : Int := 999999999

def isBranch (v : Version) : Bool := v.branch ≠ []

def getLevel (v : Version) : Nat := v.numbers.length

/-- What `cmp` reads of a version. -/
def base (v : Version) : Versions.Version := ⟨v.numbers, v.extra⟩

/-- `operator<` of strings. -/
def strLess (s t : Str) : Bool := lexicographicalCompare (fun c d : Char => c < d) s t

/-- An operator on two versions that are branches, on a branch and a version, or on two versions. -/
def compare (onBranches : Str → Str → Bool) (onVersions : Versions.Version → Versions.Version → Bool)
    (v w : Version) : Bool :=
  if v.isBranch && w.isBranch then onBranches v.branch w.branch
  else if v.isBranch || w.isBranch then !onBranches v.branch w.branch
  else onVersions v.base w.base

/-- `operator<` -/
def lt (v w : Version) : Bool := compare strLess Versions.Version.lt v w

/-- `operator>` -/
def gt (v w : Version) : Bool := compare (fun s t => strLess t s) Versions.Version.gt v w

/-- `operator<=` -/
def le (v w : Version) : Bool := compare (fun s t => !strLess t s) Versions.Version.le v w

/-- `operator>=` -/
def ge (v w : Version) : Bool := compare (fun s t => !strLess s t) Versions.Version.ge v w

/-- `operator==` -/
def eq (v w : Version) : Bool :=
  if v.isBranch || w.isBranch then v.branch == w.branch else v.base.eq w.base

/-- `operator!=` -/
def ne (v w : Version) : Bool := !v.eq w

/-- `min(level)` -/
def min (level : Nat) : Version :=
  ⟨List.replicate (Max.max level minimumLevel - 1) 0 ++ [1], [], []⟩

/-- `max(level)` -/
def max (level : Nat) : Version :=
  ⟨List.replicate (Max.max level minimumLevel) maxNumber, [], []⟩

/-- The loop of `incrementVersion` and the `++` after it, on the numbers from the last to the
first. -/
def carry : List Int → Except Failure (List Int)
  | [] => .error .outOfBounds
  | n :: ns =>
    if n = maxNumber then do
      let ns ← carry ns
      return 0 :: ns
    else if n = int64Max then .error .overflow
    else .ok ((n + 1) :: ns)

/-- The loop of `decrementVersion` and the `--` after it. -/
def borrow : List Int → Except Failure (List Int)
  | [] => .error .outOfBounds
  | n :: ns =>
    if n = 0 then do
      let ns ← borrow ns
      return maxNumber :: ns
    else if n = -(int64Max : Int) - 1 then .error .overflow
    else .ok ((n - 1) :: ns)

/-- `incrementVersion`, `++` and `getNextVersion`, at the version's own level. -/
def incrementVersion (v : Version) : Except Failure Version :=
  if v.eq (max v.getLevel) then .ok v
  else do
    let ns ← carry v.numbers.reverse
    return { v with numbers := ns.reverse }

/-- `decrementVersion` and `getPreviousVersion`, at the version's own level. -/
def decrementVersion (v : Version) : Except Failure Version :=
  if v.eq (min v.getLevel) then .ok v
  else do
    let ns ← borrow v.numbers.reverse
    return { v with numbers := ns.reverse }

end Version

/-! ## Pairs -/

/-- `[first, second]` -/
structure RangePair where
  first : Version
  second : Version
deriving DecidableEq, Repr

namespace RangePair

def isBranch (p : RangePair) : Bool := p.first.isBranch || p.second.isBranch

/-- `toString` of a pair with a branch. -/
def branch (p : RangePair) : Str := if p.first.isBranch then p.first.branch else p.second.branch

def hasVersion (p : RangePair) (v : Version) : Bool := p.first.le v && v.le p.second

/-- `operator&` -/
def and (p q : RangePair) : Option RangePair :=
  if p.isBranch then some p
  else if q.isBranch then some q
  else
    let rp : RangePair := ⟨stdMax Version.lt p.first q.first, stdMin Version.lt p.second q.second⟩
    if rp.first.gt rp.second then none else some rp

end RangePair

/-! ## Ranges -/

structure VersionRange where
  range : List RangePair
  branch : Str
deriving DecidableEq, Repr

namespace VersionRange

def empty : VersionRange := ⟨[], []⟩

def isBranch (r : VersionRange) : Bool := r.branch ≠ []

def isEmpty (r : VersionRange) : Bool := r.range.isEmpty && !r.isBranch

def hasVersion (r : VersionRange) (v : Version) : Bool :=
  if r.isBranch && v.isBranch then r.branch == v.branch
  else if r.isBranch || v.isBranch then false
  else r.range.any (·.hasVersion v)

/-- `operator<` of a range that is no branch, and a version. -/
def ltVersion (r : VersionRange) (v : Version) : Bool :=
  match r.range.getLast? with
  | none => false
  | some p => p.second.lt v

/-- `operator>` of a range that is no branch, and a version. -/
def gtVersion (r : VersionRange) (v : Version) : Bool :=
  match r.range.head? with
  | none => false
  | some p => p.first.gt v

/-- `isOutside` of a range that is no branch. -/
def isOutside (r : VersionRange) (v : Version) : Bool := r.ltVersion v || r.gtVersion v

/-- Two pairs as one. -/
def merge (i rhs : RangePair) : RangePair :=
  ⟨stdMin Version.lt i.first rhs.first, stdMax Version.lt i.second rhs.second⟩

/-- The loop of `operator|=` once the pair was added: `prev` is `*(i - 1)`, the list is what stands
from `i` on. -/
def mergeFollowing (prev : RangePair) : List RangePair → List RangePair
  | [] => [prev]
  | i :: rest =>
    if prev.second.lt i.first then prev :: i :: rest
    else mergeFollowing { prev with second := stdMax Version.lt prev.second i.second } rest

/-- The loop of `operator|=` before, and the `push_back` after it. -/
def addPair (rhs : RangePair) : List RangePair → Except Failure (List RangePair)
  | [] => .ok [rhs]
  | i :: rest =>
    if i.second.lt rhs.first then do
      let v ← i.second.incrementVersion
      if v.eq rhs.first then return mergeFollowing (merge i rhs) rest
      else
        let rest ← addPair rhs rest
        return i :: rest
    -- the loop is left with `added` still false
    else if i.first.gt rhs.second then .ok (rhs :: i :: rest ++ [rhs])
    else .ok (mergeFollowing (merge i rhs) rest)

/-- `operator|=(const RangePair &)` -/
def orPair (r : VersionRange) (rhs : RangePair) : Except Failure VersionRange :=
  if r.isBranch then .error (.runtimeError "Cannot |= with branch on LHS")
  else if rhs.isBranch then
    if r.isEmpty then .ok ⟨[], rhs.branch⟩
    else .error (.runtimeError "Cannot |= with branch on RHS")
  else do
    let range ← addPair rhs r.range
    return { r with range }

/-- `operator|=(const VersionRange &)`, and `operator|` -/
def or (r rhs : VersionRange) : Except Failure VersionRange :=
  if r.isBranch then .error (.runtimeError "Cannot |= with branch on LHS")
  else if rhs.isBranch then
    if r.isEmpty then .ok ⟨[], rhs.branch⟩
    else .error (.runtimeError "Cannot |= with branch on RHS")
  else rhs.range.foldlM orPair r

/-- The pairs that `operator&=` adds, in its order. -/
def meets (r rhs : VersionRange) : List RangePair :=
  r.range.flatMap fun p => rhs.range.filterMap fun q => p.and q

/-- `operator&=(const VersionRange &)`, and `operator&` -/
def and (r rhs : VersionRange) : Except Failure VersionRange :=
  if r.isBranch then .error (.runtimeError "Cannot &= with branch on LHS")
  else if rhs.isBranch then
    if r.isEmpty then .ok ⟨[], rhs.branch⟩
    else .error (.runtimeError "Cannot &= with branch on RHS")
  else (meets r rhs).foldlM orPair empty

end VersionRange

end Primitives.Version1
