import Primitives.Versions.Range
import Primitives.Lib.Fallible

/-!
# The actions of the range grammar — the code

The actions of `range.ll` and `range.yy`: the numbers of a text are read, versions are put together, every
simple range makes its pairs of them, and ranges are united and intersected. Tokens and the choice of the
productions are the business of generated code, so a parse is here the actions that it does, one after the
other.
-/

set_option autoImplicit false

namespace Primitives.Versions

open Lib

/-! ## Versions -/

/-- `number`: one that `std::stoll` reads, or any. -/
inductive Number where
  | number (n : Nat) (h : n ≤ int64Max)
  | any

/-- A number is put into the version, unless it is any. -/
def Number.value? : Number → Option Int
  | number n _ => some n
  | any => none

/-- `version`: a `basic_version`, and an extra part or none. -/
structure VersionText where
  numbers : List Number
  ne_nil : numbers ≠ []
  extra : Extra

/-- `basic_version` -/
def VersionText.basic (t : VersionText) : Version := ⟨t.numbers.filterMap Number.value?, []⟩

/-- The value of `version`. -/
def VersionText.value (t : VersionText) : Except Failure Version :=
  if t.extra = [] then .ok t.basic
  else if t.basic.eq .min then
    .error (.runtimeError "Cannot set extra part on zero version".toList)
  else .ok { t.basic with extra := t.extra }

/-! ## Simple ranges -/

inductive Comparison where
  | lt
  | le
  | gt
  | ge
  | eq
  | ne
deriving DecidableEq, Repr

/-- `range`. A bracket is open if it is round. -/
inductive Range where
  | compare (c : Comparison) (v : VersionText)
  | caret (v : VersionText)
  | tilde (v : VersionText)
  | hyphen (v₁ v₂ : VersionText)
  | interval (leftOpen : Bool) (v₁ v₂ : VersionText) (rightOpen : Bool)
  | intervalFrom (leftOpen : Bool) (v : VersionText) (rightOpen : Bool)
  | intervalTo (leftOpen : Bool) (v : VersionText) (rightOpen : Bool)
  | version (v : VersionText)

/-- The loop of `caret`: the numbers up to the first that is not 0. -/
def caretNumbers (ns : List Int) : List Int :=
  if (⟨ns, []⟩ : Version).gt ⟨[0], []⟩ then
    match ns.findIdx? (· ≠ 0) with
    | some i => ns.take (i + 1)
    | none => ns
  else ns

/-- `tilde` -/
def tildeNumbers (ns : List Int) : List Int := if ns.length > 2 then ns.take 2 else ns

/-- The pair from `v` up to the version after the numbers `ns`. -/
def upTo (v : Version) (ns : List Int) : Except Failure (List RangePair) := do
  -- without the extra part
  let v₂ ← (⟨ns, []⟩ : Version).incrementVersion
  return [← RangePair.make v false v₂ true]

/-- `compare` -/
def comparePairs (c : Comparison) (v : Version) : Except Failure (List RangePair) := do
  match c with
  | .lt => return [← RangePair.make .min true v true]
  | .le => return [← RangePair.make .min true v false]
  | .gt => return [← RangePair.make v true .max true]
  | .ge => return [← RangePair.make v false .max true]
  | .eq => return [← RangePair.make v false v false]
  | .ne =>
    let below ← RangePair.make .min true v true
    let above ← RangePair.make v true .max true
    return [below, above]

/-- The pairs that an action adds to an empty range. -/
def Range.pairs : Range → Except Failure (List RangePair)
  | compare c t => do comparePairs c (← t.value)
  | caret t => do
    let v ← t.value
    upTo v (caretNumbers v.numbers)
  | tilde t => do
    let v ← t.value
    upTo v (tildeNumbers v.numbers)
  | hyphen t₁ t₂ => do
    let v₁ ← t₁.value
    let v₂ ← t₂.value
    let v₂ ← v₂.incrementVersion
    return [← RangePair.make v₁ false v₂ true]
  | interval leftOpen t₁ t₂ rightOpen => do
    let v₁ ← t₁.value
    let v₂ ← t₂.value
    return [← RangePair.make v₁ leftOpen v₂ rightOpen]
  | intervalFrom leftOpen t _ => do return [← RangePair.make (← t.value) leftOpen .max true]
  | intervalTo _ t rightOpen => do return [← RangePair.make .min true (← t.value) rightOpen]
  | version t => do
    let v ← t.value
    if v.numbers = [] then return [← RangePair.make .min true .max true]
    else upTo v v.numbers

/-- The value of `range`. -/
def Range.eval (r : Range) : Except Failure VersionRange := do
  return (← r.pairs).foldl VersionRange.orPair VersionRange.empty

/-! ## Sets of ranges -/

/-- The values that the parser has of `range`, of the `range_set_and` that it is in, and of
`range_set_or`. -/
structure Sets where
  range : Option VersionRange
  andSet : Option VersionRange
  orSet : Option VersionRange

inductive Action where
  /-- `NUMBER`, with `make_long`. -/
  | number (digits : Str)
  /-- `version` -/
  | version (t : VersionText)
  /-- `range` -/
  | range (r : Range)
  /-- `range_set_and` -/
  | andSet
  /-- `range_set_or` -/
  | orSet

def Action.step (s : Sets) : Action → Except Failure Sets
  | number digits =>
    if decimal digits ≤ int64Max then .ok s else .error (.fault .outOfRange)
  | version t => do
    let _ ← t.value
    return s
  | range r => do return { s with range := some (← r.eval) }
  | andSet =>
    match s.range, s.andSet with
    | none, _ => .ok s
    | some vr, none => .ok { s with range := none, andSet := some vr }
    | some vr, some vrAnd => .ok { s with range := none, andSet := some (vrAnd.and vr) }
  | orSet =>
    match s.andSet, s.orSet with
    | none, _ => .ok s
    | some vrAnd, none => .ok { s with andSet := none, orSet := some vrAnd }
    | some vrAnd, some vr => .ok { s with andSet := none, orSet := some (vr.or vrAnd) }

/-- Before a text is read. -/
def Sets.init : Sets := ⟨none, none, none⟩

/-- The actions that are done for a text. -/
def parseActions (as : List Action) : Except Failure Sets := as.foldlM Action.step Sets.init

end Primitives.Versions
