import Primitives.Version1.Model

/-!
# The actions of the range grammar — the code

The actions of `range.yy`: what each kind of simple range makes of its versions, and the unions and
intersections of ranges. Tokens and the choice of the productions are the business of generated code,
so a parse is here the actions that it does, one after the other.

A number that a version leaves open is negative until `prepare_version` sets it: `ANY` for `x`, `X`
and `*`, `UNSET` for numbers that are not there.
-/

set_option autoImplicit false

namespace Primitives.Version1

open Lib
open Versions (Extra)

/-! ## Versions -/

/-- The value of `ANY`. -/
def anyNumber : Int := -2

/-- The value of `UNSET`. -/
def unset : Int := -1

/-- `number`: one that `std::stoll` reads, or any. -/
inductive Number where
  | number (n : Nat) (h : n ≤ int64Max)
  | any

def Number.value : Number → Int
  | number n _ => n
  | any => anyNumber

/-- `version` -/
inductive VersionText where
  | version (numbers : List Number) (ne_nil : numbers ≠ []) (extra : Extra)
  | branch (name : Str) (ne_nil : name ≠ [])

/-- Its value. A branch is put into a default version. -/
def VersionText.value : VersionText → Version
  | version numbers _ extra =>
    ⟨numbers.map Number.value ++ List.replicate (Version.minimumLevel - numbers.length) unset, extra,
      []⟩
  | branch name _ => { Version.min Version.minimumLevel with branch := name }

/-- `prepare_version` -/
def prepareVersion (ver : Version) (val : Int) (level : Nat) : Version :=
  { ver with
    numbers := (ver.numbers.map fun n => if n < 0 then val else n) ++
      List.replicate (level - ver.getLevel) val }

/-- `prepare_version(ver)` -/
def prepared (ver : Version) : Version := prepareVersion ver 0 Version.minimumLevel

/-- The first version of a pair is not below the least one. Its extra part is kept. -/
def atLeastMin (level : Nat) (v : Version) : Version :=
  if v.lt (Version.min level) then { Version.min level with extra := v.extra } else v

/-- The second version of a pair is not above the greatest one. -/
def atMostMax (level : Nat) (v : Version) : Version :=
  if v.gt (Version.max level) then Version.max level else v

/-- `prepare_pair` -/
def preparePair (p : RangePair) : RangePair :=
  if p.isBranch then p
  else
    let p := if p.second.lt p.first then ⟨p.second, p.first⟩ else p
    let level := max p.first.getLevel p.second.getLevel
    ⟨atLeastMin level (prepareVersion p.first 0 level),
      atMostMax level (prepareVersion p.second Version.maxNumber level)⟩

/-! ## Vectors -/

/-- `std::fill(begin + i, begin + j, val)` -/
def fill (ns : List Int) (i j : Nat) (val : Int) : Except Failure (List Int) :=
  if i ≤ j ∧ j ≤ ns.length then .ok (ns.take i ++ List.replicate (j - i) val ++ ns.drop j)
  else .error .outOfBounds

/-- `numbers[i]++` -/
def incAt (ns : List Int) (i : Nat) : Except Failure (List Int) :=
  match ns[i]? with
  | none => .error .outOfBounds
  | some n => if n = int64Max then .error .overflow else .ok (ns.set i (n + 1))

/-- `numbers[0]` -/
def frontNumber (ns : List Int) : Except Failure Int :=
  match ns with
  | [] => .error .outOfBounds
  | n :: _ => .ok n

/-- The loops of `caret`: the first number that is positive, and else the last one that is 0. -/
def caretNumbers (ns : List Int) : Except Failure (List Int) :=
  match ns.findIdx? (0 < ·) with
  | some i => do
    let ns ← incAt ns i
    fill ns (i + 1) ns.length 0
  | none =>
    match ns.reverse.findIdx? (· = 0) with
    | some j => do
      let i := ns.length - 1 - j
      let ns ← incAt ns i
      -- `i.base()` stands behind the number, and one is added to it
      fill ns (i + 2) ns.length 0
    | none => .ok ns

/-- `tilde`: the second number, if there are more than two and it is given, and else the first. -/
def tildeNumbers (ns : List Int) : Except Failure (List Int) := do
  let p := if 2 < ns.length ∧ ∃ n ∈ ns[1]?, 0 ≤ n then 1 else 0
  let ns ← incAt ns p
  fill ns (p + 1) ns.length 0

/-! ## Simple ranges -/

inductive Comparison where
  | lt
  | le
  | gt
  | ge
  | eq
  | ne
deriving DecidableEq, Repr

/-- `range`. A bracket is open if it is round. -/
inductive Range where
  | compare (c : Comparison) (v : VersionText)
  | caret (v : VersionText)
  | tilde (v : VersionText)
  | hyphen (v₁ v₂ : VersionText)
  | interval (leftOpen : Bool) (v₁ v₂ : VersionText) (rightOpen : Bool)
  | intervalFrom (leftOpen : Bool) (v : VersionText) (rightOpen : Bool)
  | intervalTo (leftOpen : Bool) (v : VersionText) (rightOpen : Bool)
  | version (v : VersionText)

/-- `caret` and `tilde`, which differ in what they make of the numbers. -/
def upTo (v : Version) (upper : List Int → Except Failure (List Int)) :
    Except Failure (List RangePair) := do
  let n ← frontNumber v.numbers
  if n < 0 then throw .abort
  let ns ← upper v.numbers
  let second ← (prepared ⟨ns, [], []⟩).decrementVersion
  return [preparePair ⟨v, second⟩]

/-- `compare` -/
def comparePairs (c : Comparison) (v : Version) : Except Failure (List RangePair) :=
  let least := Version.min v.getLevel
  let greatest := Version.max v.getLevel
  match c with
  | .lt => do
    let second ← (prepared v).decrementVersion
    return [preparePair ⟨least, second⟩]
  | .le => .ok [preparePair ⟨least, prepared v⟩]
  | .gt => do
    let first ← (prepared v).incrementVersion
    return [preparePair ⟨first, greatest⟩]
  | .ge => .ok [preparePair ⟨prepared v, greatest⟩]
  | .eq => .ok [preparePair ⟨prepared v, prepared v⟩]
  | .ne => do
    let second ← (prepared v).decrementVersion
    let first ← (prepared v).incrementVersion
    return [preparePair ⟨least, second⟩, preparePair ⟨first, greatest⟩]

/-- `++` or `--` for a round bracket. -/
def ifOpen (isOpen : Bool) (change : Version → Except Failure Version) (v : Version) :
    Except Failure Version := if isOpen then change v else .ok v

/-- `interval` with two versions. -/
def intervalPairs (leftOpen : Bool) (v₁ v₂ : Version) (rightOpen : Bool) :
    Except Failure (List RangePair) := do
  let level := max v₁.getLevel v₂.getLevel
  let rp := preparePair ⟨v₁, prepareVersion v₂ 0 level⟩
  let first ← ifOpen leftOpen Version.incrementVersion rp.first
  let second ← ifOpen rightOpen Version.decrementVersion rp.second
  return [preparePair ⟨first, second⟩]

/-- The pairs that an action adds to an empty range. The first of two is added before the second one
is made, but to add a pair to an empty range does not fail. -/
def Range.pairs : Range → Except Failure (List RangePair)
  | compare c v => comparePairs c v.value
  | caret v => upTo v.value caretNumbers
  | tilde v => upTo v.value tildeNumbers
  | hyphen v₁ v₂ => .ok [preparePair ⟨v₁.value, v₂.value⟩]
  | interval leftOpen v₁ v₂ rightOpen => intervalPairs leftOpen v₁.value v₂.value rightOpen
  | intervalFrom leftOpen v _ => do
    let first ← ifOpen leftOpen Version.incrementVersion (prepared v.value)
    return [preparePair ⟨first, Version.max v.value.getLevel⟩]
  | intervalTo _ v rightOpen => do
    let second ← ifOpen rightOpen Version.decrementVersion (prepared v.value)
    return [preparePair ⟨Version.min v.value.getLevel, second⟩]
  | version v => .ok [preparePair ⟨v.value, ⟨v.value.numbers, [], []⟩⟩]

/-- The value of `range`. -/
def Range.eval (r : Range) : Except Failure VersionRange := do
  let ps ← r.pairs
  ps.foldlM VersionRange.orPair VersionRange.empty

/-! ## Sets of ranges -/

/-- The values that the parser has of `range`, of the `range_set_and` that it is in, and of
`range_set_or`. -/
structure Sets where
  range : Option VersionRange
  andSet : Option VersionRange
  orSet : Option VersionRange
deriving DecidableEq, Repr

inductive Action where
  /-- `range` -/
  | range (r : Range)
  /-- `range_set_and` -/
  | andSet
  /-- `range_set_or` -/
  | orSet

def Action.step (s : Sets) : Action → Except Failure Sets
  | range r => do
    let vr ← r.eval
    return { s with range := some vr }
  | andSet =>
    match s.range, s.andSet with
    | none, _ => .ok s
    | some vr, none => do
      let vrAnd ← VersionRange.empty.or vr
      return { s with range := none, andSet := some vrAnd }
    | some vr, some vrAnd => do
      let vrAnd ← vrAnd.and vr
      return { s with range := none, andSet := some vrAnd }
  | orSet =>
    match s.andSet, s.orSet with
    | none, _ => .ok s
    | some vrAnd, none => .ok { s with andSet := none, orSet := some vrAnd }
    | some vrAnd, some vr => do
      let vr ← vr.or vrAnd
      return { s with andSet := none, orSet := some vr }

/-- Before a text is read. -/
def Sets.init : Sets := ⟨none, none, none⟩

/-- The actions that are done for a text. -/
def parse (as : List Action) : Except Failure Sets := as.foldlM Action.step Sets.init

end Primitives.Version1
