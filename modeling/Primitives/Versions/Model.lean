import Primitives.Basic
import Primitives.Lib.Lex

/-!
# Versions — the code

`Version` and `Extra` of `version.h`. A version is a vector of numbers and an extra part, a
vector of strings and numbers; all comparisons go through `cmp`, which pads the shorter vector of
numbers with zeros and hands both versions, as pairs of references, to one of five functors of
the standard library.

Numbers are `int64_t`; nothing but `++` and `--` computes with them. A level is an `int`, and a
version with `2 ^ 31` components or more is left out, as are `format` and the checks of
`setFirstVersion` and `checkValidity`, which no range uses.
-/

set_option autoImplicit false

namespace Primitives.Versions

open Lib

/-- What an operation can do instead of returning. -/
inductive Failure where
  | fault (f : Fault)
  /-- Signed overflow: undefined behaviour. -/
  | overflow
  /-- `SW_RUNTIME_ERROR`. -/
  | runtimeError (text : Str)
deriving DecidableEq, Repr

/-- `Extra::Value`: the index of a variant is compared first. -/
inductive Value where
  | string (s : Str)
  | number (n : Int)
deriving DecidableEq, Repr

def Value.less : Value → Value → Bool
  | .string s, .string t => lexicographicalCompare (fun c d : Char => c < d) s t
  | .string _, .number _ => true
  | .number _, .string _ => false
  | .number m, .number n => m < n

abbrev Extra := List Value

/-- `Extra::operator<`: an empty extra part is the greatest. -/
def Extra.less (l r : Extra) : Bool :=
  if l.isEmpty && r.isEmpty then false
  else if r.isEmpty then true
  else if l.isEmpty then false
  else lexicographicalCompare Value.less l r

structure Version where
  numbers : List Int
  extra : Extra
deriving DecidableEq, Repr

namespace Version

def getLevel (v : Version) : Nat := v.numbers.length

/-- `numbers.resize(n)`. -/
def resize (v : Version) (n : Nat) : Version :=
  { v with numbers := v.numbers.take n ++ List.replicate (n - v.numbers.length) 0 }

/-- The order of `std::tuple<Numbers, Extra>`. -/
def tieLess (v w : Version) : Bool :=
  if lexicographicalCompare (fun m n : Int => m < n) v.numbers w.numbers then true
  else if lexicographicalCompare (fun m n : Int => m < n) w.numbers v.numbers then false
  else v.extra.less w.extra

def tieEqual (v w : Version) : Bool := v.numbers == w.numbers && v.extra == w.extra

/-- `cmp`. -/
def cmp (v w : Version) (f : Version → Version → Bool) : Bool :=
  if v.getLevel ≠ w.getLevel then
    let sz := max v.numbers.length w.numbers.length
    f (v.resize sz) (w.resize sz)
  else f v w

/-- `operator<`, by `std::less`. -/
def lt (v w : Version) : Bool := cmp v w tieLess

/-- `operator>`, by `std::greater`. -/
def gt (v w : Version) : Bool := cmp v w fun a b => tieLess b a

/-- `operator<=`, by `std::less_equal`. -/
def le (v w : Version) : Bool := cmp v w fun a b => !tieLess b a

/-- `operator>=`, by `std::greater_equal`. -/
def ge (v w : Version) : Bool := cmp v w fun a b => !tieLess a b

/-- `operator==`, by `std::equal_to`. -/
def eq (v w : Version) : Bool := cmp v w tieEqual

def maxNumber : Int := 999999999

def min : Version := ⟨[0], []⟩

def max : Version := ⟨[maxNumber + 1], []⟩

end Version

/-- The two instances of `hash_combine`: the seed, and a number or another hash. -/
structure HashCombine where
  number : Nat → Int → Nat
  hash : Nat → Nat → Nat

def Version.getHash (c : HashCombine) (v : Version) : Nat := v.numbers.foldl c.number 0

/-- `std::hash<Version>`. -/
def Version.hash (c : HashCombine) (v : Version) : Nat := v.getHash c

/-! ## The increment and the decrement -/

/-- The loop of `incrementVersion` and the `++` after it, on the components from the last to the
first. -/
def carry : List Int → Except Failure (List Int)
  | [] => .error (.fault .outOfBounds)
  | n :: ns =>
    if n = Version.maxNumber then
      match carry ns with
      | .error f => .error f
      | .ok ns => .ok (0 :: ns)
    else if n = int64Max then .error .overflow
    else .ok ((n + 1) :: ns)

/-- `incrementVersion`. -/
def Version.incrementVersion (v : Version) : Except Failure Version :=
  if v.eq .max then .ok v
  else
    match carry v.numbers.reverse with
    | .error f => .error f
    | .ok ns => .ok { v with numbers := ns.reverse }

/-- The loop of `decrementVersion` and the `--` after it, from the last component to the first. -/
def borrow : List Int → Except Failure (List Int)
  | [] => .error (.fault .outOfBounds)
  | n :: ns =>
    if n = 0 then
      match borrow ns with
      | .error f => .error f
      | .ok ns => .ok (Version.maxNumber :: ns)
    else if n = -(int64Max + 1) then .error .overflow
    else .ok ((n - 1) :: ns)

/-- `decrementVersion`. -/
def Version.decrementVersion (v : Version) : Except Failure Version :=
  if v.eq .min then .ok v
  else
    match borrow v.numbers.reverse with
    | .error f => .error f
    | .ok ns => .ok { v with numbers := ns.reverse }

/-! ## Printing -/

/-- `std::to_string`. -/
def toStr (n : Int) : Str := (toString n).toList

/-- `Extra::print`. -/
def Extra.print (e : Extra) : Str :=
  ['.'].intercalate (e.map fun
    | .string s => s
    | .number n => toStr n)

/-- `getRealLevel`: the components up to the last one that is not 0. -/
def Version.getRealLevel (v : Version) : Nat := (v.numbers.rdropWhile (· = 0)).length

/-- `printVersion`, with the delimeter `.`. -/
def Version.printVersion (v : Version) (level : Nat) : Str :=
  ['.'].intercalate ((v.numbers.take v.getRealLevel).map toStr ++
    List.replicate (level - v.getRealLevel) (toStr 0))

/-- `toString(level)`. -/
def Version.toString (v : Version) (level : Nat) : Str :=
  v.printVersion level ++ if v.extra.isEmpty then [] else '-' :: v.extra.print

end Primitives.Versions
