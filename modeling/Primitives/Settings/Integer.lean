import Primitives.Basic
import Primitives.Lib.Regex

/-!
# Integers in settings — the code

The eight rules of `settings.ll` that match integers, in their order, and their actions. Two of them
give the whole text to `std::stoll`; the other six go through `str2int`, which cuts the sign, the
prefix and the delimiters off, and puts the sign back.
-/

set_option autoImplicit false

namespace Primitives.Settings

open Lib

/-- What `std::stoll` and `substr` throw. -/
inductive Exception where
  | invalidArgument
  | outOfRange
deriving DecidableEq, Repr

inductive Base where
  | bin
  | oct
  | dec
  | hex
deriving DecidableEq, Repr

/-- The digits of the base, as `isxdigit` and the classes of the lexer have them. -/
def Base.digits : Base → List Char
  | .bin => ['0', '1']
  | .oct => ['0', '1', '2', '3', '4', '5', '6', '7']
  | .dec => ['0', '1', '2', '3', '4', '5', '6', '7', '8', '9']
  | .hex => ['0', '1', '2', '3', '4', '5', '6', '7', '8', '9', 'a', 'b', 'c', 'd', 'e', 'f',
      'A', 'B', 'C', 'D', 'E', 'F']

def Base.radix : Base → Nat
  | .bin => 2
  | .oct => 8
  | .dec => 10
  | .hex => 16

def signs : List Char := ['+', '-']

def delims : List Char := ['_', '\'']

/-- `[[:blank:]]` -/
def blanks : List Char := [' ', '\t']

/-! ## The rules -/

/-- A rule is the one for a base with or without delimiters. -/
structure Rule where
  base : Base
  hasDelims : Bool
deriving DecidableEq, Repr

/-- The rules, in the order of the file. -/
def rules : List Rule :=
  [⟨.bin, false⟩, ⟨.bin, true⟩, ⟨.oct, false⟩, ⟨.oct, true⟩, ⟨.dec, false⟩, ⟨.dec, true⟩,
    ⟨.hex, false⟩, ⟨.hex, true⟩]

/-- `0b`, `0o?`, nothing, or `0[xX]`. -/
def Base.pre : Base → RegularExpression Char
  | .bin => word ['0', 'b']
  | .oct => word ['0'] * opt (word ['o'])
  | .dec => word []
  | .hex => word ['0'] * oneOf ['x', 'X']

/-- `{dec}+`, or `{dec}({delim}?{dec})*`. -/
def Rule.number (r : Rule) : RegularExpression Char :=
  if r.hasDelims then
    oneOf r.base.digits * .star (opt (oneOf delims) * oneOf r.base.digits)
  else many1 (oneOf r.base.digits)

/-- The whole rule: a sign, perhaps, the prefix, the number, and blanks. -/
def Rule.regex (r : Rule) : RegularExpression Char :=
  opt (oneOf signs) * (r.base.pre * (r.number * .star (oneOf blanks)))

/-- The rule whose action is taken for a token. -/
def tokenRule (s : Str) : Option Rule := firstMatch Rule.regex rules s

/-! ## The actions -/

/-- `isspace`. -/
def isSpace (c : Char) : Bool := c ∈ [' ', '\t', '\n', '\u000b', '\u000c', '\x0d']

/-- The value of a digit, in any base. -/
def digitValue (c : Char) : Nat :=
  if c.isDigit then c.toNat - '0'.toNat
  else if 'a' ≤ c then c.toNat - 'a'.toNat + 10
  else c.toNat - 'A'.toNat + 10

def number (radix : Nat) (ds : Str) : Nat := ds.foldl (fun n d => n * radix + digitValue d) 0

/-- `INT64_MIN`. -/
def int64Min : Int := -9223372036854775808

/-- Whether the number is an `int64_t`. -/
def FitsInt64 (v : Int) : Prop := int64Min ≤ v ∧ v ≤ int64Max

instance (v : Int) : Decidable (FitsInt64 v) := by
  unfold FitsInt64
  infer_instance

/-- The prefix that `std::stoll` takes at base 16, if a digit follows. -/
def dropHexPrefix : Str → Str
  | '0' :: x :: d :: s => if x ∈ ['x', 'X'] ∧ d ∈ Base.hex.digits then d :: s else '0' :: x :: d :: s
  | s => s

/-- `std::stoll(s, 0, base)`. -/
def stoll (s : Str) (base : Base) : Except Exception Int :=
  let s := s.dropWhile isSpace
  let negative := s.head? = some '-'
  let s := if s.head? ∈ signs.map some then s.tail else s
  let s := if base = .hex then dropHexPrefix s else s
  let ds := s.takeWhile (· ∈ base.digits)
  if ds = [] then .error .invalidArgument
  else
    let v : Int := if negative then -(number base.radix ds) else number base.radix ds
    if FitsInt64 v then .ok v else .error .outOfRange

/-- `s.substr(pos)`. -/
def substr (s : Str) (pos : Nat) : Except Exception Str :=
  if pos ≤ s.length then .ok (s.drop pos) else .error .outOfRange

/-- `remove_delims` keeps the characters that can be digits. -/
def removeDelims (s : Str) : Str := s.filter (· ∈ Base.hex.digits)

/-- `has_sign`. -/
def hasSign (s : Str) : Nat := if s.head? ∈ signs.map some then 1 else 0

/-- `has_o`. -/
def hasO (s : Str) : Nat :=
  if hasSign s = 1 then if s[2]? = some 'o' then 1 else 0
  else if s[1]? = some '0' then 1 else 0

/-- The `switch` of `str2int`. -/
def str2intSwitch (s : Str) (base : Base) (hasDelims : Bool) : Except Exception Int :=
  match base with
  | .dec => stoll (removeDelims s) .dec
  | .hex => do
    let t ← substr s (2 + hasSign s)
    stoll (removeDelims t) .hex
  | .oct => do
    let t ← substr s (1 + hasSign s + hasO s)
    stoll (if hasDelims then removeDelims t else t) .oct
  | .bin => do
    let t ← substr s (2 + hasSign s)
    stoll (if hasDelims then removeDelims t else t) .bin

def str2int (s : Str) (base : Base) (hasDelims : Bool) : Except Exception Int := do
  let v ← str2intSwitch s base hasDelims
  return if s.head? = some '-' then -v else v

/-- The value that the rule's action gives to the token. -/
def Rule.action (r : Rule) (s : Str) : Except Exception Int :=
  match r with
  | ⟨.dec, false⟩ => stoll s .dec
  | ⟨.hex, false⟩ => stoll s .hex
  | ⟨base, hasDelims⟩ => str2int s base hasDelims

end Primitives.Settings
