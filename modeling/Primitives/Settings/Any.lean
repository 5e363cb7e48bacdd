import Primitives.Integer
import Primitives.Makefile.Model

/-!
# Settings of a type — the code

`Setting::as` of `settings.h` gives the value of a setting at a type. A setting that has a text, its
representation, is converted before: the parser of the type makes an `any` of the text, which holds a
value of some type, and `any_cast` gives it at this very type or not at all.

A vector is a list of texts that `split_string` takes apart. The parsers of `float` and `double` are
left out. A path is its text in the POSIX format.
-/

set_option autoImplicit false

namespace Primitives.Settings.Typed

open Makefile (splitString)

/-! ## Types and values -/

/-- The types with 64 bits; `long` is one where `int64_t` is. -/
inductive Wide where
  | long
  | longLong
deriving DecidableEq, Repr

/-- What the platform decides: the sign of `char`, and which type `int64_t` is. -/
structure Platform where
  charSigned : Bool
  int64 : Wide
deriving DecidableEq, Repr

/-- The types of the language that an `any` here can hold. -/
inductive CType where
  | char
  | unsignedChar
  | short
  | unsignedShort
  | int
  | unsignedInt
  | wide (w : Wide)
  | unsignedWide (w : Wide)
  | bool
  | string
  | path
  | vector (t : CType)
deriving DecidableEq, Repr

abbrev Between (lo hi : Int) : Type := { i : Int // lo ≤ i ∧ i ≤ hi }

@[reducible] def CType.Val (p : Platform) : CType → Type
  | .char => if p.charSigned then Between (-128) 127 else Between 0 255
  | .unsignedChar => Between 0 255
  | .short => Between (-32768) 32767
  | .unsignedShort => Between 0 65535
  | .int => Between (-2147483648) 2147483647
  | .unsignedInt => Between 0 4294967295
  | .wide _ => Between (-9223372036854775808) 9223372036854775807
  | .unsignedWide _ => Between 0 18446744073709551615
  | .bool => Bool
  | .string => Str
  | .path => Str
  | .vector t => List (t.Val p)

/-- `std::any` -/
structure Any (p : Platform) where
  type : CType
  val : type.Val p

/-- `std::any_cast` -/
def Any.cast {p : Platform} (t : CType) (a : Any p) : Option (t.Val p) :=
  if h : a.type = t then some (h ▸ a.val) else none

/-- What a vector has a parser for. -/
inductive Elem where
  | int32
  | int64
  | uint64
  | string
deriving DecidableEq, Repr

/-- The types with a parser. -/
inductive Ty where
  | char
  | unsignedChar
  | short
  | unsignedShort
  | int
  | unsignedInt
  | int64
  | uint64
  | bool
  | string
  | path
  | vector (u : Elem)
deriving DecidableEq, Repr

@[reducible] def Elem.ctype (p : Platform) : Elem → CType
  | .int32 => .int
  | .int64 => .wide p.int64
  | .uint64 => .unsignedWide p.int64
  | .string => .string

@[reducible] def Ty.ctype (p : Platform) : Ty → CType
  | .char => .char
  | .unsignedChar => .unsignedChar
  | .short => .short
  | .unsignedShort => .unsignedShort
  | .int => .int
  | .unsignedInt => .unsignedInt
  | .int64 => .wide p.int64
  | .uint64 => .unsignedWide p.int64
  | .bool => .bool
  | .string => .string
  | .path => .path
  | .vector u => .vector (u.ctype p)

/-! ## Parsers -/

inductive Exception where
  | invalidArgument
  | outOfRange
  | runtimeError (what : Str)
deriving DecidableEq, Repr

/-- `std::stoi` and `std::stoll`, with the bounds of their types. -/
def sto (lo hi : Int) (s : Str) : Except Exception (Between lo hi) :=
  match parseInt s with
  | none => .error .invalidArgument
  | some i => if h : lo ≤ i ∧ i ≤ hi then .ok ⟨i, h⟩ else .error .outOfRange

def stoi (s : Str) : Except Exception (Between (-2147483648) 2147483647) := sto _ _ s

def stoll (s : Str) : Except Exception (Between (-9223372036854775808) 9223372036854775807) :=
  sto _ _ s

/-- `std::stoull`: a number with a minus is taken modulo 2^64. -/
def stoull (s : Str) : Except Exception (Between 0 18446744073709551615) :=
  match parseInt s with
  | none => .error .invalidArgument
  | some i =>
    if i.natAbs ≤ 18446744073709551615 then .ok ⟨i % 18446744073709551616, by omega⟩
    else .error .outOfRange

/-- `detail::parser` -/
structure Parser (p : Platform) (α : Type) where
  toString : α → Str
  fromString : Str → Except Exception (Any p)

variable {p : Platform}

/-- `PARSER_SPECIALIZATION`: the `any` holds what `f` returns, whatever the type of the parser is. -/
def parserSpecialization {α : Type} (toInt : α → Int) (t : CType)
    (f : Str → Except Exception (t.Val p)) : Parser p α where
  toString v := intStr (toInt v)
  fromString s := do
    let v ← f s
    return ⟨t, v⟩

def charToInt (v : CType.char.Val p) : Int :=
  match p, v with
  | ⟨true, _⟩, v => v.1
  | ⟨false, _⟩, v => v.1

def parserChar : Parser p (CType.char.Val p) := parserSpecialization charToInt .int stoi

def parserUnsignedChar : Parser p (CType.unsignedChar.Val p) :=
  parserSpecialization Subtype.val .int stoi

def parserShort : Parser p (CType.short.Val p) := parserSpecialization Subtype.val .int stoi

def parserUnsignedShort : Parser p (CType.unsignedShort.Val p) :=
  parserSpecialization Subtype.val .int stoi

def parserInt : Parser p (CType.int.Val p) := parserSpecialization Subtype.val .int stoi

def parserUnsignedInt : Parser p (CType.unsignedInt.Val p) :=
  parserSpecialization Subtype.val .int stoi

def parserInt64 : Parser p ((CType.wide p.int64).Val p) :=
  parserSpecialization Subtype.val (.wide .longLong) stoll

def parserUint64 : Parser p ((CType.unsignedWide p.int64).Val p) :=
  parserSpecialization Subtype.val (.unsignedWide .longLong) stoull

def parserBool : Parser p Bool where
  toString b := intStr (if b then 1 else 0)
  fromString s := .ok ⟨.bool, decide (s = ['t', 'r', 'u', 'e'] ∨ s = ['1'])⟩

def parserString : Parser p Str where
  toString v := v
  fromString s := .ok ⟨.string, s⟩

/-- The text is read as a C string. -/
def parserPath : Parser p Str where
  toString v := v
  fromString s := .ok ⟨.path, s.takeWhile (· ≠ '\x00')⟩

def Elem.toString : (u : Elem) → (u.ctype p).Val p → Str
  | .int32, v => intStr v.1
  | .int64, v => intStr v.1
  | .uint64, v => intStr v.1
  | .string, v => v

/-- What is pushed back: a `long long` becomes an `int64_t`. -/
def Elem.fromString : (u : Elem) → Str → Except Exception ((u.ctype p).Val p)
  | .int32, s => stoi s
  | .int64, s => stoll s
  | .uint64, s => stoull s
  | .string, s => .ok s

def vectorDelims : List Char := [',', ' ']

def parserVector (u : Elem) : Parser p (List ((u.ctype p).Val p)) where
  toString vs := vs.flatMap fun v => u.toString v ++ [',']
  fromString s := do
    let vs ← (splitString s vectorDelims).mapM u.fromString
    return ⟨.vector (u.ctype p), vs⟩

def parser : (t : Ty) → Parser p ((t.ctype p).Val p)
  | .char => parserChar
  | .unsignedChar => parserUnsignedChar
  | .short => parserShort
  | .unsignedShort => parserUnsignedShort
  | .int => parserInt
  | .unsignedInt => parserUnsignedInt
  | .int64 => parserInt64
  | .uint64 => parserUint64
  | .bool => parserBool
  | .string => parserString
  | .path => parserPath
  | .vector u => parserVector u

/-! ## Settings -/

structure Setting (p : Platform) where
  representation : Str := []
  parser : Option Ty := none
  value : Option (Any p) := none
  excludedValues : List Str := []

namespace Setting

def prohibited (representation : Str) : Str :=
  "Setting value is prohibited: '".toList ++ representation ++ ['\'']

/-- With the setting as it is afterwards, also when an exception is thrown. -/
def convert (s : Setting p) (t : Ty) : Except Exception Unit × Setting p :=
  if s.representation = [] then (.ok (), s)
  else if s.excludedValues.contains s.representation then
    (.error (.runtimeError (prohibited s.representation)), s)
  else
    let s := { s with parser := some t }
    match (Typed.parser t).fromString s.representation with
    | .error e => (.error e, s)
    | .ok v => (.ok (), { s with value := some v, representation := [] })

def as (s : Setting p) (t : Ty) : Except Exception ((t.ctype p).Val p) × Setting p :=
  match s.convert t with
  | (.error e, s) => (.error e, s)
  | (.ok _, s) =>
    match s.value.bind (Any.cast (t.ctype p)) with
    | some v => (.ok v, s)
    | none => (.error (.runtimeError "Bad any_cast".toList), s)

end Setting

end Primitives.Settings.Typed
