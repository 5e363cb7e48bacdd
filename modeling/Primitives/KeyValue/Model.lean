import Mathlib.Logic.Function.Basic
import Primitives.Integer
import Primitives.Lib.Exec

/-!
# Key/value store — the columns of a table

The SQLite database keeps a value for each key in a column of one table with one row. `getValueByKey`
adds the column of its key, and takes it that the key has no value if that succeeds. The names of columns
do not tell upper from lower case.

Keys are valid and no keywords, so a statement fails where the source lets it fail: a column that is
there is not added again. What `std::to_string` and `std::stod` make of a `double` is a parameter.
-/

set_option autoImplicit false

namespace Primitives.KeyValue

open Lib Lib.Exec

/-! ## Values -/

/-- The types that `getValue` reads. -/
inductive ValueType where
  | string
  | int
  | longLong
  | double
deriving DecidableEq, Repr

inductive Value (D : Type) where
  | string (s : Str)
  | int (i : Int32)
  | longLong (i : Int64)
  | double (d : D)
deriving DecidableEq, Repr

def Value.type {D : Type} : Value D → ValueType
  | .string _ => .string
  | .int _ => .int
  | .longLong _ => .longLong
  | .double _ => .double

inductive Failure where
  /-- `bad key`, or `more than one row is present`. -/
  | runtimeError
  | invalidArgument
  | outOfRange
deriving DecidableEq, Repr

/-- `std::to_string` of a `double`, and `std::stod`. -/
structure Doubles (D : Type) where
  toString : D → Str
  stod : Str → Except Failure D

/-- `std::stoi`. -/
def stoi (s : Str) : Except Failure Int32 :=
  match parseInt s with
  | none => .error .invalidArgument
  | some v => if -2147483648 ≤ v ∧ v ≤ 2147483647 then .ok (Int32.ofInt v) else .error .outOfRange

/-- `std::stoll`. -/
def stoll (s : Str) : Except Failure Int64 :=
  match parseInt s with
  | none => .error .invalidArgument
  | some v =>
    if -9223372036854775808 ≤ v ∧ v ≤ 9223372036854775807 then .ok (Int64.ofInt v)
    else .error .outOfRange

section

variable {D : Type} (doubles : Doubles D)

/-- The text that is stored. -/
def text : Value D → Str
  | .string s => s
  | .int i => intStr i.toInt
  | .longLong i => intStr i.toInt
  | .double d => doubles.toString d

/-- A text as a value of the type. -/
def readAs : ValueType → Str → Except Failure (Value D)
  | .string, s => .ok (.string s)
  | .int, s => return .int (← stoi s)
  | .longLong, s => return .longLong (← stoll s)
  | .double, s => return .double (← doubles.stod s)

end

/-! ## The service table -/

/-- The name that a column goes by. -/
def column (key : Str) : Str := key.map Char.toLower

def versionColumn : Str := ['v', 'e', 'r', 's', 'i', 'o', 'n']

/-- The columns, and the text of each row in each of them. -/
structure Table where
  columns : List Str
  rows : List (Str → Str)

/-- The service table, if it has been created. -/
abbrev Database := Option Table

abbrev Session (α : Type) := Exec Failure Database α

/-- The row that is inserted: the other columns get their defaults. -/
def mainRow : Str → Str := Function.update (fun _ => []) versionColumn ['-', '1']

/-- `createServiceTable`. -/
def createServiceTable : Session Table := do
  let t := (← gets id).getD ⟨[versionColumn], []⟩
  if t.rows.length = 0 then
    put (some ⟨t.columns, [mainRow]⟩)
    return ⟨t.columns, [mainRow]⟩
  else if t.rows.length > 1 then throw .runtimeError
  else
    put (some t)
    return t

/-- `createServiceTableColumn` succeeds where the column is new. -/
def createServiceTableColumn (t : Table) (key : Str) : Session (Bool × Table) := do
  if column key ∈ t.columns then return (false, t)
  let t := ⟨t.columns ++ [column key], t.rows.map (Function.update · (column key) [])⟩
  put (some t)
  return (true, t)

def getValueByKey (key : Str) : Session (Option Str) := do
  let t ← createServiceTable
  let r ← createServiceTableColumn t key
  if r.1 then return none
  match r.2.rows with
  | [row] => return some (row (column key))
  | _ => return none

/-- `value.c_str()` is bound: the text up to a NUL. -/
def setValueByKey (key value : Str) : Session Unit := do
  let t ← createServiceTable
  let r ← createServiceTableColumn t key
  let bound := value.takeWhile (· ≠ '\x00')
  put (some { r.2 with rows := r.2.rows.map (Function.update · (column key) bound) })

/-! ## `LiteDatabase` -/

def isKeyStart (c : Char) : Bool := c = '_' || 'a' ≤ c && c ≤ 'z' || 'A' ≤ c && c ≤ 'Z'

/-- `[_a-zA-Z][_a-zA-Z0-9]*` -/
def IsKey : Str → Prop
  | [] => False
  | c :: s => isKeyStart c = true ∧ s.all fun c => isKeyStart c || isDigit c

instance IsKey.decidable : (s : Str) → Decidable (IsKey s)
  | [] => instDecidableFalse
  | c :: s => inferInstanceAs (Decidable (isKeyStart c = true ∧ (s.all _) = true))

def checkKey (key : Str) : Session Unit := do
  if IsKey key then return () else throw .runtimeError

section

variable {D : Type} (doubles : Doubles D)

/-- `setValue`. -/
def setValue (key : Str) (v : Value D) : Session Unit := do
  checkKey key
  setValueByKey key (text doubles v)

/-- `getValue` without a default. -/
def getValue (type : ValueType) (key : Str) : Session (Option (Value D)) := do
  checkKey key
  match ← getValueByKey key with
  | none => return none
  | some v => return some (← ofExcept (readAs doubles type v))

/-- `getValue` with a default, which is stored where there is no value. -/
def getValueOr (key : Str) (default : Value D) : Session (Value D) := do
  checkKey key
  match ← getValueByKey key with
  | none =>
    setValue doubles key default
    return default
  | some v => ofExcept (readAs doubles default.type v)

end

end Primitives.KeyValue
