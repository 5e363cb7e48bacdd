import Primitives.Settings.Scanner

/-!
# Native settings — the grammar

The rules of `settings.yy` with their actions. `setting` puts the key of the table that is in force
before its own key, and the settings of an inline table are `setting`s as well. A parser reads from
the tokens in front and returns those that it leaves; `n` bounds how deep the rules go.

An entry is inserted only if there is none with its key. A text that is refused has no settings:
`Settings::load` throws, and the message is left out. So it does where `std::stoll` has thrown.
-/

set_option autoImplicit false

namespace Primitives.Settings.Native

open Lib

/-- What a setting of a file holds. -/
inductive Value where
  | string (s : Bytes)
  | bool (b : Bool)
  | int (i : Int)
  | int64 (i : Int)
  | double (text : Bytes)
deriving DecidableEq, Repr

abbrev Entries := SettingsMap Value

/-- `insert` of a range, and `emplace` one after the other. -/
def insert (m : Entries) (l : List (Path × Setting Value)) : Entries :=
  l.foldl (fun m x => m.emplace x.1 x.2) m

/-! ## Keys and values -/

def partString : List Token → Option (Bytes × List Token)
  | .bareString s :: ts => some (s, ts)
  | .startBasicString :: .basicString s :: ts => some (s, ts)
  | .startLiteralString :: .literalString s :: ts => some (s, ts)
  | _ => none

/-- `key` -/
def key : Nat → List Token → Option (Path × List Token)
  | 0, _ => none
  | n + 1, ts =>
    match partString ts with
    | none => none
    | some (p, .point :: ts) => (key n ts).map fun (ps, ts) => (p :: ps, ts)
    | some (p, ts) => some ([p], ts)

/-- `$$ = v` -/
def assign (v : Value) : Setting Value := { value := some v }

def integer (i : Int) : Value := if i > 2147483647 ∨ i < -2147483648 then .int64 i else .int i

mutual

/-- `value`; what an array holds is dropped. -/
def value : Nat → List Token → Option (Setting Value × List Token)
  | 0, _ => none
  | n + 1, ts =>
    match ts with
    | .startBasicString :: .basicString s :: ts => some (assign (.string s), ts)
    | .startLiteralString :: .literalString s :: ts => some (assign (.string s), ts)
    | .startMultilineBasicString :: .multilineBasicString s :: ts => some (assign (.string s), ts)
    | .startMultilineLiteralString :: .multilineLiteralString s :: ts =>
      some (assign (.string s), ts)
    | .bareRhsString s :: ts => some (assign (.string s), ts)
    | .valueBool b :: ts => some (assign (.bool b), ts)
    | .valueInteger i :: ts => some (assign (integer i), ts)
    | .valueDouble text :: ts => some (assign (.double text), ts)
    | .leftSquareBracket :: .rightSquareBracket :: ts => some ({}, ts)
    | .leftSquareBracket :: ts => (values n ts).map fun ts => ({}, ts)
    | _ => none

/-- `values`, with the bracket behind them. -/
def values : Nat → List Token → Option (List Token)
  | 0, _ => none
  | n + 1, ts =>
    match value n ts with
    | some (_, .rightSquareBracket :: ts) => some ts
    | some (_, .comma :: .rightSquareBracket :: ts) => some ts
    | some (_, .comma :: ts) => values n ts
    | _ => none

end

/-! ## Settings -/

mutual

/-- `setting`, with `driver.table_key` before and after it. -/
def setting : Nat → Path → List Token → Option (Entries × Path × List Token)
  | 0, _, _ => none
  | n + 1, _, .leftSquareBracket :: ts =>
    match key n ts with
    | some (k, .rightSquareBracket :: ts) => some (SortedMap.empty, k, ts)
    | _ => none
  | n + 1, tableKey, ts =>
    match key n ts with
    | some (k, .kvDelimeter :: .leftCurlyBracket :: ts) =>
      match inlineTable n tableKey ts with
      | some (m, tableKey, ts) =>
        some (insert SortedMap.empty (m.entries.map fun x => (tableKey ++ k ++ x.1, x.2)),
          tableKey, ts)
      | none => none
    | some (k, .kvDelimeter :: ts) =>
      match value n ts with
      | some (v, ts) => some (SortedMap.empty.emplace (tableKey ++ k) v, tableKey, ts)
      | none => none
    | _ => none

/-- `inline_settings1`, with the bracket behind it. -/
def inlineTable : Nat → Path → List Token → Option (Entries × Path × List Token)
  | 0, _, _ => none
  | _ + 1, tableKey, .rightCurlyBracket :: ts => some (SortedMap.empty, tableKey, ts)
  | n + 1, tableKey, ts => inlineSettings n tableKey SortedMap.empty ts

/-- `inline_settings` behind those that are in `m`. -/
def inlineSettings : Nat → Path → Entries → List Token → Option (Entries × Path × List Token)
  | 0, _, _, _ => none
  | n + 1, tableKey, m, ts =>
    match setting n tableKey ts with
    | some (m', tableKey, .rightCurlyBracket :: ts) => some (insert m m'.entries, tableKey, ts)
    | some (m', tableKey, .comma :: .rightCurlyBracket :: ts) =>
      some (insert m m'.entries, tableKey, ts)
    | some (m', tableKey, .comma :: ts) => inlineSettings n tableKey (insert m m'.entries) ts
    | _ => none

end

/-- A setting that is no header. -/
theorem setting_key {ts : List Token} (h : ts.head? ≠ some .leftSquareBracket) (n : Nat) (T : Path) :
    setting (n + 1) T ts =
      match key n ts with
      | some (k, .kvDelimeter :: .leftCurlyBracket :: ts) =>
        match inlineTable n T ts with
        | some (m, T, ts) =>
          some (insert SortedMap.empty (m.entries.map fun x => (T ++ k ++ x.1, x.2)), T, ts)
        | none => none
      | some (k, .kvDelimeter :: ts) =>
        match value n ts with
        | some (v, ts) => some (SortedMap.empty.emplace (T ++ k) v, T, ts)
        | none => none
      | _ => none := by
  rw [setting]
  rintro ts' rfl
  exact h rfl

/-- A table that is not empty. -/
theorem inlineTable_cons {ts : List Token} (h : ts.head? ≠ some .rightCurlyBracket) (n : Nat)
    (T : Path) : inlineTable (n + 1) T ts = inlineSettings n T SortedMap.empty ts := by
  rw [inlineTable]
  rintro ts' rfl
  exact h rfl

/-- `settings` behind those that are in `m`. -/
def settings : Nat → Path → Entries → List Token → Option Entries
  | _, _, m, [] => some m
  | 0, _, _, _ :: _ => none
  | n + 1, tableKey, m, t :: ts =>
    match setting (t :: ts).length tableKey (t :: ts) with
    | some (m', tableKey, rest) => settings n tableKey (insert m m'.entries) rest
    | none => none

/-- A text that is read from `INITIAL` on, with a table in force, behind the settings in `m`. -/
def loadFrom (tableKey : Path) (m : Entries) (text : Bytes) : Option Entries :=
  let ts := lexer.tokens ⟨[], []⟩ text
  settings ts.length tableKey m ts

/-- `Settings::load` of a native file. -/
def load (text : Bytes) : Option Entries := loadFrom [] SortedMap.empty text

end Primitives.Settings.Native
