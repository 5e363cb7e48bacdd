import Primitives.Lib.SortedMap
import Mathlib.Data.List.Lex

/-!
# Settings — the code

`settings.cpp`: a setting has a text, its `representation`, or a value of some type; the settings
are a map from paths to settings. A YAML tree is loaded by setting the representation of every
scalar in it, with the path of the keys that lead there.

The `prefix` of the settings themselves is empty throughout. The value of a setting is of an
arbitrary type `V`, and `print` is what its parser prints it as.
-/

set_option autoImplicit false

namespace Primitives.Settings

open Lib

abbrev Bytes := List UInt8

/-- Bytes are compared as numbers, as by `char_traits`. -/
instance linearOrderUInt8 : LinearOrder UInt8 where
  le_refl _ := UInt8.le_refl _
  le_trans _ _ _ := UInt8.le_trans
  le_antisymm _ _ := UInt8.le_antisymm
  le_total := UInt8.le_total
  lt_iff_le_not_ge a b := by
    rw [UInt8.not_le]
    exact ⟨fun h => ⟨UInt8.le_of_lt h, h⟩, And.right⟩
  toDecidableLE := inferInstance

/-- The parts of a `SettingPath`, which are what it is compared by. -/
abbrev Path := List Bytes

structure Setting (V : Type) where
  representation : Bytes := []
  value : Option V := none
  saveable : Bool := true
deriving DecidableEq, Repr

abbrev SettingsMap (V : Type) := SortedMap Path (Setting V)

inductive Failure where
  /-- A setting without a value is printed, and has no parser. -/
  | noParser
  /-- `YAML::BadSubscript`. -/
  | badSubscript
  /-- "sequences are not supported" -/
  | sequence
deriving DecidableEq, Repr

section

variable {V : Type}

/-- `Setting::toString`. -/
def Setting.toString (print : V → Bytes) (s : Setting V) : Except Failure Bytes :=
  if s.representation ≠ [] then .ok s.representation
  else
    match s.value with
    | some v => .ok (print v)
    | none => .error .noParser

end

/-! ## YAML -/

mutual

/-- What a YAML node shows. A map is shown as the list of its entries. -/
inductive Yaml where
  | null
  | scalar (s : Bytes)
  | sequence
  | map (es : Entries)

inductive Entries where
  | nil
  | cons (key : Bytes) (value : Yaml) (rest : Entries)

end

section

variable {V : Type}

/-- `operator[](k).representation = s`. -/
def assign (m : SettingsMap V) (k : Path) (s : Bytes) : SettingsMap V :=
  m.update k {} fun x => { x with representation := s }

mutual

/-- The body of the loop of `load`, on the value of an entry. -/
def loadValue : Yaml → Path → SettingsMap V → Except Failure (SettingsMap V)
  | .scalar s, k, m => .ok (assign m k s)
  | .map es, k, m => loadEntries es k m
  | .null, _, _ => .error .sequence
  | .sequence, _, _ => .error .sequence

/-- The loop of `load` over the entries of a map. -/
def loadEntries : Entries → Path → SettingsMap V → Except Failure (SettingsMap V)
  | .nil, _, m => .ok m
  | .cons key value rest, pre, m => do
    let m ← loadValue value (pre ++ [key]) m
    loadEntries rest pre m

end

/-- `Settings::load(root, prefix)`: what is not a map is not loaded. -/
def load (root : Yaml) (pre : Path) (m : SettingsMap V) : Except Failure (SettingsMap V) :=
  match root with
  | .map es => loadEntries es pre m
  | _ => .ok m

end

end Primitives.Settings
