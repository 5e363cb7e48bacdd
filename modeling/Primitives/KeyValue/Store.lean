import Primitives.KeyValue.Columns
import Primitives.Lib.Run

/-!
# Key/value store — reading what was set

A key that is read once and never set has a column then, and an empty value when it is read again. In a
run where that does not happen, every read finds the value that was set last (`meets_of_run`).
-/

set_option autoImplicit false

namespace Primitives.KeyValue

open Lib Lib.Exec

variable {D : Type} {doubles : Doubles D}

/-! ## Calls -/

inductive Call (D : Type) where
  | setValue (key : Str) (v : Value D)
  | getValue (type : ValueType) (key : Str)
  | getValueOr (key : Str) (default : Value D)

namespace Call

def key : Call D → Str
  | setValue key _ => key
  | getValue _ key => key
  | getValueOr key _ => key

def reads : Call D → Bool
  | setValue _ _ => false
  | getValue _ _ => true
  | getValueOr _ _ => true

/-- What a call may store. -/
def value : Call D → Option (Value D)
  | setValue _ v => some v
  | getValue _ _ => none
  | getValueOr _ default => some default

/-- A call on a database, with the value that it returns. -/
def perform (doubles : Doubles D) : Call D → Session (Option (Value D))
  | setValue key v => do
    KeyValue.setValue doubles key v
    return none
  | getValue type key => KeyValue.getValue doubles type key
  | getValueOr key default => do
    return some (← KeyValue.getValueOr doubles key default)

end Call

/-- A database between two calls; the values that were set, where a default that was passed for a key
without a value counts as set; and the keys that were read without a value since. -/
structure State (D : Type) where
  db : Database
  values : Str → Option (Value D)
  missed : Str → Bool

def State.new : State D := ⟨none, fun _ => none, fun _ => false⟩

def State.step (doubles : Doubles D) (s : State D) (c : Call D) : Option (State D) :=
  let db := (c.perform doubles s.db).2
  match c with
  | .setValue key v => some { s with db, values := Function.update s.values key (some v) }
  | .getValue _ key =>
    some { s with db, missed := Function.update s.missed key ((s.values key).isNone || s.missed key) }
  | .getValueOr key default =>
    some { s with db, values := Function.update s.values key (some ((s.values key).getD default)) }

/-- **What a call is to return**: the value that was set last, if it has the type that is asked for, and
none or the default where no value was set. -/
def Meets (doubles : Doubles D) (s : State D) (c : Call D) : Prop :=
  let result := (c.perform doubles s.db).1
  match c with
  | .setValue _ _ => result = .ok none
  | .getValue type key =>
    (s.values key = none → result = .ok none) ∧
      ∀ v, s.values key = some v → v.type = type → result = .ok (some v)
  | .getValueOr key default =>
    (s.values key = none → result = .ok (some default)) ∧
      ∀ v, s.values key = some v → v.type = default.type → result = .ok (some v)

/-- Valid keys that differ when their case is ignored, and from `version`. -/
structure Keys (keys : Str → Prop) : Prop where
  valid : ∀ k, keys k → IsKey k
  differ : ∀ k k', keys k → keys k' → column k = column k' → k = k'
  version : ∀ k, keys k → column k ≠ versionColumn

/-- A call for one of the keys, with a text without NUL. -/
def Call.Allowed (doubles : Doubles D) (keys : Str → Prop) (c : Call D) : Prop :=
  keys c.key ∧ ∀ v ∈ c.value, '\x00' ∉ text doubles v

/-- No read of a key that was read before and has never been set, and no `double` that its text loses. -/
def Call.Safe (doubles : Doubles D) (s : State D) (c : Call D) : Prop :=
  (c.reads = true → s.values c.key = none → s.missed c.key = false) ∧
    ∀ v ∈ c.value, Survives doubles v

/-! ## Runs of calls -/

/-- What the column of a key holds with this value, or read without one. -/
def cellOf (doubles : Doubles D) : Option (Value D) → Bool → Option Str
  | some v, _ => some (text doubles v)
  | none, true => some []
  | none, false => none

def State.cell (doubles : Doubles D) (s : State D) (key : Str) : Option Str :=
  cellOf doubles (s.values key) (s.missed key)

/-- The columns of the keys hold what was set, and values can be read back. -/
structure Represents (doubles : Doubles D) (keys : Str → Prop) (s : State D) : Prop where
  holds : ∃ cells, Holds s.db cells ∧ ∀ k, keys k → cells (column k) = s.cell doubles k
  survive : ∀ k v, s.values k = some v → Survives doubles v

variable {keys : Str → Prop} {s s' : State D} {c : Call D} {db : Database} {cells : Str → Option Str}

theorem Represents.new (hkeys : Keys keys) : Represents doubles keys State.new := by
  refine ⟨⟨newCells, Holds.none, fun k hk => ?_⟩, fun k v h => nomatch h⟩
  exact Function.update_of_ne (hkeys.version k hk) _ _

/-- The column of one key changes, and those of the others stay. -/
theorem holds_update (hkeys : Keys keys) {key x : Str} (hkey : keys key)
    (hcells : ∀ k, keys k → cells (column k) = s.cell doubles k)
    (hself : s'.cell doubles key = some x)
    (hother : ∀ k, k ≠ key → s'.cell doubles k = s.cell doubles k) :
    ∀ k, keys k → Function.update cells (column key) (some x) (column k) = s'.cell doubles k := by
  intro k hk
  by_cases heq : k = key
  · subst heq
    rw [Function.update_self, hself]
  · have hne : column k ≠ column key := fun h => heq (hkeys.differ k key hk hkey h)
    rw [Function.update_of_ne hne, hcells k hk, hother k heq]

/-- A value is stored. -/
theorem Represents.set (hkeys : Keys keys) (hrep : Represents doubles keys s) {key : Str} {v : Value D}
    (hkey : keys key) (hv : Survives doubles v)
    (hcells : ∀ k, keys k → cells (column k) = s.cell doubles k)
    (hholds : Holds db (Function.update cells (column key) (some (text doubles v)))) :
    Represents doubles keys { s with db, values := Function.update s.values key (some v) } := by
  refine ⟨⟨_, hholds, holds_update hkeys hkey hcells ?_ fun k hk => ?_⟩, fun k w hw => ?_⟩
  · exact congrArg (cellOf doubles · (s.missed key)) (Function.update_self key (some v) s.values)
  · exact congrArg (cellOf doubles · (s.missed k)) (Function.update_of_ne hk (some v) s.values)
  · by_cases hk : k = key
    · subst hk
      have heq : some v = some w := (Function.update_self k (some v) s.values).symm.trans hw
      rw [← Option.some.inj heq]
      exact hv
    · exact hrep.survive k w ((Function.update_of_ne hk (some v) s.values).symm.trans hw)

/-- A key is read: it has a column then. -/
theorem Represents.read (hkeys : Keys keys) (hrep : Represents doubles keys s) {key : Str}
    (hkey : keys key) (hcells : ∀ k, keys k → cells (column k) = s.cell doubles k)
    (hholds : Holds db (touch cells (column key))) :
    Represents doubles keys
      { s with db, missed := Function.update s.missed key ((s.values key).isNone || s.missed key) } := by
  refine ⟨⟨_, hholds, ?_⟩, hrep.survive⟩
  rw [touch, hcells key hkey]
  refine holds_update hkeys hkey hcells ?_ fun k hk => ?_
  · refine (congrArg (cellOf doubles (s.values key)) (Function.update_self key _ s.missed)).trans ?_
    rw [State.cell]
    cases s.values key with
    | some v => rfl
    | none =>
      cases s.missed key with
      | true => rfl
      | false => rfl
  · exact congrArg (cellOf doubles (s.values k)) (Function.update_of_ne hk _ s.missed)

/-- **One call**: it returns what it is to return, and the columns hold what was set. -/
theorem Represents.step (hkeys : Keys keys) (hrep : Represents doubles keys s)
    (hallowed : c.Allowed doubles keys) (hsafe : c.Safe doubles s) :
    Meets doubles s c ∧ ∀ s', s.step doubles c = some s' → Represents doubles keys s' := by
  obtain ⟨cells, hholds, hcells⟩ := hrep.holds
  cases c with
  | setValue key v =>
    obtain ⟨db', hset, hdb'⟩ := setValue_holds hholds (hkeys.valid key hallowed.1) (hallowed.2 v rfl)
    have hperform : (Call.setValue key v).perform doubles s.db = (.ok none, db') := bind_of_ok hset
    refine ⟨congrArg Prod.fst hperform, fun s' hs' => ?_⟩
    cases hs'
    rw [hperform]
    exact hrep.set hkeys hallowed.1 (hsafe.2 v rfl) hcells hdb'
  | getValue type key =>
    have hcell : cells (column key) = s.cell doubles key := hcells key hallowed.1
    obtain ⟨db', hdb', hnone, hsome⟩ :=
      getValue_holds doubles hholds (hkeys.valid key hallowed.1) type
    refine ⟨⟨fun hv => ?_, fun v hv htype => ?_⟩, fun s' hs' => ?_⟩
    · have hmissed : s.missed key = false := hsafe.1 rfl hv
      rw [State.cell, hv, hmissed] at hcell
      exact congrArg Prod.fst (hnone hcell)
    · rw [State.cell, hv] at hcell
      refine (congrArg Prod.fst (hsome _ hcell)).trans ?_
      rw [← htype, readAs_text (hrep.survive key v hv)]
      rfl
    · have hperform : ((Call.getValue type key).perform doubles s.db).2 = db' := by
        cases hx : cells (column key) with
        | none => exact congrArg Prod.snd (hnone hx)
        | some x => exact congrArg Prod.snd (hsome x hx)
      cases hs'
      rw [hperform]
      exact hrep.read hkeys hallowed.1 hcells hdb'
  | getValueOr key default =>
    have hcell : cells (column key) = s.cell doubles key := hcells key hallowed.1
    cases hv : s.values key with
    | none =>
      have hmissed : s.missed key = false := hsafe.1 rfl hv
      rw [State.cell, hv, hmissed] at hcell
      obtain ⟨db', hget, hdb'⟩ :=
        getValueOr_of_none hholds (hkeys.valid key hallowed.1) (hallowed.2 default rfl) hcell
      have hperform : (Call.getValueOr key default).perform doubles s.db = (.ok (some default), db') :=
        bind_of_ok hget
      refine ⟨⟨fun _ => congrArg Prod.fst hperform, fun v hv' => ?_⟩, fun s' hs' => ?_⟩
      · cases hv.symm.trans hv'
      · cases hs'
        rw [hperform, hv]
        exact hrep.set hkeys hallowed.1 (hsafe.2 default rfl) hcells hdb'
    | some v =>
      rw [State.cell, hv] at hcell
      obtain ⟨db', hget, hdb'⟩ :=
        getValueOr_of_some doubles default hholds
          (hkeys.valid key hallowed.1) hcell
      refine ⟨⟨fun hv' => ?_, fun v' hv' htype => ?_⟩, fun s' hs' => ?_⟩
      · cases hv.symm.trans hv'
      · cases hv.symm.trans hv'
        rw [← htype, readAs_text (hrep.survive key v hv)] at hget
        exact congrArg Prod.fst (bind_of_ok hget)
      · have hperform : ((Call.getValueOr key default).perform doubles s.db).2 = db' := by
          cases hr : readAs doubles default.type (text doubles v) with
          | ok w => exact congrArg Prod.snd (bind_of_ok (hget.trans (congrArg (·, db') hr)))
          | error e => exact congrArg Prod.snd (bind_of_error (hget.trans (congrArg (·, db') hr)))
        cases hs'
        rw [hperform, hv]
        refine hrep.set hkeys hallowed.1 (hrep.survive key v hv) hcells ?_
        rwa [Option.getD_some, Function.update_eq_self_iff.mpr]
        exact hcell.symm

/-- **What was set is read**, in every run of calls that are safe. -/
theorem meets_of_run (hkeys : Keys keys)
    (hrun : Run (State.step doubles) (fun s c => c.Allowed doubles keys ∧ c.Safe doubles s) .new s)
    (hallowed : c.Allowed doubles keys) (hsafe : c.Safe doubles s) : Meets doubles s c := by
  have hrep : Represents doubles keys s :=
    hrun.invariant (Represents.new hkeys) fun hrep hok hs => (hrep.step hkeys hok.1 hok.2).2 _ hs
  exact (hrep.step hkeys hallowed hsafe).1

theorem keys_singleton : Keys (· = ['a']) where
  valid := by
    rintro _ rfl
    decide
  differ := by
    rintro _ _ rfl rfl _
    rfl
  version := by
    rintro _ rfl
    decide

/-- No `double` at all. -/
def noDoubles : Doubles Empty := ⟨(fun d => nomatch d), fun _ => .error .invalidArgument⟩

/-- A number is set, and read. -/
theorem meets_of_run_int : ∃ s : State Empty, s.values ['a'] = some (.int 5) ∧
    Meets noDoubles s (.getValue .int ['a']) := by
  let c : Call Empty := .setValue ['a'] (.int 5)
  have hallowed : c.Allowed noDoubles (· = ['a']) := by
    refine ⟨rfl, ?_⟩
    rintro _ ⟨⟩
    decide
  have hsafe : c.Safe noDoubles .new := by
    refine ⟨(fun h => by cases h), ?_⟩
    rintro _ ⟨⟩
    exact trivial
  refine ⟨_, ?_, meets_of_run keys_singleton (.tail .refl ⟨hallowed, hsafe⟩ rfl) ?_ ?_⟩
  · rfl
  · exact ⟨rfl, fun v hv => by cases hv⟩
  · exact ⟨fun _ _ => rfl, fun v hv => by cases hv⟩

/-- A key that was never set is read twice: it has an empty value then. -/
theorem second_read_differs : ¬ ∀ (keys : Str → Prop) (s : State Empty) (c : Call Empty), Keys keys →
    Run (State.step noDoubles) (fun _ c => c.Allowed noDoubles keys) .new s →
      c.Allowed noDoubles keys → Meets noDoubles s c := by
  intro h
  let c : Call Empty := .getValue .string ['a']
  have hallowed : c.Allowed noDoubles (· = ['a']) := ⟨rfl, fun v hv => by cases hv⟩
  have hmeets := h _ _ c keys_singleton (.tail .refl hallowed rfl) hallowed
  have hread : (c.perform noDoubles (c.perform noDoubles none).2).1 = .ok (some (.string [])) := rfl
  cases hread.symm.trans (hmeets.1 rfl)

end Primitives.KeyValue
