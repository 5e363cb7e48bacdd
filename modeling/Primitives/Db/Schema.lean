import Primitives.Basic
import Primitives.Lib.Exec

/-!
# Databases — creating and updating a schema

`createOrUpdate` reads the version that is stored in a database. Without one it creates the schema in a
transaction and stores the number of patches that the schema has already; otherwise it applies the
patches from the stored number on, in a transaction of its own.

A database is the list of the schemas and patches that have been executed on it, since its tables are
what these make of them, and the version in its service table. Which statements fail is a parameter: a
statement that fails changes nothing and throws, and a read that fails may find no value instead, since
`getValueByKey` of the SQLite database has it so.
-/

set_option autoImplicit false

namespace Primitives.Db

open Lib Lib.Exec

/-! ## Databases -/

/-- A schema or a patch that has been executed. `size` is the number of patches in the list that the
schema belongs to, and `i` the index of the patch. -/
inductive Executed where
  | schema (sql : Str) (size : Nat)
  | patch (i : Nat) (sql : Str)
deriving DecidableEq, Repr

/-- A database and a connection to it. -/
structure Database where
  content : List Executed
  /-- The version in the service table, if there is a service table. -/
  version : Option Int
  /-- In a transaction, what the database was when it began. -/
  saved : Option (List Executed × Option Int)
deriving DecidableEq, Repr

/-- A fresh connection. -/
def connect (content : List Executed) (version : Option Int) : Database := ⟨content, version, none⟩

/-- The database with a service table; the version of a new one is -1. -/
def Database.withServiceTable (db : Database) : Database :=
  { db with version := some (db.version.getD (-1)) }

/-- Appends what has been executed. -/
def Database.add (db : Database) (e : Executed) : Database := { db with content := db.content ++ [e] }

/-- A connection is closed: a transaction that is open is undone. -/
def Database.rollback (db : Database) : Database :=
  match db.saved with
  | some (content, version) => ⟨content, version, none⟩
  | none => db

/-! ## Statements -/

/-- Where the service table is used: by `createOrUpdate`, in the transaction of `update`, and to store
the version. -/
inductive Place where
  | check
  | update
  | store
deriving DecidableEq, Repr

inductive Statement where
  | serviceTable (place : Place)
  | select (place : Place)
  | begin
  | schema
  | patch (i : Nat)
  | updateVersion
  | commit
deriving DecidableEq, Repr

/-- What goes wrong. -/
structure Faults where
  throws : Statement → Bool
  unreadable : Place → Bool

inductive Failure where
  | dbError (s : Statement)
  | outOfRange
  | badOptionalAccess
deriving DecidableEq, Repr

/-- What is executed on a connection. -/
abbrev Session (α : Type) := Exec Failure Database α

section

variable (f : Faults)

/-- `database->execute`, of a statement with an effect. -/
def execute (s : Statement) (effect : Database → Database) : Session Unit := fun db =>
  if f.throws s then (.error (.dbError s), db) else (.ok (), effect db)

/-- `BEGIN`; there are no transactions inside transactions. -/
def begin : Session Unit := do
  if (← gets Database.saved).isSome then throw (.dbError .begin)
  else execute f .begin fun db => { db with saved := some (db.content, db.version) }

/-- `COMMIT`, in a transaction. -/
def commit : Session Unit := do
  if (← gets Database.saved).isNone then throw (.dbError .commit)
  else execute f .commit fun db => { db with saved := none }

/-- `createServiceTable`. -/
def createServiceTable (place : Place) : Session Unit :=
  execute f (.serviceTable place) Database.withServiceTable

/-- `getValue<int>(version_column)`. The column is one of the table's from the start. -/
def getValue (place : Place) : Session (Option Int) := do
  createServiceTable f place
  if f.unreadable place then return none
  execute f (.select place) id
  match ← gets Database.version with
  | none => return none
  | some v => if -(2 ^ 31) ≤ v ∧ v < 2 ^ 31 then return some v else throw .outOfRange

/-- `setValue(version_column, n)`. -/
def setValue (n : Nat) : Session Unit := do
  createServiceTable f .store
  execute f .updateVersion fun db => { db with version := some n }

/-- `StringDatabaseSchemaManager`. -/
structure SchemaManager where
  latestSchema : Str
  diffSqls : Strings
deriving DecidableEq, Repr

/-- `getDiffSqlSize`. -/
def SchemaManager.getDiffSqlSize (m : SchemaManager) : Nat := m.diffSqls.length

variable (m : SchemaManager)

def create : Session Unit := do
  begin f
  execute f .schema (Database.add · (.schema m.latestSchema m.getDiffSqlSize))
  setValue f m.getDiffSqlSize
  commit f

/-- `execute(getDiffSql(i))` for the index of each of the patches, the first of which has index `i`. -/
def executeDiffs : Nat → Strings → Session Unit
  | _, [] => pure ()
  | i, sql :: sqls => do
    execute f (.patch i) (Database.add · (.patch i sql))
    executeDiffs (i + 1) sqls

/-- The guard of `update`: it rolls back unless the body has dismissed it. -/
def guarded (body : Session Bool) : Session Unit := fun db =>
  match body db with
  | (.ok dismissed, db') => (.ok (), if dismissed then db' else db'.rollback)
  | (.error e, db') => (.error e, db'.rollback)

/-- What `update` does under its guard; true where it dismisses the guard. -/
def applyDiffs : Session Bool := do
  match ← getValue f .update with
  | none => throw .badOptionalAccess
  | some version =>
    if sizeT version ≥ m.getDiffSqlSize then return false
    executeDiffs f (sizeT version) (m.diffSqls.drop (sizeT version))
    setValue f m.getDiffSqlSize
    commit f
    return true

def update : Session Unit := do
  begin f
  guarded (applyDiffs f m)

def createOrUpdate : Session Unit := do
  let v ← getValue f .check
  if v = none ∨ v = some (-1) then create f m
  else if m.getDiffSqlSize ≠ 0 then update f m

end

end Primitives.Db
