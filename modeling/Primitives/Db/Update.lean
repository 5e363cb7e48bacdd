import Primitives.Db.Schema

/-!
# Databases — what is left of a schema that could not be updated

`update` has a guard that rolls back, and `create` has none: where a statement of `create` throws in its
transaction, the transaction stays open. Everywhere else a connection is left without a transaction, and
the database is what it was, with a service table (`atomic_iff`).
-/

set_option autoImplicit false

namespace Primitives.Db

open Lib Lib.Exec

variable {f : Faults} {m : SchemaManager} {db : Database}

/-! ## Statements -/

theorem execute_ends (s : Statement) (effect : Database → Database) :
    Ends (execute f s effect) db (fun _ t => f.throws s = false ∧ t = effect db)
      fun _ t => f.throws s = true ∧ t = db := by
  unfold execute
  refine ⟨fun a t h => ?_, fun e t h => ?_⟩
  · split at h
    · cases h
    · cases h
      exact ⟨Bool.eq_false_iff.mpr ‹_›, rfl⟩
  · split at h
    · cases h
      exact ⟨‹_›, rfl⟩
    · cases h

theorem begin_ends (hsaved : db.saved = none) :
    Ends (begin f) db
      (fun _ t => f.throws .begin = false ∧ t = { db with saved := some (db.content, db.version) })
      fun _ t => f.throws .begin = true ∧ t = db := by
  refine Ends.bind (q := fun saved t => saved = none ∧ t = db) (.gets ⟨hsaved, rfl⟩) ?_
  rintro _ _ ⟨rfl, rfl⟩
  exact execute_ends .begin _

theorem commit_ends (hsaved : db.saved ≠ none) :
    Ends (commit f) db (fun _ t => f.throws .commit = false ∧ t = { db with saved := none })
      fun _ t => f.throws .commit = true ∧ t = db := by
  obtain ⟨old, hold⟩ := Option.ne_none_iff_exists'.mp hsaved
  refine Ends.bind (q := fun saved t => saved = some old ∧ t = db) (.gets ⟨hold, rfl⟩) ?_
  rintro _ _ ⟨rfl, rfl⟩
  exact execute_ends .commit _

/-- The value that `getValue` finds: none, or the version of the service table. -/
def Reads (f : Faults) (place : Place) (version v : Option Int) : Prop :=
  f.throws (.serviceTable place) = false ∧
    (f.unreadable place = true ∧ v = none ∨
      f.unreadable place = false ∧ f.throws (.select place) = false ∧ v = some (version.getD (-1)) ∧
        -(2 ^ 31) ≤ version.getD (-1) ∧ version.getD (-1) < 2 ^ 31)

theorem getValue_ends (place : Place) :
    Ends (getValue f place) db
      (fun v t => Reads f place db.version v ∧ t = db.withServiceTable)
      fun _ t => (∀ v, ¬ Reads f place db.version v) ∧ (t = db ∨ t = db.withServiceTable) := by
  unfold getValue
  refine Ends.bind ((execute_ends _ _).mono (fun _ _ h => h) ?_) ?_
  · rintro _ _ ⟨hthrows, rfl⟩
    refine ⟨fun v hv => ?_, .inl rfl⟩
    cases hthrows.symm.trans hv.1
  rintro _ _ ⟨htable, rfl⟩
  by_cases hread : f.unreadable place = true
  · rw [if_pos hread]
    exact .pure ⟨⟨htable, .inl ⟨hread, rfl⟩⟩, rfl⟩
  rw [if_neg hread]
  -- where the version can be read, it is read
  have hreads : ∀ v, Reads f place db.version v → f.throws (.select place) = false ∧
      -(2 ^ 31) ≤ db.version.getD (-1) ∧ db.version.getD (-1) < 2 ^ 31 := by
    rintro v ⟨-, ⟨hu, -⟩ | ⟨-, hselect, -, hrange⟩⟩
    · exact absurd hu hread
    · exact ⟨hselect, hrange⟩
  refine Ends.bind ((execute_ends _ _).mono (fun _ _ h => h) ?_) ?_
  · rintro _ _ ⟨hthrows, rfl⟩
    refine ⟨fun v hv => ?_, .inr rfl⟩
    cases hthrows.symm.trans (hreads v hv).1
  rintro _ _ ⟨hselect, rfl⟩
  refine Ends.bind (q := fun v t => v = some (db.version.getD (-1)) ∧ t = db.withServiceTable)
    (.gets ⟨rfl, rfl⟩) ?_
  rintro _ _ ⟨rfl, rfl⟩
  dsimp only
  split
  · rename_i hrange
    exact .pure ⟨⟨htable, .inr ⟨Bool.eq_false_iff.mpr hread, hselect, rfl, hrange⟩⟩, rfl⟩
  · rename_i hrange
    exact .throw ⟨fun v hv => hrange (hreads v hv).2, .inr rfl⟩

theorem setValue_ends (n : Nat) :
    Ends (setValue f n) db
      (fun _ t => (f.throws (.serviceTable .store) = false ∧ f.throws .updateVersion = false) ∧
        t = { db with version := some n })
      fun _ t => (f.throws (.serviceTable .store) = true ∨ f.throws .updateVersion = true) ∧
        t.saved = db.saved := by
  unfold setValue
  refine Ends.bind ((execute_ends _ _).mono (fun _ _ h => h) ?_) ?_
  · rintro _ _ ⟨hthrows, rfl⟩
    exact ⟨.inl hthrows, rfl⟩
  rintro _ _ ⟨htable, rfl⟩
  refine (execute_ends _ _).mono ?_ ?_
  · rintro _ _ ⟨hupdate, rfl⟩
    exact ⟨⟨htable, hupdate⟩, rfl⟩
  · rintro _ _ ⟨hthrows, rfl⟩
    exact ⟨.inr hthrows, rfl⟩

/-! ## The two transactions -/

/-- The patches as they are executed, the first of which has index `i`. -/
def diffs : Nat → Strings → List Executed
  | _, [] => []
  | i, sql :: sqls => .patch i sql :: diffs (i + 1) sqls

theorem executeDiffs_ends (sqls : Strings) : ∀ (i : Nat) (db : Database),
    Ends (executeDiffs f i sqls) db (fun _ t => t = { db with content := db.content ++ diffs i sqls })
      fun _ t => t.saved = db.saved := by
  induction sqls with
  | nil =>
    intro i db
    refine .pure ?_
    rw [diffs, List.append_nil]
  | cons sql sqls ih =>
    intro i db
    refine Ends.bind ((execute_ends _ _).mono (fun _ _ h => h) ?_) ?_
    · rintro _ _ ⟨-, rfl⟩
      rfl
    rintro _ _ ⟨-, rfl⟩
    refine (ih (i + 1) _).mono ?_ (fun _ _ h => h)
    rintro _ _ rfl
    rw [diffs, List.append_cons]
    rfl

/-- A statement of `create` throws after `BEGIN`. -/
def CreateThrows (f : Faults) : Prop :=
  f.throws .schema = true ∨ (f.throws (.serviceTable .store) = true ∨ f.throws .updateVersion = true) ∨
    f.throws .commit = true

/-- The database with the schema. -/
def created (m : SchemaManager) (content : List Executed) : Database :=
  ⟨content ++ [.schema m.latestSchema m.getDiffSqlSize], some (m.getDiffSqlSize : Int), none⟩

/-- **`create`** leaves its transaction open where it throws in it. -/
theorem create_ends (hsaved : db.saved = none) :
    Ends (create f m) db (fun _ t => ¬ CreateThrows f ∧ t = created m db.content) fun _ t =>
      f.throws .begin = true ∧ t = db ∨
        f.throws .begin = false ∧ CreateThrows f ∧ t.saved = some (db.content, db.version) := by
  unfold create
  refine Ends.bind ((begin_ends hsaved).mono (fun _ _ h => h) fun _ _ h => .inl h) ?_
  rintro _ _ ⟨hbegin, rfl⟩
  refine Ends.bind ((execute_ends _ _).mono (fun _ _ h => h) ?_) ?_
  · rintro _ _ ⟨hthrows, rfl⟩
    exact .inr ⟨hbegin, .inl hthrows, rfl⟩
  rintro _ _ ⟨hschema, rfl⟩
  refine Ends.bind ((setValue_ends _).mono (fun _ _ h => h) ?_) ?_
  · rintro _ _ ⟨hthrows, ht⟩
    exact .inr ⟨hbegin, .inr (.inl hthrows), ht⟩
  rintro _ _ ⟨⟨htable, hupdate⟩, rfl⟩
  refine (commit_ends (Option.some_ne_none _)).mono ?_ ?_
  · rintro _ _ ⟨hcommit, rfl⟩
    refine ⟨?_, rfl⟩
    unfold CreateThrows
    rw [hschema, htable, hupdate, hcommit]
    decide
  · rintro _ _ ⟨hthrows, rfl⟩
    exact .inr ⟨hbegin, .inr (.inr hthrows), rfl⟩

theorem guarded_ends {body : Session Bool} {q : Bool → Database → Prop}
    {r : Failure → Database → Prop} (h : Ends body db q r) :
    Ends (guarded body) db (fun _ t => q true t ∨ ∃ t', q false t' ∧ t = t'.rollback)
      fun e t => ∃ t', r e t' ∧ t = t'.rollback := by
  unfold guarded
  refine ⟨fun a t ha => ?_, fun e t he => ?_⟩
  · split at ha
    · rename_i dismissed t' hbody
      have hq := h.ok dismissed t' hbody
      cases dismissed with
      | true =>
        cases ha
        exact .inl hq
      | false =>
        cases ha
        exact .inr ⟨t', hq, rfl⟩
    · cases ha
  · split at he
    · cases he
    · rename_i e' t' hbody
      cases he
      exact ⟨t', h.error e t' hbody, rfl⟩

/-- The database with the patches from index `v` on. -/
def updated (m : SchemaManager) (content : List Executed) (v : Nat) : Database :=
  ⟨content ++ diffs v (m.diffSqls.drop v), some (m.getDiffSqlSize : Int), none⟩

theorem rollback_of_saved {old : List Executed × Option Int} (h : db.saved = some old) :
    db.rollback = connect old.1 old.2 := by
  rw [Database.rollback, h]
  rfl

theorem Reads.eq_getD {place : Place} {version : Option Int} {v : Int}
    (h : Reads f place version (some v)) : v = version.getD (-1) := by
  obtain ⟨-, ⟨-, hnone⟩ | ⟨-, -, hsome, -⟩⟩ := h
  · cases hnone
  · exact Option.some.inj hsome

theorem applyDiffs_ends (hsaved : db.saved ≠ none) :
    Ends (applyDiffs f m) db
      (fun b t => b = true ∧ sizeT (db.version.getD (-1)) < m.getDiffSqlSize ∧
          t = updated m db.content (sizeT (db.version.getD (-1))) ∨
        b = false ∧ m.getDiffSqlSize ≤ sizeT (db.version.getD (-1)) ∧ t.saved = db.saved)
      fun _ t => t.saved = db.saved := by
  unfold applyDiffs
  refine Ends.bind ((getValue_ends _).mono (fun _ _ h => h) ?_) ?_
  · rintro _ _ ⟨-, rfl | rfl⟩
    · rfl
    · rfl
  rintro v _ ⟨hread, rfl⟩
  cases v with
  | none => exact .throw rfl
  | some v =>
    have hv := hread.eq_getD
    subst hv
    dsimp only
    by_cases hge : sizeT (db.version.getD (-1)) ≥ m.getDiffSqlSize
    · rw [if_pos hge]
      exact .pure (.inr ⟨rfl, hge, rfl⟩)
    · rw [if_neg hge]
      refine Ends.bind (executeDiffs_ends _ _ _) ?_
      rintro _ _ rfl
      refine Ends.bind ((setValue_ends _).mono (fun _ _ h => h) fun _ _ h => h.2) ?_
      rintro _ _ ⟨-, rfl⟩
      refine Ends.bind (Ends.mono (commit_ends ?_) (fun _ _ h => h) ?_) ?_
      · exact hsaved
      · rintro _ _ ⟨-, rfl⟩
        rfl
      rintro _ _ ⟨-, rfl⟩
      exact .pure (.inl ⟨rfl, Nat.lt_of_not_le hge, rfl⟩)

/-- **`update`** changes nothing, unless it applies the patches from the stored version on. -/
theorem update_ends (hsaved : db.saved = none) :
    Ends (update f m) db
      (fun _ t => m.getDiffSqlSize ≤ sizeT (db.version.getD (-1)) ∧ t = db ∨
        sizeT (db.version.getD (-1)) < m.getDiffSqlSize ∧
          t = updated m db.content (sizeT (db.version.getD (-1))))
      fun _ t => t = db := by
  have hdb : connect db.content db.version = db := by
    rw [connect, ← hsaved]
  unfold update
  refine Ends.bind ((begin_ends hsaved).mono (fun _ _ h => h) fun _ _ h => h.2) ?_
  rintro _ _ ⟨-, rfl⟩
  refine (guarded_ends (applyDiffs_ends (Option.some_ne_none _))).mono ?_ ?_
  · rintro _ t ((⟨-, hlt, rfl⟩ | ⟨hcon, -⟩) | ⟨t', ⟨hcon, -⟩ | ⟨-, hle, ht'⟩, rfl⟩)
    · exact .inr ⟨hlt, rfl⟩
    · cases hcon
    · cases hcon
    · exact .inl ⟨hle, (rollback_of_saved ht').trans hdb⟩
  · rintro _ _ ⟨t', ht', rfl⟩
    exact (rollback_of_saved ht').trans hdb

/-! ## `createOrUpdate` -/

/-- The schema is created: no version is found, or -1. -/
def Creates (f : Faults) (version : Option Int) : Prop :=
  ∃ v, Reads f .check version v ∧ (v = none ∨ v = some (-1))

/-- A transaction is left open: a statement of `create` throws after `BEGIN`. -/
def LeavesOpen (f : Faults) (version : Option Int) : Prop :=
  Creates f version ∧ f.throws .begin = false ∧ CreateThrows f

/-- The database as it was, with a service table perhaps. -/
def Untouched (content : List Executed) (version : Option Int) (t : Database) : Prop :=
  t = connect content version ∨ t = (connect content version).withServiceTable

/-- Nothing to update, or all patches from the stored version on. -/
def Updates (m : SchemaManager) (content : List Executed) (v : Int) (t : Database) : Prop :=
  m.getDiffSqlSize ≤ sizeT v ∧ t = connect content (some v) ∨
    sizeT v < m.getDiffSqlSize ∧ t = updated m content (sizeT v)

theorem Reads.unique {place : Place} {version v v' : Option Int} (h : Reads f place version v)
    (h' : Reads f place version v') : v = v' := by
  obtain ⟨-, ⟨hu, rfl⟩ | ⟨hu, -, rfl, -⟩⟩ := h <;> obtain ⟨-, ⟨hu', rfl⟩ | ⟨hu', -, rfl, -⟩⟩ := h'
  · rfl
  · cases hu.symm.trans hu'
  · cases hu.symm.trans hu'
  · rfl

/-- **`createOrUpdate`** on a fresh connection. -/
theorem createOrUpdate_ends (content : List Executed) (version : Option Int) :
    Ends (createOrUpdate f m) (connect content version)
      (fun _ t => ¬ LeavesOpen f version ∧
        (Creates f version ∧ t = created m content ∨
          ∃ v, version = some v ∧ v ≠ -1 ∧ v < 2 ^ 31 ∧ Updates m content v t))
      fun _ t => ¬ LeavesOpen f version ∧ Untouched content version t ∨
        LeavesOpen f version ∧ t.saved ≠ none ∧ Untouched content version t.rollback := by
  unfold createOrUpdate
  refine Ends.bind ((getValue_ends _).mono (fun _ _ h => h) ?_) ?_
  · rintro _ t ⟨hno, ht⟩
    exact .inl ⟨fun hopen => hopen.1.elim fun v hv => hno v hv.1, ht⟩
  rintro v _ ⟨hread, rfl⟩
  by_cases hcreates : v = none ∨ v = some (-1)
  · rw [if_pos hcreates]
    refine (create_ends rfl).mono ?_ ?_
    · rintro _ _ ⟨hno, rfl⟩
      exact ⟨fun hopen => hno hopen.2.2, .inl ⟨⟨v, hread, hcreates⟩, rfl⟩⟩
    · rintro _ t (⟨hbegin, rfl⟩ | ⟨hbegin, hthrows, hsaved⟩)
      · refine .inl ⟨fun hopen => ?_, .inr rfl⟩
        cases hbegin.symm.trans hopen.2.1
      · refine .inr ⟨⟨⟨v, hread, hcreates⟩, hbegin, hthrows⟩, ?_, .inr ?_⟩
        · rw [hsaved]
          exact Option.some_ne_none _
        · exact rollback_of_saved hsaved
  · rw [if_neg hcreates]
    have hno : ¬ LeavesOpen f version := by
      rintro ⟨⟨v', hread', hcreates'⟩, -⟩
      exact hcreates (hread.unique hread' ▸ hcreates')
    obtain ⟨n, rfl⟩ := Option.ne_none_iff_exists'.mp fun hnone => hcreates (.inl hnone)
    have hne : n ≠ -1 := fun hn => hcreates (.inr (congrArg some hn))
    obtain ⟨hn, hversion⟩ : n < 2 ^ 31 ∧ version = some n := by
      obtain ⟨-, ⟨-, hnone⟩ | ⟨-, -, hsome, hrange⟩⟩ := hread
      · cases hnone
      · have hgetD := Option.some.inj hsome
        cases version with
        | none => exact absurd hgetD hne
        | some v =>
          cases hgetD
          exact ⟨hrange.2, rfl⟩
    subst hversion
    have hok : ∀ t, Updates m content n t → ¬ LeavesOpen f (some n) ∧
        (Creates f (some n) ∧ t = created m content ∨
          ∃ v, some n = some v ∧ v ≠ -1 ∧ v < 2 ^ 31 ∧ Updates m content v t) :=
      fun t ht => ⟨hno, .inr ⟨n, rfl, hne, hn, ht⟩⟩
    by_cases hsize : m.getDiffSqlSize ≠ 0
    · rw [if_pos hsize]
      refine (update_ends rfl).mono (fun _ t ht => hok t ht) ?_
      rintro _ _ rfl
      exact .inl ⟨hno, .inr rfl⟩
    · rw [if_neg hsize]
      refine .pure (hok _ (.inl ⟨?_, rfl⟩))
      rw [not_not.mp hsize]
      exact Nat.zero_le _

/-- Where `createOrUpdate` throws, no transaction is open and the database is as it was, with a service
table perhaps. -/
def Atomic (f : Faults) (m : SchemaManager) (content : List Executed) (version : Option Int) : Prop :=
  ∀ e t, createOrUpdate f m (connect content version) = (.error e, t) →
    t.saved = none ∧ t.content = content ∧
      (t.version = version ∨ version = none ∧ t.version = some (-1))

/-- **Which updates are atomic**: all but a creation that a statement behind `BEGIN` ends. -/
theorem atomic_iff (f : Faults) (m : SchemaManager) (content : List Executed) (version : Option Int) :
    Atomic f m content version ↔ ¬ LeavesOpen f version := by
  have hends := createOrUpdate_ends (f := f) (m := m) content version
  constructor
  · intro hatomic hopen
    obtain ⟨e, t, ht, hr⟩ := hends.throws fun _ _ hok => hok.1 hopen
    obtain ⟨hno, -⟩ | ⟨-, hsaved, -⟩ := hr
    · exact hno hopen
    · exact hsaved (hatomic e t ht).1
  · intro hno e t ht
    obtain ⟨-, rfl | rfl⟩ | ⟨hopen, -⟩ := hends.error e t ht
    · exact ⟨rfl, rfl, .inl rfl⟩
    · refine ⟨rfl, rfl, ?_⟩
      cases version with
      | none => exact .inr ⟨rfl, rfl⟩
      | some v => exact .inl rfl
    · exact absurd hopen hno

/-- The schema of a new database cannot be executed: its transaction stays open. -/
theorem not_atomic : ¬ ∀ f m content version, Atomic f m content version := by
  intro h
  have hatomic := h ⟨fun s => s = .schema, fun _ => false⟩ ⟨[], []⟩ [] none _ _ rfl
  exact absurd hatomic.1 (by decide)

end Primitives.Db
