import Primitives.Db.Update
import Primitives.Lib.Run

/-!
# Databases — the history of a schema

A database is updated again and again, each time on a fresh connection and with a list of patches that
extends the one before; a run may fail anywhere, and its transaction is then undone. The stored version
is the number of patches that the database has, in its schema or behind it (`Consistent`), so patches are
applied in the order of their indices, each once and none that the schema has already (`history`).
-/

set_option autoImplicit false

namespace Primitives.Db

open Lib Lib.Exec

/-! ## Runs -/

/-- A database between two runs: what is committed, the patches of the last run, and whether it
succeeded. -/
structure History where
  content : List Executed
  version : Option Int
  diffSqls : Strings
  succeeded : Bool

/-- A database that nothing has been executed on. -/
def History.new : History := ⟨[], none, [], false⟩

/-- A run of `createOrUpdate` on a fresh connection. What is not committed is undone at its end. -/
def History.step (h : History) (a : SchemaManager × Faults) : Option History :=
  if h.diffSqls <+: a.1.diffSqls then
    let (result, db) := createOrUpdate a.2 a.1 (connect h.content h.version)
    let db := db.rollback
    some ⟨db.content, db.version, a.1.diffSqls, result.isOk⟩
  else none

/-! ## The order of what is executed -/

/-- What may be executed before what: patches in the order of their indices, and none behind a schema
that has it. -/
def Before : Executed → Executed → Prop
  | .patch i _, .patch j _ => i < j
  | .schema _ size, .patch j _ => size ≤ j
  | _, .schema _ _ => True

/-- How many patches a database has with a schema or a patch. -/
def Executed.count : Executed → Nat
  | .schema _ size => size
  | .patch i _ => i + 1

theorem before_patch {e : Executed} {j : Nat} {sql : Str} (h : e.count ≤ j) :
    Before e (.patch j sql) := by
  cases e with
  | schema _ size => exact h
  | patch i _ => exact h

theorem before_schema (e : Executed) (sql : Str) (size : Nat) : Before e (.schema sql size) := by
  cases e <;> exact trivial

theorem mem_diffs {sqls : Strings} : ∀ {i : Nat} {e : Executed}, e ∈ diffs i sqls →
    ∃ j sql, e = .patch j sql ∧ i ≤ j ∧ j < i + sqls.length := by
  induction sqls with
  | nil => exact fun h => nomatch h
  | cons sql sqls ih =>
    intro i e h
    rcases List.mem_cons.mp h with rfl | h
    · exact ⟨i, sql, rfl, Nat.le_refl i, Nat.lt_add_of_pos_right (Nat.succ_pos _)⟩
    · obtain ⟨j, sql', rfl, hle, hlt⟩ := ih h
      refine ⟨j, sql', rfl, Nat.le_of_succ_le hle, ?_⟩
      rwa [List.length_cons, ← Nat.add_assoc, Nat.add_right_comm]

theorem pairwise_diffs (sqls : Strings) : ∀ i : Nat, (diffs i sqls).Pairwise Before := by
  induction sqls with
  | nil => exact fun _ => .nil
  | cons sql sqls ih =>
    intro i
    refine .cons ?_ (ih (i + 1))
    intro e he
    obtain ⟨j, sql', rfl, hle, -⟩ := mem_diffs he
    exact hle

/-! ## The invariant -/

/-- The database has as many patches as its version says, and its schema came first. -/
structure Consistent (h : History) : Prop where
  ordered : h.content.Pairwise Before
  empty : h.content = [] ↔ h.version.getD (-1) = -1
  head : ∀ e ∈ h.content.head?, ∃ sql size, e = .schema sql size
  version : h.content ≠ [] → ∃ v : Nat, h.version = some v ∧ v ≤ h.diffSqls.length ∧
    ∀ e ∈ h.content, e.count ≤ v
  succeeded : h.succeeded = true → h.version = some (h.diffSqls.length : Int)

theorem Consistent.new : Consistent .new where
  ordered := .nil
  empty := iff_of_true rfl rfl
  head := fun _ h => nomatch h
  version := fun h => absurd rfl h
  succeeded := fun h => nomatch h

/-- A run that fails. -/
theorem Consistent.fail {h : History} (hc : Consistent h) {sqls : Strings}
    (hle : h.diffSqls <+: sqls) {t : Database} (ht : Untouched h.content h.version t) :
    Consistent ⟨t.content, t.version, sqls, false⟩ := by
  have hversion : t.content = h.content ∧ (t.version = h.version ∨ t.version = some (h.version.getD (-1))) := by
    rcases ht with rfl | rfl
    · exact ⟨rfl, .inl rfl⟩
    · exact ⟨rfl, .inr rfl⟩
  obtain ⟨hcontent, hversion⟩ := hversion
  rw [hcontent]
  refine ⟨hc.ordered, ?_, hc.head, ?_, fun h => nomatch h⟩
  · rw [hc.empty]
    rcases hversion with hv | hv
    · rw [hv]
    · rw [hv]
      rfl
  · intro hne
    obtain ⟨v, hv, hvle, hcount⟩ := hc.version hne
    refine ⟨v, ?_, hvle.trans hle.length_le, hcount⟩
    rcases hversion with hv' | hv'
    · rw [hv', hv]
    · rw [hv', hv]
      rfl

/-- A run that executes something, and stores the number of its patches. -/
theorem Consistent.append {h : History} (hc : Consistent h) {sqls : Strings} {es : List Executed}
    (hne : es ≠ []) (hordered : es.Pairwise Before)
    (hbefore : ∀ a ∈ h.content, ∀ b ∈ es, Before a b)
    (hhead : h.content = [] → ∀ e ∈ es.head?, ∃ sql size, e = .schema sql size)
    (hle : h.diffSqls <+: sqls) (hcount : ∀ e ∈ es, e.count ≤ sqls.length) :
    Consistent ⟨h.content ++ es, some (sqls.length : Int), sqls, true⟩ := by
  refine ⟨List.pairwise_append.mpr ⟨hc.ordered, hordered, hbefore⟩, ?_, ?_, ?_, fun _ => rfl⟩
  · refine iff_of_false (List.append_ne_nil_of_right_ne_nil _ hne) ?_
    intro hneg
    have hpos : (0 : Int) ≤ sqls.length := Int.natCast_nonneg _
    rw [Option.getD_some] at hneg
    rw [hneg] at hpos
    exact absurd hpos (by decide)
  · intro e he
    cases hcontent : h.content with
    | nil =>
      rw [hcontent, List.nil_append] at he
      exact hhead hcontent e he
    | cons a as =>
      rw [hcontent] at he
      exact hc.head e (by rwa [hcontent])
  · intro _
    refine ⟨sqls.length, rfl, Nat.le_refl _, ?_⟩
    intro e he
    rcases List.mem_append.mp he with he | he
    · obtain ⟨v, -, hv, hcount'⟩ := hc.version (List.ne_nil_of_mem he)
      exact (hcount' e he).trans (hv.trans hle.length_le)
    · exact hcount e he

theorem Consistent.ne_nil {h : History} (hc : Consistent h) {v : Int} (hv : h.version = some v)
    (hne : v ≠ -1) : h.content ≠ [] := by
  intro hnil
  have hneg := hc.empty.mp hnil
  rw [hv, Option.getD_some] at hneg
  exact hne hneg

/-- The patches from the stored version on. -/
theorem Consistent.update {h : History} (hc : Consistent h) {sqls : Strings} {v : Nat}
    (hle : h.diffSqls <+: sqls) (hv : h.version = some (v : Int)) (hlt : v < sqls.length) :
    Consistent ⟨h.content ++ diffs v (sqls.drop v), some (sqls.length : Int), sqls, true⟩ := by
  have hne := hc.ne_nil hv (by omega)
  obtain ⟨n, hn, -, hcount⟩ := hc.version hne
  have hnv : (n : Int) = v := Option.some.inj (hn.symm.trans hv)
  refine hc.append ?_ (pairwise_diffs _ _) ?_ (fun hnil => absurd hnil hne) hle ?_
  · rw [List.drop_eq_getElem_cons hlt, diffs]
    exact List.cons_ne_nil _ _
  · intro a ha b hb
    obtain ⟨j, sql, rfl, hvj, -⟩ := mem_diffs hb
    have hav := hcount a ha
    exact before_patch (by omega)
  · intro e he
    obtain ⟨j, sql, rfl, -, hlt'⟩ := mem_diffs he
    rw [List.length_drop, Nat.add_sub_cancel' hlt.le] at hlt'
    exact hlt'

/-- A run that has nothing to do. -/
theorem Consistent.skip {h : History} (hc : Consistent h) {sqls : Strings} {v : Nat}
    (hle : h.diffSqls <+: sqls) (hv : h.version = some (v : Int)) (hge : sqls.length ≤ v) :
    Consistent ⟨h.content, h.version, sqls, true⟩ := by
  obtain ⟨n, hn, hnle, hcount⟩ := hc.version (hc.ne_nil hv (by omega))
  have heq : n = sqls.length := by
    have hnv : (n : Int) = v := Option.some.inj (hn.symm.trans hv)
    have hlen := hle.length_le
    omega
  subst heq
  exact ⟨hc.ordered, hc.empty, hc.head, fun _ => ⟨_, hn, Nat.le_refl _, hcount⟩, fun _ => hn⟩

/-- **A run of `createOrUpdate`.** -/
theorem Consistent.step {h t : History} {a : SchemaManager × Faults} (hc : Consistent h)
    (hs : h.step a = some t) : Consistent t := by
  obtain ⟨m, f⟩ := a
  unfold History.step at hs
  split at hs
  · rename_i hle
    have hends := createOrUpdate_ends (f := f) (m := m) h.content h.version
    cases hres : createOrUpdate f m (connect h.content h.version) with
    | mk res db =>
      rw [hres] at hs
      cases hs
      cases res with
      | error e =>
        refine hc.fail hle ?_
        obtain ⟨-, hdb⟩ | ⟨-, -, hdb⟩ := hends.error e db hres
        · rcases hdb with rfl | rfl
          · exact .inl rfl
          · exact .inr rfl
        · exact hdb
      | ok u =>
        obtain ⟨-, ⟨-, rfl⟩ | ⟨v, hv, hne, hlt, hupdates⟩⟩ := hends.ok u db hres
        · refine hc.append (List.cons_ne_nil _ _) (List.pairwise_singleton _ _) ?_ ?_ hle ?_
          · intro a _ b hb
            rw [List.mem_singleton.mp hb]
            exact before_schema a _ _
          · intro _ e he
            cases he
            exact ⟨_, _, rfl⟩
          · intro e he
            rw [List.mem_singleton.mp he]
            exact Nat.le_refl _
        · obtain ⟨n, hn, -⟩ := hc.version (hc.ne_nil hv hne)
          cases hn.symm.trans hv
          rw [Updates, sizeT_of_nonneg (by omega)] at hupdates
          obtain ⟨hge, rfl⟩ | ⟨hlt', rfl⟩ := hupdates
          · have hskip := hc.skip hle hn hge
            rwa [hn] at hskip
          · exact hc.update hle hn hlt'
  · cases hs

theorem Consistent.of_reachable {h : History} (hreach : Reachable History.step .new h) :
    Consistent h :=
  hreach.invariant Consistent.new fun hc _ hs => hc.step hs

/-- **The history of a schema.** Whatever fails in the runs, the schema is created first, the patches
behind it are executed in the order of their indices and each at most once, and none of them is one that
the schema has; after a run that succeeds the stored version is the number of its patches. -/
theorem history {h : History} (hreach : Reachable History.step .new h) :
    (∀ e ∈ h.content.head?, ∃ sql size, e = .schema sql size) ∧ h.content.Pairwise Before ∧
      (h.succeeded = true → h.version = some (h.diffSqls.length : Int)) :=
  have hc := Consistent.of_reachable hreach
  ⟨hc.head, hc.ordered, hc.succeeded⟩

/-- A database is created, an update of it fails, and the next one applies both patches. -/
theorem history_three_runs :
    (⟨[.schema [] 0, .patch 0 ['a'], .patch 1 ['b']], some 2, [['a'], ['b']], true⟩ : History).content.Pairwise
      Before := by
  have hreach : Reachable History.step .new
      ⟨[.schema [] 0, .patch 0 ['a'], .patch 1 ['b']], some 2, [['a'], ['b']], true⟩ :=
    .tail (.tail (.tail .refl trivial (a := (⟨[], []⟩, ⟨fun _ => false, fun _ => false⟩)) rfl) trivial
      (a := (⟨[], [['a'], ['b']]⟩, ⟨fun s => s = .patch 1, fun _ => false⟩)) rfl) trivial
      (a := (⟨[], [['a'], ['b']]⟩, ⟨fun _ => false, fun _ => false⟩)) rfl
  exact (history hreach).2.1

end Primitives.Db
