import Mathlib.Algebra.BigOperators.Group.List.Basic
import Mathlib.Logic.Function.Basic
import Primitives.Lib.Run

/-!
# Cache — counters that several processes change

`change` reads the value of a key with one statement and stores the sum in a transaction of its own,
so a process can store between the two. A store then replaces what was stored since its call read the
key (`lost_update`). As long as each call stores over the value that it has read, every key holds what
it held at the start and the changes of all calls (`table_of_run`).

The values are any type with an addition, and its zero is the default-constructed value.
-/

set_option autoImplicit false

namespace Primitives.Cache

open Lib

/-- A call of `change`. -/
structure Call (K V : Type) where
  key : K
  change : V
deriving DecidableEq

namespace Call

variable {K V : Type} [IntCast V]

/-- `inc`, which changes by 1 where its caller does not say. -/
def inc (k : K) (chng : Int := 1) : Call K V := ⟨k, chng⟩

/-- `dec`, which changes by -1 where its caller does not say. -/
def dec (k : K) (chng : Int := -1) : Call K V := ⟨k, chng⟩

end Call

variable {Proc K V : Type} [DecidableEq Proc] [DecidableEq K] [AddMonoid V]

/-! ## The cache file and its processes -/

/-- A row for each key that is stored. -/
abbrev Table (K V : Type) := K → Option V

/-- `find`, one SELECT. -/
def find (table : Table K V) (k : K) : Option V := table k

/-- `set`, one transaction that inserts or replaces. -/
def set (table : Table K V) (k : K) (v : V) : Table K V := Function.update table k (some v)

/-- The value that `change` adds to. -/
def oldval (v : Option V) : V := v.getD 0

/-- The file, the call that each process is in with what it has read, and the calls that have
returned. -/
structure State (Proc K V : Type) where
  table : Table K V
  pending : Proc → Option (Call K V × Option V)
  returned : List (Call K V)

def start (table : Table K V) : State Proc K V := ⟨table, fun _ => none, []⟩

inductive Action (Proc K V : Type) where
  /-- A process calls `change`, which reads the key. -/
  | find (p : Proc) (c : Call K V)
  /-- The call of a process stores the sum, and returns. -/
  | set (p : Proc)

def step (s : State Proc K V) : Action Proc K V → Option (State Proc K V)
  | .find p c =>
    match s.pending p with
    | some _ => none
    | none => some { s with pending := Function.update s.pending p (some (c, find s.table c.key)) }
  | .set p =>
    match s.pending p with
    | none => none
    | some (c, v) => some
        { table := set s.table c.key (oldval v + c.change)
          pending := Function.update s.pending p none
          returned := s.returned ++ [c] }

/-! ## No update is lost -/

/-- The changes of a key by calls. -/
def changes (cs : List (Call K V)) (k : K) : List V :=
  (cs.filter fun c => c.key = k).map Call.change

omit [AddMonoid V] in
theorem changes_concat (cs : List (Call K V)) (c : Call K V) (k : K) :
    changes (cs ++ [c]) k = changes cs k ++ if c.key = k then [c.change] else [] := by
  by_cases h : c.key = k
  · rw [if_pos h]
    simp [changes, h]
  · rw [if_neg h]
    simp [changes, h]

/-- What a key holds after changes. -/
def total (v : Option V) (changes : List V) : Option V :=
  if changes = [] then v else some (v.getD 0 + changes.sum)

theorem total_concat (v : Option V) (changes : List V) (c : V) :
    total v (changes ++ [c]) = some ((total v changes).getD 0 + c) := by
  unfold total
  rw [if_neg (List.append_ne_nil_of_right_ne_nil _ (List.cons_ne_nil c []))]
  split
  · rename_i hnil
    rw [hnil, List.nil_append, List.sum_singleton]
  · rw [List.sum_append, List.sum_singleton, Option.getD_some, add_assoc]

/-- A call that stores has read the value that it replaces. -/
def Fresh (s : State Proc K V) : Action Proc K V → Prop
  | .find _ _ => True
  | .set p => ∀ c ∈ s.pending p, c.2 = s.table c.1.key

/-- Every key holds what it held in `table` and the changes of the calls that have returned. -/
def Counted (table : Table K V) (s : State Proc K V) : Prop :=
  ∀ k, s.table k = total (table k) (changes s.returned k)

theorem Counted.step {table : Table K V} {s t : State Proc K V} {a : Action Proc K V}
    (hcounted : Counted table s) (hok : Fresh s a) (h : step s a = some t) : Counted table t := by
  cases a with
  | find p c =>
    rw [Cache.step] at h
    split at h
    · cases h
    · cases h
      exact hcounted
  | set p =>
    rw [Cache.step] at h
    split at h
    · cases h
    · rename_i c v hp
      have hread : v = s.table c.key := hok _ hp
      cases h
      intro k
      rw [changes_concat]
      by_cases hk : c.key = k
      · subst hk
        rw [if_pos rfl, total_concat, ← hcounted, ← hread]
        exact Function.update_self c.key _ s.table
      · rw [if_neg hk, List.append_nil, ← hcounted]
        exact Function.update_of_ne (Ne.symm hk) _ s.table

/-- **No update is lost** where every call stores over what it has read: a key holds what it held at
the start, or nothing, and all the changes. -/
theorem table_of_run {table : Table K V} {s : State Proc K V} (h : Run step Fresh (start table) s)
    (k : K) : s.table k = total (table k) (changes s.returned k) :=
  h.invariant (fun _ => rfl : Counted table (start table)) Counted.step k

instance Fresh.decidable [DecidableEq V] (s : State Proc K V) (a : Action Proc K V) :
    Decidable (Fresh s a) :=
  match a with
  | .find _ _ => instDecidableTrue
  | .set p => inferInstanceAs (Decidable (∀ c ∈ s.pending p, c.2 = s.table c.1.key))

/-- Two processes count, one after the other. -/
theorem table_of_run_two : ∃ s : State Bool Unit Int,
    s.returned.length = 2 ∧ s.table () = total none (changes s.returned ()) := by
  obtain ⟨s, hrun, hlen⟩ := exists_run_of_exec step (fun s a => decide (Fresh s a))
    (start fun _ => none : State Bool Unit Int)
    [.find true (.inc ()), .set true, .find false (.dec ()), .set false]
    (fun s => s.returned.length = 2) (by decide)
  exact ⟨s, of_decide_eq_true hlen, table_of_run (hrun.mono of_decide_eq_true) ()⟩

/-- Two processes count at a time: both read before one of them stores, and the count is 1. -/
theorem lost_update : ¬ ∀ (table : Table Unit Int) (s : State Bool Unit Int),
    Reachable step (start table) s → (∀ p, s.pending p = none) →
      ∀ k, s.table k = total (table k) (changes s.returned k) := by
  intro h
  obtain ⟨s, hrun, hs⟩ := exists_run_of_exec step (fun _ _ => true)
    (start fun _ => none : State Bool Unit Int)
    [.find true (.inc ()), .find false (.inc ()), .set true, .set false]
    (fun s => decide (∀ p, s.pending p = none) && decide (s.returned = [.inc (), .inc ()]) &&
      decide (s.table () = some 1)) (by decide)
  simp only [Bool.and_eq_true, decide_eq_true_eq] at hs
  obtain ⟨⟨hpending, hreturned⟩, htable⟩ := hs
  have hall := h _ s hrun.reachable hpending ()
  rw [hreturned, htable] at hall
  exact absurd hall (by decide)

end Primitives.Cache
