import Primitives.Lib.Upsert
import Primitives.Yaml.Model

/-!
# The merge of YAML values

What `merge` is for: the values of two maps become one, in which common maps are merged and other common
values are a sequence of the elements of both (`Merged`).

What it does: the value of a key that has a scalar in the first map becomes a sequence that has itself as
an element (`Value.loop`), and the others become what they are to be. So the result is the merged value
exactly if no scalar of the first map is at a path that the second one has (`mergeMaps_outcome`).
-/

set_option autoImplicit false

namespace Primitives.Yaml

open Lib

/-- What can be read from a node. -/
inductive Value where
  | scalar (s : Str)
  | sequence (ts : List Value)
  | map (es : List (Str × Value))
  /-- A sequence that has itself as an element. -/
  | loop

namespace Value

/-- A tree of maps with distinct keys, sequences and scalars. -/
inductive WellFormed : Value → Prop
  | scalar (s : Str) : WellFormed (.scalar s)
  | sequence {ts : List Value} (hts : ∀ t ∈ ts, WellFormed t) : WellFormed (.sequence ts)
  | map {es : List (Str × Value)} (hes : ∀ e ∈ es, WellFormed e.2) (hkeys : (es.map Prod.fst).Nodup) :
    WellFormed (.map es)

/-- There is a loop below some keys. -/
inductive Loops : Value → Prop
  | loop : Loops .loop
  | map {es : List (Str × Value)} {e : Str × Value} (he : e ∈ es) (hloop : Loops e.2) : Loops (.map es)

def isMap : Value → Bool
  | .map _ => true
  | _ => false

/-- The elements of a sequence, and a scalar as an element. -/
def elements : Value → List Value
  | .sequence ts => ts
  | v => [v]

/-- What is at a path of keys. -/
def atPath : List Str → Value → Option Value
  | [], v => some v
  | k :: p, .map es => (es.lookup k).bind (atPath p)
  | _ :: _, _ => none

end Value

/-! ## What the merge is for -/

/-- A common path has a map on one side and no map on the other. -/
def Mismatch (d s : Value) : Prop :=
  ∃ p x y, d.atPath p = some x ∧ s.atPath p = some y ∧ x.isMap ≠ y.isMap

/-- A common path has a scalar on the left side. -/
def CommonScalar (d s : Value) : Prop :=
  ∃ p c y, d.atPath p = some (.scalar c) ∧ s.atPath p = some y

/-- The merged value of two values. -/
inductive Merged : Value → Value → Value → Prop
  /-- The elements of both, -/
  | elements {d s : Value} {rs : List Value} (hd : d.isMap = false) (hs : s.isMap = false)
    (hrs : rs.Perm (d.elements ++ s.elements)) : Merged d s (.sequence rs)
  /-- and for two maps what each has at the keys that the other one has not, and what is merged at the
  common ones. -/
  | map {ds ss rs : List (Str × Value)}
    (hkeys : ∀ k, (rs.lookup k).isSome = ((ds.lookup k).isSome || (ss.lookup k).isSome))
    (hleft : ∀ k, ss.lookup k = none → rs.lookup k = ds.lookup k)
    (hright : ∀ k, ds.lookup k = none → rs.lookup k = ss.lookup k)
    (hboth : ∀ k d s r, ds.lookup k = some d → ss.lookup k = some s → rs.lookup k = some r →
      Merged d s r) : Merged (.map ds) (.map ss) (.map rs)

/-! ## What it does -/

def incompatible (k : Str) : Failure :=
  .runtimeError ("yaml merge: nodes ('".toList ++ k ++ "') has incompatible types".toList)

/-- What becomes of the value `t` of a key `k`, when the other map has `f`. -/
def mergeValue (merge : List (Str × Value) → List (Str × Value) → Except Failure (List (Str × Value)))
    (k : Str) : Value → Value → Except Failure Value
  | .scalar _, .scalar _ => .ok .loop
  | .scalar s, .sequence ts => .ok (.sequence (ts ++ [.scalar s]))
  | .sequence _, .scalar _ => .ok .loop
  | .sequence fs, .sequence ts => .ok (.sequence (ts ++ fs))
  | .map fs, .map ts => (merge ts fs).map .map
  | _, _ => .error (incompatible k)

/-- `merge` of the values of two maps, the second one into the first. -/
def mergeMaps : Nat → List (Str × Value) → List (Str × Value) → Except Failure (List (Str × Value))
  | 0, _, _ => .error .fuel
  | n + 1, ts, fs => upsertAll (mergeValue (mergeMaps n)) fs ts

/-! ## Paths -/

section

variable {d s : Value} {ds ss : List (Str × Value)}

theorem atPath_of_not_map {v : Value} (h : v.isMap = false) (k : Str) (p : List Str) :
    v.atPath (k :: p) = none := by
  cases v with
  | map es => cases h
  | scalar s => rfl
  | sequence ts => rfl
  | loop => rfl

theorem mismatch_of_isMap_ne (h : d.isMap ≠ s.isMap) : Mismatch d s := ⟨[], d, s, rfl, rfl, h⟩

theorem not_mismatch_of_not_map (hd : d.isMap = false) (hs : s.isMap = false) : ¬ Mismatch d s := by
  rintro ⟨p, x, y, hx, hy, hne⟩
  cases p with
  | nil =>
    cases hx
    cases hy
    exact hne (hd.trans hs.symm)
  | cons k p =>
    rw [atPath_of_not_map hd] at hx
    cases hx

theorem mismatch_map :
    Mismatch (.map ds) (.map ss) ↔
      ∃ k x y, ds.lookup k = some x ∧ ss.lookup k = some y ∧ Mismatch x y := by
  constructor
  · rintro ⟨p, x, y, hx, hy, hne⟩
    cases p with
    | nil =>
      cases hx
      cases hy
      exact absurd rfl hne
    | cons k p =>
      obtain ⟨d, hd, hx⟩ := Option.bind_eq_some_iff.mp hx
      obtain ⟨s, hs, hy⟩ := Option.bind_eq_some_iff.mp hy
      exact ⟨k, d, s, hd, hs, p, x, y, hx, hy, hne⟩
  · rintro ⟨k, d, s, hd, hs, p, x, y, hx, hy, hne⟩
    exact ⟨k :: p, x, y, Option.bind_eq_some_iff.mpr ⟨d, hd, hx⟩,
      Option.bind_eq_some_iff.mpr ⟨s, hs, hy⟩, hne⟩

theorem commonScalar_map :
    CommonScalar (.map ds) (.map ss) ↔
      ∃ k x y, ds.lookup k = some x ∧ ss.lookup k = some y ∧ CommonScalar x y := by
  constructor
  · rintro ⟨p, c, y, hx, hy⟩
    cases p with
    | nil => cases hx
    | cons k p =>
      obtain ⟨d, hd, hx⟩ := Option.bind_eq_some_iff.mp hx
      obtain ⟨s, hs, hy⟩ := Option.bind_eq_some_iff.mp hy
      exact ⟨k, d, s, hd, hs, p, c, y, hx, hy⟩
  · rintro ⟨k, d, s, hd, hs, p, c, y, hx, hy⟩
    exact ⟨k :: p, c, y, Option.bind_eq_some_iff.mpr ⟨d, hd, hx⟩,
      Option.bind_eq_some_iff.mpr ⟨s, hs, hy⟩⟩

theorem commonScalar_scalar (c : Str) (s : Value) : CommonScalar (.scalar c) s :=
  ⟨[], c, s, rfl, rfl⟩

theorem not_commonScalar_sequence (ts : List Value) (s : Value) : ¬ CommonScalar (.sequence ts) s := by
  rintro ⟨p, c, y, hx, -⟩
  cases p with
  | nil => cases hx
  | cons k p => cases hx

end

/-! ## One key -/

/-- What the result of a merge is to be, and when there is none. -/
def Outcome (d s : Value) : Except Failure Value → Prop
  | .error _ => Mismatch d s
  | .ok r =>
    ¬ Mismatch d s ∧ (CommonScalar d s → r.Loops) ∧ (¬ CommonScalar d s → r.WellFormed ∧ Merged d s r)

section

variable {merge : List (Str × Value) → List (Str × Value) → Except Failure (List (Str × Value))}
  {ds ss : List (Str × Value)}

/-- Elements are put behind the elements. -/
theorem Outcome.sequence {ts : List Value} {s : Value} (ht : (Value.sequence ts).WellFormed)
    (hmap : s.isMap = false) (helems : ∀ e ∈ s.elements, e.WellFormed) :
    Outcome (.sequence ts) s (.ok (.sequence (ts ++ s.elements))) := by
  refine ⟨not_mismatch_of_not_map rfl hmap, ?_, fun _ => ⟨?_, ?_⟩⟩
  · intro h
    exact absurd h (not_commonScalar_sequence ts s)
  · cases ht with
    | sequence hts =>
      refine .sequence fun e he => ?_
      exact (List.mem_append.mp he).elim (hts e) (helems e)
  · exact .elements rfl hmap (List.Perm.refl _)

theorem Outcome.loop {c : Str} {s : Value} (hmap : s.isMap = false) :
    Outcome (.scalar c) s (.ok .loop) :=
  ⟨not_mismatch_of_not_map rfl hmap, fun _ => .loop, fun h => absurd (commonScalar_scalar c s) h⟩

/-- The value of a common key. -/
theorem mergeValue_outcome {k : Str} {f t : Value} (hf : f.WellFormed) (ht : t.WellFormed)
    (hmerge : ∀ ts fs, t = .map ts → f = .map fs →
      Outcome (.map ts) (.map fs) ((merge ts fs).map .map)) :
    Outcome t f (mergeValue merge k f t) := by
  cases hf with
  | scalar s =>
    cases ht with
    | scalar c => exact .loop rfl
    | sequence hts =>
      refine .sequence (.sequence hts) rfl fun e he => ?_
      rw [List.mem_singleton.mp he]
      exact .scalar s
    | map _ _ => exact mismatch_of_isMap_ne Bool.noConfusion
  | sequence hfs =>
    cases ht with
    | scalar c => exact .loop rfl
    | sequence hts => exact .sequence (.sequence hts) rfl hfs
    | map _ _ => exact mismatch_of_isMap_ne Bool.noConfusion
  | map _ _ =>
    cases ht with
    | scalar _ => exact mismatch_of_isMap_ne Bool.noConfusion
    | sequence _ => exact mismatch_of_isMap_ne Bool.noConfusion
    | map _ _ => exact hmerge _ _ rfl rfl

/-! ## Maps -/

/-- The values of all keys. -/
theorem upsertAll_outcome (hd : (Value.map ds).WellFormed) (hs : (Value.map ss).WellFormed)
    (hvalue : ∀ f ∈ ss, ∀ t, t.WellFormed → Outcome t f.2 (mergeValue merge f.1 f.2 t)) :
    Outcome (.map ds) (.map ss) ((upsertAll (mergeValue merge) ss ds).map .map) := by
  cases hd with
  | map hds hdkeys =>
  cases hs with
  | map hss hskeys =>
  have hone {k : Str} {f t : Value} (hf : ss.lookup k = some f) (ht : ds.lookup k = some t) :
      Outcome t f (mergeValue merge k f t) :=
    hvalue (k, f) (mem_of_lookup hf) t (hds _ (mem_of_lookup ht))
  obtain ⟨rs, hall, hspec⟩ | ⟨e, k, f, t, hall, hf, ht, herror⟩ :=
    upsertAll_spec (mergeValue merge) hskeys ds
  · rw [hall]
    -- the value of a common key, and of no other, is a merged one
    have hcommon {k : Str} {f t : Value} (hf : ss.lookup k = some f) (ht : ds.lookup k = some t) :
        ∃ r, rs.lookup k = some r ∧ Outcome t f (.ok r) := by
      obtain ⟨r, hr, hlookup⟩ := hspec.common k f t hf ht
      exact ⟨r, hlookup, hr ▸ hone hf ht⟩
    refine ⟨?_, ?_, fun hno => ⟨?_, ?_⟩⟩
    · rw [mismatch_map]
      rintro ⟨k, t, f, ht, hf, hmismatch⟩
      obtain ⟨r, -, hout⟩ := hcommon hf ht
      exact hout.1 hmismatch
    · rw [commonScalar_map]
      rintro ⟨k, t, f, ht, hf, hscalar⟩
      obtain ⟨r, hlookup, hout⟩ := hcommon hf ht
      exact .map (mem_of_lookup hlookup) (hout.2.1 hscalar)
    · refine .map (fun e he => ?_) (hspec.keys hdkeys)
      have hlookup := lookup_of_mem (hspec.keys hdkeys) he
      obtain ⟨-, ht⟩ | ⟨-, hf⟩ | ⟨f, t, hf, ht, hr⟩ := hspec.lookup_cases hlookup
      · exact hds _ (mem_of_lookup ht)
      · exact hss _ (mem_of_lookup hf)
      · have hout := hone hf ht
        rw [hr] at hout
        exact (hout.2.2 fun h => hno (commonScalar_map.mpr ⟨_, t, f, ht, hf, h⟩)).1
    · refine .map hspec.isSome_lookup hspec.left (fun k => hspec.lookup_of_new) ?_
      intro k t f r ht hf hlookup
      obtain ⟨r', hlookup', hout⟩ := hcommon hf ht
      rw [hlookup'] at hlookup
      cases hlookup
      exact (hout.2.2 fun h => hno (commonScalar_map.mpr ⟨k, t, f, ht, hf, h⟩)).2
  · rw [hall]
    have hout := hone hf ht
    rw [herror] at hout
    exact mismatch_map.mpr ⟨k, t, f, ht, hf, hout⟩

end

/-- A bound for each of finitely many is one for all of them. -/
theorem exists_bound {α : Type} {l : List α} {P : α → Nat → Prop}
    (h : ∀ a ∈ l, ∃ N, ∀ n, N ≤ n → P a n) : ∃ N, ∀ n, N ≤ n → ∀ a ∈ l, P a n := by
  induction l with
  | nil => exact ⟨0, fun _ _ a ha => absurd ha List.not_mem_nil⟩
  | cons b l ih =>
    obtain ⟨hb, hl⟩ := List.forall_mem_cons.mp h
    obtain ⟨N, hN⟩ := hb
    obtain ⟨M, hM⟩ := ih hl
    refine ⟨max N M, fun n hn => List.forall_mem_cons.mpr ⟨hN n ?_, hM n ?_⟩⟩
    · exact Nat.le_trans (Nat.le_max_left N M) hn
    · exact Nat.le_trans (Nat.le_max_right N M) hn

/-- **The merge of two maps** ends, fails only at a mismatch, and else leaves the merged map exactly if
no scalar of the first map is at a common path. -/
theorem mergeMaps_outcome {s : Value} (hs : s.WellFormed) :
    ∃ N, ∀ n, N ≤ n → ∀ ds ss, s = .map ss → (Value.map ds).WellFormed →
      Outcome (.map ds) (.map ss) ((mergeMaps n ds ss).map .map) := by
  induction hs with
  | scalar c => exact ⟨0, fun n _ ds ss h => by cases h⟩
  | sequence _ _ => exact ⟨0, fun n _ ds ss h => by cases h⟩
  | @map es hes hkeys ih =>
    obtain ⟨N, hN⟩ := exists_bound ih
    refine ⟨N + 1, fun n hn ds ss heq hd => ?_⟩
    cases heq
    obtain ⟨n, rfl⟩ := Nat.exists_eq_succ_of_ne_zero (Nat.ne_of_gt (Nat.lt_of_succ_le (Nat.le_trans
      (Nat.succ_le_succ (Nat.zero_le N)) hn)))
    refine upsertAll_outcome hd (.map hes hkeys) fun f hf t ht => ?_
    refine mergeValue_outcome (hes f hf) ht fun ts fs hts hfs => ?_
    exact hN n (Nat.le_of_succ_le_succ hn) f hf ts fs hfs (hts ▸ ht)

end Primitives.Yaml
