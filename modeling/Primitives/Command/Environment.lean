import Mathlib.Algebra.Order.BigOperators.Group.List
import Mathlib.Algebra.Order.Ring.Nat
import Mathlib.Data.Char
import Mathlib.Data.List.Lex
import Mathlib.Data.List.Nodup
import Primitives.Basic
import Primitives.Lib.SortedMap

/-!
# The environment of a command

`UvCommand` puts the parent's variables and those of the command into one map, and gives the map to
the new process. The parent's variables are put there whenever the command has variables of its own,
and `inherit_current_evironment` is asked only when there are none. So a command that has variables and
is not to inherit any inherits them all the same (`environment_iff`).
-/

set_option autoImplicit false

namespace Primitives.Command

open Lib

/-! ## The code -/

abbrev StringMap := SortedMap Str Str

/-- What `UvCommand` reads of a command for the environment. -/
structure Settings where
  inherit_current_evironment : Bool
  environment : StringMap

/-- `s.substr(0, s.find('='))` and `s.substr(s.find('=') + 1)`. Both are the string itself where there
is no `=`: `npos + 1` is 0. -/
def splitVariable (s : Str) : Str × Str :=
  match s.findIdx? (· = '=') with
  | some i => (s.take i, s.drop (i + 1))
  | none => (s, s)

/-- `env_map`, for the strings of `environ`. -/
def envMap (environ : Strings) (c : Settings) : StringMap :=
  let env_map : StringMap :=
    if c.environment.entries.isEmpty then .empty
    else environ.foldl (fun m s => m.insert (splitVariable s).1 (splitVariable s).2) .empty
  c.environment.entries.foldl (fun m x => m.insert x.1 x.2) env_map

/-- `k + "=" + v` -/
def assignment (x : Str × Str) : Str := x.1 ++ '=' :: x.2

/-- The C string that stands where `e.data()` points to. -/
def cString (s : Str) : Str := s.takeWhile (· ≠ '\x00')

/-- `options.env` without the null pointer at its end, or `none` if it is left null. -/
def optionsEnv (environ : Strings) (c : Settings) : Option Strings :=
  let env := (envMap environ c).entries.map fun x => cString (assignment x)
  if !env.isEmpty || !c.inherit_current_evironment then some env else none

/-- The strings of the environment of the new process. -/
def childEnviron (environ : Strings) (c : Settings) : Strings := (optionsEnv environ c).getD environ

/-! ## Environments -/

/-- An environment: names and their values. A name has no `=`, and nothing has a zero byte. -/
structure Environment where
  vars : List (Str × Str)
  nodup : (vars.map Prod.fst).Nodup
  name_no_eq : ∀ x ∈ vars, '=' ∉ x.1
  no_zero : ∀ x ∈ vars, '\x00' ∉ assignment x

/-- The strings of an environment. -/
def Environment.environ (e : Environment) : Strings := e.vars.map assignment

/-- The variables that a command is to have: its own ones, and those of the parent that it does not
have itself if it inherits them. -/
def intended (e : Environment) (c : Settings) : List (Str × Str) :=
  c.environment.entries ++
    if c.inherit_current_evironment then e.vars.filter fun x => (c.environment.lookup x.1).isNone else []

theorem splitVariable_assignment {x : Str × Str} (h : '=' ∉ x.1) : splitVariable (assignment x) = x := by
  have hfind : (assignment x).findIdx? (· = '=') = some x.1.length := by
    rw [assignment, List.findIdx?_append, List.findIdx?_eq_none_iff.mpr]
    · simp [List.findIdx?_cons]
    · intro c hc
      exact decide_eq_false fun heq => h (heq ▸ hc)
  rw [splitVariable, hfind]
  simp [assignment]

/-- **The map is the command's environment laid over the parent's**, if the command has variables. -/
theorem envMap_perm (e : Environment) {c : Settings} (hc : c.environment.entries ≠ []) :
    (envMap e.environ c).entries.Perm
      (c.environment.entries ++ e.vars.filter fun x => (c.environment.lookup x.1).isNone) := by
  have hparent : e.environ.foldl (fun m s => m.insert (splitVariable s).1 (splitVariable s).2)
      (.empty : StringMap) = e.vars.foldl (fun m x => m.insert x.1 x.2) .empty := by
    rw [Environment.environ, List.foldl_map]
    refine List.foldl_ext _ _ _ fun m x hx => ?_
    rw [splitVariable_assignment (e.name_no_eq x hx)]
  have hdisjoint : ∀ x ∈ c.environment.entries,
      x ∉ e.vars.filter fun x => (c.environment.lookup x.1).isNone := by
    intro x hx hmem
    exact SortedMap.lookup_isNone.mp (List.mem_filter.mp hmem).2 (List.mem_map_of_mem hx)
  have hnodup : (c.environment.entries ++
      e.vars.filter fun x => (c.environment.lookup x.1).isNone).Nodup :=
    List.nodup_append'.mpr ⟨c.environment.nodup_entries, (List.Nodup.of_map _ e.nodup).filter _, hdisjoint⟩
  refine (List.perm_ext_iff_of_nodup (envMap e.environ c).nodup_entries hnodup).mpr fun x => ?_
  have hlookup : (envMap e.environ c).lookup x.1 = (c.environment.lookup x.1).or
      ((e.vars.foldl (fun m x => m.insert x.1 x.2) (.empty : StringMap)).lookup x.1) := by
    rw [envMap, if_neg (by simpa using hc), hparent, SortedMap.lookup_foldl_insert_entries]
  rw [SortedMap.mem_entries_iff, hlookup, SortedMap.lookup_foldl_insert _ e.nodup,
    SortedMap.lookup_empty, Option.or_none, List.mem_append, List.mem_filter, SortedMap.mem_entries_iff,
    ← SortedMap.find?_eq_some_iff_nodup e.nodup]
  cases c.environment.lookup x.1 <;> simp

/-- **C strings.** Strings are themselves as C strings if no zero byte is in them. A string with one is
cut, so that the lengths tell. -/
theorem map_cString_perm_iff (l : Strings) : (l.map cString).Perm l ↔ ∀ s ∈ l, '\x00' ∉ s := by
  have hle : ∀ s : Str, (cString s).length ≤ s.length := fun s => (List.takeWhile_prefix _).length_le
  constructor
  · intro h s hs hzero
    have hlt : (cString s).length < s.length := by
      refine lt_of_le_of_ne (hle s) fun heq => ?_
      have hself : cString s = s := (List.takeWhile_prefix _).eq_of_length heq
      exact absurd rfl (of_decide_eq_true (List.takeWhile_eq_self_iff.mp hself _ hzero))
    have hsum : (l.map fun s => (cString s).length).sum < (l.map List.length).sum :=
      List.sum_lt_sum _ _ (fun s _ => hle s) ⟨s, hs, hlt⟩
    have heq := (h.map List.length).sum_eq
    rw [List.map_map] at heq
    exact absurd heq hsum.ne
  · intro h
    have hself : l.map cString = l.map id :=
      List.map_congr_left fun s hs => List.takeWhile_eq_self_iff.mpr fun c hc =>
        decide_eq_true fun heq => h s hs (heq ▸ hc)
    rw [hself, List.map_id]

/-- The parent's variables are merged where they are not to be. -/
def Merged (e : Environment) (c : Settings) : Prop :=
  c.inherit_current_evironment = false ∧ c.environment.entries ≠ [] ∧
    ∃ x ∈ e.vars, x.1 ∉ c.environment.keys

/-- A command without variables gets the parent's environment, or none. -/
theorem childEnviron_of_empty (e : Environment) {c : Settings} (hc : c.environment.entries = []) :
    childEnviron e.environ c = (intended e c).map assignment := by
  have hempty : (envMap e.environ c).entries = [] := by
    simp [envMap, hc, SortedMap.empty]
  have hlookup : ∀ k, c.environment.lookup k = none := by
    simp [SortedMap.lookup, hc]
  cases hinherit : c.inherit_current_evironment with
  | false => simp [childEnviron, optionsEnv, hempty, hinherit, intended, hc]
  | true =>
    rw [Environment.environ] at hempty
    simp [childEnviron, optionsEnv, hempty, hinherit, intended, hc, hlookup, Environment.environ]

theorem envMap_ne_nil (e : Environment) {c : Settings} (hc : c.environment.entries ≠ []) :
    (envMap e.environ c).entries ≠ [] := by
  intro hnil
  have hperm := envMap_perm e hc
  rw [hnil] at hperm
  exact hc (List.append_eq_nil_iff.mp hperm.nil_eq.symm).1

theorem childEnviron_eq (e : Environment) {c : Settings} (hc : c.environment.entries ≠ []) :
    childEnviron e.environ c = ((envMap e.environ c).entries.map assignment).map cString := by
  simp [childEnviron, optionsEnv, envMap_ne_nil e hc]

/-- Otherwise it gets the strings of the map, in another order, if C can have them. -/
theorem childEnviron_perm_iff (e : Environment) {c : Settings} (hc : c.environment.entries ≠ [])
    {l : List (Str × Str)} (hl : (envMap e.environ c).entries.Perm l) :
    (childEnviron e.environ c).Perm (l.map assignment) ↔ ∀ x ∈ l, '\x00' ∉ assignment x := by
  rw [childEnviron_eq e hc, ((hl.map assignment).map cString).congr_left, map_cString_perm_iff]
  simp only [List.forall_mem_map]

/-- **The environment of a command** is the intended one, if and only if the parent's variables are not
merged against the flag, and the command's own ones are strings that C can have. -/
theorem environment_iff (e : Environment) (c : Settings) :
    (childEnviron e.environ c).Perm ((intended e c).map assignment) ↔
      ¬ Merged e c ∧ ∀ x ∈ c.environment.entries, '\x00' ∉ assignment x := by
  by_cases hc : c.environment.entries = []
  · rw [childEnviron_of_empty e hc]
    exact iff_of_true (List.Perm.refl _) ⟨fun h => h.2.1 hc, by simp [hc]⟩
  have hperm := envMap_perm e hc
  cases hinherit : c.inherit_current_evironment with
  | true =>
    have hmerged : ¬ Merged e c := fun h => Bool.false_ne_true (h.1.symm.trans hinherit)
    rw [intended, hinherit, if_pos rfl, childEnviron_perm_iff e hc hperm, and_iff_right hmerged]
    constructor
    · exact fun h x hx => h x (List.mem_append_left _ hx)
    · intro h x hx
      rcases List.mem_append.mp hx with hx | hx
      · exact h x hx
      · exact e.no_zero x (List.mem_filter.mp hx).1
  | false =>
    rw [intended, hinherit, if_neg Bool.false_ne_true, List.append_nil]
    by_cases hmore : e.vars.filter (fun x => (c.environment.lookup x.1).isNone) = []
    · rw [hmore, List.append_nil] at hperm
      have hmerged : ¬ Merged e c := by
        rintro ⟨-, -, x, hx, hkey⟩
        exact List.filter_eq_nil_iff.mp hmore x hx (SortedMap.lookup_isNone.mpr hkey)
      rw [childEnviron_perm_iff e hc hperm, and_iff_right hmerged]
    · -- there are more strings than variables of the command
      refine iff_of_false (fun h => hmore ?_) fun h => h.1 ⟨hinherit, hc, ?_⟩
      · have hlen := h.length_eq
        rw [childEnviron_eq e hc, List.length_map, List.length_map, List.length_map, hperm.length_eq,
          List.length_append] at hlen
        exact List.length_eq_zero_iff.mp (by omega)
      · obtain ⟨x, hx⟩ := List.exists_mem_of_ne_nil _ hmore
        obtain ⟨hx, hkey⟩ := List.mem_filter.mp hx
        exact ⟨x, hx, SortedMap.lookup_isNone.mp hkey⟩

/-- A parent with a variable `A`. -/
def parentA : Environment :=
  ⟨[(['A'], ['1'])], by decide, by decide, by decide⟩

/-- A command with a variable `B` that is not to inherit any. -/
def commandB : Settings := ⟨false, ⟨[(['B'], ['2'])], List.pairwise_singleton _ _⟩⟩

/-- The new process has both. -/
theorem environment_merged : childEnviron parentA.environ commandB = [['A', '=', '1'], ['B', '=', '2']] ∧
    ¬ (childEnviron parentA.environ commandB).Perm ((intended parentA commandB).map assignment) := by
  have hchild : childEnviron parentA.environ commandB = [['A', '=', '1'], ['B', '=', '2']] := by
    decide
  refine ⟨hchild, fun h => ?_⟩
  rw [hchild] at h
  exact absurd h.length_eq (by decide)

end Primitives.Command
