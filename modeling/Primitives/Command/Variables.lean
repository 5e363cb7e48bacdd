import Primitives.Command.Environment
import Primitives.Lib.Distinct
import Primitives.Makefile.Words

/-!
# Lists in environment variables

`appendEnvironmentArrayValue` appends to a variable those pieces of a value that it does not have yet.
What it has is looked up before the first piece is appended, so that a new piece which a value has twice
is appended twice. A variable has every piece once exactly where no value is such (`unique_iff`).

`split_string` cuts the spaces at both ends of a piece, and so does the variable with the pieces it gets.
-/

set_option autoImplicit false

namespace Primitives.Command

open Lib
open Makefile (splitString trim IsPiece)

/-! ## The code -/

/-- `delim` -/
def delim (isWindows : Bool) : Char := if isWindows then ';' else ':'

section

variable (isWindows : Bool)

/-- `add` -/
def add (e value : Str) : Str :=
  if e ≠ [] then e ++ delim isWindows :: value else value

/-- What `appendEnvironmentArrayValue` does to the variable. -/
def appendArrayValue (uniqueValues : Bool) (value e : Str) : Str :=
  if uniqueValues = false then add isWindows e value
  else
    let values := splitString e [delim isWindows]
    let inValues := splitString value [delim isWindows]
    inValues.foldl (fun e v => if values.contains v then e else add isWindows e v) e

/-- `appendEnvironmentArrayValue`; `environment[key]` is empty if it was not there. -/
def appendEnvironmentArrayValue (environment : StringMap) (key value : Str) (uniqueValues : Bool) :
    StringMap :=
  environment.update key [] (appendArrayValue isWindows uniqueValues value)

end

/-! ## One value -/

variable {isWindows : Bool}

/-- What stands between the delimiters, but for the empty pieces. -/
def pieces (isWindows : Bool) (s : Str) : Strings :=
  (s.splitOnP (· = delim isWindows)).filter (· ≠ [])

/-- What `split_string` gives. -/
def trimmedPieces (isWindows : Bool) (s : Str) : Strings := splitString s [delim isWindows]

theorem pieces_append_cons (s t : Str) :
    pieces isWindows (s ++ delim isWindows :: t) = pieces isWindows s ++ pieces isWindows t := by
  rw [pieces, pieces, pieces, List.splitOnP_append_cons s t (decide_eq_true rfl), List.filter_append]

theorem pieces_of_isPiece {v : Str} (h : IsPiece [delim isWindows] v) : pieces isWindows v = [v] := by
  have hno : ∀ c ∈ v, decide (c = delim isWindows) = false := fun c hc =>
    decide_eq_false fun heq => h.chars c hc (List.mem_singleton.mpr heq)
  rw [pieces, List.splitOnP_eq_singleton hno,
    List.filter_cons_of_pos (by exact decide_eq_true h.ne_nil), List.filter_nil]

/-- Pieces without spaces at their ends are those that `split_string` gives. -/
theorem pieces_eq_trimmedPieces {s : Str} (h : ∀ v ∈ pieces isWindows s, trim v = v) :
    pieces isWindows s = trimmedPieces isWindows s := by
  have hdelim : (fun c => decide (c ∈ [delim isWindows])) = fun c => decide (c = delim isWindows) := by
    funext c
    exact decide_eq_decide.mpr List.mem_singleton
  rw [trimmedPieces, splitString, hdelim]
  unfold pieces at h ⊢
  generalize s.splitOnP _ = l at h ⊢
  induction l with
  | nil => rfl
  | cons v l ih =>
    rw [List.map_cons]
    by_cases hv : v = []
    · subst hv
      exact ih h
    · rw [List.filter_cons_of_pos (by exact decide_eq_true hv)] at h ⊢
      obtain ⟨htrim, hl⟩ := List.forall_mem_cons.mp h
      rw [htrim, List.filter_cons_of_pos (by exact decide_eq_true hv), ih hl]

/-- **A piece is appended** as a piece, however the variable is split. -/
theorem split_add (split : Str → Strings) (hnil : split [] = [])
    (happend : ∀ s t, split (s ++ delim isWindows :: t) = split s ++ split t) {v : Str}
    (hv : split v = [v]) (e : Str) : split (add isWindows e v) = split e ++ [v] := by
  rw [add]
  split
  · rw [happend, hv]
  · rename_i hempty
    rw [not_not.mp hempty, hnil, hv, List.nil_append]

/-- **One value** brings the pieces that were not there before it. -/
theorem split_appendArrayValue (split : Str → Strings) (hnil : split [] = [])
    (happend : ∀ s t, split (s ++ delim isWindows :: t) = split s ++ split t)
    (hpiece : ∀ v, IsPiece [delim isWindows] v → split v = [v]) (value e : Str) :
    split (appendArrayValue isWindows true value e) =
      split e ++ newOf (trimmedPieces isWindows e) (trimmedPieces isWindows value) := by
  have hall : ∀ v ∈ trimmedPieces isWindows value, IsPiece [delim isWindows] v :=
    fun v => Makefile.isPiece_of_mem_splitString
  rw [appendArrayValue, if_neg Bool.noConfusion]
  dsimp only
  change split (List.foldl _ e (trimmedPieces isWindows value)) = _
  generalize trimmedPieces isWindows value = inValues at hall ⊢
  -- what the variable has is not looked up again
  change split (List.foldl (fun e' v => if (trimmedPieces isWindows e).contains v then e'
    else add isWindows e' v) e inValues) = _
  generalize trimmedPieces isWindows e = values
  induction inValues generalizing e with
  | nil => exact (List.append_nil _).symm
  | cons v vs ih =>
    obtain ⟨hv, hvs⟩ := List.forall_mem_cons.mp hall
    rw [List.foldl_cons, ih _ hvs, newOf_cons]
    by_cases hmem : v ∈ values
    · rw [if_pos (List.contains_iff_mem.mpr hmem), if_pos hmem]
    · rw [if_neg (fun h => hmem (List.contains_iff_mem.mp h)), if_neg hmem,
        split_add split hnil happend (hpiece v hv), List.append_assoc]
      rfl

/-! ## A run -/

/-- The variable after values were appended to it, in an environment that did not have it. -/
def appended (isWindows : Bool) (environment : StringMap) (key : Str) (values : Strings) : Str :=
  ((values.foldl (fun env value => appendEnvironmentArrayValue isWindows env key value true)
    environment).lookup key).getD []

theorem appended_eq {environment : StringMap} {key : Str} (h : key ∉ environment.keys)
    (values : Strings) : appended isWindows environment key values =
      values.foldl (fun e value => appendArrayValue isWindows true value e) [] := by
  have hnone : environment.lookup key = none := Option.isNone_iff_eq_none.mp
    (SortedMap.lookup_isNone.mpr h)
  induction values using List.reverseRecOn with
  | nil =>
    rw [appended, List.foldl_nil, hnone]
    rfl
  | append_singleton values value ih =>
    rw [appended, List.foldl_append, List.foldl_cons, List.foldl_nil, appendEnvironmentArrayValue,
      SortedMap.lookup_update, if_pos rfl, Option.getD_some, List.foldl_append, List.foldl_cons,
      List.foldl_nil, ← ih]
    rfl

/-- **A run** appends to the pieces what is new of each value. -/
theorem split_foldl_appendArrayValue (split : Str → Strings) (hnil : split [] = [])
    (happend : ∀ s t, split (s ++ delim isWindows :: t) = split s ++ split t)
    (hpiece : ∀ v, IsPiece [delim isWindows] v → split v = [v]) (values : Strings) :
    split (values.foldl (fun e value => appendArrayValue isWindows true value e) []) =
      (values.map (trimmedPieces isWindows)).foldl appendNew [] := by
  have htrimmed : ∀ values : Strings, trimmedPieces isWindows
      (values.foldl (fun e value => appendArrayValue isWindows true value e) []) =
        (values.map (trimmedPieces isWindows)).foldl appendNew [] := by
    intro values
    induction values using List.reverseRecOn with
    | nil => rfl
    | append_singleton values value ih =>
      have hstep := split_appendArrayValue (trimmedPieces isWindows) rfl
        (Makefile.splitString_append_cons (List.mem_singleton_self _))
        (fun v hv => hv.splitString_eq) value
        (values.foldl (fun e value => appendArrayValue isWindows true value e) [])
      rw [List.foldl_append, List.foldl_cons, List.foldl_nil, hstep, ih, List.map_append,
        List.foldl_append]
      rfl
  induction values using List.reverseRecOn with
  | nil => exact hnil
  | append_singleton values value ih =>
    rw [List.foldl_append, List.foldl_cons, List.foldl_nil,
      split_appendArrayValue split hnil happend hpiece, ih, htrimmed, List.map_append, List.foldl_append]
    rfl

/-! ## Every piece once -/

/-- The variable has every piece of every value, and none twice, in the order of their first
appearances. -/
def UniqueList (split : Str → Strings) (e : Str) (values : Strings) : Prop :=
  split e = firstAppearances (values.flatMap split)

/-- **Lists of unique values.** The variable is one exactly if no value has a piece twice that none
before it has; and where spaces at the ends of a piece are part of it, if there are none, too. -/
theorem unique_iff (isWindows : Bool) {environment : StringMap} {key : Str}
    (h : key ∉ environment.keys) (values : Strings) :
    (UniqueList (trimmedPieces isWindows) (appended isWindows environment key values) values ↔
        Fresh (values.map (trimmedPieces isWindows))) ∧
      (UniqueList (pieces isWindows) (appended isWindows environment key values) values ↔
        Fresh (values.map (trimmedPieces isWindows)) ∧
          ∀ value ∈ values, ∀ v ∈ pieces isWindows value, trim v = v) := by
  have htrimmed := split_foldl_appendArrayValue (trimmedPieces isWindows) rfl
    (Makefile.splitString_append_cons (List.mem_singleton_self _))
    (fun v hv => hv.splitString_eq) values
  have hplain := split_foldl_appendArrayValue (pieces isWindows) rfl pieces_append_cons
    (fun v => pieces_of_isPiece) values
  have hunique := foldl_appendNew_eq_iff (values.map (trimmedPieces isWindows))
  rw [← List.flatMap_def] at hunique
  unfold UniqueList
  rw [appended_eq h, htrimmed, hplain]
  refine ⟨hunique, ?_⟩
  have hsame : (∀ value ∈ values, ∀ v ∈ pieces isWindows value, trim v = v) →
      values.flatMap (pieces isWindows) = values.flatMap (trimmedPieces isWindows) := by
    intro htrim
    exact List.flatMap_congr fun value hvalue => pieces_eq_trimmedPieces (htrim value hvalue)
  constructor
  · intro heq
    have htrim : ∀ value ∈ values, ∀ v ∈ pieces isWindows value, trim v = v := by
      intro value hvalue v hv
      have hmem : v ∈ firstAppearances (values.flatMap (pieces isWindows)) :=
        mem_firstAppearances.mpr (List.mem_flatMap.mpr ⟨value, hvalue, hv⟩)
      rw [← heq, mem_foldl_appendNew, ← List.flatMap_def] at hmem
      obtain ⟨value', -, hv'⟩ := List.mem_flatMap.mp hmem
      exact (Makefile.isPiece_of_mem_splitString hv').trimmed.trim_eq
    exact ⟨hunique.mp (heq.trans (congrArg _ (hsame htrim))), htrim⟩
  · rintro ⟨hfresh, htrim⟩
    rw [hunique.mpr hfresh, hsame htrim]

/-- Two values with a piece in common. -/
theorem unique_iff_common :
    UniqueList (trimmedPieces false) (appended false .empty ['p'] [['a', ':', 'b'], ['b', ':', 'c']])
      [['a', ':', 'b'], ['b', ':', 'c']] :=
  (unique_iff false List.not_mem_nil _).1.mpr ((nodup_foldl_appendNew_iff _).mp (by decide))

/-- A value with a piece twice. -/
theorem not_unique : ¬ ∀ (environment : StringMap) (key : Str) (values : Strings),
    key ∉ environment.keys →
      UniqueList (trimmedPieces false) (appended false environment key values) values := by
  intro hall
  have hunique := hall .empty ['p'] [['a', ':', 'a']] List.not_mem_nil
  have happended : appended false .empty ['p'] [['a', ':', 'a']] = ['a', ':', 'a'] := by decide
  rw [happended] at hunique
  exact absurd hunique (by unfold UniqueList; decide)

end Primitives.Command
