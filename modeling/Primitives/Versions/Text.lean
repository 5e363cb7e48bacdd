import Primitives.Versions.Quiet

/-!
# Reading a range

The constructor of `VersionRange` throws where `parse` returns nothing. Both read the text with the
generated parser, which reports a text that it does not accept. But it does not catch what the lexer and
the actions throw, so `parse` throws too where an action does, and nowhere else (`parse_reports_iff`).
-/

set_option autoImplicit false

namespace Primitives.Versions

open Lib

/-! ## The code -/

/-- What the generated parser does for a text: the actions, and then it accepts it or has an error. -/
structure Parse where
  actions : List Action
  accepted : Bool
  errorMsg : Str

/-- The code that is not part of the repository: `pystring::strip`, and the parser that is generated. -/
structure Outside where
  strip : Str → Str
  parser : Str → Parse

/-- `*` -/
def star : VersionText := ⟨[.any], List.cons_ne_nil _ _, []⟩

/-- What `*` is for them. -/
structure Outside.Documented (o : Outside) : Prop where
  strip_star : o.strip ['*'] = ['*']
  actions_star : (o.parser ['*']).actions = [.version star, .range (.version star), .andSet, .orSet]
  accepted_star : (o.parser ['*']).accepted = true

section

variable (o : Outside)

/-- `parse(vr, s)`: a range, or the text of an error. -/
def parseInto (s : Str) : Except Failure (Except Str VersionRange) :=
  if s.length > 32 * 1024 then .ok (.error "Range string length must be less than 32K".toList)
  else do
    let sets ← parseActions (o.parser s).actions
    if (o.parser s).accepted then
      match sets.orSet with
      | some vr => return .ok vr
      | none => return .error "parser error: empty result".toList
    else return .error (o.parser s).errorMsg

/-- The constructor, from a text that is stripped and not empty. -/
def constructStripped (s : Str) : Except Failure VersionRange := do
  match ← parseInto o s with
  | .ok vr => return vr
  | .error e => .error (.runtimeError ("Invalid version range: ".toList ++ s ++ ", error: ".toList ++ e))

/-- `VersionRange{"*"}` -/
def constructStar : Except Failure VersionRange := constructStripped o (o.strip ['*'])

/-- `VersionRange(s)` -/
def construct (s : Str) : Except Failure VersionRange :=
  if o.strip s = [] then constructStar o else constructStripped o (o.strip s)

/-- `VersionRange::parse(s)`, "without throw". -/
def parse (s : Str) : Except Failure (Option VersionRange) := do
  if o.strip s = [] then return some (← constructStar o)
  else
    match ← parseInto o (o.strip s) with
    | .ok vr => return some vr
    | .error _ => return none

/-- `parse` returns: nothing where the constructor throws, and else what it constructs. -/
def Reports (s : Str) : Prop :=
  ∃ r, parse o s = .ok r ∧ (r = none ↔ ∃ f, construct o s = .error f) ∧
    ∀ vr, r = some vr → construct o s = .ok vr

end

/-! ## Texts -/

section

variable {o : Outside}

theorem constructStar_ok (h : o.Documented) : ∃ vr, constructStar o = .ok vr := by
  have hsets : ∃ vr, parseActions [.version star, .range (.version star), .andSet, .orSet] =
      .ok ⟨none, none, some vr⟩ := ⟨_, rfl⟩
  obtain ⟨vr, hvr⟩ := hsets
  have hinto : parseInto o ['*'] = .ok (.ok vr) := by
    rw [parseInto, if_neg (by decide), h.actions_star, hvr, h.accepted_star]
    rfl
  refine ⟨vr, ?_⟩
  rw [constructStar, h.strip_star, constructStripped, hinto]
  rfl

theorem exists_parseInto_iff (s : Str) :
    (∃ x, parseInto o s = .ok x) ↔
      32 * 1024 < s.length ∨ (o.parser s).actions.all Action.quiet = true := by
  rw [parseInto]
  by_cases hlong : s.length > 32 * 1024
  · rw [if_pos hlong]
    exact iff_of_true ⟨_, rfl⟩ (.inl hlong)
  · rw [if_neg hlong, exists_bind_iff, ← exists_parseActions_iff, or_iff_right hlong]
    refine exists_congr fun sets => and_iff_left ?_
    cases (o.parser s).accepted with
    | false => exact ⟨_, rfl⟩
    | true => cases sets.orSet <;> exact ⟨_, rfl⟩

/-- **What `parse` reports**: all that the constructor throws, except what an action throws. -/
theorem parse_reports_iff (o : Outside) (h : o.Documented) (s : Str) :
    Reports o s ↔ o.strip s = [] ∨ 32 * 1024 < (o.strip s).length ∨
      (o.parser (o.strip s)).actions.all Action.quiet = true := by
  rw [← exists_parseInto_iff, Reports, parse, construct]
  by_cases hnil : o.strip s = []
  · rw [if_pos hnil, if_pos hnil]
    refine iff_of_true ?_ (.inl hnil)
    obtain ⟨vr, hvr⟩ := constructStar_ok h
    rw [hvr]
    refine ⟨some vr, rfl, iff_of_false (fun h => by cases h) not_exists_ok_eq_error, ?_⟩
    intro vr' h
    cases h
    rfl
  · rw [if_neg hnil, if_neg hnil, or_iff_right hnil, constructStripped]
    cases parseInto o (o.strip s) with
    | error f => exact iff_of_false (fun h => by obtain ⟨r, hr, -⟩ := h; cases hr) not_exists_error_eq_ok
    | ok x =>
      refine iff_of_true ?_ ⟨x, rfl⟩
      cases x with
      | error e => exact ⟨none, rfl, iff_of_true rfl ⟨_, rfl⟩, fun vr h => by cases h⟩
      | ok vr =>
        refine ⟨some vr, rfl, iff_of_false (fun h => by cases h) not_exists_ok_eq_error, ?_⟩
        intro vr' h
        cases h
        rfl

end

/-- `0` -/
def zero : VersionText := ⟨[.number 0 (Nat.zero_le _)], List.cons_ne_nil _ _, []⟩

/-- Blanks are stripped, and a parser reads `*` and `<0`. -/
def starAndBelowZero : Outside where
  strip s := (s.dropWhile Char.isWhitespace).rdropWhile Char.isWhitespace
  parser s :=
    if s = ['*'] then ⟨[.version star, .range (.version star), .andSet, .orSet], true, []⟩
    else if s = ['<', '0'] then
      ⟨[.number ['0'], .version zero, .range (.compare .lt zero), .andSet, .orSet], true, []⟩
    else ⟨[], false, "syntax error".toList⟩

theorem documented_starAndBelowZero : starAndBelowZero.Documented where
  strip_star := rfl
  actions_star := rfl
  accepted_star := rfl

theorem parse_reports_star : Reports starAndBelowZero [' ', '*', '\n'] :=
  (parse_reports_iff starAndBelowZero documented_starAndBelowZero _).mpr (.inr (.inr rfl))

/-- Nothing is below 0, and the exception of the pair leaves `parse`. -/
theorem parse_below_zero : starAndBelowZero.Documented ∧ ¬ Reports starAndBelowZero ['<', '0'] := by
  have hthrows : ∃ f, parse starAndBelowZero ['<', '0'] = .error f := ⟨_, rfl⟩
  obtain ⟨f, hf⟩ := hthrows
  refine ⟨documented_starAndBelowZero, ?_⟩
  rintro ⟨r, hr, -⟩
  rw [hf] at hr
  cases hr

end Primitives.Versions
