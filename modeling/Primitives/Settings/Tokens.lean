import Primitives.Settings.Quoted
import Primitives.Settings.Scanner

/-!
# Native settings — tokens of a text

What a piece of a text gives, whatever stands behind it. In each start condition a character is the
first one of few rules (`candidates`), mostly of one besides the rule for any character, so the match
is what this one rule can take (`tokens_one`).

Outside of strings it does not matter what the last string was (`tokens_str`), and at the end of a
line a value ends (`LineEnd.tokens_value`).
-/

set_option autoImplicit false

namespace Primitives.Settings.Native

open Lib RegularExpression
open SettingPath (byte classOf isCntrl isBare mem_classOf mem_filter_bytes mem_star_classOf)

/-! ## The rules for a character -/

/-- The rules whose matches can begin with the character. -/
def candidates (cond : Condition) (c : UInt8) : List Rule :=
  (rules cond).filter fun q => canBegin q.regex c

theorem canBegin_classOf (p : UInt8 → Bool) (c : UInt8) : canBegin (classOf p) c = p c := by
  simp only [classOf, canBegin_oneOf, mem_filter_bytes, Bool.decide_eq_true]

/-- Only one rule, and the one for any character, can begin with it. -/
theorem candidates_eq {cond : Condition} {c : UInt8} {r : Rule}
    (h : ∀ q ∈ rules cond, canBegin q.regex c = decide (q = r ∨ q = .any))
    (hr : (rules cond).filter (fun q => q = r ∨ q = .any) = [r, .any]) :
    candidates cond c = [r, .any] := (List.filter_congr h).trans hr

theorem mem_any {s : Bytes} (h : s ∈ Rule.any.regex.matches') : s.length = 1 := by
  obtain ⟨c, -, rfl⟩ := mem_classOf.mp h
  rfl

/-- **One token**: nothing but the rule `r`, and the one for any character, can begin so. -/
theorem tokens_one (st : LexState) {c : UInt8} {w t : Bytes} {r : Rule}
    (hcand : candidates st.cond c = [r, .any]) (hw : c :: w ∈ r.regex.matches')
    (hmore : ∀ v ≠ [], v <+: t → c :: w ++ v ∉ r.regex.matches') :
    lexer.tokens st (c :: w ++ t) =
      (r.action (c :: w) st).1.toList ++ lexer.tokens (r.action (c :: w) st).2 t := by
  have hmunch : munch Rule.regex (candidates st.cond c) (c :: w ++ t) = some (r, c :: w, t) := by
    rw [hcand]
    refine munch_append (List.cons_ne_nil c w) (firstMatch_cons_of_mem hw) fun v hv hpre q hq h => ?_
    rcases List.mem_cons.mp hq with rfl | hq
    · exact hmore v hv hpre h
    · rw [List.mem_singleton.mp hq] at h
      have hlen := mem_any h
      have hpos := List.length_pos_of_ne_nil hv
      rw [List.length_append, List.length_cons] at hlen
      omega
  have hfilter := munch_filter Rule.regex (rules st.cond) c (w ++ t)
  exact Lexer.tokens_of_munch lexer (hfilter.symm.trans hmunch)

/-- A rule for one text. -/
theorem tokens_word {st : LexState} {c : UInt8} {r : Rule} (t : Bytes)
    (hcand : candidates st.cond c = [r, .any]) (hr : r.regex = word [c]) :
    lexer.tokens st (c :: t) =
      (r.action [c] st).1.toList ++ lexer.tokens (r.action [c] st).2 t := by
  refine tokens_one st (w := []) hcand ?_ fun v hv _ h => ?_
  · rw [hr]
    exact mem_word.mpr rfl
  · rw [hr] at h
    exact hv (List.cons.inj (mem_word.mp h)).2.symm

/-- A character that begins nothing. -/
theorem tokens_error {st : LexState} {c : UInt8} (t : Bytes) (hcand : candidates st.cond c = [.any]) :
    lexer.tokens st (c :: t) = .errorSymbol :: lexer.tokens st t := by
  have hmunch : munch Rule.regex (candidates st.cond c) ([c] ++ t) = some (.any, [c], t) := by
    rw [hcand]
    refine munch_append (List.cons_ne_nil c [])
      (firstMatch_cons_of_mem (mem_classOf.mpr ⟨c, rfl, rfl⟩)) fun v hv _ q hq h => ?_
    rw [List.mem_singleton.mp hq] at h
    have hlen := mem_any h
    have hpos := List.length_pos_of_ne_nil hv
    rw [List.length_append, List.length_singleton] at hlen
    omega
  have hfilter := munch_filter Rule.regex (rules st.cond) c t
  exact Lexer.tokens_of_munch lexer (hfilter.symm.trans hmunch)

/-- A class of characters does not go on behind them. -/
def StopsAt (p : UInt8 → Bool) (t : Bytes) : Prop := ∀ c ∈ t.head?, p c = false

theorem StopsAt.of_prefix {p : UInt8 → Bool} {t v : Bytes} (h : StopsAt p t) (hv : v ≠ [])
    (hpre : v <+: t) : ∃ c ∈ v, p c = false := by
  obtain ⟨c, v, rfl⟩ := List.exists_cons_of_ne_nil hv
  obtain ⟨t', rfl⟩ := hpre
  exact ⟨c, List.mem_cons_self, h c rfl⟩

/-! ## Bare words, blanks and delimiters -/

/-- The start conditions of keys. -/
def KeyCondition (c : Condition) : Prop := c = .initial ∨ c = .key ∨ c = .inlineTable

theorem candidates_bare {cond : Condition} (hcond : KeyCondition cond) {c : UInt8}
    (hc : isBare c = true) : candidates cond c = [.bare, .any] := by
  have hne : ∀ d, isBare d = false → ¬ c = d := by
    rintro d hd rfl
    rw [hd] at hc
    cases hc
  rcases hcond with rfl | rfl | rfl
  all_goals
    refine candidates_eq ?_ (by decide)
    simp (disch := decide) [rules, Rule.regex, ascii, lineEnd, blank, canBegin_classOf, hc, hne]

/-- A bare part of a key. -/
structure Word where
  text : Bytes
  ne_nil : text ≠ []
  chars : ∀ c ∈ text, isBare c = true

theorem Word.tokens (w : Word) {st : LexState} (hcond : KeyCondition st.cond) {t : Bytes}
    (ht : StopsAt isBare t) : lexer.tokens st (w.text ++ t) =
      .bareString w.text ::
        lexer.tokens (if st.cond = .initial then st.push .key else st) t := by
  obtain ⟨c, s, hw⟩ := List.exists_cons_of_ne_nil w.ne_nil
  have hchars := w.chars
  rw [hw] at hchars ⊢
  refine tokens_one st (candidates_bare hcond (hchars c List.mem_cons_self))
    (mem_star_classOf.mpr hchars) fun v hv hpre h => ?_
  obtain ⟨d, hd, hno⟩ := ht.of_prefix hv hpre
  have hyes := mem_star_classOf.mp h d (List.mem_append_right _ hd)
  rw [hno] at hyes
  cases hyes

def isBlank (c : UInt8) : Bool := c = byte ' ' || c = byte '\t'

theorem mem_star_blank {s : Bytes} :
    s ∈ (star blank).matches' ↔ ∀ c ∈ s, isBlank c = true := by
  rw [blank, mem_star_oneOf]
  simp [isBlank]

theorem mem_space {s : Bytes} (h : s ∈ Rule.space.regex.matches') : ∀ c ∈ s, isBlank c = true := by
  obtain ⟨a, ha, b, hb, rfl⟩ := mem_comp.mp h
  obtain ⟨c, hc, rfl⟩ := mem_oneOf.mp ha
  intro d hd
  rcases List.mem_append.mp hd with hd | hd
  · rw [List.mem_singleton.mp hd]
    simpa [isBlank] using hc
  · exact mem_star_blank.mp hb d hd

theorem space_mem {c : UInt8} {s : Bytes} (h : ∀ d ∈ c :: s, isBlank d = true) :
    c :: s ∈ Rule.space.regex.matches' := by
  refine mem_comp.mpr ⟨[c], mem_oneOf.mpr ⟨c, ?_, rfl⟩, s, mem_star_blank.mpr ?_, rfl⟩
  · simpa [isBlank] using h c List.mem_cons_self
  · exact fun d hd => h d (List.mem_cons_of_mem c hd)

/-- Where blanks are skipped. -/
def SkipsBlanks (c : Condition) : Prop := KeyCondition c ∨ c = .value

theorem candidates_blank {cond : Condition} (hcond : SkipsBlanks cond) {c : UInt8}
    (hc : isBlank c = true) : candidates cond c = [.space, .any] := by
  have hall : ∀ cond ∈ [Condition.initial, .key, .inlineTable, .value],
      candidates cond (byte ' ') = [.space, .any] ∧ candidates cond (byte '\t') = [.space, .any] := by
    decide +kernel
  have hmem : cond ∈ [Condition.initial, .key, .inlineTable, .value] := by
    rcases hcond with (rfl | rfl | rfl) | rfl <;> decide
  rcases Bool.or_eq_true_iff.mp hc with h | h
  · rw [of_decide_eq_true h]
    exact (hall cond hmem).1
  · rw [of_decide_eq_true h]
    exact (hall cond hmem).2

/-- Blanks give no token. -/
theorem tokens_blanks {st : LexState} (hcond : SkipsBlanks st.cond) {s t : Bytes}
    (hs : ∀ c ∈ s, isBlank c = true) (ht : StopsAt isBlank t) :
    lexer.tokens st (s ++ t) = lexer.tokens st t := by
  cases s with
  | nil => rfl
  | cons c s =>
    refine tokens_one st (candidates_blank hcond (hs c List.mem_cons_self)) (space_mem hs)
      fun v hv hpre h => ?_
    obtain ⟨d, hd, hno⟩ := ht.of_prefix hv hpre
    have hyes := mem_space h d (List.mem_append_right _ hd)
    rw [hno] at hyes
    cases hyes

theorem candidates_equals {cond : Condition} (hcond : KeyCondition cond) :
    candidates cond (byte '=') = [.delimiter, .any] := by
  rcases hcond with rfl | rfl | rfl <;> decide +kernel

/-- `=` and the blanks behind it. -/
theorem tokens_equals {st : LexState} (hcond : KeyCondition st.cond) {s t : Bytes}
    (hs : ∀ c ∈ s, isBlank c = true) (ht : StopsAt isBlank t) :
    lexer.tokens st (byte '=' :: s ++ t) = .kvDelimeter ::
      lexer.tokens ((if st.cond = .key then st.pop else st).push .value) t := by
  refine tokens_one st (candidates_equals hcond) ?_ fun v hv hpre h => ?_
  · refine mem_comp.mpr ⟨[byte '='], mem_oneOf.mpr ⟨_, List.mem_cons_self, rfl⟩, s, ?_, rfl⟩
    exact mem_star_blank.mpr hs
  · obtain ⟨a, ha, b, hb, heq⟩ := mem_comp.mp h
    obtain ⟨e, -, rfl⟩ := mem_oneOf.mp ha
    obtain ⟨-, rfl⟩ := List.cons.inj heq
    obtain ⟨d, hd, hno⟩ := ht.of_prefix hv hpre
    have hyes := mem_star_blank.mp hb d (List.mem_append_right _ hd)
    rw [hno] at hyes
    cases hyes

/-! ## Single characters -/

theorem tokens_point {st : LexState} (hcond : st.cond = .key) (t : Bytes) :
    lexer.tokens st (byte '.' :: t) = .point :: lexer.tokens st t := by
  refine tokens_word (r := .point) t ?_ rfl
  rw [hcond]
  decide +kernel

theorem tokens_leftCurly {st : LexState} (hcond : st.cond = .value) (t : Bytes) :
    lexer.tokens st (byte '\x7b' :: t) =
      .leftCurlyBracket :: lexer.tokens (st.push .inlineTable) t := by
  refine tokens_word (r := .inlineTable) t ?_ rfl
  rw [hcond]
  decide +kernel

theorem tokens_rightCurly {st : LexState} (hcond : st.cond = .inlineTable) (t : Bytes) :
    lexer.tokens st (byte '\x7d' :: t) = .rightCurlyBracket :: lexer.tokens st.pop t := by
  refine tokens_word (r := .inlineTableEnd) t ?_ rfl
  rw [hcond]
  decide +kernel

theorem tokens_comma {st : LexState} (hcond : st.cond = .inlineTable) (t : Bytes) :
    lexer.tokens st (byte ',' :: t) = .comma :: lexer.tokens st t := by
  refine tokens_word (r := .comma) t ?_ rfl
  rw [hcond]
  decide +kernel

/-! ## Strings -/

/-- A text in quotes. Whatever stands behind it, the lexer reads the string `value` of it. -/
structure Quoted where
  content : Bytes
  value : Bytes
  start : content.head? ≠ some (byte '"')
  reads : ∀ stack str rest, lexer.tokens ⟨.basic :: stack, str⟩ (content ++ byte '"' :: rest) =
    .basicString (str ++ value) :: lexer.tokens (LexState.finish ⟨.basic :: stack, str ++ value⟩) rest

def Quoted.text (q : Quoted) : Bytes := byte '"' :: (q.content ++ [byte '"'])

/-- Where a string can begin. -/
def StringCondition (c : Condition) : Prop := c = .initial ∨ c = .key ∨ c = .value

theorem candidates_quote {cond : Condition} (hcond : StringCondition cond) :
    candidates cond (byte '"') = [.startBasic, .startMultilineBasic, .any] := by
  rcases hcond with rfl | rfl | rfl <;> decide +kernel

/-- **A string**, in front of something that is no quote. -/
theorem Quoted.tokens (q : Quoted) {st : LexState} (hcond : StringCondition st.cond) {t : Bytes}
    (ht : t.head? ≠ some (byte '"')) : lexer.tokens st (q.text ++ t) =
      .startBasicString :: .basicString q.value ::
        lexer.tokens (LexState.finish ⟨.basic :: st.stack, q.value⟩) t := by
  have htext : q.text ++ t = byte '"' :: (q.content ++ byte '"' :: t) := by simp [Quoted.text]
  have hmulti : ∀ s : Bytes, s ∈ Rule.startMultilineBasic.regex.matches' →
      ∃ s', s = byte '"' :: byte '"' :: byte '"' :: s' := by
    intro s hs
    obtain ⟨a, ha, b, -, rfl⟩ := mem_comp.mp hs
    obtain rfl := mem_word.mp ha
    exact ⟨b, rfl⟩
  have hone : ∀ v ≠ [], v <+: q.content ++ byte '"' :: t →
      [byte '"'] ++ v ∉ Rule.startMultilineBasic.regex.matches' := by
    intro v hv hpre hmem
    obtain ⟨s', hs'⟩ := hmulti _ hmem
    obtain rfl : v = byte '"' :: byte '"' :: s' := (List.cons.inj hs').2
    have hstart := q.start
    revert hpre hstart
    cases q.content with
    | nil =>
      intro hpre _
      obtain ⟨-, hpre⟩ := List.cons_prefix_cons.mp hpre
      obtain ⟨t', rfl⟩ := hpre
      exact ht rfl
    | cons c content =>
      intro hpre hstart
      obtain ⟨rfl, -⟩ := List.cons_prefix_cons.mp hpre
      exact hstart rfl
  have hmunch : munch Rule.regex (candidates st.cond (byte '"'))
      ([byte '"'] ++ (q.content ++ byte '"' :: t)) =
      some (.startBasic, [byte '"'], q.content ++ byte '"' :: t) := by
    rw [candidates_quote hcond]
    refine munch_append (List.cons_ne_nil _ _) (firstMatch_cons_of_mem (mem_word.mpr rfl))
      fun v hv hpre r hr h => ?_
    rcases List.mem_cons.mp hr with rfl | hr
    · exact hv (List.cons.inj (mem_word.mp h)).2.symm
    rcases List.mem_cons.mp hr with rfl | hr
    · exact hone v hv hpre h
    · rw [List.mem_singleton.mp hr] at h
      have hlen := mem_any h
      have hpos := List.length_pos_of_ne_nil hv
      rw [List.length_append, List.length_singleton] at hlen
      omega
  have hfilter := munch_filter Rule.regex (rules st.cond) (byte '"') (q.content ++ byte '"' :: t)
  rw [htext]
  refine (Lexer.tokens_of_munch lexer (hfilter.symm.trans hmunch)).trans ?_
  exact congrArg (Token.startBasicString :: ·) (q.reads st.stack [] t)

/-- A text of ordinary characters. -/
def Quoted.plain (s : Bytes)
    (hs : ∀ c ∈ s, isCntrl c = false ∧ c ≠ byte '"' ∧ c ≠ byte '\\') : Quoted where
  content := s
  value := s
  start := by
    intro h
    exact (hs _ (List.mem_of_head? h)).2.1 rfl
  reads := by
    have hend : candidates .basic (byte '"') = [.endBasic, .any] := by decide +kernel
    intro stack str rest
    induction s generalizing str with
    | nil =>
      rw [List.append_nil]
      exact tokens_word (r := .endBasic) rest hend rfl
    | cons c s ih =>
      obtain ⟨hc, hs⟩ := List.forall_mem_cons.mp hs
      have hcand : candidates .basic c = [.basicChar, .any] := by
        refine candidates_eq ?_ (by decide)
        simp [rules, Rule.regex, ascii, canBegin_classOf, hc]
      have hchar : [c] ∈ Rule.basicChar.regex.matches' :=
        mem_classOf.mpr ⟨c, by simp [hc.1, hc.2.1], rfl⟩
      have hone := tokens_one ⟨.basic :: stack, str⟩ (w := []) (t := s ++ byte '"' :: rest)
        hcand hchar fun v hv _ h => by
          obtain ⟨d, -, heq⟩ := mem_classOf.mp h
          exact hv (List.cons.inj heq).2.symm
      refine hone.trans ((ih hs (str ++ [c])).trans ?_)
      rw [List.append_assoc]
      rfl

/-! ## The last string -/

/-- Outside of strings. -/
def Condition.Plain (c : Condition) : Prop :=
  c ≠ .basic ∧ c ≠ .literal ∧ c ≠ .multilineBasic ∧ c ≠ .multilineLiteral

instance (c : Condition) : Decidable c.Plain := inferInstanceAs (Decidable (_ ∧ _))

def PlainStack (stack : List Condition) : Prop := ∀ c ∈ stack, c.Plain

theorem PlainStack.nil : PlainStack [] := fun _ hc => absurd hc List.not_mem_nil

theorem PlainStack.tail {stack : List Condition} (h : PlainStack stack) : PlainStack stack.tail :=
  fun c hc => h c (List.mem_of_mem_tail hc)

theorem PlainStack.push {stack : List Condition} (h : PlainStack stack) {c : Condition}
    (hc : c.Plain) : PlainStack (c :: stack) := List.forall_mem_cons.mpr ⟨hc, h⟩

theorem PlainStack.cond {stack : List Condition} (h : PlainStack stack) (str : Bytes) :
    (LexState.cond ⟨stack, str⟩).Plain := by
  cases stack with
  | nil => exact (by decide : Condition.initial.Plain)
  | cons c stack => exact h c List.mem_cons_self

/-- The rules of strings. -/
def Rule.inString : Rule → Bool
  | .basicChar | .escape | .codePoint4 | .codePoint8 | .endBasic | .multilineNewline
  | .multilineQuote | .lineContinuation | .endMultilineBasic | .literalChars | .literalTab
  | .endLiteral | .multilineApostrophe | .endMultilineLiteral => true
  | _ => false

theorem inString_of_plain {cond : Condition} (hcond : cond.Plain) :
    ∀ r ∈ rules cond, r.inString = false := by
  obtain ⟨hbasic, hliteral, hmultilineBasic, hmultilineLiteral⟩ := hcond
  cases cond with
  | basic => exact absurd rfl hbasic
  | literal => exact absurd rfl hliteral
  | multilineBasic => exact absurd rfl hmultilineBasic
  | multilineLiteral => exact absurd rfl hmultilineLiteral
  | _ => decide

/-- **Outside of strings** an action goes on outside of them with the string as it was, or begins a
new one. -/
theorem action_str {r : Rule} (hr : r.inString = false) (w : Bytes) {stack : List Condition}
    (hplain : PlainStack stack) :
    (∃ tok stack', PlainStack stack' ∧
      ∀ str, r.action w ⟨stack, str⟩ = (tok, ⟨stack', str⟩)) ∨
      ∃ x, ∀ str, r.action w ⟨stack, str⟩ = x := by
  have hcond : ∀ str, LexState.cond ⟨stack, str⟩ = stack.headD .initial := fun _ => rfl
  cases r with
  | newline =>
    by_cases htable : stack.headD .initial = .table
    · exact .inl ⟨none, stack.tail, hplain.tail, fun str => by
        rw [Rule.action, hcond, if_pos htable, LexState.pop]⟩
    · exact .inl ⟨none, stack, hplain, fun str => by rw [Rule.action, hcond, if_neg htable]⟩
  | bare =>
    by_cases hinitial : stack.headD .initial = .initial
    · exact .inl ⟨_, .key :: stack, hplain.push (by decide), fun str => by
        rw [Rule.action, hcond, if_pos hinitial, LexState.push]⟩
    · exact .inl ⟨_, stack, hplain, fun str => by rw [Rule.action, hcond, if_neg hinitial]⟩
  | delimiter =>
    by_cases hkey : stack.headD .initial = .key
    · exact .inl ⟨_, .value :: stack.tail, hplain.tail.push (by decide), fun str => by
        rw [Rule.action, hcond, if_pos hkey, LexState.push, LexState.pop]⟩
    · exact .inl ⟨_, .value :: stack, hplain.push (by decide), fun str => by
        rw [Rule.action, hcond, if_neg hkey, LexState.push]⟩
  | table => exact .inl ⟨_, _, (hplain.push (by decide)).push (by decide), fun _ => rfl⟩
  | array => exact .inl ⟨_, _, hplain.push (by decide), fun _ => rfl⟩
  | inlineTable => exact .inl ⟨_, _, hplain.push (by decide), fun _ => rfl⟩
  | keyEnd => exact .inl ⟨_, _, hplain.tail, fun _ => rfl⟩
  | integer q => exact .inl ⟨_, _, hplain.tail, fun _ => rfl⟩
  | float => exact .inl ⟨_, _, hplain.tail, fun _ => rfl⟩
  | bool b => exact .inl ⟨_, _, hplain.tail, fun _ => rfl⟩
  | arrayEnd => exact .inl ⟨_, _, hplain.tail, fun _ => rfl⟩
  | valueNewline => exact .inl ⟨_, _, hplain.tail, fun _ => rfl⟩
  | bareRhs => exact .inl ⟨_, _, hplain.tail, fun _ => rfl⟩
  | inlineTableEnd => exact .inl ⟨_, _, hplain.tail, fun _ => rfl⟩
  | comment => exact .inl ⟨_, _, hplain, fun _ => rfl⟩
  | space => exact .inl ⟨_, _, hplain, fun _ => rfl⟩
  | point => exact .inl ⟨_, _, hplain, fun _ => rfl⟩
  | comma => exact .inl ⟨_, _, hplain, fun _ => rfl⟩
  | arrayNewline => exact .inl ⟨_, _, hplain, fun _ => rfl⟩
  | any => exact .inl ⟨_, _, hplain, fun _ => rfl⟩
  | startBasic => exact .inr ⟨Rule.startBasic.action w ⟨stack, []⟩, fun _ => rfl⟩
  | startMultilineBasic => exact .inr ⟨Rule.startMultilineBasic.action w ⟨stack, []⟩, fun _ => rfl⟩
  | startLiteral => exact .inr ⟨Rule.startLiteral.action w ⟨stack, []⟩, fun _ => rfl⟩
  | startMultilineLiteral => exact .inr ⟨Rule.startMultilineLiteral.action w ⟨stack, []⟩, fun _ => rfl⟩
  | _ => cases hr

/-- **The last string** does not matter outside of strings. -/
theorem tokens_str {stack : List Condition} (hplain : PlainStack stack) (str str' s : Bytes) :
    lexer.tokens ⟨stack, str⟩ s = lexer.tokens ⟨stack, str'⟩ s := by
  have hrun : ∀ (n : Nat) (stack : List Condition) (s : Bytes), PlainStack stack →
      lexer.run n ⟨stack, str⟩ s = lexer.run n ⟨stack, str'⟩ s := by
    intro n
    induction n with
    | zero => exact fun _ _ _ => rfl
    | succ n ih =>
      intro stack s hplain
      have hrules : lexer.rules ⟨stack, str⟩ = lexer.rules ⟨stack, str'⟩ := rfl
      rw [Lexer.run, Lexer.run, hrules]
      cases hmunch : munch lexer.regex (lexer.rules ⟨stack, str'⟩) s with
      | none => rfl
      | some x =>
        obtain ⟨r, w, t⟩ := x
        have hr : r.inString = false :=
          inString_of_plain (hplain.cond str') r (List.mem_of_find?_eq_some (firstMatch_of_munch hmunch))
        rcases action_str hr w hplain with ⟨tok, stack', hplain', haction⟩ | ⟨x, haction⟩
        · have hone := haction str
          have htwo := haction str'
          change (r.action w _).1.toList ++ lexer.run n (r.action w _).2 t =
            (r.action w _).1.toList ++ lexer.run n (r.action w _).2 t
          rw [hone, htwo, ih stack' t hplain']
        · change (r.action w _).1.toList ++ lexer.run n (r.action w _).2 t =
            (r.action w _).1.toList ++ lexer.run n (r.action w _).2 t
          rw [haction str, haction str']
  exact hrun s.length stack s hplain

/-! ## Ends of lines -/

theorem mem_lineEnd {s : Bytes} : s ∈ lineEnd.matches' ↔ s = [10] ∨ s = [13, 10] := by
  rw [lineEnd, mem_comp]
  simp only [mem_opt, mem_word]
  constructor
  · rintro ⟨a, rfl | rfl, b, rfl, rfl⟩
    · exact .inl rfl
    · exact .inr rfl
  · rintro (rfl | rfl)
    · exact ⟨[], .inl rfl, _, rfl, rfl⟩
    · exact ⟨_, .inr rfl, _, rfl, rfl⟩

/-- A line ends, by the rule `r`. -/
theorem tokens_lineEnd (st : LexState) {r : Rule} {c : UInt8} {w : Bytes}
    (hcand : candidates st.cond c = [r, .any]) (hr : r.regex = lineEnd)
    (hw : c :: w = [10] ∨ c :: w = [13, 10]) (t : Bytes) :
    lexer.tokens st (c :: w ++ t) =
      (r.action (c :: w) st).1.toList ++ lexer.tokens (r.action (c :: w) st).2 t := by
  refine tokens_one st hcand (hr ▸ mem_lineEnd.mpr hw) fun v hv _ h => ?_
  rw [hr] at h
  rcases hw with hw | hw <;> rcases mem_lineEnd.mp h with h | h <;> rw [hw] at h <;> cases h <;>
    exact hv rfl

theorem candidates_newline :
    candidates .value 10 = [.valueNewline, .any] ∧ candidates .value 13 = [.valueNewline, .any] ∧
      candidates .initial 10 = [.newline, .any] ∧ candidates .initial 13 = [.newline, .any] := by
  decide +kernel

/-- A value ends with the line. -/
theorem tokens_value_newline (stack : List Condition) (str t : Bytes) :
    lexer.tokens ⟨.value :: stack, str⟩ (10 :: t) = lexer.tokens ⟨stack, str⟩ t :=
  tokens_lineEnd ⟨.value :: stack, str⟩ (w := []) candidates_newline.1 rfl (.inl rfl) t

theorem tokens_initial_newline (str t : Bytes) :
    lexer.tokens ⟨[], str⟩ (10 :: t) = lexer.tokens ⟨[], str⟩ t :=
  tokens_lineEnd ⟨[], str⟩ (w := []) candidates_newline.2.2.1 rfl (.inl rfl) t

/-- A comment goes to the end of the line. -/
theorem tokens_comment {st : LexState} (hcond : st.cond = .initial ∨ st.cond = .value) {s t : Bytes}
    (hs : 10 ∉ s) (ht : ∀ c ∈ t.head?, c = 10) :
    lexer.tokens st (byte '#' :: s ++ t) = lexer.tokens st t := by
  have hcand : candidates st.cond (byte '#') = [.comment, .any] := by
    rcases hcond with h | h <;> rw [h] <;> decide +kernel
  refine tokens_one st hcand ?_ fun v hv hpre h => ?_
  · refine mem_comp.mpr ⟨_, mem_word.mpr rfl, s, mem_star_classOf.mpr fun c hc => ?_, rfl⟩
    exact decide_eq_true fun heq => hs (heq ▸ hc)
  · obtain ⟨a, ha, b, hb, heq⟩ := mem_comp.mp h
    obtain rfl := mem_word.mp ha
    obtain ⟨-, rfl⟩ := List.cons.inj heq
    obtain ⟨c, v, rfl⟩ := List.exists_cons_of_ne_nil hv
    obtain ⟨t', rfl⟩ := hpre
    have hc := mem_star_classOf.mp hb c (List.mem_append_right _ List.mem_cons_self)
    exact of_decide_eq_true hc (ht c rfl)

theorem tokens_blank {st : LexState} (hcond : SkipsBlanks st.cond) {c : UInt8}
    (hc : isBlank c = true) (t : Bytes) : lexer.tokens st (c :: t) = lexer.tokens st t := by
  have hblanks : ∀ d ∈ t.takeWhile isBlank, isBlank d = true := fun d hd => List.mem_takeWhile_imp hd
  have hstop : StopsAt isBlank (t.dropWhile isBlank) := by
    intro d hd
    have hno := List.head?_dropWhile_not isBlank t
    rw [hd] at hno
    exact hno
  have hsplit : t.takeWhile isBlank ++ t.dropWhile isBlank = t := List.takeWhile_append_dropWhile
  have hlong := tokens_blanks hcond (List.forall_mem_cons.mpr ⟨hc, hblanks⟩) hstop
  rw [List.cons_append, hsplit] at hlong
  rw [hlong, ← tokens_blanks hcond hblanks hstop, hsplit]

/-- What can stand behind an entry: blanks, a comment, and the end of the line or of the text. -/
inductive LineEnd : Bytes → Prop where
  | eof : LineEnd []
  | lf (t : Bytes) : LineEnd (10 :: t)
  | crlf (t : Bytes) : LineEnd (13 :: 10 :: t)
  | comment {s t : Bytes} (hs : 10 ∉ s) (ht : t = [] ∨ ∃ t', t = 10 :: t') :
      LineEnd (byte '#' :: s ++ t)
  | blank {c : UInt8} {t : Bytes} (hc : isBlank c = true) (ht : LineEnd t) : LineEnd (c :: t)

/-- **At the end of a line** a value ends. -/
theorem LineEnd.tokens_value {t : Bytes} (h : LineEnd t) (str : Bytes) :
    lexer.tokens ⟨[.value], str⟩ t = lexer.tokens ⟨[], str⟩ t := by
  induction h with
  | eof => rfl
  | lf t => rw [tokens_value_newline, tokens_initial_newline]
  | crlf t =>
    have hvalue := tokens_lineEnd ⟨[.value], str⟩ (w := [10]) candidates_newline.2.1 rfl
      (.inr rfl) t
    have hinitial := tokens_lineEnd ⟨[], str⟩ (w := [10]) candidates_newline.2.2.2 rfl
      (.inr rfl) t
    exact hvalue.trans hinitial.symm
  | @comment s t hs ht =>
    have hhead : ∀ c ∈ t.head?, c = 10 := by
      rcases ht with rfl | ⟨t', rfl⟩
      · exact fun c hc => nomatch hc
      · exact fun c hc => (Option.some.inj hc).symm
    rw [tokens_comment (.inr rfl) hs hhead, tokens_comment (.inl rfl) hs hhead]
    rcases ht with rfl | ⟨t', rfl⟩
    · rfl
    · rw [tokens_value_newline, tokens_initial_newline]
  | blank hc _ ih =>
    rw [tokens_blank (.inr rfl) hc, tokens_blank (.inl (.inl rfl)) hc, ih]

theorem LineEnd.head_ne_quote {t : Bytes} (h : LineEnd t) : t.head? ≠ some (byte '"') := by
  intro heq
  cases h with
  | eof => cases heq
  | lf t => cases heq
  | crlf t => cases heq
  | comment => cases heq
  | blank hc =>
    rw [Option.some.inj heq] at hc
    cases hc

end Primitives.Settings.Native
