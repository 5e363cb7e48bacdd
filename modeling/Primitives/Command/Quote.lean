import Primitives.Basic
import Primitives.Lib.Escape

/-!
# Quoting

`Argument::quote` escapes backslashes first and then double quotes, so that the backslashes of the
second replacement are not escaped again. Together the two are one escaping of both characters
(`quoteEscape_eq`). It never begins with a double quote, so that a text with its characters escaped is
always put in quotes, and it is read back from there (`quote_lossless`).
-/

set_option autoImplicit false

namespace Primitives.Command

open Lib

/-! ## The code -/

inductive QuoteType where
  /-- Return as is. -/
  | none
  /-- Add a double quote to the beginning and the end. -/
  | simple
  /-- Escape double quotes and backslashes inside the string. -/
  | escape
  | simpleAndEscape
deriving DecidableEq, Repr

/-- `boost::replace_all` of one character. -/
def replaceAll (search : Char) (format : Str) (s : Str) : Str :=
  s.flatMap fun c => if c = search then format else [c]

/-- `QuoteType::Simple` -/
def quoteSimple (s : Str) : Str :=
  if s ≠ [] ∧ s.head? = some '\x22' then s else '\x22' :: (s ++ ['\x22'])

/-- `QuoteType::Escape` -/
def quoteEscape (s : Str) : Str :=
  replaceAll '\x22' ['\\', '\x22'] (replaceAll '\\' ['\\', '\\'] s)

/-- `Argument::quote` -/
def quote (s : Str) : QuoteType → Str
  | .none => s
  | .simple => quoteSimple s
  | .escape => quoteEscape s
  | .simpleAndEscape => quoteSimple (quoteEscape s)

/-! ## Reading back -/

/-- What is escaped. -/
def isEscaped (c : Char) : Bool := c = '\\' || c = '\x22'

/-- The string that a literal is for: without the outer quotes, and with every pair of a backslash and a
backslash or a double quote replaced by the second. -/
def readBack (literal : Str) : Str := unescape '\\' isEscaped literal.tail.dropLast

/-- A text in double quotes, in which the inner ones are escaped. -/
structure QuotedLiteral (literal : Str) : Prop where
  outer : ∃ inner, literal = '\x22' :: (inner ++ ['\x22'])
  inner : ∀ l r, literal = l ++ '\x22' :: r → l ≠ [] → r ≠ [] → Odd (run '\\' l)

theorem isEscaped_backslash : isEscaped '\\' = true := by decide

theorem isEscaped_quote : isEscaped '\x22' = true := by decide

/-- **The two replacements** escape each character once. -/
theorem quoteEscape_eq (s : Str) : quoteEscape s = escape '\\' isEscaped s := by
  rw [quoteEscape, replaceAll, replaceAll, escape, List.flatMap_assoc]
  congr 1
  funext c
  by_cases hbackslash : c = '\\'
  · subst hbackslash
    rfl
  · rw [if_neg hbackslash, List.flatMap_singleton, escapeOne]
    by_cases hquote : c = '\x22'
    · subst hquote
      rfl
    · have hno : ¬ isEscaped c = true := by simp [isEscaped, hbackslash, hquote]
      rw [if_neg hquote, if_neg hno]

/-- What is escaped does not begin with a double quote. -/
theorem quote_simpleAndEscape (s : Str) :
    quote s .simpleAndEscape = '\x22' :: (escape '\\' isEscaped s ++ ['\x22']) := by
  rw [quote, quoteSimple, quoteEscape_eq, if_neg]
  rintro ⟨-, hhead⟩
  cases s with
  | nil => cases hhead
  | cons c s =>
    rw [escape_cons, escapeOne] at hhead
    split at hhead
    · exact absurd (Option.some.inj hhead) (by decide)
    · rename_i hc
      have hquote : c = '\x22' := Option.some.inj hhead
      exact hc (hquote ▸ isEscaped_quote)

theorem quotedLiteral_quote (s : Str) : QuotedLiteral (quote s .simpleAndEscape) := by
  rw [quote_simpleAndEscape]
  refine ⟨⟨_, rfl⟩, ?_⟩
  intro l r h hl hr
  obtain ⟨c, l, rfl⟩ := List.exists_cons_of_ne_nil hl
  obtain ⟨r, d, rfl⟩ := List.eq_nil_or_concat' r |>.resolve_left hr
  -- an inner quote is one of the text between the outer ones
  rw [List.cons_append, List.cons.injEq] at h
  obtain ⟨rfl, h⟩ := h
  rw [← List.cons_append, ← List.append_assoc] at h
  obtain ⟨hinner, -⟩ := List.append_inj' h rfl
  rw [run_cons_of_ne (by decide)]
  exact odd_run_of_escape isEscaped_backslash isEscaped_quote (by decide) hinner

theorem readBack_quote (s : Str) : readBack (quote s .simpleAndEscape) = s := by
  rw [quote_simpleAndEscape, readBack, List.tail_cons, List.dropLast_concat]
  exact unescape_escape isEscaped_backslash s

/-- **Quoting loses nothing**: what is quoted is a literal, and is read back from it. -/
theorem quote_lossless :
    (∀ s : Str, QuotedLiteral (quote s .simpleAndEscape) ∧
        readBack (quote s .simpleAndEscape) = s) ∧
      Function.Injective fun s : Str => quote s .simpleAndEscape :=
  ⟨fun s => ⟨quotedLiteral_quote s, readBack_quote s⟩,
    Function.LeftInverse.injective readBack_quote⟩

/-- A text in quotes is left as it is, whatever is between them. -/
example : quote ['\x22', 'a', '\x22'] .simple = ['\x22', 'a', '\x22'] := by decide

end Primitives.Command
