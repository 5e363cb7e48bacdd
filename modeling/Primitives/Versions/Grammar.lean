import Primitives.Lib.Grammar
import Primitives.Lib.Lexer
import Primitives.Versions.Text

/-!
# The grammar of ranges — the code

The rules of `range.ll`, and what the nonterminals of `range.yy` derive. A text that is derived has
versions and simple ranges, in sets that are intersected and sets that are united, and so it has the
actions that the parser does for it. The parser itself is generated; it follows the grammar
(`Outside.Generated`).
-/

set_option autoImplicit false

namespace Primitives.Versions

open Lib RegularExpression

/-! ## The lexer -/

inductive Token where
  | space
  | lt
  | gt
  | le
  | ge
  | eq
  | ne
  | caret
  | tilde
  | hyphen
  | dot
  | xNumber (s : Str)
  | starNumber
  | lSquareBracket
  | rSquareBracket
  | lBracket
  | rBracket
  | comma
  | and
  | or
  | number (digits : Str)
  | string (s : Str)
  | extra (s : Str)
  | errorSymbol (s : Str)
deriving DecidableEq, Repr

/-- `[ \t\v\f\n\r]` -/
def blanks : Str := [' ', '\t', '\x0b', '\x0c', '\n', '\r']

/-- `[0-9]` -/
def digitChars : Str := "0123456789".toList

/-- `[_a-zA-Z]` -/
def initialChars : Str := "_abcdefghijklmnopqrstuvwxyzABCDEFGHIJKLMNOPQRSTUVWXYZ".toList

/-- `[_a-zA-Z0-9]` -/
def wordChars : Str := initialChars ++ digitChars

/-- Every byte. -/
def anyChars : Str := (List.range 256).map Char.ofNat

/-- The rules: a text that stands for itself, and the others. -/
inductive Rule where
  | symbol (text : Str) (t : Token)
  | space
  | x
  | number
  | string
  | extra
  | any
deriving DecidableEq, Repr

/-- In the order of the file. -/
def rules : List Rule :=
  [.space, .symbol ['<'] .lt, .symbol ['>'] .gt, .symbol ['<', '='] .le, .symbol ['>', '='] .ge,
    .symbol ['='] .eq, .symbol ['=', '='] .eq, .symbol ['!', '='] .ne, .symbol ['^'] .caret,
    .symbol ['~'] .tilde, .symbol ['-'] .hyphen, .symbol ['.'] .dot, .x, .symbol ['*'] .starNumber,
    .symbol ['['] .lSquareBracket, .symbol [']'] .rSquareBracket, .symbol ['('] .lBracket,
    .symbol [')'] .rBracket, .symbol [','] .comma, .symbol ['&', '&'] .and, .symbol ['|', '|'] .or,
    .number, .string, .extra, .any]

def Rule.regex : Rule → RegularExpression Char
  | symbol text _ => word text
  | space => many1 (oneOf blanks)
  | x => oneOf ['x', 'X']
  | number => many1 (oneOf digitChars)
  | string => oneOf initialChars * .star (oneOf wordChars)
  | extra => many1 (oneOf wordChars)
  | any => oneOf anyChars

/-- `MAKE` and `MAKE_VALUE`. What `make_long` does with a number is an action. -/
def Rule.token (yytext : Str) : Rule → Token
  | symbol _ t => t
  | space => .space
  | x => .xNumber yytext
  | number => .number yytext
  | string => .string yytext
  | extra => .extra yytext
  | any => .errorSymbol yytext

def lexer : Lexer Char Rule Unit Token where
  rules _ := rules
  regex := Rule.regex
  action r yytext _ := (some (r.token yytext), ())

/-- The tokens of a text: a C string is scanned. -/
def tokens (s : Str) : List Token := lexer.tokens () (s.takeWhile (· ≠ '\x00'))

/-! ## The grammar -/

/-- `space_or_empty` -/
inductive SpaceOrEmpty : Unit → List Token → Prop
  | empty : SpaceOrEmpty () []
  | space : SpaceOrEmpty () [.space]

/-- `DOT` -/
inductive Dot : Unit → List Token → Prop
  | dot : Dot () [.dot]

/-- `number` -/
inductive NumberText : Number → List Token → Prop
  | number (digits : Str) (h : decimal digits ≤ int64Max) :
    NumberText (.number (decimal digits) h) [.number digits]
  | x (s : Str) : NumberText .any [.xNumber s]
  | star : NumberText .any [.starNumber]

/-- `extra_part` -/
inductive ExtraPart : Value → List Token → Prop
  | extra (s : Str) : ExtraPart (.string s) [.extra s]
  | string (s : Str) : ExtraPart (.string s) [.string s]
  | x (s : Str) : ExtraPart (.string s) [.xNumber s]
  | number (digits : Str) (h : decimal digits ≤ int64Max) :
    ExtraPart (.number (decimal digits)) [.number digits]

/-- `version` -/
inductive VersionTokens : VersionText → List Token → Prop
  | basic {t : VersionText} {ts : List Token} (h : SepBy NumberText Dot t.numbers ts)
      (hextra : t.extra = []) : VersionTokens t ts
  | extra {t : VersionText} {ts us : List Token} (h : SepBy NumberText Dot t.numbers ts)
      (hextra : SepBy ExtraPart Dot t.extra us) : VersionTokens t (ts ++ .hyphen :: us)

/-- `compare`, `caret` and `tilde`: the range of the version behind a token. -/
def prefixRange : Token → Option (VersionText → Range)
  | .lt => some (.compare .lt)
  | .le => some (.compare .le)
  | .gt => some (.compare .gt)
  | .ge => some (.compare .ge)
  | .eq => some (.compare .eq)
  | .ne => some (.compare .ne)
  | .caret => some .caret
  | .tilde => some .tilde
  | _ => none

/-- `open_bracket` -/
def openBracket : Token → Option Bool
  | .lSquareBracket => some false
  | .lBracket => some true
  | _ => none

/-- `close_bracket` -/
def closeBracket : Token → Option Bool
  | .rSquareBracket => some false
  | .rBracket => some true
  | _ => none

/-- `range` -/
inductive RangeTokens : Range → List Token → Prop
  | prefixed {t : Token} {f : VersionText → Range} {v : VersionText} {sp ts : List Token}
      (ht : prefixRange t = some f) (hsp : SpaceOrEmpty () sp) (hv : VersionTokens v ts) :
      RangeTokens (f v) (t :: (sp ++ ts))
  | hyphen {v₁ v₂ : VersionText} {sp ts us : List Token} (h₁ : VersionTokens v₁ ts)
      (hsp : SpaceOrEmpty () sp) (h₂ : VersionTokens v₂ us) :
      RangeTokens (.hyphen v₁ v₂) (ts ++ .space :: .hyphen :: (sp ++ us))
  | interval {b c : Token} {l r : Bool} {v₁ v₂ : VersionText} {s₁ s₂ s₃ s₄ ts us : List Token}
      (hb : openBracket b = some l) (hc : closeBracket c = some r) (h₁ : VersionTokens v₁ ts)
      (h₂ : VersionTokens v₂ us) (hs₁ : SpaceOrEmpty () s₁) (hs₂ : SpaceOrEmpty () s₂)
      (hs₃ : SpaceOrEmpty () s₃) (hs₄ : SpaceOrEmpty () s₄) :
      RangeTokens (.interval l v₁ v₂ r)
        (b :: (s₁ ++ (ts ++ (s₂ ++ .comma :: (s₃ ++ (us ++ (s₄ ++ [c])))))))
  | intervalFrom {b c : Token} {l r : Bool} {v : VersionText} {s₁ s₂ s₃ ts : List Token}
      (hb : openBracket b = some l) (hc : closeBracket c = some r) (h : VersionTokens v ts)
      (hs₁ : SpaceOrEmpty () s₁) (hs₂ : SpaceOrEmpty () s₂) (hs₃ : SpaceOrEmpty () s₃) :
      RangeTokens (.intervalFrom l v r) (b :: (s₁ ++ (ts ++ (s₂ ++ .comma :: (s₃ ++ [c])))))
  | intervalTo {b c : Token} {l r : Bool} {v : VersionText} {s₁ s₂ s₃ ts : List Token}
      (hb : openBracket b = some l) (hc : closeBracket c = some r) (h : VersionTokens v ts)
      (hs₁ : SpaceOrEmpty () s₁) (hs₂ : SpaceOrEmpty () s₂) (hs₃ : SpaceOrEmpty () s₃) :
      RangeTokens (.intervalTo l v r) (b :: (s₁ ++ .comma :: (s₂ ++ (ts ++ (s₃ ++ [c])))))
  | version {v : VersionText} {ts : List Token} (h : VersionTokens v ts) :
      RangeTokens (.version v) ts

/-- `and` -/
inductive And : Unit → List Token → Prop
  | space : And () [.space]
  | token {t : Token} {sp sp' : List Token} (ht : t = .and ∨ t = .comma) (hsp : SpaceOrEmpty () sp)
      (hsp' : SpaceOrEmpty () sp') : And () (sp ++ t :: sp')

/-- `or` -/
inductive Or : Unit → List Token → Prop
  | or {sp sp' : List Token} (hsp : SpaceOrEmpty () sp) (hsp' : SpaceOrEmpty () sp') :
    Or () (sp ++ .or :: sp')

/-- `range_set_and` -/
abbrev RangeSetAnd : List Range → List Token → Prop := SepBy RangeTokens And

/-- `file`, a `range_set_or` -/
abbrev File : List (List Range) → List Token → Prop := SepBy RangeSetAnd Or

/-! ## The actions -/

/-- The versions of a range, in their order. -/
def Range.versions : Range → List VersionText
  | compare _ v | caret v | tilde v | intervalFrom _ v _ | intervalTo _ v _ | version v => [v]
  | hyphen v₁ v₂ | interval _ v₁ v₂ _ => [v₁, v₂]

def Range.actions (r : Range) : List Action := r.versions.map .version ++ [.range r, .andSet]

/-- The actions of the nonterminals, as they are derived. The lexer adds those of the numbers. -/
def actions (sets : List (List Range)) : List Action :=
  sets.flatMap fun rs => rs.flatMap Range.actions ++ [.orSet]

def Action.isNumber : Action → Bool
  | number _ => true
  | version _ | range _ | andSet | orSet => false

/-- Blanks are stripped, and the generated lexer and parser follow their files. -/
structure Outside.Generated (o : Outside) : Prop where
  strip_of_solid {s : Str} (hfront : ∀ c ∈ s.head?, c ∉ blanks) (hback : ∀ c ∈ s.getLast?, c ∉ blanks) :
    o.strip s = s
  accepted_iff (s : Str) : (o.parser s).accepted = true ↔ ∃ sets, File sets (tokens s)
  actions_of {s : Str} {sets : List (List Range)} (h : File sets (tokens s)) :
    (o.parser s).actions.filter (fun a => !a.isNumber) = actions sets
  mem_tokens {s digits : Str} (h : .number digits ∈ (o.parser s).actions) :
    .number digits ∈ tokens s

end Primitives.Versions
