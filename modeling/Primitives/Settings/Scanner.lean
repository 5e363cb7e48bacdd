import Primitives.Settings.Integer
import Primitives.Settings.Model
import Primitives.Settings.Path

/-!
# Native settings — the lexer

The rules of `settings.ll`, with a stack of start conditions: a value begins behind a `=` and ends
with its last character, or at the end of the line, and so does an inline table, which begins and
ends within a value. The classes of characters and the escapes are those of paths.

A number with a point is left as its text; `std::stod` is not looked at. The locations are left out.
-/

set_option autoImplicit false

namespace Primitives.Settings.Native

open Lib RegularExpression
open SettingPath (byte isCntrl isAlnum isXDigit isBare classOf unescapeSettingChar
  scanHex cp2utf8)

/-! ## States -/

/-- The start conditions. -/
inductive Condition where
  | initial
  | key
  | value
  | valueArray
  | basic
  | literal
  | multilineBasic
  | multilineLiteral
  | table
  | inlineTable
deriving DecidableEq, Repr

/-- The start conditions that were pushed, the last one first, and `driver.str`. -/
structure LexState where
  stack : List Condition
  str : Bytes
deriving DecidableEq, Repr

namespace LexState

/-- `YYSTATE` -/
def cond (st : LexState) : Condition := st.stack.headD .initial

/-- `YY_PUSH_STATE` -/
def push (st : LexState) (c : Condition) : LexState := { st with stack := c :: st.stack }

/-- `YY_POP_STATE`. There is no rule that pops `INITIAL`. -/
def pop (st : LexState) : LexState := { st with stack := st.stack.tail }

def add (st : LexState) (s : Bytes) : LexState := { st with str := st.str ++ s }

/-- A string begins. -/
def start (st : LexState) (c : Condition) : LexState := ⟨c :: st.stack, []⟩

/-- A string ends, and the value that it is. -/
def finish (st : LexState) : LexState := if st.pop.cond = .value then st.pop.pop else st.pop

end LexState

inductive Token where
  | errorSymbol
  | point
  | comma
  | kvDelimeter
  | leftSquareBracket
  | rightSquareBracket
  | leftCurlyBracket
  | rightCurlyBracket
  | valueBool (b : Bool)
  | valueDouble (text : Bytes)
  | valueInteger (i : Int)
  | bareString (s : Bytes)
  | basicString (s : Bytes)
  | literalString (s : Bytes)
  | bareRhsString (s : Bytes)
  | multilineBasicString (s : Bytes)
  | multilineLiteralString (s : Bytes)
  | startBasicString
  | startLiteralString
  | startMultilineBasicString
  | startMultilineLiteralString
  /-- No token: `std::stoll` throws. -/
  | thrown (e : Settings.Exception)
deriving DecidableEq, Repr

/-! ## Rules -/

inductive Rule where
  | comment
  | newline
  | table
  | space
  | bare
  | delimiter
  | point
  | keyEnd
  | comma
  | integer (q : Settings.Rule)
  | float
  | bool (b : Bool)
  | array
  | arrayEnd
  | valueNewline
  | inlineTable
  | bareRhs
  | inlineTableEnd
  | arrayNewline
  | startBasic
  | basicChar
  | escape
  | codePoint4
  | codePoint8
  | endBasic
  | startMultilineBasic
  | multilineNewline
  | multilineQuote
  | lineContinuation
  | endMultilineBasic
  | startLiteral
  | literalChars
  | literalTab
  | endLiteral
  | startMultilineLiteral
  | multilineApostrophe
  | endMultilineLiteral
  | any
deriving DecidableEq, Repr

def integers : List Rule := Settings.rules.map .integer

/-- The rules of a start condition, in the order of the file. -/
def rules : Condition → List Rule
  | .initial => [.comment, .newline, .table, .space, .bare, .delimiter, .comma, .startBasic,
      .startMultilineBasic, .startLiteral, .startMultilineLiteral, .any]
  | .key => [.space, .bare, .delimiter, .point, .keyEnd, .startBasic, .startMultilineBasic,
      .startLiteral, .startMultilineLiteral, .any]
  | .value => .comment :: (integers ++ [.float, .bool true, .bool false, .array, .arrayEnd, .space,
      .valueNewline, .inlineTable, .bareRhs, .startBasic, .startMultilineBasic, .startLiteral,
      .startMultilineLiteral, .any])
  | .valueArray => .comma :: (integers ++ [.float, .bool true, .bool false, .array, .arrayEnd,
      .space, .arrayNewline, .startBasic, .startMultilineBasic, .startLiteral,
      .startMultilineLiteral, .any])
  | .basic => [.basicChar, .escape, .codePoint4, .codePoint8, .endBasic, .any]
  | .literal => [.literalChars, .literalTab, .endLiteral, .any]
  | .multilineBasic => [.basicChar, .escape, .codePoint4, .codePoint8, .multilineNewline,
      .multilineQuote, .lineContinuation, .endMultilineBasic, .any]
  | .multilineLiteral => [.literalChars, .literalTab, .multilineNewline, .multilineApostrophe,
      .endMultilineLiteral, .any]
  | .table => [.comment, .newline, .any]
  | .inlineTable => [.space, .bare, .delimiter, .comma, .inlineTableEnd, .any]

/-- A text of ASCII characters. -/
def ascii (s : List Char) : RegularExpression UInt8 := word (s.map byte)

def blank : RegularExpression UInt8 := oneOf [byte ' ', byte '\t']

/-- `{newline}` -/
def lineEnd : RegularExpression UInt8 := opt (word [13]) * word [10]

/-- `(?i:s)`, for small letters. -/
def anyCase (s : List Char) : RegularExpression UInt8 :=
  s.foldr (fun c r => oneOf [byte c, byte c.toUpper] * r) 1

/-- `{float_dec_point}` and `{float_hex_point}`. -/
def floatPoint (digit : RegularExpression UInt8) : RegularExpression UInt8 :=
  (ascii ['.'] * many1 digit) + (many1 digit * opt (ascii ['.'] * .star digit))

def digit : RegularExpression UInt8 := classOf SettingPath.isDigit

def exponent (letters : List Char) : RegularExpression UInt8 :=
  opt (oneOf (letters.map byte) * (opt (oneOf [byte '+', byte '-']) * many1 digit))

def floatDec : RegularExpression UInt8 := floatPoint digit * exponent ['e', 'E']

def floatHex : RegularExpression UInt8 :=
  ascii ['0'] * (oneOf [byte 'x', byte 'X'] * (floatPoint (classOf isXDigit) * exponent ['p', 'P']))

def inf : RegularExpression UInt8 :=
  anyCase ['i', 'n', 'f'] + anyCase ['i', 'n', 'f', 'i', 'n', 'i', 't', 'e']

def nan : RegularExpression UInt8 :=
  anyCase ['n', 'a', 'n'] *
    opt (ascii ['('] * (many1 (classOf fun c => isAlnum c || c = byte '_') * ascii [')']))

def bareRhsBeg (c : UInt8) : Bool :=
  !isCntrl c && c ≠ byte ' ' && c ≠ byte '"' && c ≠ byte '\'' && c ≠ byte '[' && c ≠ byte '{' &&
    c ≠ byte '#'

def bareRhsEnd (c : UInt8) : Bool := !isCntrl c && c ≠ byte ' ' && c ≠ byte '#'

def bareRhsAny (c : UInt8) : Bool :=
  (!isCntrl c && c ≠ byte '#') || c = byte ' ' || c = byte '\t'

def Rule.regex : Rule → RegularExpression UInt8
  | .comment => ascii ['#'] * .star (classOf (· ≠ 10))
  | .newline => lineEnd
  | .table => ascii ['[']
  | .space => many1 blank
  | .bare => .star (classOf isBare)
  | .delimiter => oneOf [byte '=', byte ':'] * .star blank
  | .point => ascii ['.']
  | .keyEnd => ascii [']'] * .star blank
  | .comma => ascii [',']
  | .integer q => q.regex.map byte
  | .float => opt (oneOf [byte '+', byte '-']) * (floatDec + floatHex + inf + nan) * .star blank
  | .bool true => ascii ['t', 'r', 'u', 'e'] * .star blank
  | .bool false => ascii ['f', 'a', 'l', 's', 'e'] * .star blank
  | .array => ascii ['[']
  | .arrayEnd => ascii [']']
  | .valueNewline => lineEnd
  | .inlineTable => ascii ['\x7b']
  | .bareRhs =>
    classOf bareRhsBeg * opt (.star (classOf bareRhsAny) * classOf bareRhsEnd)
  | .inlineTableEnd => ascii ['\x7d']
  | .arrayNewline => lineEnd
  | .startBasic => ascii ['"']
  | .basicChar => classOf fun c => !isCntrl c && c ≠ byte '"'
  | .escape => ascii ['\\'] * classOf fun c => c ≠ byte 'u' && c ≠ byte 'U' && c ≠ 13 && c ≠ 10
  | .codePoint4 => ascii ['\\', 'u'] * classOf isXDigit ^ 4
  | .codePoint8 => ascii ['\\', 'U'] * classOf isXDigit ^ 8
  | .endBasic => ascii ['"']
  | .startMultilineBasic => ascii ['"', '"', '"'] * opt lineEnd
  | .multilineNewline => lineEnd
  | .multilineQuote => ascii ['"']
  | .lineContinuation => ascii ['\\'] * (lineEnd * .star (blank + lineEnd))
  | .endMultilineBasic => ascii ['"', '"', '"']
  | .startLiteral => ascii ['\'']
  | .literalChars => .star (classOf fun c => !isCntrl c && c ≠ byte '\'')
  | .literalTab => ascii ['\t']
  | .endLiteral => ascii ['\'']
  | .startMultilineLiteral => ascii ['\'', '\'', '\''] * opt lineEnd
  | .multilineApostrophe => ascii ['\'']
  | .endMultilineLiteral => ascii ['\'', '\'', '\'']
  | .any => classOf fun _ => true

/-! ## Actions -/

/-- The characters of an integer. -/
def chars (s : Bytes) : Str := s.map fun b => Char.ofNat b.toNat

def integerToken (q : Settings.Rule) (yytext : Bytes) : Token :=
  match q.action (chars yytext) with
  | .ok i => .valueInteger i
  | .error e => .thrown e

/-- The actions, on the text of the match. -/
def Rule.action (r : Rule) (yytext : Bytes) (st : LexState) : Option Token × LexState :=
  match r with
  | .comment => (none, st)
  | .newline => (none, if st.cond = .table then st.pop else st)
  | .table => (some .leftSquareBracket, (st.push .table).push .key)
  | .space => (none, st)
  | .bare => (some (.bareString yytext), if st.cond = .initial then st.push .key else st)
  | .delimiter => (some .kvDelimeter, (if st.cond = .key then st.pop else st).push .value)
  | .point => (some .point, st)
  | .keyEnd => (some .rightSquareBracket, st.pop)
  | .comma => (some .comma, st)
  | .integer q => (some (integerToken q yytext), st.pop)
  | .float => (some (.valueDouble yytext), st.pop)
  | .bool b => (some (.valueBool b), st.pop)
  | .array => (some .leftSquareBracket, st.push .valueArray)
  | .arrayEnd => (some .rightSquareBracket, st.pop)
  | .valueNewline => (none, st.pop)
  | .inlineTable => (some .leftCurlyBracket, st.push .inlineTable)
  | .bareRhs => (some (.bareRhsString yytext), st.pop)
  | .inlineTableEnd => (some .rightCurlyBracket, st.pop)
  | .arrayNewline => (none, st)
  | .startBasic => (some .startBasicString, st.start .basic)
  | .basicChar => (none, st.add yytext)
  | .escape =>
    let c := unescapeSettingChar (yytext[1]?.getD 0)
    if c = 0 then (some .errorSymbol, st) else (none, st.add [c])
  | .codePoint4 => (none, st.add (cp2utf8 (scanHex (yytext.drop 2))))
  | .codePoint8 => (none, st.add (cp2utf8 (scanHex (yytext.drop 2))))
  | .endBasic => (some (.basicString st.str), st.finish)
  | .startMultilineBasic => (some .startMultilineBasicString, st.start .multilineBasic)
  | .multilineNewline => (none, st.add [10])
  | .multilineQuote => (none, st.add yytext)
  | .lineContinuation => (none, st)
  | .endMultilineBasic => (some (.multilineBasicString st.str), st.finish)
  | .startLiteral => (some .startLiteralString, st.start .literal)
  | .literalChars => (none, st.add yytext)
  | .literalTab => (none, st.add yytext)
  | .endLiteral => (some (.literalString st.str), st.finish)
  | .startMultilineLiteral => (some .startMultilineLiteralString, st.start .multilineLiteral)
  | .multilineApostrophe => (none, st.add yytext)
  | .endMultilineLiteral => (some (.multilineLiteralString st.str), st.finish)
  | .any => (some .errorSymbol, st)

def lexer : Lexer UInt8 Rule LexState Token where
  rules st := rules st.cond
  regex := Rule.regex
  action := Rule.action

end Primitives.Settings.Native
