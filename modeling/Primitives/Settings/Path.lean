import Primitives.Basic
import Primitives.Lib.Lexer

/-!
# Setting paths — the code

A path has parts, and is written with points between them: a part of letters, digits, `_` and `-` as
it is, any other one in quotes, with its control characters as `\u00XX`. The lexer of `path.ll` and
the grammar of `path.yy` read a path. In quotes the lexer understands more than is written there: an
escape is a backslash and a character, and a code point `\u` or `\U` with 4 or 8 digits. A backslash
before `u` or `U` that begins no code point stands for itself.
-/

set_option autoImplicit false

namespace Primitives.SettingPath

open Lib RegularExpression

abbrev Bytes := List UInt8

/-- The byte of an ASCII character. -/
def byte (c : Char) : UInt8 := UInt8.ofNat c.toNat

/-! ## Classes of characters -/

def isCntrl (c : UInt8) : Bool := c < 32 || c = 127

def isDigit (c : UInt8) : Bool := byte '0' ≤ c && c ≤ byte '9'

def isAlnum (c : UInt8) : Bool :=
  isDigit c || (byte 'a' ≤ c && c ≤ byte 'z') || (byte 'A' ≤ c && c ≤ byte 'Z')

def isXDigit (c : UInt8) : Bool :=
  isDigit c || (byte 'a' ≤ c && c ≤ byte 'f') || (byte 'A' ≤ c && c ≤ byte 'F')

/-- A character of a part that needs no quotes. -/
def isBare (c : UInt8) : Bool := isAlnum c || c = byte '_' || c = byte '-'

/-- `[\x00-\xFF]` -/
def bytes : Bytes := (List.range 256).map UInt8.ofNat

/-- The characters of a class. -/
def classOf (p : UInt8 → Bool) : RegularExpression UInt8 := oneOf (bytes.filter p)

/-! ## Printing -/

/-- `hex[n]` -/
def hex (n : Nat) : UInt8 := ("0123456789ABCDEF".toList.map byte)[n]?.getD 0

def escapeSettingChar (c : UInt8) : Bytes :=
  if isCntrl c then
    [byte '\\', byte 'u', byte '0', byte '0', hex ((c.toNat &&& 0xF0) >>> 4), hex (c.toNat &&& 0x0F)]
  else [c]

def escapeSettingPart (s : Bytes) : Bytes := s.flatMap escapeSettingChar

def isBasic (part : Bytes) : Bool := part.all isBare

def printPart (p : Bytes) : Bytes :=
  if isBasic p then p else byte '"' :: (escapeSettingPart p ++ [byte '"'])

/-- `toString`: a point behind every part, and the last one taken off again. -/
def toString (parts : List Bytes) : Bytes :=
  (parts.flatMap fun p => printPart p ++ [byte '.']).dropLast

/-! ## The lexer -/

/-- `unescapeSettingChar`; 0 if there is no such escape. -/
def unescapeSettingChar (c : UInt8) : UInt8 :=
  if c = byte 'n' then 10
  else if c = byte '"' then byte '"'
  else if c = byte '\\' then byte '\\'
  else if c = byte 'r' then 13
  else if c = byte 't' then 9
  else if c = byte 'f' then 12
  else if c = byte 'b' then 8
  else 0

def xdigitValue (c : UInt8) : Nat :=
  if isDigit c then c.toNat - (byte '0').toNat
  else if byte 'a' ≤ c then c.toNat - (byte 'a').toNat + 10
  else c.toNat - (byte 'A').toNat + 10

/-- `sscanf` of hexadecimal digits into an `int`. -/
def scanHex (ds : Bytes) : Int :=
  ((ds.foldl (fun n d => n * 16 + xdigitValue d) 0 : Nat) : Int).bmod 4294967296

/-- `cp2utf8`; the string ends at the first zero. A negative code point is taken as a character. -/
def cp2utf8 (cp : Int) : Bytes :=
  let n := cp.toNat
  let c : Bytes :=
    if cp ≤ 0x7F then [UInt8.ofNat (cp % 256).toNat]
    else if cp ≤ 0x7FF then [UInt8.ofNat ((n >>> 6) + 192), UInt8.ofNat ((n &&& 63) + 128)]
    else if 0xd800 ≤ cp ∧ cp ≤ 0xdfff then []
    else if cp ≤ 0xFFFF then
      [UInt8.ofNat ((n >>> 12) + 224), UInt8.ofNat (((n >>> 6) &&& 63) + 128),
        UInt8.ofNat ((n &&& 63) + 128)]
    else if cp ≤ 0x10FFFF then
      [UInt8.ofNat ((n >>> 18) + 240), UInt8.ofNat (((n >>> 12) &&& 63) + 128),
        UInt8.ofNat (((n >>> 6) &&& 63) + 128), UInt8.ofNat ((n &&& 63) + 128)]
    else []
  c.takeWhile (· ≠ 0)

/-- The start conditions. -/
inductive Condition where
  | initial
  | basic
  | literal
deriving DecidableEq, Repr

/-- The start condition, and `driver.str`. -/
structure LexState where
  cond : Condition
  str : Bytes
deriving DecidableEq, Repr

inductive Token where
  | point
  | bareString (s : Bytes)
  | basicString (s : Bytes)
  | literalString (s : Bytes)
  | startBasicString
  | startLiteralString
  | errorSymbol
deriving DecidableEq, Repr

inductive Rule where
  | space
  | point
  | bare
  | startBasic
  | basicChar
  | escape
  | codePoint4
  | codePoint8
  | endBasic
  | startLiteral
  | literalChars
  | literalTab
  | endLiteral
  | any
deriving DecidableEq, Repr

/-- The rules of a start condition, in the order of the file. -/
def rules : Condition → List Rule
  | .initial => [.space, .point, .bare, .startBasic, .startLiteral, .any]
  | .basic => [.basicChar, .escape, .codePoint4, .codePoint8, .endBasic, .any]
  | .literal => [.literalChars, .literalTab, .endLiteral, .any]

def Rule.regex : Rule → RegularExpression UInt8
  | .space => many1 (oneOf [byte ' ', byte '\t'])
  | .point => word [byte '.']
  | .bare => .star (classOf isBare)
  | .startBasic => word [byte '"']
  | .basicChar => classOf fun c => !isCntrl c && c ≠ byte '"'
  | .escape => word [byte '\\'] * classOf fun c => c ≠ byte 'u' && c ≠ byte 'U'
  | .codePoint4 => word [byte '\\', byte 'u'] * classOf isXDigit ^ 4
  | .codePoint8 => word [byte '\\', byte 'U'] * classOf isXDigit ^ 8
  | .endBasic => word [byte '"']
  | .startLiteral => word [byte '\'']
  | .literalChars => .star (classOf fun c => !isCntrl c && c ≠ byte '\'')
  | .literalTab => word [byte '\t']
  | .endLiteral => word [byte '\'']
  | .any => classOf fun _ => true

/-- The actions, on the text of the match. A literal string is given as `START_BASIC_STRING` and
`BASIC_STRING` too. -/
def Rule.action (r : Rule) (yytext : Bytes) (st : LexState) : Option Token × LexState :=
  match r with
  | .space => (none, st)
  | .point => (some .point, st)
  | .bare => (some (.bareString yytext), st)
  | .startBasic => (some .startBasicString, ⟨.basic, []⟩)
  | .basicChar => (none, { st with str := st.str ++ yytext })
  | .escape =>
    let c := unescapeSettingChar (yytext[1]?.getD 0)
    if c = 0 then (some .errorSymbol, st) else (none, { st with str := st.str ++ [c] })
  | .codePoint4 => (none, { st with str := st.str ++ cp2utf8 (scanHex (yytext.drop 2)) })
  | .codePoint8 => (none, { st with str := st.str ++ cp2utf8 (scanHex (yytext.drop 2)) })
  | .endBasic => (some (.basicString st.str), { st with cond := .initial })
  | .startLiteral => (some .startBasicString, ⟨.literal, []⟩)
  | .literalChars => (none, { st with str := st.str ++ yytext })
  | .literalTab => (none, { st with str := st.str ++ yytext })
  | .endLiteral => (some (.basicString st.str), { st with cond := .initial })
  | .any => (some .errorSymbol, st)

def lexer : Lexer UInt8 Rule LexState Token where
  rules st := rules st.cond
  regex := Rule.regex
  action := Rule.action

/-! ## The grammar -/

/-- `part`: the tokens of one part, and those behind it. -/
def part : List Token → Option (Bytes × List Token)
  | .bareString s :: ts => some (s, ts)
  | .startBasicString :: .basicString s :: ts => some (s, ts)
  | .startLiteralString :: .literalString s :: ts => some (s, ts)
  | _ => none

/-- `parts`, up to the end of the tokens: parts with points between them. -/
def parts : Nat → List Token → Option (List Bytes)
  | 0, _ => none
  | n + 1, ts =>
    match part ts with
    | none => none
    | some (p, []) => some [p]
    | some (p, .point :: ts) => (parts n ts).map (p :: ·)
    | some (_, _ :: _) => none

/-- `file`: nothing, or parts. -/
def file (ts : List Token) : Option (List Bytes) := if ts = [] then some [] else parts ts.length ts

/-- `"While parsing setting path '" + s + "':"`, and the message of the parser. -/
structure ParseError where
  path : Bytes
deriving DecidableEq, Repr

/-- `SettingPath(s)`. The lexer scans a C string. -/
def parse (s : Bytes) : Except ParseError (List Bytes) :=
  if s = [] then .ok []
  else
    match file (lexer.tokens ⟨.initial, []⟩ (s.takeWhile (· ≠ 0))) with
    | some parts => .ok parts
    | none => .error ⟨s⟩

end Primitives.SettingPath
