import Primitives.Basic

/-!
# `csv.h` — the code

`parse_line` runs a recursive-descent parser over a `std::string`. The parser holds a pointer
`p`, which starts one before the first character, and the token of the character it points at.

A pointer is the distance to `s.data()`, and `*p` reads a memory `mem : Int → Char` in which
`s` and its terminating NUL stand at 0 and anything at all stands elsewhere (`memory`). Every
address that is read is recorded in the parser, so that a property of the reads is a property
of its last state, and `Thrown` carries that state out of a throw.

The three loops take a number of iterations. It runs out only if the line is at least that
long, which `Primitives.Csv.Scan` shows; `Stop.iterations` marks that case.
-/

set_option autoImplicit false

namespace Primitives.Csv

/-- `Columns`. -/
abbrev Columns := List (Option Str)

/-- `Parser::Token`, with the source's spelling. -/
inductive Token where
  | delimeter
  | eol
  | quote
  | escape
  | character
deriving DecidableEq, Repr

/-- The cast `(int)sym`. -/
def Token.toInt : Token → Nat
  | .delimeter => 0
  | .eol => 1
  | .quote => 2
  | .escape => 3
  | .character => 4

/-- The fields `delimeter`, `quote` and `escape` of `Parser`, with the source's spelling. -/
structure Specials where
  delimeter : Char
  quote : Char
  escape : Char
deriving DecidableEq, Repr

/-- The fields of `Parser` that change, and every address read so far, latest last. -/
structure Parser where
  cols : Columns
  p : Int
  sym : Token
  reads : List Int
deriving DecidableEq, Repr

/-- Why the parser stopped. -/
inductive Stop where
  | unexpectedToken (msg : Str)
  | iterations
deriving DecidableEq, Repr

structure Thrown where
  why : Stop
  parser : Parser
deriving DecidableEq, Repr

/-- `mem[a]` for `s`, the NUL after it and whatever is around them. -/
def memory (s : Str) (around : Int → Char) (a : Int) : Char :=
  if a < 0 then around a else ((s ++ ['\x00'])[a.toNat]?).getD (around a)

section Parser

variable (mem : Int → Char) (k : Specials)

/-- The comparisons of `nextsym1`. -/
def token (c : Char) : Token :=
  if c = '\x00' then .eol
  else if c = k.delimeter then .delimeter
  else if c = k.quote then .quote
  else if c = k.escape then .escape
  else .character

/-- `nextsym1`. -/
def nextsym1 (st : Parser) : Token × Parser :=
  (token k (mem (st.p + 1)),
    { st with p := st.p + 1, reads := st.reads ++ [st.p + 1] })

/-- `nextsym`. -/
def nextsym (st : Parser) : Parser :=
  { (nextsym1 mem k st).2 with
    sym := (nextsym1 mem k st).1 }

/-- `*(p - 1)`. -/
def previous (st : Parser) : Char × Parser :=
  (mem (st.p - 1), { st with reads := st.reads ++ [st.p - 1] })

/-- `accept`. -/
def accept (s : Token) (st : Parser) : Bool × Parser :=
  if st.sym = s then (true, nextsym mem k st) else (false, st)

/-- `expect`. -/
def expect (s : Token) (st : Parser) : Except Thrown Parser :=
  match accept mem k s st with
  | (true, st) => .ok st
  | (false, st) =>
    .error ⟨.unexpectedToken ("Unexpected token: ".toList ++ decimalStr st.sym.toInt), st⟩

/-- `accept_quoted_symbol`. -/
def acceptQuotedSymbol (st : Parser) : Bool × Parser :=
  if st.sym ≠ (if k.quote = k.escape then .quote else .escape) then (false, st)
  else
    match nextsym1 mem k st with
    | (.quote, st) => (true, nextsym mem k st)
    | (_, st) => (false, { st with p := st.p - 1 })

/-- The condition of the loop in `quoted_field`. -/
def quotedStep (st : Parser) : Bool × Parser :=
  match accept mem k .character st with
  | (true, st) => (true, st)
  | (false, st) =>
    match accept mem k .delimeter st with
    | (true, st) => (true, st)
    | (false, st) => acceptQuotedSymbol mem k st

/-- `quoted_field`, with its `buf`. -/
def quotedField : Nat → Str → Parser → Except Thrown Parser
  | 0, _, st => .error ⟨.iterations, st⟩
  | n + 1, buf, st =>
    match quotedStep mem k st with
    | (true, st) => quotedField n (buf ++ [(previous mem st).1]) (previous mem st).2
    | (false, st) => .ok { st with cols := st.cols ++ [some buf] }

/-- `normal_field`, with its `buf` and `has_chars`. -/
def normalField : Nat → Str → Bool → Parser → Except Thrown Parser
  | 0, _, _, st => .error ⟨.iterations, st⟩
  | n + 1, buf, hasChars, st =>
    match accept mem k .character st with
    | (true, st) => normalField n (buf ++ [(previous mem st).1]) true (previous mem st).2
    | (false, st) =>
      .ok { st with cols := st.cols ++ [if hasChars then some buf else none] }

/-- `field`. -/
def field (n : Nat) (st : Parser) : Except Thrown Parser :=
  match accept mem k .quote st with
  | (true, st) =>
    match quotedField mem k n [] st with
    | .error t => .error t
    | .ok st => expect mem k .quote st
  | (false, st) => normalField mem k n [] false st

/-- The loop of `fields`. -/
def moreFields : Nat → Parser → Except Thrown Parser
  | 0, st => .error ⟨.iterations, st⟩
  | n + 1, st =>
    match accept mem k .delimeter st with
    | (false, st) => .ok st
    | (true, st) =>
      match field mem k n st with
      | .error t => .error t
      | .ok st => moreFields n st

/-- `fields`. -/
def fields (n : Nat) (st : Parser) : Except Thrown Parser :=
  match field mem k n st with
  | .error t => .error t
  | .ok st => moreFields mem k n st

/-- The constructor: `p` is one before the string, and the first token is read. The `sym` it
starts from is not read. -/
def Parser.init : Parser := nextsym mem k ⟨[], -1, .eol, []⟩

/-- `parse`. -/
def parse (n : Nat) (st : Parser) : Except Thrown Parser :=
  match fields mem k n st with
  | .error t => .error t
  | .ok st => expect mem k .eol st

/-- `parse_line`: the parser after `parse`, whose `cols` are returned. -/
def parseLine (n : Nat) : Except Thrown Parser :=
  parse mem k n (Parser.init mem k)

end Parser

/-- The addresses read, however the parser ended. -/
def finalReads : Except Thrown Parser → List Int
  | .ok st => st.reads
  | .error t => t.parser.reads

end Primitives.Csv
