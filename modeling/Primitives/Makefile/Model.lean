import Mathlib.Data.List.DropRight
import Mathlib.Data.List.Lex
import Mathlib.Data.Char
import Primitives.Basic
import Primitives.Lib.SortedMap

/-!
# Makefile.am — the code

`makefile_am` of `makefile.h`: a text is loaded record by record into a map of variables, with a
stack of the conditionals that are open. A pointer `p` into the text is here what stands from it on.
At the end of the text stands a zero, which is read as any other character; what stands behind it is
not the text's.

What an included file does is a parameter. `resolve_variables`, which comes after a whole file, is in
`Resolve`.
-/

set_option autoImplicit false

namespace Primitives.Makefile

open Lib

inductive Failure where
  /-- The text is read behind its end: undefined behaviour. -/
  | outOfBounds
  /-- `back` or `pop_back` of an empty vector: undefined behaviour. -/
  | emptyStack
  /-- `std::runtime_error` -/
  | runtimeError (what : String)
deriving DecidableEq, Repr

/-! ## Reading a text -/

/-- `isspace`. For a negative `char` it is undefined; here it is false. -/
def isSpace (c : Char) : Bool := c ∈ [' ', '\t', '\n', '\u000b', '\u000c', '\x0d']

/-- `*p` -/
def peek : Str → Char
  | [] => '\x00'
  | c :: _ => c

def eatSpace (p : Str) : Str := p.dropWhile fun c => isSpace c && c ≠ '\n'

/-- `while (!stop(*p)) ++p;`, with what was read. The zero at the end does not stop it. -/
def eatWhileNot (stop : Char → Bool) : Str → Except Failure (Str × Str)
  | [] => .error .outOfBounds
  | c :: p =>
    if stop c then .ok ([], c :: p)
    else do
      let (res, p) ← eatWhileNot stop p
      return (c :: res, p)

def tokenEnd (c : Char) : Bool := c = ':' || isSpace c || c = '+' || c = '='

def eatToken (p : Str) : Except Failure (Str × Str) := eatWhileNot tokenEnd p

def eatUntil (c : Char) (p : Str) : Except Failure (Str × Str) := eatWhileNot (· = c) p

def eatLine (p : Str) : Except Failure (Str × Str) := do
  let (res, p) ← eatUntil '\n' p
  return (res, p.tail)

/-- `boost::trim` -/
def trim (s : Str) : Str := (s.dropWhile isSpace).rdropWhile isSpace

/-- `split_string`, with `allow_empty` false. -/
def splitString (s : Str) (delims : List Char) : Strings :=
  ((s.splitOnP (· ∈ delims)).map trim).filter (· ≠ [])

/-- The delimiters of `eat_list`. -/
def listDelims : List Char := [' ', '\t', '\\']

/-- The loop of `eat_list`, with what was read. There are as many lines at most as there are
characters, and where there are none the end is read over. -/
def eatLines : Nat → Str → Except Failure (Str × Str)
  | 0, _ => .error .outOfBounds
  | n + 1, p => do
    let (line, p) ← eatLine p
    if line.getLast? = some '\\' then
      let (lines, p) ← eatLines n p
      return (line ++ '\n' :: lines, p)
    else return (line ++ ['\n'], p)

def eatList (p : Str) : Except Failure (Strings × Str) := do
  let (text, p) ← eatLines p.length p
  return (splitString text listDelims, p)

/-- The loop of `eat_commands`. -/
def eatCommandLines : Nat → Str → Except Failure (Strings × Str)
  | 0, p => .ok ([], p)
  | n + 1, p =>
    if peek p = '\t' then do
      let (line, p) ← eatLine p.tail
      let (l, p) ← eatCommandLines n p
      return (line :: l, p)
    else .ok ([], p)

def eatCommands (p : Str) : Except Failure (Strings × Str) := do
  let (_, p) ← eatLine p
  eatCommandLines p.length p

/-! ## Records -/

/-- `if_desc` -/
structure IfDesc where
  ifCurrent : Bool := true
  ifBranch : Bool := false
  elseBranch : Bool := false
deriving DecidableEq, Repr

namespace IfDesc

def switchToElse (d : IfDesc) : IfDesc := { d with ifCurrent := false }

/-- `operator bool` -/
def isTaken (d : IfDesc) : Bool := if d.ifCurrent then d.ifBranch else d.elseBranch

end IfDesc

abbrev Variables := SortedMap Str Strings

/-- `variables.contains(name)` -/
def contains (v : Variables) (name : Str) : Bool := (v.lookup name).isSome

/-- `makefile_am`: `variables`, which is a word of Lean, is `vars`. The back of the stack is the head
of the list. -/
structure MakefileAm where
  vars : Variables
  ifStack : List IfDesc

/-- `if_stack.empty() || if_stack.back()` -/
def parseCond (ifStack : List IfDesc) : Bool :=
  match ifStack with
  | [] => true
  | d :: _ => d.isTaken

/-- Whether the condition of an `if` holds. -/
def ifCondition (v : Variables) (p : Str) : Except Failure (Bool × Str) :=
  if peek p = '!' then do
    let (cond, p) ← eatLine p.tail
    return (!contains v cond, p)
  else do
    let (cond, p) ← eatLine p
    return (contains v cond, p)

/-- The record of a line that begins with `if`, behind that word. -/
def ifRecord (m : MakefileAm) (p : Str) : Except Failure (MakefileAm × Str) := do
  let (holds, p) ← ifCondition m.vars (eatSpace p)
  let parse := parseCond m.ifStack
  let branch := holds && parse
  let d : IfDesc := { ifBranch := branch, elseBranch := !branch && parse }
  return ({ m with ifStack := d :: m.ifStack }, p)

def elseRecord (m : MakefileAm) (p : Str) : Except Failure (MakefileAm × Str) :=
  match m.ifStack with
  | [] => .error .emptyStack
  | d :: ifStack => do
    let (_, p) ← eatLine p
    return ({ m with ifStack := d.switchToElse :: ifStack }, p)

def endifRecord (m : MakefileAm) (p : Str) : Except Failure (MakefileAm × Str) :=
  match m.ifStack with
  | [] => .error .emptyStack
  | _ :: ifStack => do
    let (_, p) ← eatLine p
    return ({ m with ifStack }, p)

/-- The record of a variable, behind its name. -/
def variableRecord (m : MakefileAm) (line : Str) (p : Str) : Except Failure (MakefileAm × Str) :=
  let p := eatSpace p
  if peek p = '=' then do
    let (list, p) ← eatList (eatSpace p.tail)
    return ({ m with vars := m.vars.update line [] fun _ => list }, p)
  else if peek p = ':' then do
    let (list, p) ← eatCommands p
    return ({ m with vars := m.vars.update line [] fun _ => list }, p)
  else if peek p = '+' ∧ peek p.tail = '=' then do
    let (list, p) ← eatList (eatSpace p.tail.tail)
    return ({ m with vars := m.vars.update line [] (· ++ list) }, p)
  else .error (.runtimeError "unimplemented: unexpected symbol")

def wordIf : Str := ['i', 'f']

def wordElse : Str := ['e', 'l', 's', 'e']

def wordEndif : Str := ['e', 'n', 'd', 'i', 'f']

def wordInclude : Str := ['i', 'n', 'c', 'l', 'u', 'd', 'e']

section

-- `load(current_fn.parent_path() / file)`
variable (loadFile : Str → MakefileAm → Except Failure MakefileAm)

def includeRecord (m : MakefileAm) (p : Str) : Except Failure (MakefileAm × Str) := do
  let (file, p) ← eatLine (eatSpace p)
  let m ← loadFile file m
  return (m, p)

/-- `next_record` behind its first token. -/
def tokenRecord (m : MakefileAm) (line : Str) (p : Str) : Except Failure (MakefileAm × Str) :=
  if wordIf <+: line then ifRecord m p
  else if wordElse <+: line then elseRecord m p
  else if wordEndif <+: line then endifRecord m p
  else if parseCond m.ifStack = false then do
    let (_, p) ← eatLine p
    return (m, p)
  else if wordInclude <+: line then includeRecord loadFile m p
  else variableRecord m line p

def nextRecord (m : MakefileAm) (p : Str) : Except Failure (MakefileAm × Str) :=
  let p := eatSpace p
  if peek p = '#' then do
    let (_, p) ← eatLine p
    return (m, p)
  else
    let p := if peek p = '\x0d' then p.tail else p
    if peek p = '\n' then do
      let (_, p) ← eatLine p
      return (m, p)
    else do
      let (line, p) ← eatToken p
      tokenRecord loadFile m line p

/-- The loop of `load`, with a bound on the records. -/
def loadRecords : Nat → MakefileAm → Str → Except Failure MakefileAm
  | _, m, [] => .ok m
  | 0, _, _ :: _ => .error .outOfBounds
  | n + 1, m, c :: s => do
    let (m, p) ← nextRecord loadFile m (c :: s)
    loadRecords n m p

/-- `load` of a text. A record has a character at least (`length_nextRecord`). -/
def load (m : MakefileAm) (s : Str) : Except Failure MakefileAm :=
  loadRecords loadFile s.length m s

end

end Primitives.Makefile
