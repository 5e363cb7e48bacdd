import Primitives.Basic
import Primitives.Lib.Find

/-!
# Emitters — the code

`Emitter` of `emitter.h`: lines with indents, some of which are emitters of their own, to any depth.
The text of such an inline emitter is cut by one newline at its end. With an empty newline the loop
that splits a text has no end.

A `CppEmitter` is an emitter whose operations write certain lines; what it adds is `endBlock`. The
namespaces that it keeps are texts of lines, and are left out.
-/

set_option autoImplicit false

namespace Primitives.Emitters

open Lib

inductive Failure where
  /-- `std::length_error`: a size that was below zero, as a `size_t`. -/
  | lengthError
  /-- A loop without an end. -/
  | endless
deriving DecidableEq, Repr

/-- The parts between the newlines, for a newline that is not empty. There are `n` newlines at
most. -/
def splitAt (newline : Str) : Nat → Str → Strings
  | 0, text => [text]
  | n + 1, text =>
    match find newline text with
    | none => [text]
    | some p => text.take p :: splitAt newline n (text.drop (p + newline.length))

/-- `detail::splitWithIndent` -/
def splitWithIndent (text newline : Str) : Except Failure Strings :=
  if newline = [] then .error .endless else .ok (splitAt newline text.length text)

mutual

/-- `detail::Line`, and `EmitterLine`, whose own text is not read. -/
inductive Line where
  | line (nIndents : Int) (text : Str)
  | emitterLine (nIndents : Int) (text : Str) (emitter : Emitter)

inductive Emitter where
  | mk (lines : List Line) (nIndents : Int) (indent newline : Str)

end

namespace Emitter

def lines : Emitter → List Line
  | mk lines _ _ _ => lines

def nIndents : Emitter → Int
  | mk _ nIndents _ _ => nIndents

def indent : Emitter → Str
  | mk _ _ indent _ => indent

def newline : Emitter → Str
  | mk _ _ _ newline => newline

def setLines (e : Emitter) (lines : List Line) : Emitter := mk lines e.nIndents e.indent e.newline

end Emitter

namespace Line

def nIndents : Line → Int
  | line n _ => n
  | emitterLine n _ _ => n

def setIndents (n : Int) : Line → Line
  | line _ text => line n text
  | emitterLine _ text e => emitterLine n text e

def setText (t : Str) : Line → Line
  | line n _ => line n t
  | emitterLine n _ e => emitterLine n t e

/-- `empty()` -/
def isEmpty : Line → Bool
  | line _ _ => false
  | emitterLine _ _ e => e.lines.isEmpty

end Line

/-- `t.resize(t.size() - newline.size())` -/
def cut (t newline : Str) : Except Failure Str :=
  if t.length < newline.length then .error .lengthError else .ok (t.take (t.length - newline.length))

/-- The strings of a line, with indents before and newlines behind them. -/
def render (indent newline : Str) (n : Int) (t : Str) : Except Failure Strings := do
  let space := if t = [] then [] else (List.replicate n.toNat indent).flatten
  let parts ← splitWithIndent t newline
  return parts.map fun p => space ++ p ++ newline

mutual

/-- `Line::getText` -/
def Line.getText : Line → Except Failure Str
  | .line _ text => .ok text
  | .emitterLine _ _ e => do
    let t ← e.getText
    cut t e.newline

def Emitter.getText : Emitter → Except Failure Str
  | .mk lines _ indent newline => do
    let s ← strings indent newline lines
    return s.flatten

/-- The loop of `getStrings`. -/
def strings (indent newline : Str) : List Line → Except Failure Strings
  | [] => .ok []
  | l :: ls => do
    if l.isEmpty then strings indent newline ls
    else
      let t ← l.getText
      let s ← render indent newline l.nIndents t
      let rest ← strings indent newline ls
      return s ++ rest

end

namespace Emitter

def getStrings (e : Emitter) : Except Failure Strings := strings e.indent e.newline e.lines

/-- `addLineWithIndent(text, n)` -/
def addLineWithIndent (e : Emitter) (text : Str) (n : Int) : Except Failure Emitter := do
  let parts ← splitWithIndent text e.newline
  return e.setLines (e.lines ++ parts.map fun p => .line n p)

def addLine (e : Emitter) (s : Str) : Except Failure Emitter :=
  e.addLineWithIndent s (if s = [] then 0 else e.nIndents)

def removeLines (e : Emitter) (n : Nat) : Emitter := e.setLines (e.lines.take (e.lines.length - n))

/-- `addEmitter`, and `createInlineEmitter` with a new emitter -/
def addEmitter (e rhs : Emitter) : Emitter :=
  e.setLines (e.lines ++ [.emitterLine e.nIndents [] rhs])

def increaseIndent (e : Emitter) (n : Int) : Emitter :=
  mk e.lines (e.nIndents + n) e.indent e.newline

def decreaseIndent (e : Emitter) (n : Int) : Emitter :=
  mk e.lines (e.nIndents - n) e.indent e.newline

/-- What `addText` does with the last line. -/
def addToLine (nIndents : Int) (s : Str) (l : Line) : Except Failure Line := do
  let l := if s ≠ [] ∧ l.nIndents = 0 then l.setIndents nIndents else l
  let t ← l.getText
  return l.setText (t ++ s)

/-- An operation on `lines.back()`. -/
def onLast (e : Emitter) (f : Line → Except Failure Line) : Except Failure Emitter :=
  match e.lines.getLast? with
  | none => .ok e
  | some l => do
    let l ← f l
    return e.setLines (e.lines.dropLast ++ [l])

def addText (e : Emitter) (s : Str) : Except Failure Emitter := do
  let e ← if e.lines = [] then e.addLine [] else .ok e
  e.onLast (addToLine e.nIndents s)

def trimEnd (e : Emitter) (n : Nat) : Except Failure Emitter :=
  e.onLast fun l => do
    let t ← l.getText
    return l.setText (t.take (t.length - n))

/-- The lines at the end that have no text, from the last one on. -/
def countEmpty : List Line → Except Failure Nat
  | [] => .ok 0
  | l :: ls => do
    let t ← l.getText
    if t = [] then
      let e ← countEmpty ls
      return e + 1
    else return 0

/-- `while (e++ != n) addLine();` -/
def addLines (e : Emitter) : Nat → Except Failure Emitter
  | 0 => .ok e
  | n + 1 => do
    let e ← e.addLine []
    e.addLines n

def emptyLines (e : Emitter) (n : Nat) : Except Failure Emitter := do
  let c ← countEmpty e.lines.reverse
  if c < n then e.addLines (n - c)
  else return e.setLines (e.lines.take (e.lines.length - (c - n)))

/-- The loop of `operator+=`. -/
def copyLines (nIndents : Int) : List Line → Except Failure (List Line)
  | [] => .ok []
  | l :: ls => do
    if l.isEmpty then copyLines nIndents ls
    else
      let t ← l.getText
      let rest ← copyLines nIndents ls
      return .line (l.nIndents + nIndents) t :: rest

/-- `operator+=` -/
def append (e rhs : Emitter) : Except Failure Emitter := do
  let ls ← copyLines e.nIndents rhs.lines
  return e.setLines (e.lines ++ ls)

/-- `CppEmitter::endBlock` -/
def endBlock (e : Emitter) (semicolon : Bool) : Except Failure Emitter := do
  let e ← (e.decreaseIndent 1).emptyLines 0
  e.addLine (if semicolon then ['}', ';'] else ['}'])

end Emitter

/-! ## Runs -/

/-- A call of a public operation. The other ones of a `CppEmitter` are made of these. -/
inductive Op where
  | addLine (s : Str)
  | addLineWithIndent (text : Str) (n : Int)
  | removeLines (n : Nat)
  | addText (s : Str)
  | addEmitter (rhs : Emitter)
  | increaseIndent (n : Int)
  | decreaseIndent (n : Int)
  | trimEnd (n : Nat)
  | getText
  | getStrings
  | emptyLines (n : Nat)
  | append (rhs : Emitter)
  | clear
  | endBlock (semicolon : Bool)
  /-- A call for the inline emitter of a line. -/
  | inline (i : Nat) (op : Op)

namespace Op

/-- The emitter that a call leaves. -/
def apply : Op → Emitter → Except Failure Emitter
  | addLine s, e => e.addLine s
  | addLineWithIndent text n, e => e.addLineWithIndent text n
  | removeLines n, e => .ok (e.removeLines n)
  | addText s, e => e.addText s
  | addEmitter rhs, e => .ok (e.addEmitter rhs)
  | increaseIndent n, e => .ok (e.increaseIndent n)
  | decreaseIndent n, e => .ok (e.decreaseIndent n)
  | trimEnd n, e => e.trimEnd n
  | getText, e => do
    let _ ← e.getText
    return e
  | getStrings, e => do
    let _ ← e.getStrings
    return e
  | emptyLines n, e => e.emptyLines n
  | append rhs, e => e.append rhs
  | clear, e => .ok (e.setLines [])
  | endBlock semicolon, e => e.endBlock semicolon
  | inline i op, e =>
    match e.lines[i]? with
    | some (.emitterLine n text inner) => do
      let inner ← op.apply inner
      return e.setLines (e.lines.set i (.emitterLine n text inner))
    | _ => .ok e

end Op

/-- One call after another. -/
def run : List Op → Emitter → Except Failure Emitter
  | [], e => .ok e
  | op :: ops, e => do
    let e ← op.apply e
    run ops e

end Primitives.Emitters
