import Mathlib.Data.List.Lex
import Mathlib.Data.Char
import Primitives.Basic
import Primitives.Lib.Find
import Primitives.Lib.SortedMap

/-!
# HTML — the code

The tokenizer and the tree builder of `html.h`. A position in a text is a `size_t`, and a search that
finds nothing returns `npos`, to which the code adds like to any other position; the arithmetic is
`sizeT`. Both loops, and the one over the attributes of a tag, take a bound on their steps: `fuel`
says that it was used up.
-/

set_option autoImplicit false

namespace Primitives.Html

open Lib

inductive Failure where
  /-- `std::out_of_range`, thrown by `substr`. -/
  | outOfRange
  /-- A view is read, or cut, outside of its text: undefined behaviour. -/
  | undefined
  /-- More steps than there were to be. -/
  | fuel
deriving DecidableEq, Repr

/-! ## Views -/

def npos : Nat := 2 ^ 64 - 1

/-- `d.find(pat, p)`, for a `pat` that is not empty. -/
def findFrom (pat d : Str) (p : Nat) : Nat :=
  match find pat (d.drop p) with
  | some i => p + i
  | none => npos

/-- `d.substr(p, n)` -/
def substr (d : Str) (p n : Nat) : Except Failure Str :=
  if p ≤ d.length then .ok ((d.drop p).take n) else .error .outOfRange

/-- `d.find_first_of(set, p)`, and `find_first_not_of` for the complement. -/
def firstFrom (q : Char → Bool) (d : Str) (p : Nat) : Nat :=
  match (d.drop p).findIdx? q with
  | some i => p + i
  | none => npos

/-- `d[i]` -/
def charAt (d : Str) (i : Nat) : Except Failure Char :=
  match d[i]? with
  | some c => .ok c
  | none => .error .undefined

/-! ## Tokens -/

inductive TokenType where
  | comment
  | text
  | cdata
  | beginTag
  | endTag
  | completeTag
deriving DecidableEq, Repr

structure Token where
  t : TokenType
  d : Str
deriving DecidableEq, Repr

/-- The names that `is_void_element` knows. -/
def voidNames : Strings :=
  [['a', 'r', 'e', 'a'],
    ['b', 'a', 's', 'e'],
    ['b', 'r'],
    ['c', 'o', 'l'],
    ['e', 'm', 'b', 'e', 'd'],
    ['h', 'r'],
    ['i', 'm', 'g'],
    ['i', 'n', 'p', 'u', 't'],
    ['l', 'i', 'n', 'k'],
    ['m', 'e', 't', 'a'],
    ['p', 'a', 'r', 'a', 'm'],
    ['s', 'o', 'u', 'r', 'c', 'e'],
    ['t', 'r', 'a', 'c', 'k'],
    ['w', 'b', 'r']]

/-- `is_void_element` of a tag that is not empty. -/
def isVoidElement (sv : Str) : Bool := voidNames.any fun name => name.isPrefixOf sv.tail

/-- `preserve_space` -/
def preserveSpace (sv : Str) : Bool := ['p', 'r', 'e'].isPrefixOf sv.tail

def commentBegin : Str := ['<', '!', '-', '-']

def commentEnd : Str := ['-', '-', '>']

def cdataBegin : Str := ['<', '!', '[', 'C', 'D', 'A', 'T', 'A', '[']

def cdataEnd : Str := [']', ']', '>']

/-- The type of a tag. `remove_prefix(1)` is undefined for an empty one. -/
def tagType (t : Str) : Except Failure TokenType :=
  if ['<', '/'] <+: t then .ok .endTag
  else if ['/', '>'] <:+ t then .ok .completeTag
  else if t = [] then .error .undefined
  else .ok (if isVoidElement t then .completeTag else .beginTag)

/-- What an iteration of `make_tokens` does: it adds a token and leaves the loop, or goes on at a
position. -/
inductive Step where
  | leave (t : Token)
  | goOn (t : Token) (p : Nat)
deriving DecidableEq, Repr

/-- An iteration at position `p`. -/
def step (d : Str) (p : Nat) : Except Failure Step :=
  let b := findFrom ['<'] d p
  if b = npos then do
    let t ← substr d p (sizeT (d.length - p))
    return .leave ⟨.text, t⟩
  else if b ≠ p then do
    let t ← substr d p (b - p)
    return .goOn ⟨.text, t⟩ b
  else if commentBegin <+: d.drop b then do
    let e := sizeT (findFrom commentEnd d b + commentEnd.length)
    let t ← substr d b (sizeT (e - b))
    return .goOn ⟨.comment, t⟩ e
  else if cdataBegin <+: d.drop b then do
    let e := findFrom cdataEnd d b
    let b := b + cdataBegin.length
    let t ← substr d b (sizeT (e - b))
    return .goOn ⟨.cdata, t⟩ (sizeT (e + cdataEnd.length))
  else do
    let e := sizeT (findFrom ['>'] d b + 1)
    let t ← substr d b (sizeT (e - b))
    let type ← tagType t
    return .goOn ⟨type, t⟩ e

/-- The loop of `make_tokens`, from position `p`. -/
def tokensFrom (d : Str) : Nat → Nat → Except Failure (List Token)
  | 0, _ => .error .fuel
  | n + 1, p => do
    match ← step d p with
    | .leave t => return [t]
    | .goOn t p => do
      let ts ← tokensFrom d n p
      return t :: ts

def makeTokens (n : Nat) (d : Str) : Except Failure (List Token) := tokensFrom d n 0

/-! ## Trees -/

/-- `html_node` -/
inductive HtmlNode where
  | mk (d : Str) (attributes : SortedMap Str Str) (children : List HtmlNode)

namespace HtmlNode

def d : HtmlNode → Str
  | mk d _ _ => d

def attributes : HtmlNode → SortedMap Str Str
  | mk _ attributes _ => attributes

/-- `html_node{}` -/
def empty : HtmlNode := mk [] .empty []

/-- `html_node(std::string_view text)` -/
def ofText (text : Str) : HtmlNode := mk text .empty []

def tagEnd : Str := [' ', '/', '>']

def nameEnd : Str := [' ', '=', '/', '>']

def quotes : Str := ['\x27', '\x22']

/-- The loop over the attributes of a tag. A value is kept for the attributes behind it that have
none. -/
def attributesFrom (text : Str) :
    Nat → Nat → Str → SortedMap Str Str → Except Failure (SortedMap Str Str)
  | 0, _, _, _ => .error .fuel
  | n + 1, p, v, attributes => do
    let p := firstFrom (!tagEnd.contains ·) text p
    if p = npos then return attributes
    let e := firstFrom (nameEnd.contains ·) text p
    let k ← substr text p (sizeT (e - p))
    let c ← charAt text e
    if c = '=' then
      let p := firstFrom (quotes.contains ·) text p
      let quote ← charAt text p
      let e := findFrom (if quote = '\x27' then ['\x27'] else ['\x22']) text (p + 1)
      let v ← substr text (p + 1) (sizeT (e - (p + 1)))
      attributesFrom text n (sizeT (e + 1)) v (attributes.emplace k v)
    else attributesFrom text n e v (attributes.emplace k v)

/-- `html_node(std::string_view text, auto)` -/
def ofTag (n : Nat) (text : Str) : Except Failure HtmlNode := do
  let p := firstFrom (tagEnd.contains ·) text 0
  let d ← substr text 1 (sizeT (p - 1))
  let attributes ← attributesFrom text n p [] .empty
  return mk d attributes []

end HtmlNode

def doctype : Str := ['<', '!', 'D', 'O', 'C', 'T', 'Y', 'P', 'E']

def isSpace (c : Char) : Bool := c = ' ' || c = '\r' || c = '\n' || c = '\t'

/-- The recursive `make_tree`, with the tokens that it leaves. -/
def makeTree : Nat → Bool → List Token → Except Failure (List HtmlNode × List Token)
  | 0, _, _ => .error .fuel
  | _ + 1, _, [] => .ok ([], [])
  | n + 1, keepWhitespace, t :: ts =>
    if doctype <+: t.d ∨ t.t = .comment then makeTree n keepWhitespace ts
    else if keepWhitespace = false ∧ t.d.all isSpace then makeTree n keepWhitespace ts
    else
      match t.t with
      | .text | .cdata | .comment => do
        let (tags, rest) ← makeTree n keepWhitespace ts
        return (.ofText t.d :: tags, rest)
      | .completeTag => do
        let node ← HtmlNode.ofTag n t.d
        let (tags, rest) ← makeTree n keepWhitespace ts
        return (node :: tags, rest)
      | .beginTag => do
        let node ← HtmlNode.ofTag n t.d
        let (children, rest) ← makeTree n (keepWhitespace || preserveSpace t.d) ts
        let (tags, rest) ← makeTree n keepWhitespace rest
        return (.mk node.d node.attributes children :: tags, rest)
      | .endTag => .ok ([], ts)

/-- `make_tree(tokens)` -/
def makeTreeOf (n : Nat) (tokens : List Token) : Except Failure HtmlNode := do
  let (tree, _) ← makeTree n false tokens
  return (tree.find? fun t => ['<', 'h', 't', 'm', 'l'].isPrefixOf t.d).getD .empty

end Primitives.Html
