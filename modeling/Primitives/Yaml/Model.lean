import Primitives.Basic

/-!
# The merge of YAML nodes — the code

`merge` of `yaml.h`. The nodes are those of a library that is not part of the repository; it is a parameter
here (`NodeLib`). A `YAML::Node` is a handle: `Node` is what it refers to, and may be the child of several
maps and sequences. Two nodes share their data if they have one `ref`.

The keys of a map are its keys as strings. The recursion takes a bound on its depth: `fuel` says that it was
used up.
-/

set_option autoImplicit false

namespace Primitives.Yaml

inductive Failure where
  /-- `SW_RUNTIME_ERROR`. -/
  | runtimeError (text : Str)
  /-- `YAML::BadSubscript`. -/
  | badSubscript
  /-- `YAML::InvalidNode`: an element of a sequence has no key. -/
  | invalidNode
  /-- More steps than there were to be. -/
  | fuel
deriving DecidableEq, Repr

/-- What a node has, by its `YAML::NodeType`. -/
inductive Data (Node : Type) where
  | undefined
  | null
  | scalar (s : Str)
  | sequence (ns : List Node)
  | map (es : List (Str × Node))

/-- The nodes of a YAML library. -/
structure NodeLib (Store Node Ref : Type) where
  live : Store → Node → Prop
  /-- What the node refers to. -/
  ref : Store → Node → Ref
  data : Store → Ref → Data Node
  /-- A new null node. -/
  create : Store → Node × Store
  /-- `node.push_back(c)` -/
  pushBack : Store → Node → Node → Store
  /-- `node[k]`, if it does not throw. -/
  subscript : Store → Node → Str → Option (Node × Store)
  /-- `node = rhs` for a handle that refers to a node. -/
  assign : Store → Node → Node → Store
  /-- `YAML::Clone(node)` -/
  clone : Store → Node → Node × Store

def NodeLib.view {Store Node Ref : Type} (lib : NodeLib Store Node Ref) (st : Store) (n : Node) :
    Data Node :=
  lib.data st (lib.ref st n)

/-- `YamlMergeFlags::scalar_scalar` -/
abbrev ScalarScalar := Int

def scalarsToSet : ScalarScalar := 0

def overwriteScalars : ScalarScalar := 1

structure YamlMergeFlags where
  scalarScalar : ScalarScalar := 0

section

variable {Store Node Ref : Type} (lib : NodeLib Store Node Ref)

/-- The pairs that a `for` over the node has. -/
def pairs (st : Store) (n : Node) : Except Failure (List (Str × Node)) :=
  match lib.view st n with
  | .map es => .ok es
  | .sequence (_ :: _) => .error .invalidNode
  | _ => .ok []

/-- `node[k]` -/
def subscript (st : Store) (n : Node) (k : Str) : Except Failure (Node × Store) :=
  match lib.subscript st n k with
  | some r => .ok r
  | none => .error .badSubscript

/-- `node[k] = rhs` -/
def assignAt (st : Store) (n : Node) (k : Str) (rhs : Node) : Except Failure Store := do
  let (c, st) ← subscript lib st n k
  .ok (lib.assign st c rhs)

/-- `YAML::Clone(f)` of a pair `f`. The node that the pair itself is, is empty, and not the value. -/
def clonePair (st : Store) : Node × Store := lib.create st

/-- `for (const auto &fv : f.second) t.second.push_back(YAML::Clone(fv));` -/
def pushClones (t : Node) : List Node → Store → Store
  | [], st => st
  | fv :: fs, st =>
    let (c, st) := lib.clone st fv
    pushClones t fs (lib.pushBack st t c)

section

variable (flags : YamlMergeFlags) (merge : Store → Node → Node → Except Failure Store) (dst src : Node)

/-- The loop body of `merge` for a pair `f` of `src` and a pair `t` of `dst` with one key. -/
def mergePair (f t : Str × Node) (st : Store) : Except Failure Store :=
  match lib.view st f.2, lib.view st t.2 with
  | .scalar _, .scalar _ =>
    if flags.scalarScalar = scalarsToSet then
      let (nn, st) := lib.create st
      let st := lib.pushBack st nn t.2
      let st := lib.pushBack st nn f.2
      assignAt lib st dst t.1 nn
    else if flags.scalarScalar = overwriteScalars then do
      let (c, st) ← subscript lib st src f.1
      let (c, st) := lib.clone st c
      assignAt lib st dst t.1 c
    else .ok st -- `DontTouchScalars`
  | .scalar _, .sequence _ => .ok (lib.pushBack st t.2 f.2)
  | .sequence _, .scalar _ =>
    let (nn, st) := clonePair lib st
    let st := lib.pushBack st nn t.2
    assignAt lib st dst t.1 nn
  | .sequence fs, .sequence _ => .ok (pushClones lib t.2 fs st)
  | .map _, .map _ => merge st t.2 f.2
  | _, _ =>
    .error (.runtimeError ("yaml merge: nodes ('".toList ++ f.1 ++ "') has incompatible types".toList))

/-- The inner loop, over the pairs of `dst`. -/
def innerLoop (f : Str × Node) : List (Str × Node) → Bool → Store → Except Failure (Bool × Store)
  | [], found, st => .ok (found, st)
  | t :: ts, found, st =>
    if f.1 ≠ t.1 then innerLoop f ts found st
    else do
      let st ← mergePair lib flags merge dst src f t st
      innerLoop f ts true st

/-- The outer loop, over the pairs of `src`. -/
def outerLoop : List (Str × Node) → Store → Except Failure Store
  | [], st => .ok st
  | f :: fs, st => do
    let ts ← pairs lib st dst
    let (found, st) ← innerLoop lib flags merge dst src f ts false st
    if found then outerLoop fs st
    else
      let (c, st) := lib.clone st f.2
      let st ← assignAt lib st dst f.1 c
      outerLoop fs st

end

def isUndefined {Node : Type} : Data Node → Bool
  | .undefined => true
  | _ => false

def isMap {Node : Type} : Data Node → Bool
  | .map _ => true
  | _ => false

def merge (flags : YamlMergeFlags) : Nat → Store → Node → Node → Except Failure Store
  | 0, _, _, _ => .error .fuel
  | n + 1, st, dst, src =>
    if isUndefined (lib.view st src) then .ok st
    else do
      let st :=
        if isMap (lib.view st dst) then st
        else
          let (y, st) := lib.create st
          lib.assign st dst y
      let fs ← pairs lib st src
      outerLoop lib flags (merge flags n) dst src fs st

end

end Primitives.Yaml
