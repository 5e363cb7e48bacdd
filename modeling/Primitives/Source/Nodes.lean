import Primitives.Source.Model

/-!
# Saving and loading sources

A source is saved under the name of its type, with the fields that are set, and loaded by the constructor
of the type that the name stands for. The code is there twice, for JSON and for YAML, with the same
steps but for two: JSON has the url even if it is empty, and the urls of many files are put under `url`
in JSON and once more under the name of the type in YAML.

The values of both are those of libraries that are not part of the repository. A library is a parameter
(`NodeLib`), with what is documented of it as hypotheses (`Documented`).
-/

set_option autoImplicit false

namespace Primitives.Sources

inductive Format where
  | json
  | yaml
deriving DecidableEq, Repr

/-- The values of a library. -/
structure NodeLib (Node : Type) where
  /-- The object that is saved into. -/
  empty : Node
  /-- What `node[k]` is before anything is assigned to it. -/
  new : Node
  ofString : Str → Node
  ofInt : Int64 → Node
  /-- The node with another one, which is done with it, at `node[k]`. -/
  set : Node → Str → Node → Node
  pushBack : Node → Node → Node
  /-- `IsDefined`, and always in JSON. -/
  isDefined : Node → Bool
  isScalar : Node → Bool
  /-- `IsMap`, or `is_object`. -/
  isMap : Node → Bool
  size : Node → Nat
  /-- The key and the value of `begin()`. -/
  front : Node → Option (Str × Node)
  /-- What is found under a key. -/
  find : Node → Str → Except Failure (Option Node)
  asString : Node → Except Failure Str
  asInt : Node → Except Failure Int64
  /-- The elements of a sequence. -/
  elements : Node → Option (List Node)

namespace NodeLib

variable {Node : Type} (lib : NodeLib Node)

/-- A node that only keys were set in. -/
inductive Keyed : Node → Prop
  | empty : Keyed lib.empty
  | new : Keyed lib.new
  | set {n v : Node} (k : Str) : Keyed n → lib.isDefined v = true → Keyed (lib.set n k v)

/-- What is documented of the library. A subscript alone adds nothing to an object in YAML, and a null
to one in JSON. -/
structure Documented (fmt : Format) : Prop where
  asString_ofString : ∀ x, lib.asString (lib.ofString x) = .ok x
  asInt_ofInt : ∀ i, lib.asInt (lib.ofInt i) = .ok i
  isDefined_ofString : ∀ x, lib.isDefined (lib.ofString x) = true
  isDefined_ofInt : ∀ i, lib.isDefined (lib.ofInt i) = true
  isDefined_new : lib.isDefined lib.new = true ↔ fmt = .json
  isDefined_set : ∀ {n k v}, lib.Keyed n → lib.isDefined v = true → lib.isDefined (lib.set n k v) = true
  find_empty : ∀ k, lib.find lib.empty k = .ok none
  find_new : ∀ k, lib.find lib.new k = .ok none
  find_set : ∀ {n k v}, lib.Keyed n → lib.isDefined v = true → ∀ k',
    lib.find (lib.set n k v) k' = if k' = k then .ok (some v) else lib.find n k'
  isMap_set : ∀ {n k v}, lib.Keyed n → lib.isDefined v = true → lib.isMap (lib.set n k v) = true
  isScalar_set : ∀ {n k v}, lib.Keyed n → lib.isDefined v = true → lib.isScalar (lib.set n k v) = false
  elements_set : ∀ {n k v}, lib.Keyed n → lib.isDefined v = true → lib.elements (lib.set n k v) = none
  size_set : ∀ {k v}, lib.isDefined v = true → lib.size (lib.set lib.empty k v) = 1
  size_set_undefined : ∀ {k v}, lib.isDefined v = false → lib.size (lib.set lib.empty k v) = 0
  front_set : ∀ {k v}, lib.isDefined v = true → lib.front (lib.set lib.empty k v) = some (k, v)
  elements_pushBack_new : ∀ x, lib.elements (lib.pushBack lib.new x) = some [x]
  elements_pushBack : ∀ {n xs}, lib.elements n = some xs → ∀ x,
    lib.elements (lib.pushBack n x) = some (xs ++ [x])
  isDefined_pushBack : ∀ {n x}, n = lib.new ∨ (lib.elements n).isSome = true →
    lib.isDefined (lib.pushBack n x) = true

end NodeLib

section

variable {Node : Type} (fmt : Format) (lib : NodeLib Node)

/-! ## Saving -/

/-- `JSON_ADD_NOT_EMPTY`, `YAML_SET_NOT_EMPTY`. -/
def addNotEmpty (root : Node) (name x : Str) : Node :=
  if x ≠ [] then lib.set root name (lib.ofString x) else root

/-- `JSON_ADD_NOT_MINUS_ONE`, `YAML_SET_NOT_MINUS_ONE`. -/
def addNotMinusOne (root : Node) (name : Str) (x : Int64) : Node :=
  if x ≠ -1 then lib.set root name (lib.ofInt x) else root

def SourceUrl.save1 (url : Str) (root : Node) : Node :=
  match fmt with
  | .json => lib.set root "url".toList (lib.ofString url)
  | .yaml => addNotEmpty lib root "url".toList url

def Git.save1 (s : Git) (root : Node) : Node :=
  let root := SourceUrl.save1 fmt lib s.url root
  let root := addNotEmpty lib root "tag".toList s.tag
  let root := addNotEmpty lib root "branch".toList s.branch
  addNotEmpty lib root "commit".toList s.commit

def Hg.save1 (s : Hg) (root : Node) : Node :=
  let root := s.toGit.save1 fmt lib root
  addNotMinusOne lib root "revision".toList s.revision

def Bzr.save1 (s : Bzr) (root : Node) : Node :=
  let root := SourceUrl.save1 fmt lib s.url root
  let root := addNotEmpty lib root "tag".toList s.tag
  addNotMinusOne lib root "revision".toList s.revision

def Cvs.save1 (s : Cvs) (root : Node) : Node :=
  let root := SourceUrl.save1 fmt lib s.url root
  let root := addNotEmpty lib root "tag".toList s.tag
  let root := addNotEmpty lib root "branch".toList s.branch
  let root := addNotEmpty lib root "revision".toList s.revision
  addNotEmpty lib root "module".toList s.module

def Svn.save1 (s : Svn) (root : Node) : Node :=
  let root := SourceUrl.save1 fmt lib s.url root
  let root := addNotEmpty lib root "tag".toList s.tag
  let root := addNotEmpty lib root "branch".toList s.branch
  addNotMinusOne lib root "revision".toList s.revision

/-- `root[k]` that is assigned to. -/
def subscript (root : Node) (k : Str) : Node :=
  match lib.find root k with
  | .ok (some child) => child
  | _ => lib.new

/-- `root[k].push_back(x)` for all `x` of a list. -/
def pushAll (k : Str) (xs : List Str) (root : Node) : Node :=
  xs.foldl (fun root x => lib.set root k (lib.pushBack (subscript lib root k) (lib.ofString x))) root

def RemoteFiles.save1 (urls : Finset Str) (root : Node) : Node :=
  match fmt with
  | .json => pushAll lib "url".toList (elements urls) root
  | .yaml => pushAll lib SourceType.remoteFiles.toString (elements urls) root

def Source.save1 : Source → Node → Node
  | .emptySource, root => root
  | .git s, root => s.save1 fmt lib root
  | .mercurial s, root => s.save1 fmt lib root
  | .bazaar s, root => s.save1 fmt lib root
  | .fossil s, root => s.save1 fmt lib root
  | .cvs s, root => s.save1 fmt lib root
  | .svn s, root => s.save1 fmt lib root
  | .remoteFile url, root => SourceUrl.save1 fmt lib url root
  | .remoteFiles urls, root => RemoteFiles.save1 fmt lib urls root

/-- `Source::save`. -/
def Source.save (s : Source) (root : Node) : Node :=
  lib.set root s.getString (s.save1 fmt lib (subscript lib root s.getString))

/-! ## Loading -/

/-- `JSON_GET_STRING`, `YAML_EXTRACT_AUTO` of a string; `x` is what the field has before. -/
def getString (root : Node) (name x : Str) : Except Failure Str := do
  match ← lib.find root name with
  | some v => lib.asString v
  | none => return x

/-- `JSON_GET_INT`, `YAML_EXTRACT_AUTO` of a number. -/
def getInt (root : Node) (name : Str) (x : Int64) : Except Failure Int64 := do
  match ← lib.find root name with
  | some v => lib.asInt v
  | none => return x

def SourceUrl.ofNode (root : Node) : Except Failure Str := getString lib root "url".toList []

/-- The constructor of `Git` that does not check. -/
def Git.unchecked (root : Node) : Except Failure Git := do
  let url ← SourceUrl.ofNode lib root
  let tag ← getString lib root "tag".toList []
  let branch ← getString lib root "branch".toList []
  let commit ← getString lib root "commit".toList []
  return ⟨url, tag, branch, commit⟩

def Git.ofNode (root : Node) : Except Failure Git := do
  let s ← Git.unchecked lib root
  s.checkValid
  return s

/-- The member `revision` of `Hg` is not initialised: `indeterminate` is what it has before it is
read. -/
def Hg.ofNode (indeterminate : Int64) (root : Node) : Except Failure Hg := do
  let s ← Git.unchecked lib root
  let revision ← getInt lib root "revision".toList indeterminate
  let s : Hg := ⟨s, revision⟩
  s.checkValid
  return s

def Bzr.ofNode (root : Node) : Except Failure Bzr := do
  let url ← SourceUrl.ofNode lib root
  let tag ← getString lib root "tag".toList []
  let revision ← getInt lib root "revision".toList (-1)
  let s : Bzr := ⟨url, tag, revision⟩
  s.checkValid
  return s

def Cvs.ofNode (root : Node) : Except Failure Cvs := do
  let url ← SourceUrl.ofNode lib root
  let tag ← getString lib root "tag".toList []
  let branch ← getString lib root "branch".toList []
  let revision ← getString lib root "revision".toList []
  let module ← getString lib root "module".toList []
  let s : Cvs := ⟨url, module, tag, branch, revision⟩
  s.checkValid
  return s

def Svn.ofNode (root : Node) : Except Failure Svn := do
  let url ← SourceUrl.ofNode lib root
  let tag ← getString lib root "tag".toList []
  let branch ← getString lib root "branch".toList []
  let revision ← getInt lib root "revision".toList (-1)
  let s : Svn := ⟨url, tag, branch, revision⟩
  s.checkValid
  return s

/-- `get_sequence`. -/
def getSequence (node : Node) : Except Failure (List Str) :=
  if lib.isDefined node = false then .ok []
  else if lib.isScalar node then do return [← lib.asString node]
  else
    match lib.elements node with
    | some xs => xs.mapM lib.asString
    | none => .ok []

/-- `Strings s = j["url"]` in JSON, and `get_sequence_set` of the node itself in YAML. -/
def RemoteFiles.ofNode (root : Node) : Except Failure (Finset Str) :=
  match fmt with
  | .json => do
    match ← lib.find root "url".toList with
    | none => .error .badType
    | some v =>
      match lib.elements v with
      | none => .error .badType
      | some xs => return (← xs.mapM lib.asString).toFinset
  | .yaml => do return (← getSequence lib root).toFinset

/-- The constructor of a type. -/
def SourceType.ofNode (indeterminate : Int64) (root : Node) : SourceType → Except Failure Source
  | .emptySource => .ok .emptySource
  | .git => .git <$> Git.ofNode lib root
  | .mercurial => .mercurial <$> Hg.ofNode lib indeterminate root
  | .bazaar => .bazaar <$> Bzr.ofNode lib root
  | .fossil => .fossil <$> Git.ofNode lib root
  | .cvs => .cvs <$> Cvs.ofNode lib root
  | .svn => .svn <$> Svn.ofNode lib root
  | .remoteFile => .remoteFile <$> SourceUrl.ofNode lib root
  | .remoteFiles => .remoteFiles <$> RemoteFiles.ofNode fmt lib root

/-- `Source::load`. -/
def Source.load (indeterminate : Int64) (root : Node) : Except Failure Source :=
  if lib.size root ≠ 1 then .error .notOneObject
  else if lib.isMap root = false then .error .notObject
  else
    match lib.front root with
    | none => .error .notObject
    | some (key, value) => do
      let t ← fromString key
      t.ofNode fmt lib indeterminate value

end

/-! ## Trees -/

inductive Tree where
  | undefined
  | null
  | text (x : Str)
  | number (i : Int64)
  | sequence (xs : List Tree)
  | map (es : List (Str × Tree))

namespace Tree

def entries : Tree → List (Str × Tree)
  | .map es => es
  | _ => []

def put (k : Str) (v : Tree) : List (Str × Tree) → List (Str × Tree)
  | [] => [(k, v)]
  | (k', v') :: es => if k' = k then (k, v) :: es else (k', v') :: put k v es

def isDefined : Tree → Bool
  | .undefined => false
  | _ => true

theorem lookup_put (k : Str) (v : Tree) (es : List (Str × Tree)) (k' : Str) :
    (put k v es).lookup k' = if k' = k then some v else es.lookup k' := by
  induction es with
  | nil =>
    rw [put, List.lookup_cons]
    by_cases hk : k' = k
    · rw [hk, beq_self_eq_true, if_pos rfl]
    · rw [beq_eq_false_iff_ne.mpr hk, if_neg hk]
  | cons e es ih =>
    obtain ⟨n, w⟩ := e
    rw [put]
    by_cases hn : n = k
    · subst hn
      rw [if_pos rfl, List.lookup_cons, List.lookup_cons]
      by_cases hk : k' = n
      · rw [hk, beq_self_eq_true, if_pos rfl]
      · rw [beq_eq_false_iff_ne.mpr hk, if_neg hk]
    · rw [if_neg hn, List.lookup_cons, List.lookup_cons, ih]
      by_cases hk : k' = n
      · simp [hk, hn]
      · rw [beq_eq_false_iff_ne.mpr hk]

/-- Trees as they are in either format. -/
def lib (fmt : Format) : NodeLib Tree where
  empty := match fmt with
    | .json => .map []
    | .yaml => .null
  new := match fmt with
    | .json => .null
    | .yaml => .undefined
  ofString := .text
  ofInt := .number
  set n k v := if v.isDefined then .map (put k v n.entries) else .map n.entries
  pushBack n x := match n with
    | .sequence xs => .sequence (xs ++ [x])
    | _ => .sequence [x]
  isDefined := isDefined
  isScalar
    | .text _ => true
    | .number _ => true
    | _ => false
  isMap
    | .map _ => true
    | _ => false
  size
    | .map es => es.length
    | .sequence xs => xs.length
    | .text _ => if fmt = .json then 1 else 0
    | .number _ => if fmt = .json then 1 else 0
    | _ => 0
  front
    | .map es => es.head?
    | _ => none
  find n k := match n with
    | .map es => .ok (es.lookup k)
    | _ => .ok none
  asString
    | .text x => .ok x
    | _ => .error .badType
  asInt
    | .number i => .ok i
    | _ => .error .badType
  elements
    | .sequence xs => some xs
    | _ => none

theorem set_of_isDefined {fmt : Format} (n : Tree) (k : Str) {v : Tree} (h : v.isDefined = true) :
    (lib fmt).set n k v = .map (put k v n.entries) := if_pos h

theorem find_keyed {fmt : Format} {n : Tree} (h : (lib fmt).Keyed n) (k : Str) :
    (lib fmt).find n k = .ok (List.lookup k n.entries) := by
  cases h with
  | empty => cases fmt <;> rfl
  | new => cases fmt <;> rfl
  | set k' hn hv =>
    rw [set_of_isDefined _ _ hv]
    rfl

theorem documented (fmt : Format) : (lib fmt).Documented fmt where
  asString_ofString _ := rfl
  asInt_ofInt _ := rfl
  isDefined_ofString _ := rfl
  isDefined_ofInt _ := rfl
  isDefined_new := by cases fmt <;> decide
  isDefined_set := by
    intro n k v _ hv
    rw [set_of_isDefined n k hv]
    rfl
  find_empty _ := by cases fmt <;> rfl
  find_new _ := by cases fmt <;> rfl
  find_set := by
    intro n k v hn hv k'
    rw [set_of_isDefined n k hv, find_keyed hn]
    show Except.ok (List.lookup k' (put k v n.entries)) = _
    rw [lookup_put]
    split <;> rfl
  isMap_set := by
    intro n k v _ hv
    rw [set_of_isDefined n k hv]
    rfl
  isScalar_set := by
    intro n k v _ hv
    rw [set_of_isDefined n k hv]
    rfl
  elements_set := by
    intro n k v _ hv
    rw [set_of_isDefined n k hv]
    rfl
  size_set := by
    intro k v hv
    rw [set_of_isDefined _ k hv]
    cases fmt <;> rfl
  size_set_undefined := by
    intro k v hv
    have hset : (lib fmt).set (lib fmt).empty k v = .map (lib fmt).empty.entries :=
      if_neg (Bool.eq_false_iff.mp hv)
    rw [hset]
    cases fmt <;> rfl
  front_set := by
    intro k v hv
    rw [set_of_isDefined _ k hv]
    cases fmt <;> rfl
  elements_pushBack_new _ := by cases fmt <;> rfl
  elements_pushBack := by
    intro n xs hn x
    cases n with
    | sequence ys =>
      cases hn
      rfl
    | _ => cases hn
  isDefined_pushBack := by
    intro n x _
    cases n <;> rfl

end Tree

end Primitives.Sources
