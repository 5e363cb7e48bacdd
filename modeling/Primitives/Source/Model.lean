import Mathlib.Data.Char
import Mathlib.Data.Finset.Sort
import Mathlib.Data.List.Lex
import Primitives.Integer

/-!
# Sources

`source.cpp`: where the files of a package come from. A source is of one of nine types, and the
constructors of most types check that it says in exactly one way which version of the files is meant:
with a tag, a branch, a commit or a revision. An empty text or the revision -1 says nothing.

`print` writes the type and the fields, one in a line. Where only one of some fields is set, they are
tried one after the other, and the first that is set is printed.
-/

set_option autoImplicit false

namespace Primitives.Sources

/-! ## Types -/

inductive SourceType where
  | emptySource
  | git
  | mercurial
  | bazaar
  | fossil
  | cvs
  | svn
  | remoteFile
  | remoteFiles
deriving DecidableEq, Repr

inductive Failure where
  /-- No `name` sources available -/
  | noSources (name : Str)
  /-- Only one `name` source must be specified -/
  | onlyOne (name : Str)
  /-- cvs: empty module -/
  | emptyModule
  /-- Bad source: `t` -/
  | badSource (t : Str)
  /-- 0 or >1 objects -/
  | notOneObject
  /-- not an object -/
  | notObject
  /-- An exception of the library: a value has another type. -/
  | badType
deriving DecidableEq, Repr

/-- `toString`. -/
def SourceType.toString : SourceType → Str
  | .emptySource => "empty".toList
  | .git => "git".toList
  | .mercurial => "hg".toList
  | .bazaar => "bzr".toList
  | .fossil => "fossil".toList
  | .cvs => "cvs".toList
  | .svn => "svn".toList
  | .remoteFile => "remote".toList
  | .remoteFiles => "files".toList

/-- The types in the order of `source.inl`. -/
def sourceTypes : List SourceType :=
  [.emptySource, .git, .mercurial, .bazaar, .fossil, .cvs, .svn, .remoteFile, .remoteFiles]

def fromString (t : Str) : Except Failure SourceType :=
  match sourceTypes.find? (·.toString = t) with
  | some e => .ok e
  | none => .error (.badSource t)

theorem fromString_toString (t : SourceType) : fromString t.toString = .ok t := by
  cases t <;> rfl

theorem SourceType.toString_inj {t t' : SourceType} (h : t.toString = t'.toString) : t = t' := by
  have hfrom := congrArg fromString h
  rw [fromString_toString, fromString_toString] at hfrom
  exact Except.ok.inj hfrom

/-- The names of the fields that a type has besides the url. -/
def SourceType.names : SourceType → List Str
  | .emptySource => []
  | .git => ["tag".toList, "branch".toList, "commit".toList]
  | .mercurial => ["tag".toList, "branch".toList, "commit".toList, "revision".toList]
  | .bazaar => ["tag".toList, "revision".toList]
  | .fossil => ["tag".toList, "branch".toList, "commit".toList]
  | .cvs => ["tag".toList, "branch".toList, "revision".toList, "module".toList]
  | .svn => ["tag".toList, "branch".toList, "revision".toList]
  | .remoteFile => []
  | .remoteFiles => []

theorem SourceType.nodup_names (t : SourceType) : ("url".toList :: t.names).Nodup := by
  cases t <;> decide

/-! ## Sources -/

structure Git where
  url : Str
  tag : Str
  branch : Str
  commit : Str
deriving DecidableEq

structure Hg extends Git where
  revision : Int64
deriving DecidableEq

structure Bzr where
  url : Str
  tag : Str
  revision : Int64
deriving DecidableEq

structure Cvs where
  url : Str
  module : Str
  tag : Str
  branch : Str
  revision : Str
deriving DecidableEq

structure Svn where
  url : Str
  tag : Str
  branch : Str
  revision : Int64
deriving DecidableEq

/-- A `Fossil` has the members of a `Git`, and a `RemoteFile` has a url only. -/
inductive Source where
  | emptySource
  | git (s : Git)
  | mercurial (s : Hg)
  | bazaar (s : Bzr)
  | fossil (s : Git)
  | cvs (s : Cvs)
  | svn (s : Svn)
  | remoteFile (url : Str)
  | remoteFiles (urls : Finset Str)
deriving DecidableEq

def Source.getType : Source → SourceType
  | .emptySource => .emptySource
  | .git _ => .git
  | .mercurial _ => .mercurial
  | .bazaar _ => .bazaar
  | .fossil _ => .fossil
  | .cvs _ => .cvs
  | .svn _ => .svn
  | .remoteFile _ => .remoteFile
  | .remoteFiles _ => .remoteFiles

def Source.getString (s : Source) : Str := s.getType.toString

/-! ## Checks -/

/-- `isEmpty` of a number. -/
def isEmptyNumber (i : Int64) : Bool := i = -1

/-- How many of the fields are not empty. -/
def checkNotEmpty : List Bool → Nat
  | [] => 0
  | isEmpty :: rest => (!isEmpty).toNat + checkNotEmpty rest

def checkOne (name : Str) (areEmpty : List Bool) : Except Failure Unit :=
  let n := checkNotEmpty areEmpty
  if n = 0 then .error (.noSources name)
  else if n > 1 then .error (.onlyOne name)
  else .ok ()

/-- A `Fossil` is checked by this too, when its type is not yet known. -/
def Git.checkValid (s : Git) : Except Failure Unit :=
  checkOne SourceType.git.toString [s.tag.isEmpty, s.branch.isEmpty, s.commit.isEmpty]

def Hg.checkValid (s : Hg) : Except Failure Unit :=
  checkOne SourceType.mercurial.toString
    [s.tag.isEmpty, s.branch.isEmpty, s.commit.isEmpty, isEmptyNumber s.revision]

def Bzr.checkValid (s : Bzr) : Except Failure Unit :=
  checkOne SourceType.bazaar.toString [s.tag.isEmpty, isEmptyNumber s.revision]

def Cvs.checkValid (s : Cvs) : Except Failure Unit :=
  if s.module.isEmpty then .error .emptyModule
  else checkOne SourceType.cvs.toString [s.tag.isEmpty, s.branch.isEmpty, s.revision.isEmpty]

def Svn.checkValid (s : Svn) : Except Failure Unit :=
  checkOne SourceType.svn.toString [s.tag.isEmpty, s.branch.isEmpty, isEmptyNumber s.revision]

/-- What the constructor checks once the fields are set. -/
def Source.checkValid : Source → Except Failure Unit
  | .emptySource => .ok ()
  | .git s => s.checkValid
  | .mercurial s => s.checkValid
  | .bazaar s => s.checkValid
  | .fossil s => s.checkValid
  | .cvs s => s.checkValid
  | .svn s => s.checkValid
  | .remoteFile _ => .ok ()
  | .remoteFiles _ => .ok ()

/-- The constructor of its type accepts the source. -/
def Source.Accepted (s : Source) : Prop := s.checkValid = .ok ()

theorem checkOne_eq_ok_iff {name : Str} {areEmpty : List Bool} :
    checkOne name areEmpty = .ok () ↔ checkNotEmpty areEmpty = 1 := by
  unfold checkOne
  dsimp only
  generalize checkNotEmpty areEmpty = n
  match n with
  | 0 => exact iff_of_false (fun h => nomatch h) (fun h => nomatch h)
  | 1 => exact iff_of_true rfl rfl
  | n + 2 =>
    rw [if_neg (Nat.succ_ne_zero _), if_pos (Nat.lt_add_left n Nat.one_lt_two)]
    exact iff_of_false (fun h => nomatch h) (fun h => nomatch h)

/-! ## Printing -/

/-- `STRING_PRINT_VALUE`, with the text that its first argument is made. -/
def stringPrintValue (label value : Str) : Str := label ++ ": ".toList ++ value ++ ['\n']

/-- `STRING_PRINT`, which makes a text of the field's name and then of that text once more, so the
name is printed in quotes. -/
def stringPrint (name value : Str) : Str := stringPrintValue ('\x22' :: name ++ ['\x22']) value

/-- A chain of `STRING_PRINT_NOT_EMPTY(x); else …`. -/
def stringPrintOne : List (Str × Str) → Str
  | [] => []
  | (name, value) :: rest => if value ≠ [] then stringPrint name value else stringPrintOne rest

/-- What `STRING_PRINT_NOT_MINUS_ONE` prints, and nothing for -1. -/
def revisionStr (revision : Int64) : Str := if revision = -1 then [] else intStr revision.toInt

def SourceUrl.print1 (url : Str) : Str := stringPrint "url".toList url

def Git.print1 (s : Git) : Str :=
  SourceUrl.print1 s.url ++
    stringPrintOne [("tag".toList, s.tag), ("branch".toList, s.branch), ("commit".toList, s.commit)]

def Hg.print1 (s : Hg) : Str :=
  s.toGit.print1 ++ stringPrintOne [("revision".toList, revisionStr s.revision)]

def Bzr.print1 (s : Bzr) : Str :=
  SourceUrl.print1 s.url ++
    stringPrintOne [("tag".toList, s.tag), ("revision".toList, revisionStr s.revision)]

def Cvs.print1 (s : Cvs) : Str :=
  SourceUrl.print1 s.url ++
    stringPrintOne
      [("tag".toList, s.tag), ("branch".toList, s.branch), ("revision".toList, s.revision)] ++
    stringPrintOne [("module".toList, s.module)]

def Svn.print1 (s : Svn) : Str :=
  SourceUrl.print1 s.url ++
    stringPrintOne
      [("tag".toList, s.tag), ("branch".toList, s.branch), ("revision".toList, revisionStr s.revision)]

/-- The elements of a `std::set`, in its order. -/
def elements (urls : Finset Str) : List Str := urls.sort (· ≤ ·)

theorem elements_toFinset (urls : Finset Str) : (elements urls).toFinset = urls :=
  Finset.sort_toFinset _ _

def Source.print1 : Source → Str
  | .emptySource => []
  | .git s => s.print1
  | .mercurial s => s.print1
  | .bazaar s => s.print1
  | .fossil s => s.print1
  | .cvs s => s.print1
  | .svn s => s.print1
  | .remoteFile url => SourceUrl.print1 url
  | .remoteFiles urls => (elements urls).flatMap (stringPrintValue "url".toList)

def Source.print (s : Source) : Str := s.getString ++ ":\n".toList ++ s.print1

example : Source.print (.git ⟨"u".toList, [], "b".toList, []⟩) =
    "git:\n\"url\": u\n\"branch\": b\n".toList := by decide

end Primitives.Sources
