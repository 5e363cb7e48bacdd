import Primitives.Basic
import Primitives.Lib.Find
import Primitives.Lib.Names

/-!
# Whether a path is below a root

`is_under_root_by_prefix_path` takes paths as texts: that of the path has to begin with that of the root,
and to have no two dots in a row. Components are taken for it where neither a text goes on in the last
name of the root, nor a name has two dots in it, nor the separators are written otherwise
(`isUnderRoot_iff`).
-/

set_option autoImplicit false

namespace Primitives.Files

open Lib

/-! ## The code -/

section

variable (isWindows : Bool)

/-- `normalize_string`; on other systems than Windows it does nothing. -/
def normalizeString (s : Str) : Str :=
  if isWindows then s.map fun c => if c = '\\' then '/' else c else s

/-- `set_uppercase_disk` -/
def setUppercaseDisk : Str → Str
  | c :: ':' :: s => c.toUpper :: ':' :: s
  | s => s

/-- The text of `normalize_path`. -/
def normalizePath (p : Str) : Str :=
  if p = [] then [] else setUppercaseDisk (normalizeString isWindows p)

/-- `is_under_root_by_prefix_path`, for the texts of the paths. -/
def isUnderRootByPrefixPath (p rootDir : Str) : Bool :=
  let r := normalizePath isWindows rootDir
  let v := normalizePath isWindows p
  -- disallow .. elements
  find r v = some 0 && (find ['.', '.'] v).isNone

end

/-! ## Components -/

/-- The components of the root begin those of the path, none of which is a dot-dot. -/
def Below (r v : Str) : Prop :=
  Path.components (Path.ofText r) <+: Path.components (Path.ofText v) ∧
    Path.dotdot ∉ Path.components (Path.ofText v)

/-- The text of the path goes on in the last name of the root, and has no two dots in a row. -/
def TakenForBelow (r v : Str) : Prop := Path.GoesOn r v ∧ ¬ Path.dotdot <:+: v

/-- A path below the root has two dots in a name, or its separators are at other places than those of
the root. -/
def TakenForOutside (r v : Str) : Prop :=
  Below r v ∧ (Path.dotdot <:+: v ∨ ¬ Path.SameSeparators r v)

theorem isUnderRootByPrefixPath_iff (isWindows : Bool) (p rootDir : Str) :
    isUnderRootByPrefixPath isWindows p rootDir = true ↔
      normalizePath isWindows rootDir <+: normalizePath isWindows p ∧
        ¬ Path.dotdot <:+: normalizePath isWindows p := by
  rw [isUnderRootByPrefixPath, Bool.and_eq_true, decide_eq_true_iff, find_eq_zero_iff, find_isNone_iff]
  rfl

/-- The text begins with that of the root: the components do so, too, unless it goes on in a name. -/
theorem components_isPrefix_iff_of_isPrefix {r v : Str} (h : r <+: v) :
    Path.components (Path.ofText r) <+: Path.components (Path.ofText v) ↔ ¬ Path.GoesOn r v := by
  rw [Path.components_isPrefix_iff, Path.namesOf_isPrefix_iff h]
  cases r with
  | nil => exact iff_of_true (.inl rfl) fun hgoes => nomatch hgoes.1
  | cons c r =>
    obtain ⟨t, rfl⟩ := h
    rw [or_iff_right (List.cons_ne_nil c r)]
    exact and_iff_right Iff.rfl

/-- The components begin those of the path: the text does so exactly with the same separators. -/
theorem isPrefix_iff_of_components {r v : Str}
    (h : Path.components (Path.ofText r) <+: Path.components (Path.ofText v)) :
    r <+: v ↔ Path.SameSeparators r v := by
  constructor
  · exact fun hpre => hpre.map Path.inName
  · intro hseparators
    rcases (Path.components_isPrefix_iff r v).mp h with rfl | ⟨-, hnames⟩
    · exact List.nil_prefix
    · exact Path.isPrefix_of_namesOf hnames hseparators

/-- A dot-dot is two dots in a row. -/
theorem dotdot_isInfix {v : Str} (h : Path.dotdot ∈ Path.components (Path.ofText v)) :
    Path.dotdot <:+: v := by
  rw [Path.components_ofText] at h
  split at h
  · rcases List.mem_cons.mp h with hroot | h
    · exact absurd hroot (by decide)
    · exact Path.isInfix_of_mem_namesOf h
  · exact Path.isInfix_of_mem_namesOf h

/-- **Paths below a root.** The answer is whether the components of the root begin those of the path,
none of which is a dot-dot, exactly if the path is not of one of two kinds: one with a text that goes on
in the last name of the root, and one that is below the root, but has two dots in a name or its
separators at other places. -/
theorem isUnderRoot_iff (isWindows : Bool) (p rootDir : Str) :
    let r := normalizePath isWindows rootDir
    let v := normalizePath isWindows p
    (isUnderRootByPrefixPath isWindows p rootDir = true ↔ Below r v) ↔
      ¬ TakenForBelow r v ∧ ¬ TakenForOutside r v := by
  intro r v
  rw [isUnderRootByPrefixPath_iff]
  change (r <+: v ∧ ¬ Path.dotdot <:+: v ↔ Below r v) ↔ _
  unfold TakenForBelow TakenForOutside Below
  have htext := @components_isPrefix_iff_of_isPrefix r v
  have hcomponents := @isPrefix_iff_of_components r v
  have hdots := @dotdot_isInfix v
  have hgoes : Path.GoesOn r v → r <+: v := by
    rintro ⟨-, c, t, -, hv⟩
    rw [hv]
    exact List.prefix_append _ _
  tauto

/-- `/rootX` is taken to be below `/root`. -/
theorem not_isUnderRoot : ¬ ∀ p rootDir : Str,
    isUnderRootByPrefixPath false p rootDir = true ↔
      Below (normalizePath false rootDir) (normalizePath false p) := by
  intro hall
  have hbelow := (hall ['/', 'r', 'X'] ['/', 'r']).mp (by decide)
  exact absurd hbelow.1 (by decide)

end Primitives.Files
