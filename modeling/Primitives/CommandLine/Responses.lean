import Primitives.CommandLine.Tokens
import Primitives.Lib.Expansion

/-!
# Response files

`ExpandResponseFiles` replaces each `@file` of a command line by the words of the file, where nested ones
are replaced in turn, and loads the settings of each `@@file`. It gives up when the twenty-second file is
to be read, so that it ends also where a file refers to itself.

What it returns `true` for is exactly what can be expanded by at most 21 files (`expandResponseFiles_iff`),
and that is the expansion of the references (`expanded_eq_expansion`).
-/

set_option autoImplicit false

namespace Primitives.CommandLine

open Lib Lib.Expansion

/-! ## The code -/

/-- `hasUTF16ByteOrderMark` -/
def hasUTF16ByteOrderMark (s : Str) : Bool := s.take 2 = ['\xff', '\xfe'] || s.take 2 = ['\xfe', '\xff']

def hasUTF8ByteOrderMark (s : Str) : Bool := s.take 3 = ['\xef', '\xbb', '\xbf']

/-- What is outside: files, paths, and the settings that are loaded. -/
structure Env (σ : Type) where
  /-- `MemoryBuffer::getFile` -/
  getFile : Str → Option Str
  convertUTF16ToUTF8String : Str → Option Str
  /-- `path::is_relative` -/
  isRelative : Str → Bool
  currentPath : Str
  parentPath : Str → Str
  filename : Str → Str
  /-- `path::append` -/
  append : Str → Str → Str → Str
  /-- `Settings::load`. It throws if the file cannot be read or parsed. -/
  load : σ → Str → Option σ

variable {σ : Type}

/-- A `TokenizerCallback`. -/
abbrev Tokenizer := Bool → Str → List Arg

/-- An environment with the files of a list, and no others. -/
def Env.ofFiles (files : List (Str × Str)) : Env Unit where
  getFile fname := files.lookup fname
  convertUTF16ToUTF8String _ := none
  isRelative _ := false
  currentPath := []
  parentPath _ := []
  filename name := name
  append base _ file := base ++ file
  load st _ := some st

/-- The text of a file without a byte order mark. -/
def Env.text (env : Env σ) (fname : Str) : Option Str :=
  match env.getFile fname with
  | none => none
  | some buf =>
    if hasUTF16ByteOrderMark buf then env.convertUTF16ToUTF8String buf
    else if hasUTF8ByteOrderMark buf then some (buf.drop 3)
    else some buf

/-- A nested response file by its full path. -/
def Env.resolve (env : Env σ) (fname : Str) : Arg → Arg
  | some ('@' :: file) =>
    if env.isRelative file then
      some (env.append ('@' :: if env.isRelative fname then env.currentPath else [])
        (env.parentPath fname) file)
    else some ('@' :: file)
  | arg => arg

/-- `ExpandResponseFile` -/
def expandResponseFile (env : Env σ) (tokenizer : Tokenizer) (markEOLs relativeNames : Bool)
    (fname : Str) : Option (List Arg) :=
  (env.text fname).map fun str =>
    if relativeNames then (tokenizer markEOLs str).map (env.resolve fname) else tokenizer markEOLs str

/-- What `ExpandResponseFiles` leaves: the arguments, the settings, and what it returns. -/
structure Expanded (σ : Type) where
  argv : List Arg
  settings : σ
  result : Bool

/-- An argument stays in its place. -/
def Expanded.cons (x : Arg) (e : Expanded σ) : Expanded σ := { e with argv := x :: e.argv }

section

variable (env : Env σ) (file : Str → Option (List Arg))

/-- The loop of `ExpandResponseFiles` with the arguments from `I` on. `file` is `ExpandResponseFile`. There
is no result where loading settings throws. -/
def expandLoop : Nat → Bool → σ → List Arg → Option (Expanded σ)
  | _, allExpanded, st, [] => some ⟨[], st, allExpanded⟩
  | rspFiles, allExpanded, st, none :: argv =>
    (expandLoop rspFiles allExpanded st argv).map (Expanded.cons none)
  | rspFiles, allExpanded, st, some arg :: argv =>
    if arg.head? ≠ some '@' then (expandLoop rspFiles allExpanded st argv).map (Expanded.cons (some arg))
    else if arg.tail.head? = some '@' then
      match env.load st (arg.drop 2) with
      | none => none
      | some st => expandLoop rspFiles allExpanded st argv
    else if rspFiles > 20 then some ⟨some arg :: argv, st, false⟩
    else
      match file arg.tail with
      | none => (expandLoop (rspFiles + 1) false st argv).map (Expanded.cons (some arg))
      | some expandedArgv => expandLoop (rspFiles + 1) allExpanded st (expandedArgv ++ argv)
termination_by rspFiles _ _ argv => (21 - rspFiles, argv.length)

end

/-- `ExpandResponseFiles` -/
def expandResponseFiles (env : Env σ) (tokenizer : Tokenizer) (markEOLs relativeNames : Bool) (st : σ)
    (argv : List Arg) : Option (Expanded σ) :=
  expandLoop env (expandResponseFile env tokenizer markEOLs relativeNames) 0 true st argv

/-! ## Without a limit -/

/-- An argument that begins with `@`. -/
def isReference : Arg → Bool
  | some ('@' :: _) => true
  | _ => false

/-- The arguments and the settings that there are when every reference is replaced, and how many files are
read for them, those that cannot be read among them. -/
inductive Expands (env : Env σ) (file : Str → Option (List Arg)) :
    σ → List Arg → σ → List Arg → Nat → Prop
  | nil {st : σ} : Expands env file st [] st [] 0
  | plain {st st' : σ} {x : Arg} {argv out : List Arg} {n : Nat} (hx : isReference x = false)
      (h : Expands env file st argv st' out n) : Expands env file st (x :: argv) st' (x :: out) n
  | settings {st st₁ st' : σ} {fname : Str} {argv out : List Arg} {n : Nat}
      (hload : env.load st fname = some st₁) (h : Expands env file st₁ argv st' out n) :
      Expands env file st (some ('@' :: '@' :: fname) :: argv) st' out n
  | unread {st st' : σ} {fname : Str} {argv out : List Arg} {n : Nat} (hname : fname.head? ≠ some '@')
      (hfile : file fname = none) (h : Expands env file st argv st' out n) :
      Expands env file st (some ('@' :: fname) :: argv) st' (some ('@' :: fname) :: out) (n + 1)
  | file {st st' : σ} {fname : Str} {new argv out : List Arg} {n : Nat} (hname : fname.head? ≠ some '@')
      (hfile : file fname = some new) (h : Expands env file st (new ++ argv) st' out n) :
      Expands env file st (some ('@' :: fname) :: argv) st' out (n + 1)

/-! ## One argument of the loop -/

section

variable {env : Env σ} {file : Str → Option (List Arg)} {rspFiles : Nat} {allExpanded : Bool} {st : σ}
  {argv : List Arg}

theorem expandLoop_nil : expandLoop env file rspFiles allExpanded st [] = some ⟨[], st, allExpanded⟩ := by
  rw [expandLoop]

theorem expandLoop_plain {x : Arg} (hx : isReference x = false) :
    expandLoop env file rspFiles allExpanded st (x :: argv) =
      (expandLoop env file rspFiles allExpanded st argv).map (Expanded.cons x) := by
  cases x with
  | none => rw [expandLoop]
  | some arg =>
    rw [expandLoop, if_pos]
    intro hhead
    cases arg with
    | nil => cases hhead
    | cons c arg =>
      rw [Option.some.inj hhead] at hx
      cases hx

theorem expandLoop_settings (fname : Str) :
    expandLoop env file rspFiles allExpanded st (some ('@' :: '@' :: fname) :: argv) =
      (env.load st fname).bind fun st => expandLoop env file rspFiles allExpanded st argv := by
  rw [expandLoop, if_neg (by simp), if_pos (by simp)]
  simp only [List.drop_succ_cons, List.drop_zero]
  cases env.load st fname <;> rfl

variable {fname : Str}

theorem expandLoop_limit (hname : fname.head? ≠ some '@') (h : 20 < rspFiles) :
    expandLoop env file rspFiles allExpanded st (some ('@' :: fname) :: argv) =
      some ⟨some ('@' :: fname) :: argv, st, false⟩ := by
  rw [expandLoop, if_neg (by simp), List.tail_cons, if_neg hname, if_pos h]

theorem expandLoop_unread (hname : fname.head? ≠ some '@') (h : rspFiles ≤ 20)
    (hfile : file fname = none) :
    expandLoop env file rspFiles allExpanded st (some ('@' :: fname) :: argv) =
      (expandLoop env file (rspFiles + 1) false st argv).map (Expanded.cons (some ('@' :: fname))) := by
  rw [expandLoop, if_neg (by simp), List.tail_cons, if_neg hname, if_neg (Nat.not_lt.mpr h)]
  simp only [hfile]

theorem expandLoop_file (hname : fname.head? ≠ some '@') (h : rspFiles ≤ 20) {new : List Arg}
    (hfile : file fname = some new) :
    expandLoop env file rspFiles allExpanded st (some ('@' :: fname) :: argv) =
      expandLoop env file (rspFiles + 1) allExpanded st (new ++ argv) := by
  rw [expandLoop, if_neg (by simp), List.tail_cons, if_neg hname, if_neg (Nat.not_lt.mpr h)]
  simp only [hfile]

end

/-- An argument is plain, settings, or a file. -/
theorem arg_cases (x : Arg) : isReference x = false ∨ (∃ fname, x = some ('@' :: '@' :: fname)) ∨
    ∃ fname : Str, x = some ('@' :: fname) ∧ fname.head? ≠ some '@' := by
  cases hx : isReference x with
  | false => exact .inl rfl
  | true =>
    obtain ⟨arg, rfl⟩ : ∃ arg, x = some ('@' :: arg) := by
      unfold isReference at hx
      split at hx
      · exact ⟨_, rfl⟩
      · cases hx
    by_cases harg : arg.head? = some '@'
    · obtain ⟨fname, rfl⟩ := List.head?_eq_some_iff.mp harg
      exact .inr (.inl ⟨fname, rfl⟩)
    · exact .inr (.inr ⟨arg, rfl, harg⟩)

/-! ## The loop and the limit -/

section

variable {env : Env σ} {file : Str → Option (List Arg)}

/-- **What can be expanded** by no more files than are left is expanded so. -/
theorem Expands.expandLoop_eq {st st' : σ} {argv out : List Arg} {n : Nat}
    (h : Expands env file st argv st' out n) {rspFiles : Nat} {allExpanded : Bool}
    (hn : rspFiles + n ≤ 21) : expandLoop env file rspFiles allExpanded st argv =
      some ⟨out, st', allExpanded && out.all fun x => !isReference x⟩ := by
  induction h generalizing rspFiles allExpanded with
  | nil => simp [expandLoop_nil]
  | plain hx _ ih =>
    rw [expandLoop_plain hx, ih hn]
    simp [Expanded.cons, hx]
  | settings hload _ ih => rw [expandLoop_settings, hload, Option.bind_some, ih hn]
  | unread hname hfile _ ih =>
    rw [expandLoop_unread hname (by omega) hfile, ih (by omega)]
    simp [Expanded.cons, isReference]
  | file hname hfile _ ih => rw [expandLoop_file hname (by omega) hfile, ih (by omega)]

theorem Expands.expandResponseFiles_eq {tokenizer : Tokenizer} {markEOLs relativeNames : Bool}
    {st st' : σ} {argv out : List Arg} {n : Nat}
    (h : Expands env (expandResponseFile env tokenizer markEOLs relativeNames) st argv st' out n)
    (hn : n ≤ 21) : expandResponseFiles env tokenizer markEOLs relativeNames st argv =
      some ⟨out, st', out.all fun x => !isReference x⟩ :=
  (h.expandLoop_eq ((Nat.zero_add n).trans_le hn)).trans (by rw [Bool.true_and])

/-- What the loop returns `true` for is expanded. -/
theorem expands_of_expandLoop {rspFiles : Nat} {allExpanded : Bool} {st : σ} {argv : List Arg}
    {e : Expanded σ} (hr : rspFiles ≤ 21)
    (h : expandLoop env file rspFiles allExpanded st argv = some e) (hresult : e.result = true) :
    ∃ n, rspFiles + n ≤ 21 ∧ Expands env file st argv e.settings e.argv n := by
  induction hm : 21 - rspFiles using Nat.strong_induction_on generalizing rspFiles allExpanded st argv e with
  | _ m ihm =>
    induction argv generalizing allExpanded st e with
    | nil =>
      rw [expandLoop_nil] at h
      cases h
      exact ⟨0, hr, .nil⟩
    | cons x argv ih =>
      rcases arg_cases x with hx | ⟨fname, rfl⟩ | ⟨fname, rfl, hname⟩
      · rw [expandLoop_plain hx] at h
        obtain ⟨e, he, rfl⟩ := Option.map_eq_some_iff.mp h
        obtain ⟨n, hn, hexp⟩ := ih he hresult
        exact ⟨n, hn, .plain hx hexp⟩
      · rw [expandLoop_settings] at h
        obtain ⟨st₁, hload, h⟩ := Option.bind_eq_some_iff.mp h
        obtain ⟨n, hn, hexp⟩ := ih h hresult
        exact ⟨n, hn, .settings hload hexp⟩
      · by_cases hlimit : 20 < rspFiles
        · rw [expandLoop_limit hname hlimit] at h
          cases h
          cases hresult
        · have hle : rspFiles ≤ 20 := Nat.not_lt.mp hlimit
          have hsucc : rspFiles + 1 ≤ 21 := Nat.succ_le_succ hle
          have hlt : 21 - (rspFiles + 1) < m := by omega
          cases hfile : file fname with
          | none =>
            rw [expandLoop_unread hname hle hfile] at h
            obtain ⟨e, he, rfl⟩ := Option.map_eq_some_iff.mp h
            obtain ⟨n, hn, hexp⟩ := ihm _ hlt hsucc he hresult rfl
            exact ⟨n + 1, by omega, .unread hname hfile hexp⟩
          | some new =>
            rw [expandLoop_file hname hle hfile] at h
            obtain ⟨n, hn, hexp⟩ := ihm _ hlt hsucc h hresult rfl
            exact ⟨n + 1, by omega, .file hname hfile hexp⟩

/-- It returns `true` if and only if no argument is left that begins with `@`. -/
theorem expandLoop_result {rspFiles : Nat} {allExpanded : Bool} {st : σ} {argv : List Arg}
    {e : Expanded σ} (h : expandLoop env file rspFiles allExpanded st argv = some e) :
    e.result = (allExpanded && e.argv.all fun x => !isReference x) := by
  induction hm : 21 - rspFiles using Nat.strong_induction_on generalizing rspFiles allExpanded st argv e with
  | _ m ihm =>
    induction argv generalizing allExpanded st e with
    | nil =>
      rw [expandLoop_nil] at h
      cases h
      simp
    | cons x argv ih =>
      rcases arg_cases x with hx | ⟨fname, rfl⟩ | ⟨fname, rfl, hname⟩
      · rw [expandLoop_plain hx] at h
        obtain ⟨e, he, rfl⟩ := Option.map_eq_some_iff.mp h
        simpa [Expanded.cons, hx] using ih he
      · rw [expandLoop_settings] at h
        obtain ⟨st₁, -, h⟩ := Option.bind_eq_some_iff.mp h
        exact ih h
      · by_cases hlimit : 20 < rspFiles
        · rw [expandLoop_limit hname hlimit] at h
          cases h
          simp [isReference]
        · have hle : rspFiles ≤ 20 := Nat.not_lt.mp hlimit
          cases hfile : file fname with
          | none =>
            rw [expandLoop_unread hname hle hfile] at h
            obtain ⟨e, he, rfl⟩ := Option.map_eq_some_iff.mp h
            have hresult := ihm (21 - (rspFiles + 1)) (by omega) he rfl
            simpa [Expanded.cons, isReference] using hresult
          | some new =>
            rw [expandLoop_file hname hle hfile] at h
            exact ihm (21 - (rspFiles + 1)) (by omega) h rfl

/-- Expanding what is expanded changes nothing. -/
theorem Expands.again {st st' : σ} {argv out : List Arg} {n : Nat}
    (h : Expands env file st argv st' out n) (st₀ : σ) :
    ∃ m ≤ n, Expands env file st₀ out st₀ out m := by
  induction h with
  | nil => exact ⟨0, Nat.le_refl 0, .nil⟩
  | plain hx _ ih =>
    obtain ⟨m, hm, hexp⟩ := ih
    exact ⟨m, hm, .plain hx hexp⟩
  | settings _ _ ih => exact ih
  | unread hname hfile _ ih =>
    obtain ⟨m, hm, hexp⟩ := ih
    exact ⟨m + 1, Nat.succ_le_succ hm, .unread hname hfile hexp⟩
  | file _ _ _ ih =>
    obtain ⟨m, hm, hexp⟩ := ih
    exact ⟨m, Nat.le_succ_of_le hm, hexp⟩

theorem Expands.append_inv {st st' : σ} {l l' out : List Arg} {n : Nat}
    (h : Expands env file st (l ++ l') st' out n) : ∃ (st₁ : σ) (o o' : List Arg) (m m' : Nat),
      Expands env file st l st₁ o m ∧ Expands env file st₁ l' st' o' m' ∧ out = o ++ o' ∧ n = m + m' := by
  generalize hl : l ++ l' = argv at h
  induction h generalizing l with
  | @nil st =>
    obtain ⟨rfl, rfl⟩ := List.append_eq_nil_iff.mp hl
    exact ⟨st, [], [], 0, 0, .nil, .nil, rfl, rfl⟩
  | @plain st st' x argv out n hx h ih =>
    cases l with
    | nil =>
      rw [List.nil_append] at hl
      exact ⟨st, [], x :: out, 0, n, .nil, hl ▸ .plain hx h, rfl, (Nat.zero_add n).symm⟩
    | cons y l =>
      obtain ⟨rfl, hl'⟩ := List.cons.inj hl
      obtain ⟨st₁, o, o', m, m', h₁, h₂, rfl, rfl⟩ := ih hl'
      exact ⟨st₁, y :: o, o', m, m', .plain hx h₁, h₂, rfl, rfl⟩
  | @settings st st₁ st' fname argv out n hload h ih =>
    cases l with
    | nil =>
      rw [List.nil_append] at hl
      exact ⟨st, [], out, 0, n, .nil, hl ▸ .settings hload h, rfl, (Nat.zero_add n).symm⟩
    | cons y l =>
      obtain ⟨rfl, hl'⟩ := List.cons.inj hl
      obtain ⟨st₂, o, o', m, m', h₁, h₂, rfl, rfl⟩ := ih hl'
      exact ⟨st₂, o, o', m, m', .settings hload h₁, h₂, rfl, rfl⟩
  | @unread st st' fname argv out n hname hfile h ih =>
    cases l with
    | nil =>
      rw [List.nil_append] at hl
      exact ⟨st, [], some ('@' :: fname) :: out, 0, n + 1, .nil, hl ▸ .unread hname hfile h, rfl,
        (Nat.zero_add _).symm⟩
    | cons y l =>
      obtain ⟨rfl, hl'⟩ := List.cons.inj hl
      obtain ⟨st₂, o, o', m, m', h₁, h₂, rfl, rfl⟩ := ih hl'
      exact ⟨st₂, some ('@' :: fname) :: o, o', m + 1, m', .unread hname hfile h₁, h₂, rfl,
        Nat.add_right_comm m m' 1⟩
  | @file st st' fname new argv out n hname hfile h ih =>
    cases l with
    | nil =>
      rw [List.nil_append] at hl
      exact ⟨st, [], out, 0, n + 1, .nil, hl ▸ .file hname hfile h, rfl, (Nat.zero_add _).symm⟩
    | cons y l =>
      obtain ⟨rfl, hl'⟩ := List.cons.inj hl
      obtain ⟨st₂, o, o', m, m', h₁, h₂, rfl, rfl⟩ :=
        ih (l := new ++ l) ((List.append_assoc new l l').trans (congrArg (new ++ ·) hl'))
      exact ⟨st₂, o, o', m + 1, m', .file hname hfile h₁, h₂, rfl, Nat.add_right_comm m m' 1⟩

/-! ## Circles -/

/-- The file that an argument is replaced by the words of. -/
def fileRef (file : Str → Option (List Arg)) : Arg → Option Str
  | some ('@' :: '@' :: _) => none
  | some ('@' :: fname) => if (file fname).isSome then some fname else none
  | _ => none

/-- The words of a file, where it can be read. -/
def fileWords (file : Str → Option (List Arg)) (fname : Str) : List Arg := (file fname).getD []

theorem fileRef_of_plain {x : Arg} (hx : isReference x = false) : fileRef file x = none := by
  unfold fileRef
  split
  · cases hx
  · cases hx
  · rfl

theorem fileRef_of_name {fname : Str} (hname : fname.head? ≠ some '@') :
    fileRef file (some ('@' :: fname)) = if (file fname).isSome then some fname else none := by
  unfold fileRef
  split
  · rename_i heq
    cases heq
    exact absurd rfl hname
  · rename_i heq
    cases heq
    rfl
  · rename_i hno
    exact absurd rfl (hno fname)

/-- What is read for an argument that names a file. -/
theorem Expands.of_mem {st st' : σ} {argv out : List Arg} {n : Nat}
    (h : Expands env file st argv st' out n) {x : Arg} (hmem : x ∈ argv) {k : Str}
    (hk : fileRef file x = some k) : ∃ (st₁ st₂ : σ) (o : List Arg), ∃ m < n,
      Expands env file st₁ (fileWords file k) st₂ o m := by
  obtain ⟨l, l', rfl⟩ := List.append_of_mem hmem
  obtain ⟨st₁, o, o', m, m', -, hx, -, rfl⟩ := h.append_inv
  cases hx with
  | plain hplain =>
    rw [fileRef_of_plain hplain] at hk
    cases hk
  | settings => cases hk
  | unread hname hfile =>
    rw [fileRef_of_name hname, hfile] at hk
    cases hk
  | @file _ _ fname new _ _ n hname hfile hnew =>
    rw [fileRef_of_name hname, hfile] at hk
    cases hk
    obtain ⟨st₂, o, o', i, j, hwords, -, -, rfl⟩ := hnew.append_inv
    rw [fileWords, hfile]
    exact ⟨st₁, st₂, o, i, by omega, hwords⟩

/-- Along references less and less is read. -/
theorem Expands.of_refers {j k : Str} (hjk : Relation.TransGen (Refers (fileRef file) (fileWords file)) j k)
    {st st' : σ} {out : List Arg} {n : Nat} (h : Expands env file st (fileWords file j) st' out n) :
    ∃ (st₁ st₂ : σ) (o : List Arg), ∃ m < n, Expands env file st₁ (fileWords file k) st₂ o m := by
  induction hjk with
  | single hr =>
    obtain ⟨x, hx, href⟩ := hr
    exact h.of_mem hx href
  | tail _ hr ih =>
    obtain ⟨st₁, st₂, o, m, hm, h⟩ := ih
    obtain ⟨x, hx, href⟩ := hr
    obtain ⟨st₃, st₄, o', m', hm', h⟩ := h.of_mem hx href
    exact ⟨st₃, st₄, o', m', hm'.trans hm, h⟩

/-- **A file that refers to itself** is not expanded by any number of files. -/
theorem not_expands_of_circle {k : Str} (hk : Relation.TransGen (Refers (fileRef file) (fileWords file)) k k)
    {st st' : σ} {out : List Arg} {n : Nat} : ¬ Expands env file st (fileWords file k) st' out n := by
  induction n using Nat.strong_induction_on generalizing st st' out with
  | _ n ih =>
    intro h
    obtain ⟨st₁, st₂, o, m, hm, h⟩ := h.of_refers hk
    exact ih m hm h

/-! ## The expansion of the references -/

def isSettings : Arg → Bool
  | some ('@' :: '@' :: _) => true
  | _ => false

theorem isSettings_of_plain {x : Arg} (hx : isReference x = false) : isSettings x = false := by
  unfold isSettings
  split
  · cases hx
  · rfl

theorem isSettings_of_name {fname : Str} (hname : fname.head? ≠ some '@') :
    isSettings (some ('@' :: fname)) = false := by
  unfold isSettings
  split
  · rename_i heq
    cases heq
    exact absurd rfl hname
  · rfl

/-- The arguments are those of the expansion of the references, but for the settings. -/
theorem Expands.eq_expansion {X : Str → List Arg} (hX : IsExpansion (fileRef file) (fileWords file) X)
    {st st' : σ} {argv out : List Arg} {n : Nat} (h : Expands env file st argv st' out n) :
    out = (argv.flatMap (replaced (fileRef file) X)).filter fun x => !isSettings x := by
  induction h with
  | nil => rfl
  | plain hx _ ih =>
    rw [List.flatMap_cons, replaced_of_none (fileRef_of_plain hx), List.filter_append, ← ih,
      List.filter_cons_of_pos (by simp [isSettings_of_plain hx])]
    rfl
  | settings _ _ ih =>
    rw [List.flatMap_cons, replaced_of_none rfl, List.filter_append, ← ih,
      List.filter_cons_of_neg (by simp [isSettings])]
    rfl
  | unread hname hfile _ ih =>
    have href : fileRef file (some ('@' :: _)) = none := (fileRef_of_name hname).trans (by rw [hfile]; rfl)
    rw [List.flatMap_cons, replaced_of_none href, List.filter_append, ← ih,
      List.filter_cons_of_pos (by simp [isSettings_of_name hname])]
    rfl
  | @file st st' fname new argv out n hname hfile _ ih =>
    have href : fileRef file (some ('@' :: fname)) = some fname :=
      (fileRef_of_name hname).trans (by rw [hfile]; rfl)
    have hwords : fileWords file fname = new := by rw [fileWords, hfile]; rfl
    rw [List.flatMap_cons, replaced_of_some href, hX fname, hwords, ← List.flatMap_append, ih]

end

variable {env : Env σ} {tokenizer : Tokenizer} {markEOLs relativeNames : Bool}

/-- **What `ExpandResponseFiles` returns `true` for** is what can be expanded by at most 21 files with no
reference left. -/
theorem expandResponseFiles_iff (env : Env σ) (tokenizer : Tokenizer) (markEOLs relativeNames : Bool)
    (st st' : σ) (argv out : List Arg) :
    expandResponseFiles env tokenizer markEOLs relativeNames st argv = some ⟨out, st', true⟩ ↔
      (∃ n ≤ 21, Expands env (expandResponseFile env tokenizer markEOLs relativeNames) st argv st' out n) ∧
        ∀ x ∈ out, isReference x = false := by
  rw [expandResponseFiles]
  constructor
  · intro h
    obtain ⟨n, hn, hexp⟩ := expands_of_expandLoop (Nat.zero_le 21) h rfl
    have hresult := expandLoop_result h
    refine ⟨⟨n, by omega, hexp⟩, ?_⟩
    simpa using hresult
  · rintro ⟨⟨n, hn, hexp⟩, hout⟩
    rw [hexp.expandLoop_eq (by omega)]
    have hall : (out.all fun x => !isReference x) = true := by simpa using hout
    rw [hall]
    rfl

section

variable (env : Env σ) (tokenizer : Tokenizer) (markEOLs relativeNames : Bool)

/-- The references between response files. -/
abbrev includes (x : Arg) : Option Str := fileRef (expandResponseFile env tokenizer markEOLs relativeNames) x

/-- The words of a response file. -/
abbrev wordsOfFile (fname : Str) : List Arg :=
  fileWords (expandResponseFile env tokenizer markEOLs relativeNames) fname

end

/-- **Where no file includes itself**, each include of what is expanded is replaced by the expansion of the
file, of which there is one, and the settings are left out. -/
theorem expanded_eq_expansion (env : Env σ) (tokenizer : Tokenizer) (markEOLs relativeNames : Bool)
    (hwf : WellFounded (flip (Refers (includes env tokenizer markEOLs relativeNames)
      (wordsOfFile env tokenizer markEOLs relativeNames)))) :
    ∃! X, IsExpansion (includes env tokenizer markEOLs relativeNames)
        (wordsOfFile env tokenizer markEOLs relativeNames) X ∧
      ∀ (st : σ) (argv : List Arg) (e : Expanded σ),
        expandResponseFiles env tokenizer markEOLs relativeNames st argv = some e → e.result = true →
          e.argv = (argv.flatMap (replaced (includes env tokenizer markEOLs relativeNames) X)).filter
            fun x => !isSettings x := by
  obtain ⟨X, hX⟩ := exists_isExpansion hwf
  refine ⟨X, ⟨hX, fun st argv e h hresult => ?_⟩, fun Y hY => hY.1.unique hwf hX⟩
  obtain ⟨n, -, hexp⟩ := expands_of_expandLoop (Nat.zero_le 21) h hresult
  exact hexp.eq_expansion hX

/-- A file with two words. -/
theorem expanded_eq_expansion_file :
    ∃! X, IsExpansion (includes (.ofFiles [(['f'], ['a', ' ', 'b'])]) tokenizeGNU false false)
        (wordsOfFile (.ofFiles [(['f'], ['a', ' ', 'b'])]) tokenizeGNU false false) X ∧
      ∀ (st : Unit) (argv : List Arg) (e : Expanded Unit),
        expandResponseFiles (.ofFiles [(['f'], ['a', ' ', 'b'])]) tokenizeGNU false false st argv = some e →
          e.result = true → e.argv = (argv.flatMap (replaced
            (includes (.ofFiles [(['f'], ['a', ' ', 'b'])]) tokenizeGNU false false) X)).filter
              fun x => !isSettings x := by
  refine expanded_eq_expansion _ _ _ _ ⟨fun k => ⟨k, fun j hj => ?_⟩⟩
  -- no file of this environment has a reference
  obtain ⟨x, hx, href⟩ := hj
  by_cases hk : k = ['f']
  · subst hk
    have hwords : wordsOfFile (.ofFiles [(['f'], ['a', ' ', 'b'])]) tokenizeGNU false false ['f'] =
        [some ['a'], some ['b']] := by decide
    rw [hwords] at hx
    rcases List.mem_cons.mp hx with rfl | hx
    · cases href
    · rw [List.mem_singleton.mp hx] at href
      cases href
  · have hwords : wordsOfFile (.ofFiles [(['f'], ['a', ' ', 'b'])]) tokenizeGNU false false k = [] := by
      have hnone : (Env.ofFiles [(['f'], ['a', ' ', 'b'])]).getFile k = none := by
        simp [Env.ofFiles, List.lookup_cons, beq_eq_false_iff_ne.mpr hk]
      simp [fileWords, expandResponseFile, Env.text, hnone]
    rw [hwords] at hx
    cases hx

/-- **A command line that leads to a circle** of includes is never expanded. -/
theorem result_of_circle (env : Env σ) (tokenizer : Tokenizer) (markEOLs relativeNames : Bool) {x : Arg}
    {j k : Str} (hx : includes env tokenizer markEOLs relativeNames x = some j)
    (hjk : Relation.ReflTransGen (Refers (includes env tokenizer markEOLs relativeNames)
      (wordsOfFile env tokenizer markEOLs relativeNames)) j k)
    (hk : Relation.TransGen (Refers (includes env tokenizer markEOLs relativeNames)
      (wordsOfFile env tokenizer markEOLs relativeNames)) k k)
    {st : σ} {argv : List Arg} (hmem : x ∈ argv) {e : Expanded σ}
    (h : expandResponseFiles env tokenizer markEOLs relativeNames st argv = some e) : e.result = false := by
  cases hresult : e.result with
  | false => rfl
  | true =>
    obtain ⟨n, -, hexp⟩ := expands_of_expandLoop (Nat.zero_le 21) h hresult
    obtain ⟨st₁, st₂, o, m, -, hexp⟩ := hexp.of_mem hmem hx
    obtain ⟨st₃, st₄, o', m', -, hexp⟩ := hexp.of_refers (.trans_right hjk hk)
    exact absurd hexp (not_expands_of_circle hk)

/-- A file that is itself. -/
theorem result_of_own_name : ∃ e, expandResponseFiles (.ofFiles [(['f'], ['@', 'f'])]) tokenizeGNU false false
    () [some ['@', 'f']] = some e ∧ e.result = false := by
  have hfile : expandResponseFile (.ofFiles [(['f'], ['@', 'f'])]) tokenizeGNU false false ['f'] =
      some [some ['@', 'f']] := by decide
  have hloop : ∀ n : Nat, ∃ e, expandLoop (.ofFiles [(['f'], ['@', 'f'])])
      (expandResponseFile (.ofFiles [(['f'], ['@', 'f'])]) tokenizeGNU false false) (21 - n) true ()
        [some ['@', 'f']] = some e := by
    intro n
    induction n with
    | zero => exact ⟨_, expandLoop_limit (by decide) (by decide)⟩
    | succ n ih =>
      by_cases hn : n < 21
      · rw [expandLoop_file (by decide) (by omega) hfile, List.append_nil,
          show 21 - (n + 1) + 1 = 21 - n by omega]
        exact ih
      · rwa [show 21 - (n + 1) = 21 - n by omega]
  obtain ⟨e, he⟩ := hloop 21
  have href : Refers (includes (.ofFiles [(['f'], ['@', 'f'])]) tokenizeGNU false false)
      (wordsOfFile (.ofFiles [(['f'], ['@', 'f'])]) tokenizeGNU false false) ['f'] ['f'] :=
    ⟨some ['@', 'f'], by decide, by decide⟩
  exact ⟨e, he, result_of_circle _ _ _ _ (x := some ['@', 'f']) (by decide) .refl (.single href)
    List.mem_cons_self he⟩

/-! ## Configuration files -/

/-- The end of the current line: the line, without the backslashes and the ends of lines that join it, and
what is behind it. -/
def currentLine : Str → Str × Str
  | [] => ([], [])
  | '\\' :: '\n' :: s => currentLine s
  | '\\' :: '\r' :: '\n' :: s => currentLine s
  | '\\' :: d :: s => ('\\' :: d :: (currentLine s).1, (currentLine s).2)
  | c :: s => if c = '\n' then ([], c :: s) else (c :: (currentLine s).1, (currentLine s).2)

theorem length_currentLine (s : Str) : (currentLine s).2.length ≤ s.length := by
  fun_induction currentLine s with
  | case1 => exact Nat.le_refl 0
  | case2 s ih | case3 s ih | case4 d s _ _ ih | case6 c s _ _ _ _ ih =>
    simp only [List.length_cons]
    omega
  | case5 => exact Nat.le_refl _

theorem length_currentLine_lt {s : Str} (hne : s ≠ []) (hhead : s.head? ≠ some '\n') :
    (currentLine s).2.length < s.length := by
  fun_cases currentLine s with
  | case1 => exact absurd rfl hne
  | case2 s | case3 s | case4 d s | case6 c s =>
    have hlen := length_currentLine s
    simp only [List.length_cons]
    omega
  | case5 => exact absurd rfl hhead

/-- `tokenizeConfigFile`: what it adds to `NewArgv`. -/
def tokenizeConfigFile (markEOLs : Bool) : Str → List Arg
  | [] => []
  | c :: s =>
    if isWhitespace c then tokenizeConfigFile markEOLs (s.dropWhile isWhitespace)
    else if c = '#' then tokenizeConfigFile markEOLs (s.dropWhile (· ≠ '\n'))
    else
      tokenizeGNU markEOLs (currentLine (c :: s)).1 ++ tokenizeConfigFile markEOLs (currentLine (c :: s)).2
termination_by s => s.length
decreasing_by
  · exact Nat.lt_succ_of_le (List.dropWhile_sublist _).length_le
  · exact Nat.lt_succ_of_le (List.dropWhile_sublist _).length_le
  · refine length_currentLine_lt (List.cons_ne_nil c s) ?_
    rintro heq
    rw [List.head?_cons, Option.some.injEq] at heq
    subst heq
    rename_i hspace _
    exact hspace (by decide)

/-- A backslash before an end of line, which joins the next line. -/
inductive Break where
  | lf
  | crlf
deriving DecidableEq

def Break.text : Break → Str
  | lf => ['\\', '\n']
  | crlf => ['\\', '\r', '\n']

/-- A part of a line: there is no end of line in it, and no backslash at its end that is for what is
behind it. -/
def isWhole : Str → Bool
  | [] => true
  | ['\\'] => false
  | ['\\', '\r'] => false
  | '\\' :: d :: s => d ≠ '\n' && isWhole s
  | c :: s => c ≠ '\n' && isWhole s

def brokenText (first : Str) (more : List (Break × Str)) : Str :=
  first ++ more.flatMap fun p => p.1.text ++ p.2

/-- A line with options, maybe over some lines of the file. -/
structure OptionLine where
  first : Str
  more : List (Break × Str)
  whole : isWhole first = true ∧ ∀ p ∈ more, isWhole p.2 = true
  begins : ∃ c s, brokenText first more = c :: s ∧ isWhitespace c = false ∧ c ≠ '#'

/-- The line without its breaks. -/
def OptionLine.joined (l : OptionLine) : Str := l.first ++ l.more.flatMap Prod.snd

inductive ConfigLine where
  | blank (c : { c : Char // isWhitespace c = true })
  | comment (s : { s : Str // '\n' ∉ s })
  | options (l : OptionLine)

namespace ConfigLine

def text : ConfigLine → Str
  | blank c => [c.1]
  | comment s => '#' :: s.1
  | options l => brokenText l.first l.more

/-- A comment and options end with the line. -/
def ended : ConfigLine → Str
  | blank c => [c.1]
  | comment s => '#' :: (s.1 ++ ['\n'])
  | options l => brokenText l.first l.more ++ ['\n']

def arguments (markEOLs : Bool) : ConfigLine → List Arg
  | options l => tokenizeGNU markEOLs l.joined
  | _ => []

end ConfigLine

theorem head_ne_newline_of_isWhole {s : Str} (h : isWhole s = true) : s.head? ≠ some '\n' := by
  cases s with
  | nil => simp
  | cons c s =>
    rintro heq
    cases heq
    simp [isWhole] at h

theorem currentLine_whole {s : Str} (h : isWhole s = true) (t : Str) :
    currentLine (s ++ t) = (s ++ (currentLine t).1, (currentLine t).2) := by
  induction s using isWhole.induct with
  | case1 => rfl
  | case2 => cases h
  | case3 => cases h
  | case4 d s hne ih =>
    have hd : d ≠ '\n' ∧ isWhole s = true := by
      simpa [isWhole, hne] using h
    rw [List.cons_append, List.cons_append, currentLine.eq_4, ih hd.2]
    · rfl
    · exact fun heq => hd.1 heq
    · intro s' hr heq
      cases s with
      | nil => exact hne hr rfl
      | cons c s =>
        rw [List.cons_append, List.cons.injEq] at heq
        exact head_ne_newline_of_isWhole hd.2 (by rw [heq.1]; rfl)
  | case5 c s hlone hcr hescape ih =>
    have hc : c ≠ '\\' := by
      rintro rfl
      cases s with
      | nil => exact hlone rfl rfl
      | cons d s => exact hescape d s rfl rfl
    have hnl : c ≠ '\n' ∧ isWhole s = true := by
      simpa [isWhole, hc] using h
    rw [List.cons_append, currentLine.eq_5, if_neg hnl.1, ih hnl.2]
    · rfl
    · exact fun _ heq => absurd heq hc
    · exact fun _ heq => absurd heq hc
    · exact fun _ _ heq => absurd heq hc

theorem currentLine_break (b : Break) (t : Str) : currentLine (b.text ++ t) = currentLine t := by
  cases b <;> rfl

/-- **A line with its breaks** is read without them. -/
theorem currentLine_options (l : OptionLine) {t : Str} (ht : currentLine t = ([], t)) :
    currentLine (brokenText l.first l.more ++ t) = (l.joined, t) := by
  have hmore : ∀ more : List (Break × Str), (∀ p ∈ more, isWhole p.2 = true) →
      currentLine (more.flatMap (fun p => p.1.text ++ p.2) ++ t) = (more.flatMap Prod.snd, t) := by
    intro more hwhole
    induction more with
    | nil => exact ht
    | cons p more ih =>
      obtain ⟨hp, hwhole⟩ := List.forall_mem_cons.mp hwhole
      rw [List.flatMap_cons, List.append_assoc, List.append_assoc, currentLine_break, currentLine_whole hp,
        ih hwhole, List.flatMap_cons]
  rw [brokenText, List.append_assoc, currentLine_whole l.whole.1, hmore l.more l.whole.2,
    OptionLine.joined]

/-- Blanks between lines add nothing. -/
theorem tokenizeConfigFile_dropWhile (markEOLs : Bool) (s : Str) :
    tokenizeConfigFile markEOLs (s.dropWhile isWhitespace) = tokenizeConfigFile markEOLs s := by
  cases s with
  | nil => rfl
  | cons c s =>
    by_cases hc : isWhitespace c = true
    · rw [List.dropWhile_cons_of_pos hc, tokenizeConfigFile.eq_2, if_pos hc]
    · rw [List.dropWhile_cons_of_neg hc]

theorem tokenizeConfigFile_blank (markEOLs : Bool) {c : Char} (hc : isWhitespace c = true) (s : Str) :
    tokenizeConfigFile markEOLs (c :: s) = tokenizeConfigFile markEOLs s := by
  rw [tokenizeConfigFile.eq_2, if_pos hc, tokenizeConfigFile_dropWhile]

theorem tokenizeConfigFile_comment (markEOLs : Bool) {s t : Str} (hs : '\n' ∉ s)
    (ht : t.head? = none ∨ t.head? = some '\n') :
    tokenizeConfigFile markEOLs ('#' :: (s ++ t)) = tokenizeConfigFile markEOLs t := by
  have hall : ∀ c ∈ s, decide (c ≠ '\n') = true := by
    intro c hc
    exact decide_eq_true fun heq => hs (heq ▸ hc)
  have hend : t.dropWhile (· ≠ '\n') = t := by
    cases t with
    | nil => rfl
    | cons c t =>
      have hc : c = '\n' := by simpa using ht
      exact List.dropWhile_cons_of_neg (by simp [hc])
  rw [tokenizeConfigFile.eq_2, if_neg (by decide), if_pos rfl, List.dropWhile_append_of_pos hall, hend]

theorem tokenizeConfigFile_options (markEOLs : Bool) (l : OptionLine) {t : Str}
    (ht : currentLine t = ([], t)) : tokenizeConfigFile markEOLs (brokenText l.first l.more ++ t) =
      tokenizeGNU markEOLs l.joined ++ tokenizeConfigFile markEOLs t := by
  have hline := currentLine_options l ht
  obtain ⟨c, s, hbegin, hspace, hcomment⟩ := l.begins
  rw [hbegin, List.cons_append] at hline ⊢
  rw [tokenizeConfigFile.eq_2, hspace, if_neg Bool.false_ne_true, if_neg hcomment, hline]

/-- **A configuration file** gives the words of its lines with options, each line read by itself and
without its breaks. -/
theorem tokenizeConfigFile_lines (markEOLs : Bool) (lines : List ConfigLine) (last : Option ConfigLine) :
    tokenizeConfigFile markEOLs (lines.flatMap ConfigLine.ended ++ (last.elim [] ConfigLine.text)) =
      (lines ++ last.toList).flatMap (ConfigLine.arguments markEOLs) := by
  have hblank : isWhitespace '\n' = true := by decide
  induction lines with
  | nil =>
    cases last with
    | none => simp [tokenizeConfigFile]
    | some l =>
      cases l with
      | blank c => simp [ConfigLine.text, ConfigLine.arguments, tokenizeConfigFile_blank markEOLs c.2,
          tokenizeConfigFile]
      | comment s =>
        have hs := tokenizeConfigFile_comment markEOLs s.2 (t := []) (.inl rfl)
        rw [List.append_nil] at hs
        simpa [ConfigLine.text, ConfigLine.arguments, tokenizeConfigFile] using hs
      | options l =>
        have hl := tokenizeConfigFile_options markEOLs l (t := []) rfl
        rw [List.append_nil] at hl
        simpa [ConfigLine.text, ConfigLine.arguments, tokenizeConfigFile] using hl
  | cons l lines ih =>
    rw [List.flatMap_cons, List.append_assoc, List.cons_append, List.flatMap_cons, ← ih]
    generalize lines.flatMap ConfigLine.ended ++ last.elim [] ConfigLine.text = t
    cases l with
    | blank c => exact tokenizeConfigFile_blank markEOLs c.2 t
    | comment s =>
      rw [ConfigLine.ended, List.cons_append, List.append_assoc, List.singleton_append,
        tokenizeConfigFile_comment markEOLs s.2 (.inr rfl), tokenizeConfigFile_blank markEOLs hblank]
      rfl
    | options l =>
      have hend : currentLine ('\n' :: t) = ([], '\n' :: t) := by
        rw [currentLine.eq_5, if_pos rfl] <;> simp
      rw [ConfigLine.ended, List.append_assoc, List.singleton_append,
        tokenizeConfigFile_options markEOLs l hend, tokenizeConfigFile_blank markEOLs hblank]
      rfl

end Primitives.CommandLine
