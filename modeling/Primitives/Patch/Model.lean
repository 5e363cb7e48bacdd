import Primitives.Basic

/-!
# `patch.cpp` — the code

`patch` applies a unified diff to a text. It splits both into lines, walks the diff once
(`patch_file`, and `patch_hunk` inside a hunk) and copies or replaces lines of the text as it
goes, with `oi` the index of the next old line and `ni` the count of new lines written.

The definitions below follow the source loop by loop. An iterator into the diff is the list of
lines from it to the end, so `patchHunk` returns the lines it has not read, which is what the
caller's `--i` followed by the loop's `i++` continues with. The vector of text lines is read
with `index`, which faults past the end where the source does not check. `boost::split` at
`'\n'` is not part of the repository: it is the parameter `split`, and nothing below assumes
anything of it.
-/

set_option autoImplicit false

namespace Primitives.Patch

/-- `EMPTY_ACTION` aside, the value `patch_hunk` returns and the references it updates. -/
structure HunkResult where
  first : Bool
  second : Str
  i : Strings
  oi : Nat
  ni : Int
deriving DecidableEq, Repr

/-- `add_line`. -/
def addLine (r : Str) (ni : Int) (s : Str) : Str × Int := (r ++ s ++ ['\n'], incInt ni)

/-- The message of the `default:` branch of `patch_hunk`. -/
def badSymbol (c : Char) (os ns : Int) : Str :=
  "bad symbol ".toList ++ [c] ++ ", os = ".toList ++ (toString os).toList ++
    ", ns = ".toList ++ (toString ns).toList

/-- `patch_hunk`. The arguments after `lines` are `i`, `r`, `oi`, `ni`, `os` and `ns`. -/
def patchHunk (lines : Strings) :
    Strings → Str → Nat → Int → Int → Int → Except Fault HunkResult
  | [], r, oi, ni, os, ns =>
    if os = 0 ∧ ns = 0 then .ok ⟨true, r, [], oi, ni⟩
    else .ok ⟨false, "bad hunk info".toList, [], oi, ni⟩
  | [] :: is, r, oi, ni, os, ns => patchHunk lines is r oi ni os ns
  | (c :: s) :: is, r, oi, ni, os, ns =>
    if os = 0 ∧ ns = 0 then .ok ⟨true, r, (c :: s) :: is, oi, ni⟩
    else if os < 0 ∨ ns < 0 then .ok ⟨false, "bad hunk info".toList, (c :: s) :: is, oi, ni⟩
    else if c = ' ' then
      match index lines oi with
      | .error f => .error f
      | .ok l =>
        if l ≠ s then .ok ⟨false, "context lines do not match".toList, (c :: s) :: is, oi, ni⟩
        else
          patchHunk lines is (addLine r ni l).1 (oi + 1) (addLine r ni l).2 (os - 1) (ns - 1)
    else if c = '+' then
      patchHunk lines is (addLine r ni s).1 oi (addLine r ni s).2 os (ns - 1)
    else if c = '-' then
      match index lines oi with
      | .error f => .error f
      | .ok l =>
        if l ≠ s then .ok ⟨false, "context lines do not match".toList, (c :: s) :: is, oi, ni⟩
        else patchHunk lines is r (oi + 1) ni (os - 1) ns
    else if os = 0 ∧ ns = 0 then .ok ⟨true, r, (c :: s) :: is, oi, ni⟩
    else .ok ⟨false, badSymbol c os ns, (c :: s) :: is, oi, ni⟩

/-- The copy loop of `patch_file`, `for (; oi < (size_t)ol; oi++) add_line(r, ni, lines[oi])`,
by the number of its iterations. -/
def copyLines (lines : Strings) : Nat → Str → Nat → Int → Except Fault (Str × Nat × Int)
  | 0, r, oi, ni => .ok (r, oi, ni)
  | n + 1, r, oi, ni =>
    match index lines oi with
    | .error f => .error f
    | .ok l => copyLines lines n (addLine r ni l).1 (oi + 1) (addLine r ni l).2

/-! ## The header's regular expression

`r_hunk` is `@@ -(\d+),(\d+) \+(\d+),(\d+) @@.*`, matched against the whole line. The four
groups are delimited by characters that are not digits, so the greedy reading is the only one.
-/

/-- A literal at the head of the string. -/
def literal (lit s : Str) : Option Str :=
  if lit <+: s then some (s.drop lit.length) else none

/-- `(\d+)` at the head of the string: the group and what follows it. -/
def digitGroup (s : Str) : Option (Str × Str) :=
  if s.takeWhile isDigit = [] then none else some (s.takeWhile isDigit, s.dropWhile isDigit)

/-- `.*` at the end: `.` is any character but a line terminator. -/
def dotStar (s : Str) : Bool := s.all fun c => c ≠ '\n' && c ≠ '\r'

/-- `std::regex_match(*i, m, r_hunk)`: the groups `m[1]` to `m[4]`. -/
def rHunk (s : Str) : Option (Str × Str × Str × Str) := do
  let s ← literal "@@ -".toList s
  let (m₁, s) ← digitGroup s
  let s ← literal ",".toList s
  let (m₂, s) ← digitGroup s
  let s ← literal " +".toList s
  let (m₃, s) ← digitGroup s
  let s ← literal ",".toList s
  let (m₄, s) ← digitGroup s
  let s ← literal " @@".toList s
  if dotStar s then some (m₁, m₂, m₃, m₄) else none

/-! ## The file -/

/-- A hunk leaves at most the lines it was given. -/
theorem patchHunk_length_le {lines : Strings} :
    ∀ {is : Strings} {r : Str} {oi : Nat} {ni os ns : Int} {h : HunkResult},
      patchHunk lines is r oi ni os ns = .ok h → h.i.length ≤ is.length := by
  intro is
  induction is with
  | nil =>
    intro r oi ni os ns h hh
    rw [patchHunk] at hh
    split at hh <;> cases hh <;> simp
  | cons l is ih =>
    intro r oi ni os ns h hh
    cases l with
    | nil =>
      rw [patchHunk] at hh
      exact Nat.le_succ_of_le (ih hh)
    | cons c s =>
      rw [patchHunk] at hh
      repeat' split at hh
      all_goals first
        | exact Nat.le_succ_of_le (ih hh)
        | cases hh <;> simp

/-- `patch_file`. The arguments after `options` are `i`, `r`, `oi` and `ni`; the result is the
returned pair with the final `oi`. `PatchOption::Git` is the lowest bit of `options`. -/
def patchFile (lines : Strings) (options : Int) (i : Strings) (r : Str) (oi : Nat) (ni : Int) :
    Except Fault (Bool × Str × Nat) :=
  match i with
  | [] => .ok (true, r, oi)
  | [] :: is => patchFile lines options is r oi ni
  | (c :: s) :: is =>
    if c = '+' then
      if "+++".toList <+: c :: s then patchFile lines options is r oi ni
      else .ok (false, "+ is out of hunk".toList, oi)
    else if c = '-' then
      if "---".toList <+: c :: s then patchFile lines options is r oi ni
      else .ok (false, "- is out of hunk".toList, oi)
    else if c = '@' then
      match rHunk (c :: s) with
      | none => .ok (false, "bad hunk description".toList, oi)
      | some (m₁, m₂, m₃, m₄) =>
        match stoi m₁, stoi m₂, stoi m₃, stoi m₄ with
        | .ok ol, .ok os, .ok nl, .ok ns =>
          match copyLines lines (sizeT (ol - 1) - oi) r oi ni with
          | .error f => .error f
          | .ok (r, oi, ni) =>
            if nl - 1 ≠ ni then
              .ok (false, "nl is wrong: ".toList ++ (toString nl).toList, oi)
            else
              match h : patchHunk lines is [] oi ni os ns with
              | .error f => .error f
              | .ok r₂ =>
                have : r₂.i.length ≤ is.length := patchHunk_length_le h
                if r₂.first then patchFile lines options r₂.i (r ++ r₂.second) r₂.oi r₂.ni
                else
                  .ok (false, "bad hunk ".toList ++ (toString nl).toList ++ ": ".toList ++
                    r₂.second, r₂.oi)
        | _, _, _, _ => .error .outOfRange
    else if (c = 'd' ∨ c = 'i') ∧ options % 2 = 1 then .ok (true, r, oi)
    else .ok (false, "unknown action".toList, oi)
termination_by i.length
decreasing_by
  · exact Nat.lt_succ_self _
  · exact Nat.lt_succ_self _
  · exact Nat.lt_succ_self _
  · exact Nat.lt_succ_of_le this

/-- What `patch_file` does at a line that starts with `@`. -/
theorem patchFile_header {lines : Strings} {options : Int} (s : Str) (is : Strings) (r : Str)
    (oi : Nat) (ni : Int) :
    patchFile lines options (('@' :: s) :: is) r oi ni =
      match rHunk ('@' :: s) with
      | none => .ok (false, "bad hunk description".toList, oi)
      | some (m₁, m₂, m₃, m₄) =>
        match stoi m₁, stoi m₂, stoi m₃, stoi m₄ with
        | .ok ol, .ok os, .ok nl, .ok ns =>
          match copyLines lines (sizeT (ol - 1) - oi) r oi ni with
          | .error f => .error f
          | .ok (r, oi, ni) =>
            if nl - 1 ≠ ni then
              .ok (false, "nl is wrong: ".toList ++ (toString nl).toList, oi)
            else
              match patchHunk lines is [] oi ni os ns with
              | .error f => .error f
              | .ok r₂ =>
                if r₂.first then patchFile lines options r₂.i (r ++ r₂.second) r₂.oi r₂.ni
                else
                  .ok (false, "bad hunk ".toList ++ (toString nl).toList ++ ": ".toList ++
                    r₂.second, r₂.oi)
        | _, _, _, _ => .error .outOfRange := by
  rw [patchFile]
  simp only [Char.reduceEq, if_false, if_true]
  cases rHunk ('@' :: s) with
  | none => rfl
  | some m =>
    obtain ⟨m₁, m₂, m₃, m₄⟩ := m
    dsimp only
    cases stoi m₁ <;> cases stoi m₂ <;> cases stoi m₃ <;> cases stoi m₄ <;> try rfl
    rename_i ol os nl ns
    dsimp only
    cases copyLines lines (sizeT (ol - 1) - oi) r oi ni with
    | error f => rfl
    | ok c =>
      obtain ⟨r, oi, ni⟩ := c
      dsimp only
      split
      · rfl
      · split <;> rename_i h <;> rw [h]

/-! ## The text -/

/-- `prepare_lines`: the lines of a string, each without the `'\r'`s at its end. -/
def prepareLines (split : Str → Strings) (s : Str) : Strings :=
  (split s).map fun l => l.rdropWhile (· = '\r')

/-- `patch`. The lines from the final `oi` on are copied, and the last `'\n'` is dropped. -/
def patch (split : Str → Strings) (text unidiff : Str) (options : Int) :
    Except Fault (Bool × Str) :=
  match patchFile (prepareLines split text) options (prepareLines split unidiff) [] 0 0 with
  | .error f => .error f
  | .ok (false, msg, _) => .ok (false, "bad file: ".toList ++ msg)
  | .ok (true, r, oi) =>
    .ok (true, (r ++ ((prepareLines split text).drop oi).flatMap (· ++ ['\n'])).dropLast)

/-- What `boost::split(v, s, boost::is_any_of("\n"))` leaves in `v`, for concrete inputs. -/
def boostSplit (s : Str) : Strings := s.splitOn '\n'

end Primitives.Patch
