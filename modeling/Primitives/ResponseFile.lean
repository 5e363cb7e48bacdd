import Mathlib.Data.Int.Order.Basic
import Primitives.Basic
import Primitives.Lib.Lines

/-!
# Response files

`process_response_file` replaces the arguments of a program by the lines of a file. The array that it
makes is the one that `main` expects: the program, the lines and a null pointer (`processed_argv`). But
the count leaves the program out, so the last argument is behind it and there is no null pointer at it
(`processed_not_conforms`).

The pointers of the array point into a static vector, so a second call would leave those of the first
one to memory that was freed. What is said here is about the first call.
-/

set_option autoImplicit false

namespace Primitives.ResponseFile

open Lib

/-! ## The code -/

/-- `argc` and `argv`. A pointer is null, or it points to a string. -/
structure Main where
  argc : Int
  argv : List (Option Str)
deriving DecidableEq, Repr

/-- The static `args` and `argv`. -/
structure Statics where
  args : Strings
  argv : List (Option Str)
deriving DecidableEq, Repr

/-- Before the first call. -/
def Statics.init : Statics := ⟨[], []⟩

/-- A `size_t` as an `int`, at 32 bits. -/
def intOfSize (n : Nat) : Int := (n : Int).bmod (2 ^ 32)

/-- What `std::getline` reads until it fails: a newline ends a line, and the end of the file ends one that
has a character. -/
def getlines : Str → Strings
  | [] => []
  | c :: s =>
    if c = '\n' then [] :: getlines s
    else
      match getlines s with
      | [] => [[c]]
      | l :: ls => (c :: l) :: ls

/-- `strip_quotes` -/
def stripQuotes (s : Str) : Str :=
  if s.length > 1 ∧ s.head? = some '"' ∧ s.getLast? = some '"' then (s.drop 1).take (s.length - 2)
  else s

/-- The file that the only argument names. -/
def Main.responseFile (m : Main) : Option Str :=
  if m.argc = 2 then
    match m.argv with
    | _ :: some ('@' :: file) :: _ => some file
    | _ => none
  else none

/-- `process_response_file`, over the files that can be opened. From another one no line is read. -/
def processResponseFile (files : Str → Option Str) (st : Statics) (m : Main) : Statics × Main :=
  match m.responseFile with
  | none => (st, m)
  | some file =>
    let args := st.args ++ (getlines ((files file).getD [])).map stripQuotes
    let argv := st.argv ++ m.argv.take 1 ++ args.map some ++ [none]
    (⟨args, argv⟩, ⟨intOfSize args.length, argv⟩)

/-! ## The lines of a file -/

theorem getlines_newline (s : Str) : getlines ('\n' :: s) = [] :: getlines s := by
  rw [getlines, if_pos rfl]

/-- Characters before the end of the file. -/
theorem getlines_of_not_mem {l : Str} (h : '\n' ∉ l) (hne : l ≠ []) : getlines l = [l] := by
  induction l with
  | nil => exact absurd rfl hne
  | cons c l ih =>
    rw [List.mem_cons, not_or] at h
    rw [getlines, if_neg (Ne.symm h.1)]
    cases l with
    | nil => rfl
    | cons d l => rw [ih h.2 (List.cons_ne_nil _ _)]

/-- Characters before a newline. -/
theorem getlines_append {l : Str} (h : '\n' ∉ l) (s : Str) :
    getlines (l ++ '\n' :: s) = l :: getlines s := by
  induction l with
  | nil => exact getlines_newline s
  | cons c l ih =>
    rw [List.mem_cons, not_or] at h
    rw [List.cons_append, getlines, if_neg (Ne.symm h.1), ih h.2]

/-- **The lines of a file** are those that it was written from, and what stands behind the last newline
is one more. -/
theorem getlines_unlines {ls : Strings} {rest : Str} (hls : ∀ l ∈ ls, '\n' ∉ l) (hrest : '\n' ∉ rest) :
    getlines (unlines ls ++ rest) = ls ++ if rest = [] then [] else [rest] := by
  induction ls with
  | nil =>
    show getlines rest = [] ++ _
    by_cases hnil : rest = []
    · rw [hnil]
      rfl
    · rw [if_neg hnil, getlines_of_not_mem hrest hnil, List.nil_append]
  | cons l ls ih =>
    obtain ⟨hl, hls⟩ := List.forall_mem_cons.mp hls
    rw [unlines_cons, List.append_assoc, List.cons_append, getlines_append hl, ih hls]
    rfl

/-- Every file is written so. -/
theorem exists_unlines (s : Str) : ∃ (ls : Strings) (rest : Str), s = unlines ls ++ rest ∧
    (∀ l ∈ ls, '\n' ∉ l) ∧ '\n' ∉ rest := by
  induction s with
  | nil => exact ⟨[], [], rfl, List.forall_mem_nil _, List.not_mem_nil⟩
  | cons c s ih =>
    obtain ⟨ls, rest, rfl, hls, hrest⟩ := ih
    by_cases hc : c = '\n'
    · refine ⟨[] :: ls, rest, ?_, List.forall_mem_cons.mpr ⟨List.not_mem_nil, hls⟩, hrest⟩
      rw [hc, unlines_cons]
      rfl
    · cases ls with
      | nil =>
        refine ⟨[], c :: rest, rfl, hls, ?_⟩
        rw [List.mem_cons, not_or]
        exact ⟨Ne.symm hc, hrest⟩
      | cons l ls =>
        obtain ⟨hl, hls⟩ := List.forall_mem_cons.mp hls
        refine ⟨(c :: l) :: ls, rest, ?_, List.forall_mem_cons.mpr ⟨?_, hls⟩, hrest⟩
        · rw [unlines_cons, unlines_cons]
          rfl
        · rw [List.mem_cons, not_or]
          exact ⟨Ne.symm hc, hl⟩

/-- The outer pair of quotes is removed. -/
theorem stripQuotes_quoted (s : Str) : stripQuotes ('"' :: (s ++ ['"'])) = s := by
  have hlast : ('"' :: (s ++ ['"'])).getLast? = some '"' := by
    rw [← List.cons_append, List.getLast?_concat]
  rw [stripQuotes, if_pos ⟨by simp, rfl, hlast⟩]
  simp

/-- A line of another kind is left as it is. -/
theorem stripQuotes_of_ne {s : Str} (h : ∀ t, s ≠ '"' :: (t ++ ['"'])) : stripQuotes s = s := by
  refine if_neg ?_
  rintro ⟨hlen, hhead, hlast⟩
  cases s with
  | nil => cases hhead
  | cons c s =>
    cases hhead
    -- the last quote is not the first one
    rcases List.eq_nil_or_concat' s with rfl | ⟨t, d, rfl⟩
    · exact absurd hlen (Nat.lt_irrefl 1)
    · rw [← List.cons_append, List.getLast?_concat] at hlast
      cases hlast
      exact h t rfl

/-! ## The arguments -/

/-- A process that is started with the name of a file. -/
def start (name file : Str) : Main := ⟨2, [some name, some ('@' :: file), none]⟩

/-- The lines that are read. -/
def arguments (files : Str → Option Str) (file : Str) : Strings :=
  (getlines ((files file).getD [])).map stripQuotes

/-- The arguments of a program `name`, as `main` expects them. -/
structure Conforms (name : Str) (args : Strings) (m : Main) : Prop where
  program : m.argv[0]? = some (some name)
  argument : ∀ (i : Nat) (h : i < args.length), m.argv[i + 1]? = some (some args[i])
  null : m.argv[m.argc.toNat]? = some none
  count : m.argc = args.length + 1

section

variable (files : Str → Option Str) (name file : Str)

theorem processResponseFile_start :
    (processResponseFile files .init (start name file)).2 =
      ⟨intOfSize (arguments files file).length,
        some name :: ((arguments files file).map some ++ [none])⟩ := rfl

/-- **The array** is the program, the lines and a null pointer. -/
theorem processed_argv :
    let argv := (processResponseFile files .init (start name file)).2.argv
    let args := arguments files file
    argv[0]? = some (some name) ∧
      (∀ (i : Nat) (h : i < args.length), argv[i + 1]? = some (some args[i])) ∧
      argv[args.length + 1]? = some none ∧ argv.length = args.length + 2 := by
  intro argv args
  have hargv : argv = some name :: (args.map some ++ [none]) := rfl
  refine ⟨rfl, fun i h => ?_, ?_, ?_⟩
  · rw [hargv, List.getElem?_cons_succ, List.getElem?_append_left (by simpa using h)]
    simp [h]
  · rw [hargv, List.getElem?_cons_succ, List.getElem?_append_right (by simp)]
    simp
  · rw [hargv]
    simp

/-- Not even a number of lines that is cut to 32 bits is the one after it. -/
theorem intOfSize_ne_succ (n : Nat) : intOfSize n ≠ n + 1 := by
  unfold intOfSize
  intro h
  have hmod := Int.bmod_emod (x := n) (m := 2 ^ 32)
  rw [h] at hmod
  omega

/-- **The count** is one too small, whatever the file is, and so the arguments are never those that `main`
expects. -/
theorem processed_not_conforms :
    ¬ Conforms name (arguments files file) (processResponseFile files .init (start name file)).2 := by
  rw [processResponseFile_start]
  intro h
  have hcount := h.count
  dsimp only at hcount
  exact intOfSize_ne_succ _ hcount

/-- The program sees a file of one line as no argument. -/
theorem one_line_not_conforms :
    ¬ Conforms ['p'] [['-', 'v']]
      (processResponseFile (fun _ => some ['-', 'v', '\n']) .init (start ['p'] ['f'])).2 := by
  intro h
  have hcount := h.count
  revert hcount
  decide

end

end Primitives.ResponseFile
