import Mathlib.Data.List.Chain
import Primitives.CommandLine.Tokens

/-!
# The words of a command line of Windows

`TokenizeWindowsCommandLine` takes backslashes as they are, unless a double quote follows them: then each
two of them are one, and one that is left over escapes the quote (`parseBackslash`). Arguments that are
quoted by `QuoteType::SimpleAndEscape` do not all come back as they were: before another character a
backslash is two then (`tokenizeWindows_quoted`).

With the quotes that it wants it can read every list of arguments. The loop of `TokenizeGNUCommandLine`
can read those without an empty one (`writable_iff`).
-/

set_option autoImplicit false

namespace Primitives.CommandLine

open Lib

/-! ## The code -/

/-- `parseBackslash`, with the source behind the first backslash: what it appends to the token, and what is
left of the source. -/
def parseBackslash (s : Str) : Str × Str :=
  let backslashCount := (s.takeWhile (· = '\\')).length + 1
  let rest := s.dropWhile (· = '\\')
  if rest.head? = some '\x22' then
    if backslashCount % 2 = 0 then (List.replicate (backslashCount / 2) '\\', rest)
    else (List.replicate (backslashCount / 2) '\\' ++ ['\x22'], rest.tail)
  else (List.replicate backslashCount '\\', rest)

theorem length_parseBackslash (s : Str) : (parseBackslash s).2.length ≤ s.length := by
  have hdrop : (s.dropWhile (· = '\\')).length ≤ s.length := (List.dropWhile_sublist _).length_le
  rw [parseBackslash]
  split
  · split
    · exact hdrop
    · exact (List.tail_sublist _).length_le.trans hdrop
  · exact hdrop

/-- The state of `TokenizeWindowsCommandLine`. -/
inductive State where
  /-- At the start of the string or between tokens. -/
  | init
  | unquoted
  | quoted
deriving DecidableEq, Repr

/-- The loop of `TokenizeWindowsCommandLine` with what is left of the source. -/
def windowsLoop (markEOLs : Bool) : State → Str → Str → List Arg
  | _, token, [] => finish markEOLs token
  | .init, token, c :: s =>
    if isWhitespace c then eol markEOLs c ++ windowsLoop markEOLs .init token s
    else if c = '\x22' then windowsLoop markEOLs .quoted token s
    else if c = '\\' then
      windowsLoop markEOLs .unquoted (token ++ (parseBackslash s).1) (parseBackslash s).2
    else windowsLoop markEOLs .unquoted (token ++ [c]) s
  | .unquoted, token, c :: s =>
    if isWhitespace c then save token :: (eol markEOLs c ++ windowsLoop markEOLs .init [] s)
    else if c = '\x22' then windowsLoop markEOLs .quoted token s
    else if c = '\\' then
      windowsLoop markEOLs .unquoted (token ++ (parseBackslash s).1) (parseBackslash s).2
    else windowsLoop markEOLs .unquoted (token ++ [c]) s
  | .quoted, token, c :: s =>
    if c = '\x22' then windowsLoop markEOLs .unquoted token s
    else if c = '\\' then
      windowsLoop markEOLs .quoted (token ++ (parseBackslash s).1) (parseBackslash s).2
    else windowsLoop markEOLs .quoted (token ++ [c]) s
termination_by _ _ s => s.length
decreasing_by
  all_goals first
    | exact Nat.lt_succ_self _
    | exact Nat.lt_succ_of_le (length_parseBackslash s)

-- A quote that is never closed ends with the text.
example (markEOLs : Bool) (token : Str) : windowsLoop markEOLs .quoted token [] = finish markEOLs token := by
  rw [windowsLoop]

/-- `TokenizeWindowsCommandLine`: what it adds to `NewArgv`. -/
def tokenizeWindows (markEOLs : Bool) (src : Str) : List Arg := windowsLoop markEOLs .init [] src

/-! ## Runs of backslashes -/

/-- A text as runs of backslashes, each with the other character behind it, and the run at its end. -/
def runs : Str → List (Nat × Char) × Nat
  | [] => ([], 0)
  | c :: s =>
    if c = '\\' then
      match runs s with
      | ([], m) => ([], m + 1)
      | ((k, d) :: l, m) => ((k + 1, d) :: l, m)
    else ((0, c) :: (runs s).1, (runs s).2)

/-- A text with each run written by `f`, and the last one by `g`. -/
def rewritten (f : Nat → Char → Str) (g : Nat → Str) (s : Str) : Str :=
  (runs s).1.flatMap (fun p => f p.1 p.2) ++ g (runs s).2

def slashes (k : Nat) : Str := List.replicate k '\\'

theorem length_slashes (k : Nat) : (slashes k).length = k := List.length_replicate

theorem runs_self (s : Str) : rewritten (fun k d => slashes k ++ [d]) slashes s = s := by
  induction s with
  | nil => rfl
  | cons c s ih =>
    rw [rewritten] at ih ⊢
    rw [runs]
    split
    · rename_i hc
      split
      · rename_i m hm
        rw [hm] at ih
        rw [hc, ← ih]
        rfl
      · rename_i k d l m hm
        rw [hm] at ih
        rw [hc, ← ih]
        rfl
    · rw [List.flatMap_cons, List.append_assoc, ih]
      rfl

theorem ne_backslash_of_mem_runs {s : Str} {p : Nat × Char} (hp : p ∈ (runs s).1) : p.2 ≠ '\\' := by
  induction s generalizing p with
  | nil => cases hp
  | cons c s ih =>
    rw [runs] at hp
    split at hp
    · split at hp
      · cases hp
      · rename_i k d l m hm
        rw [hm] at ih
        rcases List.mem_cons.mp hp with rfl | hp
        · exact ih (p := (k, d)) List.mem_cons_self
        · exact ih (List.mem_cons_of_mem _ hp)
    · rename_i hc
      rcases List.mem_cons.mp hp with rfl | hp
      · exact hc
      · exact ih hp

theorem takeWhile_slashes (k : Nat) {s : Str} (hs : s.head? ≠ some '\\') :
    (slashes k ++ s).takeWhile (· = '\\') = slashes k ∧ (slashes k ++ s).dropWhile (· = '\\') = s := by
  have hall : ∀ c ∈ slashes k, decide (c = '\\') = true := by
    intro c hc
    rw [List.eq_of_mem_replicate hc]
    rfl
  have hend : s.takeWhile (· = '\\') = [] ∧ s.dropWhile (· = '\\') = s := by
    cases s with
    | nil => exact ⟨rfl, rfl⟩
    | cons c s =>
      have hc : ¬ decide (c = '\\') = true := by simpa using hs
      exact ⟨List.takeWhile_cons_of_neg hc, List.dropWhile_cons_of_neg hc⟩
  constructor
  · rw [List.takeWhile_append_of_pos hall, hend.1, List.append_nil]
  · rw [List.dropWhile_append_of_pos hall, hend.2]

/-- A run before another character is taken as it is. -/
theorem parseBackslash_literal (k : Nat) {s : Str} (hs : s.head? ≠ some '\\')
    (hquote : s.head? ≠ some '\x22') : parseBackslash (slashes k ++ s) = (slashes (k + 1), s) := by
  obtain ⟨htake, hdrop⟩ := takeWhile_slashes k hs
  simp only [parseBackslash, htake, hdrop, if_neg hquote, length_slashes]
  rfl

/-- An even run before a quote. -/
theorem parseBackslash_even (k : Nat) (s : Str) :
    parseBackslash (slashes (2 * k + 1) ++ '\x22' :: s) = (slashes (k + 1), '\x22' :: s) := by
  obtain ⟨htake, hdrop⟩ := takeWhile_slashes (2 * k + 1) (s := '\x22' :: s) (by simp)
  have hmod : (2 * k + 1 + 1) % 2 = 0 := by omega
  have hdiv : (2 * k + 1 + 1) / 2 = k + 1 := by omega
  simp only [parseBackslash, htake, hdrop, List.head?_cons, length_slashes, if_true, hmod, hdiv]
  rfl

/-- An odd run before a quote. -/
theorem parseBackslash_odd (k : Nat) (s : Str) :
    parseBackslash (slashes (2 * k) ++ '\x22' :: s) = (slashes k ++ ['\x22'], s) := by
  obtain ⟨htake, hdrop⟩ := takeWhile_slashes (2 * k) (s := '\x22' :: s) (by simp)
  have hmod : ¬ (2 * k + 1) % 2 = 0 := by omega
  have hdiv : (2 * k + 1) / 2 = k := by omega
  simp only [parseBackslash, htake, hdrop, List.head?_cons, length_slashes, if_true, if_neg hmod, hdiv,
    List.tail_cons]
  rfl

/-! ## Between quotes -/

section

variable {markEOLs : Bool} {token : Str}

theorem windowsLoop_quoted_slash (s : Str) : windowsLoop markEOLs .quoted token ('\\' :: s) =
    windowsLoop markEOLs .quoted (token ++ (parseBackslash s).1) (parseBackslash s).2 := by
  rw [windowsLoop, if_neg (by decide), if_pos rfl]

theorem windowsLoop_close (s : Str) :
    windowsLoop markEOLs .quoted token ('\x22' :: s) = windowsLoop markEOLs .unquoted token s := by
  rw [windowsLoop, if_pos rfl]

theorem windowsLoop_literal (k : Nat) {d : Char} (hd : d ≠ '\\') (hquote : d ≠ '\x22') (s : Str) :
    windowsLoop markEOLs .quoted token (slashes k ++ d :: s) =
      windowsLoop markEOLs .quoted (token ++ (slashes k ++ [d])) s := by
  have hone : ∀ token : Str, windowsLoop markEOLs .quoted token (d :: s) =
      windowsLoop markEOLs .quoted (token ++ [d]) s := by
    intro token
    rw [windowsLoop, if_neg hquote, if_neg hd]
  cases k with
  | zero => exact hone token
  | succ k =>
    show windowsLoop markEOLs .quoted token ('\\' :: (slashes k ++ d :: s)) = _
    rw [windowsLoop_quoted_slash, parseBackslash_literal k (by simpa using hd) (by simpa using hquote), hone,
      List.append_assoc]

/-- An escaped quote behind backslashes. -/
theorem windowsLoop_escaped (k : Nat) (s : Str) :
    windowsLoop markEOLs .quoted token (slashes (2 * k + 1) ++ '\x22' :: s) =
      windowsLoop markEOLs .quoted (token ++ (slashes k ++ ['\x22'])) s := by
  show windowsLoop markEOLs .quoted token ('\\' :: (slashes (2 * k) ++ '\x22' :: s)) = _
  rw [windowsLoop_quoted_slash, parseBackslash_odd]

/-- The closing quote behind backslashes. -/
theorem windowsLoop_closing (k : Nat) (s : Str) :
    windowsLoop markEOLs .quoted token (slashes (2 * k) ++ '\x22' :: s) =
      windowsLoop markEOLs .unquoted (token ++ slashes k) s := by
  cases k with
  | zero =>
    show windowsLoop markEOLs .quoted token ('\x22' :: s) = _
    rw [windowsLoop_close, show slashes 0 = [] from rfl, List.append_nil]
  | succ k =>
    show windowsLoop markEOLs .quoted token ('\\' :: (slashes (2 * k + 1) ++ '\x22' :: s)) = _
    rw [windowsLoop_quoted_slash, parseBackslash_even, windowsLoop_close]

/-- **A text between quotes** is read run by run. -/
theorem windowsLoop_rewritten {f f' : Nat → Char → Str} {g g' : Nat → Str}
    (hf : ∀ (k : Nat) (d : Char) (token s : Str), d ≠ '\\' →
      windowsLoop markEOLs .quoted token (f k d ++ s) = windowsLoop markEOLs .quoted (token ++ f' k d) s)
    (hg : ∀ (m : Nat) (token s : Str), windowsLoop markEOLs .quoted token (g m ++ '\x22' :: s) =
      windowsLoop markEOLs .unquoted (token ++ g' m) s) (a s : Str) :
    windowsLoop markEOLs .quoted token (rewritten f g a ++ '\x22' :: s) =
      windowsLoop markEOLs .unquoted (token ++ rewritten f' g' a) s := by
  have hne : ∀ p ∈ (runs a).1, p.2 ≠ '\\' := fun _ hp => ne_backslash_of_mem_runs hp
  rw [rewritten, rewritten]
  generalize (runs a).1 = l at hne ⊢
  induction l generalizing token with
  | nil => exact hg _ token s
  | cons p l ih =>
    obtain ⟨hp, hne⟩ := List.forall_mem_cons.mp hne
    rw [List.flatMap_cons, List.append_assoc, List.append_assoc, hf p.1 p.2 token _ hp,
      ← List.append_assoc (l.flatMap _), ih hne, List.flatMap_cons, List.append_assoc (token),
      List.append_assoc (f' p.1 p.2)]

end

/-! ## Quoted arguments -/

open Command (quote isEscaped quote_simpleAndEscape)

/-- What is read of a text whose backslashes and quotes are all escaped: a backslash that is not before a
quote, or before the end behind other backslashes, is two. -/
def windowsRead (a : Str) : Str :=
  rewritten (fun k d => slashes (if d = '\x22' then k else 2 * k) ++ [d]) slashes a

theorem escape_slashes (k : Nat) (s : Str) :
    escape '\\' isEscaped (slashes k ++ s) = slashes (2 * k) ++ escape '\\' isEscaped s := by
  induction k with
  | zero => rfl
  | succ k ih =>
    show escape '\\' isEscaped ('\\' :: (slashes k ++ s)) = _
    rw [escape_cons, ih]
    rfl

theorem escape_runs (a : Str) : escape '\\' isEscaped a =
    rewritten (fun k d => slashes (2 * k) ++ escapeOne '\\' isEscaped d) (fun m => slashes (2 * m)) a := by
  have hjoin : ∀ (l : List (Nat × Char)) (m : Nat),
      escape '\\' isEscaped (l.flatMap (fun p => slashes p.1 ++ [p.2]) ++ slashes m) =
        l.flatMap (fun p => slashes (2 * p.1) ++ escapeOne '\\' isEscaped p.2) ++ slashes (2 * m) := by
    intro l m
    induction l with
    | nil => simpa [escape] using escape_slashes m []
    | cons p l ih =>
      rw [List.flatMap_cons, List.append_assoc, List.append_assoc, escape_slashes, List.singleton_append,
        escape_cons, ih, List.flatMap_cons, List.append_assoc, List.append_assoc]
  conv_lhs => rw [← runs_self a]
  exact hjoin (runs a).1 (runs a).2

theorem slashes_succ (k : Nat) (s : Str) : slashes k ++ '\\' :: s = slashes (k + 1) ++ s := by
  rw [slashes, slashes, List.replicate_succ', List.append_assoc]
  rfl

/-- What is between the quotes of a quoted argument. -/
theorem windowsLoop_escape (markEOLs : Bool) (token a s : Str) :
    windowsLoop markEOLs .quoted token (escape '\\' isEscaped a ++ '\x22' :: s) =
      windowsLoop markEOLs .unquoted (token ++ windowsRead a) s := by
  rw [escape_runs]
  refine windowsLoop_rewritten ?_ (fun m token s => windowsLoop_closing m s) a s
  intro k d token s hd
  by_cases hquote : d = '\x22'
  · subst hquote
    have hone : escapeOne '\\' isEscaped '\x22' = ['\\', '\x22'] := by decide
    rw [hone, List.append_assoc, List.cons_append, slashes_succ, List.singleton_append, windowsLoop_escaped,
      if_pos rfl]
  · have hone : escapeOne '\\' isEscaped d = [d] := by
      simp [escapeOne, isEscaped, hd, hquote]
    rw [hone, List.append_assoc, List.singleton_append, windowsLoop_literal (2 * k) hd hquote, if_neg hquote]

/-- A quoted argument, from between tokens up to its end. -/
theorem windowsLoop_quote (markEOLs : Bool) (a s : Str) :
    windowsLoop markEOLs .init [] (quote a .simpleAndEscape ++ s) =
      windowsLoop markEOLs .unquoted (windowsRead a) s := by
  rw [quote_simpleAndEscape, List.cons_append, List.append_assoc, List.singleton_append, windowsLoop,
    if_neg (by decide), if_pos rfl, windowsLoop_escape, List.nil_append]

theorem windowsLoop_skip {sep : Str} (hsep : ∀ c ∈ sep, isWhitespace c = true) (s : Str) :
    windowsLoop false .init [] (sep ++ s) = windowsLoop false .init [] s := by
  induction sep with
  | nil => rfl
  | cons c sep ih =>
    obtain ⟨hc, hsep⟩ := List.forall_mem_cons.mp hsep
    rw [List.cons_append, windowsLoop, if_pos hc, ih hsep, eol, if_neg (by simp), List.nil_append]

/-- Blanks end a word, also an empty one. -/
theorem windowsLoop_blanks {sep : Str} (hne : sep ≠ []) (hsep : ∀ c ∈ sep, isWhitespace c = true)
    (token s : Str) : windowsLoop false .unquoted token (sep ++ s) =
      save token :: windowsLoop false .init [] s := by
  obtain ⟨c, sep, rfl⟩ := List.exists_cons_of_ne_nil hne
  obtain ⟨hc, hsep⟩ := List.forall_mem_cons.mp hsep
  rw [List.cons_append, windowsLoop, if_pos hc, windowsLoop_skip hsep, eol, if_neg (by simp),
    List.nil_append]

theorem windowsLoop_nil (markEOLs : Bool) (st : State) (token : Str) :
    windowsLoop markEOLs st token [] = finish markEOLs token := by
  rw [windowsLoop]

theorem slashes_eq_nil_iff (k : Nat) : slashes k = [] ↔ k = 0 := by
  rw [slashes, List.replicate_eq_nil_iff]

theorem windowsRead_eq_nil_iff (a : Str) : windowsRead a = [] ↔ a = [] := by
  have hjoin : ∀ f : Nat → Char → Nat, rewritten (fun k d => slashes (f k d) ++ [d]) slashes a = [] ↔
      (runs a).1 = [] ∧ (runs a).2 = 0 := by
    intro f
    rw [rewritten, List.append_eq_nil_iff, slashes_eq_nil_iff, List.flatMap_eq_nil_iff]
    refine and_congr_left fun _ => ⟨fun h => ?_, fun h => by rw [h]; simp⟩
    cases hl : (runs a).1 with
    | nil => rfl
    | cons p l =>
      rw [hl] at h
      exact absurd (h p List.mem_cons_self) (by simp)
  conv_rhs => rw [← runs_self a]
  exact (hjoin fun k d => if d = '\x22' then k else 2 * k).trans (hjoin fun k _ => k).symm

/-- The arguments but for a last one that is empty. -/
def withoutLastEmpty (args : Strings) : Strings :=
  if args.getLast? = some [] then args.dropLast else args

theorem withoutLastEmpty_cons_cons (a b : Str) (args : Strings) :
    withoutLastEmpty (a :: b :: args) = a :: withoutLastEmpty (b :: args) := by
  rw [withoutLastEmpty, withoutLastEmpty, List.getLast?_cons_cons]
  split
  · rfl
  · rfl

/-- **Quoted arguments** are read with some of their backslashes twice, but for a last one that is
empty. -/
theorem tokenizeWindows_quotedLine {sep : Str} (hne : sep ≠ [])
    (hsep : ∀ c ∈ sep, isWhitespace c = true) (args : Strings) :
    tokenizeWindows false (quotedLine sep args) =
      (withoutLastEmpty args).map fun a => save (windowsRead a) := by
  induction args with
  | nil => exact windowsLoop_nil false .init []
  | cons a args ih =>
    cases args with
    | nil =>
      have htext : quotedLine sep [a] = quote a .simpleAndEscape ++ [] := by
        simp [quotedLine, List.intercalate]
      rw [htext, tokenizeWindows, windowsLoop_quote, windowsLoop_nil, finish, if_neg Bool.false_ne_true,
        List.append_nil, withoutLastEmpty]
      by_cases ha : a = []
      · rw [if_pos ((windowsRead_eq_nil_iff a).mpr ha), ha]
        rfl
      · rw [if_neg fun h => ha ((windowsRead_eq_nil_iff a).mp h), if_neg (by simpa using ha)]
        rfl
    | cons b args =>
      rw [quotedLine_cons_cons, tokenizeWindows, windowsLoop_quote, windowsLoop_blanks hne hsep,
        withoutLastEmpty_cons_cons, List.map_cons, ← ih]
      rfl

/-! ## What comes back -/

/-- Each backslash is before a backslash, before a quote, or at the end. -/
def OnlyEscapes (a : Str) : Prop := a.IsChain fun c d => c = '\\' → d = '\\' ∨ d = '\x22'

instance (a : Str) : Decidable (OnlyEscapes a) :=
  inferInstanceAs (Decidable (a.IsChain fun c d => c = '\\' → d = '\\' ∨ d = '\x22'))

theorem onlyEscapes_cons {d : Char} (hd : d ≠ '\\') (s : Str) : OnlyEscapes (d :: s) ↔ OnlyEscapes s := by
  rw [OnlyEscapes, List.isChain_cons]
  exact and_iff_right fun _ _ h => absurd h hd

theorem onlyEscapes_slashes (k : Nat) {d : Char} (hd : d ≠ '\\') (s : Str) :
    OnlyEscapes (slashes k ++ d :: s) ↔ (k = 0 ∨ d = '\x22') ∧ OnlyEscapes s := by
  induction k with
  | zero => simpa [slashes] using onlyEscapes_cons hd s
  | succ k ih =>
    show OnlyEscapes ('\\' :: (slashes k ++ d :: s)) ↔ _
    rw [OnlyEscapes, List.isChain_cons]
    cases k with
    | zero =>
      have hhead : (∀ y ∈ (slashes 0 ++ d :: s).head?, '\\' = '\\' → y = '\\' ∨ y = '\x22') ↔
          d = '\x22' := by
        simp [slashes, hd]
      rw [hhead]
      exact and_congr (by simp) (onlyEscapes_cons hd s)
    | succ k =>
      have hhead : ∀ y ∈ (slashes (k + 1) ++ d :: s).head?, '\\' = '\\' → y = '\\' ∨ y = '\x22' := by
        intro y hy _
        simp only [slashes, List.replicate_succ, List.cons_append, List.head?_cons,
          Option.mem_some_iff] at hy
        exact .inl hy.symm
      rw [and_iff_right hhead]
      refine ih.trans (and_congr_left fun _ => or_congr_left ?_)
      omega

theorem onlyEscapes_slashes_end (k : Nat) : OnlyEscapes (slashes k) := by
  rw [OnlyEscapes, slashes]
  exact List.isChain_replicate_of_rel k fun _ => .inl rfl

/-- **The same text is read** exactly if each backslash is before a backslash, a quote or the end. -/
theorem windowsRead_eq_iff (a : Str) : windowsRead a = a ↔ OnlyEscapes a := by
  have hne : ∀ p ∈ (runs a).1, p.2 ≠ '\\' := fun _ hp => ne_backslash_of_mem_runs hp
  have hself := runs_self a
  rw [rewritten] at hself
  rw [windowsRead, rewritten]
  conv_lhs => rhs; rw [← hself]
  conv_rhs => rw [← hself]
  generalize (runs a).1 = l at hne
  induction l with
  | nil => simpa using onlyEscapes_slashes_end (runs a).2
  | cons p l ih =>
    obtain ⟨hp, hne⟩ := List.forall_mem_cons.mp hne
    simp only [List.flatMap_cons, List.append_assoc, List.cons_append, List.nil_append]
    rw [onlyEscapes_slashes p.1 hp, ← ih hne]
    by_cases hquote : p.2 = '\x22'
    · rw [if_pos hquote, List.append_cancel_left_eq, List.cons_inj_right]
      exact (and_iff_right (.inr hquote)).symm
    · rw [if_neg hquote]
      constructor
      · intro h
        -- the runs that the two begin with are as long as one another
        have hrun := congrArg (List.takeWhile (· = '\\')) h
        rw [(takeWhile_slashes (2 * p.1) (by simpa using hp)).1,
          (takeWhile_slashes p.1 (by simpa using hp)).1] at hrun
        have hlen := congrArg List.length hrun
        rw [length_slashes, length_slashes] at hlen
        have hk : p.1 = 0 := by omega
        rw [hrun, List.append_cancel_left_eq, List.cons_inj_right] at h
        exact ⟨.inl hk, h⟩
      · rintro ⟨hk | hk, h⟩
        · rw [hk, h]
        · exact absurd hk hquote

theorem mem_windowsRead {a : Str} {c : Char} (h : c ∈ windowsRead a) : c ∈ a := by
  have hself := runs_self a
  rw [rewritten] at hself
  rw [windowsRead, rewritten, List.mem_append, List.mem_flatMap] at h
  rw [← hself, List.mem_append, List.mem_flatMap]
  refine h.imp_left fun ⟨p, hp, hc⟩ => ⟨p, hp, ?_⟩
  rw [List.mem_append] at hc ⊢
  refine hc.imp_left fun hc => ?_
  simp only [slashes, List.mem_replicate] at hc ⊢
  refine ⟨fun hk => hc.1 ?_, hc.2⟩
  rw [hk]
  split <;> rfl

theorem null_notMem_of_save {t a : Str} (h : some a = save t) : '\x00' ∉ a := by
  intro hmem
  rw [Option.some.inj h] at hmem
  simpa using List.mem_takeWhile_imp hmem

theorem save_windowsRead_iff (a : Str) : save (windowsRead a) = some a ↔ '\x00' ∉ a ∧ OnlyEscapes a := by
  rw [← windowsRead_eq_iff]
  constructor
  · intro h
    have hnull : '\x00' ∉ a := null_notMem_of_save h.symm
    rw [(save_eq_iff _).mpr fun hmem => hnull (mem_windowsRead hmem)] at h
    exact ⟨hnull, Option.some.inj h⟩
  · rintro ⟨hnull, h⟩
    rw [h]
    exact (save_eq_iff a).mpr hnull

/-- **The arguments come back as they were** exactly if the last one is not empty, and in each of them
every backslash is before a backslash, a quote or the end, and there is no null character. -/
theorem tokenizeWindows_quoted {sep : Str} (hne : sep ≠ []) (hsep : ∀ c ∈ sep, isWhitespace c = true)
    (args : Strings) : tokenizeWindows false (quotedLine sep args) = args.map some ↔
      args.getLast? ≠ some [] ∧ ∀ a ∈ args, '\x00' ∉ a ∧ OnlyEscapes a := by
  rw [tokenizeWindows_quotedLine hne hsep]
  constructor
  · intro h
    have hlast : args.getLast? ≠ some [] := by
      intro hlast
      have hlen := congrArg List.length h
      rw [withoutLastEmpty, if_pos hlast, List.length_map, List.length_map, List.length_dropLast] at hlen
      have hnil : args = [] := List.length_eq_zero_iff.mp (by omega)
      rw [hnil] at hlast
      cases hlast
    rw [withoutLastEmpty, if_neg hlast, List.map_inj_left] at h
    exact ⟨hlast, fun a ha => (save_windowsRead_iff a).mp (h a ha)⟩
  · rintro ⟨hlast, h⟩
    rw [withoutLastEmpty, if_neg hlast, List.map_inj_left]
    exact fun a ha => (save_windowsRead_iff a).mpr (h a ha)

theorem tokenizeWindows_quoted_two :
    tokenizeWindows false (quotedLine [' '] [['\\', '\x22'], ['a', '\\']]) =
      [some ['\\', '\x22'], some ['a', '\\']] :=
  (tokenizeWindows_quoted (by decide) isWhitespace_of_mem_blank [['\\', '\x22'], ['a', '\\']]).mpr (by decide)

/-! ## What can be written -/

/-- A text between quotes for `TokenizeWindowsCommandLine`. -/
def windowsEscape (a : Str) : Str :=
  rewritten (fun k d => if d = '\x22' then slashes (2 * k + 1) ++ [d] else slashes k ++ [d])
    (fun m => slashes (2 * m)) a

/-- Each argument in quotes, and a blank behind it. -/
def windowsLine (args : Strings) : Str :=
  args.flatMap fun a => '\x22' :: (windowsEscape a ++ ['\x22', ' '])

theorem windowsLoop_windowsEscape (markEOLs : Bool) (token a s : Str) :
    windowsLoop markEOLs .quoted token (windowsEscape a ++ '\x22' :: s) =
      windowsLoop markEOLs .unquoted (token ++ a) s := by
  conv_rhs => rw [← runs_self a]
  refine windowsLoop_rewritten ?_ (fun m token s => windowsLoop_closing m s) a s
  intro k d token s hd
  by_cases hquote : d = '\x22'
  · rw [if_pos hquote, hquote, List.append_assoc, List.singleton_append, windowsLoop_escaped]
  · rw [if_neg hquote, List.append_assoc, List.singleton_append, windowsLoop_literal k hd hquote]

theorem tokenizeWindows_windowsLine (args : Strings) :
    tokenizeWindows false (windowsLine args) = args.map save := by
  induction args with
  | nil => exact windowsLoop_nil false .init []
  | cons a args ih =>
    have htext : windowsLine (a :: args) =
        '\x22' :: (windowsEscape a ++ '\x22' :: ([' '] ++ windowsLine args)) := by
      simp [windowsLine]
    rw [htext, tokenizeWindows, windowsLoop, if_neg (by decide), if_pos rfl, windowsLoop_windowsEscape,
      windowsLoop_blanks (by decide) isWhitespace_of_mem_blank, List.nil_append, List.map_cons, ← ih]
    rfl

theorem null_notMem_rewritten {f : Nat → Char → Str} {g : Nat → Str} {a : Str} (ha : '\x00' ∉ a)
    (hf : ∀ k d, '\x00' ∈ f k d → d = '\x00') (hg : ∀ m, '\x00' ∉ g m) : '\x00' ∉ rewritten f g a := by
  have hself := runs_self a
  rw [rewritten] at hself ⊢
  intro h
  rcases List.mem_append.mp h with h | h
  · obtain ⟨p, hp, hc⟩ := List.mem_flatMap.mp h
    refine ha ?_
    rw [← hself, List.mem_append, List.mem_flatMap]
    refine .inl ⟨p, hp, ?_⟩
    rw [hf p.1 p.2 hc]
    exact List.mem_append_right _ (List.mem_singleton_self _)
  · exact hg _ h

theorem null_notMem_slashes (k : Nat) : '\x00' ∉ slashes k := by
  intro h
  exact absurd (List.eq_of_mem_replicate h) (by decide)

theorem null_notMem_windowsLine {args : Strings} (h : ∀ a ∈ args, '\x00' ∉ a) :
    '\x00' ∉ windowsLine args := by
  intro hmem
  obtain ⟨a, ha, hc⟩ := List.mem_flatMap.mp hmem
  have hescape : '\x00' ∉ windowsEscape a := by
    refine null_notMem_rewritten (h a ha) ?_ fun m => null_notMem_slashes (2 * m)
    intro k d hd
    split at hd
    · exact ((List.mem_append.mp hd).resolve_left (null_notMem_slashes _) |> List.mem_singleton.mp).symm
    · exact ((List.mem_append.mp hd).resolve_left (null_notMem_slashes _) |> List.mem_singleton.mp).symm
  simp [hescape] at hc

theorem null_notMem_quote {a : Str} (h : '\x00' ∉ a) : '\x00' ∉ quote a .simpleAndEscape := by
  rw [quote_simpleAndEscape, escape]
  have hescape : '\x00' ∉ a.flatMap (escapeOne '\\' isEscaped) := by
    intro hmem
    obtain ⟨c, hc, hmem⟩ := List.mem_flatMap.mp hmem
    have hne : '\x00' ≠ c := fun hnull => h (hnull ▸ hc)
    rw [escapeOne] at hmem
    split at hmem <;> simp [hne] at hmem
  simp [hescape]

theorem null_notMem_quotedLine {args : Strings} (h : ∀ a ∈ args, '\x00' ∉ a) :
    '\x00' ∉ quotedLine [' '] args := by
  induction args with
  | nil => exact List.not_mem_nil
  | cons a args ih =>
    obtain ⟨ha, h⟩ := List.forall_mem_cons.mp h
    cases args with
    | nil => simpa [quotedLine, List.intercalate] using null_notMem_quote ha
    | cons b args =>
      rw [quotedLine_cons_cons]
      simp [null_notMem_quote ha, ih h]

/-- A null pointer, or an argument that is not empty. -/
def NullOrWord (x : Arg) : Prop := x = none ∨ ∃ a, a ≠ [] ∧ '\x00' ∉ a ∧ x = some a

theorem nullOrWord_save {token : Str} (hne : token ≠ []) (hnull : '\x00' ∉ token) :
    NullOrWord (save token) := .inr ⟨token, hne, hnull, (save_eq_iff token).mpr hnull⟩

theorem nullOrWord_finish {markEOLs : Bool} {token : Str} (hnull : '\x00' ∉ token) {x : Arg}
    (hx : x ∈ finish markEOLs token) : NullOrWord x := by
  rw [finish] at hx
  rcases List.mem_append.mp hx with hx | hx
  · split at hx
    · cases hx
    · rw [List.mem_singleton.mp hx]
      exact nullOrWord_save ‹_› hnull
  · split at hx
    · exact .inl (List.mem_singleton.mp hx)
    · cases hx

theorem nullOrWord_endedArg {markEOLs : Bool} {token : Str} {c : Char} (hnull : '\x00' ∉ token) {x : Arg}
    (hx : x ∈ endedArg markEOLs (token, c)) : NullOrWord x := by
  rw [endedArg] at hx
  split at hx
  · rw [eol] at hx
    split at hx
    · exact .inl (List.mem_singleton.mp hx)
    · cases hx
  · rw [List.mem_singleton.mp hx]
    exact nullOrWord_save ‹_› hnull

/-- **No argument of GNU is empty.** -/
theorem nullOrWord_gnuLoop {markEOLs : Bool} {q : Option Char} {token s : Str} (htoken : '\x00' ∉ token)
    (hs : '\x00' ∉ s) {x : Arg} (hx : x ∈ gnuLoop markEOLs q token s) : NullOrWord x := by
  have happend : ∀ {token : Str} {c : Char}, '\x00' ∉ token → '\x00' ≠ c → '\x00' ∉ token ++ [c] := by
    intro token c htoken hc
    simp [htoken, hc]
  induction q, token, s using gnuLoop.induct with
  | case1 q token =>
    rw [gnuLoop_nil] at hx
    exact nullOrWord_finish htoken hx
  | case2 token c s ih =>
    rw [gnuLoop_close] at hx
    exact ih htoken (List.not_mem_of_not_mem_cons hs) hx
  | case3 q token hq =>
    rw [gnuLoop_quoted_last (Ne.symm hq)] at hx
    exact nullOrWord_finish (happend htoken (by decide)) hx
  | case4 q token d s hq ih =>
    simp only [List.mem_cons, not_or] at hs
    rw [gnuLoop_quoted_escaped (Ne.symm hq)] at hx
    exact ih (happend htoken hs.2.1) hs.2.2 hx
  | case5 q token c s hcq hc ih =>
    simp only [List.mem_cons, not_or] at hs
    rw [gnuLoop_quoted_plain hcq hc] at hx
    exact ih (happend htoken hs.1) hs.2 hx
  | case6 token c s h ih =>
    rw [gnuLoop_blank h.2] at hx
    rcases List.mem_append.mp hx with hx | hx
    · exact nullOrWord_endedArg htoken hx
    · exact ih List.not_mem_nil (List.not_mem_of_not_mem_cons hs) hx
  | case7 token h =>
    rw [gnuLoop_last] at hx
    exact nullOrWord_finish (happend htoken (by decide)) hx
  | case8 token d s h ih =>
    simp only [List.mem_cons, not_or] at hs
    rw [gnuLoop_backslash] at hx
    exact ih (happend htoken hs.2.1) hs.2.2 hx
  | case9 token c s h hc hquote ih =>
    rw [gnuLoop_quote hquote] at hx
    exact ih htoken (List.not_mem_of_not_mem_cons hs) hx
  | case10 token c s h hc hquote hspace ih =>
    rw [gnuLoop_blank hspace] at hx
    rcases List.mem_append.mp hx with hx | hx
    · exact nullOrWord_endedArg htoken hx
    · exact ih List.not_mem_nil (List.not_mem_of_not_mem_cons hs) hx
  | case11 token c s h hc hquote hspace ih =>
    simp only [List.mem_cons, not_or] at hs
    have hplain : isPlain c = true :=
      isPlain_iff.mpr ⟨Bool.eq_false_iff.mpr hspace, Bool.eq_false_iff.mpr hquote, hc⟩
    rw [gnuLoop_plain hplain] at hx
    exact ih (happend htoken hs.1) hs.2 hx

theorem eq_save_of_mem_windowsLoop {markEOLs : Bool} {st : State} {token s : Str} {x : Arg}
    (hx : x ∈ windowsLoop markEOLs st token s) : x = none ∨ ∃ t, x = save t := by
  have heol : ∀ c, x ∈ eol markEOLs c → x = none := by
    intro c hx
    rw [eol] at hx
    split at hx
    · exact List.mem_singleton.mp hx
    · cases hx
  fun_induction windowsLoop markEOLs st token s with
  | case1 st token =>
    rw [finish] at hx
    rcases List.mem_append.mp hx with hx | hx
    · split at hx
      · cases hx
      · exact .inr ⟨token, List.mem_singleton.mp hx⟩
    · split at hx
      · exact .inl (List.mem_singleton.mp hx)
      · cases hx
  | case2 token c s hc ih =>
    rcases List.mem_append.mp hx with hx | hx
    · exact .inl (heol c hx)
    · exact ih hx
  | case6 token c s hc ih =>
    rcases List.mem_cons.mp hx with hx | hx
    · exact .inr ⟨token, hx⟩
    · rcases List.mem_append.mp hx with hx | hx
      · exact .inl (heol c hx)
      · exact ih hx
  | case3 | case4 | case5 | case7 | case8 | case9 | case10 | case11 | case12 =>
    rename_i ih
    exact ih hx

/-- **What can be written in a file of arguments**, without null characters: on Windows every list of
arguments, otherwise those without an empty argument. -/
theorem writable_iff (args : Strings) :
    ((∃ src, '\x00' ∉ src ∧ tokenizeGNU false src = args.map some) ↔
        ∀ a ∈ args, a ≠ [] ∧ '\x00' ∉ a) ∧
      ((∃ src, '\x00' ∉ src ∧ tokenizeWindows false src = args.map some) ↔
        ∀ a ∈ args, '\x00' ∉ a) := by
  refine ⟨⟨?_, ?_⟩, ⟨?_, ?_⟩⟩
  · rintro ⟨src, hsrc, h⟩ a ha
    have hmem : some a ∈ tokenizeGNU false src := h ▸ List.mem_map_of_mem ha
    rcases nullOrWord_gnuLoop List.not_mem_nil hsrc hmem with hnone | ⟨b, hne, hnull, hb⟩
    · cases hnone
    · cases hb
      exact ⟨hne, hnull⟩
  · intro h
    refine ⟨quotedLine [' '] args, null_notMem_quotedLine fun a ha => (h a ha).2, ?_⟩
    rw [tokenizeGNU_quotedLine (by decide) isWhitespace_of_mem_blank, List.filter_eq_self.mpr, List.map_inj_left]
    · exact fun a ha => (save_eq_iff a).mpr (h a ha).2
    · exact fun a ha => by simpa using (h a ha).1
  · rintro ⟨src, hsrc, h⟩ a ha
    have hmem : some a ∈ tokenizeWindows false src := h ▸ List.mem_map_of_mem ha
    rcases eq_save_of_mem_windowsLoop hmem with hnone | ⟨t, ht⟩
    · cases hnone
    · exact null_notMem_of_save ht
  · intro h
    refine ⟨windowsLine args, null_notMem_windowsLine h, ?_⟩
    rw [tokenizeWindows_windowsLine, List.map_inj_left]
    exact fun a ha => (save_eq_iff a).mpr (h a ha)

end Primitives.CommandLine
