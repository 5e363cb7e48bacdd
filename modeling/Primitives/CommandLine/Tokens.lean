import Mathlib.Data.List.Basic
import Primitives.Command.Quote
import Primitives.Lib.Grammar

/-!
# The words of a command line

`TokenizeGNUCommandLine` splits a text into the arguments of a program. A text is a list of blanks,
characters, escapes and quoted strings, and what may be left open at its end; every text is one such list
and no other (`text_bijective`). Its arguments are the words between the blanks, without their quotes and
escapes (`tokenizeGNU_words`). A word that is empty then is no argument: `""` is lost.

Quoted by `QuoteType::SimpleAndEscape`, arguments come back as they were (`tokenizeGNU_quoted`).
-/

set_option autoImplicit false

namespace Primitives.CommandLine

open Lib

/-! ## The code -/

def isWhitespace (c : Char) : Bool := c = ' ' || c = '\t' || c = '\r' || c = '\n'

def isQuote (c : Char) : Bool := c = '\x22' || c = '\''

/-- An element of `NewArgv`: a null pointer, or a string that a pointer is read as. -/
abbrev Arg := Option Str

/-- `Saver.save` copies the token and puts a null character behind it. The pointer to it is read up to the
first null character. -/
def save (token : Str) : Arg := some (token.takeWhile (· ≠ '\x00'))

/-- What the end of the source adds: the last token, and the mark of the end. -/
def finish (markEOLs : Bool) (token : Str) : List Arg :=
  (if token = [] then [] else [save token]) ++ if markEOLs then [none] else []

/-- What a blank adds between tokens: the mark of an end of line. -/
def eol (markEOLs : Bool) (c : Char) : List Arg := if markEOLs ∧ c = '\n' then [none] else []

/-- The loop of `TokenizeGNUCommandLine` with what is left of the source. With a quote, it is the inner
loop that consumes a quoted string. The inner loop that consumes whitespace is one more round each time,
because the token stays empty. -/
def gnuLoop (markEOLs : Bool) : Option Char → Str → Str → List Arg
  | _, token, [] => finish markEOLs token
  | some q, token, c :: s =>
    if c = q then gnuLoop markEOLs none token s
    else if c = '\\' then
      -- a backslash escapes the next character, if there is one
      match s with
      | [] => finish markEOLs (token ++ [c])
      | d :: s => gnuLoop markEOLs (some q) (token ++ [d]) s
    else gnuLoop markEOLs (some q) (token ++ [c]) s
  | none, token, c :: s =>
    if token = [] ∧ isWhitespace c then eol markEOLs c ++ gnuLoop markEOLs none [] s
    else if c = '\\' then
      match s with
      | [] => finish markEOLs (token ++ [c])
      | d :: s => gnuLoop markEOLs none (token ++ [d]) s
    else if isQuote c then gnuLoop markEOLs (some c) token s
    else if isWhitespace c then save token :: gnuLoop markEOLs none [] s
    else gnuLoop markEOLs none (token ++ [c]) s

-- A backslash at the very end is kept.
example : gnuLoop false none [] "a\\".toList = [save "a\\".toList] := by rw [gnuLoop.eq_def]; rfl

/-- `TokenizeGNUCommandLine`: what it adds to `NewArgv`. -/
def tokenizeGNU (markEOLs : Bool) (src : Str) : List Arg := gnuLoop markEOLs none [] src

/-! ## Texts -/

/-- A character that stands for itself between blanks. -/
def isPlain (c : Char) : Bool := !isWhitespace c && !isQuote c && c ≠ '\\'

/-- A character between quotes, or an escape there. -/
inductive Inner (q : Char) where
  | plain (c : { c : Char // c ≠ q ∧ c ≠ '\\' })
  | escaped (c : Char)

inductive Item where
  | blank (c : { c : Char // isWhitespace c = true })
  | plain (c : { c : Char // isPlain c = true })
  | escaped (c : Char)
  | quoted (q : { q : Char // isQuote q = true }) (inner : List (Inner q))

/-- How a text ends behind its items. -/
inductive Ending where
  | closed
  | backslash
  /-- A quote that is not closed, maybe with a backslash that escapes nothing. -/
  | opened (q : { q : Char // isQuote q = true }) (inner : List (Inner q)) (backslash : Bool)

structure Reading where
  items : List Item
  ending : Ending

namespace Inner

variable {q : Char}

def text : Inner q → Str
  | plain c => [c.1]
  | escaped c => ['\\', c]

def char : Inner q → Char
  | plain c => c.1
  | escaped c => c

end Inner

namespace Item

def text : Item → Str
  | blank c => [c.1]
  | plain c => [c.1]
  | escaped c => ['\\', c]
  | quoted q inner => q.1 :: (inner.flatMap Inner.text ++ [q.1])

/-- What an item adds to the word that it is in. -/
def value : Item → Str
  | blank _ => []
  | plain c => [c.1]
  | escaped c => [c]
  | quoted _ inner => inner.map Inner.char

end Item

def lone (backslash : Bool) : Str := if backslash then ['\\'] else []

namespace Ending

def text : Ending → Str
  | closed => []
  | backslash => ['\\']
  | opened q inner b => q.1 :: (inner.flatMap Inner.text ++ lone b)

def value : Ending → Str
  | closed => []
  | backslash => ['\\']
  | opened _ inner b => inner.map Inner.char ++ lone b

end Ending

/-- The words that are ended by a blank, each with the blank, and the word behind them. -/
def wordsOf (token : Str) : List Item → List (Str × Char) × Str
  | [] => ([], token)
  | .blank c :: is => ((token, c.1) :: (wordsOf [] is).1, (wordsOf [] is).2)
  | i :: is => wordsOf (token ++ i.value) is

/-- What a word and the blank that ends it are as arguments. -/
def endedArg (markEOLs : Bool) (w : Str × Char) : List Arg :=
  if w.1 = [] then eol markEOLs w.2 else [save w.1]

namespace Reading

def text (r : Reading) : Str := r.items.flatMap Item.text ++ r.ending.text

/-- The arguments that a text is read as: the words that are not empty. A mark is put for an end of line
that ends none, and for the end. -/
def arguments (markEOLs : Bool) (r : Reading) : List Arg :=
  (wordsOf [] r.items).1.flatMap (endedArg markEOLs) ++
    finish markEOLs ((wordsOf [] r.items).2 ++ r.ending.value)

end Reading

/-! ## Every text is read in one way -/

theorem isPlain_iff {c : Char} :
    isPlain c = true ↔ isWhitespace c = false ∧ isQuote c = false ∧ c ≠ '\\' := by
  simp [isPlain, and_assoc]

/-- A blank is no quote, and no backslash. -/
theorem not_isQuote_of_isWhitespace {c : Char} (h : isWhitespace c = true) :
    isQuote c = false ∧ c ≠ '\\' := by
  simp only [isWhitespace, Bool.or_eq_true, decide_eq_true_eq] at h
  rcases h with ((rfl | rfl) | rfl) | rfl <;> decide

theorem ne_backslash_of_isQuote {c : Char} (h : isQuote c = true) : c ≠ '\\' := by
  rintro rfl
  revert h
  decide

namespace Inner

variable {q : Char}

theorem text_ne_nil (i : Inner q) : i.text ≠ [] := by
  cases i <;> exact List.cons_ne_nil _ _

theorem selfDelimiting (q : Char) : SelfDelimiting (text (q := q)) := by
  intro i j s s' h
  cases i with
  | plain c =>
    cases j with
    | plain d =>
      obtain ⟨hcd, hs⟩ := List.cons.inj h
      exact ⟨congrArg plain (Subtype.ext hcd), hs⟩
    | escaped d => exact absurd (List.cons.inj h).1 c.2.2
  | escaped c =>
    cases j with
    | plain d => exact absurd (List.cons.inj h).1.symm d.2.2
    | escaped d =>
      obtain ⟨hcd, hs⟩ := List.cons.inj (List.cons.inj h).2
      exact ⟨congrArg escaped hcd, hs⟩

/-- Between quotes, everything can be read but the quote, and a backslash at the end. -/
theorem noItem_iff (hq : q ≠ '\\') (s : Str) :
    NoItem (text (q := q)) s ↔ s = [] ∨ s = ['\\'] ∨ ∃ s', s = q :: s' := by
  constructor
  · intro h
    cases s with
    | nil => exact .inl rfl
    | cons c s =>
      by_cases hcq : c = q
      · exact .inr (.inr ⟨s, by rw [hcq]⟩)
      · by_cases hc : c = '\\'
        · cases s with
          | nil => exact .inr (.inl (by rw [hc]))
          | cons d s => exact absurd (by rw [hc]; rfl) (h (.escaped d) s)
        · exact absurd rfl (h (.plain ⟨c, hcq, hc⟩) s)
  · rintro h i s' heq
    cases i with
    | plain c =>
      rcases h with rfl | rfl | ⟨s, rfl⟩
      · cases heq
      · exact c.2.2 (List.cons.inj heq).1.symm
      · exact c.2.1 (List.cons.inj heq).1.symm
    | escaped c =>
      rcases h with rfl | rfl | ⟨s, rfl⟩
      · cases heq
      · cases (List.cons.inj heq).2
      · exact hq (List.cons.inj heq).1

theorem noItem_lone (hq : q ≠ '\\') (b : Bool) : NoItem (text (q := q)) (lone b) := by
  rw [noItem_iff hq]
  cases b with
  | false => exact .inl rfl
  | true => exact .inr (.inl rfl)

end Inner

/-- What a text can go on with between blanks, by its first character. -/
inductive Kind where
  | blank
  | plain
  | escaped
  | quoted
deriving DecidableEq

def kind (c : Char) : Kind :=
  if isWhitespace c then .blank else if isQuote c then .quoted else if c = '\\' then .escaped else .plain

theorem kind_of_isWhitespace {c : Char} (h : isWhitespace c = true) : kind c = .blank := by
  rw [kind, if_pos h]

theorem kind_of_isPlain {c : Char} (h : isPlain c = true) : kind c = .plain := by
  obtain ⟨hspace, hquote, hslash⟩ := isPlain_iff.mp h
  simp [kind, hspace, hquote, hslash]

theorem kind_of_isQuote {c : Char} (h : isQuote c = true) : kind c = .quoted := by
  have hspace : ¬ isWhitespace c = true := by
    intro hspace
    rw [(not_isQuote_of_isWhitespace hspace).1] at h
    cases h
  rw [kind, if_neg hspace, if_pos h]

theorem kind_backslash : kind '\\' = .escaped := by decide

namespace Item

def kind : Item → Kind
  | blank _ => .blank
  | plain _ => .plain
  | escaped _ => .escaped
  | quoted _ _ => .quoted

/-- The first character says which item it is. -/
theorem kind_of_text {i : Item} {c : Char} {s s' : Str} (h : i.text ++ s = c :: s') :
    CommandLine.kind c = i.kind := by
  cases i with
  | blank d => rw [← (List.cons.inj h).1, kind_of_isWhitespace d.2, kind]
  | plain d => rw [← (List.cons.inj h).1, kind_of_isPlain d.2, kind]
  | escaped d => rw [← (List.cons.inj h).1, kind_backslash, kind]
  | quoted q inner => rw [← (List.cons.inj h).1, kind_of_isQuote q.2, kind]

theorem text_ne_nil (i : Item) : i.text ≠ [] := by
  cases i <;> exact List.cons_ne_nil _ _

theorem selfDelimiting : SelfDelimiting text := by
  intro i j s s' h
  have hkind : i.kind = j.kind := by
    obtain ⟨c, t, hc⟩ := List.exists_cons_of_ne_nil (List.append_ne_nil_of_left_ne_nil i.text_ne_nil s)
    rw [← kind_of_text hc, ← kind_of_text (h.symm.trans hc)]
  cases i with
  | blank c =>
    cases j with
    | blank d =>
      obtain ⟨hcd, hs⟩ := List.cons.inj h
      exact ⟨congrArg blank (Subtype.ext hcd), hs⟩
    | plain d | escaped d | quoted q inner => cases hkind
  | plain c =>
    cases j with
    | plain d =>
      obtain ⟨hcd, hs⟩ := List.cons.inj h
      exact ⟨congrArg plain (Subtype.ext hcd), hs⟩
    | blank d | escaped d | quoted q inner => cases hkind
  | escaped c =>
    cases j with
    | escaped d =>
      obtain ⟨hcd, hs⟩ := List.cons.inj (List.cons.inj h).2
      exact ⟨congrArg escaped hcd, hs⟩
    | blank d | plain d | quoted q inner => cases hkind
  | quoted q inner =>
    cases j with
    | quoted q' inner' =>
      rw [text, text, List.cons_append, List.cons_append, List.cons.injEq, List.append_assoc,
        List.append_assoc] at h
      obtain ⟨hqq, h⟩ := h
      obtain rfl : q = q' := Subtype.ext hqq
      have hq : q.1 ≠ '\\' := ne_backslash_of_isQuote q.2
      have hclose : ∀ t : Str, NoItem (Inner.text (q := q.1)) (q.1 :: t) := fun t =>
        (Inner.noItem_iff hq _).mpr (.inr (.inr ⟨t, rfl⟩))
      obtain ⟨rfl, hs⟩ := (Inner.selfDelimiting q.1).unique (hclose s) (hclose s') h
      exact ⟨rfl, (List.cons.inj hs).2⟩
    | blank d | plain d | escaped d => cases hkind

/-- **Behind the items** is an ending. -/
theorem noItem_iff (s : Str) : NoItem text s ↔ ∃ e : Ending, s = e.text := by
  constructor
  · intro h
    cases s with
    | nil => exact ⟨.closed, rfl⟩
    | cons c s =>
      by_cases hspace : isWhitespace c = true
      · exact absurd rfl (h (.blank ⟨c, hspace⟩) s)
      by_cases hquote : isQuote c = true
      · have hq : c ≠ '\\' := ne_backslash_of_isQuote hquote
        obtain ⟨inner, rest, rfl, hrest⟩ := exists_flatMap (Inner.text_ne_nil (q := c)) s
        rcases (Inner.noItem_iff hq rest).mp hrest with rfl | rfl | ⟨s', rfl⟩
        · exact ⟨.opened ⟨c, hquote⟩ inner false, rfl⟩
        · exact ⟨.opened ⟨c, hquote⟩ inner true, rfl⟩
        · refine absurd ?_ (h (.quoted ⟨c, hquote⟩ inner) s')
          rw [text, List.cons_append, List.append_assoc]
          rfl
      by_cases hslash : c = '\\'
      · cases s with
        | nil => exact ⟨.backslash, by rw [hslash]; rfl⟩
        | cons d s => exact absurd (by rw [hslash]; rfl) (h (.escaped d) s)
      · have hplain : isPlain c = true := isPlain_iff.mpr
          ⟨Bool.eq_false_iff.mpr hspace, Bool.eq_false_iff.mpr hquote, hslash⟩
        exact absurd rfl (h (.plain ⟨c, hplain⟩) s)
  · rintro ⟨e, rfl⟩ i s heq
    cases e with
    | closed => exact List.append_ne_nil_of_left_ne_nil i.text_ne_nil s heq.symm
    | backslash =>
      have hkind : CommandLine.kind '\\' = i.kind := kind_of_text heq.symm
      rw [kind_backslash] at hkind
      cases i with
      | escaped c => cases (List.cons.inj heq).2
      | blank c | plain c | quoted q inner => cases hkind
    | opened q inner b =>
      have hkind : CommandLine.kind q.1 = i.kind := kind_of_text heq.symm
      rw [kind_of_isQuote q.2] at hkind
      cases i with
      | quoted q' inner' =>
        rw [Ending.text, text, List.cons_append, List.cons.injEq, List.append_assoc] at heq
        obtain ⟨hqq, heq⟩ := heq
        obtain rfl : q = q' := Subtype.ext hqq
        have hq : q.1 ≠ '\\' := ne_backslash_of_isQuote q.2
        obtain ⟨-, hrest⟩ := (Inner.selfDelimiting q.1).unique (Inner.noItem_lone hq b)
          ((Inner.noItem_iff hq _).mpr (.inr (.inr ⟨s, rfl⟩))) heq
        cases b with
        | false => cases hrest
        | true => exact hq (List.cons.inj hrest).1.symm
      | blank c | plain c | escaped c => cases hkind

end Item

theorem Ending.text_injective : Function.Injective Ending.text := by
  intro e e' h
  cases e with
  | closed =>
    cases e' with
    | closed => rfl
    | backslash | opened q inner b => cases h
  | backslash =>
    cases e' with
    | backslash => rfl
    | closed => cases h
    | opened q inner b => exact absurd (List.cons.inj h).1.symm (ne_backslash_of_isQuote q.2)
  | opened q inner b =>
    cases e' with
    | closed => cases h
    | backslash => exact absurd (List.cons.inj h).1 (ne_backslash_of_isQuote q.2)
    | opened q' inner' b' =>
      obtain ⟨hqq, h⟩ := List.cons.inj h
      obtain rfl : q = q' := Subtype.ext hqq
      have hq : q.1 ≠ '\\' := ne_backslash_of_isQuote q.2
      obtain ⟨rfl, hb⟩ := (Inner.selfDelimiting q.1).unique (Inner.noItem_lone hq b)
        (Inner.noItem_lone hq b') h
      obtain rfl : b = b' := by
        cases b <;> cases b' <;> first | rfl | cases hb
      rfl

/-- **Every text is one reading**, and of one reading only. -/
theorem text_bijective : Function.Bijective Reading.text := by
  constructor
  · rintro ⟨items, e⟩ ⟨items', e'⟩ h
    obtain ⟨rfl, he⟩ := Item.selfDelimiting.unique ((Item.noItem_iff _).mpr ⟨e, rfl⟩)
      ((Item.noItem_iff _).mpr ⟨e', rfl⟩) h
    rw [Ending.text_injective he]
  · intro s
    obtain ⟨items, rest, rfl, hrest⟩ := exists_flatMap Item.text_ne_nil s
    obtain ⟨e, rfl⟩ := (Item.noItem_iff rest).mp hrest
    exact ⟨⟨items, e⟩, rfl⟩

/-! ## The loop reads it -/

section

variable {markEOLs : Bool} {token : Str}

theorem gnuLoop_nil (quote : Option Char) : gnuLoop markEOLs quote token [] = finish markEOLs token := by
  cases quote <;> rfl

theorem gnuLoop_quoted_plain {q c : Char} (hcq : c ≠ q) (hc : c ≠ '\\') (s : Str) :
    gnuLoop markEOLs (some q) token (c :: s) = gnuLoop markEOLs (some q) (token ++ [c]) s := by
  rw [gnuLoop.eq_def]
  simp only [if_neg hcq, if_neg hc]

theorem gnuLoop_quoted_escaped {q : Char} (hq : q ≠ '\\') (c : Char) (s : Str) :
    gnuLoop markEOLs (some q) token ('\\' :: c :: s) = gnuLoop markEOLs (some q) (token ++ [c]) s := by
  rw [gnuLoop.eq_def]
  simp only [if_neg (Ne.symm hq), if_true]

/-- A backslash at the end escapes nothing. -/
theorem gnuLoop_quoted_last {q : Char} (hq : q ≠ '\\') :
    gnuLoop markEOLs (some q) token ['\\'] = finish markEOLs (token ++ ['\\']) := by
  rw [gnuLoop.eq_def]
  simp only [if_neg (Ne.symm hq), if_true]

/-- A quoted string is read up to its end. -/
theorem gnuLoop_close (q : Char) (s : Str) :
    gnuLoop markEOLs (some q) token (q :: s) = gnuLoop markEOLs none token s := by
  rw [gnuLoop.eq_def]
  simp only [if_true]

theorem not_blank_backslash : ¬ (token = [] ∧ isWhitespace '\\' = true) := by
  rintro ⟨-, h⟩
  revert h
  decide

theorem gnuLoop_backslash (c : Char) (s : Str) :
    gnuLoop markEOLs none token ('\\' :: c :: s) = gnuLoop markEOLs none (token ++ [c]) s := by
  rw [gnuLoop.eq_def]
  simp only [if_neg not_blank_backslash, if_true]

theorem gnuLoop_last : gnuLoop markEOLs none token ['\\'] = finish markEOLs (token ++ ['\\']) := by
  rw [gnuLoop.eq_def]
  simp only [if_neg not_blank_backslash, if_true]

theorem gnuLoop_plain {c : Char} (hc : isPlain c = true) (s : Str) :
    gnuLoop markEOLs none token (c :: s) = gnuLoop markEOLs none (token ++ [c]) s := by
  obtain ⟨hspace, hquote, hslash⟩ := isPlain_iff.mp hc
  rw [gnuLoop.eq_def]
  simp only [hspace, hquote, Bool.false_eq_true, and_false, if_false, if_neg hslash]

theorem gnuLoop_quote {q : Char} (hq : isQuote q = true) (s : Str) :
    gnuLoop markEOLs none token (q :: s) = gnuLoop markEOLs (some q) token s := by
  have hspace : isWhitespace q = false := by
    cases h : isWhitespace q with
    | false => rfl
    | true =>
      rw [(not_isQuote_of_isWhitespace h).1] at hq
      cases hq
  rw [gnuLoop.eq_def]
  simp only [hspace, Bool.false_eq_true, and_false, if_false, if_neg (ne_backslash_of_isQuote hq),
    if_pos hq]

/-- A blank ends a word. -/
theorem gnuLoop_blank {c : Char} (hc : isWhitespace c = true) (s : Str) :
    gnuLoop markEOLs none token (c :: s) =
      endedArg markEOLs (token, c) ++ gnuLoop markEOLs none [] s := by
  obtain ⟨hquote, hslash⟩ := not_isQuote_of_isWhitespace hc
  rw [gnuLoop.eq_def, endedArg]
  by_cases htoken : token = []
  · simp only [htoken, hc, and_self, if_true]
  · simp only [htoken, hc, hquote, false_and, Bool.false_eq_true, if_false, if_neg hslash, if_true]
    rfl

theorem gnuLoop_inner {q : Char} (hq : q ≠ '\\') (inner : List (Inner q)) (s : Str) :
    gnuLoop markEOLs (some q) token (inner.flatMap Inner.text ++ s) =
      gnuLoop markEOLs (some q) (token ++ inner.map Inner.char) s := by
  induction inner generalizing token with
  | nil => rw [List.flatMap_nil, List.map_nil, List.nil_append, List.append_nil]
  | cons i inner ih =>
    have hone : ∀ t : Str, gnuLoop markEOLs (some q) token (i.text ++ t) =
        gnuLoop markEOLs (some q) (token ++ [i.char]) t := by
      intro t
      cases i with
      | plain c => exact gnuLoop_quoted_plain c.2.1 c.2.2 t
      | escaped c => exact gnuLoop_quoted_escaped hq c t
    rw [List.flatMap_cons, List.append_assoc, hone, ih, List.map_cons, List.append_assoc]
    rfl

/-- Each other item adds its value to the word. -/
theorem gnuLoop_item (i : Item) (hi : ∀ c, i ≠ .blank c) (s : Str) :
    gnuLoop markEOLs none token (i.text ++ s) = gnuLoop markEOLs none (token ++ i.value) s := by
  cases i with
  | blank c => exact absurd rfl (hi c)
  | plain c => exact gnuLoop_plain c.2 s
  | escaped c => exact gnuLoop_backslash c s
  | quoted q inner =>
    have hq : q.1 ≠ '\\' := ne_backslash_of_isQuote q.2
    rw [Item.text, List.cons_append, List.append_assoc, gnuLoop_quote q.2, gnuLoop_inner hq,
      List.singleton_append, gnuLoop_close, Item.value]

theorem gnuLoop_ending (e : Ending) :
    gnuLoop markEOLs none token e.text = finish markEOLs (token ++ e.value) := by
  cases e with
  | closed =>
    rw [Ending.text, Ending.value, List.append_nil]
    exact gnuLoop_nil none
  | backslash => exact gnuLoop_last
  | opened q inner b =>
    have hq : q.1 ≠ '\\' := ne_backslash_of_isQuote q.2
    rw [Ending.text, gnuLoop_quote q.2, gnuLoop_inner hq, Ending.value, ← List.append_assoc]
    cases b with
    | false =>
      rw [lone, if_neg Bool.false_ne_true, List.append_nil]
      exact gnuLoop_nil (some q.1)
    | true =>
      exact gnuLoop_quoted_last hq

theorem gnuLoop_text (items : List Item) (e : Ending) :
    gnuLoop markEOLs none token (items.flatMap Item.text ++ e.text) =
      (wordsOf token items).1.flatMap (endedArg markEOLs) ++
        finish markEOLs ((wordsOf token items).2 ++ e.value) := by
  induction items generalizing token with
  | nil => exact gnuLoop_ending e
  | cons i items ih =>
    rw [List.flatMap_cons, List.append_assoc]
    by_cases hi : ∃ c, i = .blank c
    · obtain ⟨c, rfl⟩ := hi
      rw [Item.text, List.singleton_append, gnuLoop_blank c.2, ih, wordsOf, List.flatMap_cons, List.append_assoc]
    · rw [not_exists] at hi
      have hwords : wordsOf token (i :: items) = wordsOf (token ++ i.value) items := by
        cases i with
        | blank c => exact absurd rfl (hi c)
        | plain c | escaped c | quoted q inner => rfl
      rw [gnuLoop_item i hi, ih, hwords]

end

/-- **The words of a text** are its arguments. Every text is read as items in one way, and each of them
adds to a word or ends one. -/
theorem tokenizeGNU_words : Function.Bijective Reading.text ∧
    ∀ (markEOLs : Bool) (r : Reading), tokenizeGNU markEOLs r.text = r.arguments markEOLs :=
  ⟨text_bijective, fun _ r => gnuLoop_text r.items r.ending⟩

/-! ## Quoted arguments -/

open Command (quote isEscaped quote_simpleAndEscape)

/-- What is escaped for a quoted string is read as what it is between the quotes. -/
theorem exists_inner (a : Str) : ∃ inner : List (Inner '\x22'),
    inner.flatMap Inner.text = escape '\\' isEscaped a ∧ inner.map Inner.char = a := by
  induction a with
  | nil => exact ⟨[], rfl, rfl⟩
  | cons c a ih =>
    obtain ⟨inner, htext, hchar⟩ := ih
    rw [escape_cons, escapeOne, ← htext]
    by_cases hc : isEscaped c = true
    · refine ⟨.escaped c :: inner, ?_, congrArg (c :: ·) hchar⟩
      rw [if_pos hc]
      rfl
    · have hplain : c ≠ '\x22' ∧ c ≠ '\\' := by
        simp only [isEscaped, Bool.or_eq_true, decide_eq_true_eq, not_or] at hc
        exact hc.symm
      refine ⟨.plain ⟨c, hplain⟩ :: inner, ?_, congrArg (c :: ·) hchar⟩
      rw [if_neg hc]
      rfl

/-- A quoted argument adds the argument to the word. -/
theorem gnuLoop_quote_append (markEOLs : Bool) (token a s : Str) :
    gnuLoop markEOLs none token (quote a .simpleAndEscape ++ s) =
      gnuLoop markEOLs none (token ++ a) s := by
  obtain ⟨inner, htext, hchar⟩ := exists_inner a
  rw [quote_simpleAndEscape, List.cons_append, List.append_assoc, List.singleton_append, ← htext,
    gnuLoop_quote (by decide), gnuLoop_inner (by decide), gnuLoop_close, hchar]

/-- Blanks end a word, and are skipped behind it. -/
theorem gnuLoop_blanks {sep : Str} (hne : sep ≠ []) (hsep : ∀ c ∈ sep, isWhitespace c = true)
    (token s : Str) : gnuLoop false none token (sep ++ s) =
      (if token = [] then [] else [save token]) ++ gnuLoop false none [] s := by
  have hended : ∀ (w : Str) (c : Char),
      endedArg false (w, c) = if w = [] then [] else [save w] := by
    intro w c
    simp [endedArg, eol]
  induction sep generalizing token with
  | nil => exact absurd rfl hne
  | cons c sep ih =>
    obtain ⟨hc, hsep⟩ := List.forall_mem_cons.mp hsep
    rw [List.cons_append, gnuLoop_blank hc, hended]
    by_cases hnil : sep = []
    · rw [hnil, List.nil_append]
    · rw [ih hnil hsep [], if_pos rfl, List.nil_append]

/-- Arguments with blanks between them, each quoted. -/
def quotedLine (sep : Str) (args : Strings) : Str :=
  sep.intercalate (args.map fun a => quote a .simpleAndEscape)

theorem quotedLine_cons_cons (sep a b : Str) (args : Strings) :
    quotedLine sep (a :: b :: args) = quote a .simpleAndEscape ++ (sep ++ quotedLine sep (b :: args)) := by
  simp [quotedLine, List.intercalate]

/-- **Quoted arguments** are read back, but the empty ones are lost. -/
theorem tokenizeGNU_quotedLine {sep : Str} (hne : sep ≠ []) (hsep : ∀ c ∈ sep, isWhitespace c = true)
    (args : Strings) :
    tokenizeGNU false (quotedLine sep args) = (args.filter (· ≠ [])).map save := by
  have hone : ∀ a : Str, (if a = [] then [] else [save a]) = ([a].filter (· ≠ [])).map save := by
    intro a
    by_cases ha : a = [] <;> simp [ha]
  induction args with
  | nil => rfl
  | cons a args ih =>
    cases args with
    | nil =>
      have htext : quotedLine sep [a] = quote a .simpleAndEscape ++ [] := by
        simp [quotedLine, List.intercalate]
      rw [htext, tokenizeGNU, gnuLoop_quote_append, gnuLoop_nil, finish, List.nil_append, hone,
        if_neg Bool.false_ne_true, List.append_nil]
    | cons b args =>
      rw [quotedLine_cons_cons, tokenizeGNU, gnuLoop_quote_append, List.nil_append,
        gnuLoop_blanks hne hsep, hone]
      rw [tokenizeGNU] at ih
      rw [ih, ← List.map_append, ← List.filter_append, List.singleton_append]

/-- A string is read as itself through a pointer if it has no null character. -/
theorem save_eq_iff (s : Str) : save s = some s ↔ '\x00' ∉ s := by
  rw [save, Option.some.injEq, List.takeWhile_eq_self_iff]
  simp only [decide_eq_true_eq, ne_eq]
  exact ⟨fun h hs => h _ hs rfl, fun h c hc hnull => h (hnull ▸ hc)⟩

/-- **The arguments come back as they were** exactly if none of them is empty and none has a null
character in it. -/
theorem tokenizeGNU_quoted {sep : Str} (hne : sep ≠ []) (hsep : ∀ c ∈ sep, isWhitespace c = true)
    (args : Strings) :
    tokenizeGNU false (quotedLine sep args) = args.map some ↔ ∀ a ∈ args, a ≠ [] ∧ '\x00' ∉ a := by
  rw [tokenizeGNU_quotedLine hne hsep]
  constructor
  · intro h
    have hlen := congrArg List.length h
    rw [List.length_map, List.length_map, List.length_filter_eq_length_iff] at hlen
    simp only [decide_eq_true_eq] at hlen
    rw [List.filter_eq_self.mpr (by simpa using hlen), List.map_inj_left] at h
    exact fun a ha => ⟨hlen a ha, (save_eq_iff a).mp (h a ha)⟩
  · intro h
    rw [List.filter_eq_self.mpr (by simpa using fun a ha => (h a ha).1), List.map_inj_left]
    exact fun a ha => (save_eq_iff a).mpr (h a ha).2

theorem isWhitespace_of_mem_blank : ∀ c ∈ [' '], isWhitespace c = true :=
  List.forall_mem_singleton.mpr rfl

theorem tokenizeGNU_quoted_two :
    tokenizeGNU false (quotedLine [' '] [['a', ' ', '\\'], ['\x22']]) =
      [some ['a', ' ', '\\'], some ['\x22']] :=
  (tokenizeGNU_quoted (by decide) isWhitespace_of_mem_blank [['a', ' ', '\\'], ['\x22']]).mpr (by decide)

end Primitives.CommandLine
