import Mathlib.Tactic.IntervalCases
import Primitives.Versions.Grammar

/-!
# What the lexer of ranges reads

A word, of letters, digits and underscores, is read as one token up to its end, whatever it is
(`reads_word`), and so is a symbol unless a longer one stands there (`reads_symbol`). What is read of a
text is put together of what is read of its parts (`Reads`).
-/

set_option autoImplicit false

namespace Primitives.Versions

open Lib RegularExpression

/-! ## The rules -/

def isWordChar (c : Char) : Bool := wordChars.contains c

def isBlank (c : Char) : Bool := blanks.contains c

/-- The texts that stand for themselves. -/
def symbolTexts : List Str :=
  rules.filterMap fun
    | .symbol text _ => some text
    | _ => none

/-- A letter, a digit or an underscore, and more of them. -/
structure IsWord (w : Str) : Prop where
  ne_nil : w ≠ []
  isWordChar : ∀ c ∈ w, isWordChar c = true

theorem all_contains {w cs : Str} : w.all cs.contains = true ↔ ∀ c ∈ w, c ∈ cs := by
  simp [List.all_eq_true]

/-- The rule that reads a word. -/
def wordRule (w : Str) : Rule :=
  if w = ['x'] ∨ w = ['X'] then .x
  else if w.all digitChars.contains then .number
  else if w.head?.any initialChars.contains then .string
  else .extra

theorem mem_many1_oneOf {cs s : Str} : s ∈ (many1 (oneOf cs)).matches' ↔ s ≠ [] ∧ ∀ c ∈ s, c ∈ cs := by
  rw [many1, mem_comp]
  constructor
  · rintro ⟨a, ha, b, hb, rfl⟩
    obtain ⟨c, hc, rfl⟩ := mem_oneOf.mp ha
    exact ⟨List.cons_ne_nil _ _, List.forall_mem_cons.mpr ⟨hc, mem_star_oneOf.mp hb⟩⟩
  · rintro ⟨hne, hall⟩
    cases s with
    | nil => exact absurd rfl hne
    | cons c s =>
      obtain ⟨hc, hs⟩ := List.forall_mem_cons.mp hall
      exact ⟨[c], mem_oneOf.mpr ⟨c, hc, rfl⟩, s, mem_star_oneOf.mpr hs, rfl⟩

theorem mem_string {s : Str} : s ∈ Rule.string.regex.matches' ↔
    ∃ c t, s = c :: t ∧ c ∈ initialChars ∧ ∀ d ∈ t, d ∈ wordChars := by
  rw [Rule.regex, mem_comp]
  constructor
  · rintro ⟨a, ha, b, hb, rfl⟩
    obtain ⟨c, hc, rfl⟩ := mem_oneOf.mp ha
    exact ⟨c, b, rfl, hc, mem_star_oneOf.mp hb⟩
  · rintro ⟨c, t, rfl, hc, ht⟩
    exact ⟨[c], mem_oneOf.mpr ⟨c, hc, rfl⟩, t, mem_star_oneOf.mpr ht, rfl⟩

/-- What the rules match. -/
theorem mem_rules {q : Rule} (hq : q ∈ rules) {s : Str} (h : s ∈ q.regex.matches') :
    s ∈ symbolTexts ∨ (∀ c ∈ s, isBlank c = true) ∨ (∀ c ∈ s, isWordChar c = true) ∨ ∃ c, s = [c] := by
  cases q with
  | symbol text t =>
    left
    rw [← mem_word.mp h]
    exact List.mem_filterMap.mpr ⟨_, hq, rfl⟩
  | space =>
    obtain ⟨-, hall⟩ := mem_many1_oneOf.mp h
    exact .inr (.inl fun c hc => List.contains_iff_mem.mpr (hall c hc))
  | x =>
    obtain ⟨c, -, rfl⟩ := mem_oneOf.mp h
    exact .inr (.inr (.inr ⟨c, rfl⟩))
  | number =>
    obtain ⟨-, hall⟩ := mem_many1_oneOf.mp h
    refine .inr (.inr (.inl fun c hc => List.contains_iff_mem.mpr ?_))
    exact List.mem_append_right _ (hall c hc)
  | string =>
    obtain ⟨c, t, rfl, hc, ht⟩ := mem_string.mp h
    refine .inr (.inr (.inl (List.forall_mem_cons.mpr ⟨?_, fun d hd => ?_⟩)))
    · exact List.contains_iff_mem.mpr (List.mem_append_left _ hc)
    · exact List.contains_iff_mem.mpr (ht d hd)
  | extra =>
    obtain ⟨-, hall⟩ := mem_many1_oneOf.mp h
    exact .inr (.inr (.inl fun c hc => List.contains_iff_mem.mpr (hall c hc)))
  | any =>
    obtain ⟨c, -, rfl⟩ := mem_oneOf.mp h
    exact .inr (.inr (.inr ⟨c, rfl⟩))

/-- Symbols have one or two characters, which are in no word and not blank. -/
theorem symbolTexts_spec : ∀ text ∈ symbolTexts, text ≠ [] ∧ text.length ≤ 2 ∧
    ∀ c ∈ text, isWordChar c = false ∧ isBlank c = false := by
  have hall : symbolTexts.all (fun text => decide (text ≠ [] ∧ text.length ≤ 2) &&
      text.all fun c => !isWordChar c && !isBlank c) = true := by decide
  intro text htext
  have h := List.all_eq_true.mp hall text htext
  rw [Bool.and_eq_true, decide_eq_true_iff, List.all_eq_true] at h
  refine ⟨h.1.1, h.1.2, fun c hc => ?_⟩
  simpa using h.2 c hc

theorem not_isBlank_of_isWordChar {c : Char} (h : isWordChar c = true) : isBlank c = false := by
  have hall : wordChars.all (fun c => !isBlank c) = true := by decide
  exact (Bool.not_eq_true' _).mp (List.all_eq_true.mp hall c (List.contains_iff_mem.mp h))

/-! ## Words -/

/-- The rules that a word can match. -/
def wordRules : List Rule := [.x, .number, .string, .extra, .any]

/-- No symbol and no blank is a word. -/
theorem IsWord.notMem {w : Str} (hw : IsWord w) {q : Rule} (hq : q ∈ rules) (hno : q ∉ wordRules) :
    w ∉ q.regex.matches' := by
  obtain ⟨c, t, rfl⟩ := List.exists_cons_of_ne_nil hw.ne_nil
  have hc := hw.isWordChar c List.mem_cons_self
  intro h
  cases q with
  | space =>
    have hblank := (mem_many1_oneOf.mp h).2 c List.mem_cons_self
    have hnoblank := not_isBlank_of_isWordChar hc
    rw [isBlank, List.contains_iff_mem.mpr hblank] at hnoblank
    cases hnoblank
  | symbol text t' =>
    have hmem : text ∈ symbolTexts := List.mem_filterMap.mpr ⟨_, hq, rfl⟩
    have hnoword := ((symbolTexts_spec text hmem).2.2 c ((mem_word.mp h).symm ▸ List.mem_cons_self)).1
    rw [hc] at hnoword
    cases hnoword
  | _ => exact absurd (by decide) hno

/-- **A rule is the first that a word matches**, if the word matches none of the other rules for words
that stand before. -/
theorem IsWord.firstMatch_eq {w : Str} (hw : IsWord w) (before after : List Rule) {r : Rule}
    (hrules : rules = before ++ r :: after)
    (hbefore : ∀ q ∈ before, q ∈ wordRules → w ∉ q.regex.matches') (hr : w ∈ r.regex.matches') :
    firstMatch Rule.regex rules w = some r := by
  refine firstMatch_eq_some_iff.mpr ⟨hr, before, after, hrules, fun q hq => ?_⟩
  by_cases hword : q ∈ wordRules
  · exact hbefore q hq hword
  · exact hw.notMem (hrules ▸ List.mem_append_left _ hq) hword

theorem firstMatch_wordRule {w : Str} (hw : IsWord w) :
    firstMatch Rule.regex rules w = some (wordRule w) := by
  have hword : ∀ c ∈ w, c ∈ wordChars := fun c hc => List.contains_iff_mem.mp (hw.isWordChar c hc)
  rw [wordRule]
  split
  · rename_i hx
    have hnone : ∀ q ∈ rules.take 12, q ∉ wordRules := by decide
    refine hw.firstMatch_eq (rules.take 12) (rules.drop 13) rfl (fun q hq h => absurd h (hnone q hq)) ?_
    rcases hx with rfl | rfl
    · exact mem_oneOf.mpr ⟨'x', List.mem_cons_self, rfl⟩
    · exact mem_oneOf.mpr ⟨'X', List.mem_cons_of_mem _ List.mem_cons_self, rfl⟩
  rename_i hx
  have hx : w ∉ Rule.x.regex.matches' := by
    intro h
    obtain ⟨d, hd, heq⟩ := mem_oneOf.mp h
    rw [List.mem_cons, List.mem_singleton] at hd
    rcases hd with rfl | rfl
    · exact hx (.inl heq.symm)
    · exact hx (.inr heq.symm)
  split
  · rename_i hdigits
    have honly : ∀ q ∈ rules.take 21, q ∈ wordRules → q = .x := by decide
    refine hw.firstMatch_eq (rules.take 21) (rules.drop 22) rfl (fun q hq h => ?_) ?_
    · exact honly q hq h ▸ hx
    · exact mem_many1_oneOf.mpr ⟨hw.ne_nil, all_contains.mp hdigits⟩
  rename_i hdigits
  have hnumber : w ∉ Rule.number.regex.matches' :=
    fun h => hdigits (all_contains.mpr (mem_many1_oneOf.mp h).2)
  obtain ⟨c, t, rfl⟩ := List.exists_cons_of_ne_nil hw.ne_nil
  split
  · rename_i hinitial
    have honly : ∀ q ∈ rules.take 22, q ∈ wordRules → q = .x ∨ q = .number := by decide
    refine hw.firstMatch_eq (rules.take 22) (rules.drop 23) rfl (fun q hq h => ?_) ?_
    · rcases honly q hq h with rfl | rfl
      · exact hx
      · exact hnumber
    · exact mem_string.mpr ⟨c, t, rfl, List.contains_iff_mem.mp hinitial,
        fun d hd => hword d (List.mem_cons_of_mem _ hd)⟩
  · rename_i hinitial
    have hstring : c :: t ∉ Rule.string.regex.matches' := by
      intro h
      obtain ⟨d, t', heq, hd, -⟩ := mem_string.mp h
      cases heq
      exact hinitial (List.contains_iff_mem.mpr hd)
    have honly : ∀ q ∈ rules.take 23, q ∈ wordRules → q = .x ∨ q = .number ∨ q = .string := by decide
    refine hw.firstMatch_eq (rules.take 23) (rules.drop 24) rfl (fun q hq h => ?_) ?_
    · rcases honly q hq h with rfl | rfl | rfl
      · exact hx
      · exact hnumber
      · exact hstring
    · exact mem_many1_oneOf.mpr ⟨List.cons_ne_nil _ _, hword⟩

/-- **A word** is read up to its end. -/
theorem munch_word {w rest : Str} (hw : IsWord w) (hrest : Stops isWordChar rest) :
    munch Rule.regex rules (w ++ rest) = some (wordRule w, w, rest) := by
  refine munch_append hw.ne_nil (firstMatch_wordRule hw) fun v hv hpre q hq h => ?_
  obtain ⟨c, t, rfl⟩ := List.exists_cons_of_ne_nil hw.ne_nil
  obtain ⟨d, v, rfl⟩ := List.exists_cons_of_ne_nil hv
  have hc := hw.isWordChar c List.mem_cons_self
  have hd : isWordChar d = false := by
    obtain ⟨more, rfl⟩ := hpre
    exact hrest d _ rfl
  rcases mem_rules hq h with hsymbol | hblank | hword | ⟨e, he⟩
  · have hno := ((symbolTexts_spec _ hsymbol).2.2 c List.mem_cons_self).1
    rw [hc] at hno
    cases hno
  · have hno := hblank c List.mem_cons_self
    rw [not_isBlank_of_isWordChar hc] at hno
    cases hno
  · have hno := hword d (by simp)
    rw [hd] at hno
    cases hno
  · have hlen := congrArg List.length he
    simp at hlen

/-! ## Symbols -/

/-- **A symbol** is read unless a longer one stands there. -/
theorem munch_symbol {text rest : Str} {t : Token} {p : Char → Bool}
    (hfirst : firstMatch Rule.regex rules text = some (.symbol text t)) (hmem : text ∈ symbolTexts)
    (hlonger : ∀ u ∈ symbolTexts, ∀ c, u = text ++ [c] → p c = true) (hrest : Stops p rest) :
    munch Rule.regex rules (text ++ rest) = some (.symbol text t, text, rest) := by
  obtain ⟨hne, -, hclass⟩ := symbolTexts_spec text hmem
  refine munch_append hne hfirst fun v hv hpre q hq h => ?_
  obtain ⟨c, text', rfl⟩ := List.exists_cons_of_ne_nil hne
  obtain ⟨d, v, rfl⟩ := List.exists_cons_of_ne_nil hv
  obtain ⟨hword, hblank⟩ := hclass c List.mem_cons_self
  rcases mem_rules hq h with hsymbol | hall | hall | ⟨e, he⟩
  · -- the longer symbol has two characters
    have hlen := (symbolTexts_spec _ hsymbol).2.1
    simp only [List.length_append, List.length_cons] at hlen
    obtain rfl : text' = [] := List.eq_nil_of_length_eq_zero (by omega)
    obtain rfl : v = [] := List.eq_nil_of_length_eq_zero (by omega)
    have hd := hlonger _ hsymbol d rfl
    obtain ⟨more, rfl⟩ := hpre
    rw [hrest d more rfl] at hd
    cases hd
  · have hno := hall c List.mem_cons_self
    rw [hblank] at hno
    cases hno
  · have hno := hall c List.mem_cons_self
    rw [hword] at hno
    cases hno
  · have hlen := congrArg List.length he
    simp at hlen

/-- **Blanks** are read up to their end. -/
theorem munch_blanks {w rest : Str} (hne : w ≠ []) (hw : ∀ c ∈ w, isBlank c = true)
    (hrest : Stops isBlank rest) : munch Rule.regex rules (w ++ rest) = some (.space, w, rest) := by
  have hfirst : firstMatch Rule.regex rules w = some .space :=
    firstMatch_cons_of_mem (mem_many1_oneOf.mpr ⟨hne, fun c hc => List.contains_iff_mem.mp (hw c hc)⟩)
  refine munch_append hne hfirst fun v hv hpre q hq h => ?_
  obtain ⟨c, t, rfl⟩ := List.exists_cons_of_ne_nil hne
  obtain ⟨d, v, rfl⟩ := List.exists_cons_of_ne_nil hv
  have hc := hw c List.mem_cons_self
  have hd : isBlank d = false := by
    obtain ⟨more, rfl⟩ := hpre
    exact hrest d _ rfl
  rcases mem_rules hq h with hsymbol | hall | hall | ⟨e, he⟩
  · have hno := ((symbolTexts_spec _ hsymbol).2.2 c List.mem_cons_self).2
    rw [hc] at hno
    cases hno
  · have hno := hall d (by simp)
    rw [hd] at hno
    cases hno
  · have hno := not_isBlank_of_isWordChar (hall c List.mem_cons_self)
    rw [hc] at hno
    cases hno
  · have hlen := congrArg List.length he
    simp at hlen

/-! ## Tokens -/

/-- What is read of a text where certain texts follow. -/
structure Reads (w : Str) (ts : List Token) (follow : Str → Prop) : Prop where
  noNul : '\x00' ∉ w
  tokens {rest : Str} (h : follow rest) : lexer.tokens () (w ++ rest) = ts ++ lexer.tokens () rest

theorem Reads.append {w w' : Str} {ts ts' : List Token} {follow follow' : Str → Prop}
    (h : Reads w ts follow) (h' : Reads w' ts' follow')
    (hfollow : ∀ {rest}, follow' rest → follow (w' ++ rest)) :
    Reads (w ++ w') (ts ++ ts') follow' where
  noNul := by
    rw [List.mem_append, not_or]
    exact ⟨h.noNul, h'.noNul⟩
  tokens hrest := by
    rw [List.append_assoc, h.tokens (hfollow hrest), h'.tokens hrest, List.append_assoc]

theorem Reads.mono {w : Str} {ts : List Token} {follow follow' : Str → Prop} (h : Reads w ts follow)
    (hfollow : ∀ {rest}, follow' rest → follow rest) : Reads w ts follow' :=
  ⟨h.noNul, fun hrest => h.tokens (hfollow hrest)⟩

/-- The tokens of the text itself. -/
theorem Reads.tokens_eq {w : Str} {ts : List Token} {follow : Str → Prop} (h : Reads w ts follow)
    (hnil : follow []) : Versions.tokens w = ts := by
  have hall : w.takeWhile (· ≠ '\x00') = w := by
    rw [List.takeWhile_eq_self_iff]
    intro c hc
    refine decide_eq_true ?_
    rintro rfl
    exact h.noNul hc
  have htokens := h.tokens hnil
  rw [List.append_nil, lexer.tokens_nil, List.append_nil] at htokens
  rw [Versions.tokens, hall]
  exact htokens

theorem reads_word {w : Str} (hw : IsWord w) : Reads w [(wordRule w).token w] (Stops isWordChar) where
  noNul h := by
    have hno := hw.isWordChar _ h
    revert hno
    decide
  tokens hrest := lexer.tokens_of_munch (munch_word hw hrest)

theorem reads_symbol {text : Str} {t : Token} {p : Char → Bool}
    (hfirst : firstMatch Rule.regex rules text = some (.symbol text t)) (hmem : text ∈ symbolTexts)
    (hlonger : ∀ u ∈ symbolTexts, ∀ c, u = text ++ [c] → p c = true) : Reads text [t] (Stops p) where
  noNul := by
    have hall : ∀ u ∈ symbolTexts, '\x00' ∉ u := by decide
    exact hall text hmem
  tokens hrest := lexer.tokens_of_munch (munch_symbol hfirst hmem hlonger hrest)

theorem reads_blanks {w : Str} (hne : w ≠ []) (hw : ∀ c ∈ w, isBlank c = true) :
    Reads w [.space] (Stops isBlank) where
  noNul h := by
    have hno := hw _ h
    revert hno
    decide
  tokens hrest := lexer.tokens_of_munch (munch_blanks hne hw hrest)

theorem reads_space : Reads [' '] [.space] (Stops isBlank) :=
  reads_blanks (List.cons_ne_nil _ _) (List.forall_mem_singleton.mpr rfl)

/-- No symbol goes on. -/
theorem stops_false {s : Str} : Stops (fun _ => false) s := fun _ _ _ => rfl

/-- Some symbols are the beginning of no other one. -/
theorem reads_whole {text : Str} {t : Token}
    (hfirst : firstMatch Rule.regex rules text = some (.symbol text t)) (hmem : text ∈ symbolTexts)
    (hlonger : ∀ u ∈ symbolTexts, text <+: u → u = text) : Reads text [t] fun _ => True := by
  refine (reads_symbol (p := fun _ => false) hfirst hmem ?_).mono fun _ => stops_false
  rintro u hu c rfl
  have heq := congrArg List.length (hlonger _ hu (List.prefix_append _ _))
  simp at heq

theorem reads_dot : Reads ['.'] [.dot] fun _ => True := reads_whole rfl (by decide) (by decide)

theorem reads_hyphen : Reads ['-'] [.hyphen] fun _ => True := reads_whole rfl (by decide) (by decide)

theorem reads_star : Reads ['*'] [.starNumber] fun _ => True := reads_whole rfl (by decide) (by decide)

theorem reads_caret : Reads ['^'] [.caret] fun _ => True := reads_whole rfl (by decide) (by decide)

theorem reads_tilde : Reads ['~'] [.tilde] fun _ => True := reads_whole rfl (by decide) (by decide)

theorem reads_or : Reads ['|', '|'] [.or] fun _ => True := reads_whole rfl (by decide) (by decide)

theorem reads_le : Reads ['<', '='] [.le] fun _ => True := reads_whole rfl (by decide) (by decide)

theorem reads_ge : Reads ['>', '='] [.ge] fun _ => True := reads_whole rfl (by decide) (by decide)

/-- An equals sign makes a longer symbol of `<`, `>` and `=`. -/
theorem reads_unless_equals {c : Char} {t : Token}
    (hfirst : firstMatch Rule.regex rules [c] = some (.symbol [c] t)) (hmem : [c] ∈ symbolTexts)
    (hlonger : ∀ u ∈ symbolTexts, [c] <+: u → u = [c] ∨ u = [c, '=']) :
    Reads [c] [t] (Stops (· = '=')) := by
  refine reads_symbol hfirst hmem ?_
  rintro u hu d rfl
  rcases hlonger _ hu (List.prefix_append _ _) with h | h
  · cases h
  · cases h
    rfl

theorem reads_lt : Reads ['<'] [.lt] (Stops (· = '=')) :=
  reads_unless_equals rfl (by decide) (by decide)

theorem reads_gt : Reads ['>'] [.gt] (Stops (· = '=')) :=
  reads_unless_equals rfl (by decide) (by decide)

theorem reads_eq : Reads ['='] [.eq] (Stops (· = '=')) :=
  reads_unless_equals rfl (by decide) (by decide)

end Primitives.Versions
