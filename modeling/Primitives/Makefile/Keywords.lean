import Primitives.Makefile.Lines

/-!
# Makefile.am — names that begin like keywords

A line is a conditional or an `include` if its first token begins with such a word, and only then is
it looked at for an assignment. So `NAME = w1 ... wn` is no assignment for a `NAME` such as
`iface` or `included`. Of its words, those with a backslash are cut, as a list may go on in the next
line behind one. In all other cases the line does what it says (`assignmentLine_iff`).
-/

set_option autoImplicit false

namespace Primitives.Makefile

open Lib

/-- Letters, digits and underscores, no digit first. -/
structure IsIdentifier (name : Str) : Prop where
  start : ∃ c rest, name = c :: rest ∧ c.isDigit = false
  chars : ∀ c ∈ name, c.isAlphanum = true ∨ c = '_'

/-- A word: some characters, none of them blank. -/
structure IsWord (w : Str) : Prop where
  ne_nil : w ≠ []
  chars : ∀ c ∈ w, isSpace c = false

/-- `NAME = w1 ... wn` -/
def assignmentLine (name : Str) (ws : Strings) : Str :=
  name ++ ' ' :: '=' :: (ws.flatMap (' ' :: ·) ++ ['\n'])

/-- The variable has the words, and all else is as it was. -/
structure Assigned (m m' : MakefileAm) (name : Str) (ws : Strings) : Prop where
  value : m'.vars.lookup name = some ws
  others : ∀ k, k ≠ name → m'.vars.lookup k = m.vars.lookup k
  ifStack : m'.ifStack = m.ifStack

/-- Outside of any conditional the line assigns the words, whatever the files are and whatever comes
behind the line. -/
def LineAssigns (name : Str) (ws : Strings) : Prop :=
  ∀ (loadFile : Str → MakefileAm → Except Failure MakefileAm) (m : MakefileAm) (rest : Str),
    m.ifStack = [] →
    ∃ m', load loadFile m (assignmentLine name ws ++ rest) = load loadFile m' rest ∧
      Assigned m m' name ws

/-- The token is taken for the word of a conditional or an `include`. -/
def TakenForKeyword (name : Str) : Prop :=
  wordIf <+: name ∨ wordElse <+: name ∨ wordEndif <+: name ∨ wordInclude <+: name

instance (name : Str) : Decidable (TakenForKeyword name) := by
  unfold TakenForKeyword
  infer_instance

/-! ## Records -/

section

variable {loadFile : Str → MakefileAm → Except Failure MakefileAm} {m m' : MakefileAm} {s p : Str}

theorem load_of_nextRecord (hs : s ≠ []) (h : nextRecord loadFile m s = .ok (m', p)) :
    load loadFile m s = load loadFile m' p := by
  have hlt := length_nextRecord h
  obtain ⟨c, t, rfl⟩ := List.exists_cons_of_ne_nil hs
  have hle : p.length ≤ t.length := Nat.le_of_lt_succ hlt
  rw [load, List.length_cons, loadRecords, h]
  exact loadRecords_of_le hle

theorem load_of_error {e : Failure} (hs : s ≠ []) (h : nextRecord loadFile m s = .error e) :
    load loadFile m s = .error e := by
  obtain ⟨c, t, rfl⟩ := List.exists_cons_of_ne_nil hs
  rw [load, List.length_cons, loadRecords, h]
  rfl

end

/-! ## The parts of the line -/

theorem tokenEnd_of_identifier {c : Char} (h : c.isAlphanum = true ∨ c = '_') :
    tokenEnd c = false := by
  have hno : ∀ d : Char, d.isAlphanum = false → d ≠ '_' → c ≠ d := by
    rintro d halnum hline rfl
    rcases h with h | h
    · rw [halnum] at h
      cases h
    · exact hline h
  have hspace : isSpace c = false := by
    refine decide_eq_false fun hmem => ?_
    simp only [List.mem_cons, List.not_mem_nil, or_false] at hmem
    rcases hmem with h | h | h | h | h | h
    all_goals exact hno _ (by decide) (by decide) h
  rw [tokenEnd, decide_eq_false (hno ':' (by decide) (by decide)), hspace,
    decide_eq_false (hno '+' (by decide) (by decide)),
    decide_eq_false (hno '=' (by decide) (by decide))]
  rfl

theorem IsIdentifier.isToken {name : Str} (h : IsIdentifier name) : IsToken name := by
  obtain ⟨c, rest, rfl, -⟩ := h.start
  refine ⟨List.cons_ne_nil c rest, fun d hd => tokenEnd_of_identifier (h.chars d hd), ?_⟩
  intro hremark
  cases hremark
  rcases h.chars '#' List.mem_cons_self with hc | hc
  · exact absurd hc (by decide)
  · exact absurd hc (by decide)

/-- The words as they stand in the line. -/
def wordsText (ws : Strings) : Str := ws.flatMap (' ' :: ·)

theorem newline_notMem_words {ws : Strings} (hws : ∀ w ∈ ws, IsWord w) : '\n' ∉ wordsText ws := by
  intro h
  obtain ⟨w, hw, hmem⟩ := List.mem_flatMap.mp h
  rcases List.mem_cons.mp hmem with h | h
  · cases h
  · have hspace := (hws w hw).chars _ h
    exact absurd hspace (by decide)

/-- **The words of the line** are its list, if none has a backslash. -/
theorem splitString_wordsText {ws : Strings} (hws : ∀ w ∈ ws, IsWord w)
    (hback : ∀ w ∈ ws, '\\' ∉ w) : splitString (wordsText ws) listDelims = ws := by
  have hword : ∀ w ∈ ws, ∃ v : Word, v.text = w := by
    intro w hw
    refine ⟨⟨w, (hws w hw).ne_nil, fun c hc => ⟨(hws w hw).chars c hc, ?_⟩⟩, rfl⟩
    rintro rfl
    exact hback w hw hc
  have hwords : ∃ vs : List Word, vs.map Word.text = ws := by
    clear hws hback
    induction ws with
    | nil => exact ⟨[], rfl⟩
    | cons w ws ih =>
      obtain ⟨v, rfl⟩ := hword w List.mem_cons_self
      obtain ⟨vs, rfl⟩ := ih fun w hw => hword w (List.mem_cons_of_mem _ hw)
      exact ⟨v :: vs, rfl⟩
  obtain ⟨vs, rfl⟩ := hwords
  cases vs with
  | nil => rfl
  | cons v vs =>
    have hsplit := splitString_words v (vs.map fun v => (' ', [], v)) (by
      intro p hp
      obtain ⟨u, -, rfl⟩ := List.mem_map.mp hp
      exact ⟨List.mem_cons_self, by simp⟩)
    rw [List.map_map, List.flatMap_map] at hsplit
    have htext : wordsText ((v :: vs).map Word.text) =
        ' ' :: (v.text ++ vs.flatMap fun v => ' ' :: ([] ++ v.text)) := by
      rw [wordsText, List.map_cons, List.flatMap_cons, List.flatMap_map]
      rfl
    rw [htext, splitString_cons_blank (by decide)]
    exact hsplit

/-! ## The line -/

variable {name : Str} {ws : Strings}

theorem assignmentLine_ne_nil (rest : Str) : assignmentLine name ws ++ rest ≠ [] := by
  simp [assignmentLine]

/-- The name is the token of the line. -/
theorem nextRecord_assignmentLine {loadFile : Str → MakefileAm → Except Failure MakefileAm}
    (m : MakefileAm) (hname : IsIdentifier name) (rest : Str) :
    nextRecord loadFile m (assignmentLine name ws ++ rest) =
      tokenRecord loadFile m name (' ' :: '=' :: (wordsText ws ++ '\n' :: rest)) := by
  have hline : assignmentLine name ws ++ rest =
      [] ++ (name ++ ' ' :: ('=' :: (wordsText ws ++ '\n' :: rest))) := by
    simp [assignmentLine, wordsText]
  rw [hline]
  exact nextRecord_token m ⟨[], by simp⟩ hname.isToken (by decide) _

/-- **No keyword, no backslash**: the line assigns its words. -/
theorem lineAssigns (hname : IsIdentifier name) (hws : ∀ w ∈ ws, IsWord w)
    (hkeyword : ¬ TakenForKeyword name) (hback : ∀ w ∈ ws, '\\' ∉ w) : LineAssigns name ws := by
  simp only [TakenForKeyword, not_or] at hkeyword
  obtain ⟨hif, helse, hendif, hinclude⟩ := hkeyword
  have hwhole : (wordsText ws).getLast? ≠ some '\\' := by
    intro h
    obtain ⟨w, hw, hmem⟩ := List.mem_flatMap.mp (List.mem_of_getLast? h)
    rcases List.mem_cons.mp hmem with h | h
    · cases h
    · exact hback w hw h
  let a : Assignment := ⟨⟨[], by simp⟩, ⟨name, hname.isToken, hif, helse, hendif, hinclude⟩,
    ⟨[' '], by simp [isSpace]⟩, false, ⟨wordsText ws, newline_notMem_words hws, hwhole⟩⟩
  have hprint : a.print = assignmentLine name ws := by
    simp [a, Assignment.print, Assignment.operator, assignmentLine, wordsText]
  have happly : ∀ v, a.apply v = v.update name [] fun _ => ws := by
    intro v
    show (v.update name [] fun _ => splitString (wordsText ws) listDelims) = _
    rw [splitString_wordsText hws hback]
  intro loadFile m rest hstack
  obtain ⟨v, ifStack⟩ := m
  obtain rfl : ifStack = [] := hstack
  refine ⟨⟨v.update name [] fun _ => ws, []⟩, ?_, ?_⟩
  · have hrecord : nextRecord loadFile ⟨v, []⟩ (a.print ++ rest) = .ok (⟨a.apply v, []⟩, rest) :=
      a.nextRecord_done rfl rest
    rw [happly, hprint] at hrecord
    exact load_of_nextRecord (assignmentLine_ne_nil rest) hrecord
  · refine ⟨?_, fun k hk => ?_, rfl⟩
    · rw [SortedMap.lookup_update, if_pos rfl]
    · rw [SortedMap.lookup_update, if_neg hk]

/-! ## Where it fails -/

/-- No file can be read. -/
def noFile : Str → MakefileAm → Except Failure MakefileAm :=
  fun _ _ => .error (.runtimeError "cannot open file")

/-- A line that assigns its words is loaded alone, into no variables. -/
theorem LineAssigns.alone (h : LineAssigns name ws) :
    ∃ v : Variables, load noFile ⟨SortedMap.empty, []⟩ (assignmentLine name ws) = .ok ⟨v, []⟩ ∧
      v.lookup name = some ws := by
  obtain ⟨⟨v, ifStack⟩, hload, hassigned⟩ := h noFile ⟨SortedMap.empty, []⟩ [] rfl
  obtain rfl : ifStack = [] := hassigned.ifStack
  rw [List.append_nil] at hload
  exact ⟨v, hload, hassigned.value⟩

theorem assignmentLine_alone_ne_nil (name : Str) (ws : Strings) : assignmentLine name ws ≠ [] := by
  simp [assignmentLine]

theorem nextRecord_alone (ws : Strings) (hname : IsIdentifier name) :
    nextRecord noFile ⟨SortedMap.empty, []⟩ (assignmentLine name ws) =
      tokenRecord noFile ⟨SortedMap.empty, []⟩ name (' ' :: '=' :: (wordsText ws ++ ['\n'])) := by
  have hrecord : nextRecord noFile ⟨SortedMap.empty, []⟩ (assignmentLine name ws ++ []) = _ :=
    nextRecord_assignmentLine _ hname []
  rwa [List.append_nil] at hrecord

theorem eatSpace_blank (s : Str) : eatSpace (' ' :: s) = eatSpace s :=
  eatSpace_append (b := [' ']) (by simp [isSpace]) s

theorem load_empty (loadFile : Str → MakefileAm → Except Failure MakefileAm) (m : MakefileAm) :
    load loadFile m [] = .ok m := rfl

/-- A keyword's record is no assignment: `if` opens a conditional, `else` and `endif` look for one,
and `include` reads a file. -/
theorem not_lineAssigns_keyword (hname : IsIdentifier name) (hws : ∀ w ∈ ws, IsWord w)
    (hkeyword : TakenForKeyword name) : ¬ LineAssigns name ws := by
  intro h
  obtain ⟨v, hload, -⟩ := h.alone
  have hne := assignmentLine_alone_ne_nil name ws
  have hrecord := nextRecord_alone ws hname
  have hbehind : eatSpace (' ' :: '=' :: (wordsText ws ++ ['\n'])) =
      '=' :: wordsText ws ++ '\n' :: [] := by
    rw [eatSpace_blank, eatSpace_cons (.inl (by decide))]
    rfl
  have hnewline : '\n' ∉ '=' :: wordsText ws := by
    rw [List.mem_cons, not_or]
    exact ⟨by decide, newline_notMem_words hws⟩
  rw [tokenRecord] at hrecord
  split at hrecord
  · -- a conditional is open behind the line
    have hcond : ifCondition SortedMap.empty (eatSpace (' ' :: '=' :: (wordsText ws ++ ['\n']))) =
        .ok (contains SortedMap.empty ('=' :: wordsText ws), []) := by
      rw [hbehind, ifCondition, if_neg (by simp [peek]), eatLine_append hnewline]
      rfl
    rw [ifRecord, hcond] at hrecord
    rw [load_of_nextRecord hne hrecord, load_empty] at hload
    cases hload
  · split at hrecord
    · rw [load_of_error hne hrecord] at hload
      cases hload
    · split at hrecord
      · rw [load_of_error hne hrecord] at hload
        cases hload
      · split at hrecord
        · rename_i hcond
          cases hcond
        · split at hrecord
          · rw [includeRecord, hbehind, eatLine_append hnewline] at hrecord
            rw [load_of_error hne hrecord] at hload
            cases hload
          · rename_i hif helse hendif _ hinclude
            rcases hkeyword with h | h | h | h
            · exact hif h
            · exact helse h
            · exact hendif h
            · exact hinclude h

/-- A list that would go on in the next line, where there is none. -/
theorem eatLines_open {t : Str} (ht : '\n' ∉ t) (hlast : t.getLast? = some '\\') (n : Nat) :
    eatLines n (t ++ ['\n']) = .error .outOfBounds := by
  cases n with
  | zero => rfl
  | succ n =>
    rw [eatLines, eatLine_append ht]
    show (if t.getLast? = some '\\' then _ else _) = _
    rw [if_pos hlast]
    cases n <;> rfl

/-- What is read of the words. -/
theorem backslash_notMem_list (hws : ∀ w ∈ ws, IsWord w) {l : Strings} {p : Str}
    (h : eatList (eatSpace (wordsText ws ++ ['\n'])) = .ok (l, p)) :
    p = [] ∧ ∀ w ∈ l, '\\' ∉ w := by
  have hline := newline_notMem_words hws
  by_cases hlast : (wordsText ws).getLast? = some '\\'
  · -- the list goes on behind the end of the text
    exfalso
    have hspace : eatSpace (wordsText ws ++ ['\n']) = eatSpace (wordsText ws) ++ ['\n'] := by
      rw [eatSpace, List.dropWhile_append]
      split
      · rename_i hempty
        rw [eatSpace, List.isEmpty_iff.mp hempty]
        rfl
      · rfl
    have hsuffix : eatSpace (wordsText ws) <:+ wordsText ws := List.dropWhile_suffix _
    have hne : eatSpace (wordsText ws) ≠ [] := by
      intro hnil
      have hall := List.dropWhile_eq_nil_iff.mp hnil '\\' (List.mem_of_getLast? hlast)
      exact absurd hall (by decide)
    have hlast' : (eatSpace (wordsText ws)).getLast? = some '\\' := by
      obtain ⟨pre, hpre⟩ := hsuffix
      rw [← hpre, List.getLast?_append_of_ne_nil _ hne] at hlast
      exact hlast
    rw [hspace, eatList, eatLines_open (fun h => hline (hsuffix.subset h)) hlast'] at h
    cases h
  · have hlist := ListText.eatList_text ⟨wordsText ws, hline, hlast⟩ []
    rw [h] at hlist
    cases hlist
    exact ⟨rfl, fun w hw hmem => (isPiece_of_mem_splitString hw).chars '\\' hmem (by decide)⟩

theorem not_lineAssigns_backslash (hname : IsIdentifier name) (hws : ∀ w ∈ ws, IsWord w)
    (hkeyword : ¬ TakenForKeyword name) {w : Str} (hw : w ∈ ws) (hback : '\\' ∈ w) :
    ¬ LineAssigns name ws := by
  intro h
  obtain ⟨v, hload, hvalue⟩ := h.alone
  simp only [TakenForKeyword, not_or] at hkeyword
  obtain ⟨hif, helse, hendif, hinclude⟩ := hkeyword
  have hne := assignmentLine_alone_ne_nil name ws
  have hrecord := nextRecord_alone ws hname
  have hcond : ¬ parseCond [] = false := by decide
  have hequals : eatSpace (' ' :: '=' :: (wordsText ws ++ ['\n'])) =
      '=' :: (wordsText ws ++ ['\n']) := by
    rw [eatSpace_blank, eatSpace_cons (.inl (by decide))]
  rw [tokenRecord, if_neg hif, if_neg helse, if_neg hendif, if_neg hcond, if_neg hinclude,
    variableRecord, hequals] at hrecord
  change _ = (eatList (eatSpace (wordsText ws ++ ['\n'])) >>= fun q =>
    .ok ((⟨SortedMap.empty.update name [] fun _ => q.1, []⟩ : MakefileAm), q.2)) at hrecord
  cases hlist : eatList (eatSpace (wordsText ws ++ ['\n'])) with
  | error e =>
    rw [hlist] at hrecord
    rw [load_of_error hne hrecord] at hload
    cases hload
  | ok q =>
    obtain ⟨l, p⟩ := q
    obtain ⟨rfl, hno⟩ := backslash_notMem_list hws hlist
    rw [hlist] at hrecord
    rw [load_of_nextRecord hne hrecord, load_empty] at hload
    cases hload
    rw [SortedMap.lookup_update, if_pos rfl] at hvalue
    cases hvalue
    exact hno w hw hback

/-- **`NAME = w1 ... wn`** assigns the words exactly where the name does not begin with `if`, `else`,
`endif` or `include`, and no word has a backslash. -/
theorem assignmentLine_iff (hname : IsIdentifier name) (hws : ∀ w ∈ ws, IsWord w) :
    LineAssigns name ws ↔ ¬ TakenForKeyword name ∧ ∀ w ∈ ws, '\\' ∉ w := by
  constructor
  · intro h
    have hkeyword : ¬ TakenForKeyword name := fun hk => not_lineAssigns_keyword hname hws hk h
    exact ⟨hkeyword, fun w hw hback => not_lineAssigns_backslash hname hws hkeyword hw hback h⟩
  · rintro ⟨hkeyword, hback⟩
    exact lineAssigns hname hws hkeyword hback

/-- `_src2 = a.c b.c` -/
theorem assignmentLine_iff_src :
    LineAssigns ['_', 's', 'r', 'c', '2'] [['a', '.', 'c'], ['b', '.', 'c']] := by
  have hname : IsIdentifier ['_', 's', 'r', 'c', '2'] :=
    ⟨⟨'_', _, rfl, rfl⟩, by simp⟩
  have hws : ∀ w ∈ [['a', '.', 'c'], ['b', '.', 'c']], IsWord w := by
    intro w hw
    simp only [List.mem_cons, List.not_mem_nil, or_false] at hw
    rcases hw with rfl | rfl
    · exact ⟨List.cons_ne_nil _ _, by simp [isSpace]⟩
    · exact ⟨List.cons_ne_nil _ _, by simp [isSpace]⟩
  exact (assignmentLine_iff hname hws).mpr ⟨by decide, by simp⟩

/-- `iface = eth0`: nothing is assigned, and a conditional is open. -/
theorem iface_not_assigned :
    ¬ LineAssigns ['i', 'f', 'a', 'c', 'e'] [['e', 't', 'h', '0']] := by
  have hname : IsIdentifier ['i', 'f', 'a', 'c', 'e'] := ⟨⟨'i', _, rfl, rfl⟩, by simp⟩
  have hws : ∀ w ∈ [['e', 't', 'h', '0']], IsWord w := by
    intro w hw
    rw [List.mem_singleton] at hw
    rw [hw]
    exact ⟨List.cons_ne_nil _ _, by simp [isSpace]⟩
  exact not_lineAssigns_keyword hname hws (by decide)

end Primitives.Makefile
