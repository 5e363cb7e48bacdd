import Mathlib.Data.Bool.AllAny
import Primitives.Lib.Fallible
import Primitives.Makefile.Words

/-!
# Makefile.am — lines

What a record reads is a line, for each kind of line: blanks, a comment, an assignment, and the lines
of a conditional. A line's parts carry what makes them such parts, so that a line can only be built
right.
-/

set_option autoImplicit false

namespace Primitives.Makefile

open Lib

/-! ## Reading -/

theorem eatSpace_append {b : Str} (hb : ∀ c ∈ b, isSpace c = true ∧ c ≠ '\n') (s : Str) :
    eatSpace (b ++ s) = eatSpace s := by
  refine List.dropWhile_append_of_pos fun c hc => ?_
  obtain ⟨hspace, hne⟩ := hb c hc
  rw [hspace, Bool.true_and]
  exact decide_eq_true hne

theorem eatSpace_cons {c : Char} (h : isSpace c = false ∨ c = '\n') (s : Str) :
    eatSpace (c :: s) = c :: s := by
  refine List.dropWhile_cons_of_neg ?_
  rcases h with h | h <;> simp [h]

theorem eatWhileNot_append {stop : Char → Bool} {t : Str} (ht : ∀ c ∈ t, stop c = false) {d : Char}
    (hd : stop d = true) (s : Str) : eatWhileNot stop (t ++ d :: s) = .ok (t, d :: s) := by
  induction t with
  | nil =>
    show (if stop d then _ else _) = _
    rw [if_pos hd]
  | cons c t ih =>
    have hc : ¬ stop c = true := by
      rw [ht c List.mem_cons_self]
      exact Bool.false_ne_true
    rw [List.cons_append, eatWhileNot, if_neg hc, ih fun c hc => ht c (List.mem_cons_of_mem _ hc)]
    rfl

theorem eatLine_append {t : Str} (ht : '\n' ∉ t) (s : Str) : eatLine (t ++ '\n' :: s) = .ok (t, s) := by
  have hstop : ∀ c ∈ t, decide (c = '\n') = false := by
    intro c hc
    refine decide_eq_false fun h => ?_
    exact ht (h ▸ hc)
  show (eatWhileNot (· = '\n') (t ++ '\n' :: s) >>= fun q => .ok (q.1, q.2.tail)) = _
  rw [eatWhileNot_append hstop (decide_eq_true rfl)]
  rfl

theorem eatToken_append {t : Str} (ht : ∀ c ∈ t, tokenEnd c = false) {d : Char}
    (hd : tokenEnd d = true) (s : Str) : eatToken (t ++ d :: s) = .ok (t, d :: s) :=
  eatWhileNot_append ht hd s

theorem isSpace_of_tokenEnd {c : Char} (h : tokenEnd c = false) : isSpace c = false := by
  simp only [tokenEnd, Bool.or_eq_false_iff] at h
  exact h.1.1.2

/-! ## Every record reads something -/

theorem length_eatWhileNot {stop : Char → Bool} {p p' t : Str}
    (h : eatWhileNot stop p = .ok (t, p')) : 0 < p'.length ∧ p'.length ≤ p.length := by
  induction p generalizing t with
  | nil => cases h
  | cons c p ih =>
    rw [eatWhileNot] at h
    split at h
    · cases h
      exact ⟨Nat.succ_pos _, Nat.le_refl _⟩
    · obtain ⟨⟨res, q⟩, hres, hq⟩ := of_bind_eq_ok h
      cases hq
      obtain ⟨hpos, hle⟩ := ih hres
      exact ⟨hpos, Nat.le_succ_of_le hle⟩

theorem length_eatLine {p p' t : Str} (h : eatLine p = .ok (t, p')) : p'.length < p.length := by
  obtain ⟨⟨res, q⟩, hres, hq⟩ := of_bind_eq_ok h
  cases hq
  obtain ⟨hpos, hle⟩ := length_eatWhileNot hres
  rw [List.length_tail]
  omega

theorem length_eatSpace (p : Str) : (eatSpace p).length ≤ p.length :=
  (List.dropWhile_suffix _).length_le

theorem length_eatLines {n : Nat} {p p' t : Str} (h : eatLines n p = .ok (t, p')) :
    p'.length < p.length := by
  induction n generalizing p t with
  | zero => cases h
  | succ n ih =>
    obtain ⟨⟨line, q⟩, hline, hq⟩ := of_bind_eq_ok h
    have hlt := length_eatLine hline
    dsimp only at hq
    split at hq
    · obtain ⟨⟨lines, r⟩, hlines, hr⟩ := of_bind_eq_ok hq
      cases hr
      exact (ih hlines).trans hlt
    · cases hq
      exact hlt

theorem length_eatList {p p' : Str} {l : Strings} (h : eatList p = .ok (l, p')) :
    p'.length < p.length := by
  obtain ⟨⟨text, q⟩, htext, hq⟩ := of_bind_eq_ok h
  cases hq
  exact length_eatLines htext

theorem length_eatCommandLines {n : Nat} {p p' : Str} {l : Strings}
    (h : eatCommandLines n p = .ok (l, p')) : p'.length ≤ p.length := by
  induction n generalizing p l with
  | zero =>
    cases h
    exact Nat.le_refl _
  | succ n ih =>
    rw [eatCommandLines] at h
    split at h
    · obtain ⟨⟨line, q⟩, hline, hq⟩ := of_bind_eq_ok h
      obtain ⟨⟨l', r⟩, hl', hr⟩ := of_bind_eq_ok hq
      cases hr
      have hlt : q.length < p.tail.length := length_eatLine hline
      have hle : p'.length ≤ q.length := ih hl'
      rw [List.length_tail] at hlt
      show p'.length ≤ p.length
      omega
    · cases h
      exact Nat.le_refl _

theorem length_eatCommands {p p' : Str} {l : Strings} (h : eatCommands p = .ok (l, p')) :
    p'.length < p.length := by
  obtain ⟨⟨line, q⟩, hline, hq⟩ := of_bind_eq_ok h
  exact (length_eatCommandLines hq).trans_lt (length_eatLine hline)

theorem length_variableRecord {m m' : MakefileAm} {line p p' : Str}
    (h : variableRecord m line p = .ok (m', p')) : p'.length < p.length := by
  have hspace := length_eatSpace p
  rw [variableRecord] at h
  dsimp only at h
  split at h
  · obtain ⟨⟨list, q⟩, hlist, hq⟩ := of_bind_eq_ok h
    cases hq
    have hlt : q.length < _ := length_eatList hlist
    have hle := length_eatSpace (eatSpace p).tail
    rw [List.length_tail] at hle
    show q.length < p.length
    omega
  · split at h
    · obtain ⟨⟨list, q⟩, hlist, hq⟩ := of_bind_eq_ok h
      cases hq
      exact (length_eatCommands hlist).trans_le hspace
    · split at h
      · obtain ⟨⟨list, q⟩, hlist, hq⟩ := of_bind_eq_ok h
        cases hq
        have hlt : q.length < _ := length_eatList hlist
        have hle := length_eatSpace (eatSpace p).tail.tail
        rw [List.length_tail, List.length_tail] at hle
        show q.length < p.length
        omega
      · cases h

theorem length_ifRecord {m m' : MakefileAm} {p p' : Str} (h : ifRecord m p = .ok (m', p')) :
    p'.length < p.length := by
  obtain ⟨⟨holds, q⟩, hcond, hq⟩ := of_bind_eq_ok h
  cases hq
  have hspace := length_eatSpace p
  rw [ifCondition] at hcond
  split at hcond
  · obtain ⟨⟨cond, r⟩, hline, hr⟩ := of_bind_eq_ok hcond
    cases hr
    have hlt := length_eatLine hline
    rw [List.length_tail] at hlt
    omega
  · obtain ⟨⟨cond, r⟩, hline, hr⟩ := of_bind_eq_ok hcond
    cases hr
    exact (length_eatLine hline).trans_le hspace

section

variable {loadFile : Str → MakefileAm → Except Failure MakefileAm} {m m' : MakefileAm} {p p' : Str}

theorem length_tokenRecord {line : Str} (h : tokenRecord loadFile m line p = .ok (m', p')) :
    p'.length < p.length := by
  rw [tokenRecord] at h
  split at h
  · exact length_ifRecord h
  split at h
  · rw [elseRecord] at h
    split at h
    · cases h
    · obtain ⟨⟨line, q⟩, hline, hq⟩ := of_bind_eq_ok h
      cases hq
      exact length_eatLine hline
  split at h
  · rw [endifRecord] at h
    split at h
    · cases h
    · obtain ⟨⟨line, q⟩, hline, hq⟩ := of_bind_eq_ok h
      cases hq
      exact length_eatLine hline
  split at h
  · obtain ⟨⟨line, q⟩, hline, hq⟩ := of_bind_eq_ok h
    cases hq
    exact length_eatLine hline
  split at h
  · obtain ⟨⟨file, q⟩, hline, hq⟩ := of_bind_eq_ok h
    obtain ⟨m₁, -, hm₁⟩ := of_bind_eq_ok hq
    cases hm₁
    exact (length_eatLine hline).trans_le (length_eatSpace p)
  · exact length_variableRecord h

/-- **Progress**: a record has a character at least. -/
theorem length_nextRecord (h : nextRecord loadFile m p = .ok (m', p')) : p'.length < p.length := by
  have hspace := length_eatSpace p
  rw [nextRecord] at h
  dsimp only at h
  split at h
  · obtain ⟨⟨line, q⟩, hline, hq⟩ := of_bind_eq_ok h
    cases hq
    exact (length_eatLine hline).trans_le hspace
  · have hskip : (if peek (eatSpace p) = '\x0d' then (eatSpace p).tail else eatSpace p).length ≤
        p.length := by
      split
      · rw [List.length_tail]
        omega
      · exact hspace
    generalize (if peek (eatSpace p) = '\x0d' then (eatSpace p).tail else eatSpace p) = r at h hskip
    split at h
    · obtain ⟨⟨line, q⟩, hline, hq⟩ := of_bind_eq_ok h
      cases hq
      exact (length_eatLine hline).trans_le hskip
    · obtain ⟨⟨line, q⟩, hline, hq⟩ := of_bind_eq_ok h
      exact (length_tokenRecord hq).trans_le ((length_eatWhileNot hline).2.trans hskip)

/-- So the bound on the records is never used up. -/
theorem loadRecords_of_le {n : Nat} {s : Str} (h : s.length ≤ n) :
    loadRecords loadFile n m s = load loadFile m s := by
  suffices key : ∀ k, s.length ≤ k → loadRecords loadFile n m s = loadRecords loadFile k m s from
    key s.length (Nat.le_refl _)
  induction n generalizing m s with
  | zero =>
    intro k hk
    rw [List.length_eq_zero_iff.mp (Nat.le_zero.mp h)]
    cases k <;> rfl
  | succ n ih =>
    intro k hk
    cases s with
    | nil => cases k <;> rfl
    | cons c s =>
      cases k with
      | zero => cases hk
      | succ k =>
        rw [loadRecords, loadRecords]
        cases hr : nextRecord loadFile m (c :: s) with
        | error e => rfl
        | ok r =>
          have hlt := length_nextRecord hr
          exact ih (by omega) k (by omega)

end

/-! ## The words of a list -/

/-- A character at the end is one at the end of the last part. -/
theorem splitOnP_concat {q : Char → Bool} {d : Char} (hd : q d = false) (s : Str) :
    ∃ ps last, s.splitOnP q = ps ++ [last] ∧ (s ++ [d]).splitOnP q = ps ++ [last ++ [d]] := by
  induction s with
  | nil =>
    refine ⟨[], [], List.splitOnP_nil, ?_⟩
    exact List.splitOnP_eq_singleton fun c hc => List.mem_singleton.mp hc ▸ hd
  | cons c s ih =>
    obtain ⟨ps, last, hs, hsd⟩ := ih
    rw [List.cons_append, List.splitOnP_cons_eq_if_modifyHead, List.splitOnP_cons_eq_if_modifyHead,
      hs, hsd]
    by_cases hc : q c = true
    · rw [if_pos hc, if_pos hc]
      exact ⟨[] :: ps, last, rfl, rfl⟩
    · rw [if_neg hc, if_neg hc]
      cases ps with
      | nil => exact ⟨[], c :: last, rfl, rfl⟩
      | cons p ps => exact ⟨(c :: p) :: ps, last, rfl, rfl⟩

theorem splitString_concat_newline (s : Str) :
    splitString (s ++ ['\n']) listDelims = splitString s listDelims := by
  obtain ⟨ps, last, hs, hsd⟩ := splitOnP_concat
    (q := fun c => decide (c ∈ listDelims)) (d := '\n') (by decide) s
  rw [splitString, splitString, hs, hsd, List.map_append, List.map_append, List.map_singleton,
    List.map_singleton, trim_concat (by decide)]

theorem splitString_cons_blank {c : Char} (hc : isSpace c = true) (s : Str) :
    splitString (c :: s) listDelims = splitString s listDelims := by
  rw [splitString, splitString, List.splitOnP_cons_eq_if_modifyHead]
  split
  · rfl
  · obtain ⟨p, ps, hps⟩ := List.exists_cons_of_ne_nil
      (List.splitOnP_ne_nil (fun c => decide (c ∈ listDelims)) s)
    rw [hps, List.modifyHead_cons, List.map_cons, List.map_cons, trim_cons hc]

theorem splitString_eatSpace (s : Str) :
    splitString (eatSpace s) listDelims = splitString s listDelims := by
  induction s with
  | nil => rfl
  | cons c s ih =>
    by_cases hc : isSpace c = true ∧ c ≠ '\n'
    · have hdrop : eatSpace (c :: s) = eatSpace s :=
        eatSpace_append (b := [c]) (fun d hd => List.mem_singleton.mp hd ▸ hc) s
      rw [hdrop, ih, splitString_cons_blank hc.1]
    · rw [eatSpace_cons]
      by_cases hs : isSpace c = true
      · exact .inr (not_not.mp fun hne => hc ⟨hs, hne⟩)
      · exact .inl (Bool.eq_false_iff.mpr hs)

/-- A word: without blanks, and without backslashes. -/
structure Word where
  text : Str
  ne_nil : text ≠ []
  chars : ∀ c ∈ text, isSpace c = false ∧ c ≠ '\\'

theorem Word.isPiece (w : Word) : IsPiece listDelims w.text where
  ne_nil := w.ne_nil
  trimmed := ⟨fun c hc => (w.chars c (List.mem_of_head? hc)).1,
    fun c hc => (w.chars c (List.mem_of_getLast? hc)).1⟩
  chars := by
    intro c hc hmem
    obtain ⟨hspace, hne⟩ := w.chars c hc
    simp only [listDelims, List.mem_cons, List.not_mem_nil, or_false] at hmem
    rcases hmem with rfl | rfl | rfl
    · exact Bool.false_ne_true (hspace.symm.trans (by decide))
    · exact Bool.false_ne_true (hspace.symm.trans (by decide))
    · exact hne rfl

theorem Word.splitString_text (w : Word) : splitString w.text listDelims = [w.text] :=
  w.isPiece.splitString_eq

/-- **The words of a text** that are set apart by blanks are its list. -/
theorem splitString_words (first : Word) (rest : List (Char × Str × Word))
    (h : ∀ p ∈ rest, p.1 ∈ listDelims ∧ ∀ c ∈ p.2.1, c ∈ listDelims) :
    splitString (first.text ++ rest.flatMap fun p => p.1 :: (p.2.1 ++ p.2.2.text)) listDelims =
      first.text :: rest.map fun p => p.2.2.text := by
  induction rest generalizing first with
  | nil => rw [List.flatMap_nil, List.append_nil, first.splitString_text, List.map_nil]
  | cons p rest ih =>
    obtain ⟨c, gap, w⟩ := p
    obtain ⟨hc, hgap⟩ := h _ List.mem_cons_self
    have hdrop : ∀ b : Str, (∀ c ∈ b, c ∈ listDelims) → ∀ t,
        splitString (b ++ t) listDelims = splitString t listDelims := by
      intro b
      induction b with
      | nil => exact fun _ t => rfl
      | cons d b ihb =>
        intro hb t
        rw [List.cons_append, ← List.nil_append (d :: (b ++ t)),
          splitString_append_cons (hb d List.mem_cons_self),
          ihb (fun c hc => hb c (List.mem_cons_of_mem _ hc))]
        rfl
    rw [List.flatMap_cons, List.cons_append, splitString_append_cons hc, first.splitString_text,
      List.append_assoc, hdrop gap hgap, ih w fun p hp => h p (List.mem_cons_of_mem _ hp)]
    rfl

/-! ## Lines -/

/-- Blanks inside of a line. -/
structure Blanks where
  text : Str
  blank : ∀ c ∈ text, isSpace c = true ∧ c ≠ '\n'

/-- What stands behind `#`. -/
structure Remark where
  text : Str
  line : '\n' ∉ text

/-- What stands behind the `=` of an assignment: it does not go on in the next line. -/
structure ListText where
  text : Str
  line : '\n' ∉ text
  whole : text.getLast? ≠ some '\\'

/-- What `eat_token` reads at the start of a record. -/
structure IsToken (t : Str) : Prop where
  ne_nil : t ≠ []
  chars : ∀ c ∈ t, tokenEnd c = false
  notRemark : t.head? ≠ some '#'

/-- The name of a variable. -/
structure Name where
  text : Str
  token : IsToken text
  notIf : ¬ wordIf <+: text
  notElse : ¬ wordElse <+: text
  notEndif : ¬ wordEndif <+: text
  notInclude : ¬ wordInclude <+: text

/-- `NAME = words`, or `NAME += words`. -/
structure Assignment where
  lead : Blanks
  name : Name
  gap : Blanks
  append : Bool
  list : ListText

/-- `if COND`, or `if !COND`. -/
structure IfLine where
  lead : Blanks
  gap : Blanks
  gap_ne_nil : gap.text ≠ []
  negated : Bool
  cond : Str
  line : '\n' ∉ cond
  start : negated = false → ∀ c ∈ cond.head?, isSpace c = false ∧ c ≠ '!'

/-- `else` or `endif`, and what may stand behind the word. -/
structure WordLine where
  lead : Blanks
  tail : Str
  line : '\n' ∉ tail
  start : ∀ c ∈ tail.head?, tokenEnd c = true

def blankLine (lead : Blanks) : Str := lead.text ++ ['\n']

def Remark.print (lead : Blanks) (r : Remark) : Str := lead.text ++ '#' :: (r.text ++ ['\n'])

namespace Assignment

def operator (a : Assignment) : Str := if a.append then ['+', '='] else ['=']

def print (a : Assignment) : Str :=
  a.lead.text ++ (a.name.text ++ (a.gap.text ++ (a.operator ++ (a.list.text ++ ['\n']))))

/-- What an assignment does. -/
def apply (v : Variables) (a : Assignment) : Variables :=
  v.update a.name.text [] fun old =>
    let words := splitString a.list.text listDelims
    if a.append then old ++ words else words

end Assignment

def IfLine.print (l : IfLine) : Str :=
  l.lead.text ++ (wordIf ++ (l.gap.text ++
    ((if l.negated then ['!'] else []) ++ (l.cond ++ ['\n']))))

/-- A branch is taken if its condition is a variable, or is not. -/
def IfLine.holds (l : IfLine) (v : Variables) : Bool := contains v l.cond != l.negated

def WordLine.print (word : Str) (l : WordLine) : Str := l.lead.text ++ (word ++ (l.tail ++ ['\n']))

/-! ## What is done for a line -/

variable {loadFile : Str → MakefileAm → Except Failure MakefileAm}

theorem nextRecord_blank (m : MakefileAm) (lead : Blanks) (s : Str) :
    nextRecord loadFile m (blankLine lead ++ s) = .ok (m, s) := by
  have hspace : eatSpace (blankLine lead ++ s) = '\n' :: s := by
    rw [blankLine, List.append_assoc, eatSpace_append lead.blank]
    exact eatSpace_cons (.inr rfl) s
  have hline : eatLine ('\n' :: s) = .ok ([], s) := eatLine_append (List.not_mem_nil) s
  rw [nextRecord, hspace]
  show (eatLine ('\n' :: s) >>= fun q => .ok (m, q.2)) = _
  rw [hline]
  rfl

theorem nextRecord_remark (m : MakefileAm) (lead : Blanks) (r : Remark) (s : Str) :
    nextRecord loadFile m (r.print lead ++ s) = .ok (m, s) := by
  have hspace : eatSpace (r.print lead ++ s) = '#' :: r.text ++ '\n' :: s := by
    rw [Remark.print, List.append_assoc, eatSpace_append lead.blank, List.cons_append,
      eatSpace_cons (.inl (by decide)), List.append_assoc]
    rfl
  have hline : eatLine ('#' :: r.text ++ '\n' :: s) = .ok ('#' :: r.text, s) := by
    refine eatLine_append ?_ s
    rw [List.mem_cons, not_or]
    exact ⟨by decide, r.line⟩
  rw [nextRecord, hspace]
  show (eatLine ('#' :: r.text ++ '\n' :: s) >>= fun q => .ok (m, q.2)) = _
  rw [hline]
  rfl

theorem isToken_if : IsToken wordIf :=
  ⟨List.cons_ne_nil _ _, List.all_iff_forall_prop.mp (by decide), by decide⟩

theorem isToken_else : IsToken wordElse :=
  ⟨List.cons_ne_nil _ _, List.all_iff_forall_prop.mp (by decide), by decide⟩

theorem isToken_endif : IsToken wordEndif :=
  ⟨List.cons_ne_nil _ _, List.all_iff_forall_prop.mp (by decide), by decide⟩

/-- A record that begins with a token. -/
theorem nextRecord_token (m : MakefileAm) (lead : Blanks) {t : Str} (ht : IsToken t) {d : Char}
    (hd : tokenEnd d = true) (s : Str) :
    nextRecord loadFile m (lead.text ++ (t ++ d :: s)) = tokenRecord loadFile m t (d :: s) := by
  obtain ⟨c, t', rfl⟩ := List.exists_cons_of_ne_nil ht.ne_nil
  have hspace : isSpace c = false := isSpace_of_tokenEnd (ht.chars c List.mem_cons_self)
  have hc : c ≠ '#' := fun h => ht.notRemark (congrArg some h)
  have hr : c ≠ '\x0d' := fun h => Bool.false_ne_true (hspace.symm.trans (h ▸ by decide))
  have hn : c ≠ '\n' := fun h => Bool.false_ne_true (hspace.symm.trans (h ▸ by decide))
  have hp : eatSpace (lead.text ++ (c :: t' ++ d :: s)) = c :: t' ++ d :: s := by
    rw [eatSpace_append lead.blank]
    exact eatSpace_cons (.inl hspace) _
  rw [nextRecord, hp]
  simp only [List.cons_append, peek, hc, hr, hn, if_false]
  rw [← List.cons_append, eatToken_append ht.chars hd s]
  rfl

/-- A line that begins with a word of its own. -/
theorem WordLine.nextRecord_print (m : MakefileAm) (l : WordLine) {word : Str}
    (hword : IsToken word) (s : Str) :
    nextRecord loadFile m (l.print word ++ s) =
      tokenRecord loadFile m word (l.tail ++ '\n' :: s) := by
  have hprint : l.print word ++ s = l.lead.text ++ (word ++ (l.tail ++ '\n' :: s)) := by
    simp [WordLine.print]
  rw [hprint]
  cases htail : l.tail with
  | nil => exact nextRecord_token m l.lead hword (by decide) s
  | cons d tail =>
    have hd : tokenEnd d = true := l.start d (by rw [htail]; rfl)
    exact nextRecord_token m l.lead hword hd _

/-- `else`: the other branch. -/
theorem WordLine.nextRecord_else (v : Variables) (d : IfDesc) (ifStack : List IfDesc) (l : WordLine)
    (s : Str) :
    nextRecord loadFile ⟨v, d :: ifStack⟩ (l.print wordElse ++ s) =
      .ok (⟨v, d.switchToElse :: ifStack⟩, s) := by
  rw [l.nextRecord_print _ isToken_else]
  show (eatLine (l.tail ++ '\n' :: s) >>= fun q =>
    .ok ((⟨v, d.switchToElse :: ifStack⟩ : MakefileAm), q.2)) = _
  rw [eatLine_append l.line]
  rfl

/-- `endif`: the conditional is closed. -/
theorem WordLine.nextRecord_endif (v : Variables) (d : IfDesc) (ifStack : List IfDesc)
    (l : WordLine) (s : Str) :
    nextRecord loadFile ⟨v, d :: ifStack⟩ (l.print wordEndif ++ s) = .ok (⟨v, ifStack⟩, s) := by
  rw [l.nextRecord_print _ isToken_endif]
  show (eatLine (l.tail ++ '\n' :: s) >>= fun q => .ok ((⟨v, ifStack⟩ : MakefileAm), q.2)) = _
  rw [eatLine_append l.line]
  rfl

theorem IfLine.ifCondition_print (l : IfLine) (v : Variables) (s : Str) :
    ifCondition v (eatSpace ((if l.negated then ['!'] else []) ++ (l.cond ++ '\n' :: s))) =
      .ok (l.holds v, s) := by
  cases hneg : l.negated with
  | true =>
    have hbang : eatSpace ('!' :: (l.cond ++ '\n' :: s)) = '!' :: (l.cond ++ '\n' :: s) :=
      eatSpace_cons (.inl (by decide)) _
    rw [if_pos rfl, List.singleton_append, hbang]
    show (eatLine (l.cond ++ '\n' :: s) >>= fun q => .ok (!contains v q.1, q.2)) = _
    rw [eatLine_append l.line, IfLine.holds, hneg, Bool.bne_true]
    rfl
  | false =>
    rw [if_neg Bool.false_ne_true, List.nil_append]
    have hstop : eatSpace (l.cond ++ '\n' :: s) = l.cond ++ '\n' :: s ∧
        peek (l.cond ++ '\n' :: s) ≠ '!' := by
      cases hc : l.cond with
      | nil =>
        have hne : '\n' ≠ '!' := by decide
        exact ⟨eatSpace_cons (.inr rfl) s, hne⟩
      | cons c t =>
        obtain ⟨hspace, hne⟩ := l.start hneg c (by rw [hc]; rfl)
        exact ⟨eatSpace_cons (.inl hspace) _, hne⟩
    rw [hstop.1, ifCondition, if_neg hstop.2, eatLine_append l.line, IfLine.holds, hneg,
      Bool.bne_false]
    rfl

/-- `if`: the branches are decided, and in a branch that is not taken none is. -/
theorem IfLine.nextRecord_print (v : Variables) (ifStack : List IfDesc) (l : IfLine) (s : Str) :
    nextRecord loadFile ⟨v, ifStack⟩ (l.print ++ s) =
      .ok (⟨v, ⟨true, l.holds v && parseCond ifStack, !(l.holds v) && parseCond ifStack⟩ :: ifStack⟩,
        s) := by
  obtain ⟨b, gap, hgap⟩ := List.exists_cons_of_ne_nil l.gap_ne_nil
  have hb : tokenEnd b = true := by
    have := (l.gap.blank b (hgap ▸ List.mem_cons_self)).1
    simp [tokenEnd, this]
  have hprint : l.print ++ s = l.lead.text ++ (wordIf ++ b :: (gap ++
      ((if l.negated then ['!'] else []) ++ (l.cond ++ '\n' :: s)))) := by
    simp [IfLine.print, hgap]
  have hbranch : (!(l.holds v && parseCond ifStack) && parseCond ifStack) =
      (!(l.holds v) && parseCond ifStack) := by
    cases parseCond ifStack
    · rw [Bool.and_false, Bool.and_false]
    · simp only [Bool.and_true]
  rw [hprint, nextRecord_token _ l.lead isToken_if hb]
  show ifRecord ⟨v, ifStack⟩
    (b :: gap ++ ((if l.negated then ['!'] else []) ++ (l.cond ++ '\n' :: s))) = _
  rw [← hgap, ifRecord, eatSpace_append l.gap.blank, l.ifCondition_print]
  show Except.ok _ = _
  rw [hbranch]

/-- The text of a list, up to the end of its line. -/
theorem ListText.eatList_text (l : ListText) (s : Str) :
    eatList (eatSpace (l.text ++ '\n' :: s)) = .ok (splitString l.text listDelims, s) := by
  have hsuffix : eatSpace l.text <:+ l.text := List.dropWhile_suffix _
  have hspace : eatSpace (l.text ++ '\n' :: s) = eatSpace l.text ++ '\n' :: s := by
    rw [eatSpace, List.dropWhile_append]
    split
    · rename_i hempty
      rw [eatSpace, List.isEmpty_iff.mp hempty]
      rfl
    · rfl
  have hline : '\n' ∉ eatSpace l.text := fun h => l.line (hsuffix.subset h)
  have hwhole : (eatSpace l.text).getLast? ≠ some '\\' := by
    intro h
    obtain ⟨pre, hpre⟩ := hsuffix
    refine l.whole ?_
    rw [← hpre, List.getLast?_append, h]
    rfl
  have hlines : eatLines (eatSpace l.text ++ '\n' :: s).length (eatSpace l.text ++ '\n' :: s) =
      .ok (eatSpace l.text ++ ['\n'], s) := by
    rw [List.length_append, List.length_cons, ← Nat.add_assoc, eatLines, eatLine_append hline]
    show (if (eatSpace l.text).getLast? = some '\\' then _ else _) = _
    rw [if_neg hwhole]
    rfl
  rw [hspace, eatList, hlines]
  show Except.ok (splitString (eatSpace l.text ++ ['\n']) listDelims, s) = _
  rw [splitString_concat_newline, splitString_eatSpace]

namespace Assignment

/-- What stands behind the name. -/
def behind (a : Assignment) : Str := a.gap.text ++ (a.operator ++ a.list.text)

theorem noNewline_behind (a : Assignment) : '\n' ∉ a.behind := by
  have hop : '\n' ∉ a.operator := by
    rw [operator]
    cases a.append <;> decide
  simp only [behind, List.mem_append, not_or]
  exact ⟨fun h => (a.gap.blank _ h).2 rfl, hop, a.list.line⟩

/-- The name is the token. -/
theorem nextRecord_eq (m : MakefileAm) (a : Assignment) (s : Str) :
    nextRecord loadFile m (a.print ++ s) =
      tokenRecord loadFile m a.name.text (a.behind ++ '\n' :: s) := by
  have hprint : a.print ++ s = a.lead.text ++ (a.name.text ++ (a.behind ++ '\n' :: s)) := by
    simp [print, behind]
  have hstart : ∃ d t, a.behind ++ '\n' :: s = d :: t ∧ tokenEnd d = true := by
    rw [behind]
    cases hgap : a.gap.text with
    | nil =>
      rw [operator]
      cases a.append with
      | true => exact ⟨'+', _, rfl, by decide⟩
      | false => exact ⟨'=', _, rfl, by decide⟩
    | cons d t =>
      refine ⟨d, _, rfl, ?_⟩
      have := (a.gap.blank d (hgap ▸ List.mem_cons_self)).1
      simp [tokenEnd, this]
  obtain ⟨d, t, ht, hd⟩ := hstart
  rw [hprint, ht]
  exact nextRecord_token m a.lead a.name.token hd t

/-- In a branch that is not taken an assignment is skipped. -/
theorem nextRecord_skipped {v : Variables} {ifStack : List IfDesc} (h : parseCond ifStack = false)
    (a : Assignment) (s : Str) :
    nextRecord loadFile ⟨v, ifStack⟩ (a.print ++ s) = .ok (⟨v, ifStack⟩, s) := by
  rw [nextRecord_eq, tokenRecord, if_neg a.name.notIf, if_neg a.name.notElse,
    if_neg a.name.notEndif, if_pos h, eatLine_append a.noNewline_behind]
  rfl

/-- Elsewhere it is done. -/
theorem nextRecord_done {v : Variables} {ifStack : List IfDesc} (h : parseCond ifStack = true)
    (a : Assignment) (s : Str) :
    nextRecord loadFile ⟨v, ifStack⟩ (a.print ++ s) = .ok (⟨a.apply v, ifStack⟩, s) := by
  rw [nextRecord_eq, tokenRecord, if_neg a.name.notIf, if_neg a.name.notElse,
    if_neg a.name.notEndif, if_neg (by rw [h]; decide), if_neg a.name.notInclude]
  have hbehind : a.behind ++ '\n' :: s = a.gap.text ++ (a.operator ++ (a.list.text ++ '\n' :: s)) := by
    simp [behind]
  rw [hbehind, variableRecord, eatSpace_append a.gap.blank, apply, operator]
  cases a.append with
  | false =>
    rw [if_neg Bool.false_ne_true, List.singleton_append, eatSpace_cons (.inl (by decide))]
    show (eatList (eatSpace (a.list.text ++ '\n' :: s)) >>= fun q =>
      .ok ((⟨v.update a.name.text [] fun _ => q.1, ifStack⟩ : MakefileAm), q.2)) = _
    rw [a.list.eatList_text]
    rfl
  | true =>
    rw [if_pos rfl, List.cons_append, List.singleton_append, eatSpace_cons (.inl (by decide))]
    show (eatList (eatSpace (a.list.text ++ '\n' :: s)) >>= fun q =>
      .ok ((⟨v.update a.name.text [] (· ++ q.1), ifStack⟩ : MakefileAm), q.2)) = _
    rw [a.list.eatList_text]
    rfl

end Assignment

end Primitives.Makefile
