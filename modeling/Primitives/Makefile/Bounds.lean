import Mathlib.Logic.Relation
import Primitives.Makefile.Lines

/-!
# Makefile.am — the end of the text

Every helper reads up to a stop character of its own and none stops at the zero behind the text; the
check for the end comes once a record. `RecordEnds` says of a record, from what stands there and the
stack of the conditionals, whether its reading stays within the text: a line has to be ended by a
newline, a list by one that does not follow a backslash, commands by one that no tabulator follows,
and an `else` or `endif` has to find a conditional. `defined_nextRecord` shows this form by form, and
`defined_load_iff` over the whole of a text and the files that it includes.
-/

set_option autoImplicit false

namespace Primitives.Makefile

open Lib

/-! ## Undefined behaviour -/

/-- Nothing was read behind the text and no empty stack was looked at. An exception may be thrown. -/
def Defined {α : Type} (x : Except Failure α) : Prop :=
  x ≠ .error .outOfBounds ∧ x ≠ .error .emptyStack

section

variable {α β : Type}

theorem defined_ok (a : α) : Defined (.ok a) := by
  constructor
  · intro h
    cases h
  · intro h
    cases h

theorem defined_runtimeError (what : String) :
    Defined (.error (.runtimeError what) : Except Failure α) := by
  constructor
  · intro h
    cases h
  · intro h
    cases h

theorem not_defined_outOfBounds : ¬ Defined (.error .outOfBounds : Except Failure α) :=
  fun h => h.1 rfl

theorem not_defined_emptyStack : ¬ Defined (.error .emptyStack : Except Failure α) :=
  fun h => h.2 rfl

/-- **A sequence** is defined where its parts are. -/
theorem defined_bind {x : Except Failure α} {f : α → Except Failure β} :
    Defined (x >>= f) ↔ Defined x ∧ ∀ a, x = .ok a → Defined (f a) := by
  cases x with
  | ok a =>
    constructor
    · intro h
      refine ⟨defined_ok a, fun b hb => ?_⟩
      cases hb
      exact h
    · exact fun h => h.2 a rfl
  | error e =>
    have hsame : Defined (.error e : Except Failure α) ↔ Defined (.error e : Except Failure β) := by
      cases e with
      | outOfBounds => exact iff_of_false not_defined_outOfBounds not_defined_outOfBounds
      | emptyStack => exact iff_of_false not_defined_emptyStack not_defined_emptyStack
      | runtimeError what => exact iff_of_true (defined_runtimeError what) (defined_runtimeError what)
    constructor
    · intro h
      refine ⟨hsame.mpr h, fun a ha => ?_⟩
      cases ha
    · exact fun h => hsame.mp h.1

/-- What comes after a reading and reads nothing does not matter. -/
theorem defined_bind_ok {x : Except Failure α} {f : α → Except Failure β} (h : ∀ a, ∃ b, f a = .ok b) :
    Defined (x >>= f) ↔ Defined x := by
  rw [defined_bind]
  refine ⟨fun hx => hx.1, fun hx => ⟨hx, fun a _ => ?_⟩⟩
  obtain ⟨b, hb⟩ := h a
  rw [hb]
  exact defined_ok b

theorem defined_mapError {x : Except String α} : Defined (x.mapError .runtimeError) := by
  cases x with
  | ok a => exact defined_ok a
  | error what => exact defined_runtimeError what

end

/-! ## Reading -/

theorem defined_eatWhileNot {stop : Char → Bool} {p : Str} :
    Defined (eatWhileNot stop p) ↔ ∃ c ∈ p, stop c = true := by
  induction p with
  | nil => exact iff_of_false not_defined_outOfBounds (by simp)
  | cons c p ih =>
    rw [eatWhileNot]
    split
    · rename_i hc
      exact iff_of_true (defined_ok _) ⟨c, List.mem_cons_self, hc⟩
    · rename_i hc
      refine (defined_bind_ok fun a => ⟨_, rfl⟩).trans (ih.trans ?_)
      constructor
      · rintro ⟨d, hd, hstop⟩
        exact ⟨d, List.mem_cons_of_mem c hd, hstop⟩
      · rintro ⟨d, hd, hstop⟩
        rcases List.mem_cons.mp hd with rfl | hd
        · exact absurd hstop hc
        · exact ⟨d, hd, hstop⟩

theorem defined_eatLine {p : Str} : Defined (eatLine p) ↔ '\n' ∈ p := by
  have hread : Defined (eatLine p) ↔ Defined (eatUntil '\n' p) := defined_bind_ok fun a => ⟨_, rfl⟩
  rw [hread, eatUntil, defined_eatWhileNot]
  simp

theorem mem_eatSpace {p : Str} : '\n' ∈ eatSpace p ↔ '\n' ∈ p := by
  refine ⟨fun h => (List.dropWhile_suffix _).subset h, fun h => ?_⟩
  rw [← List.takeWhile_append_dropWhile (p := fun c => isSpace c && c ≠ '\n') (l := p)] at h
  rcases List.mem_append.mp h with h | h
  · have hno := List.mem_takeWhile_imp h
    simp at hno
  · exact h

/-- A text with a newline begins with a line. -/
theorem exists_line {p : Str} (h : '\n' ∈ p) :
    ∃ line rest, p = line ++ '\n' :: rest ∧ '\n' ∉ line ∧ eatLine p = .ok (line, rest) := by
  obtain ⟨line, rest, rfl, hline⟩ := List.eq_append_cons_of_mem h
  exact ⟨line, rest, rfl, hline, eatLine_append hline rest⟩

/-- A newline of a text is the one of its first line or stands behind that. -/
theorem newline_cases {a b line rest : Str} (hline : '\n' ∉ line)
    (h : line ++ '\n' :: rest = a ++ '\n' :: b) :
    a = line ∧ b = rest ∨ ∃ a', a = line ++ '\n' :: a' ∧ rest = a' ++ '\n' :: b := by
  induction line generalizing a with
  | nil =>
    cases a with
    | nil => exact .inl ⟨rfl, (List.cons.inj h).2.symm⟩
    | cons c a =>
      obtain ⟨rfl, hrest⟩ := List.cons.inj h
      exact .inr ⟨a, rfl, hrest⟩
  | cons c line ih =>
    cases a with
    | nil => exact absurd (List.mem_cons.mpr (.inl (List.cons.inj h).1.symm)) hline
    | cons d a =>
      obtain ⟨rfl, htail⟩ := List.cons.inj h
      rcases ih (fun hmem => hline (List.mem_cons_of_mem _ hmem)) htail with ⟨rfl, rfl⟩ | ⟨a', rfl, hrest⟩
      · exact .inl ⟨rfl, rfl⟩
      · exact .inr ⟨a', rfl, hrest⟩

/-- A text with a character that ends a token begins with a token. -/
theorem eatToken_eq {p : Str} (h : ∃ c ∈ p, tokenEnd c = true) :
    eatToken p = .ok (p.takeWhile fun c => !tokenEnd c, p.dropWhile fun c => !tokenEnd c) := by
  induction p with
  | nil =>
    obtain ⟨c, hc, -⟩ := h
    cases hc
  | cons d p ih =>
    rw [eatToken, eatWhileNot]
    split
    · rename_i hd
      rw [List.takeWhile_cons_of_neg (by simpa using hd), List.dropWhile_cons_of_neg (by simpa using hd)]
    · rename_i hd
      have hp : ∃ c ∈ p, tokenEnd c = true := by
        obtain ⟨c, hc, hend⟩ := h
        rcases List.mem_cons.mp hc with rfl | hc
        · exact absurd hend hd
        · exact ⟨c, hc, hend⟩
      rw [List.takeWhile_cons_of_pos (by simpa using hd), List.dropWhile_cons_of_pos (by simpa using hd)]
      rw [show eatWhileNot tokenEnd p = _ from ih hp]
      rfl

/-- `\r` is space, which is skipped before it is looked for. -/
theorem peek_eatSpace (p : Str) : peek (eatSpace p) ≠ '\x0d' := by
  have hno := List.head?_dropWhile_not (fun c => isSpace c && c ≠ '\n') p
  rw [show p.dropWhile (fun c => isSpace c && c ≠ '\n') = eatSpace p from rfl] at hno
  cases hp : eatSpace p with
  | nil => decide
  | cons c rest =>
    rw [hp] at hno
    have hc : (isSpace c && c ≠ '\n') = false := hno
    rintro rfl
    exact absurd hc (by decide)

/-! ## Lists and commands -/

/-- A newline that does not follow a backslash. -/
def ListEnds (p : Str) : Prop := ∃ a b, p = a ++ '\n' :: b ∧ a.getLast? ≠ some '\\'

/-- A newline that no tabulator follows. -/
def CommandsEnd (p : Str) : Prop := ∃ a b, p = a ++ '\n' :: b ∧ peek b ≠ '\t'

theorem listEnds_line {line rest : Str} (hline : '\n' ∉ line) :
    ListEnds (line ++ '\n' :: rest) ↔ (line.getLast? = some '\\' → ListEnds rest) := by
  constructor
  · rintro ⟨a, b, h, hlast⟩ hback
    rcases newline_cases hline h with ⟨rfl, -⟩ | ⟨a', rfl, hrest⟩
    · exact absurd hback hlast
    · -- behind a newline `a'` is empty or ends as `a` does
      refine ⟨a', b, hrest, fun hlast' => hlast ?_⟩
      rw [List.getLast?_append, List.getLast?_cons, hlast']
      rfl
  · intro h
    by_cases hback : line.getLast? = some '\\'
    · obtain ⟨a, b, rfl, hlast⟩ := h hback
      refine ⟨line ++ '\n' :: a, b, by simp, ?_⟩
      rw [List.getLast?_append, List.getLast?_cons]
      cases ha : a.getLast? with
      | none => simp
      | some c =>
        rw [ha] at hlast
        exact hlast
    · exact ⟨line, rest, rfl, hback⟩

theorem commandsEnd_line {line rest : Str} (hline : '\n' ∉ line) :
    CommandsEnd (line ++ '\n' :: rest) ↔ (peek rest = '\t' → CommandsEnd rest.tail) := by
  constructor
  · rintro ⟨a, b, h, hpeek⟩ htab
    rcases newline_cases hline h with ⟨-, rfl⟩ | ⟨a', -, rfl⟩
    · exact absurd htab hpeek
    · cases a' with
      | nil => exact absurd (show '\n' = '\t' from htab) (by decide)
      | cons c a' => exact ⟨a', b, rfl, hpeek⟩
  · intro h
    by_cases htab : peek rest = '\t'
    · obtain ⟨a, b, hrest, hpeek⟩ := h htab
      cases rest with
      | nil => exact absurd htab (by decide)
      | cons c rest =>
        refine ⟨line ++ '\n' :: c :: a, b, ?_, hpeek⟩
        rw [show rest = a ++ '\n' :: b from hrest]
        simp
    · exact ⟨line, rest, rfl, htab⟩

theorem mem_of_listEnds {p : Str} (h : ListEnds p) : '\n' ∈ p := by
  obtain ⟨a, b, rfl, -⟩ := h
  exact List.mem_append_right a List.mem_cons_self

theorem mem_of_commandsEnd {p : Str} (h : CommandsEnd p) : '\n' ∈ p := by
  obtain ⟨a, b, rfl, -⟩ := h
  exact List.mem_append_right a List.mem_cons_self

theorem defined_eatLines {n : Nat} {p : Str} (hn : p.length ≤ n) :
    Defined (eatLines n p) ↔ ListEnds p := by
  induction n generalizing p with
  | zero =>
    obtain rfl := List.length_eq_zero_iff.mp (Nat.le_zero.mp hn)
    exact iff_of_false not_defined_outOfBounds fun h => List.not_mem_nil (mem_of_listEnds h)
  | succ n ih =>
    by_cases hmem : '\n' ∈ p
    · obtain ⟨line, rest, rfl, hline, hread⟩ := exists_line hmem
      have hrest : rest.length ≤ n := by
        rw [List.length_append, List.length_cons] at hn
        omega
      rw [listEnds_line hline, eatLines, hread]
      show Defined (if line.getLast? = some '\\' then _ else _) ↔ _
      split
      · -- the list goes on in the next line
        rename_i hback
        refine (defined_bind_ok fun a => ⟨_, rfl⟩).trans ((ih hrest).trans ?_)
        exact ⟨fun h _ => h, fun h => h hback⟩
      · rename_i hback
        exact iff_of_true (defined_ok _) fun h => absurd h hback
    · refine iff_of_false (fun h => hmem ?_) fun h => hmem (mem_of_listEnds h)
      exact defined_eatLine.mp (defined_bind.mp h).1

theorem defined_eatList {p : Str} : Defined (eatList p) ↔ ListEnds p :=
  (defined_bind_ok fun _ => ⟨_, rfl⟩).trans (defined_eatLines (Nat.le_refl _))

theorem defined_eatCommandLines {n : Nat} {p : Str} (hn : p.length ≤ n) :
    Defined (eatCommandLines n p) ↔ (peek p = '\t' → CommandsEnd p.tail) := by
  induction n generalizing p with
  | zero =>
    obtain rfl := List.length_eq_zero_iff.mp (Nat.le_zero.mp hn)
    exact iff_of_true (defined_ok _) fun h => absurd h (by decide)
  | succ n ih =>
    rw [eatCommandLines]
    split
    · rename_i htab
      by_cases hmem : '\n' ∈ p.tail
      · obtain ⟨line, rest, hp, hline, hread⟩ := exists_line hmem
        have hrest : rest.length ≤ n := by
          have hlen := congrArg List.length hp
          rw [List.length_tail, List.length_append, List.length_cons] at hlen
          omega
        rw [hread]
        refine (defined_bind_ok fun a => ⟨_, rfl⟩).trans ((ih hrest).trans ?_)
        rw [hp, commandsEnd_line hline]
        exact ⟨fun h _ => h, fun h => h htab⟩
      · refine iff_of_false (fun h => hmem ?_) fun h => hmem (mem_of_commandsEnd (h htab))
        exact defined_eatLine.mp (defined_bind.mp h).1
    · rename_i htab
      exact iff_of_true (defined_ok _) fun h => absurd h htab

theorem defined_eatCommands {p : Str} : Defined (eatCommands p) ↔ CommandsEnd p := by
  by_cases hmem : '\n' ∈ p
  · obtain ⟨line, rest, rfl, hline, hread⟩ := exists_line hmem
    rw [commandsEnd_line hline, eatCommands, hread]
    exact defined_eatCommandLines (Nat.le_refl _)
  · refine iff_of_false (fun h => hmem ?_) fun h => hmem (mem_of_commandsEnd h)
    exact defined_eatLine.mp (defined_bind.mp h).1

/-! ## Records -/

/-- The reading of a variable, behind its name, stays within the text. -/
def VariableEnds (p : Str) : Prop :=
  let p := eatSpace p
  if peek p = '=' then ListEnds (eatSpace p.tail)
  else if peek p = ':' then CommandsEnd p
  else if peek p = '+' ∧ peek p.tail = '=' then ListEnds (eatSpace p.tail.tail)
  else True

/-- An `else` or `endif` has a conditional that it belongs to, and its line is ended. -/
def BranchEnds (m : MakefileAm) (p : Str) : Prop := m.ifStack ≠ [] ∧ '\n' ∈ p

section

variable (loadFile : Str → MakefileAm → Except Failure MakefileAm) (fileEnds : Str → MakefileAm → Prop)

/-- The line of an `include` is ended, and so are the records of the file. -/
def IncludeEnds (m : MakefileAm) (p : Str) : Prop :=
  '\n' ∈ p ∧ fileEnds ((eatSpace p).takeWhile (· ≠ '\n')) m

/-- The reading of a record, behind its first token, stays within the text. -/
def TokenEnds (m : MakefileAm) (line p : Str) : Prop :=
  if wordIf <+: line then '\n' ∈ p
  else if wordElse <+: line then BranchEnds m p
  else if wordEndif <+: line then BranchEnds m p
  else if parseCond m.ifStack = false then '\n' ∈ p
  else if wordInclude <+: line then IncludeEnds fileEnds m p
  else VariableEnds p

/-- **The reading of a record stays within the text.** -/
def RecordEnds (m : MakefileAm) (p : Str) : Prop :=
  let p := eatSpace p
  if peek p = '#' ∨ peek p = '\n' then '\n' ∈ p
  else (∃ c ∈ p, tokenEnd c = true) ∧
    TokenEnds fileEnds m (p.takeWhile fun c => !tokenEnd c) (p.dropWhile fun c => !tokenEnd c)

variable {loadFile fileEnds} {m : MakefileAm} {p : Str}

theorem defined_skipLine {α : Type} {a : α} :
    Defined (eatLine p >>= fun q => (.ok (a, q.2) : Except Failure (α × Str))) ↔ '\n' ∈ p :=
  (defined_bind_ok fun _ => ⟨_, rfl⟩).trans defined_eatLine

theorem defined_ifCondition {v : Variables} : Defined (ifCondition v p) ↔ '\n' ∈ p := by
  rw [ifCondition]
  split
  · rename_i hpeek
    refine (defined_bind_ok fun _ => ⟨_, rfl⟩).trans (defined_eatLine.trans ?_)
    cases p with
    | nil => exact absurd hpeek (by decide)
    | cons c p =>
      have hne : '\n' ≠ c := by
        rw [show c = '!' from hpeek]
        decide
      exact ⟨fun h => List.mem_cons_of_mem c h, fun h => (List.mem_cons.mp h).resolve_left hne⟩
  · exact (defined_bind_ok fun _ => ⟨_, rfl⟩).trans defined_eatLine

theorem defined_ifRecord : Defined (ifRecord m p) ↔ '\n' ∈ p :=
  (defined_bind_ok fun _ => ⟨_, rfl⟩).trans (defined_ifCondition.trans mem_eatSpace)

theorem defined_elseRecord : Defined (elseRecord m p) ↔ BranchEnds m p := by
  rw [elseRecord, BranchEnds]
  cases m.ifStack with
  | nil => exact iff_of_false not_defined_emptyStack fun h => h.1 rfl
  | cons d ifStack =>
    refine defined_skipLine.trans ?_
    exact ⟨fun h => ⟨List.cons_ne_nil d ifStack, h⟩, fun h => h.2⟩

theorem defined_endifRecord : Defined (endifRecord m p) ↔ BranchEnds m p := by
  rw [endifRecord, BranchEnds]
  cases m.ifStack with
  | nil => exact iff_of_false not_defined_emptyStack fun h => h.1 rfl
  | cons d ifStack =>
    refine defined_skipLine.trans ?_
    exact ⟨fun h => ⟨List.cons_ne_nil d ifStack, h⟩, fun h => h.2⟩

theorem defined_variableRecord {line : Str} : Defined (variableRecord m line p) ↔ VariableEnds p := by
  rw [variableRecord, VariableEnds]
  dsimp only
  split
  · exact (defined_bind_ok fun _ => ⟨_, rfl⟩).trans defined_eatList
  · split
    · exact (defined_bind_ok fun _ => ⟨_, rfl⟩).trans defined_eatCommands
    · split
      · exact (defined_bind_ok fun _ => ⟨_, rfl⟩).trans defined_eatList
      · exact iff_of_true (defined_runtimeError _) trivial

/-- What an `include` names is what stands up to the end of its line. -/
theorem takeWhile_line {line rest : Str} (hline : '\n' ∉ line) :
    (line ++ '\n' :: rest).takeWhile (· ≠ '\n') = line := by
  rw [List.takeWhile_append_of_pos, List.takeWhile_cons_of_neg (by simp), List.append_nil]
  intro c hc
  refine decide_eq_true fun h => hline ?_
  exact h ▸ hc

section

variable (hfile : ∀ file m, Defined (loadFile file m) ↔ fileEnds file m)

include hfile

theorem defined_includeRecord : Defined (includeRecord loadFile m p) ↔ IncludeEnds fileEnds m p := by
  rw [includeRecord, IncludeEnds, ← mem_eatSpace]
  by_cases hmem : '\n' ∈ eatSpace p
  · obtain ⟨line, rest, hp, hline, hread⟩ := exists_line hmem
    rw [hread, hp, takeWhile_line hline]
    refine (defined_bind_ok (f := fun m => .ok (m, rest)) fun m => ⟨(m, rest), rfl⟩).trans ?_
    rw [hfile]
    exact ⟨fun h => ⟨by simp, h⟩, fun h => h.2⟩
  · refine iff_of_false (fun h => hmem ?_) fun h => hmem h.1
    exact defined_eatLine.mp (defined_bind.mp h).1

theorem defined_tokenRecord {line : Str} :
    Defined (tokenRecord loadFile m line p) ↔ TokenEnds fileEnds m line p := by
  rw [tokenRecord, TokenEnds]
  split
  · exact defined_ifRecord
  split
  · exact defined_elseRecord
  split
  · exact defined_endifRecord
  split
  · exact defined_skipLine
  split
  · exact defined_includeRecord hfile
  · exact defined_variableRecord

/-- **A record** is read without undefined behaviour exactly when its reading stays within the text. -/
theorem defined_nextRecord : Defined (nextRecord loadFile m p) ↔ RecordEnds fileEnds m p := by
  rw [nextRecord, RecordEnds]
  dsimp only
  rw [if_neg (peek_eatSpace p)]
  by_cases hremark : peek (eatSpace p) = '#'
  · rw [if_pos hremark, if_pos (.inl hremark)]
    exact defined_skipLine
  by_cases hempty : peek (eatSpace p) = '\n'
  · rw [if_neg hremark, if_pos hempty, if_pos (.inr hempty)]
    exact defined_skipLine
  rw [if_neg hremark, if_neg hempty, if_neg (not_or.mpr ⟨hremark, hempty⟩)]
  by_cases hend : ∃ c ∈ eatSpace p, tokenEnd c = true
  · rw [eatToken_eq hend]
    refine (defined_tokenRecord hfile).trans ?_
    exact ⟨fun h => ⟨hend, h⟩, fun h => h.2⟩
  · -- the token is read over the end
    refine iff_of_false (fun h => hend ?_) fun h => hend h.1
    exact defined_eatWhileNot.mp (defined_bind.mp h).1

end

end

/-! ## Texts -/

section

variable (loadFile : Str → MakefileAm → Except Failure MakefileAm)

/-- One record further in a text. -/
def Next (c c' : MakefileAm × Str) : Prop := c.2 ≠ [] ∧ nextRecord loadFile c.1 c.2 = .ok c'

/-- The reading of every record that a text comes to stays within it. -/
def RecordsEnd (fileEnds : Str → MakefileAm → Prop) (m : MakefileAm) (s : Str) : Prop :=
  ∀ c, Relation.ReflTransGen (Next loadFile) (m, s) c → c.2 ≠ [] → RecordEnds fileEnds c.1 c.2

variable {loadFile} {fileEnds : Str → MakefileAm → Prop}

theorem recordsEnd_nil (m : MakefileAm) : RecordsEnd loadFile fileEnds m [] := by
  intro c hc hne
  rcases hc.cases_head with rfl | ⟨c', hnext, -⟩
  · exact absurd rfl hne
  · exact absurd rfl hnext.1

/-- **A text** is its first record and what is behind that. -/
theorem recordsEnd_iff {m : MakefileAm} {s : Str} (hs : s ≠ []) :
    RecordsEnd loadFile fileEnds m s ↔ RecordEnds fileEnds m s ∧
      ∀ c, nextRecord loadFile m s = .ok c → RecordsEnd loadFile fileEnds c.1 c.2 := by
  constructor
  · intro h
    refine ⟨h (m, s) .refl hs, fun c hc c' hc' hne => ?_⟩
    exact h c' (.head ⟨hs, hc⟩ hc') hne
  · rintro ⟨hfirst, hrest⟩ c hc hne
    rcases hc.cases_head with rfl | ⟨c', hnext, hc'⟩
    · exact hfirst
    · exact hrest c' hnext.2 c hc' hne

/-- **The load of a text**, by its records. -/
theorem defined_load (hfile : ∀ file m, Defined (loadFile file m) ↔ fileEnds file m) (m : MakefileAm)
    (s : Str) : Defined (load loadFile m s) ↔ RecordsEnd loadFile fileEnds m s := by
  induction hn : s.length using Nat.strong_induction_on generalizing m s with
  | _ n ih =>
    cases s with
    | nil => exact iff_of_true (defined_ok m) (recordsEnd_nil m)
    | cons c s =>
      have hload : load loadFile m (c :: s) =
          nextRecord loadFile m (c :: s) >>= fun q => loadRecords loadFile s.length q.1 q.2 := rfl
      rw [hload, defined_bind, defined_nextRecord hfile, recordsEnd_iff (List.cons_ne_nil c s)]
      refine and_congr_right fun _ => forall_congr' fun q => imp_congr_right fun hq => ?_
      -- a record has a character, so what is behind it is a shorter text
      have hlt : q.2.length < (c :: s).length := length_nextRecord hq
      rw [loadRecords_of_le (Nat.le_of_lt_succ hlt)]
      exact ih q.2.length (hn ▸ hlt) q.1 q.2 rfl

end

/-! ## Files that include files -/

section

variable (readFile : Str → Except String Str) (resolve : Variables → Except String Variables)

/-- `load` of a path. `readFile` stands for the reading of a file and the replacement of its `\r\n`,
and `resolve` for `resolve_variables`; an exception of theirs has its text. Where files include one
another more than `n` deep, the stack of the program is taken to overflow. -/
def loadPath : Nat → Str → MakefileAm → Except Failure MakefileAm
  | 0, _, _ => .error (.runtimeError "stack overflow")
  | n + 1, file, m => do
    let f ← (readFile file).mapError .runtimeError
    let m ← load (loadPath n) m f
    let vars ← (resolve m.vars).mapError .runtimeError
    return { m with vars }

/-- The reading of every record of a file, and of the files that it includes, stays within them. -/
def FileEnds : Nat → Str → MakefileAm → Prop
  | 0, _, _ => True
  | n + 1, file, m =>
    ∀ f, readFile file = .ok f → RecordsEnd (loadPath readFile resolve n) (FileEnds n) m f

theorem defined_loadPath (n : Nat) (file : Str) (m : MakefileAm) :
    Defined (loadPath readFile resolve n file m) ↔ FileEnds readFile resolve n file m := by
  induction n generalizing file m with
  | zero => exact iff_of_true (defined_runtimeError _) trivial
  | succ n ih =>
    rw [loadPath, FileEnds]
    cases hread : readFile file with
    | error what =>
      refine iff_of_true (defined_runtimeError what) fun f hf => ?_
      cases hf
    | ok f =>
      have hload : Defined (load (loadPath readFile resolve n) m f >>= fun m =>
          (resolve m.vars).mapError .runtimeError >>= fun vars => .ok { m with vars }) ↔
          RecordsEnd (loadPath readFile resolve n) (FileEnds readFile resolve n) m f := by
        rw [defined_bind, ← defined_load ih m f]
        refine ⟨fun h => h.1, fun h => ⟨h, fun m' _ => ?_⟩⟩
        exact (defined_bind_ok fun _ => ⟨_, rfl⟩).mpr defined_mapError
      refine hload.trans ⟨fun h f' hf' => ?_, fun h => h f rfl⟩
      cases hf'
      exact h

/-- **`load` of a text reads nothing behind it and never looks at an empty stack** exactly when the
reading of every record that it comes to, in the text or in an included file, stays within. -/
theorem defined_load_iff (n : Nat) (m : MakefileAm) (s : Str) :
    Defined (load (loadPath readFile resolve n) m s) ↔
      RecordsEnd (loadPath readFile resolve n) (FileEnds readFile resolve n) m s :=
  defined_load (defined_loadPath readFile resolve n) m s

/-- `A=x`, without a newline, and an `endif` that ends nothing. -/
theorem not_defined_load :
    ¬ Defined (load (loadPath (fun _ => .ok []) .ok 0) ⟨SortedMap.empty, []⟩ ['A', '=', 'x']) ∧
    ¬ Defined (load (loadPath (fun _ => .ok []) .ok 0) ⟨SortedMap.empty, []⟩
      ['e', 'n', 'd', 'i', 'f', '\n']) :=
  ⟨fun h => h.1 rfl, fun h => h.2 rfl⟩

end

end Primitives.Makefile
