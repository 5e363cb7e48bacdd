import Primitives.Makefile.Lines

/-!
# Makefile.am — conditionals

A text of well nested conditionals is the print of a list of statements, and what is to be done for
it is the list of the assignments in the branches that are taken (`appliedAll`), where a condition is
looked up among the variables as they are when its line is reached. `load_print`: just these are done,
in that order.

The loader knows no tree. `loadRecords_print` says what it does for a statement in the middle of a
text, under any stack: where the innermost branch is taken it does the statement's assignments,
otherwise it comes to the statement's end with everything as it was.
-/

set_option autoImplicit false

namespace Primitives.Makefile

open Lib

/-! ## Statements -/

inductive Statement where
  | blank (lead : Blanks)
  | remark (lead : Blanks) (r : Remark)
  | assignment (a : Assignment)
  | ifThen (l : IfLine) (thenBranch : List Statement) (endif : WordLine)
  | ifElse (l : IfLine) (thenBranch : List Statement) (els : WordLine)
      (elseBranch : List Statement) (endif : WordLine)

mutual

def Statement.print : Statement → Str
  | .blank lead => blankLine lead
  | .remark lead r => r.print lead
  | .assignment a => a.print
  | .ifThen l thenBranch endif => l.print ++ (printAll thenBranch ++ endif.print wordEndif)
  | .ifElse l thenBranch els elseBranch endif =>
    l.print ++ (printAll thenBranch ++ (els.print wordElse ++
      (printAll elseBranch ++ endif.print wordEndif)))

def printAll : List Statement → Str
  | [] => []
  | s :: rest => s.print ++ printAll rest

end

/-- Assignments one after the other. -/
def assign (v : Variables) (as : List Assignment) : Variables := as.foldl Assignment.apply v

theorem assign_append (v : Variables) (as bs : List Assignment) :
    assign v (as ++ bs) = assign (assign v as) bs := List.foldl_append

mutual

/-- The assignments all of whose branches are taken. -/
def Statement.applied (v : Variables) : Statement → List Assignment
  | .blank _ | .remark _ _ => []
  | .assignment a => [a]
  | .ifThen l thenBranch _ => if l.holds v then appliedAll v thenBranch else []
  | .ifElse l thenBranch _ elseBranch _ =>
    if l.holds v then appliedAll v thenBranch else appliedAll v elseBranch

def appliedAll (v : Variables) : List Statement → List Assignment
  | [] => []
  | s :: rest => s.applied v ++ appliedAll (assign v (s.applied v)) rest

end

mutual

/-- The number of lines. -/
def Statement.lines : Statement → Nat
  | .blank _ | .remark _ _ | .assignment _ => 1
  | .ifThen _ thenBranch _ => linesAll thenBranch + 2
  | .ifElse _ thenBranch _ elseBranch _ => linesAll thenBranch + linesAll elseBranch + 3

def linesAll : List Statement → Nat
  | [] => 0
  | s :: rest => s.lines + linesAll rest

end

/-! ## The loader -/

variable {loadFile : Str → MakefileAm → Except Failure MakefileAm}

theorem loadRecords_succ {m m' : MakefileAm} {s s' : Str}
    (h : nextRecord loadFile m s = .ok (m', s')) (n : Nat) :
    loadRecords loadFile (n + 1) m s = loadRecords loadFile n m' s' := by
  cases s with
  | nil => cases h
  | cons c s =>
    show (nextRecord loadFile m (c :: s) >>= fun q => loadRecords loadFile n q.1 q.2) = _
    rw [h]
    rfl

/-- The variables after some assignments that are done if the innermost branch is taken. -/
def assignIf (taken : Bool) (v : Variables) (as : List Assignment) : Variables :=
  if taken then assign v as else v

theorem assignIf_nil (taken : Bool) (v : Variables) : assignIf taken v [] = v := ite_self v

theorem assignIf_append (taken : Bool) (v : Variables) (as bs : List Assignment) :
    assignIf taken (assignIf taken v as) bs = assignIf taken v (as ++ bs) := by
  cases taken with
  | true => exact (assign_append v as bs).symm
  | false => rfl

mutual

/-- **A statement in a text**: it comes to its end with the stack as it was, and its assignments are
done if they are in a branch that is taken. -/
theorem loadRecords_print (v : Variables) (ifStack : List IfDesc) (n : Nat) (rest : Str) :
    ∀ s : Statement,
      loadRecords loadFile (s.lines + n) ⟨v, ifStack⟩ (s.print ++ rest) =
        loadRecords loadFile n ⟨assignIf (parseCond ifStack) v (s.applied v), ifStack⟩ rest
  | .blank lead => by
    rw [Statement.lines, Statement.print, Statement.applied, assignIf_nil, Nat.add_comm]
    exact loadRecords_succ (nextRecord_blank _ lead rest) n
  | .remark lead r => by
    rw [Statement.lines, Statement.print, Statement.applied, assignIf_nil, Nat.add_comm]
    exact loadRecords_succ (nextRecord_remark _ lead r rest) n
  | .assignment a => by
    rw [Statement.lines, Statement.print, Statement.applied, Nat.add_comm]
    cases h : parseCond ifStack with
    | true => exact loadRecords_succ (a.nextRecord_done h rest) n
    | false => exact loadRecords_succ (a.nextRecord_skipped h rest) n
  | .ifThen l thenBranch endif => by
    have hlines : linesAll thenBranch + 2 + n = linesAll thenBranch + (n + 1) + 1 := by omega
    rw [Statement.lines, Statement.print, Statement.applied, hlines, List.append_assoc,
      loadRecords_succ (l.nextRecord_print v ifStack _), List.append_assoc,
      loadRecords_printAll v _ (n + 1), loadRecords_succ (endif.nextRecord_endif _ _ _ _)]
    -- the branch is taken if it holds and stands in a branch that is
    show loadRecords _ n ⟨assignIf (l.holds v && parseCond ifStack) v _, ifStack⟩ rest = _
    cases l.holds v with
    | true => rfl
    | false => rw [if_neg Bool.false_ne_true, assignIf_nil]; rfl
  | .ifElse l thenBranch els elseBranch endif => by
    have hlines : linesAll thenBranch + linesAll elseBranch + 3 + n =
        linesAll thenBranch + (linesAll elseBranch + (n + 1) + 1) + 1 := by omega
    rw [Statement.lines, Statement.print, Statement.applied, hlines, List.append_assoc,
      loadRecords_succ (l.nextRecord_print v ifStack _), List.append_assoc,
      loadRecords_printAll v _ (linesAll elseBranch + (n + 1) + 1), List.append_assoc,
      loadRecords_succ (els.nextRecord_else _ _ _ _), List.append_assoc,
      loadRecords_printAll _ _ (n + 1), loadRecords_succ (endif.nextRecord_endif _ _ _ _)]
    show loadRecords _ n
      ⟨assignIf (!(l.holds v) && parseCond ifStack)
        (assignIf (l.holds v && parseCond ifStack) v (appliedAll v thenBranch))
        (appliedAll (assignIf (l.holds v && parseCond ifStack) v (appliedAll v thenBranch)) elseBranch),
        ifStack⟩ rest = _
    cases l.holds v with
    | true => rfl
    | false => rfl

theorem loadRecords_printAll (v : Variables) (ifStack : List IfDesc) (n : Nat) (rest : Str) :
    ∀ ss : List Statement,
      loadRecords loadFile (linesAll ss + n) ⟨v, ifStack⟩ (printAll ss ++ rest) =
        loadRecords loadFile n ⟨assignIf (parseCond ifStack) v (appliedAll v ss), ifStack⟩ rest
  | [] => by
    rw [linesAll, printAll, appliedAll, assignIf_nil, Nat.zero_add, List.nil_append]
  | s :: ss => by
    rw [linesAll, printAll, appliedAll, Nat.add_assoc, List.append_assoc,
      loadRecords_print v ifStack _ _ s, loadRecords_printAll _ ifStack n rest ss, assignIf_append]
    cases parseCond ifStack with
    | true => rfl
    | false => rfl

end

/-! ## A whole text -/

mutual

theorem Statement.lines_le : ∀ s : Statement, s.lines ≤ s.print.length
  | .blank lead => by
    rw [Statement.lines, Statement.print, blankLine, List.length_append]
    exact Nat.le_add_left _ _
  | .remark lead r => by
    rw [Statement.lines, Statement.print, Remark.print, List.length_append, List.length_cons]
    omega
  | .assignment a => by
    simp only [Statement.lines, Statement.print, Assignment.print, List.length_append,
      List.length_singleton]
    omega
  | .ifThen l thenBranch endif => by
    have := linesAll_le thenBranch
    simp only [Statement.lines, Statement.print, IfLine.print, WordLine.print, List.length_append,
      List.length_singleton]
    omega
  | .ifElse l thenBranch els elseBranch endif => by
    have := linesAll_le thenBranch
    have := linesAll_le elseBranch
    simp only [Statement.lines, Statement.print, IfLine.print, WordLine.print, List.length_append,
      List.length_singleton]
    omega

theorem linesAll_le : ∀ ss : List Statement, linesAll ss ≤ (printAll ss).length
  | [] => Nat.le_refl 0
  | s :: ss => by
    have := s.lines_le
    have := linesAll_le ss
    rw [linesAll, printAll, List.length_append]
    omega

end

/-- **Conditionals**: loading a text does the assignments all of whose branches are taken, in order,
and leaves no conditional open. -/
theorem load_print (loadFile : Str → MakefileAm → Except Failure MakefileAm) (v : Variables)
    (ss : List Statement) :
    load loadFile ⟨v, []⟩ (printAll ss) = .ok ⟨assign v (appliedAll v ss), []⟩ := by
  obtain ⟨n, hn⟩ := Nat.exists_eq_add_of_le (linesAll_le ss)
  have hrun := @loadRecords_printAll loadFile v [] n [] ss
  rw [List.append_nil, ← hn] at hrun
  rw [load, hrun]
  cases n with
  | zero => rfl
  | succ n => rfl

/-- `if !A`, `B = 1`, `endif` -/
example : printAll
    [.ifThen ⟨⟨[], by simp⟩, ⟨[' '], by simp [isSpace]⟩, List.cons_ne_nil _ _, true, ['A'], by simp,
        fun h => absurd h (by decide)⟩
      [.assignment ⟨⟨[], by simp⟩,
        ⟨['B'], ⟨List.cons_ne_nil _ _, by simp [tokenEnd, isSpace], by simp⟩, by simp [wordIf],
          by simp [wordElse], by simp [wordEndif], by simp [wordInclude]⟩,
        ⟨[' '], by simp [isSpace]⟩, false, ⟨[' ', '1'], by simp, by simp⟩⟩]
      ⟨⟨[], by simp⟩, [], by simp, by simp⟩] =
    ['i', 'f', ' ', '!', 'A', '\n', 'B', ' ', '=', ' ', '1', '\n', 'e', 'n', 'd', 'i', 'f', '\n'] :=
  rfl

end Primitives.Makefile
