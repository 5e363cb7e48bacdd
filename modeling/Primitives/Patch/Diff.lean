import Primitives.Lib.Splice
import Primitives.Patch.Model

/-!
# What a diff says

The reading of a unified diff that does not mention the text: `Reads ds hs rest` says that the
lines `ds` are file headers and the hunks `hs`, one after another, and then `rest`. A hunk is
its two start lines and its body; its two counts are not kept, because a header that reads as
the hunk's (`Header`) has to name the counts of the body. A line reads in one way only, so a
whole diff does (`Reads.unique`).

`patch` skips empty lines wherever it meets one. That is `patchFile_filter`, and after it every
other file works with diffs that have none.
-/

set_option autoImplicit false

namespace Primitives.Patch

open Lib

/-- The first character of a body line. -/
inductive Mark where
  | context
  | delete
  | insert
deriving DecidableEq, Repr

def Mark.char : Mark → Char
  | .context => ' '
  | .delete => '-'
  | .insert => '+'

/-- A body line: its mark and the line of text after it. -/
abbrev BodyLine := Mark × Str

def BodyLine.line (b : BodyLine) : Str := b.1.char :: b.2

/-- The line of the old text it names: a context or a `-` line names one. -/
def BodyLine.old : BodyLine → Strings
  | (.insert, _) => []
  | (_, s) => [s]

/-- The line of the new text it names: a context or a `+` line names one. -/
def BodyLine.new : BodyLine → Strings
  | (.delete, _) => []
  | (_, s) => [s]

/-- The lines of the old text a body names, in order. -/
def oldLines (b : List BodyLine) : Strings := b.flatMap BodyLine.old

/-- The lines of the new text a body names, in order. -/
def newLines (b : List BodyLine) : Strings := b.flatMap BodyLine.new

@[simp] theorem oldLines_nil : oldLines [] = [] := rfl

@[simp] theorem newLines_nil : newLines [] = [] := rfl

@[simp] theorem oldLines_cons (x : BodyLine) (b : List BodyLine) :
    oldLines (x :: b) = x.old ++ oldLines b := rfl

@[simp] theorem newLines_cons (x : BodyLine) (b : List BodyLine) :
    newLines (x :: b) = x.new ++ newLines b := rfl

/-- A hunk: the two starts its header names, counted from 1, and its body. -/
structure Hunk where
  oldStart : Nat
  newStart : Nat
  body : List BodyLine
deriving DecidableEq, Repr

def Hunk.old (h : Hunk) : Strings := oldLines h.body

def Hunk.new (h : Hunk) : Strings := newLines h.body

/-- The replacement a hunk names, counted from 0. -/
def Hunk.edit (h : Hunk) : Edit Str := ⟨h.oldStart - 1, h.old, h.new⟩

/-- The numbers of a header line: old start and count, new start and count. -/
def numbers (l : Str) : Option (Nat × Nat × Nat × Nat) :=
  (rHunk l).map fun m => (decimal m.1, decimal m.2.1, decimal m.2.2.1, decimal m.2.2.2)

/-- The line is a header, and its numbers are the hunk's starts and counts. -/
def Header (l : Str) (h : Hunk) : Prop :=
  numbers l = some (h.oldStart, h.old.length, h.newStart, h.new.length)

instance (l : Str) (h : Hunk) : Decidable (Header l h) := inferInstanceAs (Decidable (_ = _))

/-- A line that names a file: `patch_file` passes over it. -/
def FileLine (l : Str) : Prop := "+++".toList <+: l ∨ "---".toList <+: l

/-- With `PatchOption::Git`, a line at which `patch_file` returns. -/
def GitLine (options : Int) (l : Str) : Prop :=
  options % 2 = 1 ∧ (l.head? = some 'd' ∨ l.head? = some 'i')

/-- The lines are file headers and the hunks, in order, and then `rest`. -/
inductive Reads : Strings → List Hunk → Strings → Prop
  | done {ds : Strings} : Reads ds [] ds
  | file {l : Str} {ds rest : Strings} {hs : List Hunk} :
      FileLine l → Reads ds hs rest → Reads (l :: ds) hs rest
  | hunk {l : Str} {h : Hunk} {ds rest : Strings} {hs : List Hunk} :
      Header l h → Reads ds hs rest →
        Reads (l :: (h.body.map BodyLine.line ++ ds)) (h :: hs) rest

/-- Where `patch_file` returns: at the end of the diff or at a git line. -/
def Ends (options : Int) (rest : Strings) : Prop :=
  rest = [] ∨ ∃ l ds, rest = l :: ds ∧ GitLine options l

/-! ## A diff reads in one way -/

theorem literal_eq_some {lit s t : Str} (h : literal lit s = some t) : s = lit ++ t := by
  unfold literal at h
  split at h
  · rename_i hp
    obtain ⟨u, rfl⟩ := hp
    simpa using h
  · cases h

theorem rHunk_head {l : Str} {m : Str × Str × Str × Str} (h : rHunk l = some m) :
    ∃ s, l = '@' :: s := by
  unfold rHunk at h
  obtain ⟨t, ht, -⟩ := Option.bind_eq_some_iff.mp h
  exact ⟨"@ -".toList ++ t, literal_eq_some ht⟩

theorem numbers_head {l : Str} {m : Nat × Nat × Nat × Nat} (h : numbers l = some m) :
    ∃ s, l = '@' :: s := by
  obtain ⟨_, hm, -⟩ := Option.map_eq_some_iff.mp h
  exact rHunk_head hm

theorem FileLine.head {l : Str} (h : FileLine l) : ∃ s, l = '+' :: s ∨ l = '-' :: s := by
  rcases h with ⟨t, rfl⟩ | ⟨t, rfl⟩
  · exact ⟨"++".toList ++ t, .inl rfl⟩
  · exact ⟨"--".toList ++ t, .inr rfl⟩

theorem FileLine.not_header {l : Str} {h : Hunk} (hf : FileLine l) : ¬ Header l h := by
  intro hm
  obtain ⟨s, rfl⟩ := numbers_head hm
  obtain ⟨t, ht | ht⟩ := hf.head <;> simp at ht

theorem Ends.not_file {options : Int} {l : Str} {ds : Strings} (he : Ends options (l :: ds)) :
    ¬ FileLine l := by
  intro hf
  obtain ⟨s, hs⟩ := hf.head
  obtain h | ⟨_, _, h, _, hg⟩ := he
  · cases h
  · cases h
    rcases hs with rfl | rfl <;> simp at hg

theorem Ends.not_header {options : Int} {l : Str} {ds : Strings} {h : Hunk}
    (he : Ends options (l :: ds)) : ¬ Header l h := by
  intro hm
  obtain ⟨s, rfl⟩ := numbers_head hm
  obtain h | ⟨_, _, h, _, hg⟩ := he
  · cases h
  · cases h
    simp at hg

theorem BodyLine.line_injective : Function.Injective BodyLine.line := by
  rintro ⟨m, s⟩ ⟨m', s'⟩ h
  simp only [BodyLine.line, List.cons.injEq] at h
  obtain ⟨hc, rfl⟩ := h
  cases m <;> cases m' <;> simp_all [Mark.char]

/-- Every body line counts on one side at least. -/
theorem BodyLine.length_pos (x : BodyLine) : 0 < x.old.length + x.new.length := by
  obtain ⟨m, s⟩ := x
  cases m <;> simp [BodyLine.old, BodyLine.new]

/-- The two counts say where a body ends. -/
theorem body_unique {ds ds' : Strings} :
    ∀ {b b' : List BodyLine}, b.map BodyLine.line ++ ds = b'.map BodyLine.line ++ ds' →
      (oldLines b).length = (oldLines b').length → (newLines b).length = (newLines b').length →
      b = b' ∧ ds = ds'
  | [], [], h, _, _ => ⟨rfl, h⟩
  | [], x :: b', _, ho, hn => by
    have hpos := x.length_pos
    simp only [oldLines_nil, newLines_nil, oldLines_cons, newLines_cons, List.length_append,
      List.length_nil] at ho hn
    omega
  | x :: b, [], _, ho, hn => by
    have hpos := x.length_pos
    simp only [oldLines_nil, newLines_nil, oldLines_cons, newLines_cons, List.length_append,
      List.length_nil] at ho hn
    omega
  | x :: b, x' :: b', h, ho, hn => by
    simp only [List.map_cons, List.cons_append, List.cons.injEq] at h
    obtain ⟨hx, h⟩ := h
    cases BodyLine.line_injective hx
    simp only [oldLines_cons, newLines_cons, List.length_append, Nat.add_left_cancel_iff] at ho hn
    obtain ⟨rfl, rfl⟩ := body_unique h ho hn
    exact ⟨rfl, rfl⟩

/-- **A diff reads in one way.** -/
theorem Reads.unique {options : Int} {ds : Strings} {hs hs' : List Hunk} {rest rest' : Strings}
    (h : Reads ds hs rest) (he : Ends options rest) (h' : Reads ds hs' rest')
    (he' : Ends options rest') : hs = hs' := by
  induction h generalizing hs' with
  | done =>
    cases h' with
    | done => rfl
    | file hf _ => exact absurd hf he.not_file
    | hunk hh _ => exact absurd hh he.not_header
  | file hf _ ih =>
    cases h' with
    | done => exact absurd hf he'.not_file
    | file _ h' => exact ih he h'
    | hunk hh _ => exact absurd hh hf.not_header
  | @hunk l x ds rest hs hh _ ih =>
    generalize hds : l :: (x.body.map BodyLine.line ++ ds) = ls at h'
    cases h' with
    | done => subst hds; exact absurd hh he'.not_header
    | file hf _ => cases hds; exact absurd hh hf.not_header
    | @hunk l' x' ds' _ hs' hh' h' =>
      obtain ⟨rfl, hbody⟩ := List.cons.inj hds
      have hnum := hh.symm.trans hh'
      simp only [Option.some.injEq, Prod.mk.injEq] at hnum
      obtain ⟨hos, hol, hns, hnl⟩ := hnum
      obtain ⟨hb, rfl⟩ := body_unique hbody hol hnl
      obtain ⟨o, n, b⟩ := x
      obtain ⟨o', n', b'⟩ := x'
      simp only at hos hns hb
      rw [hos, hns, hb, ih he h']

/-! ## Empty lines -/

/-- The lines that `EMPTY_ACTION` does not skip. -/
def nonEmpty (ds : Strings) : Strings := ds.filter (· ≠ [])

@[simp] theorem nonEmpty_nil : nonEmpty [] = [] := rfl

@[simp] theorem nonEmpty_cons_nil (ds : Strings) : nonEmpty ([] :: ds) = nonEmpty ds := rfl

@[simp] theorem nonEmpty_cons_cons (c : Char) (s : Str) (ds : Strings) :
    nonEmpty ((c :: s) :: ds) = (c :: s) :: nonEmpty ds := rfl

theorem patchHunk_filter {lines : Strings} :
    ∀ (ds : Strings) (r : Str) (oi : Nat) (ni os ns : Int),
      patchHunk lines (nonEmpty ds) r oi ni os ns =
        (patchHunk lines ds r oi ni os ns).map fun h => { h with i := nonEmpty h.i } := by
  intro ds
  induction ds with
  | nil =>
    intro r oi ni os ns
    rw [nonEmpty_nil, patchHunk]
    split <;> rfl
  | cons l ds ih =>
    intro r oi ni os ns
    cases l with
    | nil => rw [nonEmpty_cons_nil, patchHunk, ih]
    | cons c s =>
      rw [nonEmpty_cons_cons, patchHunk, patchHunk]
      cases index lines oi with
      | error f => split_ifs <;> first | rfl | exact ih _ _ _ _ _
      | ok l =>
        dsimp only
        split_ifs <;> first | rfl | exact ih _ _ _ _ _

theorem patchFile_filter {lines : Strings} {options : Int} (ds : Strings) (r : Str) (oi : Nat)
    (ni : Int) :
    patchFile lines options (nonEmpty ds) r oi ni = patchFile lines options ds r oi ni := by
  induction hn : ds.length using Nat.strong_induction_on generalizing ds r oi ni with
  | _ n ih =>
    subst hn
    match ds with
    | [] => rfl
    | [] :: ds =>
      rw [nonEmpty_cons_nil, ih ds.length (by simp) ds r oi ni rfl]
      conv_rhs => rw [patchFile]
    | (c :: s) :: ds =>
      have htail : patchFile lines options (nonEmpty ds) r oi ni =
          patchFile lines options ds r oi ni := ih ds.length (by simp) ds r oi ni rfl
      rw [nonEmpty_cons_cons]
      by_cases hc : c = '@'
      · subst hc
        rw [patchFile_header, patchFile_header]
        cases rHunk ('@' :: s) with
        | none => rfl
        | some m =>
          obtain ⟨m₁, m₂, m₃, m₄⟩ := m
          dsimp only
          cases stoi m₁ <;> cases stoi m₂ <;> cases stoi m₃ <;> cases stoi m₄ <;> try rfl
          rename_i ol os nl ns
          dsimp only
          cases copyLines lines (sizeT (ol - 1) - oi) r oi ni with
          | error f => rfl
          | ok c =>
            obtain ⟨r, oi, ni⟩ := c
            dsimp only
            split
            · rfl
            · rw [patchHunk_filter]
              cases hh : patchHunk lines ds [] oi ni os ns with
              | error f => rfl
              | ok r₂ =>
                have hle : r₂.i.length ≤ ds.length := patchHunk_length_le hh
                simp only [Except.map]
                rw [ih r₂.i.length (by simp only [List.length_cons]; omega) r₂.i _ _ _ rfl]
      · rw [patchFile, patchFile]
        simp only [htail, hc, if_false]

end Primitives.Patch
