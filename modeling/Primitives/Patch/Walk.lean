import Primitives.Patch.Diff

/-!
# What the loops of `patch.cpp` do

One statement for each loop, in terms of the diff's reading. `copyLines` copies a run of lines
or reads past the end. `patch_hunk` returns `true` exactly on a body whose context and `-` lines
stand at `oi` and whose counts are the header's. `patch_file` then goes from one header to the
next: `Applies lines p n hs p' n'` says that it gets through the hunks `hs` from `oi = p` and
`ni = n` to `oi = p'` and `ni = n'`, and `written` is what it has written by then.
-/

set_option autoImplicit false

namespace Primitives.Patch

/-- The lines, each with a `'\n'` after it. -/
def joinLines (ls : Strings) : Str := ls.flatMap (· ++ ['\n'])

@[simp] theorem joinLines_nil : joinLines [] = [] := rfl

@[simp] theorem joinLines_cons (l : Str) (ls : Strings) :
    joinLines (l :: ls) = l ++ ['\n'] ++ joinLines ls := by
  simp [joinLines]

@[simp] theorem joinLines_append (ls ls' : Strings) :
    joinLines (ls ++ ls') = joinLines ls ++ joinLines ls' := by
  simp [joinLines]

/-- Without its last `'\n'` it is the lines with a `'\n'` between them. -/
theorem joinLines_dropLast (ls : Strings) : (joinLines ls).dropLast = ['\n'].intercalate ls := by
  induction ls with
  | nil => rfl
  | cons l ls ih =>
    cases ls with
    | nil => simp
    | cons l' ls =>
      rw [joinLines_cons, List.dropLast_append_of_ne_nil (by simp), ih,
        List.intercalate_cons_cons]

/-- The value of `ni` after `k` more lines. -/
def advance : Nat → Int → Int
  | 0, ni => ni
  | k + 1, ni => advance k (incInt ni)

@[simp] theorem advance_zero (ni : Int) : advance 0 ni = ni := rfl

@[simp] theorem advance_succ (k : Nat) (ni : Int) :
    advance (k + 1) ni = advance k (incInt ni) := rfl

theorem advance_add (j k : Nat) (ni : Int) : advance (j + k) ni = advance k (advance j ni) := by
  induction j generalizing ni with
  | zero => simp
  | succ j ih => rw [Nat.succ_add, advance_succ, ih, advance_succ]

/-- While the count fits an `int` it is exact. -/
theorem advance_of_le {k n : Nat} (h : n + k ≤ intMax) : advance k (n : Int) = (n + k : Nat) := by
  induction k generalizing n with
  | zero => rfl
  | succ k ih =>
    rw [advance_succ, incInt_of_lt (by omega), ih (by omega)]
    congr 1
    omega

/-! ## `copyLines` -/

theorem copyLines_ok {lines : Strings} {n : Nat} {r : Str} {oi : Nat} {ni : Int}
    (h : n = 0 ∨ oi + n ≤ lines.length) :
    copyLines lines n r oi ni =
      .ok (r ++ joinLines ((lines.drop oi).take n), oi + n, advance n ni) := by
  induction n generalizing r oi ni with
  | zero => simp [copyLines]
  | succ n ih =>
    have hoi : oi < lines.length := by omega
    rw [copyLines, index_of_lt hoi]
    dsimp only [addLine]
    rw [ih (by omega), List.drop_eq_getElem_cons hoi, List.take_succ_cons, joinLines_cons]
    simp only [List.append_assoc, advance_succ]
    congr 3
    omega

theorem copyLines_error {lines : Strings} {n : Nat} {r : Str} {oi : Nat} {ni : Int}
    (h₀ : 0 < n) (h : lines.length < oi + n) :
    copyLines lines n r oi ni = .error .outOfBounds := by
  induction n generalizing r oi ni with
  | zero => omega
  | succ n ih =>
    rw [copyLines]
    by_cases hoi : oi < lines.length
    · rw [index_of_lt hoi]
      exact ih (by omega) (by omega)
    · rw [index_of_le (by omega)]

/-! ## `patch_hunk` -/

/-- The counts with which the loop looks at a line. -/
def Live (os ns : Int) : Prop := 0 ≤ os ∧ 0 ≤ ns ∧ (os ≠ 0 ∨ ns ≠ 0)

/-- A body line whose old line, if it names one, is the text's line at `oi`. -/
theorem patchHunk_line {lines is : Strings} {x : BodyLine} {r : Str} {oi : Nat}
    {ni os ns : Int} (hlive : Live os ns) (h : x.old <+: lines.drop oi) :
    patchHunk lines (x.line :: is) r oi ni os ns =
      patchHunk lines is (r ++ joinLines x.new) (oi + x.old.length) (advance x.new.length ni)
        (os - x.old.length) (ns - x.new.length) := by
  obtain ⟨m, s⟩ := x
  obtain ⟨hos, hns, hpos⟩ := hlive
  rw [BodyLine.line, patchHunk, if_neg (by omega), if_neg (by omega)]
  cases m with
  | context =>
    have hl := singleton_prefix_drop_iff.mp h
    simp [Mark.char, hl, addLine, BodyLine.old, BodyLine.new]
  | delete =>
    have hl := singleton_prefix_drop_iff.mp h
    simp [Mark.char, hl, BodyLine.old, BodyLine.new]
  | insert => simp [Mark.char, addLine, BodyLine.old, BodyLine.new]

/-- A line that names an old line, past the text. -/
theorem patchHunk_line_error {lines is : Strings} {x : BodyLine} {r : Str} {oi : Nat}
    {ni os ns : Int} (hlive : Live os ns) (hx : x.old ≠ []) (h : lines.length ≤ oi) :
    patchHunk lines (x.line :: is) r oi ni os ns = .error .outOfBounds := by
  obtain ⟨m, s⟩ := x
  obtain ⟨hos, hns, hpos⟩ := hlive
  rw [BodyLine.line, patchHunk, if_neg (by omega), if_neg (by omega), index_of_le h]
  cases m with
  | context => rfl
  | delete => rfl
  | insert => exact absurd rfl hx

/-- A line is a body line that fits, or one past the text, or the hunk is bad. -/
theorem patchHunk_line_cases (lines is : Strings) {l : Str} (r : Str) (oi : Nat) (ni : Int)
    {os ns : Int} (hlive : Live os ns) (hl : l ≠ []) :
    (∃ x : BodyLine, l = x.line ∧ x.old <+: lines.drop oi) ∨
    (∃ x : BodyLine, l = x.line ∧ x.old ≠ [] ∧ lines.length ≤ oi) ∨
    (∃ h : HunkResult, patchHunk lines (l :: is) r oi ni os ns = .ok h ∧ h.first = false) := by
  obtain ⟨c, s, rfl⟩ := List.exists_cons_of_ne_nil hl
  obtain ⟨hos, hns, hpos⟩ := hlive
  have hrun := patchHunk.eq_3 lines r oi ni os ns c s is
  rw [if_neg (by omega), if_neg (by omega)] at hrun
  by_cases hplus : c = '+'
  · subst hplus
    exact .inl ⟨(.insert, s), rfl, List.nil_prefix⟩
  by_cases hmark : c = ' ' ∨ c = '-'
  · -- a context or `-` line: what stands at `oi` decides
    obtain ⟨m, rfl, hm⟩ : ∃ m : Mark, c = m.char ∧ BodyLine.old (m, s) = [s] := by
      rcases hmark with rfl | rfl
      exacts [⟨.context, rfl, rfl⟩, ⟨.delete, rfl, rfl⟩]
    by_cases hlen : lines.length ≤ oi
    · exact .inr (.inl ⟨(m, s), rfl, by simp [hm], hlen⟩)
    have hi := index_of_lt (Nat.lt_of_not_le hlen)
    by_cases hls : lines[oi] = s
    · exact .inl ⟨(m, s), rfl, by rw [hm, singleton_prefix_drop_iff, hi, hls]⟩
    · rw [hi] at hrun
      rcases hmark with h | h <;> rw [h] at hrun ⊢ <;> simp [hls] at hrun <;>
        exact .inr (.inr ⟨_, hrun, rfl⟩)
  · rw [not_or] at hmark
    rw [if_neg hmark.1, if_neg hplus, if_neg hmark.2, if_neg (by omega)] at hrun
    exact .inr (.inr ⟨_, hrun, rfl⟩)

/-- With counts that are not live the loop reads no line of the text. -/
theorem patchHunk_not_live (lines is : Strings) {l : Str} (r : Str) (oi : Nat) (ni : Int)
    {os ns : Int} (hlive : ¬ Live os ns) (hl : l ≠ []) :
    ∃ h : HunkResult, patchHunk lines (l :: is) r oi ni os ns = .ok h ∧
      (h.first = true → os = 0 ∧ ns = 0) := by
  obtain ⟨c, s, rfl⟩ := List.exists_cons_of_ne_nil hl
  by_cases h₀ : os = 0 ∧ ns = 0
  · rw [patchHunk, if_pos h₀]
    exact ⟨_, rfl, fun _ => h₀⟩
  · unfold Live at hlive
    rw [patchHunk, if_neg h₀, if_pos (by omega)]
    exact ⟨_, rfl, by simp⟩

/-- Both counts at zero, the hunk is over. -/
theorem patchHunk_zero {lines ds : Strings} {r : Str} {oi : Nat} {ni : Int} (h : [] ∉ ds) :
    patchHunk lines ds r oi ni 0 0 = .ok ⟨true, r, ds, oi, ni⟩ := by
  match ds with
  | [] => simp [patchHunk]
  | [] :: _ => simp at h
  | (c :: s) :: ds => simp [patchHunk]

/-- The loop over a body whose old lines stand at `oi`, the counts being at least the body's. -/
theorem patchHunk_body {lines : Strings} (ds : Strings) (os ns : Nat) :
    ∀ {b : List BodyLine} (r : Str) {oi : Nat} (ni : Int), oldLines b <+: lines.drop oi →
      patchHunk lines (b.map BodyLine.line ++ ds) r oi ni ((oldLines b).length + os : Nat)
          ((newLines b).length + ns : Nat) =
        patchHunk lines ds (r ++ joinLines (newLines b)) (oi + (oldLines b).length)
          (advance (newLines b).length ni) os ns
  | [], r, oi, ni, _ => by simp
  | x :: b, r, oi, ni, h => by
    have hpos := x.length_pos
    obtain ⟨hx, hb⟩ := append_prefix_drop_iff.mp h
    have hlive : Live ((oldLines (x :: b)).length + os : Nat)
        ((newLines (x :: b)).length + ns : Nat) := by
      simp only [Live, oldLines_cons, newLines_cons, List.length_append]
      omega
    rw [List.map_cons, List.cons_append, patchHunk_line hlive hx]
    have ih := patchHunk_body ds os ns (r ++ joinLines x.new) (advance x.new.length ni) hb
    simp only [oldLines_cons, newLines_cons, List.length_append, joinLines_append,
      advance_add]
    convert ih using 2 <;> first | omega | simp

/-- What `patch_hunk` has read when it returns `true`. -/
theorem patchHunk_true {lines : Strings} :
    ∀ {ds : Strings} {r : Str} {oi : Nat} {ni os ns : Int} {h : HunkResult}, [] ∉ ds →
      patchHunk lines ds r oi ni os ns = .ok h → h.first = true →
      ∃ b, ds = b.map BodyLine.line ++ h.i ∧ oldLines b <+: lines.drop oi ∧
        os = (oldLines b).length ∧ ns = (newLines b).length ∧
        h.second = r ++ joinLines (newLines b) ∧ h.oi = oi + (oldLines b).length ∧
        h.ni = advance (newLines b).length ni := by
  intro ds
  induction ds with
  | nil =>
    intro r oi ni os ns h _ hh hf
    rw [patchHunk] at hh
    split at hh <;> cases hh
    · rename_i h₀
      exact ⟨[], rfl, List.nil_prefix, h₀.1, h₀.2, by simp, rfl, rfl⟩
    · cases hf
  | cons l ds ih =>
    intro r oi ni os ns h hne hh hf
    obtain ⟨hl, hds⟩ : l ≠ [] ∧ [] ∉ ds := by simpa [eq_comm] using hne
    by_cases hlive : Live os ns
    swap
    · obtain ⟨_, hrun, hzero⟩ := patchHunk_not_live lines ds r oi ni hlive hl
      rw [hrun] at hh
      cases hh
      obtain ⟨rfl, rfl⟩ := hzero hf
      rw [patchHunk_zero hne] at hrun
      cases hrun
      exact ⟨[], rfl, List.nil_prefix, rfl, rfl, by simp, rfl, rfl⟩
    obtain ⟨x, rfl, hx⟩ | ⟨x, rfl, hx, hlen⟩ | ⟨_, hbad, hff⟩ :=
      patchHunk_line_cases lines ds r oi ni hlive hl
    · rw [patchHunk_line hlive hx] at hh
      obtain ⟨b, hb, hold, hos, hns, hr, hoi, hni⟩ := ih hds hh hf
      refine ⟨x :: b, by rw [hb]; rfl, append_prefix_drop_iff.mpr ⟨hx, hold⟩, ?_⟩
      simp only [oldLines_cons, newLines_cons, List.length_append, joinLines_append, hr, hoi,
        hni, advance_add]
      refine ⟨by omega, by omega, by simp, by omega, trivial⟩
    · rw [patchHunk_line_error hlive hx hlen] at hh
      cases hh
    · rw [hbad] at hh
      cases hh
      rw [hff] at hf
      cases hf

/-- A line the loop reads past the end: after the body `b`, whose old lines are the text's
lines from `oi` to the last, the counts still ask for lines and the next one names an old
line. -/
def Overrun (lines ds : Strings) (oi : Nat) (os ns : Int) : Prop :=
  ∃ (b : List BodyLine) (x : BodyLine) (ds' : Strings),
    ds = b.map BodyLine.line ++ x.line :: ds' ∧ oldLines b <+: lines.drop oi ∧ x.old ≠ [] ∧
    Live (os - (oldLines b).length) (ns - (newLines b).length) ∧
    lines.length ≤ oi + (oldLines b).length

theorem Overrun.live {lines ds : Strings} {oi : Nat} {os ns : Int}
    (h : Overrun lines ds oi os ns) : Live os ns := by
  obtain ⟨b, x, ds', -, -, -, hlive, -⟩ := h
  unfold Live at *
  omega

theorem Overrun.head {lines ds : Strings} {l : Str} {oi : Nat} {os ns : Int}
    (h : Overrun lines (l :: ds) oi os ns) : ∃ x : BodyLine, l = x.line := by
  obtain ⟨b, x, ds', heq, -⟩ := h
  cases b with
  | nil => exact ⟨x, (List.cons.inj heq).1⟩
  | cons y b => exact ⟨y, (List.cons.inj heq).1⟩

/-- An overrun is at the first line, or at a later one once the first has been matched. -/
theorem overrun_cons_iff {lines ds : Strings} {x : BodyLine} {oi : Nat} {os ns : Int}
    (hlive : Live os ns) :
    Overrun lines (x.line :: ds) oi os ns ↔ (x.old ≠ [] ∧ lines.length ≤ oi) ∨
      (x.old <+: lines.drop oi ∧
        Overrun lines ds (oi + x.old.length) (os - x.old.length) (ns - x.new.length)) := by
  constructor
  · rintro ⟨b, y, ds', heq, hb, hy, hl, hlen⟩
    cases b with
    | nil =>
      obtain ⟨hxy, rfl⟩ := List.cons.inj heq
      cases BodyLine.line_injective hxy
      exact .inl ⟨hy, hlen⟩
    | cons z b =>
      obtain ⟨hxz, rfl⟩ := List.cons.inj heq
      cases BodyLine.line_injective hxz
      obtain ⟨hx, hb⟩ := append_prefix_drop_iff.mp hb
      simp only [oldLines_cons, newLines_cons, List.length_append] at hl hlen
      refine .inr ⟨hx, b, y, ds', rfl, hb, hy, ?_, by omega⟩
      unfold Live at *
      omega
  · rintro (⟨hx, hlen⟩ | ⟨hx, b, y, ds', rfl, hb, hy, hl, hlen⟩)
    · exact ⟨[], x, ds, rfl, List.nil_prefix, hx, by simpa using hlive, by simpa using hlen⟩
    · refine ⟨x :: b, y, ds', rfl, append_prefix_drop_iff.mpr ⟨hx, hb⟩, hy, ?_, ?_⟩
      · simp only [oldLines_cons, newLines_cons, List.length_append]
        unfold Live at *
        omega
      · simp only [oldLines_cons, List.length_append]
        omega

/-- **The hunk loop reads past the end exactly at an overrun**, and has no other fault. -/
theorem patchHunk_error_iff {lines : Strings} {f : Fault} :
    ∀ {ds : Strings} {r : Str} {oi : Nat} {ni os ns : Int}, [] ∉ ds →
      (patchHunk lines ds r oi ni os ns = .error f ↔
        f = .outOfBounds ∧ Overrun lines ds oi os ns) := by
  intro ds
  induction ds with
  | nil =>
    intro r oi ni os ns _
    rw [patchHunk]
    constructor
    · intro h
      split at h <;> cases h
    · rintro ⟨-, _, _, _, h, _⟩
      simp at h
  | cons l ds ih =>
    intro r oi ni os ns hne
    obtain ⟨hl, hds⟩ : l ≠ [] ∧ [] ∉ ds := by simpa [eq_comm] using hne
    constructor
    · intro hrun
      by_cases hlive : Live os ns
      · obtain ⟨x, rfl, hx⟩ | ⟨x, rfl, hx, hlen⟩ | ⟨_, hbad, -⟩ :=
          patchHunk_line_cases lines ds r oi ni hlive hl
        · rw [patchHunk_line hlive hx] at hrun
          obtain ⟨hf, ho⟩ := (ih hds).mp hrun
          exact ⟨hf, (overrun_cons_iff hlive).mpr (.inr ⟨hx, ho⟩)⟩
        · rw [patchHunk_line_error hlive hx hlen] at hrun
          cases hrun
          exact ⟨rfl, (overrun_cons_iff hlive).mpr (.inl ⟨hx, hlen⟩)⟩
        · rw [hbad] at hrun
          cases hrun
      · obtain ⟨_, hok, -⟩ := patchHunk_not_live lines ds r oi ni hlive hl
        rw [hok] at hrun
        cases hrun
    · rintro ⟨rfl, ho⟩
      obtain ⟨x, rfl⟩ := ho.head
      obtain ⟨hx, hlen⟩ | ⟨hx, ho'⟩ := (overrun_cons_iff ho.live).mp ho
      · exact patchHunk_line_error ho.live hx hlen
      · rw [patchHunk_line ho.live hx]
        exact (ih hds).mpr ⟨rfl, ho'⟩

/-! ## `patch_file` -/

/-- `(size_t)ol` for the start line a header names, counted from 0. A start line of 0 is
`(size_t)-1`. -/
def firstLine (a : Nat) : Nat := sizeT ((a : Int) - 1)

theorem firstLine_zero : firstLine 0 = 2 ^ 64 - 1 := rfl

theorem firstLine_of_pos {a : Nat} (h₀ : 0 < a) (h : a ≤ intMax) : firstLine a = a - 1 := by
  unfold firstLine
  unfold intMax at h
  rw [← sizeT_of_nonneg (n := a - 1) (by omega), Int.ofNat_sub h₀]
  rfl

/-- The four numbers of the header fit an `int`. -/
def Hunk.InRange (h : Hunk) : Prop :=
  h.oldStart ≤ intMax ∧ h.old.length ≤ intMax ∧ h.newStart ≤ intMax ∧ h.new.length ≤ intMax

instance (h : Hunk) : Decidable h.InRange := inferInstanceAs (Decidable (_ ∧ _))

/-- The value of `oi` at which the hunk is applied, when it was `p` before the copy loop. -/
def Hunk.at (h : Hunk) (p : Nat) : Nat := max p (firstLine h.oldStart)

/-- `patch_file` gets through the hunks, from `oi = p` and `ni = n` to `oi = p'` and `ni = n'`. -/
def Applies (lines : Strings) : Nat → Int → List Hunk → Nat → Int → Prop
  | p, n, [], p', n' => p' = p ∧ n' = n
  | p, n, h :: hs, p', n' =>
    h.InRange ∧ h.at p ≤ max p lines.length ∧
    (h.newStart : Int) - 1 = advance (h.at p - p) n ∧
    h.old <+: lines.drop (h.at p) ∧
    Applies lines (h.at p + h.old.length) (advance (h.at p - p + h.new.length) n) hs p' n'

/-- The lines `patch_file` writes while it gets through the hunks, from `oi = p`. -/
def written (lines : Strings) : Nat → List Hunk → Strings
  | _, [] => []
  | p, h :: hs =>
    (lines.drop p).take (h.at p - p) ++ h.new ++ written lines (h.at p + h.old.length) hs

theorem stoi_of_le {m : Str} (h : decimal m ≤ intMax) : stoi m = .ok (decimal m) := if_pos h

theorem patchFile_file {lines : Strings} {options : Int} {l : Str} (hf : FileLine l)
    (ds : Strings) (r : Str) (p : Nat) (n : Int) :
    patchFile lines options (l :: ds) r p n = patchFile lines options ds r p n := by
  obtain ⟨s, rfl | rfl⟩ := hf.head
  · have hplus : "+++".toList <+: '+' :: s :=
      hf.resolve_right fun h => by simp at h
    rw [patchFile, if_pos rfl, if_pos hplus]
  · have hminus : "---".toList <+: '-' :: s :=
      hf.resolve_left fun h => by simp at h
    rw [patchFile, if_neg (by decide), if_pos rfl, if_pos hminus]

/-- A header some number of which does not fit. -/
theorem patchFile_outOfRange {lines : Strings} {options : Int} {l : Str} {a c b d : Nat}
    (hm : numbers l = some (a, c, b, d))
    (h : ¬ (a ≤ intMax ∧ c ≤ intMax ∧ b ≤ intMax ∧ d ≤ intMax))
    (ds : Strings) (r : Str) (p : Nat) (n : Int) :
    patchFile lines options (l :: ds) r p n = .error .outOfRange := by
  obtain ⟨s, rfl⟩ := numbers_head hm
  obtain ⟨⟨m₁, m₂, m₃, m₄⟩, hr, heq⟩ := Option.map_eq_some_iff.mp hm
  simp only [Prod.mk.injEq] at heq
  obtain ⟨rfl, rfl, rfl, rfl⟩ := heq
  rw [patchFile_header, hr]
  simp only [stoi]
  split_ifs with h₁ h₂ h₃ h₄
  · exact absurd ⟨h₁, h₂, h₃, h₄⟩ h
  all_goals rfl

/-- A header whose numbers fit. -/
theorem patchFile_inRange {lines : Strings} {options : Int} {l : Str} {a c b d : Nat}
    (hm : numbers l = some (a, c, b, d)) (ha : a ≤ intMax) (hc : c ≤ intMax) (hb : b ≤ intMax)
    (hd : d ≤ intMax) (ds : Strings) (r : Str) (p : Nat) (n : Int) :
    patchFile lines options (l :: ds) r p n =
      match copyLines lines (firstLine a - p) r p n with
      | .error f => .error f
      | .ok (r, oi, ni) =>
        if (b : Int) - 1 ≠ ni then
          .ok (false, "nl is wrong: ".toList ++ (toString (b : Int)).toList, oi)
        else
          match patchHunk lines ds [] oi ni c d with
          | .error f => .error f
          | .ok r₂ =>
            if r₂.first then patchFile lines options r₂.i (r ++ r₂.second) r₂.oi r₂.ni
            else
              .ok (false, "bad hunk ".toList ++ (toString (b : Int)).toList ++ ": ".toList ++
                r₂.second, r₂.oi) := by
  obtain ⟨s, rfl⟩ := numbers_head hm
  obtain ⟨⟨m₁, m₂, m₃, m₄⟩, hr, heq⟩ := Option.map_eq_some_iff.mp hm
  simp only [Prod.mk.injEq] at heq
  obtain ⟨rfl, rfl, rfl, rfl⟩ := heq
  rw [patchFile_header, hr]
  dsimp only
  rw [stoi_of_le ha, stoi_of_le hb, stoi_of_le hc, stoi_of_le hd]
  rfl

/-- One hunk that applies. -/
theorem patchFile_hunk {lines : Strings} {options : Int} {l : Str} {h : Hunk} {ds : Strings}
    {r : Str} {p : Nat} {n : Int} (hh : Header l h) (hds : [] ∉ ds) (hr : h.InRange)
    (hc : h.at p ≤ max p lines.length) (hn : (h.newStart : Int) - 1 = advance (h.at p - p) n)
    (ho : h.old <+: lines.drop (h.at p)) :
    patchFile lines options (l :: (h.body.map BodyLine.line ++ ds)) r p n =
      patchFile lines options ds
        (r ++ joinLines ((lines.drop p).take (h.at p - p)) ++ joinLines h.new)
        (h.at p + h.old.length) (advance (h.at p - p + h.new.length) n) := by
  obtain ⟨hr₁, hr₂, hr₃, hr₄⟩ := hr
  have hat : p + (firstLine h.oldStart - p) = h.at p := by unfold Hunk.at; omega
  have hsub : firstLine h.oldStart - p = h.at p - p := by omega
  have hcopy : copyLines lines (firstLine h.oldStart - p) r p n = _ := copyLines_ok (by omega)
  rw [hat, hsub] at hcopy
  have hbody := patchHunk_body ds 0 0 [] (advance (h.at p - p) n) ho
  simp only [Nat.add_zero, Int.natCast_zero, patchHunk_zero hds] at hbody
  rw [← Hunk.old, ← Hunk.new] at hbody
  rw [patchFile_inRange hh hr₁ hr₂ hr₃ hr₄, hsub, hcopy]
  dsimp only
  rw [if_neg (by simpa using hn), hbody, advance_add]
  rfl

/-- **From one header to the next.** -/
theorem patchFile_reads {lines : Strings} {options : Int} {ds rest : Strings} {hs : List Hunk}
    (hrd : Reads ds hs rest) :
    ∀ {r : Str} {p p' : Nat} {n n' : Int}, [] ∉ ds → Applies lines p n hs p' n' →
      patchFile lines options ds r p n =
        patchFile lines options rest (r ++ joinLines (written lines p hs)) p' n' := by
  induction hrd with
  | done =>
    rintro r p _ n _ - ⟨rfl, rfl⟩
    simp [written]
  | file hf _ ih =>
    intro r p p' n n' hne ha
    rw [patchFile_file hf, ih (fun hm => hne (List.mem_cons_of_mem _ hm)) ha]
  | hunk hh _ ih =>
    intro r p p' n n' hne ha
    obtain ⟨hr, hc, hn, ho, ha⟩ := ha
    have hds := fun hm => hne (List.mem_cons_of_mem _ (List.mem_append_right _ hm))
    rw [patchFile_hunk hh hds hr hc hn ho, ih hds ha]
    simp [written]

/-- How `patch_file` can fault at the header line `l`: a number does not fit, or the copy loop
or the hunk loop reads past the end. -/
inductive FaultsAt (lines : Strings) (l : Str) (ds : Strings) (p : Nat) (n : Int) : Fault → Prop
  | range {a c b d : Nat} : numbers l = some (a, c, b, d) →
      ¬ (a ≤ intMax ∧ c ≤ intMax ∧ b ≤ intMax ∧ d ≤ intMax) → FaultsAt lines l ds p n .outOfRange
  | copy {a c b d : Nat} : numbers l = some (a, c, b, d) →
      a ≤ intMax ∧ c ≤ intMax ∧ b ≤ intMax ∧ d ≤ intMax →
      max p lines.length < firstLine a → FaultsAt lines l ds p n .outOfBounds
  | hunk {a c b d : Nat} : numbers l = some (a, c, b, d) →
      a ≤ intMax ∧ c ≤ intMax ∧ b ≤ intMax ∧ d ≤ intMax →
      firstLine a ≤ max p lines.length → (b : Int) - 1 = advance (firstLine a - p) n →
      Overrun lines ds (max p (firstLine a)) c d → FaultsAt lines l ds p n .outOfBounds

theorem FaultsAt.error {lines : Strings} {options : Int} {l : Str} {ds : Strings} {p : Nat}
    {n : Int} {f : Fault} (h : FaultsAt lines l ds p n f) (hds : [] ∉ ds) (r : Str) :
    patchFile lines options (l :: ds) r p n = .error f := by
  cases h with
  | range hm hr => exact patchFile_outOfRange hm hr ds r p n
  | copy hm hr hfirst =>
    rw [patchFile_inRange hm hr.1 hr.2.1 hr.2.2.1 hr.2.2.2,
      copyLines_error (by omega) (by omega)]
  | @hunk a c b d hm hr hfirst hn ho =>
    have hat : p + (firstLine a - p) = max p (firstLine a) := by omega
    rw [patchFile_inRange hm hr.1 hr.2.1 hr.2.2.1 hr.2.2.2, copyLines_ok (by omega), hat]
    dsimp only
    rw [if_neg (not_not_intro hn), (patchHunk_error_iff hds).mpr ⟨rfl, ho⟩]

/-- A header line, at which `patch_file` gets through a hunk, fails or faults. -/
theorem patchFile_header_cases (lines : Strings) (options : Int) (s : Str) {ds : Strings}
    (r : Str) (p : Nat) (n : Int) (hds : [] ∉ ds) :
    (∃ h ds', ds = h.body.map BodyLine.line ++ ds' ∧ Header ('@' :: s) h ∧ h.InRange ∧
      h.at p ≤ max p lines.length ∧ (h.newStart : Int) - 1 = advance (h.at p - p) n ∧
      h.old <+: lines.drop (h.at p)) ∨
    (∃ msg p', patchFile lines options (('@' :: s) :: ds) r p n = .ok (false, msg, p')) ∨
    (∃ f, FaultsAt lines ('@' :: s) ds p n f ∧
      patchFile lines options (('@' :: s) :: ds) r p n = .error f) := by
  cases hm : numbers ('@' :: s) with
  | none =>
    rw [patchFile_header, Option.map_eq_none_iff.mp hm]
    exact .inr (.inl ⟨_, _, rfl⟩)
  | some m =>
    obtain ⟨a, c, b, d⟩ := m
    by_cases hr : a ≤ intMax ∧ c ≤ intMax ∧ b ≤ intMax ∧ d ≤ intMax
    swap
    · have hfault : FaultsAt lines ('@' :: s) ds p n .outOfRange := .range hm hr
      exact .inr (.inr ⟨_, hfault, hfault.error hds r⟩)
    by_cases hfirst : firstLine a ≤ max p lines.length
    swap
    · have hfault : FaultsAt lines ('@' :: s) ds p n .outOfBounds := .copy hm hr (by omega)
      exact .inr (.inr ⟨_, hfault, hfault.error hds r⟩)
    rw [patchFile_inRange hm hr.1 hr.2.1 hr.2.2.1 hr.2.2.2, copyLines_ok (by omega)]
    dsimp only
    by_cases hn : (b : Int) - 1 = advance (firstLine a - p) n
    swap
    · rw [if_pos hn]
      exact .inr (.inl ⟨_, _, rfl⟩)
    have hat : p + (firstLine a - p) = max p (firstLine a) := by omega
    have hsub : firstLine a - p = max p (firstLine a) - p := by omega
    rw [if_neg (not_not_intro hn), hat]
    cases hh : patchHunk lines ds [] (max p (firstLine a)) (advance (firstLine a - p) n) c d with
    | error f =>
      obtain ⟨rfl, ho⟩ := (patchHunk_error_iff hds).mp hh
      exact .inr (.inr ⟨_, .hunk hm hr hfirst hn ho, rfl⟩)
    | ok r₂ =>
      cases hf : r₂.first with
      | false => exact .inr (.inl ⟨_, _, if_neg (by simp [hf])⟩)
      | true =>
        obtain ⟨body, hb, hold, hc, hd, -⟩ := patchHunk_true hds hh hf
        have hc' : c = (oldLines body).length := Int.ofNat_inj.mp hc
        have hd' : d = (newLines body).length := Int.ofNat_inj.mp hd
        subst hc' hd'
        refine .inl ⟨⟨a, b, body⟩, r₂.i, hb, hm, hr, ?_, ?_, hold⟩
        · simp only [Hunk.at]
          omega
        · rw [hn, hsub]
          rfl

/-- What `patch_file` does at a line: it passes over it, returns there, gets through a hunk,
fails or faults. -/
theorem patchFile_cases (lines : Strings) (options : Int) {l : Str} {ds : Strings} (r : Str)
    (p : Nat) (n : Int) (hl : l ≠ []) (hds : [] ∉ ds) :
    FileLine l ∨
    (GitLine options l ∧ patchFile lines options (l :: ds) r p n = .ok (true, r, p)) ∨
    (∃ h ds', ds = h.body.map BodyLine.line ++ ds' ∧ Header l h ∧ h.InRange ∧
      h.at p ≤ max p lines.length ∧ (h.newStart : Int) - 1 = advance (h.at p - p) n ∧
      h.old <+: lines.drop (h.at p)) ∨
    (∃ msg p', patchFile lines options (l :: ds) r p n = .ok (false, msg, p')) ∨
    (∃ f, FaultsAt lines l ds p n f ∧ patchFile lines options (l :: ds) r p n = .error f) := by
  obtain ⟨c, s, rfl⟩ := List.exists_cons_of_ne_nil hl
  by_cases hat : c = '@'
  · subst hat
    exact .inr (.inr (patchFile_header_cases lines options s r p n hds))
  by_cases hplus : c = '+'
  · subst hplus
    by_cases hf : "+++".toList <+: '+' :: s
    · exact .inl (.inl hf)
    · rw [patchFile, if_pos rfl, if_neg hf]
      exact .inr (.inr (.inr (.inl ⟨_, _, rfl⟩)))
  by_cases hminus : c = '-'
  · subst hminus
    by_cases hf : "---".toList <+: '-' :: s
    · exact .inl (.inr hf)
    · rw [patchFile, if_neg (by decide), if_pos rfl, if_neg hf]
      exact .inr (.inr (.inr (.inl ⟨_, _, rfl⟩)))
  rw [patchFile, if_neg hplus, if_neg hminus, if_neg hat]
  by_cases hg : (c = 'd' ∨ c = 'i') ∧ options % 2 = 1
  · rw [if_pos hg]
    exact .inr (.inl ⟨⟨hg.2, by simpa using hg.1⟩, rfl⟩)
  · rw [if_neg hg]
    exact .inr (.inr (.inr (.inl ⟨_, _, rfl⟩)))

theorem Applies.cons {lines : Strings} {p p' : Nat} {n n' : Int} {h : Hunk} {hs : List Hunk}
    (hr : h.InRange) (hc : h.at p ≤ max p lines.length)
    (hn : (h.newStart : Int) - 1 = advance (h.at p - p) n) (ho : h.old <+: lines.drop (h.at p))
    (ht : Applies lines (h.at p + h.old.length) (advance (h.at p - p + h.new.length) n) hs p' n') :
    Applies lines p n (h :: hs) p' n' := ⟨hr, hc, hn, ho, ht⟩

/-- **When `patch_file` succeeds**, it has got through all the hunks of the diff. -/
theorem patchFile_true {lines : Strings} {options : Int} :
    ∀ {ds : Strings} {r r' : Str} {p p' : Nat} {n : Int}, [] ∉ ds →
      patchFile lines options ds r p n = .ok (true, r', p') →
      ∃ hs rest n', Reads ds hs rest ∧ Ends options rest ∧ Applies lines p n hs p' n' ∧
        r' = r ++ joinLines (written lines p hs) := by
  intro ds
  induction hn : ds.length using Nat.strong_induction_on generalizing ds with
  | _ k ih =>
    subst hn
    intro r r' p p' n hne hrun
    match ds with
    | [] =>
      rw [patchFile] at hrun
      cases hrun
      exact ⟨[], [], n, .done, .inl rfl, ⟨rfl, rfl⟩, by simp [written]⟩
    | l :: ds =>
      obtain ⟨hl, hds⟩ : l ≠ [] ∧ [] ∉ ds := by simpa [eq_comm] using hne
      obtain hf | ⟨hg, hrun'⟩ | ⟨h, ds', rfl, hh, hr, hc, hn, ho⟩ | ⟨_, _, hrun'⟩ |
        ⟨_, _, hrun'⟩ := patchFile_cases lines options r p n hl hds
      · rw [patchFile_file hf] at hrun
        obtain ⟨hs, rest, n', hrd, he, ha, hr'⟩ := ih ds.length (by simp) rfl hds hrun
        exact ⟨hs, rest, n', .file hf hrd, he, ha, hr'⟩
      · rw [hrun'] at hrun
        cases hrun
        exact ⟨[], l :: ds, n, .done, .inr ⟨l, ds, rfl, hg⟩, ⟨rfl, rfl⟩, by simp [written]⟩
      · have hds' := fun hm => hds (List.mem_append_right _ hm)
        rw [patchFile_hunk hh hds' hr hc hn ho] at hrun
        obtain ⟨hs, rest, n', hrd, he, ha, hr'⟩ := ih ds'.length (by grind) rfl hds' hrun
        exact ⟨h :: hs, rest, n', .hunk hh hrd, he, .cons hr hc hn ho ha,
          by simp [hr', written]⟩
      all_goals rw [hrun'] at hrun; cases hrun

/-- **When `patch_file` faults**, it has got through some hunks and faults at a header. -/
theorem patchFile_error {lines : Strings} {options : Int} {f : Fault} :
    ∀ {ds : Strings} {r : Str} {p : Nat} {n : Int}, [] ∉ ds →
      patchFile lines options ds r p n = .error f →
      ∃ hs l rest p' n', Reads ds hs (l :: rest) ∧ Applies lines p n hs p' n' ∧
        FaultsAt lines l rest p' n' f := by
  intro ds
  induction hn : ds.length using Nat.strong_induction_on generalizing ds with
  | _ k ih =>
    subst hn
    intro r p n hne hrun
    match ds with
    | [] =>
      rw [patchFile] at hrun
      cases hrun
    | l :: ds =>
      obtain ⟨hl, hds⟩ : l ≠ [] ∧ [] ∉ ds := by simpa [eq_comm] using hne
      obtain hf | ⟨hg, hrun'⟩ | ⟨h, ds', rfl, hh, hr, hc, hn, ho⟩ | ⟨_, _, hrun'⟩ |
        ⟨_, hfault, hrun'⟩ := patchFile_cases lines options r p n hl hds
      · rw [patchFile_file hf] at hrun
        obtain ⟨hs, l', rest, p', n', hrd, ha, hfault⟩ := ih ds.length (by simp) rfl hds hrun
        exact ⟨hs, l', rest, p', n', .file hf hrd, ha, hfault⟩
      · rw [hrun'] at hrun
        cases hrun
      · have hds' := fun hm => hds (List.mem_append_right _ hm)
        rw [patchFile_hunk hh hds' hr hc hn ho] at hrun
        obtain ⟨hs, l', rest, p', n', hrd, ha, hfault⟩ :=
          ih ds'.length (by grind) rfl hds' hrun
        exact ⟨h :: hs, l', rest, p', n', .hunk hh hrd, .cons hr hc hn ho ha, hfault⟩
      · rw [hrun'] at hrun
        cases hrun
      · rw [hrun'] at hrun
        cases hrun
        exact ⟨[], l, ds, p, n, .done, ⟨rfl, rfl⟩, hfault⟩

theorem patchFile_ends {lines : Strings} {options : Int} {rest : Strings}
    (he : Ends options rest) (r : Str) (p : Nat) (n : Int) :
    patchFile lines options rest r p n = .ok (true, r, p) := by
  obtain rfl | ⟨l, ds, rfl, hg, hhead⟩ := he
  · rw [patchFile]
  · obtain ⟨s, rfl | rfl⟩ : ∃ s, l = 'd' :: s ∨ l = 'i' :: s := by
      cases l with
      | nil => simp at hhead
      | cons c s => exact ⟨s, by simpa using hhead⟩
    all_goals
      rw [patchFile, if_neg (by decide), if_neg (by decide), if_neg (by decide),
        if_pos ⟨by decide, hg⟩]

/-! ## `patch` -/

/-- The diff's lines that `patch` looks at. -/
def diffLines (split : Str → Strings) (unidiff : Str) : Strings :=
  nonEmpty (prepareLines split unidiff)

theorem nil_notMem_diffLines (split : Str → Strings) (unidiff : Str) :
    [] ∉ diffLines split unidiff := by
  simp [diffLines, nonEmpty]

/-- `patch` in terms of the lines it looks at. -/
theorem patch_eq (split : Str → Strings) (text unidiff : Str) (options : Int) :
    patch split text unidiff options =
      match patchFile (prepareLines split text) options (diffLines split unidiff) [] 0 0 with
      | .error f => .error f
      | .ok (false, msg, _) => .ok (false, "bad file: ".toList ++ msg)
      | .ok (true, r, oi) =>
        .ok (true, (r ++ joinLines ((prepareLines split text).drop oi)).dropLast) := by
  rw [diffLines, patchFile_filter]
  rfl

end Primitives.Patch
