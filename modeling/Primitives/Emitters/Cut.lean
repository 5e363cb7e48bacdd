import Primitives.Emitters.Model

/-!
# Emitters — the newline that is cut

The text of an inline emitter ends with a newline if one of its lines is rendered. Where it has
lines and none of them is, because they are inline emitters without lines, the text is empty and the
cut runs below zero; and so it does for an inline emitter without lines where its emptiness is not
asked for. A run of operations fails so if and only if one of them comes to such a line
(`run_ne_lengthError_iff`).

`Outcome` says what a computation does: it fails by the cut where it is not sound, has no end where it
is endless, and returns elsewhere.
-/

set_option autoImplicit false

namespace Primitives.Emitters

open Lib

/-! ## Outcomes -/

structure Outcome {α : Type} (r : Except Failure α) (sound endless : Prop) (post : α → Prop) :
    Prop where
  fails : ¬ sound → r = .error .lengthError
  stays : sound → endless → r = .error .endless
  returns : sound → ¬ endless → ∃ x, r = .ok x ∧ post x

namespace Outcome

variable {α β : Type} {r : Except Failure α} {s e s' e' : Prop} {p : α → Prop} {p' : β → Prop}

theorem ok {x : α} (h : p x) : Outcome (.ok x) True False p :=
  ⟨fun hno => absurd trivial hno, fun _ h => h.elim, fun _ _ => ⟨x, rfl, h⟩⟩

theorem congr (h : Outcome r s e p) {p' : α → Prop} (hs : s ↔ s') (he : s → (e ↔ e'))
    (hp : ∀ x, p x → p' x) : Outcome r s' e' p' := by
  refine ⟨fun hno => h.fails (hs.not.mpr hno), fun hs' he' => ?_, fun hs' hno => ?_⟩
  · exact h.stays (hs.mpr hs') ((he (hs.mpr hs')).mpr he')
  · obtain ⟨x, hx, hpx⟩ := h.returns (hs.mpr hs') ((he (hs.mpr hs')).not.mpr hno)
    exact ⟨x, hx, hp x hpx⟩

/-- One computation after another. -/
theorem bind {f : α → Except Failure β} (h : Outcome r s e p)
    (hf : ∀ x, p x → Outcome (f x) s' e' p') :
    Outcome (r >>= f) (s ∧ (e ∨ s')) (e ∨ e') p' := by
  by_cases hs : s
  · by_cases he : e
    · have hr := h.stays hs he
      refine ⟨fun hno => absurd ⟨hs, .inl he⟩ hno, fun _ _ => ?_, fun _ hno => absurd (.inl he) hno⟩
      rw [hr]
      rfl
    · obtain ⟨x, hx, hpx⟩ := h.returns hs he
      have hfx := hf x hpx
      rw [hx]
      refine ⟨fun hno => ?_, fun hs' he' => ?_, fun hs' hno => ?_⟩
      · exact hfx.fails fun h' => hno ⟨hs, .inr h'⟩
      · exact hfx.stays (hs'.2.resolve_left he) (he'.resolve_left he)
      · exact hfx.returns (hs'.2.resolve_left he) fun h' => hno (.inr h')
  · refine ⟨fun _ => ?_, fun h' => absurd h'.1 hs, fun h' => absurd h'.1 hs⟩
    rw [h.fails hs]
    rfl

theorem ne_lengthError_iff (h : Outcome r s e p) : r ≠ .error .lengthError ↔ s := by
  constructor
  · intro hr
    by_contra hs
    exact hr (h.fails hs)
  · intro hs hr
    by_cases he : e
    · rw [h.stays hs he] at hr
      cases hr
    · obtain ⟨x, hx, -⟩ := h.returns hs he
      rw [hx] at hr
      cases hr

end Outcome

/-! ## Lines that can be cut -/

/-- A line that is rendered. -/
def Emitter.Renders (e : Emitter) : Prop := ∃ l ∈ e.lines, l.isEmpty = false

mutual

/-- The text of the line has no end: an empty newline is looked for. -/
def Line.Endless : Line → Prop
  | .line _ _ => False
  | .emitterLine _ _ e => e.Endless

def Emitter.Endless : Emitter → Prop
  | .mk lines _ _ newline => EndlessLines (newline = []) lines

/-- Lines with a text that is split where `stops`, without an end then. -/
def EndlessLines (stops : Prop) : List Line → Prop
  | [] => False
  | l :: ls =>
    if l.isEmpty then EndlessLines stops ls else l.Endless ∨ stops ∨ EndlessLines stops ls

end

mutual

/-- The text of the line can be cut: if it is an inline emitter with a newline, it renders a line. -/
def Line.Cuts : Line → Prop
  | .line _ _ => True
  | .emitterLine _ _ e => e.Sound ∧ (e.newline = [] ∨ e.Renders)

/-- The text of the emitter can be had: that of every line that is rendered can be cut. -/
def Emitter.Sound : Emitter → Prop
  | .mk lines _ _ newline => SoundLines (newline = []) lines

/-- What stands behind a line without an end is not come to. -/
def SoundLines (stops : Prop) : List Line → Prop
  | [] => True
  | l :: ls =>
    if l.isEmpty then SoundLines stops ls
    else l.Cuts ∧ (l.Endless ∨ stops ∨ SoundLines stops ls)

end

mutual

/-- The text of the line is empty, if it can be had. -/
def Line.Blank : Line → Prop
  | .line _ text => text = []
  | .emitterLine _ _ e => e.Blank

/-- With an empty newline, an emitter that renders a line has no text. -/
def Emitter.Blank : Emitter → Prop
  | .mk lines _ _ newline => newline = [] ∨ OneBlank lines

/-- Exactly one line is rendered, and its text is empty. -/
def OneBlank : List Line → Prop
  | [] => False
  | l :: ls => if l.isEmpty then OneBlank ls else l.Blank ∧ ∀ l' ∈ ls, l'.isEmpty = true

end

theorem exists_of_endlessLines {stops : Prop} {ls : List Line} (h : EndlessLines stops ls) :
    ∃ l ∈ ls, l.isEmpty = false := by
  induction ls with
  | nil => exact h.elim
  | cons l ls ih =>
    cases hl : l.isEmpty with
    | false => exact ⟨l, List.mem_cons_self, hl⟩
    | true =>
      rw [EndlessLines, if_pos hl] at h
      obtain ⟨l', hmem, hl'⟩ := ih h
      exact ⟨l', List.mem_cons_of_mem l hmem, hl'⟩

theorem Emitter.renders_of_endless {e : Emitter} (h : e.Endless) : e.Renders := by
  obtain ⟨lines, n, indent, newline⟩ := e
  exact exists_of_endlessLines h

theorem splitAt_ne_nil (newline : Str) (n : Nat) (text : Str) : splitAt newline n text ≠ [] := by
  cases n with
  | zero => exact List.cons_ne_nil _ _
  | succ n =>
    rw [splitAt]
    split
    · exact List.cons_ne_nil _ _
    · exact List.cons_ne_nil _ _

/-- A line that is rendered ends with a newline, and is nothing more if its text is empty. -/
theorem render_outcome (indent newline : Str) (n : Int) (t : Str) :
    Outcome (render indent newline n t) True (newline = []) fun s =>
      newline ≠ [] ∧ newline.length ≤ s.flatten.length ∧
        (s.flatten.length = newline.length ↔ t = []) := by
  refine ⟨fun hno => absurd trivial hno, fun _ hnl => ?_, fun _ hnl => ?_⟩
  · rw [render, splitWithIndent, if_pos hnl]
    rfl
  · rw [render, splitWithIndent, if_neg hnl]
    have hpos : 0 < newline.length := List.length_pos_of_ne_nil hnl
    refine ⟨_, rfl, hnl, ?_⟩
    cases t with
    | nil => simp [splitAt]
    | cons c t =>
      rw [List.length_cons, splitAt]
      cases hfind : find newline (c :: t) with
      | none =>
        simp only [List.map_cons, List.map_nil, List.flatten_cons, List.flatten_nil,
          List.length_append, List.length_cons, List.length_nil, reduceCtorEq, iff_false]
        omega
      | some p =>
        -- Two parts have two newlines.
        obtain ⟨q, qs, hqs⟩ := List.exists_cons_of_ne_nil
          (splitAt_ne_nil newline t.length ((c :: t).drop (p + newline.length)))
        simp only [hqs, List.map_cons, List.flatten_cons, List.length_append, reduceCtorEq,
          iff_false]
        omega

/-- The text of lines, of which some are rendered or none. -/
structure Ends (newline : Str) (ls : List Line) (t : Str) : Prop where
  some_rendered : (∃ l ∈ ls, l.isEmpty = false) → newline.length ≤ t.length
  none_rendered : (∀ l ∈ ls, l.isEmpty = true) → t = []
  of_empty : newline = [] → t = []
  length_iff : newline ≠ [] → (t.length = newline.length ↔ OneBlank ls)

theorem Ends.nil (newline : Str) : Ends newline [] [] := by
  refine ⟨fun ⟨_, h, _⟩ => (List.not_mem_nil h).elim, fun _ => rfl, fun _ => rfl, fun hnl => ?_⟩
  refine iff_of_false ?_ id
  intro h
  exact hnl (List.length_eq_zero_iff.mp h.symm)

theorem Ends.skip {newline t : Str} {l : Line} {ls : List Line} (h : Ends newline ls t)
    (hl : l.isEmpty = true) : Ends newline (l :: ls) t := by
  refine ⟨?_, ?_, h.of_empty, ?_⟩
  · rintro ⟨l', hmem, hl'⟩
    rcases List.mem_cons.mp hmem with rfl | hmem
    · rw [hl] at hl'
      cases hl'
    · exact h.some_rendered ⟨l', hmem, hl'⟩
  · intro hall
    exact h.none_rendered fun l' hmem => hall l' (List.mem_cons_of_mem l hmem)
  · rw [OneBlank, if_pos hl]
    exact h.length_iff

/-- A line that is rendered comes before the others. -/
theorem Ends.cons {newline s t : Str} {l : Line} {ls : List Line} (h : Ends newline ls t)
    (hl : l.isEmpty = false) (hnl : newline ≠ []) (hs : newline.length ≤ s.length)
    (hblank : s.length = newline.length ↔ l.Blank) : Ends newline (l :: ls) (s ++ t) := by
  have hpos : 0 < newline.length := List.length_pos_of_ne_nil hnl
  refine ⟨fun _ => ?_, fun hall => ?_, fun h => absurd h hnl, fun _ => ?_⟩
  · rw [List.length_append]
    exact Nat.le_add_right_of_le hs
  · have hno := hall l List.mem_cons_self
    rw [hl] at hno
    cases hno
  · rw [OneBlank, if_neg (Bool.eq_false_iff.mp hl), ← hblank, List.length_append]
    constructor
    · intro hlen
      refine ⟨by omega, fun l' hmem => ?_⟩
      by_contra hno
      have := h.some_rendered ⟨l', hmem, Bool.eq_false_iff.mpr hno⟩
      omega
    · rintro ⟨hlen, hall⟩
      rw [h.none_rendered hall, hlen]
      rfl

/-- The text of an inline emitter is cut, and it is empty then if it was one newline. -/
theorem cut_outcome_of_ends {newline t : Str} {ls : List Line} (ht : Ends newline ls t) :
    Outcome (cut t newline) (newline = [] ∨ ∃ l ∈ ls, l.isEmpty = false) False
      fun t => t = [] ↔ newline = [] ∨ OneBlank ls := by
  have hsound : newline.length ≤ t.length ↔ newline = [] ∨ ∃ l ∈ ls, l.isEmpty = false := by
    constructor
    · intro hle
      by_contra hno
      rw [not_or] at hno
      have hempty : ∀ l ∈ ls, l.isEmpty = true := by
        intro l hl
        by_contra h
        exact hno.2 ⟨l, hl, Bool.eq_false_iff.mpr h⟩
      rw [ht.none_rendered hempty, List.length_nil, Nat.le_zero, List.length_eq_zero_iff] at hle
      exact hno.1 hle
    · rintro (rfl | hsome)
      · exact Nat.zero_le _
      · exact ht.some_rendered hsome
  rw [← hsound, cut]
  refine ⟨fun hno => if_pos (not_le.mp hno), fun _ h => h.elim, fun hle _ => ?_⟩
  refine ⟨_, if_neg (not_lt.mpr hle), ?_⟩
  by_cases hnl : newline = []
  · simp [hnl, ht.of_empty hnl]
  · rw [← ht.length_iff hnl, or_iff_right hnl, List.take_eq_nil_iff]
    have hpos : 0 < newline.length := List.length_pos_of_ne_nil hnl
    constructor
    · rintro (h | rfl)
      · omega
      · exact (not_lt.mpr hle hpos).elim
    · intro h
      exact .inl (by omega)

mutual

theorem Line.getText_outcome : ∀ l : Line,
    Outcome l.getText l.Cuts l.Endless fun t => t = [] ↔ l.Blank
  | .line _ text => .ok Iff.rfl
  | .emitterLine n text (.mk lines k indent newline) => by
    refine ((Emitter.getText_outcome (.mk lines k indent newline)).bind fun _ ht =>
      cut_outcome_of_ends ht).congr ?_
      (fun _ => iff_of_eq (or_false _)) fun _ h => h
    refine and_congr_right fun _ => or_iff_right_of_imp fun hendless => ?_
    exact .inr (Emitter.renders_of_endless hendless)

theorem Emitter.getText_outcome : ∀ e : Emitter,
    Outcome e.getText e.Sound e.Endless (Ends e.newline e.lines)
  | .mk lines _ indent newline => by
    have hflatten : ∀ s : Strings, Ends newline lines s.flatten →
        Outcome (.ok s.flatten) True False (Ends newline lines) := fun s hs => .ok hs
    refine ((strings_outcome indent newline lines).bind hflatten).congr ?_ ?_ fun _ h => h
    · simp [Emitter.Sound]
    · simp [Emitter.Endless]

/-- **The loop of `getStrings`.** -/
theorem strings_outcome (indent newline : Str) : ∀ ls : List Line,
    Outcome (strings indent newline ls) (SoundLines (newline = []) ls)
      (EndlessLines (newline = []) ls) fun s => Ends newline ls s.flatten
  | [] => .ok (Ends.nil newline)
  | l :: ls => by
    rw [strings, SoundLines, EndlessLines]
    cases hl : l.isEmpty with
    | true =>
      refine (strings_outcome indent newline ls).congr (by simp) (fun _ => by simp) ?_
      intro s hs
      exact hs.skip hl
    | false =>
      have hrest : ∀ (t : Str) (s : Strings), (t = [] ↔ l.Blank) → (newline ≠ [] ∧ newline.length ≤ s.flatten.length ∧
            (s.flatten.length = newline.length ↔ t = [])) →
          Outcome (do let rest ← strings indent newline ls; return s ++ rest)
            (SoundLines (newline = []) ls) (EndlessLines (newline = []) ls)
            fun s => Ends newline (l :: ls) s.flatten := by
        intro t s ht ⟨hnl, hs, hlen⟩
        have hok : ∀ rest : Strings, Ends newline ls rest.flatten →
            Outcome (.ok (s ++ rest)) True False fun s => Ends newline (l :: ls) s.flatten := by
          intro rest hrest
          refine .ok ?_
          rw [List.flatten_append]
          exact hrest.cons hl hnl hs (hlen.trans ht)
        refine ((strings_outcome indent newline ls).bind hok).congr ?_ (fun _ => ?_) fun _ h => h
        · simp
        · simp
      have hline := (Line.getText_outcome l).bind fun t ht =>
        (render_outcome indent newline l.nIndents t).bind fun s hs => hrest t s ht hs
      refine hline.congr ?_ (fun _ => ?_) fun _ h => h
      · simp
      · simp

end

theorem Emitter.getStrings_outcome (e : Emitter) :
    Outcome e.getStrings e.Sound e.Endless fun s => Ends e.newline e.lines s.flatten := by
  obtain ⟨lines, n, indent, newline⟩ := e
  exact strings_outcome indent newline lines

/-! ## The operations -/

/-- What the texts of the lines come to when they are had from the last one on, up to the first that
is not empty. -/
def ScanCuts : List Line → Prop
  | [] => True
  | l :: ls => l.Cuts ∧ (¬ l.Endless → l.Blank → ScanCuts ls)

theorem bind_ne_lengthError_iff {α β : Type} {r : Except Failure α} {f : α → Except Failure β}
    (hf : ∀ x, f x ≠ .error .lengthError) :
    (r >>= f) ≠ .error .lengthError ↔ r ≠ .error .lengthError := by
  cases r with
  | ok x => exact iff_of_true (hf x) (by simp)
  | error f => simp [bind, Except.bind]

theorem ok_ne_lengthError {α : Type} (x : α) :
    (Except.ok x : Except Failure α) ≠ .error .lengthError := by
  simp

theorem Line.getText_ne_iff (l : Line) : l.getText ≠ .error .lengthError ↔ l.Cuts :=
  (Line.getText_outcome l).ne_lengthError_iff

namespace Emitter

theorem addLineWithIndent_ne (e : Emitter) (s : Str) (n : Int) :
    e.addLineWithIndent s n ≠ .error .lengthError := by
  refine (bind_ne_lengthError_iff fun _ => ok_ne_lengthError _).mpr ?_
  rw [splitWithIndent]
  split
  · simp
  · exact ok_ne_lengthError _

theorem addLine_ne (e : Emitter) (s : Str) : e.addLine s ≠ .error .lengthError :=
  addLineWithIndent_ne e s _

theorem addLines_ne (e : Emitter) (n : Nat) : e.addLines n ≠ .error .lengthError := by
  induction n generalizing e with
  | zero => exact ok_ne_lengthError _
  | succ n ih => exact (bind_ne_lengthError_iff ih).mpr (addLine_ne e [])

theorem onLast_ne_iff (e : Emitter) {f : Line → Except Failure Line}
    (hf : ∀ l, f l ≠ .error .lengthError ↔ l.Cuts) :
    e.onLast f ≠ .error .lengthError ↔ ∀ l ∈ e.lines.getLast?, l.Cuts := by
  rw [onLast]
  cases e.lines.getLast? with
  | none => simp
  | some l =>
    refine (bind_ne_lengthError_iff fun _ => ok_ne_lengthError _).trans ((hf l).trans ?_)
    simp

theorem trimEnd_ne_iff (e : Emitter) (n : Nat) :
    e.trimEnd n ≠ .error .lengthError ↔ ∀ l ∈ e.lines.getLast?, l.Cuts := by
  refine onLast_ne_iff e fun l => ?_
  rw [← l.getText_ne_iff]
  exact bind_ne_lengthError_iff fun _ => ok_ne_lengthError _

theorem addToLine_ne_iff (n : Int) (s : Str) (l : Line) :
    addToLine n s l ≠ .error .lengthError ↔ l.Cuts := by
  rw [← l.getText_ne_iff]
  refine (bind_ne_lengthError_iff fun _ => ok_ne_lengthError _).trans ?_
  split
  · cases l <;> rfl
  · rfl

theorem cuts_of_addLine {e e' : Emitter} {s : Str} (hnil : e.lines = []) (h : e.addLine s = .ok e')
    {l : Line} (hl : l ∈ e'.lines) : l.Cuts := by
  rw [addLine, addLineWithIndent, splitWithIndent, hnil] at h
  split at h
  · cases h
  · cases h
    obtain ⟨p, -, rfl⟩ := List.mem_map.mp hl
    trivial

theorem addText_ne_iff (e : Emitter) (s : Str) :
    e.addText s ≠ .error .lengthError ↔ ∀ l ∈ e.lines.getLast?, l.Cuts := by
  rw [addText]
  by_cases hnil : e.lines = []
  · rw [if_pos hnil, hnil]
    refine iff_of_true ?_ (by simp)
    cases hadd : e.addLine [] with
    | error f =>
      have hne := e.addLine_ne []
      rw [hadd] at hne
      exact hne
    | ok e' =>
      refine (onLast_ne_iff e' (addToLine_ne_iff _ s)).mpr fun l hl => ?_
      exact cuts_of_addLine hnil hadd (List.mem_of_getLast? hl)
  · rw [if_neg hnil]
    exact onLast_ne_iff e (addToLine_ne_iff _ s)

/-- **The loop of `emptyLines`.** -/
theorem countEmpty_ne_iff (ls : List Line) :
    countEmpty ls ≠ .error .lengthError ↔ ScanCuts ls := by
  induction ls with
  | nil => simp [countEmpty, ScanCuts]
  | cons l ls ih =>
    rw [countEmpty, ScanCuts]
    have hline := l.getText_outcome
    by_cases hcuts : l.Cuts
    · rw [and_iff_right hcuts]
      by_cases hendless : l.Endless
      · rw [hline.stays hcuts hendless]
        exact iff_of_true (by simp [bind, Except.bind]) fun hno => absurd hendless hno
      · obtain ⟨t, ht, hblank⟩ := hline.returns hcuts hendless
        rw [ht]
        by_cases htext : t = []
        · have hrest : (¬ l.Endless → l.Blank → ScanCuts ls) ↔ ScanCuts ls :=
            ⟨fun h => h hendless (hblank.mp htext), fun h _ _ => h⟩
          rw [hrest, ← ih]
          refine Iff.trans ?_ (bind_ne_lengthError_iff fun n => ok_ne_lengthError (n + 1))
          simp only [bind, Except.bind, if_pos htext]
          rfl
        · refine iff_of_true ?_ fun _ h => absurd (hblank.mpr h) htext
          simp only [bind, Except.bind, if_neg htext]
          exact ok_ne_lengthError 0
    · rw [hline.fails hcuts]
      exact iff_of_false (by simp [bind, Except.bind]) fun h => hcuts h.1

theorem emptyLines_ne_iff (e : Emitter) (n : Nat) :
    e.emptyLines n ≠ .error .lengthError ↔ ScanCuts e.lines.reverse := by
  rw [← countEmpty_ne_iff]
  refine bind_ne_lengthError_iff fun c => ?_
  split
  · exact addLines_ne e _
  · exact ok_ne_lengthError _

theorem endBlock_ne_iff (e : Emitter) (semicolon : Bool) :
    e.endBlock semicolon ≠ .error .lengthError ↔ ScanCuts e.lines.reverse := by
  refine (bind_ne_lengthError_iff fun e' => ?_).trans (emptyLines_ne_iff (e.decreaseIndent 1) 0)
  exact addLine_ne e' _

/-- **The loop of `operator+=`.** -/
theorem copyLines_outcome (n : Int) (ls : List Line) :
    Outcome (copyLines n ls) (SoundLines False ls) (EndlessLines False ls) fun _ => True := by
  induction ls with
  | nil => exact .ok trivial
  | cons l ls ih =>
    rw [copyLines, SoundLines, EndlessLines]
    cases hl : l.isEmpty with
    | true => exact ih.congr (by simp) (fun _ => by simp) fun _ h => h
    | false =>
      have hok : ∀ t rest, Outcome (.ok (.line (l.nIndents + n) t :: rest)) True False
          fun _ : List Line => True := fun _ _ => .ok trivial
      refine (l.getText_outcome.bind fun t _ => ih.bind fun rest _ => hok t rest).congr ?_
        (fun _ => ?_) fun _ h => h
      · simp
      · simp

theorem append_ne_iff (e rhs : Emitter) :
    e.append rhs ≠ .error .lengthError ↔ SoundLines False rhs.lines := by
  refine (bind_ne_lengthError_iff fun _ => ok_ne_lengthError _).trans ?_
  exact (copyLines_outcome e.nIndents rhs.lines).ne_lengthError_iff

end Emitter

/-! ## Runs -/

/-- A call does not come to a text that cannot be cut. -/
def Op.Cuts : Op → Emitter → Prop
  | .addText _, e | .trimEnd _, e => ∀ l ∈ e.lines.getLast?, l.Cuts
  | .getText, e | .getStrings, e => e.Sound
  | .emptyLines _, e | .endBlock _, e => ScanCuts e.lines.reverse
  | .append rhs, _ => SoundLines False rhs.lines
  | .inline i op, e =>
    match e.lines[i]? with
    | some (.emitterLine _ _ inner) => op.Cuts inner
    | _ => True
  | _, _ => True

theorem Op.apply_ne_iff (op : Op) (e : Emitter) :
    op.apply e ≠ .error .lengthError ↔ op.Cuts e := by
  induction op generalizing e with
  | addLine s => exact iff_of_true (e.addLine_ne s) trivial
  | addLineWithIndent text n => exact iff_of_true (e.addLineWithIndent_ne text n) trivial
  | removeLines n => exact iff_of_true (ok_ne_lengthError _) trivial
  | addText s => exact e.addText_ne_iff s
  | addEmitter rhs => exact iff_of_true (ok_ne_lengthError _) trivial
  | increaseIndent n => exact iff_of_true (ok_ne_lengthError _) trivial
  | decreaseIndent n => exact iff_of_true (ok_ne_lengthError _) trivial
  | trimEnd n => exact e.trimEnd_ne_iff n
  | getText =>
    exact (bind_ne_lengthError_iff fun _ => ok_ne_lengthError _).trans
      e.getText_outcome.ne_lengthError_iff
  | getStrings =>
    exact (bind_ne_lengthError_iff fun _ => ok_ne_lengthError _).trans
      e.getStrings_outcome.ne_lengthError_iff
  | emptyLines n => exact e.emptyLines_ne_iff n
  | append rhs => exact e.append_ne_iff rhs
  | clear => exact iff_of_true (ok_ne_lengthError _) trivial
  | endBlock semicolon => exact e.endBlock_ne_iff semicolon
  | inline i op ih =>
    rw [apply, Cuts]
    cases e.lines[i]? with
    | none => exact iff_of_true (ok_ne_lengthError _) trivial
    | some l =>
      cases l with
      | line n text => exact iff_of_true (ok_ne_lengthError _) trivial
      | emitterLine n text inner =>
        exact (bind_ne_lengthError_iff fun _ => ok_ne_lengthError _).trans (ih inner)

/-- Every call of a run that is come to cuts what it has to. -/
def CutsRun : List Op → Emitter → Prop
  | [], _ => True
  | op :: ops, e => op.Cuts e ∧ ∀ e', op.apply e = .ok e' → CutsRun ops e'

/-- **Runs.** A run does not fail by the cut if and only if every call comes to lines only that are
no inline emitters, or render a line, as deep as their text is made of such. -/
theorem run_ne_lengthError_iff (ops : List Op) (e : Emitter) :
    run ops e ≠ .error .lengthError ↔ CutsRun ops e := by
  induction ops generalizing e with
  | nil => exact iff_of_true (ok_ne_lengthError _) trivial
  | cons op ops ih =>
    rw [run, CutsRun, ← op.apply_ne_iff]
    cases h : op.apply e with
    | ok e' =>
      rw [and_iff_right (ok_ne_lengthError _)]
      refine (ih e').trans ?_
      simp
    | error f => simp [bind, Except.bind]

/-- An emitter with an inline emitter, in which there is one without lines; and an inline emitter
without lines, behind which a text is added. -/
theorem run_inline_inline :
    let e := Emitter.mk [] 0 [' ', ' ', ' ', ' '] ['\n']
    run [.addEmitter e, .inline 0 (.addEmitter e), .getText] e = .error .lengthError ∧
      run [.addEmitter e, .addText ['a']] e = .error .lengthError :=
  ⟨rfl, rfl⟩

end Primitives.Emitters
