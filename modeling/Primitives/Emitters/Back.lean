import Primitives.Emitters.Cut

/-!
# Emitters — the last line

`addText` and `trimEnd` ask the last line for its text, change it, and set it. Every line is asked by
`getText`, which an inline emitter overrides. `setText` sets the text of the line itself, and of this one
an inline emitter makes nothing: what is rendered of it stays as it was (`addText_trimEnd_iff`).
-/

set_option autoImplicit false

namespace Primitives.Emitters

open Lib

/-- A line that is no inline emitter. -/
def Line.Plain : Line → Prop
  | .line _ _ => True
  | .emitterLine _ _ _ => False

/-- The text of the line can be had. -/
def Line.Readable (l : Line) : Prop := l.Cuts ∧ ¬ l.Endless

/-- An operation makes `f t` of the text `t` of the last line, and leaves the earlier lines. -/
def ChangesBack (e : Emitter) (r : Except Failure Emitter) (f : Str → Str) : Prop :=
  ∃ (ls : List Line) (l l' : Line) (e' : Emitter) (t : Str), e.lines = ls ++ [l] ∧ r = .ok e' ∧
    e'.lines = ls ++ [l'] ∧ l.getText = .ok t ∧ l'.getText = .ok (f t)

theorem Line.exists_getText_iff (l : Line) {p : Str → Prop} :
    (∃ t, l.getText = .ok t ∧ p t) ↔ l.Readable ∧ ∀ t, l.getText = .ok t → p t := by
  have houtcome := l.getText_outcome
  constructor
  · rintro ⟨t, ht, hp⟩
    refine ⟨⟨?_, fun hendless => ?_⟩, fun t' ht' => ?_⟩
    · by_contra hcuts
      rw [houtcome.fails hcuts] at ht
      cases ht
    · by_cases hcuts : l.Cuts
      · rw [houtcome.stays hcuts hendless] at ht
        cases ht
      · rw [houtcome.fails hcuts] at ht
        cases ht
    · rw [ht] at ht'
      cases ht'
      exact hp
  · rintro ⟨hread, hp⟩
    obtain ⟨t, ht, -⟩ := houtcome.returns hread.1 hread.2
    exact ⟨t, ht, hp t ht⟩

/-- The text that is read is not the one that was set, if the line is an inline emitter. -/
theorem Line.getText_setText (l : Line) (t : Str) :
    (l.Plain ∧ (l.setText t).getText = .ok t) ∨ (¬ l.Plain ∧ (l.setText t).getText = l.getText) := by
  cases l with
  | line n text => exact .inl ⟨trivial, by rw [setText, getText]⟩
  | emitterLine n text e => exact .inr ⟨fun h => h, by rw [setText, getText, getText]⟩

/-- **An operation that sets the text of the last line**: `l₁` is this line, maybe with other indents. -/
theorem changesBack_iff {e : Emitter} {ls : List Line} {l l₁ : Line} (he : e.lines = ls ++ [l])
    (hplain : l₁.Plain ↔ l.Plain) (hsame : l₁.getText = l.getText) {g : Str → Str}
    {f : Line → Except Failure Line} (hf : f l = do let t ← l₁.getText; return l₁.setText (g t)) :
    ChangesBack e (e.onLast f) g ↔ l.Plain ∨ ∃ t, l.getText = .ok t ∧ g t = t := by
  have hlast : e.lines.getLast? = some l := by
    rw [he, List.getLast?_concat]
  have hdrop : e.lines.dropLast = ls := by
    rw [he, List.dropLast_concat]
  have hstep : ∀ t, l.getText = .ok t →
      e.onLast f = .ok (e.setLines (ls ++ [l₁.setText (g t)])) := by
    intro t ht
    rw [Emitter.onLast, hlast]
    simp only [hf, hsame, ht, hdrop]
    rfl
  constructor
  · rintro ⟨ls', m, l', e', t, he', hr, hlines, ht, ht'⟩
    obtain ⟨rfl, hm⟩ := List.append_inj' (he.symm.trans he') rfl
    cases hm
    rw [hstep t ht] at hr
    cases hr
    obtain ⟨-, hl'⟩ := List.append_inj' hlines rfl
    cases hl'
    rcases l₁.getText_setText (g t) with ⟨hp, -⟩ | ⟨-, hget⟩
    · exact .inl (hplain.mp hp)
    · -- the text is the one that the inline emitter had
      rw [hget, hsame, ht] at ht'
      exact .inr ⟨t, ht, (Except.ok.inj ht').symm⟩
  · intro h
    obtain ⟨t, ht, hkeeps⟩ : ∃ t, l.getText = .ok t ∧ (l.Plain ∨ g t = t) := by
      rcases h with hp | ⟨t, ht, hg⟩
      · cases l with
        | line n text => exact ⟨text, by rw [Line.getText], .inl trivial⟩
        | emitterLine n text inner => exact hp.elim
      · exact ⟨t, ht, .inr hg⟩
    refine ⟨ls, l, l₁.setText (g t), _, t, he, hstep t ht, rfl, ht, ?_⟩
    rcases l₁.getText_setText (g t) with ⟨-, hget⟩ | ⟨hno, hget⟩
    · exact hget
    · rw [hget, hsame, ht, hkeeps.resolve_left fun hp => hno (hplain.mpr hp)]

/-- **The last line.** `addText` appends to its text and `trimEnd` cuts its end, if and only if the line is
no inline emitter, or is one with a text and there is nothing to be done. -/
theorem addText_trimEnd_iff (e : Emitter) (ls : List Line) (l : Line) (h : e.lines = ls ++ [l]) :
    (∀ s : Str, ChangesBack e (e.addText s) (fun t => t ++ s) ↔ l.Plain ∨ l.Readable ∧ s = []) ∧
    ∀ n : Nat, ChangesBack e (e.trimEnd n) (fun t => t.take (t.length - min n t.length)) ↔
      l.Plain ∨ l.Readable ∧ (n = 0 ∨ l.Blank) := by
  have hne : e.lines ≠ [] := by
    rw [h]
    exact List.append_ne_nil_of_right_ne_nil _ (List.cons_ne_nil _ _)
  constructor
  · intro s
    have hadd : e.addText s = e.onLast (Emitter.addToLine e.nIndents s) := by
      rw [Emitter.addText, if_neg hne]
      rfl
    let l₁ := if s ≠ [] ∧ l.nIndents = 0 then l.setIndents e.nIndents else l
    have hl₁ : (l₁.Plain ↔ l.Plain) ∧ l₁.getText = l.getText := by
      show ((if _ then _ else _ : Line).Plain ↔ _) ∧ (if _ then _ else _ : Line).getText = _
      split
      · cases l with
        | line k text => exact ⟨Iff.rfl, by rw [Line.setIndents, Line.getText, Line.getText]⟩
        | emitterLine k text inner => exact ⟨Iff.rfl, by rw [Line.setIndents, Line.getText, Line.getText]⟩
      · exact ⟨Iff.rfl, rfl⟩
    rw [hadd, changesBack_iff h hl₁.1 hl₁.2 rfl, l.exists_getText_iff]
    refine or_congr_right (and_congr_right fun hread => ?_)
    obtain ⟨t, ht, -⟩ := l.getText_outcome.returns hread.1 hread.2
    simp [ht]
  · intro n
    have htrim : e.trimEnd n = e.onLast fun l => do
        let t ← l.getText
        return l.setText (t.take (t.length - min n t.length)) := by
      have hmin : ∀ t : Str, t.length - n = t.length - min n t.length := fun t => by omega
      simp only [Emitter.trimEnd, hmin]
    rw [htrim, changesBack_iff h Iff.rfl rfl rfl, l.exists_getText_iff]
    refine or_congr_right (and_congr_right fun hread => ?_)
    obtain ⟨t, ht, hblank⟩ := l.getText_outcome.returns hread.1 hread.2
    rw [← hblank]
    simp only [ht, Except.ok.injEq, forall_eq']
    rw [List.take_eq_self_iff]
    cases t with
    | nil => simp
    | cons c t =>
      rw [List.length_cons]
      simp
      omega

/-- A plain line. -/
theorem back_line : ChangesBack (.mk [.line 0 ['a']] 0 [] ['\n'])
    ((Emitter.mk [.line 0 ['a']] 0 [] ['\n']).addText ['b']) (fun t => t ++ ['b']) :=
  ((addText_trimEnd_iff (.mk [.line 0 ['a']] 0 [] ['\n']) [] (.line 0 ['a']) rfl).1 ['b']).mpr (.inl trivial)

/-- An inline emitter with a line. -/
def withInline : Emitter := .mk [.emitterLine 0 [] (.mk [.line 0 ['a']] 0 [] ['\n'])] 0 [] ['\n']

/-- What was added is not rendered. -/
theorem back_inline : ¬ ChangesBack withInline (withInline.addText ['b']) (fun t => t ++ ['b']) ∧
    (do let e ← withInline.addText ['b']; e.getText) = .ok ['a', '\n'] := by
  refine ⟨fun h => ?_, rfl⟩
  have hlines : withInline.lines = [] ++ [_] := rfl
  have hback := (changesBack_iff (g := fun t => t ++ ['b']) (f := Emitter.addToLine 0 ['b']) hlines
    Iff.rfl rfl rfl).mp h
  rcases hback with hplain | ⟨t, -, ht⟩
  · exact hplain
  · exact absurd ht (by simp)

end Primitives.Emitters
