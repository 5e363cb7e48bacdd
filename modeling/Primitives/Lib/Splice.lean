import Mathlib.Data.List.Basic

/-!
# Splicing edits into a list

An `Edit` replaces a run of a list: at `start`, `old` stands there and `new` is to stand there.
A list of edits `Fits` a list when they come in order, none reaches into the next and each
one's `old` really is what stands at its start. `splice` is the list they make.

What is worth saying about `splice` beyond its equations is that it changes nothing it was not
told to change: `Fits.weave` cuts the list at the edits and exhibits the untouched runs, which
are the same runs before and after.
-/

set_option autoImplicit false

namespace Primitives.Lib

variable {α : Type}

/-- One replacement: at index `start`, the run `old` by the run `new`. -/
structure Edit (α : Type) where
  start : Nat
  old : List α
  new : List α

/-- The index after the edit's run. -/
def Edit.stop (e : Edit α) : Nat := e.start + e.old.length

/-- From index `p` on, the edits are in order, do not overlap and replace what is there. -/
def Fits (xs : List α) : Nat → List (Edit α) → Prop
  | _, [] => True
  | p, e :: es => p ≤ e.start ∧ e.old <+: xs.drop e.start ∧ Fits xs e.stop es

/-- The part of the list from index `p` on, with the edits made. -/
def splice (xs : List α) : Nat → List (Edit α) → List α
  | p, [] => xs.drop p
  | p, e :: es => (xs.drop p).take (e.start - p) ++ e.new ++ splice xs e.stop es

/-- The runs `gaps` and `parts` alternately, a gap first. -/
def weave : List (List α) → List (List α) → List α
  | g :: gs, x :: xs => g ++ x ++ weave gs xs
  | _, _ => []

/-- What follows an edit's run is what follows its `old` part. -/
theorem Fits.drop_eq {xs : List α} {p : Nat} {e : Edit α} {es : List (Edit α)}
    (h : Fits xs p (e :: es)) : xs.drop e.start = e.old ++ xs.drop e.stop := by
  obtain ⟨t, ht⟩ := h.2.1
  have hd : xs.drop e.stop = t := by
    rw [Edit.stop, ← List.drop_drop, ← ht, List.drop_left]
  rw [hd, ht]

/-- **Nothing but the old runs changes.** The list and its splice are woven from the same
gaps: one from the `old` runs, the other from the `new` ones. -/
theorem Fits.weave {xs : List α} :
    ∀ {p : Nat} {es : List (Edit α)}, Fits xs p es →
      ∃ (gaps : List (List α)) (last : List α), gaps.length = es.length ∧
        xs.drop p = Lib.weave gaps (es.map Edit.old) ++ last ∧
        splice xs p es = Lib.weave gaps (es.map Edit.new) ++ last
  | p, [], _ => ⟨[], xs.drop p, rfl, by simp [Lib.weave], by simp [splice, Lib.weave]⟩
  | p, e :: es, h => by
    obtain ⟨gaps, last, hlen, hxs, hsp⟩ := Fits.weave h.2.2
    refine ⟨(xs.drop p).take (e.start - p) :: gaps, last, by simp [hlen], ?_, ?_⟩
    · have hgap : xs.drop p = (xs.drop p).take (e.start - p) ++ xs.drop e.start := by
        conv_lhs => rw [← List.take_append_drop (e.start - p) (xs.drop p)]
        rw [List.drop_drop, Nat.add_sub_cancel' h.1]
      conv_lhs => rw [hgap, h.drop_eq, hxs]
      simp [Lib.weave]
    · rw [splice, hsp]
      simp [Lib.weave]

end Primitives.Lib
