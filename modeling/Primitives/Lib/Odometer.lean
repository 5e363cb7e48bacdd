import Mathlib.Data.List.Induction
import Mathlib.Data.List.Lex
import Mathlib.Order.Cover

/-!
# Counting in digits

A list of digits is counted up by its last digit that is not the greatest one, and the greatest ones
behind it start again (`Next`). Among the lists of one length that is the next one in the lexicographic
order (`Next.lt_iff_le`).
-/

set_option autoImplicit false

namespace Primitives.Lib

/-- A list with another last element than `c` ends in it and in some `c`. -/
theorem exists_append_replicate {α : Type} {c : α} {l : List α} (h : ∃ x ∈ l, x ≠ c) :
    ∃ pre x k, l = pre ++ x :: List.replicate k c ∧ x ≠ c := by
  induction l using List.reverseRecOn with
  | nil =>
    obtain ⟨x, hx, -⟩ := h
    cases hx
  | append_singleton l y ih =>
    by_cases hy : y = c
    · have hl : ∃ x ∈ l, x ≠ c := by
        obtain ⟨x, hx, hne⟩ := h
        rcases List.mem_append.mp hx with hx | hx
        · exact ⟨x, hx, hne⟩
        · exact absurd (List.mem_singleton.mp hx ▸ hy) hne
      obtain ⟨pre, x, k, rfl, hne⟩ := ih hl
      refine ⟨pre, x, k + 1, ?_, hne⟩
      rw [hy, List.append_assoc, List.replicate_succ', List.cons_append]
    · exact ⟨l, y, 0, rfl, hy⟩

section

variable {α : Type} [LinearOrder α] {bot top : α}

theorem cons_le_cons_iff {x y : α} {l m : List α} : x :: l ≤ y :: m ↔ x < y ∨ x = y ∧ l ≤ m := by
  rw [← not_lt, List.cons_lt_cons_iff, not_or, not_and, not_lt]
  constructor
  · rintro ⟨hle, hlt⟩
    exact hle.lt_or_eq.imp_right fun heq => ⟨heq, not_lt.mp (hlt heq.symm)⟩
  · rintro (hlt | ⟨rfl, hle⟩)
    · exact ⟨hlt.le, fun heq => absurd heq hlt.ne'⟩
    · exact ⟨le_rfl, fun _ => hle.not_gt⟩

/-- All digits are the greatest. -/
theorem le_replicate {m : List α} (h : ∀ x ∈ m, x ≤ top) : m ≤ List.replicate m.length top := by
  induction m with
  | nil => exact le_rfl
  | cons x m ih =>
    obtain ⟨hx, hm⟩ := List.forall_mem_cons.mp h
    rw [List.length_cons, List.replicate_succ, cons_le_cons_iff]
    exact hx.lt_or_eq.imp_right fun heq => ⟨heq, ih hm⟩

/-- All digits are the least. -/
theorem replicate_le {m : List α} (h : ∀ x ∈ m, bot ≤ x) : List.replicate m.length bot ≤ m := by
  induction m with
  | nil => exact le_rfl
  | cons x m ih =>
    obtain ⟨hx, hm⟩ := List.forall_mem_cons.mp h
    rw [List.length_cons, List.replicate_succ, cons_le_cons_iff]
    exact hx.lt_or_eq.imp_right fun heq => ⟨heq, ih hm⟩

/-- The digit `c` goes up to `d`, and the digits behind it start again. -/
def Next (bot top : α) (l l' : List α) : Prop :=
  ∃ (pre : List α) (c d : α) (k : ℕ), c ⋖ d ∧ l = pre ++ c :: List.replicate k top ∧
    l' = pre ++ d :: List.replicate k bot

theorem cons_lt_iff_le {c d : α} (h : c ⋖ d) {l l' m : List α} (x : α) (hl : m ≤ l) (hl' : l' ≤ m) :
    c :: l < x :: m ↔ d :: l' ≤ x :: m := by
  rw [List.cons_lt_cons_iff, cons_le_cons_iff]
  constructor
  · rintro (hlt | ⟨-, hlt⟩)
    · exact (h.ge_of_gt hlt).lt_or_eq.imp_right fun heq => ⟨heq, hl'⟩
    · exact absurd hl hlt.not_ge
  · rintro (hlt | ⟨heq, -⟩)
    · exact .inl (h.lt.trans hlt)
    · exact .inl (heq ▸ h.lt)

namespace Next

variable {l l' m : List α}

theorem length_eq (h : Next bot top l l') : l'.length = l.length := by
  obtain ⟨pre, c, d, k, -, rfl, rfl⟩ := h
  simp

theorem lt (h : Next bot top l l') : l < l' := by
  obtain ⟨pre, c, d, k, hcd, rfl, rfl⟩ := h
  induction pre with
  | nil => exact List.cons_lt_cons_iff.mpr (.inl hcd.lt)
  | cons x pre ih => exact List.cons_lt_cons_iff.mpr (.inr ⟨rfl, ih⟩)

/-- **Nothing of the length is between** a list of digits and the next one. -/
theorem lt_iff_le (h : Next bot top l l') (hlen : m.length = l.length)
    (hm : ∀ x ∈ m, bot ≤ x ∧ x ≤ top) : l < m ↔ l' ≤ m := by
  obtain ⟨pre, c, d, k, hcd, rfl, rfl⟩ := h
  -- on the digits before the one that goes up, which have to be the same
  induction pre generalizing m with
  | nil =>
    cases m with
    | nil => cases hlen
    | cons x m =>
      obtain ⟨-, hm⟩ := List.forall_mem_cons.mp hm
      have hk : m.length = k := by simpa using hlen
      rw [← hk]
      exact cons_lt_iff_le hcd x (le_replicate fun y hy => (hm y hy).2)
        (replicate_le fun y hy => (hm y hy).1)
  | cons y pre ih =>
    cases m with
    | nil => cases hlen
    | cons x m =>
      obtain ⟨-, hm⟩ := List.forall_mem_cons.mp hm
      rw [List.cons_append, List.cons_append, List.cons_lt_cons_iff, cons_le_cons_iff]
      refine or_congr Iff.rfl (and_congr_right fun _ => ?_)
      exact ih hm (Nat.succ.inj hlen)

theorem lt_iff_le' (h : Next bot top l l') (hlen : m.length = l.length)
    (hm : ∀ x ∈ m, bot ≤ x ∧ x ≤ top) : m < l' ↔ m ≤ l := by
  rw [← not_le, ← h.lt_iff_le hlen hm, not_lt]

/-- A list is the next one of one list at most. -/
theorem left_unique (h : Next bot top l l') (h' : Next bot top m l')
    (hl : ∀ x ∈ l, bot ≤ x ∧ x ≤ top) (hm : ∀ x ∈ m, bot ≤ x ∧ x ≤ top) : l = m := by
  have hlen : m.length = l.length := h'.length_eq.symm.trans h.length_eq
  exact le_antisymm ((h'.lt_iff_le' hlen.symm hl).mp h.lt) ((h.lt_iff_le' hlen hm).mp h'.lt)

/-- And it has one next list at most. -/
theorem right_unique (h : Next bot top l l') (h' : Next bot top l m)
    (hl' : ∀ x ∈ l', bot ≤ x ∧ x ≤ top) (hm : ∀ x ∈ m, bot ≤ x ∧ x ≤ top) : l' = m :=
  le_antisymm ((h.lt_iff_le h'.length_eq hm).mp h'.lt) ((h'.lt_iff_le h.length_eq hl').mp h.lt)

theorem exists_ne_top (h : Next bot top l l') (hl' : ∀ x ∈ l', x ≤ top) : ∃ x ∈ l, x ≠ top := by
  by_contra hno
  push Not at hno
  have hle := le_replicate hl'
  rw [h.length_eq, ← List.eq_replicate_iff.mpr ⟨rfl, hno⟩] at hle
  exact h.lt.not_ge hle

theorem exists_ne_bot (h : Next bot top l l') (hl : ∀ x ∈ l, bot ≤ x) : ∃ x ∈ l', x ≠ bot := by
  by_contra hno
  push Not at hno
  have hle := replicate_le hl
  rw [← h.length_eq, ← List.eq_replicate_iff.mpr ⟨rfl, hno⟩] at hle
  exact h.lt.not_ge hle

end Next

end

end Primitives.Lib
