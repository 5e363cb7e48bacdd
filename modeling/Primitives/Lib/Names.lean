import Mathlib.Data.List.TakeWhile
import Primitives.Lib.Path

/-!
# Names and texts

The names of a path are what stands between the separators of its text. Whether the names of one path
begin those of another can be asked of the texts in two ways: a text that begins with the other has its
names before its own unless it goes on in the last of them (`namesOf_isPrefix_iff`), and names that begin
those of the other are a beginning of its text if the separators are at the same places
(`isPrefix_of_namesOf`).
-/

set_option autoImplicit false

namespace Primitives.Lib.Path

/-! ## Names -/

/-- What stands between the separators of a text and is not empty. -/
def namesOf (s : List Char) : List (List Char) := (pieces s).filter (· ≠ [])

/-- The character is not a separator. -/
def inName (c : Char) : Bool := c ≠ '/'

theorem namesOf_nil : namesOf [] = [] := rfl

/-- The first piece, and the names behind it. -/
theorem exists_pieces_eq (s : List Char) : ∃ ps, pieces s = s.takeWhile inName :: ps ∧
    ps.filter (· ≠ []) = namesOf (s.dropWhile inName) := by
  induction s with
  | nil => exact ⟨[], rfl, rfl⟩
  | cons c s ih =>
    by_cases hc : c = '/'
    · subst hc
      exact ⟨pieces s, rfl, rfl⟩
    · obtain ⟨ps, hps, hnames⟩ := ih
      have hno : inName c = true := decide_eq_true hc
      refine ⟨ps, ?_, ?_⟩
      · rw [pieces, if_neg hc, hps, List.takeWhile_cons_of_pos hno]
      · rw [hnames, List.dropWhile_cons_of_pos hno]

theorem namesOf_cons {c : Char} (hc : inName c = true) (s : List Char) : namesOf (c :: s) =
    (c :: s.takeWhile inName) :: namesOf (s.dropWhile inName) := by
  obtain ⟨ps, hps, hnames⟩ := exists_pieces_eq s
  rw [namesOf, pieces, if_neg (of_decide_eq_true hc), hps, ← hnames]
  exact List.filter_cons_of_pos rfl

/-- Induction over the names of a text. -/
theorem namesOf_induction {motive : List Char → Prop} (nil : motive [])
    (separator : ∀ s, motive s → motive ('/' :: s))
    (name : ∀ c s, inName c = true → motive (s.dropWhile inName) → motive (c :: s))
    (s : List Char) : motive s := by
  induction hlen : s.length using Nat.strongRecOn generalizing s with
  | ind n ih =>
    cases s with
    | nil => exact nil
    | cons c s =>
      rw [List.length_cons] at hlen
      cases hc : inName c with
      | false =>
        obtain rfl : c = '/' := not_not.mp (of_decide_eq_false hc)
        exact separator s (ih _ (by omega) s rfl)
      | true =>
        have hle := (List.dropWhile_suffix inName (l := s)).length_le
        exact name c s hc (ih _ (by omega) _ rfl)

theorem isInfix_of_mem_namesOf {n s : List Char} (h : n ∈ namesOf s) : n <:+: s := by
  induction s using namesOf_induction with
  | nil => cases h
  | separator s ih => exact (ih h).trans (List.suffix_cons '/' s).isInfix
  | name c s hc ih =>
    rw [namesOf_cons hc] at h
    rcases List.mem_cons.mp h with rfl | h
    · exact ((List.prefix_cons_inj c).mpr (List.takeWhile_prefix _)).isInfix
    · exact (ih h).trans ((List.dropWhile_suffix _).trans (List.suffix_cons c s)).isInfix

theorem inName_of_mem_namesOf {n s : List Char} (h : n ∈ namesOf s) :
    ∀ c ∈ n, inName c = true := by
  induction s using namesOf_induction with
  | nil => cases h
  | separator s ih => exact ih h
  | name c s hc ih =>
    rw [namesOf_cons hc] at h
    rcases List.mem_cons.mp h with rfl | h
    · intro d hd
      rcases List.mem_cons.mp hd with rfl | hd
      · exact hc
      · exact List.mem_takeWhile_imp hd
    · exact ih h

theorem base_ofText (s : List Char) : (ofText s).base = namesOf s := by
  have hne : ∀ n ∈ namesOf s, n ≠ [] := fun n hn => of_decide_eq_true (List.mem_filter.mp hn).2
  rw [ofText]
  split
  · exact base_concat_nil _ _
  · exact base_of_forall_ne_nil _ hne

/-! ## A text that begins with another -/

/-- A text goes on in the last name of another that it begins with. -/
def GoesOn (r v : List Char) : Prop :=
  (∃ d ∈ r.getLast?, inName d = true) ∧ ∃ c t, inName c = true ∧ v = r ++ c :: t

theorem namesOf_append_separator (s t : List Char) :
    namesOf (s ++ '/' :: t) = namesOf s ++ namesOf t := by
  induction s using namesOf_induction with
  | nil => rfl
  | separator s ih => exact ih
  | name c s hc ih =>
    have htake : (s ++ '/' :: t).takeWhile inName = s.takeWhile inName := by
      rw [List.takeWhile_append]
      split
      · rename_i hall
        rw [List.takeWhile_cons_of_neg (by decide), List.append_nil,
          (List.takeWhile_prefix _).eq_of_length hall]
      · rfl
    have hdrop : (s ++ '/' :: t).dropWhile inName =
        s.dropWhile inName ++ '/' :: t := by
      rw [List.dropWhile_append]
      split
      · rename_i hempty
        rw [List.isEmpty_iff.mp hempty]
        exact List.dropWhile_cons_of_neg (by decide)
      · rfl
    rw [List.cons_append, namesOf_cons hc, namesOf_cons hc, htake, hdrop, ih, List.cons_append]

/-- The last name is another one where the text goes on in it. -/
theorem not_isPrefix_of_goesOn {r v : List Char} (h : GoesOn r v) : ¬ namesOf r <+: namesOf v := by
  obtain ⟨⟨d, hd, hlast⟩, c, t, hc, rfl⟩ := h
  induction r using namesOf_induction with
  | nil => cases hd
  | separator s ih =>
    cases s with
    | nil =>
      obtain rfl : '/' = d := Option.some.inj hd
      exact absurd hlast (by decide)
    | cons x s => exact ih (by rwa [List.getLast?_cons_cons] at hd)
  | name x s hx ih =>
    rw [List.cons_append, namesOf_cons hx, namesOf_cons hx, List.cons_prefix_cons,
      List.takeWhile_append, List.dropWhile_append]
    rintro ⟨heq, hrest⟩
    by_cases hall : (s.takeWhile inName).length = s.length
    · rw [if_pos hall, (List.takeWhile_prefix _).eq_of_length hall,
        List.takeWhile_cons_of_pos hc] at heq
      have hlen := congrArg List.length heq
      simp at hlen
    · have hne : s.dropWhile inName ≠ [] := by
        intro hnil
        have hsplit := List.takeWhile_append_dropWhile (p := inName) (l := s)
        rw [hnil, List.append_nil] at hsplit
        exact hall (congrArg List.length hsplit)
      rw [if_neg (by simpa using hne)] at hrest
      refine ih ?_ hrest
      obtain ⟨l, hl⟩ := List.dropWhile_suffix inName (l := s)
      rw [← hl, ← List.cons_append, List.getLast?_append_of_ne_nil _ hne] at hd
      exact hd

/-- **A text that begins with another** has its names before its own, unless it goes on in the last. -/
theorem namesOf_isPrefix_iff {r v : List Char} (h : r <+: v) :
    namesOf r <+: namesOf v ↔ ¬ GoesOn r v := by
  refine ⟨fun hnames hgoes => not_isPrefix_of_goesOn hgoes hnames, fun hno => ?_⟩
  obtain ⟨t, rfl⟩ := h
  cases t with
  | nil => rw [List.append_nil]
  | cons c t =>
    cases hc : inName c with
    | false =>
      obtain rfl : c = '/' := not_not.mp (of_decide_eq_false hc)
      rw [namesOf_append_separator]
      exact List.prefix_append _ _
    | true =>
      rcases List.eq_nil_or_concat' r with rfl | ⟨r, d, rfl⟩
      · exact List.nil_prefix
      · cases hd : inName d with
        | false =>
          obtain rfl : d = '/' := not_not.mp (of_decide_eq_false hd)
          rw [List.append_assoc, List.singleton_append, namesOf_append_separator,
            namesOf_append_separator, namesOf_nil, List.append_nil]
          exact List.prefix_append _ _
        | true =>
          refine absurd ⟨⟨d, ?_, hd⟩, c, t, hc, rfl⟩ hno
          rw [List.getLast?_concat]
          rfl

/-! ## Names that begin others -/

/-- The separators of the two are at the same places, as far as the first goes. -/
def SameSeparators (r v : List Char) : Prop := r.map inName <+: v.map inName

/-- **Names that begin others** are written as a beginning of their text if the separators are at the
same places. -/
theorem isPrefix_of_namesOf {r v : List Char} (hnames : namesOf r <+: namesOf v)
    (h : SameSeparators r v) : r <+: v := by
  induction r using namesOf_induction generalizing v with
  | nil => exact List.nil_prefix
  | separator s ih =>
    cases v with
    | nil => exact absurd (List.prefix_nil.mp h) (List.cons_ne_nil _ _)
    | cons d v =>
      rw [SameSeparators, List.map_cons, List.map_cons, List.cons_prefix_cons] at h
      obtain rfl : d = '/' := not_not.mp (of_decide_eq_false h.1.symm)
      exact (List.prefix_cons_inj '/').mpr (ih hnames h.2)
  | name c s hc ih =>
    cases v with
    | nil => exact absurd (List.prefix_nil.mp h) (List.cons_ne_nil _ _)
    | cons d v =>
      rw [SameSeparators, List.map_cons, List.map_cons, List.cons_prefix_cons] at h
      obtain ⟨hd, hseparators⟩ := h
      rw [namesOf_cons hc, namesOf_cons (hd.symm.trans hc), List.cons_prefix_cons, List.cons.injEq]
        at hnames
      obtain ⟨⟨rfl, htake⟩, hnames⟩ := hnames
      -- the first names are the same, and so the separators behind them are at the same places
      rw [← List.takeWhile_append_dropWhile (p := inName) (l := s),
        ← List.takeWhile_append_dropWhile (p := inName) (l := v), htake] at hseparators ⊢
      rw [List.map_append, List.map_append, List.prefix_append_right_inj] at hseparators
      rw [List.prefix_cons_inj, List.prefix_append_right_inj]
      exact ih hnames hseparators

/-! ## Components -/

/-- The root directory, if there is one, and the names. -/
def components (p : Path) : List (List Char) := if p.isAbsolute then ['/'] :: p.base else p.base

theorem components_ofText (s : List Char) :
    components (ofText s) = if s.head? = some '/' then ['/'] :: namesOf s else namesOf s := by
  rw [components, base_ofText]
  simp [ofText]

theorem root_notMem_namesOf (s : List Char) : ['/'] ∉ namesOf s := by
  intro h
  exact absurd (inName_of_mem_namesOf h '/' List.mem_cons_self) (by decide)

/-- Components that begin others. -/
theorem components_isPrefix_iff (r v : List Char) :
    components (ofText r) <+: components (ofText v) ↔
      r = [] ∨ (r.head? = some '/' ↔ v.head? = some '/') ∧ namesOf r <+: namesOf v := by
  rw [components_ofText, components_ofText]
  by_cases hr : r.head? = some '/' <;> by_cases hv : v.head? = some '/'
  · have hne : r ≠ [] := by
      rintro rfl
      cases hr
    rw [if_pos hr, if_pos hv, List.prefix_cons_inj, or_iff_right hne, and_iff_right]
    exact iff_of_true hr hv
  · have hne : r ≠ [] := by
      rintro rfl
      cases hr
    rw [if_pos hr, if_neg hv, or_iff_right hne]
    refine iff_of_false (fun hpre => ?_) fun h => hv (h.1.mp hr)
    exact root_notMem_namesOf v (hpre.subset List.mem_cons_self)
  · rw [if_neg hr, if_pos hv]
    cases r with
    | nil => exact iff_of_true List.nil_prefix (.inl rfl)
    | cons c s =>
      have hc : inName c = true := decide_eq_true fun heq => hr (congrArg some heq)
      rw [namesOf_cons hc]
      refine iff_of_false (fun hpre => ?_) ?_
      · obtain ⟨heq, -⟩ := List.cons_prefix_cons.mp hpre
        obtain ⟨rfl, -⟩ := List.cons.inj heq
        exact hr rfl
      · rintro (hnil | h)
        · cases hnil
        · exact hr (h.1.mpr hv)
  · rw [if_neg hr, if_neg hv, and_iff_right (iff_of_false hr hv)]
    refine ⟨.inr, fun h => h.elim (fun hnil => ?_) id⟩
    rw [hnil]
    exact List.nil_prefix

end Primitives.Lib.Path
