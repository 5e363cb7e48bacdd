import Primitives.Makefile.Model

/-!
# The pieces of a text

What `split_string` gives: the pieces between delimiters, without white space at their ends, but for
those that are empty. So a list of texts comes back from a text in which each is followed by a
delimiter, if and only if each of them is such a piece (`splitString_terminated_iff`).
-/

set_option autoImplicit false

namespace Primitives.Makefile

/-! ## White space at the ends -/

theorem trim_cons {c : Char} (hc : isSpace c = true) (s : Str) : trim (c :: s) = trim s := by
  rw [trim, trim, List.dropWhile_cons_of_pos hc]

theorem trim_concat {c : Char} (hc : isSpace c = true) (s : Str) : trim (s ++ [c]) = trim s := by
  rw [trim, trim, List.dropWhile_append]
  by_cases hs : (s.dropWhile isSpace).isEmpty = true
  · rw [if_pos hs, List.dropWhile_cons_of_pos hc, List.isEmpty_iff.mp hs]
    rfl
  · rw [if_neg hs, List.rdropWhile_concat_pos _ _ _ hc]

theorem mem_of_mem_trim {s : Str} {c : Char} (h : c ∈ trim s) : c ∈ s := by
  have hleft : c ∈ s.dropWhile isSpace := (List.rdropWhile_prefix _ _).subset h
  exact (List.dropWhile_suffix _).subset hleft

/-- No white space at the ends. -/
structure Trimmed (s : Str) : Prop where
  head : ∀ c ∈ s.head?, isSpace c = false
  last : ∀ c ∈ s.getLast?, isSpace c = false

theorem Trimmed.trim_eq {s : Str} (h : Trimmed s) : trim s = s := by
  have hdrop : s.dropWhile isSpace = s := by
    cases s with
    | nil => rfl
    | cons c s =>
      rw [List.dropWhile_cons_of_neg]
      rw [h.head c rfl]
      exact Bool.false_ne_true
  rw [trim, hdrop, List.rdropWhile_eq_self_iff]
  intro hne
  rw [h.last _ (List.getLast?_eq_getLast_of_ne_nil hne)]
  exact Bool.false_ne_true

theorem trimmed_trim (s : Str) : Trimmed (trim s) where
  head := by
    intro c hc
    obtain ⟨t, ht⟩ := List.rdropWhile_prefix isSpace (s.dropWhile isSpace)
    have hhead : (s.dropWhile isSpace).head? = some c := by
      rw [← ht, List.head?_append, show (List.rdropWhile isSpace _).head? = some c from hc]
      rfl
    have hno := List.head?_dropWhile_not isSpace s
    rw [hhead] at hno
    exact hno
  last := by
    intro c hc
    have hne : trim s ≠ [] := by
      intro hnil
      rw [hnil] at hc
      cases hc
    have hno := List.rdropWhile_last_not isSpace (s.dropWhile isSpace) hne
    rw [List.getLast?_eq_getLast_of_ne_nil hne] at hc
    rw [← Option.some.inj hc]
    exact Bool.eq_false_iff.mpr hno

/-! ## Pieces -/

/-- What can stand between delimiters. -/
structure IsPiece (delims : List Char) (w : Str) : Prop where
  ne_nil : w ≠ []
  trimmed : Trimmed w
  chars : ∀ c ∈ w, c ∉ delims

variable {delims : List Char}

theorem splitString_append_cons {d : Char} (hd : d ∈ delims) (s t : Str) :
    splitString (s ++ d :: t) delims = splitString s delims ++ splitString t delims := by
  rw [splitString, splitString, splitString, List.splitOnP_append_cons s t (decide_eq_true hd),
    List.map_append, List.filter_append]

theorem IsPiece.splitString_eq {w : Str} (h : IsPiece delims w) : splitString w delims = [w] := by
  have hno : ∀ c ∈ w, decide (c ∈ delims) = false := fun c hc => decide_eq_false (h.chars c hc)
  rw [splitString, List.splitOnP_eq_singleton hno, List.map_singleton, h.trimmed.trim_eq,
    List.filter_cons_of_pos (by exact decide_eq_true h.ne_nil), List.filter_nil]

/-- What is between delimiters has none in it. -/
theorem notMem_of_mem_splitOnP {p : Char → Bool} {s w : Str} (h : w ∈ s.splitOnP p) :
    ∀ c ∈ w, p c = false := by
  induction s generalizing w with
  | nil =>
    rw [List.splitOnP_nil, List.mem_singleton] at h
    rw [h]
    exact fun c hc => absurd hc List.not_mem_nil
  | cons d s ih =>
    rw [List.splitOnP_cons_eq_if_modifyHead] at h
    split at h
    · rcases List.mem_cons.mp h with rfl | h
      · exact fun c hc => absurd hc List.not_mem_nil
      · exact ih h
    · rename_i hd
      obtain ⟨first, others, hsplit⟩ := List.exists_cons_of_ne_nil (List.splitOnP_ne_nil p s)
      rw [hsplit, List.modifyHead_cons] at h
      have hfirst : first ∈ s.splitOnP p := by
        rw [hsplit]
        exact List.mem_cons_self
      rcases List.mem_cons.mp h with rfl | h
      · intro c hc
        rcases List.mem_cons.mp hc with rfl | hc
        · exact Bool.eq_false_iff.mpr hd
        · exact ih hfirst c hc
      · refine ih ?_
        rw [hsplit]
        exact List.mem_cons_of_mem _ h

theorem isPiece_of_mem_splitString {s w : Str} (h : w ∈ splitString s delims) :
    IsPiece delims w := by
  obtain ⟨hmap, hne⟩ := List.mem_filter.mp h
  obtain ⟨piece, hpiece, rfl⟩ := List.mem_map.mp hmap
  refine ⟨of_decide_eq_true hne, trimmed_trim piece, fun c hc => ?_⟩
  exact of_decide_eq_false (notMem_of_mem_splitOnP hpiece c (mem_of_mem_trim hc))

/-- **Texts that are each followed by a delimiter** come back if and only if they are pieces. -/
theorem splitString_terminated_iff {d : Char} (hd : d ∈ delims) (ws : Strings) :
    splitString (ws.flatMap fun w => w ++ [d]) delims = ws ↔ ∀ w ∈ ws, IsPiece delims w := by
  constructor
  · intro h w hw
    rw [← h] at hw
    exact isPiece_of_mem_splitString hw
  · intro h
    induction ws with
    | nil => rfl
    | cons w ws ih =>
      obtain ⟨hw, hws⟩ := List.forall_mem_cons.mp h
      rw [List.flatMap_cons, List.append_assoc, List.singleton_append, splitString_append_cons hd,
        hw.splitString_eq, ih hws]
      rfl

end Primitives.Makefile
