import Primitives.Version1.Digits

/-!
# The vectors of carets and tildes

`caret` and `tilde` increment one number and fill those behind it. The number is there, and after the
increment it is positive, so that the version has one before it; what is filled begins behind the
vector if it is the last number that a caret increments after zeros only (`caretNumbers_outOfBounds_iff`).
-/

set_option autoImplicit false

namespace Primitives.Version1

open Lib

/-! ## Versions of a text -/

theorem minimumLevel_le_prepared (v : Version) : Version.minimumLevel ≤ (prepared v).getLevel := by
  rw [prepared, Version.getLevel_prepareVersion]
  exact le_max_right _ _

namespace VersionText

variable (t : VersionText)

theorem minimumLevel_le : Version.minimumLevel ≤ t.value.getLevel := by
  cases t with
  | version numbers ne_nil extra =>
    rw [value, Version.getLevel, List.length_append, List.length_map, List.length_replicate]
    omega
  | branch name ne_nil => exact le_refl _

theorem numbers_of_isBranch (h : t.value.isBranch = true) : t.value.numbers = [0, 0, 1] := by
  cases t with
  | version numbers ne_nil extra => cases h
  | branch name ne_nil => rfl

theorem prepared_leavesUp : (prepared t.value).leavesUp = t.value.top := by
  rw [Version.leavesUp_eq (minimumLevel_le_prepared _), Bool.eq_iff_iff, prepared,
    Version.top_prepareVersion]
  exact and_iff_right t.minimumLevel_le

end VersionText

theorem prepared_leavesDown (v : Version) : (prepared v).leavesDown = v.blank := by
  rw [Bool.eq_iff_iff, Version.leavesDown_iff (minimumLevel_le_prepared _), prepared,
    ← Version.zero_iff, Version.zero_prepareVersion_zero]

/-! ## Carets and tildes -/

/-- What a pair is made of that fails where one of its versions does. -/
theorem bind_pair_eq_error_iff {x : Except Failure Version} {g : Version → RangePair} {f : Failure} :
    (do let v ← x; return [g v] : Except Failure (List RangePair)) = .error f ↔ x = .error f := by
  rw [bind_eq_error_iff]
  refine or_iff_left ?_
  rintro ⟨v, -, h⟩
  cases h

theorem exists_of_bind_pair {x : Except Failure Version} {g : Version → RangePair}
    {ps : List RangePair} (h : (do let v ← x; return [g v] : Except Failure (List RangePair)) = .ok ps) :
    ∃ p, ps = [p] := by
  obtain ⟨v, -, h⟩ := of_bind_eq_ok h
  cases h
  exact ⟨_, rfl⟩

section Vectors

variable {ns ns' : List Int} {i k : Nat} {n : Int}

theorem incAt_eq (hn : ns[i]? = some n) :
    incAt ns i = if n = int64Max then .error .overflow else .ok (ns.set i (n + 1)) := by
  rw [incAt, hn]

theorem incAt_fill_outOfBounds_iff (hn : ns[i]? = some n) :
    (incAt ns i >>= fun ns => fill ns k ns.length 0) = .error .outOfBounds ↔
      n ≠ int64Max ∧ ns.length < k := by
  rw [incAt_eq hn]
  split
  · rename_i hmax
    exact iff_of_false (fun h => by cases h) fun h => h.1 hmax
  · rename_i hmax
    show fill _ k _ 0 = _ ↔ _
    rw [and_iff_right hmax, fill, List.length_set]
    split
    · rename_i hle
      exact iff_of_false (fun h => by cases h) (not_lt.mpr hle.1)
    · rename_i hle
      exact iff_of_true rfl (not_le.mp fun h => hle ⟨h, le_refl _⟩)

/-- The number that was incremented stands before what is filled. -/
theorem mem_of_incAt_fill (hn : ns[i]? = some n) (hik : i < k)
    (h : (incAt ns i >>= fun ns => fill ns k ns.length 0) = .ok ns') : n + 1 ∈ ns' := by
  rw [incAt_eq hn] at h
  split at h
  · cases h
  have h : fill (ns.set i (n + 1)) k (ns.set i (n + 1)).length 0 = .ok ns' := h
  rw [fill] at h
  split at h
  · cases h
    refine List.mem_append_left _ (List.mem_append_left _ (List.mem_take_iff_getElem.mpr ?_))
    obtain ⟨hi, -⟩ := List.getElem?_eq_some_iff.mp hn
    refine ⟨i, lt_min hik (by rwa [List.length_set]), List.getElem_set_self _⟩
  · cases h

/-- `caret` increments a positive number, or a last 0 after numbers that are not positive. -/
theorem caretNumbers_cases (h₀ : ∃ n, ns.head? = some n ∧ 0 ≤ n) :
    (∃ i n, ns[i]? = some n ∧ 0 < n ∧
        caretNumbers ns = incAt ns i >>= fun ns => fill ns (i + 1) ns.length 0) ∨
      (∀ n ∈ ns, n ≤ 0) ∧ ∃ i, ns[i]? = some 0 ∧ (ns.length < i + 2 ↔ ns.getLast? = some 0) ∧
        caretNumbers ns = incAt ns i >>= fun ns => fill ns (i + 2) ns.length 0 := by
  rw [caretNumbers]
  split
  · rename_i i hi
    obtain ⟨hlt, hpos, -⟩ := List.findIdx?_eq_some_iff_getElem.mp hi
    exact .inl ⟨i, _, List.getElem?_eq_getElem hlt, of_decide_eq_true hpos, rfl⟩
  · rename_i hnone
    have hle : ∀ n ∈ ns, n ≤ 0 := by
      intro n hn
      exact not_lt.mp (of_decide_eq_false (List.findIdx?_eq_none_iff.mp hnone n hn))
    refine .inr ⟨hle, ?_⟩
    split
    · rename_i j hj
      obtain ⟨hlt, hzero, hbefore⟩ := List.findIdx?_eq_some_iff_getElem.mp hj
      have hzero : ns.reverse[j] = 0 := of_decide_eq_true hzero
      have hlt' : j < ns.length := by rwa [List.length_reverse] at hlt
      refine ⟨ns.length - 1 - j, ?_, ?_, rfl⟩
      · rw [← List.getElem?_reverse hlt', List.getElem?_eq_getElem hlt, hzero]
      -- no number after it is 0, and so it is the last one or that is not 0
      · rw [← List.head?_reverse, List.head?_eq_getElem?]
        cases j with
        | zero =>
          refine iff_of_true (by omega) ?_
          rw [List.getElem?_eq_getElem hlt, hzero]
        | succ j =>
          refine iff_of_false (by omega) fun h => ?_
          obtain ⟨hj₀, h⟩ := List.getElem?_eq_some_iff.mp h
          exact hbefore 0 (Nat.succ_pos j) (decide_eq_true h)
    · rename_i hnone
      obtain ⟨n, hn, hpos⟩ := h₀
      have hmem := List.mem_of_mem_head? hn
      have hne := List.findIdx?_eq_none_iff.mp hnone n (List.mem_reverse.mpr hmem)
      exact absurd (le_antisymm (hle n hmem) hpos) (of_decide_eq_false hne)

theorem caretNumbers_outOfBounds_iff (h₀ : ∃ n, ns.head? = some n ∧ 0 ≤ n) :
    caretNumbers ns = .error .outOfBounds ↔ (∀ n ∈ ns, n ≤ 0) ∧ ns.getLast? = some 0 := by
  rcases caretNumbers_cases h₀ with ⟨i, n, hn, hpos, h⟩ | ⟨hle, i, hn, hlast, h⟩
  · rw [h, incAt_fill_outOfBounds_iff hn]
    refine iff_of_false (fun h => ?_) fun h => ?_
    · exact absurd h.2 (not_lt.mpr (List.getElem?_eq_some_iff.mp hn).1)
    · exact absurd hpos (not_lt.mpr (h.1 n (List.mem_of_getElem? hn)))
  · rw [h, incAt_fill_outOfBounds_iff hn, hlast]
    exact and_congr_left' (iff_of_true (by decide) hle)

/-- Some number is positive then. -/
theorem exists_pos_of_caretNumbers (h₀ : ∃ n, ns.head? = some n ∧ 0 ≤ n)
    (h : caretNumbers ns = .ok ns') : ∃ n ∈ ns', 0 < n := by
  rcases caretNumbers_cases h₀ with ⟨i, n, hn, hpos, h'⟩ | ⟨-, i, hn, -, h'⟩
  · rw [h'] at h
    exact ⟨n + 1, mem_of_incAt_fill hn (Nat.lt_succ_self i) h, Int.lt_add_one_of_le hpos.le⟩
  · rw [h'] at h
    exact ⟨0 + 1, mem_of_incAt_fill hn (by omega) h, by decide⟩

/-- `tilde` increments a number that is not negative. -/
theorem tildeNumbers_cases (h₀ : ∃ n, ns.head? = some n ∧ 0 ≤ n) :
    ∃ i n, ns[i]? = some n ∧ 0 ≤ n ∧
      tildeNumbers ns = incAt ns i >>= fun ns => fill ns (i + 1) ns.length 0 := by
  by_cases h : 2 < ns.length ∧ ∃ n ∈ ns[1]?, 0 ≤ n
  · obtain ⟨n, hn, hpos⟩ := h.2
    refine ⟨1, n, hn, hpos, ?_⟩
    rw [tildeNumbers, if_pos h]
  · obtain ⟨n, hn, hpos⟩ := h₀
    refine ⟨0, n, by rwa [← List.head?_eq_getElem?], hpos, ?_⟩
    rw [tildeNumbers, if_neg h]

theorem tildeNumbers_ne_outOfBounds (h₀ : ∃ n, ns.head? = some n ∧ 0 ≤ n) :
    tildeNumbers ns ≠ .error .outOfBounds := by
  obtain ⟨i, n, hn, -, h⟩ := tildeNumbers_cases h₀
  rw [h, ne_eq, incAt_fill_outOfBounds_iff hn]
  exact fun h => absurd h.2 (not_lt.mpr (List.getElem?_eq_some_iff.mp hn).1)

theorem exists_pos_of_tildeNumbers (h₀ : ∃ n, ns.head? = some n ∧ 0 ≤ n)
    (h : tildeNumbers ns = .ok ns') : ∃ n ∈ ns', 0 < n := by
  obtain ⟨i, n, hn, hpos, h'⟩ := tildeNumbers_cases h₀
  rw [h'] at h
  exact ⟨n + 1, mem_of_incAt_fill hn (Nat.lt_succ_self i) h, Int.lt_add_one_of_le hpos⟩

/-- The version that is decremented has a positive number, so that only what makes its numbers can
leave them. -/
theorem upTo_outOfBounds_iff {v : Version} {upper : List Int → Except Failure (List Int)}
    (hne : v.numbers ≠ [])
    (hupper : (∃ n, v.numbers.head? = some n ∧ 0 ≤ n) → ∀ ns', upper v.numbers = .ok ns' →
      ∃ n ∈ ns', 0 < n) :
    upTo v upper = .error .outOfBounds ↔
      (∃ n, v.numbers.head? = some n ∧ 0 ≤ n) ∧ upper v.numbers = .error .outOfBounds := by
  obtain ⟨n, ns, hns⟩ := List.exists_cons_of_ne_nil hne
  have hfront : frontNumber v.numbers = .ok n := by rw [hns, frontNumber]
  have hhead : v.numbers.head? = some n := by rw [hns, List.head?_cons]
  rw [upTo, hfront]
  simp only [bind, Except.bind]
  split
  · rename_i hneg
    refine iff_of_false (fun h => by cases h) ?_
    rintro ⟨⟨m, hm, hpos⟩, -⟩
    cases hhead.symm.trans hm
    exact absurd hneg (not_lt.mpr hpos)
  · rename_i hpos
    have h₀ : ∃ n, v.numbers.head? = some n ∧ 0 ≤ n := ⟨n, hhead, not_lt.mp hpos⟩
    rw [and_iff_right h₀]
    cases hu : upper v.numbers with
    | error f => exact ⟨fun h => by cases h; rfl, fun h => by cases h; rfl⟩
    | ok ns' =>
      refine iff_of_false (fun h => ?_) fun h => by cases h
      obtain ⟨m, hm, hmpos⟩ := hupper h₀ ns' hu
      have hblank : ¬ (⟨ns', [], []⟩ : Version).blank = true := by
        rw [Version.blank_iff]
        exact fun h => absurd hmpos (not_lt.mpr (h m hm))
      have hdec := bind_pair_eq_error_iff.mp h
      rw [Version.decrementVersion_outOfBounds_iff, prepared_leavesDown] at hdec
      exact hblank hdec

end Vectors

end Primitives.Version1
