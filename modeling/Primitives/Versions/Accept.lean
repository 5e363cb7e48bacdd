import Primitives.Versions.RoundTrip

/-!
# Which texts are accepted

A text that is derived is accepted if it is not too long and none of its actions fails, and its range is
what the actions leave (`construct_iff`). For a text of one simple range that is the value of the range
(`construct_range_iff`).
-/

set_option autoImplicit false

namespace Primitives.Versions

open Lib VersionRange

/-! ## What actions leave -/

theorem version_step_iff {t : VersionText} {s s' : Sets} :
    (Action.version t).step s = .ok s' ↔ t.fails = false ∧ s' = s := by
  rw [Action.step, t.value_eq]
  cases t.fails with
  | true => exact iff_of_false (fun h => by cases h) fun h => by cases h.1
  | false =>
    constructor
    · intro h
      cases h
      exact ⟨rfl, rfl⟩
    · rintro ⟨-, rfl⟩
      rfl

theorem foldlM_versions_iff {ts : List VersionText} {s s' : Sets} :
    (ts.map Action.version).foldlM Action.step s = .ok s' ↔ (∀ t ∈ ts, t.fails = false) ∧ s' = s := by
  constructor
  · intro h
    induction ts generalizing s with
    | nil =>
      cases h
      exact ⟨List.forall_mem_nil _, rfl⟩
    | cons t ts ih =>
      rw [List.map_cons, List.foldlM_cons] at h
      obtain ⟨s₁, hstep, hrest⟩ := of_bind_eq_ok h
      obtain ⟨ht, rfl⟩ := version_step_iff.mp hstep
      obtain ⟨hts, rfl⟩ := ih hrest
      exact ⟨List.forall_mem_cons.mpr ⟨ht, hts⟩, rfl⟩
  · rintro ⟨hts, rfl⟩
    exact foldlM_versions hts _

/-- The actions of a range intersect the set with its value, or one of them fails. -/
theorem foldlM_range_iff {r : Range} {s s' : Sets} : r.actions.foldlM Action.step s = .ok s' ↔
    (∀ t ∈ r.versions, t.fails = false) ∧ ∃ vr, r.eval = .ok vr ∧
      s' = ⟨none, some (s.andSet.elim vr (·.and vr)), s.orSet⟩ := by
  constructor
  · intro h
    have h' := h
    rw [Range.actions, List.foldlM_append] at h
    obtain ⟨s₁, hversions, hrest⟩ := of_bind_eq_ok h
    obtain ⟨hts, rfl⟩ := foldlM_versions_iff.mp hversions
    rw [List.foldlM_cons] at hrest
    obtain ⟨s₂, hrange, -⟩ := of_bind_eq_ok hrest
    obtain ⟨vr, hvr, -⟩ := of_bind_eq_ok hrange
    rw [foldlM_range hts hvr] at h'
    cases h'
    exact ⟨hts, vr, hvr, rfl⟩
  · rintro ⟨hts, vr, hvr, rfl⟩
    exact foldlM_range hts hvr s

/-- The ranges of a set leave a set, and nothing else. -/
theorem foldlM_ranges_shape {rs : List Range} {a : Option VersionRange} {o : Option VersionRange}
    {s : Sets} (h : (rs.flatMap Range.actions).foldlM Action.step ⟨none, a, o⟩ = .ok s) :
    ∃ a', s = ⟨none, a', o⟩ ∧ (rs ≠ [] ∨ a.isSome = true → a'.isSome = true) := by
  induction rs generalizing a with
  | nil =>
    cases h
    exact ⟨a, rfl, fun h => h.resolve_left fun h => h rfl⟩
  | cons r rs ih =>
    rw [List.flatMap_cons, List.foldlM_append] at h
    obtain ⟨s₁, hr, h⟩ := of_bind_eq_ok h
    obtain ⟨-, vr, -, rfl⟩ := foldlM_range_iff.mp hr
    obtain ⟨a', rfl, hsome⟩ := ih h
    exact ⟨a', rfl, fun _ => hsome (.inr rfl)⟩

/-- The sets of a text leave one range. -/
theorem foldlM_actions_shape {sets : List (List Range)} (hsets : ∀ rs ∈ sets, rs ≠ [])
    {o : Option VersionRange} {s : Sets} (h : (actions sets).foldlM Action.step ⟨none, none, o⟩ = .ok s) :
    ∃ o', s = ⟨none, none, o'⟩ ∧ (sets ≠ [] ∨ o.isSome = true → o'.isSome = true) := by
  induction sets generalizing o with
  | nil =>
    cases h
    exact ⟨o, rfl, fun h => h.resolve_left fun h => h rfl⟩
  | cons rs sets ih =>
    obtain ⟨hrs, hsets⟩ := List.forall_mem_cons.mp hsets
    rw [actions, List.flatMap_cons, List.foldlM_append, List.foldlM_append] at h
    obtain ⟨s₁, hset, h⟩ := of_bind_eq_ok h
    obtain ⟨s₂, hranges, hor⟩ := of_bind_eq_ok hset
    obtain ⟨a, rfl, hsome⟩ := foldlM_ranges_shape hranges
    obtain ⟨vr, rfl⟩ := Option.isSome_iff_exists.mp (hsome (.inl hrs))
    obtain ⟨s₃, hstep, hor⟩ := of_bind_eq_ok hor
    cases hor
    have hshape : ∃ vr', s₁ = ⟨none, none, some vr'⟩ := by
      cases o with
      | none =>
        cases hstep
        exact ⟨_, rfl⟩
      | some vr₀ =>
        cases hstep
        exact ⟨_, rfl⟩
    obtain ⟨vr', rfl⟩ := hshape
    obtain ⟨o', rfl, hsome'⟩ := ih hsets h
    exact ⟨o', rfl, fun _ => hsome' (.inr rfl)⟩

theorem exists_of_parseActions {sets : List (List Range)} {ts : List Token} (h : File sets ts) {st : Sets}
    (hst : parseActions (actions sets) = .ok st) : ∃ r, st = ⟨none, none, some r⟩ := by
  have hsets : ∀ rs ∈ sets, rs ≠ [] :=
    SepBy.forall_mem (Q := fun _ => True) h (fun hrs _ => SepBy.ne_nil hrs) fun _ _ => trivial
  obtain ⟨o, rfl, hsome⟩ := foldlM_actions_shape hsets hst
  obtain ⟨r, rfl⟩ := Option.isSome_iff_exists.mp (hsome (.inl (SepBy.ne_nil h)))
  exact ⟨r, rfl⟩

/-! ## Texts -/

theorem tokens_ne_nil {sets : List (List Range)} {s : Str} (h : File sets (tokens s)) : s ≠ [] := by
  rintro rfl
  obtain ⟨t, us, htokens, -⟩ := SepBy.begins h RangeSetAnd.begins
  cases htokens

section

variable {o : Outside}

/-- A text that is derived is accepted if it is not too long and no action fails. -/
theorem construct_iff (h : o.Generated) {s : Str} {sets : List (List Range)}
    (hfile : File sets (tokens (o.strip s))) {r : VersionRange} : construct o s = .ok r ↔
      (o.strip s).length ≤ 32 * 1024 ∧ parseActions (actions sets) = .ok ⟨none, none, some r⟩ := by
  have haccepted : (o.parser (o.strip s)).accepted = true := (h.accepted_iff _).mpr ⟨sets, hfile⟩
  rw [construct, if_neg (tokens_ne_nil hfile), constructStripped, parseInto]
  by_cases hlen : (o.strip s).length > 32 * 1024
  · rw [if_pos hlen]
    exact iff_of_false (fun h => by cases h) fun h => absurd h.1 (Nat.not_le_of_gt hlen)
  · rw [if_neg hlen, and_iff_right (Nat.le_of_not_gt hlen), parseActions_of_file h hfile, haccepted]
    constructor
    · intro hr
      obtain ⟨x, hx, hr⟩ := of_bind_eq_ok hr
      obtain ⟨st, hst, hx⟩ := of_bind_eq_ok hx
      obtain ⟨vr, rfl⟩ := exists_of_parseActions hfile hst
      cases hx
      cases hr
      exact hst
    · intro hr
      rw [hr]
      rfl

/-- A text that is too long. -/
theorem construct_error_of_long {s : Str} (hlen : 32 * 1024 < (o.strip s).length) :
    ∃ f, construct o s = .error f := by
  have hne : o.strip s ≠ [] := List.ne_nil_of_length_pos (by omega)
  rw [construct, if_neg hne, constructStripped, parseInto, if_pos hlen]
  exact ⟨_, rfl⟩

/-- A text that is not derived. -/
theorem construct_error_of_not_file (h : o.Generated) {s : Str} (hne : o.strip s ≠ [])
    (hno : ¬ ∃ sets, File sets (tokens (o.strip s))) : ∃ f, construct o s = .error f := by
  have haccepted : (o.parser (o.strip s)).accepted = false := by
    rw [Bool.eq_false_iff]
    exact fun h' => hno ((h.accepted_iff _).mp h')
  rw [construct, if_neg hne, constructStripped, parseInto]
  split
  · exact ⟨_, rfl⟩
  · cases parseActions (o.parser (o.strip s)).actions with
    | error f => exact ⟨_, rfl⟩
    | ok st =>
      rw [haccepted]
      exact ⟨_, rfl⟩

/-- **One simple range** is accepted if its text is not too long, its versions are none of zeros with an
extra part and its action does not fail. -/
theorem construct_range_iff (h : o.Generated) {s : Str} {range : Range}
    (hrange : RangeTokens range (tokens (o.strip s))) {r : VersionRange} : construct o s = .ok r ↔
      (o.strip s).length ≤ 32 * 1024 ∧ (∀ t ∈ range.versions, t.fails = false) ∧ range.eval = .ok r := by
  have hactions : actions [[range]] = range.actions ++ [.orSet] := by
    rw [actions, List.flatMap_cons, List.flatMap_nil, List.append_nil, List.flatMap_cons,
      List.flatMap_nil, List.append_nil]
  rw [construct_iff h (.one (.one hrange)), parseActions, hactions, List.foldlM_append]
  refine and_congr_right fun _ => ?_
  constructor
  · intro hr
    obtain ⟨s₁, hs₁, hr⟩ := of_bind_eq_ok hr
    obtain ⟨hversions, vr, hvr, rfl⟩ := foldlM_range_iff.mp hs₁
    cases hr
    exact ⟨hversions, hvr⟩
  · rintro ⟨hversions, hr⟩
    rw [foldlM_range hversions hr]
    rfl

/-- What is rejected of the texts that are derived. -/
theorem construct_error_iff (h : o.Generated) {s : Str} {sets : List (List Range)}
    (hfile : File sets (tokens (o.strip s))) : (∃ f, construct o s = .error f) ↔
      32 * 1024 < (o.strip s).length ∨ (actions sets).all Action.quiet = false := by
  have hok : (∃ r, construct o s = .ok r) ↔
      (o.strip s).length ≤ 32 * 1024 ∧ (actions sets).all Action.quiet = true := by
    simp only [construct_iff h hfile, exists_and_left]
    refine and_congr_right fun _ => ?_
    rw [← exists_parseActions_iff]
    constructor
    · rintro ⟨r, hr⟩
      exact ⟨_, hr⟩
    · rintro ⟨st, hst⟩
      obtain ⟨vr, rfl⟩ := exists_of_parseActions hfile hst
      exact ⟨vr, hst⟩
  have hnot : (∃ f, construct o s = .error f) ↔ ¬ ∃ r, construct o s = .ok r := by
    cases construct o s with
    | error f => exact iff_of_true ⟨f, rfl⟩ not_exists_error_eq_ok
    | ok r => exact iff_of_false not_exists_ok_eq_error fun h => h ⟨r, rfl⟩
  rw [hnot, hok, not_and_or, Nat.not_le, Bool.not_eq_true]

end

end Primitives.Versions
