import Primitives.Versions.Pattern

/-!
# Numbers behind wildcards

`at the moment we do not allow ranges like *.2.*`, but the grammar does: a wildcard puts nothing into the
version, and so a number behind it is read at the place of the wildcard. A text with such a version is
rejected only for another reason (`wildcards_iff`).
-/

set_option autoImplicit false

namespace Primitives.Versions

open Lib VersionRange

/-- A number stands behind a wildcard. -/
def Misplaced (l : List Number) : Prop :=
  ∃ (pre mid post : List Number) (n : ℕ) (hn : n ≤ int64Max), l = pre ++ .any :: (mid ++ .number n hn :: post)

/-- A text with a version like that. -/
def HasMisplaced (s : Str) : Prop :=
  ∃ sets, File sets (tokens s) ∧ ∃ rs ∈ sets, ∃ range ∈ rs, ∃ t ∈ range.versions, Misplaced t.numbers

/-- The release has every number of the version where it is written. -/
def VersionText.Matches (t : VersionText) (w : Version) : Prop :=
  ∀ i, ∀ n ∈ t.numbers[i]?.bind Number.value?, w.numbers.getD i 0 = n

/-! ## Places -/

/-- Without wildcards before them numbers keep their places. -/
theorem getElem?_filterMap {l : List Number} (h : ¬ Misplaced l) (i : ℕ) :
    (l.filterMap Number.value?)[i]? = l[i]?.bind Number.value? := by
  induction l generalizing i with
  | nil => rfl
  | cons c l ih =>
    cases c with
    | number n hn =>
      have hl : ¬ Misplaced l := by
        rintro ⟨pre, mid, post, m, hm, rfl⟩
        exact h ⟨.number n hn :: pre, mid, post, m, hm, rfl⟩
      cases i with
      | zero => rfl
      | succ i => exact ih hl i
    | any =>
      -- nothing but wildcards follows
      have hany : ∀ c ∈ .any :: l, Number.value? c = none := by
        intro c hc
        rcases List.mem_cons.mp hc with rfl | hc
        · rfl
        · cases c with
          | number n hn =>
            obtain ⟨mid, post, rfl⟩ := List.append_of_mem hc
            exact absurd ⟨[], mid, post, n, hn, rfl⟩ h
          | any => rfl
      rw [List.filterMap_eq_nil_iff.mpr hany]
      cases hi : (Number.any :: l)[i]? with
      | none => rfl
      | some c => exact (hany c (List.mem_of_getElem? hi)).symm

/-- The last number of a list. -/
theorem exists_last_number {l : List Number} (h : l.filterMap Number.value? ≠ []) :
    ∃ (pre post : List Number) (n : ℕ) (hn : n ≤ int64Max), l = pre ++ .number n hn :: post ∧
      post.filterMap Number.value? = [] := by
  induction l with
  | nil => exact absurd rfl h
  | cons c l ih =>
    by_cases hl : l.filterMap Number.value? = []
    · cases c with
      | number n hn => exact ⟨[], l, n, hn, rfl, hl⟩
      | any => exact absurd hl h
    · obtain ⟨pre, post, n, hn, rfl, hpost⟩ := ih hl
      exact ⟨c :: pre, post, n, hn, rfl, hpost⟩

/-- The last number of a version that is misplaced is put before its place. -/
theorem Misplaced.exists_last {t : VersionText} (h : Misplaced t.numbers) :
    ∃ (pre post : List Number) (n : ℕ) (hn : n ≤ int64Max), t.numbers = pre ++ .number n hn :: post ∧
      (pre.filterMap Number.value?).length < pre.length ∧
      t.basic.numbers = pre.filterMap Number.value? ++ [(n : Int)] := by
  obtain ⟨pre, mid, post, n, hn, ht⟩ := h
  have hne : (Number.number n hn :: post).filterMap Number.value? ≠ [] := List.cons_ne_nil _ _
  obtain ⟨pre', post', m, hm, heq, hpost⟩ := exists_last_number hne
  rw [heq] at ht
  have ht' : t.numbers = (pre ++ .any :: (mid ++ pre')) ++ .number m hm :: post' := by
    rw [ht]
    simp
  refine ⟨_, post', m, hm, ht', ?_, ?_⟩
  · have hpre := List.length_filterMap_le Number.value? pre
    have hrest := List.length_filterMap_le Number.value? (mid ++ pre')
    rw [List.filterMap_append, List.filterMap_cons_none rfl, List.length_append, List.length_append,
      List.length_cons]
    omega
  · have hlast : (Number.number m hm :: post').filterMap Number.value? = [(m : Int)] :=
      congrArg (List.cons (m : Int)) hpost
    rw [VersionText.basic, ht', List.filterMap_append, hlast]

/-- The releases that match a version whose numbers are not misplaced. -/
theorem VersionText.matches_iff {t : VersionText} (h : ¬ Misplaced t.numbers) (w : Version) :
    t.Matches w ↔ firsts 0 t.basic.numbers.length w.numbers = t.basic.numbers := by
  have hplace : ∀ i, t.basic.numbers[i]? = t.numbers[i]?.bind Number.value? := getElem?_filterMap h
  rw [firsts_eq_iff rfl]
  constructor
  · intro hmatches i hi
    rw [List.getD_eq_getElem _ _ hi]
    refine hmatches i _ ?_
    rw [← hplace, List.getElem?_eq_getElem hi]
    rfl
  · intro hfirsts i n hn
    rw [← hplace] at hn
    obtain ⟨hi, rfl⟩ := List.getElem?_eq_some_iff.mp hn
    rw [hfirsts i hi, List.getD_eq_getElem _ _ hi]

/-- No release has a number that is too large. -/
theorem VersionText.not_matches {t : VersionText} {n : Int} (hn : n ∈ t.basic.numbers)
    (hmax : Version.maxNumber < n) {w : Version} (hw : w.Release) : ¬ t.Matches w := by
  intro hmatches
  obtain ⟨c, hc, hvalue⟩ := List.mem_filterMap.mp hn
  obtain ⟨i, hi⟩ := List.mem_iff_getElem?.mp hc
  have hi' : w.numbers.getD i 0 = n := hmatches i n (by rw [hi]; exact hvalue)
  have hle : w.numbers.getD i 0 ≤ Version.maxNumber := by
    rw [List.getD_eq_getElem?_getD]
    cases hw' : w.numbers[i]? with
    | none => exact (by decide : (0 : Int) ≤ Version.maxNumber)
    | some x => exact (hw.numbers x (List.mem_of_getElem? hw')).2
  omega

/-- **A release that shows the displacement**: it begins with the numbers, and has another one where the
last of them is written. -/
theorem Misplaced.exists_release {t : VersionText} (h : Misplaced t.numbers)
    (hle : ∀ n ∈ t.basic.numbers, n ≤ Version.maxNumber) : ∃ w : Version, w.Release ∧
      firsts 0 t.basic.numbers.length w.numbers = t.basic.numbers ∧ ¬ t.Matches w := by
  obtain ⟨pre, post, n, hn, ht, hlt, hnumbers⟩ := h.exists_last
  have hpos : ∀ x ∈ t.basic.numbers, 0 ≤ x := by
    intro x hx
    obtain ⟨c, -, hc⟩ := List.mem_filterMap.mp hx
    cases c with
    | number m hm =>
      cases hc
      exact Int.natCast_nonneg _
    | any => cases hc
  have hlen : t.basic.numbers.length ≤ pre.length := by
    rw [hnumbers, List.length_append]
    exact hlt
  obtain ⟨d, hd, hdn⟩ : ∃ d : Int, (0 ≤ d ∧ d ≤ Version.maxNumber) ∧ d ≠ n := by
    by_cases hzero : (n : Int) = 0
    · exact ⟨1, by decide, by omega⟩
    · exact ⟨0, by decide, fun heq => hzero heq.symm⟩
  -- the numbers, and another one than the last at the place where that is written
  let zeros := List.replicate (pre.length - t.basic.numbers.length) (0 : Int)
  refine ⟨⟨t.basic.numbers ++ (zeros ++ [d]), []⟩, ⟨fun x hx => ?_, rfl⟩, ?_, fun hmatches => hdn ?_⟩
  · rcases List.mem_append.mp hx with hx | hx
    · exact ⟨hpos x hx, hle x hx⟩
    · rcases List.mem_append.mp hx with hx | hx
      · rw [List.eq_of_mem_replicate hx]
        decide
      · rw [List.mem_singleton.mp hx]
        exact hd
  · exact firsts_of_isPrefix (List.prefix_append _ _)
  · have hplace : (t.basic.numbers ++ (zeros ++ [d])).getD pre.length 0 = (n : Int) := by
      refine hmatches pre.length n ?_
      rw [ht, List.getElem?_append_right le_rfl, Nat.sub_self]
      rfl
    have hlen' : (t.basic.numbers ++ zeros).length = pre.length := by
      rw [List.length_append, List.length_replicate]
      omega
    rw [← hplace, ← List.append_assoc, List.getD_append_right _ _ _ _ hlen'.le, hlen', Nat.sub_self]
    rfl

/-! ## Plain versions -/

/-- An action fails where a simple range has one that does. -/
theorem all_quiet_eq_false_iff {sets : List (List Range)} : (actions sets).all Action.quiet = false ↔
    ∃ rs ∈ sets, ∃ range ∈ rs, range.quiet = false := by
  have hrange : ∀ range : Range, range.actions.all Action.quiet = range.quiet := by
    intro range
    have hversions : range.quiet = true → ∀ t ∈ range.versions, t.fails = false := by
      cases range <;> simp_all [Range.quiet, Range.versions]
    rw [Bool.eq_iff_iff, Range.actions, List.all_append, Bool.and_eq_true, List.all_map]
    constructor
    · rintro ⟨-, h⟩
      simpa [Action.quiet] using h
    · intro h
      refine ⟨List.all_eq_true.mpr fun t ht => ?_, by simpa [Action.quiet] using h⟩
      simp [Action.quiet, hversions h t ht]
  rw [actions, List.all_flatMap, List.all_eq_false]
  refine exists_congr fun rs => and_congr_right fun _ => ?_
  rw [Bool.not_eq_true, List.all_append, List.all_flatMap]
  simp [Action.quiet, hrange]

/-- The pairs of a plain version. -/
theorem exists_pairs_version {t : VersionText} {r : VersionRange} (hr : (Range.version t).eval = .ok r) :
    ∃ ps, (if t.basic.numbers = [] then (do return [← RangePair.make .min true .max true])
      else upTo t.whole t.basic.numbers) = .ok ps ∧ ps.foldl orPair VersionRange.empty = r := by
  obtain ⟨ps, hps, heval⟩ := of_bind_eq_ok hr
  obtain ⟨v, hv, hps⟩ := of_bind_eq_ok hps
  rw [t.value_eq] at hv
  split at hv
  · cases hv
  · cases hv
    cases heval
    exact ⟨ps, hps, rfl⟩

/-- What is left of `*`: version 0 is not in it. -/
theorem not_contains_zero {t : VersionText} (hnil : t.basic.numbers = []) {r : VersionRange}
    (hr : (Range.version t).eval = .ok r) : r.contains ⟨[0], []⟩ = false := by
  obtain ⟨ps, hps, rfl⟩ := exists_pairs_version hr
  rw [if_pos hnil] at hps
  obtain ⟨q, hq, hps⟩ := of_bind_eq_ok hps
  cases hps
  show (⟨[q]⟩ : VersionRange).contains _ = false
  rw [contains_single, RangePair.contains, (make_eq_ok hq).1]
  rfl

/-- A version that has numbers. -/
theorem contains_version {t : VersionText} (hne : t.basic.numbers ≠ []) {r : VersionRange}
    (hr : (Range.version t).eval = .ok r) {w : Version} (hw : w.Release) :
    r.contains w = true ↔ firsts 0 t.basic.numbers.length w.numbers = t.basic.numbers := by
  obtain ⟨ps, hps, rfl⟩ := exists_pairs_version hr
  rw [if_neg hne] at hps
  obtain ⟨q, rfl, hcontains⟩ := contains_of_upTo (v := t.whole) List.prefix_rfl hps
  show (⟨[q]⟩ : VersionRange).contains w = true ↔ _
  rw [contains_single, hcontains w hw]
  exact and_iff_right_of_imp (le_of_firsts_eq hw)

theorem contains_iff_matches {t : VersionText} {r : VersionRange} (hr : (Range.version t).eval = .ok r) :
    (∀ w : Version, w.Release → (r.contains w = true ↔ t.Matches w)) ↔
      (t.basic.numbers ≠ [] ∧ ¬ Misplaced t.numbers) ∨ ∃ n ∈ t.basic.numbers, Version.maxNumber < n := by
  by_cases hnil : t.basic.numbers = []
  · -- every release matches
    refine iff_of_false (fun h => ?_) ?_
    · have hmatches : t.Matches ⟨[0], []⟩ := by
        intro i n hn
        obtain ⟨c, hc, hvalue⟩ := Option.bind_eq_some_iff.mp hn
        have hmem := List.mem_filterMap.mpr ⟨c, List.mem_of_getElem? hc, hvalue⟩
        rw [show t.numbers.filterMap Number.value? = [] from hnil] at hmem
        cases hmem
      have hcontains := (h ⟨[0], []⟩ ⟨by decide, rfl⟩).mpr hmatches
      rw [not_contains_zero hnil hr] at hcontains
      cases hcontains
    · rw [hnil]
      rintro (⟨hne, -⟩ | ⟨n, hn, -⟩)
      · exact hne rfl
      · cases hn
  · by_cases hmax : ∃ n ∈ t.basic.numbers, Version.maxNumber < n
    · -- there is no such release
      refine iff_of_true (fun w hw => ?_) (.inr hmax)
      obtain ⟨n, hn, hlt⟩ := hmax
      refine iff_of_false (fun h => ?_) (VersionText.not_matches hn hlt hw)
      rw [← (contains_version hnil hr hw).mp h] at hn
      exact (hw.firsts_bounds _ n hn).2.not_gt hlt
    · rw [or_iff_left hmax, and_iff_right hnil]
      push Not at hmax
      constructor
      · intro h hmisplaced
        obtain ⟨w, hw, hfirsts, hno⟩ := hmisplaced.exists_release hmax
        exact hno ((h w hw).mp ((contains_version hnil hr hw).mpr hfirsts))
      · intro hmisplaced w hw
        rw [contains_version hnil hr hw, VersionText.matches_iff hmisplaced]

/-! ## Texts -/

/-- **Numbers behind wildcards** are rejected only in texts that are too long or have a simple range whose
action fails, and a plain version is the releases that match it only without them, or if no release has its
numbers. -/
theorem wildcards_iff (o : Outside) (h : o.Generated) :
    (∀ s : Str, (HasMisplaced (o.strip s) → ∃ f, construct o s = .error f) ↔
      ¬ HasMisplaced (o.strip s) ∨ 32 * 1024 < (o.strip s).length ∨
        ∃ sets, File sets (tokens (o.strip s)) ∧ ∃ rs ∈ sets, ∃ range ∈ rs, range.quiet = false) ∧
    ∀ (s : Str) (t : VersionText) (r : VersionRange), RangeTokens (.version t) (tokens (o.strip s)) →
      construct o s = .ok r →
      ((∀ w : Version, w.Release → (r.contains w = true ↔ t.Matches w)) ↔
        (t.basic.numbers ≠ [] ∧ ¬ Misplaced t.numbers) ∨
          ∃ n ∈ t.basic.numbers, Version.maxNumber < n) := by
  refine ⟨fun s => ?_, fun s t r hrange hr => ?_⟩
  · have herror : ∀ {sets}, File sets (tokens (o.strip s)) → ((∃ f, construct o s = .error f) ↔
        32 * 1024 < (o.strip s).length ∨ ∃ rs ∈ sets, ∃ range ∈ rs, range.quiet = false) :=
      fun hfile => by rw [construct_error_iff h hfile, all_quiet_eq_false_iff]
    rw [← imp_iff_not_or]
    refine forall_congr' fun hmisplaced => ?_
    obtain ⟨sets, hfile, -⟩ := hmisplaced
    constructor
    · intro hf
      exact ((herror hfile).mp hf).imp_right fun hquiet => ⟨sets, hfile, hquiet⟩
    · rintro (hlong | ⟨sets', hfile', hquiet⟩)
      · exact (herror hfile).mpr (.inl hlong)
      · exact (herror hfile').mpr (.inr hquiet)
  · exact contains_iff_matches ((construct_range_iff h hrange).mp hr).2.2

/-- `1.x` -/
def oneAny : Pattern :=
  ⟨[.number ['1'] ⟨List.cons_ne_nil _ _, List.forall_mem_singleton.mpr rfl⟩ (Nat.le_of_ble_eq_true rfl),
    .x false], List.cons_ne_nil _ _⟩

/-- `*.2` -/
def starTwo : Pattern :=
  ⟨[.star, .two], List.cons_ne_nil _ _⟩

/-- What is read of a pattern alone. -/
theorem Pattern.tokens_eq (p : Pattern) : RangeTokens (.version p.version) (tokens (derivation.strip p.text)) := by
  obtain ⟨ts, hts, hreads⟩ := p.reads
  rw [generated_derivation.strip_eq p.solid, hreads.tokens_eq stops_nil]
  exact .version hts

theorem wildcards_one : ∃ r, construct derivation "1.x".toList = .ok r ∧
    ∀ w : Version, w.Release → (r.contains w = true ↔ oneAny.version.Matches w) := by
  have hlen : (derivation.strip "1.x".toList).length ≤ 32 * 1024 := by
    rw [generated_derivation.strip_eq (s := "1.x".toList) oneAny.solid]
    decide
  have hr : construct derivation "1.x".toList = .ok _ :=
    (construct_range_iff generated_derivation oneAny.tokens_eq).mpr
      ⟨hlen, List.forall_mem_singleton.mpr rfl, rfl⟩
  refine ⟨_, hr, ((wildcards_iff derivation generated_derivation).2 _ _ _ oneAny.tokens_eq hr).mpr
    (.inl ⟨List.cons_ne_nil _ _, ?_⟩)⟩
  rintro ⟨pre, mid, post, n, hn, heq⟩
  cases pre with
  | nil => cases heq
  | cons c pre =>
    have hlength := congrArg List.length heq
    simp only [List.length_append, List.length_cons] at hlength
    change 2 = _ at hlength
    omega

/-- `*.2` is accepted, and has `2.0` in it and not `1.2`. -/
theorem wildcards_star_two : ∃ o : Outside, o.Generated ∧ HasMisplaced (o.strip "*.2".toList) ∧
    RangeTokens (.version starTwo.version) (tokens (o.strip "*.2".toList)) ∧
    ∃ r, construct o "*.2".toList = .ok r ∧
      starTwo.version.Matches ⟨[1, 2], []⟩ ∧ r.contains ⟨[1, 2], []⟩ = false ∧
      ¬ starTwo.version.Matches ⟨[2, 0], []⟩ ∧ r.contains ⟨[2, 0], []⟩ = true := by
  have htokens := starTwo.tokens_eq
  have hlen : (derivation.strip "*.2".toList).length ≤ 32 * 1024 := by
    rw [generated_derivation.strip_eq (s := "*.2".toList) starTwo.solid]
    decide
  refine ⟨derivation, generated_derivation, ?_, htokens, _,
    (construct_range_iff generated_derivation htokens).mpr ⟨hlen, List.forall_mem_singleton.mpr rfl, rfl⟩,
    ?_, by decide, ?_, by decide⟩
  · exact ⟨[[.version starTwo.version]], .one (.one htokens), _, List.mem_singleton.mpr rfl, _,
      List.mem_singleton.mpr rfl, _, List.mem_singleton.mpr rfl, [], [], [], 2, by decide, rfl⟩
  · intro i n hn
    match i, hn with
    | 1, hn =>
      cases hn
      rfl
  · intro hmatches
    exact absurd (hmatches 1 2 rfl) (by decide)

end Primitives.Versions
