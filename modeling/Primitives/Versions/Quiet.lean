import Primitives.Versions.Actions

/-!
# Actions that do not fail

Which actions of the grammar fail is told without doing them (`Action.quiet`): a number that is too long,
an extra part of a zero version, a range that has no versions, and an increment that leaves the numbers
or overflows. Nothing depends on what the actions before have left (`Action.exists_step_iff`).
-/

set_option autoImplicit false

namespace Primitives.Versions

open Lib

/-! ## Versions -/

/-- The extra part is one of a zero version. -/
def VersionText.fails (t : VersionText) : Bool := !t.extra.isEmpty && t.basic.eq .min

/-- The version with its extra part. -/
def VersionText.whole (t : VersionText) : Version := { t.basic with extra := t.extra }

theorem VersionText.value_eq (t : VersionText) :
    t.value = if t.fails then .error (.runtimeError "Cannot set extra part on zero version".toList)
      else .ok t.whole := by
  unfold VersionText.value VersionText.fails VersionText.whole
  cases hextra : t.extra with
  | nil => rfl
  | cons x xs => rfl

/-! ## Quiet actions -/

/-- There is a number that the carry stops at. -/
def stops (ns : List Int) : Bool := ns.any (· ≠ Version.maxNumber)

/-- The carry stops at a number that has no number after it. -/
def overflows (ns : List Int) : Bool :=
  (ns.reverse.dropWhile (· = Version.maxNumber)).head? = some (int64Max : Int)

/-- There are versions from `v` up to the version after the numbers `ns`: nothing comes after `max()`. -/
def upToQuiet (v : Version) (ns : List Int) : Bool :=
  if (⟨ns, []⟩ : Version).eq .max then v.lt .max else stops ns && !overflows ns

/-- There are versions between the sides. -/
def ordered (v₁ : Version) (strong₁ : Bool) (v₂ : Version) (strong₂ : Bool) : Bool :=
  v₁.lt v₂ || (v₁.eq v₂ && !strong₁ && !strong₂)

def comparisonQuiet (c : Comparison) (v : Version) : Bool :=
  match c with
  | .lt | .le => Version.min.lt v
  | .gt | .ge => v.lt .max
  | .eq => true
  | .ne => Version.min.lt v && v.lt .max

/-- The action of the range does not fail. -/
def Range.quiet : Range → Bool
  | compare c t => !t.fails && comparisonQuiet c t.whole
  | caret t => !t.fails && upToQuiet t.whole (caretNumbers t.whole.numbers)
  | tilde t => !t.fails && upToQuiet t.whole (tildeNumbers t.whole.numbers)
  | hyphen t₁ t₂ => !t₁.fails && !t₂.fails &&
      match t₂.whole.incrementVersion with
      | .ok v₂ => t₁.whole.lt v₂
      | .error _ => false
  | interval leftOpen t₁ t₂ rightOpen =>
    !t₁.fails && !t₂.fails && ordered t₁.whole leftOpen t₂.whole rightOpen
  | intervalFrom _ t _ => !t.fails && t.whole.lt .max
  | intervalTo _ t _ => !t.fails && Version.min.lt t.whole
  | version t => !t.fails && (t.whole.numbers.isEmpty || upToQuiet t.whole t.whole.numbers)

def Action.quiet : Action → Bool
  | number digits => decimal digits ≤ int64Max
  | version t => !t.fails
  | range r => r.quiet
  | andSet | orSet => true

/-! ## Increments -/

theorem stops_eq_false_iff {ns : List Int} : stops ns = false ↔ ∀ n ∈ ns, n = Version.maxNumber := by
  simp [stops]

theorem carry_outOfBounds_iff (l : List Int) :
    carry l = .error (.fault .outOfBounds) ↔ ∀ n ∈ l, n = Version.maxNumber := by
  induction l with
  | nil => exact iff_of_true rfl fun n hn => by cases hn
  | cons n l ih =>
    rw [carry, List.forall_mem_cons]
    by_cases hn : n = Version.maxNumber
    · rw [if_pos hn, and_iff_right hn, ← ih]
      cases carry l with
      | error f => exact Iff.rfl
      | ok m => exact iff_of_false (fun h => by cases h) (fun h => by cases h)
    · rw [if_neg hn]
      refine iff_of_false ?_ fun h => hn h.1
      split
      · exact fun h => by cases h
      · exact fun h => by cases h

theorem carry_eq_overflow_iff (l : List Int) :
    carry l = .error .overflow ↔
      (l.dropWhile (· = Version.maxNumber)).head? = some (int64Max : Int) := by
  induction l with
  | nil => exact iff_of_false (fun h => by cases h) (fun h => by cases h)
  | cons n l ih =>
    rw [carry]
    by_cases hn : n = Version.maxNumber
    · rw [if_pos hn, List.dropWhile_cons_of_pos (by simpa using hn), ← ih]
      cases carry l with
      | error f => exact Iff.rfl
      | ok m => exact iff_of_false (fun h => by cases h) (fun h => by cases h)
    · rw [if_neg hn, List.dropWhile_cons_of_neg (by simpa using hn), List.head?_cons, Option.some.injEq]
      by_cases hmax : n = int64Max
      · rw [if_pos hmax]
        exact iff_of_true rfl hmax
      · rw [if_neg hmax]
        exact iff_of_false (fun h => by cases h) hmax

/-- What a carry does: it stops at one number, and the greatest ones before it become 0. -/
theorem carry_ok {l m : List Int} (h : carry l = .ok m) :
    ∃ k n rest, l = List.replicate k Version.maxNumber ++ n :: rest ∧
      m = List.replicate k 0 ++ (n + 1) :: rest := by
  induction l generalizing m with
  | nil => cases h
  | cons n l ih =>
    rw [carry] at h
    by_cases hn : n = Version.maxNumber
    · rw [if_pos hn] at h
      cases hl : carry l with
      | error f =>
        rw [hl] at h
        cases h
      | ok m' =>
        rw [hl] at h
        cases h
        obtain ⟨k, n', rest, rfl, rfl⟩ := ih hl
        exact ⟨k + 1, n', rest, by rw [hn]; rfl, rfl⟩
    · rw [if_neg hn] at h
      split at h
      · cases h
      · cases h
        exact ⟨0, n, l, rfl, rfl⟩

theorem carry_error {l : List Int} {f : Failure} (h : carry l = .error f) :
    f = .fault .outOfBounds ∨ f = .overflow := by
  induction l with
  | nil =>
    cases h
    exact .inl rfl
  | cons n l ih =>
    rw [carry] at h
    split at h
    · cases hl : carry l with
      | error f' =>
        rw [hl] at h
        cases h
        exact ih hl
      | ok m =>
        rw [hl] at h
        cases h
    · split at h
      · cases h
        exact .inr rfl
      · cases h

theorem incrementVersion_eq {v : Version} (h : v.eq .max = false) {w : Version} :
    v.incrementVersion = .ok w ↔ ∃ m, carry v.numbers.reverse = .ok m ∧ w = { v with numbers := m.reverse } := by
  rw [Version.incrementVersion, if_neg (Bool.eq_false_iff.mp h)]
  cases carry v.numbers.reverse with
  | error f =>
    refine iff_of_false (fun h => by cases h) ?_
    rintro ⟨m, hm, -⟩
    cases hm
  | ok m =>
    constructor
    · intro h
      cases h
      exact ⟨m, rfl, rfl⟩
    · rintro ⟨m', hm, rfl⟩
      cases hm
      rfl

theorem exists_carry_iff (ns : List Int) :
    (∃ m, carry ns.reverse = .ok m) ↔ (stops ns && !overflows ns) = true := by
  have hstops : carry ns.reverse = .error (.fault .outOfBounds) ↔ stops ns = false := by
    rw [carry_outOfBounds_iff, stops_eq_false_iff]
    simp only [List.mem_reverse]
  have hoverflows : carry ns.reverse = .error .overflow ↔ overflows ns = true := by
    rw [carry_eq_overflow_iff, overflows, decide_eq_true_iff]
  rw [Bool.and_eq_true, Bool.not_eq_true', ← Bool.not_eq_false, ← hstops, ← Bool.not_eq_true,
    ← hoverflows]
  cases hc : carry ns.reverse with
  | ok m => exact iff_of_true ⟨m, rfl⟩ ⟨(fun h => by cases h), (fun h => by cases h)⟩
  | error f =>
    refine iff_of_false not_exists_error_eq_ok ?_
    rintro ⟨hbounds, hover⟩
    rcases carry_error hc with rfl | rfl
    · exact hbounds rfl
    · exact hover rfl

/-- **The version after some numbers** is above every version that begins with them. -/
theorem lt_incrementVersion {v w : Version} {ns : List Int} (hpre : ns <+: v.numbers)
    (hmax : (⟨ns, []⟩ : Version).eq .max = false)
    (h : (⟨ns, []⟩ : Version).incrementVersion = .ok w) : v.lt w = true := by
  obtain ⟨m, hm, rfl⟩ := (incrementVersion_eq hmax).mp h
  obtain ⟨k, n, rest, hns, rfl⟩ := carry_ok hm
  obtain ⟨more, hv⟩ := hpre
  have hnumbers : v.numbers = rest.reverse ++ n :: (List.replicate k Version.maxNumber ++ more) := by
    rw [← hv, ← List.reverse_reverse ns, hns]
    simp
  have hnext : (List.replicate k (0 : Int) ++ (n + 1) :: rest).reverse =
      rest.reverse ++ (n + 1) :: List.replicate k 0 := by
    simp
  rw [Version.lt_iff, Version.key, Version.key, Prod.Lex.toLex_lt_toLex]
  refine .inl ?_
  show sequence 0 v.numbers < sequence 0 (List.replicate k (0 : Int) ++ (n + 1) :: rest).reverse
  rw [hnumbers, hnext]
  exact sequence_append_lt 0 _ (Int.lt_succ n) _ _

/-! ## Pairs -/

theorem exists_bind_iff {ε α β : Type} {x : Except ε α} {f : α → Except ε β} :
    (∃ b, x >>= f = .ok b) ↔ ∃ a, x = .ok a ∧ ∃ b, f a = .ok b := by
  cases x with
  | error e =>
    refine iff_of_false not_exists_error_eq_ok ?_
    rintro ⟨a, ha, -⟩
    cases ha
  | ok a =>
    constructor
    · exact fun h => ⟨a, rfl, h⟩
    · rintro ⟨a', ha, h⟩
      cases ha
      exact h

theorem exists_bind_value_iff {α : Type} {t : VersionText} {f : Version → Except Failure α} :
    (∃ b, t.value >>= f = .ok b) ↔ t.fails = false ∧ ∃ b, f t.whole = .ok b := by
  rw [t.value_eq]
  cases t.fails with
  | true => exact iff_of_false not_exists_error_eq_ok fun h => by cases h.1
  | false => exact (and_iff_right rfl).symm

theorem make_ok_iff {v₁ v₂ : Version} {strong₁ strong₂ : Bool} :
    (∃ p, RangePair.make v₁ strong₁ v₂ strong₂ = .ok p) ↔ ordered v₁ strong₁ v₂ strong₂ = true := by
  unfold RangePair.make ordered
  by_cases hgt : v₁.gt v₂ = true
  · rw [dif_pos hgt]
    have hkey := (Version.gt_iff _ _).mp hgt
    have hlt : v₁.lt v₂ = false := Bool.eq_false_iff.mpr ((Version.lt_iff _ _).not.mpr hkey.not_gt)
    have heq : v₁.eq v₂ = false := Bool.eq_false_iff.mpr ((Version.eq_iff _ _).not.mpr hkey.ne')
    rw [hlt, heq]
    exact iff_of_false not_exists_error_eq_ok Bool.false_ne_true
  · rw [dif_neg hgt]
    have hle := not_lt.mp ((Version.gt_iff _ _).not.mp hgt)
    by_cases hstrong : (v₁.eq v₂ && (strong₁ || strong₂)) = true
    · rw [dif_pos hstrong]
      obtain ⟨heq, hsides⟩ := (Bool.and_eq_true _ _).mp hstrong
      have hlt : v₁.lt v₂ = false :=
        Bool.eq_false_iff.mpr ((Version.lt_iff _ _).not.mpr ((Version.eq_iff _ _).mp heq).not_lt)
      rw [hlt]
      refine iff_of_false not_exists_error_eq_ok ?_
      rw [heq]
      revert hsides
      cases strong₁ <;> cases strong₂ <;> decide
    · rw [dif_neg hstrong]
      refine iff_of_true ⟨_, rfl⟩ ?_
      rcases hle.lt_or_eq with hlt | heq
      · rw [(Version.lt_iff _ _).mpr hlt]
        rfl
      · have heq := (Version.eq_iff _ _).mpr heq
        rw [heq] at hstrong ⊢
        revert hstrong
        cases strong₁ <;> cases strong₂ <;> cases v₁.lt v₂ <;> decide

theorem exists_make_iff {α : Type} {v₁ v₂ : Version} {strong₁ strong₂ : Bool} {g : RangePair → α} :
    (∃ b, (do return g (← RangePair.make v₁ strong₁ v₂ strong₂) : Except Failure α) = .ok b) ↔
      ordered v₁ strong₁ v₂ strong₂ = true := by
  rw [exists_bind_iff, ← make_ok_iff]
  exact exists_congr fun p => and_iff_left ⟨_, rfl⟩

theorem ordered_strong_right (v₁ v₂ : Version) (strong₁ : Bool) :
    ordered v₁ strong₁ v₂ true = v₁.lt v₂ := by
  simp [ordered]

theorem ordered_strong_left (v₁ v₂ : Version) (strong₂ : Bool) :
    ordered v₁ true v₂ strong₂ = v₁.lt v₂ := by
  simp [ordered]

theorem lt_eq_of_eq {v w w' : Version} (h : w.eq w' = true) : v.lt w = v.lt w' := by
  rw [Bool.eq_iff_iff, Version.lt_iff, Version.lt_iff, (Version.eq_iff _ _).mp h]

theorem exists_upTo_iff {v : Version} {ns : List Int} (hpre : ns <+: v.numbers) :
    (∃ ps, upTo v ns = .ok ps) ↔ upToQuiet v ns = true := by
  rw [upTo, exists_bind_iff, upToQuiet]
  simp only [exists_make_iff, ordered_strong_right]
  by_cases hmax : (⟨ns, []⟩ : Version).eq .max = true
  · rw [if_pos hmax, Version.incrementVersion, if_pos hmax, ← lt_eq_of_eq hmax]
    constructor
    · rintro ⟨w, hw, hlt⟩
      cases hw
      exact hlt
    · exact fun hlt => ⟨_, rfl, hlt⟩
  · rw [if_neg hmax, ← exists_carry_iff]
    have hmax := Bool.eq_false_iff.mpr hmax
    constructor
    · rintro ⟨w, hw, -⟩
      obtain ⟨m, hm, -⟩ := (incrementVersion_eq hmax).mp hw
      exact ⟨m, hm⟩
    · rintro ⟨m, hm⟩
      have hw := (incrementVersion_eq hmax).mpr ⟨m, hm, rfl⟩
      -- the pair has versions: it begins with the numbers that were incremented
      exact ⟨_, hw, lt_incrementVersion hpre hmax hw⟩

theorem isPrefix_caretNumbers (ns : List Int) : caretNumbers ns <+: ns := by
  unfold caretNumbers
  split
  · split
    · exact List.take_prefix _ _
    · exact List.prefix_rfl
  · exact List.prefix_rfl

theorem isPrefix_tildeNumbers (ns : List Int) : tildeNumbers ns <+: ns := by
  unfold tildeNumbers
  split
  · exact List.take_prefix _ _
  · exact List.prefix_rfl

theorem exists_comparePairs_iff (c : Comparison) (v : Version) :
    (∃ ps, comparePairs c v = .ok ps) ↔ comparisonQuiet c v = true := by
  cases c with
  | lt => rw [comparePairs, exists_make_iff, ordered_strong_left, comparisonQuiet]
  | le => rw [comparePairs, exists_make_iff, ordered_strong_left, comparisonQuiet]
  | gt => rw [comparePairs, exists_make_iff, ordered_strong_right, comparisonQuiet]
  | ge => rw [comparePairs, exists_make_iff, ordered_strong_right, comparisonQuiet]
  | eq =>
    have heq : v.eq v = true := (Version.eq_iff _ _).mpr rfl
    rw [comparePairs, exists_make_iff, ordered, heq]
    exact iff_of_true (Bool.or_true _) rfl
  | ne =>
    rw [comparePairs, comparisonQuiet, Bool.and_eq_true, ← ordered_strong_left .min v true,
      ← ordered_strong_right v .max true]
    rw [exists_bind_iff]
    simp only [exists_make_iff]
    rw [exists_and_right, make_ok_iff]

/-- **One simple range**: its pairs are made if and only if it is quiet. -/
theorem Range.exists_pairs_iff (r : Range) : (∃ ps, r.pairs = .ok ps) ↔ r.quiet = true := by
  cases r with
  | compare c t =>
    rw [pairs, exists_bind_value_iff, exists_comparePairs_iff, quiet, Bool.and_eq_true,
      Bool.not_eq_true']
  | caret t =>
    rw [pairs, exists_bind_value_iff, exists_upTo_iff (isPrefix_caretNumbers _), quiet, Bool.and_eq_true,
      Bool.not_eq_true']
  | tilde t =>
    rw [pairs, exists_bind_value_iff, exists_upTo_iff (isPrefix_tildeNumbers _), quiet, Bool.and_eq_true,
      Bool.not_eq_true']
  | hyphen t₁ t₂ =>
    rw [pairs, exists_bind_value_iff, exists_bind_value_iff, exists_bind_iff, quiet, Bool.and_eq_true,
      Bool.and_eq_true, Bool.not_eq_true', Bool.not_eq_true', and_assoc]
    refine and_congr_right fun _ => and_congr_right fun _ => ?_
    simp only [exists_make_iff, ordered_strong_right]
    cases t₂.whole.incrementVersion with
    | error f => exact iff_of_false (fun h => by obtain ⟨w, hw, -⟩ := h; cases hw) Bool.false_ne_true
    | ok w =>
      constructor
      · rintro ⟨w', hw, hlt⟩
        cases hw
        exact hlt
      · exact fun hlt => ⟨w, rfl, hlt⟩
  | interval leftOpen t₁ t₂ rightOpen =>
    rw [pairs, exists_bind_value_iff, exists_bind_value_iff, exists_make_iff, quiet, Bool.and_eq_true,
      Bool.and_eq_true, Bool.not_eq_true', Bool.not_eq_true', and_assoc]
  | intervalFrom leftOpen t rightOpen =>
    rw [pairs, exists_bind_value_iff, exists_make_iff, ordered_strong_right, quiet, Bool.and_eq_true,
      Bool.not_eq_true']
  | intervalTo leftOpen t rightOpen =>
    rw [pairs, exists_bind_value_iff, exists_make_iff, ordered_strong_left, quiet, Bool.and_eq_true,
      Bool.not_eq_true']
  | version t =>
    rw [pairs, exists_bind_value_iff, quiet, Bool.and_eq_true, Bool.not_eq_true', Bool.or_eq_true]
    refine and_congr_right fun _ => ?_
    by_cases hnil : t.whole.numbers = []
    · rw [if_pos hnil, hnil, exists_make_iff]
      exact iff_of_true rfl (.inl rfl)
    · rw [if_neg hnil, exists_upTo_iff List.prefix_rfl]
      exact (or_iff_right fun h => hnil (List.isEmpty_iff.mp h)).symm

/-! ## Steps -/

/-- Whether an action fails does not depend on what the ones before it have left. -/
theorem Action.exists_step_iff (s : Sets) (a : Action) :
    (∃ s', a.step s = .ok s') ↔ a.quiet = true := by
  cases a with
  | number digits =>
    rw [step, quiet, decide_eq_true_iff]
    by_cases h : decimal digits ≤ int64Max
    · rw [if_pos h]
      exact iff_of_true ⟨s, rfl⟩ h
    · rw [if_neg h]
      exact iff_of_false not_exists_error_eq_ok h
  | version t =>
    rw [step, exists_bind_value_iff, quiet, Bool.not_eq_true']
    exact and_iff_left ⟨s, rfl⟩
  | range r =>
    rw [step, quiet, ← r.exists_pairs_iff, Range.eval]
    cases r.pairs with
    | error f => exact iff_of_false not_exists_error_eq_ok not_exists_error_eq_ok
    | ok ps => exact iff_of_true ⟨_, rfl⟩ ⟨ps, rfl⟩
  | andSet =>
    refine iff_of_true ?_ rfl
    rw [step]
    cases s.range with
    | none => exact ⟨_, rfl⟩
    | some vr => cases s.andSet <;> exact ⟨_, rfl⟩
  | orSet =>
    refine iff_of_true ?_ rfl
    rw [step]
    cases s.andSet with
    | none => exact ⟨_, rfl⟩
    | some vr => cases s.orSet <;> exact ⟨_, rfl⟩

theorem exists_parseActions_iff (as : List Action) :
    (∃ s, parseActions as = .ok s) ↔ as.all Action.quiet = true := by
  rw [parseActions]
  generalize Sets.init = s
  induction as generalizing s with
  | nil => exact iff_of_true ⟨s, rfl⟩ rfl
  | cons a as ih =>
    rw [List.foldlM_cons, exists_bind_iff, List.all_cons, Bool.and_eq_true, ← a.exists_step_iff s]
    simp only [ih]
    exact exists_and_right

end Primitives.Versions
