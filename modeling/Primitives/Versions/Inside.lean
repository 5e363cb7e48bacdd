import Primitives.Versions.Quiet

/-!
# Inside of the numbers

The loop of `incrementVersion` ends at a number that is not the greatest one, and only `max()` is looked
at before it. So a plain version of the greatest numbers, and `^`, `~` and the right version of a hyphen
where no number is left or all of them are the greatest, make it leave the vector (`Range.inside`). No
other action increments a version.
-/

set_option autoImplicit false

namespace Primitives.Versions

open Lib

/-! ## The increment -/

/-- `max()` has a number that the carry stops at, however many zeros follow it. -/
theorem stops_of_eq_max {v : Version} (h : v.eq .max = true) : stops v.numbers = true := by
  rw [Version.eq_iff, Version.key, Version.key, toLex_inj, Prod.mk.injEq] at h
  have hfront : v.numbers.getD 0 0 = Version.maxNumber + 1 := congrFun h.1 0
  cases hns : v.numbers with
  | nil =>
    rw [hns] at hfront
    cases hfront
  | cons n ns =>
    rw [hns] at hfront
    have hn : n = Version.maxNumber + 1 := hfront
    refine List.any_eq_true.mpr ⟨n, List.mem_cons_self, ?_⟩
    rw [hn]
    rfl

theorem incrementVersion_outOfBounds_iff (v : Version) :
    v.incrementVersion = .error (.fault .outOfBounds) ↔ stops v.numbers = false := by
  unfold Version.incrementVersion
  by_cases hmax : v.eq .max = true
  · rw [if_pos hmax, stops_of_eq_max hmax]
    exact iff_of_false (fun h => by cases h) (fun h => by cases h)
  · rw [if_neg hmax, stops_eq_false_iff]
    have hcarry := carry_outOfBounds_iff v.numbers.reverse
    simp only [List.mem_reverse] at hcarry
    rw [← hcarry]
    cases carry v.numbers.reverse with
    | error f => exact ⟨fun h => congrArg _ (Except.error.inj h), fun h => congrArg _ (Except.error.inj h)⟩
    | ok m => exact iff_of_false (fun h => by cases h) (fun h => by cases h)

/-! ## Versions -/

/-- What is done with a version is done unless the version fails. -/
theorem bind_value_fault_iff {α : Type} {f : Fault} {t : VersionText} {g : Version → Except Failure α} :
    t.value >>= g = .error (.fault f) ↔ t.fails = false ∧ g t.whole = .error (.fault f) := by
  rw [t.value_eq]
  cases t.fails with
  | true => exact iff_of_false (fun h => by cases h) fun h => by cases h.1
  | false => exact (and_iff_right rfl).symm

/-! ## Simple ranges -/

/-- The action of the range does not increment a version past its first number. -/
def Range.inside : Range → Bool
  | caret t => t.fails || t.basic.numbers.head?.any (· ≠ Version.maxNumber)
  | tilde t => t.fails || stops (t.basic.numbers.take 2)
  | hyphen t₁ t₂ => t₁.fails || t₂.fails || stops t₂.basic.numbers
  | version t => t.fails || t.basic.numbers.isEmpty || stops t.basic.numbers
  | compare _ _ | interval _ _ _ _ | intervalFrom _ _ _ | intervalTo _ _ _ => true

theorem make_ne_fault (v₁ v₂ : Version) (strong₁ strong₂ : Bool) (f : Fault) :
    RangePair.make v₁ strong₁ v₂ strong₂ ≠ .error (.fault f) := by
  unfold RangePair.make
  split
  · exact fun h => by cases h
  · split
    · exact fun h => by cases h
    · exact fun h => by cases h

theorem bind_make_ne_fault {α : Type} (v₁ v₂ : Version) (strong₁ strong₂ : Bool) (f : Fault)
    (g : RangePair → α) :
    (do return g (← RangePair.make v₁ strong₁ v₂ strong₂) : Except Failure α) ≠ .error (.fault f) := by
  rw [ne_eq, bind_eq_error_iff]
  rintro (h | ⟨p, -, h⟩)
  · exact make_ne_fault v₁ v₂ strong₁ strong₂ f h
  · cases h

theorem upTo_outOfBounds_iff (v : Version) (ns : List Int) :
    upTo v ns = .error (.fault .outOfBounds) ↔ stops ns = false := by
  rw [upTo, bind_eq_error_iff, incrementVersion_outOfBounds_iff]
  refine or_iff_left ?_
  rintro ⟨w, -, h⟩
  exact bind_make_ne_fault _ _ _ _ _ _ h

theorem comparePairs_ne_fault (c : Comparison) (v : Version) (f : Fault) :
    comparePairs c v ≠ .error (.fault f) := by
  cases c with
  | ne =>
    rw [comparePairs, ne_eq, bind_eq_error_iff]
    rintro (h | ⟨p, -, h⟩)
    · exact make_ne_fault _ _ _ _ _ h
    · exact bind_make_ne_fault _ _ _ _ _ _ h
  | _ => exact bind_make_ne_fault _ _ _ _ _ _

theorem mem_caretNumbers (n : Int) (l : List Int) : n ∈ caretNumbers (n :: l) := by
  unfold caretNumbers
  split
  · split
    · exact List.mem_cons_self
    · exact List.mem_cons_self
  · exact List.mem_cons_self

/-- Where the first number is not 0, `caret` keeps nothing but it. -/
theorem stops_caretNumbers (ns : List Int) :
    stops (caretNumbers ns) = ns.head?.any (· ≠ Version.maxNumber) := by
  cases ns with
  | nil =>
    have hnil : caretNumbers [] = [] := ite_self []
    rw [hnil]
    rfl
  | cons n l =>
    by_cases hn : n = Version.maxNumber
    · subst hn
      have hgt : (⟨Version.maxNumber :: l, []⟩ : Version).gt ⟨[0], []⟩ = true := by
        rw [Version.gt_iff, Version.key, Version.key, Prod.Lex.toLex_lt_toLex]
        exact .inl ((sequence_cons_lt_iff 0 0 Version.maxNumber [] l).mpr (.inl (by decide)))
      have hone : caretNumbers (Version.maxNumber :: l) = [Version.maxNumber] := by
        rw [caretNumbers, if_pos hgt]
        rfl
      rw [hone]
      rfl
    · have hhead : decide (n ≠ Version.maxNumber) = true := decide_eq_true hn
      have hstops : stops (caretNumbers (n :: l)) = true :=
        List.any_eq_true.mpr ⟨n, mem_caretNumbers n l, hhead⟩
      rw [hstops]
      exact hhead.symm

theorem stops_tildeNumbers (ns : List Int) : stops (tildeNumbers ns) = stops (ns.take 2) := by
  unfold tildeNumbers
  split
  · rfl
  · rename_i h
    rw [List.take_of_length_le (Nat.le_of_not_lt h)]

/-- **One simple range.** -/
theorem Range.pairs_outOfBounds_iff (r : Range) :
    r.pairs = .error (.fault .outOfBounds) ↔ r.inside = false := by
  have htrue : ∀ {p : Prop}, ¬ p → (p ↔ (true = false)) := fun h => iff_of_false h Bool.false_ne_true.symm
  cases r with
  | compare c t =>
    refine htrue ?_
    rw [pairs, bind_value_fault_iff]
    exact fun h => comparePairs_ne_fault c _ _ h.2
  | caret t =>
    rw [pairs, bind_value_fault_iff, upTo_outOfBounds_iff, stops_caretNumbers, inside,
      Bool.or_eq_false_iff]
    rfl
  | tilde t =>
    rw [pairs, bind_value_fault_iff, upTo_outOfBounds_iff, stops_tildeNumbers, inside,
      Bool.or_eq_false_iff]
    rfl
  | hyphen t₁ t₂ =>
    rw [pairs, bind_value_fault_iff, bind_value_fault_iff, bind_eq_error_iff,
      incrementVersion_outOfBounds_iff, inside, Bool.or_eq_false_iff, Bool.or_eq_false_iff, and_assoc]
    refine and_congr_right fun _ => and_congr_right fun _ => or_iff_left ?_
    rintro ⟨w, -, h⟩
    exact bind_make_ne_fault _ _ _ _ _ _ h
  | interval leftOpen t₁ t₂ rightOpen =>
    refine htrue ?_
    rw [pairs, bind_value_fault_iff, bind_value_fault_iff]
    exact fun h => bind_make_ne_fault _ _ _ _ _ _ h.2.2
  | intervalFrom leftOpen t rightOpen =>
    refine htrue ?_
    rw [pairs, bind_value_fault_iff]
    exact fun h => bind_make_ne_fault _ _ _ _ _ _ h.2
  | intervalTo leftOpen t rightOpen =>
    refine htrue ?_
    rw [pairs, bind_value_fault_iff]
    exact fun h => bind_make_ne_fault _ _ _ _ _ _ h.2
  | version t =>
    rw [pairs, bind_value_fault_iff, inside, Bool.or_eq_false_iff, Bool.or_eq_false_iff, and_assoc]
    refine and_congr_right fun _ => ?_
    show (if t.basic.numbers = [] then _ else _ : Except Failure (List RangePair)) = _ ↔ _
    by_cases hnil : t.basic.numbers = []
    · rw [if_pos hnil, hnil]
      exact iff_of_false (bind_make_ne_fault _ _ _ _ _ _) fun h => by cases h.1
    · rw [if_neg hnil, upTo_outOfBounds_iff]
      exact (and_iff_right (List.isEmpty_eq_false_iff.mpr hnil)).symm

theorem Range.eval_outOfBounds_iff (r : Range) :
    r.eval = .error (.fault .outOfBounds) ↔ r.inside = false := by
  rw [Range.eval, bind_eq_error_iff, r.pairs_outOfBounds_iff]
  refine or_iff_left ?_
  rintro ⟨ps, -, h⟩
  cases h

/-! ## Texts -/

/-- No increment of the action leaves the numbers. -/
def Action.inside : Action → Bool
  | range r => r.inside
  | number _ | version _ | andSet | orSet => true

theorem Action.step_outOfBounds_iff (s : Sets) (a : Action) :
    a.step s = .error (.fault .outOfBounds) ↔ a.inside = false := by
  have htrue : ∀ {p : Prop}, ¬ p → (p ↔ (true = false)) := fun h => iff_of_false h Bool.false_ne_true.symm
  cases a with
  | number digits =>
    refine htrue ?_
    rw [step]
    split
    · exact fun h => by cases h
    · exact fun h => by cases h
  | version t =>
    refine htrue ?_
    rw [step, bind_value_fault_iff]
    exact fun h => by cases h.2
  | range r =>
    rw [step, bind_eq_error_iff, r.eval_outOfBounds_iff, inside]
    refine or_iff_left ?_
    rintro ⟨vr, -, h⟩
    cases h
  | andSet =>
    refine htrue ?_
    rw [step]
    cases s.range with
    | none => exact fun h => by cases h
    | some vr => cases s.andSet <;> exact fun h => by cases h
  | orSet =>
    refine htrue ?_
    rw [step]
    cases s.andSet with
    | none => exact fun h => by cases h
    | some vr => cases s.orSet <;> exact fun h => by cases h

/-- Each action that is done stays inside: none is done after one that fails. -/
def actionsInside : List Action → Bool
  | [] => true
  | a :: as => a.inside && (!a.quiet || actionsInside as)

/-- **The increments of a text** stay inside the numbers if and only if its ranges do. -/
theorem parseActions_inside_iff (as : List Action) :
    parseActions as ≠ .error (.fault .outOfBounds) ↔ actionsInside as = true := by
  rw [parseActions, ne_eq, not_iff_comm, Bool.not_eq_true]
  generalize Sets.init = s
  induction as generalizing s with
  | nil => exact iff_of_false (fun h => by cases h) (fun h => by cases h)
  | cons a as ih =>
    rw [List.foldlM_cons, bind_eq_error_iff, Action.step_outOfBounds_iff, actionsInside,
      Bool.and_eq_false_iff, Bool.or_eq_false_iff, Bool.not_eq_false', ← a.exists_step_iff s]
    simp only [← ih]
    rw [exists_and_right]

/-- `^*` has no number to increment. -/
theorem caret_leaves : ∃ t : VersionText, t.numbers = [.any] ∧
    parseActions [.version t, .range (.caret t), .andSet, .orSet] = .error (.fault .outOfBounds) :=
  ⟨⟨[.any], List.cons_ne_nil _ _, []⟩, rfl, rfl⟩

end Primitives.Versions
