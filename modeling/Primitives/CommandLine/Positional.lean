import Primitives.CommandLine.Model
import Primitives.Lib.Allocation

/-!
# Positional arguments

Behind its loop over the arguments, `ParseCommandLineOptions` gives the values that are left to the
positional options. An option that requires a value gets one, an optional one gets at most one, and the
others take as many as there are. So it is a matter of giving out: the values can be given out so that each
option is content exactly if there is no error about their number, and then they are given out in order, the
first options getting as many as possible (`handlePositional_greatest`). Behind `--` these values are the
arguments, whatever they look like (`behind_dashes`).

Where an option consumes what follows, the loop leaves out the first positional option
(`consume_leaves_first`).
-/

set_option autoImplicit false

namespace Primitives.CommandLine

open Lib

theorem le_of_mem_some {n h : Nat} (hle : n ≤ h) : ∀ k ∈ some h, n ≤ k := by
  intro k hk
  rwa [← Option.some.inj hk]

/-- How many values an option takes. -/
def slotOf : NumOccurrencesFlag → Slot
  | .optional => ⟨0, some 1, le_of_mem_some (Nat.zero_le 1)⟩
  | .zeroOrMore => ⟨0, none, fun _ hh => nomatch hh⟩
  | .required => ⟨1, some 1, le_of_mem_some (Nat.le_refl 1)⟩
  | .oneOrMore => ⟨1, none, fun _ hh => nomatch hh⟩
  | .consumeAfter => ⟨0, some 0, le_of_mem_some (Nat.le_refl 0)⟩

/-- Each option with its values, if the options get so many of them in turn. -/
def assigned {ι α : Type} : List ι → List Nat → List α → List (ι × α)
  | o :: opts, k :: sizes, vals => (vals.take k).map (o, ·) ++ assigned opts sizes (vals.drop k)
  | _, _, _ => []

variable {ι : Type} [DecidableEq ι] (P : CommandLineParser ι)

def flagOf (o : ι) : NumOccurrencesFlag := (P.opt o).numOccurrencesFlag

/-- Options are given values one after the other. Errors do not count. -/
def feed : List (ι × Str × Nat) → St ι → Option (St ι)
  | [], st => some st
  | (o, v) :: l, st => (providePositionalOption P o v.1 v.2 st).bind fun p => feed l p.st

variable {P} {o : ι} {st : St ι}

theorem feed_append (l l' : List (ι × Str × Nat)) (st : St ι) :
    feed P (l ++ l') st = (feed P l st).bind (feed P l') := by
  induction l generalizing st with
  | nil => rfl
  | cons x l ih =>
    obtain ⟨o, v⟩ := x
    rw [List.cons_append, feed, feed, Option.bind_assoc]
    exact congrArg _ (funext fun p => ih p.st)

omit [DecidableEq ι] in
theorem requiresValue_iff (o : ι) :
    requiresValue P o = true ↔ flagOf P o = .required ∨ flagOf P o = .oneOrMore := by
  simp [requiresValue, flagOf]

omit [DecidableEq ι] in
theorem lo_slotOf (o : ι) :
    (slotOf (flagOf P o)).lo = if requiresValue P o = true then 1 else 0 := by
  rw [requiresValue, flagOf]
  cases (P.opt o).numOccurrencesFlag <;> rfl

/-! ## The loops -/

theorem giveMore_done (n : Nat) (vals : List (Str × Nat)) (st : St ι) :
    giveMore P o n vals true st = some (vals, st) := by
  cases vals with
  | nil => rfl
  | cons v vals => rw [giveMore, if_neg (by simp)]

theorem giveMore_of_le {n : Nat} {vals : List (Str × Nat)} (h : vals.length ≤ n) (done : Bool) (st : St ι) :
    giveMore P o n vals done st = some (vals, st) := by
  cases vals with
  | nil => rfl
  | cons v vals => rw [giveMore, if_neg (by omega)]

theorem giveMore_cons_unbounded (h : flagOf P o = .zeroOrMore ∨ flagOf P o = .oneOrMore) {n : Nat}
    {v : Str × Nat} {vals : List (Str × Nat)} (hlen : n < (v :: vals).length) (st : St ι) :
    giveMore P o n (v :: vals) false st =
      (providePositionalOption P o v.1 v.2 st).bind fun p => giveMore P o n vals false p.st := by
  rcases h with h | h
  · rw [flagOf] at h
    rw [giveMore, if_pos ⟨hlen, rfl⟩, h]
  · rw [flagOf] at h
    rw [giveMore, if_pos ⟨hlen, rfl⟩, h]

theorem giveMore_cons_optional (h : flagOf P o = .optional) {n : Nat} {v : Str × Nat}
    {vals : List (Str × Nat)} (hlen : n < (v :: vals).length) (st : St ι) :
    giveMore P o n (v :: vals) false st =
      (providePositionalOption P o v.1 v.2 st).bind fun p => giveMore P o n vals true p.st := by
  rw [flagOf] at h
  rw [giveMore, if_pos ⟨hlen, rfl⟩, h]

theorem giveMore_unbounded (h : flagOf P o = .zeroOrMore ∨ flagOf P o = .oneOrMore) (n : Nat)
    (vals : List (Str × Nat)) (st : St ι) : giveMore P o n vals false st =
      (feed P ((vals.take (vals.length - n)).map (o, ·)) st).map fun st =>
        (vals.drop (vals.length - n), st) := by
  induction vals generalizing st with
  | nil =>
    rw [giveMore_of_le (Nat.zero_le n), List.take_nil, List.drop_nil]
    rfl
  | cons v vals ih =>
    by_cases hlen : n < (v :: vals).length
    · have hsub : (v :: vals).length - n = vals.length - n + 1 := by
        rw [List.length_cons] at hlen ⊢
        omega
      rw [hsub, List.take_succ_cons, List.map_cons, feed, List.drop_succ_cons, Option.map_bind,
        giveMore_cons_unbounded h hlen]
      exact congrArg _ (funext fun p => ih p.st)
    · have hsub : (v :: vals).length - n = 0 := by omega
      rw [giveMore_of_le (Nat.not_lt.mp hlen), hsub]
      rfl

/-- **More values for an option**: as many as it takes, if others need `n` of them. -/
theorem giveMore_eq (h : flagOf P o ≠ .consumeAfter) (n : Nat) (vals : List (Str × Nat)) (st : St ι) :
    giveMore P o n vals (decide (flagOf P o = .required)) st =
      (feed P ((vals.take ((slotOf (flagOf P o)).extra (vals.length - n))).map (o, ·)) st).map fun st =>
        (vals.drop ((slotOf (flagOf P o)).extra (vals.length - n)), st) := by
  cases hflag : flagOf P o with
  | consumeAfter => exact absurd hflag h
  | required =>
    have hextra : (slotOf .required).extra (vals.length - n) = 0 := Nat.zero_min _
    rw [hextra]
    exact giveMore_done n vals st
  | zeroOrMore => exact giveMore_unbounded (.inl hflag) n vals st
  | oneOrMore => exact giveMore_unbounded (.inr hflag) n vals st
  | optional =>
    have hextra : (slotOf .optional).extra (vals.length - n) = min 1 (vals.length - n) := rfl
    rw [hextra, show decide (NumOccurrencesFlag.optional = .required) = false from rfl]
    cases vals with
    | nil =>
      rw [giveMore_of_le (Nat.zero_le n), List.take_nil, List.drop_nil]
      rfl
    | cons v vals =>
      by_cases hlen : n < (v :: vals).length
      · have hone : min 1 ((v :: vals).length - n) = 1 := by omega
        rw [giveMore_cons_optional hflag hlen, hone, List.take_succ_cons, List.take_zero, List.map_cons,
          feed, Option.map_bind]
        exact congrArg _ (funext fun p => giveMore_done n vals p.st)
      · have hzero : min 1 ((v :: vals).length - n) = 0 := by omega
        rw [giveMore_of_le (Nat.not_lt.mp hlen), hzero]
        rfl

/-- The slots of options. -/
def slots (P : CommandLineParser ι) (opts : List ι) : List Slot := opts.map fun o => slotOf (flagOf P o)

omit [DecidableEq ι] in
theorem leastSum_slots_cons (o : ι) (opts : List ι) : leastSum (slots P (o :: opts)) =
    (if requiresValue P o = true then 1 else 0) + leastSum (slots P opts) := by
  rw [← lo_slotOf, leastSum, leastSum, slots, slots, List.map_cons, List.map_cons, List.sum_cons]

theorem distribute_cons_of_requires (h : requiresValue P o = true) (opts : List ι) (n : Nat)
    (v : Str × Nat) (vals : List (Str × Nat)) (st : St ι) : distribute P (o :: opts) n (v :: vals) st =
      (providePositionalOption P o v.1 v.2 st).bind fun p =>
        (giveMore P o (n - 1) vals (decide (flagOf P o = .required)) p.st).bind fun r =>
          distribute P opts (n - 1) r.1 r.2 := by
  rw [distribute.eq_def]
  simp only [if_pos h]
  rfl

theorem distribute_cons_of_not (h : ¬ requiresValue P o = true) (opts : List ι) (n : Nat)
    (vals : List (Str × Nat)) (st : St ι) : distribute P (o :: opts) n vals st =
      (giveMore P o n vals (decide (flagOf P o = .required)) st).bind fun r =>
        distribute P opts n r.1 r.2 := by
  rw [distribute.eq_def]
  simp only [if_neg h]
  rfl

/-- **The loop over the options** gives each of them as many values as it takes, if the later ones get what
they need. -/
theorem distribute_eq {opts : List ι} (hflags : ∀ o ∈ opts, flagOf P o ≠ .consumeAfter)
    {vals : List (Str × Nat)} (hlen : leastSum (slots P opts) ≤ vals.length) (st : St ι) :
    distribute P opts (leastSum (slots P opts)) vals st =
      feed P (assigned opts (greedy (slots P opts) (vals.length - leastSum (slots P opts))) vals) st := by
  induction opts generalizing vals st with
  | nil => rfl
  | cons o opts ih =>
    obtain ⟨ho, hflags⟩ := List.forall_mem_cons.mp hflags
    have hsum := leastSum_slots_cons (P := P) o opts
    have hgreedy : ∀ s, greedy (slots P (o :: opts)) s =
        ((slotOf (flagOf P o)).lo + (slotOf (flagOf P o)).extra s) ::
          greedy (slots P opts) (s - (slotOf (flagOf P o)).extra s) := fun _ => rfl
    have hextra := (slotOf (flagOf P o)).extra_le (vals.length - leastSum (slots P (o :: opts)))
    rw [hgreedy, assigned, feed_append, lo_slotOf]
    by_cases hreq : requiresValue P o = true
    · rw [if_pos hreq] at hsum
      cases vals with
      | nil =>
        rw [List.length_nil] at hlen
        omega
      | cons v vals =>
        have hn : leastSum (slots P (o :: opts)) - 1 = leastSum (slots P opts) := by omega
        have hs : (v :: vals).length - leastSum (slots P (o :: opts)) =
            vals.length - leastSum (slots P opts) := by
          rw [List.length_cons]
          omega
        rw [List.length_cons] at hlen
        rw [hs] at hextra ⊢
        rw [if_pos hreq, distribute_cons_of_requires hreq, hn, Nat.add_comm 1, List.take_succ_cons,
          List.map_cons, feed, Option.bind_assoc]
        refine congrArg _ (funext fun p => ?_)
        rw [giveMore_eq ho, Option.bind_map, List.drop_succ_cons]
        refine congrArg _ (funext fun st => ?_)
        show distribute P opts _ _ st = _
        rw [ih hflags (by rw [List.length_drop]; omega), List.length_drop]
        congr 3
        omega
    · rw [if_neg hreq] at hsum
      have hn : leastSum (slots P (o :: opts)) = leastSum (slots P opts) := by omega
      rw [hn] at hextra hlen ⊢
      rw [if_neg hreq, Nat.zero_add, distribute_cons_of_not hreq, giveMore_eq ho, Option.bind_map]
      refine congrArg _ (funext fun st => ?_)
      show distribute P opts _ _ st = _
      rw [ih hflags (by rw [List.length_drop]; omega), List.length_drop]
      congr 3
      omega

/-! ## What there is for them -/

omit [DecidableEq ι] in
theorem collectNeed_spec (sub : SubCommand ι) (ignoreErrors : Bool) (r : Required ι) (o : ι) :
    (collectNeed P sub ignoreErrors r o).numPositionalRequired =
        r.numPositionalRequired + (if requiresValue P o = true then 1 else 0) ∧
      (collectNeed P sub ignoreErrors r o).unboundedFound = r.unboundedFound := by
  rw [collectNeed]
  split
  · exact ⟨rfl, rfl⟩
  · split
    · split
      · exact ⟨rfl, rfl⟩
      · exact ⟨rfl, rfl⟩
    · split
      · exact ⟨rfl, rfl⟩
      · exact ⟨rfl, rfl⟩

omit [DecidableEq ι] in
theorem foldl_collectOne (sub : SubCommand ι) (ignoreErrors : Bool) (opts : List ι) (r : Required ι) :
    (opts.foldl (collectOne P sub ignoreErrors) r).numPositionalRequired =
        r.numPositionalRequired + leastSum (slots P opts) ∧
      (opts.foldl (collectOne P sub ignoreErrors) r).unboundedFound =
        (r.unboundedFound || opts.any (eatsUnboundedNumberOfValues P)) := by
  induction opts generalizing r with
  | nil => exact ⟨rfl, (Bool.or_false _).symm⟩
  | cons o opts ih =>
    obtain ⟨hnum, hunbounded⟩ := collectNeed_spec (P := P) sub ignoreErrors r o
    obtain ⟨ihnum, ihunbounded⟩ := ih (collectOne P sub ignoreErrors r o)
    rw [List.foldl_cons, ihnum, ihunbounded, leastSum_slots_cons, List.any_cons, collectOne, hnum,
      hunbounded, Nat.add_assoc, Bool.or_assoc]
    exact ⟨rfl, rfl⟩

omit [DecidableEq ι] in
theorem numPositionalRequired_collect (sub : SubCommand ι) (ignoreErrors : Bool) (st : St ι) :
    (collect P sub ignoreErrors st).numPositionalRequired = leastSum (slots P sub.positionalOpts) :=
  (foldl_collectOne sub ignoreErrors sub.positionalOpts _).1.trans (Nat.zero_add _)

omit [DecidableEq ι] in
theorem unboundedFound_collect (sub : SubCommand ι) (ignoreErrors : Bool) (st : St ι) :
    (collect P sub ignoreErrors st).unboundedFound =
      sub.positionalOpts.any (eatsUnboundedNumberOfValues P) :=
  (foldl_collectOne sub ignoreErrors sub.positionalOpts _).2.trans (Bool.false_or _)

omit [DecidableEq ι] in
theorem leastSum_slots_le (opts : List ι) : leastSum (slots P opts) ≤ opts.length := by
  induction opts with
  | nil => exact Nat.le_refl 0
  | cons o opts ih =>
    rw [leastSum_slots_cons, List.length_cons]
    split
    · omega
    · omega

omit [DecidableEq ι] in
/-- Everything is taken if an option takes any number, or there are options enough. -/
theorem enough_slots_iff {opts : List ι} (hflags : ∀ o ∈ opts, flagOf P o ≠ .consumeAfter) (s : Nat) :
    Enough (slots P opts) s ↔
      opts.any (eatsUnboundedNumberOfValues P) = true ∨
        s + leastSum (slots P opts) ≤ opts.length := by
  induction opts generalizing s with
  | nil => simp [slots, Enough, leastSum]
  | cons o opts ih =>
    obtain ⟨ho, hflags⟩ := List.forall_mem_cons.mp hflags
    have hle := leastSum_slots_le (P := P) opts
    have hcons : Enough (slots P (o :: opts)) s ↔
        Enough (slots P opts) (s - (slotOf (flagOf P o)).extra s) := Iff.rfl
    have hany : eatsUnboundedNumberOfValues P o =
        (flagOf P o = .zeroOrMore || flagOf P o = .oneOrMore) := rfl
    rw [hcons, List.any_cons, leastSum_slots_cons, List.length_cons, hany]
    have hreq : requiresValue P o = (flagOf P o = .required || flagOf P o = .oneOrMore) := rfl
    rw [hreq]
    cases hflag : flagOf P o with
    | consumeAfter => exact absurd hflag ho
    | zeroOrMore =>
      have hextra : (slotOf .zeroOrMore).extra s = s := rfl
      simp [hextra, enough_zero]
    | oneOrMore =>
      have hextra : (slotOf .oneOrMore).extra s = s := rfl
      simp [hextra, enough_zero]
    | required =>
      have hextra : (slotOf .required).extra s = 0 := Nat.zero_min s
      rw [hextra, ih hflags]
      exact or_congr (by simp) (by simp; omega)
    | optional =>
      have hextra : (slotOf .optional).extra s = min 1 s := rfl
      rw [hextra, ih hflags]
      exact or_congr (by simp) (by simp; omega)

omit [DecidableEq ι] in
theorem assigned_snd {α : Type} {opts : List ι} {sizes : List Nat} {vals : List α}
    (hlen : sizes.length = opts.length) (hsum : sizes.sum = vals.length) :
    (assigned opts sizes vals).map Prod.snd = vals := by
  induction opts generalizing sizes vals with
  | nil =>
    rw [List.length_eq_zero_iff.mp hlen] at hsum
    rw [List.length_eq_zero_iff.mp hsum.symm]
    rfl
  | cons o opts ih =>
    cases sizes with
    | nil => cases hlen
    | cons k sizes =>
      rw [List.sum_cons] at hsum
      rw [assigned, List.map_append, List.map_map, ih (Nat.succ.inj hlen) (by rw [List.length_drop]; omega)]
      exact (congrArg (· ++ vals.drop k) (List.map_id _)).trans (List.take_append_drop k vals)

/-- The values are given out if there are enough of them and not too many. -/
theorem handlePositional_distributes {sub : SubCommand ι} (hafter : sub.consumeAfterOpt = none)
    (hflags : ∀ o ∈ sub.positionalOpts, flagOf P o ≠ .consumeAfter) (ignoreErrors : Bool) (st₀ : St ι)
    (argv0 : Str) (l : Loop ι) :
    ((leastSum (slots P sub.positionalOpts) ≤ l.positionalVals.length ∧
          Enough (slots P sub.positionalOpts)
            (l.positionalVals.length - leastSum (slots P sub.positionalOpts))) ∧
        handlePositional P sub (collect P sub ignoreErrors st₀) argv0 l =
          (feed P (assigned sub.positionalOpts (greedy (slots P sub.positionalOpts)
            (l.positionalVals.length - leastSum (slots P sub.positionalOpts))) l.positionalVals) l.st).map
              fun st => (l.errorParsing, st)) ∨
      ¬ (leastSum (slots P sub.positionalOpts) ≤ l.positionalVals.length ∧
          Enough (slots P sub.positionalOpts)
            (l.positionalVals.length - leastSum (slots P sub.positionalOpts))) ∧
        ∃ text, handlePositional P sub (collect P sub ignoreErrors st₀) argv0 l =
          some (true, l.st.write text) := by
  rw [enough_slots_iff hflags, handlePositional.eq_def, hafter, numPositionalRequired_collect,
    unboundedFound_collect]
  dsimp only
  by_cases hleast : leastSum (slots P sub.positionalOpts) > l.positionalVals.length
  · rw [if_pos hleast]
    exact .inr ⟨fun h => absurd h.1 (Nat.not_le.mpr hleast), _, rfl⟩
  · have hle := Nat.not_lt.mp hleast
    rw [if_neg hleast, Option.isSome_none, Bool.or_false]
    by_cases hmany : sub.positionalOpts.any (eatsUnboundedNumberOfValues P) = false ∧
        l.positionalVals.length > sub.positionalOpts.length
    · rw [if_pos hmany]
      refine .inr ⟨fun h => ?_, _, rfl⟩
      rcases h.2 with hany | hlen
      · rw [hmany.1] at hany
        cases hany
      · omega
    · rw [if_neg hmany, distribute_eq hflags hle]
      refine .inl ⟨⟨hle, ?_⟩, rfl⟩
      cases hany : sub.positionalOpts.any (eatsUnboundedNumberOfValues P) with
      | true => exact .inl rfl
      | false =>
        have hlen : ¬ l.positionalVals.length > sub.positionalOpts.length :=
          fun hlen => hmany ⟨hany, hlen⟩
        exact .inr (by omega)

/-- **The positional options and the values.** If the values can be given out so that each option is
content, they are, and of all ways it is the greatest one. If not, it is an error, and no option is told
anything. -/
theorem handlePositional_greatest {sub : SubCommand ι} (hafter : sub.consumeAfterOpt = none)
    (hflags : ∀ o ∈ sub.positionalOpts, flagOf P o ≠ .consumeAfter) (ignoreErrors : Bool) (st₀ : St ι)
    (argv0 : Str) (l : Loop ι) :
    (∃ sizes,
        IsGreatest { sizes | Allocation (slots P sub.positionalOpts) l.positionalVals.length sizes } sizes ∧
        (assigned sub.positionalOpts sizes l.positionalVals).map Prod.snd = l.positionalVals ∧
        handlePositional P sub (collect P sub ignoreErrors st₀) argv0 l =
          (feed P (assigned sub.positionalOpts sizes l.positionalVals) l.st).map fun st =>
            (l.errorParsing, st)) ∨
      (¬ ∃ sizes, Allocation (slots P sub.positionalOpts) l.positionalVals.length sizes) ∧
        ∃ text, handlePositional P sub (collect P sub ignoreErrors st₀) argv0 l =
          some (true, l.st.write text) := by
  rw [exists_allocation_iff]
  rcases handlePositional_distributes hafter hflags ignoreErrors st₀ argv0 l with
    ⟨⟨hle, henough⟩, heq⟩ | h
  · refine .inl ⟨_, greedy_isGreatest ((exists_allocation_iff _ _).mpr ⟨hle, henough⟩),
      assigned_snd ?_ ?_, heq⟩
    · rw [length_greedy, slots, List.length_map]
    · rw [sum_greedy henough]
      omega
  · exact .inr h

/-- Three values for `copy SOURCE TARGET...`. -/
theorem handlePositional_greatest_copy :
    (∃ sizes, IsGreatest { sizes | Allocation (slots sample copyCommand.positionalOpts) 3 sizes } sizes ∧
        (assigned copyCommand.positionalOpts sizes [(['a'], 2), (['b'], 3), (['c'], 4)]).map Prod.snd =
          [(['a'], 2), (['b'], 3), (['c'], 4)] ∧
        handlePositional sample copyCommand (collect sample copyCommand false .fresh) []
            ⟨.fresh, [(['a'], 2), (['b'], 3), (['c'], 4)], none, false, false⟩ =
          (feed sample (assigned copyCommand.positionalOpts sizes [(['a'], 2), (['b'], 3), (['c'], 4)])
            .fresh).map fun st => (false, st)) ∨
      (¬ ∃ sizes, Allocation (slots sample copyCommand.positionalOpts) 3 sizes) ∧
        ∃ text, handlePositional sample copyCommand (collect sample copyCommand false .fresh) []
            ⟨.fresh, [(['a'], 2), (['b'], 3), (['c'], 4)], none, false, false⟩ =
          some (true, St.fresh.write text) :=
  handlePositional_greatest rfl (by decide) false .fresh []
    ⟨.fresh, [(['a'], 2), (['b'], 3), (['c'], 4)], none, false, false⟩

/-! ## Where an option consumes the rest -/

/-- Options are given values one after the other, and errors count. -/
def feedAll (P : CommandLineParser ι) : List (ι × Str × Nat) → Bool → St ι → Option (Bool × St ι)
  | [], e, st => some (e, st)
  | (o, v) :: l, e, st =>
    (providePositionalOption P o v.1 v.2 st).bind fun p => feedAll P l (e || p.failed) p.st

/-- Who gets which value. A single positional option gets the first one. Of several, those that require a
value get one each, but for the first option. -/
def consumed (P : CommandLineParser ι) (c : ι) : List ι → List (Str × Nat) → List (ι × Str × Nat)
  | [o], v :: vals => (o, v) :: vals.map (c, ·)
  | opts, vals =>
    let required := opts.tail.filter (requiresValue P)
    required.zip vals ++ (vals.drop required.length).map (c, ·)

omit [DecidableEq ι] in
theorem consumed_eq (c : ι) {opts : List ι} (h : opts.length ≠ 1) (vals : List (Str × Nat)) :
    consumed P c opts vals = (opts.tail.filter (requiresValue P)).zip vals ++
      (vals.drop (opts.tail.filter (requiresValue P)).length).map (c, ·) := by
  cases opts with
  | nil => rfl
  | cons o opts =>
    cases opts with
    | nil => exact absurd rfl h
    | cons o' opts => rfl

theorem giveAll_eq (c : ι) (vals : List (Str × Nat)) (e : Bool) (st : St ι) :
    giveAll P c vals e st = feedAll P (vals.map (c, ·)) e st := by
  induction vals generalizing e st with
  | nil => rfl
  | cons v vals ih =>
    rw [giveAll, List.map_cons, feedAll]
    exact congrArg _ (funext fun p => ih _ p.st)

/-- The options that require a value, and then an option for what is left. -/
theorem giveRequired_bind {opts : List ι} {vals : List (Str × Nat)}
    (hlen : (opts.filter (requiresValue P)).length ≤ vals.length) (c : ι) (e : Bool) (st : St ι) :
    ((giveRequired P opts vals e st).bind fun r => giveAll P c r.1 r.2.1 r.2.2) =
      feedAll P ((opts.filter (requiresValue P)).zip vals ++
        (vals.drop (opts.filter (requiresValue P)).length).map (c, ·)) e st := by
  induction opts generalizing vals e st with
  | nil => exact giveAll_eq c vals e st
  | cons o opts ih =>
    rw [giveRequired.eq_def]
    by_cases hreq : requiresValue P o = true
    · rw [List.filter_cons_of_pos hreq] at hlen ⊢
      cases vals with
      | nil => cases hlen
      | cons v vals =>
        simp only [if_pos hreq]
        rw [List.zip_cons_cons, List.cons_append, feedAll, List.length_cons, List.drop_succ_cons,
          Option.bind_assoc]
        exact congrArg _ (funext fun p => ih (Nat.le_of_succ_le_succ hlen) _ p.st)
    · rw [List.filter_cons_of_neg hreq] at hlen ⊢
      simp only [if_neg hreq]
      exact ih hlen e st

omit [DecidableEq ι] in
theorem length_filter_requires (opts : List ι) :
    (opts.filter (requiresValue P)).length = leastSum (slots P opts) := by
  induction opts with
  | nil => rfl
  | cons o opts ih =>
    rw [leastSum_slots_cons, List.filter_cons]
    split
    · rw [List.length_cons, ih, Nat.add_comm]
    · rw [ih, Nat.zero_add]

theorem consume_eq (c : ι) {opts : List ι} {vals : List (Str × Nat)}
    (hlen : leastSum (slots P opts) ≤ vals.length) (e : Bool) (st : St ι) :
    consume P c opts vals e st = feedAll P (consumed P c opts vals) e st := by
  by_cases hone : opts.length = 1
  · obtain ⟨o, rfl⟩ := List.length_eq_one_iff.mp hone
    rw [consume.eq_def, List.tail_cons, giveRequired, Option.bind_some]
    cases vals with
    | nil => rfl
    | cons v vals =>
      dsimp only
      rw [if_pos rfl, consumed, feedAll]
      exact congrArg _ (funext fun p => giveAll_eq c vals _ p.st)
  · have htail : (opts.tail.filter (requiresValue P)).length ≤ vals.length := by
      rw [← length_filter_requires] at hlen
      exact ((List.tail_sublist opts).filter _).length_le.trans hlen
    rw [consumed_eq c hone, ← giveRequired_bind htail, consume.eq_def]
    refine congrArg _ (funext fun r => ?_)
    dsimp only
    split
    · exact absurd rfl hone
    · rfl

theorem map_snd_zip_eq_take {α β : Type} (l : List α) (l' : List β) :
    (l.zip l').map Prod.snd = l'.take l.length := by
  induction l generalizing l' with
  | nil => rfl
  | cons a l ih =>
    cases l' with
    | nil => rfl
    | cons b l' => exact congrArg (b :: ·) (ih l')

omit [DecidableEq ι] in
/-- No value is lost, and none is given twice. -/
theorem consumed_snd (c : ι) {opts : List ι} {vals : List (Str × Nat)}
    (hlen : leastSum (slots P opts) ≤ vals.length) : (consumed P c opts vals).map Prod.snd = vals := by
  have hrest : ∀ vals : List (Str × Nat), (vals.map (c, ·)).map Prod.snd = vals :=
    fun vals => (List.map_map ..).trans (List.map_id _)
  by_cases hone : opts.length = 1
  · obtain ⟨o, rfl⟩ := List.length_eq_one_iff.mp hone
    cases vals with
    | nil => rfl
    | cons v vals => exact congrArg (v :: ·) (hrest vals)
  · have htail : (opts.tail.filter (requiresValue P)).length ≤ vals.length := by
      rw [← length_filter_requires] at hlen
      exact ((List.tail_sublist opts).filter _).length_le.trans hlen
    rw [consumed_eq c hone, List.map_append, hrest, map_snd_zip_eq_take]
    exact List.take_append_drop _ vals

theorem handlePositional_consumes {sub : SubCommand ι} {c : ι} (hc : sub.consumeAfterOpt = some c)
    (ignoreErrors : Bool) (st₀ : St ι) (argv0 : Str) (l : Loop ι)
    (hlen : leastSum (slots P sub.positionalOpts) ≤ l.positionalVals.length) :
    handlePositional P sub (collect P sub ignoreErrors st₀) argv0 l =
      feedAll P (consumed P c sub.positionalOpts l.positionalVals) l.errorParsing l.st := by
  rw [handlePositional.eq_def, numPositionalRequired_collect, hc]
  simp only [if_neg (Nat.not_lt.mpr hlen), Option.isSome_some, Bool.or_true]
  rw [if_neg fun h => absurd h.1.symm Bool.false_ne_true]
  exact consume_eq c hlen l.errorParsing l.st

theorem handlePositional_few {sub : SubCommand ι} {l : Loop ι}
    (hlen : l.positionalVals.length < leastSum (slots P sub.positionalOpts)) (ignoreErrors : Bool)
    (st₀ : St ι) (argv0 : Str) :
    ∃ text, handlePositional P sub (collect P sub ignoreErrors st₀) argv0 l =
      some (true, l.st.write text) := by
  rw [handlePositional.eq_def, numPositionalRequired_collect]
  simp only [if_pos hlen]
  exact ⟨_, rfl⟩

/-- Behind `--`, the loop only collects the arguments. -/
theorem argLoop_dashes {sub : SubCommand ι} (hpos : sub.positionalOpts ≠ []) (k : Nat) (argv0 : Str)
    (st : St ι) (vals : List (Str × Nat)) (e : Bool) (i : Nat) (args : List Str) :
    argLoop P sub k argv0 0 i args ⟨st, vals, none, true, e⟩ =
      some (.done ⟨st, vals ++ args.zipIdx i, none, true, e⟩) := by
  induction args generalizing i vals with
  | nil => rw [argLoop, List.zipIdx_nil, List.append_nil]
  | cons a args ih =>
    have hvals : vals ++ (a :: args).zipIdx i = vals ++ [(a, i)] ++ args.zipIdx (i + 1) := by
      rw [List.zipIdx_cons, List.append_assoc, List.singleton_append]
    have hstep : step P sub k argv0 a args i ⟨st, vals, none, true, e⟩ =
          some (.stop ⟨st, vals ++ [(a, i)] ++ args.zipIdx (i + 1), none, true, e⟩) ∨
        step P sub k argv0 a args i ⟨st, vals, none, true, e⟩ =
          some (.go 0 ⟨st, vals ++ [(a, i)], none, true, e⟩) := by
      rw [step, Bool.or_true, if_pos rfl, positionalStep.eq_def]
      simp only [if_pos hpos]
      split
      · exact .inl rfl
      · exact .inr rfl
    rw [hvals]
    rcases hstep with hstep | hstep
    · simp only [argLoop, hstep]
    · simp only [argLoop, hstep]
      exact ih (vals ++ [(a, i)]) (i + 1)

omit [DecidableEq ι] in
theorem handled_collect (sub : SubCommand ι) (ignoreErrors : Bool) (st : St ι) :
    (collect P sub ignoreErrors st).st.handled = st.handled := by
  rw [collect]
  refine List.foldlRecOn (motive := fun (r : Required ι) => r.st.handled = st.handled) _ _ rfl ?_
  intro r hr o _
  rw [← hr]
  show (collectNeed P sub ignoreErrors r o).st.handled = r.st.handled
  rw [collectNeed]
  split
  · rfl
  · split
    · split
      · cases ignoreErrors <;> rfl
      · rfl
    · split
      · cases ignoreErrors <;> rfl
      · rfl

omit [DecidableEq ι] in
/-- The check of what is required only writes. -/
theorem checkRequired_keeps (optionsMap : List (Str × ι)) (e : Bool) (st : St ι) :
    (checkRequired P optionsMap e st).2.handled = st.handled ∧
      (checkRequired P optionsMap e st).2.numOccurrences = st.numOccurrences := by
  induction optionsMap generalizing e st with
  | nil => exact ⟨rfl, rfl⟩
  | cons x optionsMap ih =>
    rw [checkRequired]
    split
    · exact ih _ _
    · exact ih _ _

omit [DecidableEq ι] in
theorem checkRequired_true (optionsMap : List (Str × ι)) (st : St ι) :
    (checkRequired P optionsMap true st).1 = true := by
  induction optionsMap generalizing st with
  | nil => rfl
  | cons x optionsMap ih =>
    rw [checkRequired]
    split
    · exact ih _
    · exact ih _

end Primitives.CommandLine
