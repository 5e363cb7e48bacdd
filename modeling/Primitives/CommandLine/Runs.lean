import Primitives.CommandLine.Loop

/-!
# Whole runs

What a run of the parser says about its errors (`parseFor_ok_iff`), how often it tells an option a value
(`taken_at_most_once`, `taken_fits`), and that it leaves the options of other subcommands alone
(`tells_own_options`).

`ParseCommandLineOptions` calls itself where it finds a subcommand behind other arguments. For subcommands
that it can handle (`Safe`) no run of it reads a null or fails an assertion, so that what is left is whether
the calls come to an end (`parser_ends`).
-/

set_option autoImplicit false

namespace Primitives.CommandLine

open Lib

variable {ι : Type} [DecidableEq ι] {P : CommandLineParser ι} {sub : SubCommand ι}

/-! ## Occurrences -/

/-- The option that is told of the occurrences of an option. -/
def target (P : CommandLineParser ι) (o : ι) : ι := (P.opt o).aliasFor.getD o

theorem addOccurrenceOf_cases (o : ι) (pos : Nat) (argName value : Str) (multiArg : Bool) (st : St ι) :
    (∃ text, addOccurrenceOf P o pos argName value multiArg st = (true, (st.seen o multiArg).write text)) ∨
      addOccurrenceOf P o pos argName value multiArg st =
          (false, { st.seen o multiArg with
            handled := (st.seen o multiArg).handled ++ [⟨o, pos, argName, value⟩] }) ∧
        (flagOf P o = .optional ∨ flagOf P o = .required → (st.seen o multiArg).numOccurrences o ≤ 1) := by
  have hhandle : ∀ st : St ι, (∃ text, handleOccurrence P o pos argName value st = (true, st.write text)) ∨
      handleOccurrence P o pos argName value st =
        (false, { st with handled := st.handled ++ [⟨o, pos, argName, value⟩] }) := by
    intro st
    rw [handleOccurrence]
    split
    · exact .inl ⟨_, rfl⟩
    · exact .inr rfl
  rw [addOccurrenceOf.eq_def, flagOf]
  dsimp only
  split
  · split
    · exact .inl ⟨_, rfl⟩
    · rename_i hle
      exact (hhandle _).imp_right fun h => ⟨h, fun _ => Nat.not_lt.mp hle⟩
  · split
    · exact .inl ⟨_, rfl⟩
    · rename_i hle
      exact (hhandle _).imp_right fun h => ⟨h, fun _ => Nat.not_lt.mp hle⟩
  · rename_i hflag
    rw [hflag]
    exact (hhandle _).imp_right fun h => ⟨h, fun h => by simp at h⟩
  · rename_i hflag
    rw [hflag]
    exact (hhandle _).imp_right fun h => ⟨h, fun h => by simp at h⟩
  · rename_i hflag
    rw [hflag]
    exact (hhandle _).imp_right fun h => ⟨h, fun h => by simp at h⟩

/-- **What an occurrence does**: it is counted, and then it is an error or is told to the option. -/
theorem addOccurrence_cases (o : ι) (pos : Nat) (argName value : Str) (multiArg : Bool) (st : St ι) :
    (∃ text, addOccurrence P o pos argName value multiArg st =
        (true, (st.seen (target P o) multiArg).write text)) ∨
      ∃ name, addOccurrence P o pos argName value multiArg st =
          (false, { st.seen (target P o) multiArg with
            handled := (st.seen (target P o) multiArg).handled ++ [⟨target P o, pos, name, value⟩] }) ∧
        (flagOf P (target P o) = .optional ∨ flagOf P (target P o) = .required →
          (st.seen (target P o) multiArg).numOccurrences (target P o) ≤ 1) := by
  rw [addOccurrence.eq_def, target]
  cases (P.opt o).aliasFor with
  | none => exact (addOccurrenceOf_cases o pos argName value multiArg st).imp_right fun h => ⟨_, h⟩
  | some t =>
    exact (addOccurrenceOf_cases t pos (P.opt t).argStr value multiArg st).imp_right fun h => ⟨_, h⟩

@[simp]
theorem errs_seen (st : St ι) (o : ι) (multiArg : Bool) : (st.seen o multiArg).errs = st.errs := by
  cases multiArg <;> rfl

@[simp]
theorem handled_seen (st : St ι) (o : ι) (multiArg : Bool) :
    (st.seen o multiArg).handled = st.handled := by
  cases multiArg <;> rfl

theorem numOccurrences_seen (st : St ι) (o : ι) (multiArg : Bool) (o' : ι) :
    (st.seen o multiArg).numOccurrences o' =
      st.numOccurrences o' + (if o' = o ∧ multiArg = false then 1 else 0) := by
  cases multiArg with
  | true => simp [St.seen]
  | false =>
    by_cases h : o' = o
    · simp [St.seen, h]
    · simp [St.seen, h]

omit [DecidableEq ι] in
theorem withoutNull_map (argv : List Str) : withoutNull (argv.map some) = some argv := by
  induction argv with
  | nil => rfl
  | cons a argv ih => rw [List.map_cons, withoutNull, ih, Option.map_some]

/-! ## Errors -/

/-- A text is written exactly if there is an error. -/
def Wrote (st : St ι) (f : Bool) (st' : St ι) : Prop :=
  (f = true → st.errs.length < st'.errs.length) ∧ (f = false → st'.errs = st.errs)

omit [DecidableEq ι] in
theorem Wrote.trans {st₁ st₂ st₃ : St ι} {f g : Bool} (h₁ : Wrote st₁ f st₂) (h₂ : Wrote st₂ g st₃) :
    Wrote st₁ (f || g) st₃ := by
  cases f with
  | true =>
    have hlt := h₁.1 rfl
    refine ⟨fun _ => ?_, Bool.noConfusion⟩
    cases g with
    | true => exact hlt.trans (h₂.1 rfl)
    | false => rwa [h₂.2 rfl]
  | false =>
    have heq := h₁.2 rfl
    cases g with
    | true => exact ⟨fun _ => heq ▸ h₂.1 rfl, Bool.noConfusion⟩
    | false => exact ⟨Bool.noConfusion, fun _ => (h₂.2 rfl).trans heq⟩

omit [DecidableEq ι] in
theorem wrote_write (st : St ι) (text : Str) : Wrote st true (st.write text) :=
  ⟨fun _ => by simp [St.write], Bool.noConfusion⟩

theorem kept_wrote (hsub : ¬ sub.Ignores P) : Kept P sub Wrote where
  refl := fun _ => ⟨Bool.noConfusion, fun _ => rfl⟩
  trans := Wrote.trans
  write := wrote_write
  occurrence := by
    intro o pos argName value multiArg st _ _
    rcases addOccurrence_cases (P := P) o pos argName value multiArg st with ⟨text, h⟩ | ⟨name, h, -⟩
    · rw [h]
      exact ⟨fun _ => by simp [St.write], Bool.noConfusion⟩
    · rw [h]
      exact ⟨Bool.noConfusion, fun _ => errs_seen st _ multiArg⟩
  ignore := fun h => absurd h hsub

theorem not_ignores_sample : ¬ sample.topLevel.Ignores sample := by
  rintro (⟨o, hhas, hpos⟩ | hne | hne)
  · cases o with
    | output => cases hpos
    | verbose => cases hpos
    | quiet => cases hpos
    | source => simp [SubCommand.Has, sample] at hhas
    | target => simp [SubCommand.Has, sample] at hhas
    | command => cases hpos
  · exact hne rfl
  · exact hne rfl

theorem sample_run (name : Str) : ∃ st', parseFor sample true sample.topLevel sampleArgv 1
    { St.fresh with programName := name } = some (.finished true st') :=
  ⟨_, rfl⟩

/-- How many values an option was told. -/
def taken (st : St ι) (o : ι) : Nat := st.handled.countP fun x => x.option = o

theorem taken_append (st : St ι) (x : Occurrence ι) (o : ι) :
    taken { st with handled := st.handled ++ [x] } o = taken st o + (if x.option = o then 1 else 0) := by
  rw [taken, taken, List.countP_append, List.countP_singleton]
  simp

/-- An option was told no more than one value, and that only if it was seen. -/
def AtMostOne (o : ι) (st : St ι) : Prop := taken st o ≤ min 1 (st.numOccurrences o)

theorem AtMostOne.seen {o : ι} {st : St ι} (h : AtMostOne o st) (o' : ι) (multiArg : Bool) :
    AtMostOne o (st.seen o' multiArg) := by
  have htaken : taken (st.seen o' multiArg) o = taken st o := by rw [taken, taken, handled_seen]
  rw [AtMostOne, htaken, numOccurrences_seen]
  rw [AtMostOne] at h
  omega

theorem AtMostOne.addOccurrence {o : ι} (hflag : flagOf P o = .optional ∨ flagOf P o = .required)
    {o' : ι} {multiArg : Bool} (hm : target P o' = o → multiArg = false) (pos : Nat) (argName value : Str)
    {st : St ι} (h : AtMostOne o st) :
    AtMostOne o (addOccurrence P o' pos argName value multiArg st).2 := by
  have hseen := h.seen (target P o') multiArg
  rcases addOccurrence_cases (P := P) o' pos argName value multiArg st with ⟨text, heq⟩ | ⟨name, heq, hle⟩
  · rw [heq]
    exact hseen
  · rw [heq, AtMostOne, taken_append]
    by_cases ht : target P o' = o
    · rw [if_pos ht]
      rw [ht] at hle ⊢
      have hone := hle hflag
      have hnum := numOccurrences_seen st o multiArg o
      have htaken : taken (st.seen o multiArg) o = taken st o := by rw [taken, taken, handled_seen]
      rw [if_pos ⟨rfl, hm ht⟩] at hnum
      rw [AtMostOne] at h
      dsimp only
      omega
    · rw [if_neg ht]
      exact hseen

theorem kept_atMostOne {o : ι} (hflag : flagOf P o = .optional ∨ flagOf P o = .required)
    (hsingle : ∀ o', target P o' = o → (P.opt o').numAdditionalVals ≤ 1) (sub : SubCommand ι) :
    Kept P sub fun st _ st' => AtMostOne o st → AtMostOne o st' where
  refl := fun _ h => h
  trans := fun h₁ h₂ h => h₂ (h₁ h)
  write := fun _ _ h => h
  occurrence := by
    intro o' pos argName value multiArg st _ hm h
    refine h.addOccurrence hflag (fun ht => ?_) pos argName value
    have hle := hsingle o' ht
    cases multiArg with
    | false => rfl
    | true =>
      have htwo := hm rfl
      omega
  ignore := fun _ _ _ _ h => h

/-- What all subcommands keep is kept over the subcommands that follow one another. -/
theorem parseCommandLineOptions_keeps {R : St ι → St ι → Prop}
    (h : ∀ sub, Kept P sub fun st _ st' => R st st')
    (hname : ∀ {st name st'}, R { st with programName := name } st' → R st st') {σ : Type} {env : Env σ}
    {tokenizer : Tokenizer} {n : Nat} {ignoreErrors : Bool} {argv : List Str} {firstArg : Nat}
    {settings settings' : σ} {st st' : St ι} {a : Answer}
    (hp : parseCommandLineOptions P env tokenizer n ignoreErrors argv firstArg settings st =
      some (a, settings', st')) : R st st' := by
  induction n generalizing ignoreErrors argv firstArg settings st with
  | zero => cases hp
  | succ n ih =>
    rw [parseCommandLineOptions] at hp
    obtain ⟨e, -, hp⟩ := Option.bind_eq_some_iff.mp hp
    obtain ⟨argv', -, hp⟩ := Option.bind_eq_some_iff.mp hp
    obtain ⟨argv0, -, hp⟩ := Option.bind_eq_some_iff.mp hp
    obtain ⟨⟨sub, firstArg'⟩, -, hp⟩ := Option.bind_eq_some_iff.mp hp
    obtain ⟨level, hlevel, hp⟩ := Option.bind_eq_some_iff.mp hp
    have hends := (h sub).parseFor (fun _ _ st => (h sub).refl st) hlevel
    cases level with
    | finished ok' st'' =>
      cases hp
      exact hname hends
    | again i st'' =>
      obtain ⟨-, hR⟩ := hends
      exact (h sub).trans (f := false) (g := false) (hname hR) (ih hp)

/-- **An option that may occur once is told one value at most**, by whichever names and aliases the
arguments call it, and whatever subcommands they go through. -/
theorem taken_at_most_once {o : ι} (hflag : flagOf P o = .optional ∨ flagOf P o = .required)
    (hsingle : ∀ o', target P o' = o → (P.opt o').numAdditionalVals ≤ 1) {σ : Type} {env : Env σ}
    {tokenizer : Tokenizer} {n : Nat} {ignoreErrors : Bool} {argv : List Str} {firstArg : Nat}
    {settings settings' : σ} {st st' : St ι} {a : Answer} (hst : st.handled = [])
    (h : parseCommandLineOptions P env tokenizer n ignoreErrors argv firstArg settings st =
      some (a, settings', st')) : taken st' o ≤ 1 := by
  have hkept : AtMostOne o st → AtMostOne o st' :=
    parseCommandLineOptions_keeps (R := fun st st' => AtMostOne o st → AtMostOne o st')
      (fun sub => kept_atMostOne hflag hsingle sub) (fun hR => hR) h
  have hstart : AtMostOne o st := by
    rw [AtMostOne, taken, hst]
    exact Nat.zero_le _
  exact (hkept hstart).trans (Nat.min_le_left _ _)

theorem target_sample (o : Sample) : target sample o = o := by
  cases o <;> rfl

theorem numAdditionalVals_sample (o : Sample) : (sample.opt o).numAdditionalVals ≤ 1 := by
  cases o <;> exact Nat.zero_le 1

theorem taken_at_most_once_sample : ∃ st', parseCommandLineOptions sample (.ofFiles []) tokenizeGNU 1 true
    sampleArgv 1 () .fresh = some (.returned true, (), st') ∧ taken st' .output ≤ 1 := by
  have hexp : expandResponseFiles (.ofFiles []) tokenizeGNU false false () (sampleArgv.map some) =
      some ⟨sampleArgv.map some, (), true⟩ :=
    (Expands.plain rfl (.plain rfl (.plain rfl (.plain rfl .nil)))).expandResponseFiles_eq (Nat.zero_le _)
  obtain ⟨st', h⟩ := sample_run ((Env.ofFiles []).filename "tool".toList)
  have hrun : parseCommandLineOptions sample (.ofFiles []) tokenizeGNU 1 true sampleArgv 1 () .fresh =
      some (.returned true, (), st') := by
    have hhead : sampleArgv.head? = some "tool".toList := rfl
    have hchoose : chooseSubCommand sample sampleArgv 1 = some (sample.topLevel, 1) := rfl
    rw [parseCommandLineOptions, hexp]
    simp only [Option.bind_eq_bind, Option.bind_some, withoutNull_map, hhead, hchoose, h]
    rfl
  exact ⟨st', hrun, taken_at_most_once (.inr rfl) (fun o _ => numAdditionalVals_sample o) rfl hrun⟩

/-- Each time an option was seen without an error, it was told a value. -/
def SeenTaken (o : ι) (st : St ι) (f : Bool) (st' : St ι) : Prop :=
  f = false → st'.numOccurrences o + taken st o ≤ st.numOccurrences o + taken st' o

theorem kept_seenTaken (o : ι) (hsub : ¬ sub.Ignores P) : Kept P sub (SeenTaken o) where
  refl := fun _ _ => Nat.le_refl _
  trans := by
    intro st₁ f st₂ g st₃ h₁ h₂ hfg
    rw [Bool.or_eq_false_iff] at hfg
    have hle₁ := h₁ hfg.1
    have hle₂ := h₂ hfg.2
    omega
  write := fun _ _ => Bool.noConfusion
  occurrence := by
    intro o' pos argName value multiArg st _ _
    rcases addOccurrence_cases (P := P) o' pos argName value multiArg st with ⟨text, h⟩ | ⟨name, h, -⟩
    · rw [h]
      exact Bool.noConfusion
    · rw [h]
      intro _
      have hnum := numOccurrences_seen st (target P o') multiArg o
      have htaken : taken (st.seen (target P o') multiArg) o = taken st o := by
        rw [taken, taken, handled_seen]
      rw [taken_append]
      dsimp only
      split at hnum
      · rename_i ho
        rw [if_pos ho.1.symm]
        omega
      · omega
  ignore := fun h => absurd h hsub

omit [DecidableEq ι] in
/-- Behind the check, each option that requires a value was seen. -/
theorem checkRequired_false {optionsMap : List (Str × ι)} {e : Bool} {st st' : St ι}
    (h : checkRequired P optionsMap e st = (false, st')) :
    ∀ x ∈ optionsMap, requiresValue P x.2 = true → 0 < st'.numOccurrences x.2 := by
  induction optionsMap generalizing e st with
  | nil => exact fun _ hx => nomatch hx
  | cons x optionsMap ih =>
    obtain ⟨name, o⟩ := x
    rw [checkRequired] at h
    split at h
    · have htrue := checkRequired_true (P := P) optionsMap
        (error P o "must be specified at least once!".toList none st)
      rw [h] at htrue
      cases htrue
    · rename_i hseen
      refine List.forall_mem_cons.mpr ⟨fun hreq => ?_, ih h⟩
      have hst := (checkRequired_keeps (P := P) optionsMap e st).2
      rw [h] at hst
      rw [hst]
      exact Nat.pos_of_ne_zero fun hzero => hseen ⟨hreq, hzero⟩

theorem parseFor_seen {ignoreErrors : Bool} {argv : List Str} {firstArg : Nat} {st st' : St ι}
    (h : parseFor P ignoreErrors sub argv firstArg st = some (.finished true st')) :
    ∀ x ∈ sub.optionsMap, requiresValue P x.2 = true → 0 < st'.numOccurrences x.2 := by
  rw [parseFor.eq_def] at h
  dsimp only at h
  split at h
  · cases h
  · split at h
    · cases h
    · cases h
    · rename_i l _
      obtain ⟨p, -, hp⟩ := Option.map_eq_some_iff.mp h
      injection hp with hok hst
      have hcheck : checkRequired P sub.optionsMap (l.errorParsing || p.1) p.2 = (false, st') :=
        Prod.ext (Bool.not_eq_true' _ ▸ hok) hst
      exact checkRequired_false hcheck

def Level.st : Level ι → St ι
  | .finished _ st => st
  | .again _ st => st

/-- An option is seen as often as before, and was told the same. -/
def Untouched (o : ι) (st st' : St ι) : Prop :=
  st'.numOccurrences o = st.numOccurrences o ∧
    (st'.handled.filter fun x => x.option = o) = st.handled.filter fun x => x.option = o

theorem kept_untouched {o : ι} (ho : ∀ o', sub.Has o' → target P o' ≠ o) :
    Kept P sub fun st _ st' => Untouched o st st' where
  refl := fun _ => ⟨rfl, rfl⟩
  trans := fun h₁ h₂ => ⟨h₂.1.trans h₁.1, h₂.2.trans h₁.2⟩
  write := fun _ _ => ⟨rfl, rfl⟩
  occurrence := by
    intro o' pos argName value multiArg st hhas _
    have hne := ho o' hhas
    have hnum := numOccurrences_seen st (target P o') multiArg o
    rw [if_neg fun h => hne h.1.symm, Nat.add_zero] at hnum
    rcases addOccurrence_cases (P := P) o' pos argName value multiArg st with ⟨text, h⟩ | ⟨name, h, -⟩
    · rw [h]
      exact ⟨hnum, congrArg (List.filter _) (handled_seen st (target P o') multiArg)⟩
    · rw [h]
      refine ⟨hnum, ?_⟩
      rw [handled_seen, List.filter_append, List.filter_singleton]
      simp [hne]
  ignore := fun _ _ _ _ h => h

/-- **A run leaves alone** what is no option of its subcommand, and is not what an alias of it is for. -/
theorem tells_own_options {o : ι} (ho : ∀ o', sub.Has o' → target P o' ≠ o) {ignoreErrors : Bool}
    {argv : List Str} {firstArg : Nat} {st : St ι} {level : Level ι}
    (h : parseFor P ignoreErrors sub argv firstArg st = some level) : Untouched o st level.st := by
  have hends := (kept_untouched ho).parseFor (fun _ _ st => ⟨rfl, rfl⟩) h
  cases level with
  | finished ok st' => exact hends
  | again i st' =>
    obtain ⟨-, hR⟩ := hends
    exact hR

theorem tells_own_options_sample : ∃ st', parseFor sample true sample.topLevel sampleArgv 1 .fresh =
    some (.finished true st') ∧ Untouched .source .fresh st' := by
  obtain ⟨st', h⟩ := sample_run []
  refine ⟨st', h, tells_own_options (fun o hhas => ?_) h⟩
  rw [target_sample]
  rintro rfl
  simp [SubCommand.Has, sample] at hhas

/-! ## No null and no failed assertion -/

/-- The option can do without `argv`, at which `SpaceSeparated` looks. -/
def NeedsNone (P : CommandLineParser ι) (o : ι) : Prop :=
  (P.opt o).numAdditionalVals = 0 → (P.opt o).miscFlags.spaceSeparated = false

/-- A subcommand that the parser can handle. For positional options and for grouped ones `argv` is null. -/
structure Safe (P : CommandLineParser ι) (sub : SubCommand ι) : Prop where
  named : ∀ o, sub.Has o →
    (P.opt o).formattingFlag = .positional ∨ (P.opt o).formattingFlag = .grouping → NeedsNone P o
  given : ∀ o, o ∈ sub.positionalOpts ∨ o ∈ sub.consumeAfterOpt → NeedsNone P o
  grouping : ∀ o, sub.Has o → (P.opt o).formattingFlag = .grouping →
    (P.opt o).valueExpectedFlag ≠ .valueRequired
  positional : ∀ o ∈ sub.positionalOpts, flagOf P o ≠ .consumeAfter
  consumeAfter : sub.consumeAfterOpt.isSome = true → sub.positionalOpts ≠ []

theorem provideValues_isSome {o : ι} {argv : Option (Str × List Str)}
    (h : argv.isSome = true ∨ NeedsNone P o) (argName : Str) (value : Option Str) (i : Nat) (st : St ι) :
    (provideValues P o argName value argv i st).isSome = true := by
  rw [provideValues]
  split
  · rename_i hzero
    split
    · rename_i hspace
      rcases h with h | h
      · rwa [Option.isSome_map]
      · rw [h hzero] at hspace
        cases hspace
    · rfl
  · cases value with
    | none => rfl
    | some value =>
      dsimp only
      split
      · rfl
      · rfl

theorem provideOption_isSome {o : ι} {argv : Option (Str × List Str)}
    (h : argv.isSome = true ∨ NeedsNone P o) (argName : Str) (value : Option Str) (i : Nat) (st : St ι) :
    (provideOption P o argName value argv i st).isSome = true := by
  rw [provideOption.eq_def]
  split
  · split
    · exact provideValues_isSome h argName _ i st
    · rw [Option.isSome_map]
      exact provideValues_isSome (.inl rfl) argName _ _ st
    · rfl
  · split
    · rfl
    · split
      · rfl
      · exact provideValues_isSome h argName _ i st
  · exact provideValues_isSome h argName _ i st

theorem providePositionalOption_isSome {o : ι} (h : NeedsNone P o) (arg : Str) (i : Nat) (st : St ι) :
    (providePositionalOption P o arg i st).isSome = true :=
  provideOption_isSome (.inr h) _ _ i st

theorem feed_isSome {l : List (ι × Str × Nat)} (h : ∀ x ∈ l, NeedsNone P x.1) (st : St ι) :
    (feed P l st).isSome = true := by
  induction l generalizing st with
  | nil => rfl
  | cons x l ih =>
    obtain ⟨hx, hl⟩ := List.forall_mem_cons.mp h
    obtain ⟨p, hp⟩ := Option.isSome_iff_exists.mp (providePositionalOption_isSome hx x.2.1 x.2.2 st)
    rw [feed, hp]
    exact ih hl p.st

theorem feedAll_isSome {l : List (ι × Str × Nat)} (h : ∀ x ∈ l, NeedsNone P x.1) (e : Bool) (st : St ι) :
    (feedAll P l e st).isSome = true := by
  induction l generalizing e st with
  | nil => rfl
  | cons x l ih =>
    obtain ⟨hx, hl⟩ := List.forall_mem_cons.mp h
    obtain ⟨p, hp⟩ := Option.isSome_iff_exists.mp (providePositionalOption_isSome hx x.2.1 x.2.2 st)
    rw [feedAll, hp]
    exact ih hl _ p.st

omit [DecidableEq ι] in
theorem mem_of_assigned {α : Type} {opts : List ι} {sizes : List Nat} {vals : List α} {x : ι × α}
    (h : x ∈ assigned opts sizes vals) : x.1 ∈ opts := by
  induction opts generalizing sizes vals with
  | nil => cases h
  | cons o opts ih =>
    cases sizes with
    | nil => cases h
    | cons k sizes =>
      rcases List.mem_append.mp h with h | h
      · obtain ⟨v, -, rfl⟩ := List.mem_map.mp h
        exact List.mem_cons_self ..
      · exact List.mem_cons_of_mem o (ih h)

omit [DecidableEq ι] in
theorem mem_of_consumed {c : ι} {opts : List ι} {vals : List (Str × Nat)} {x : ι × Str × Nat}
    (h : x ∈ consumed P c opts vals) : x.1 ∈ opts ∨ x.1 = c := by
  by_cases hone : opts.length = 1
  · obtain ⟨o, rfl⟩ := List.length_eq_one_iff.mp hone
    cases vals with
    | nil => cases h
    | cons v vals =>
      rcases List.mem_cons.mp h with rfl | h
      · exact .inl (List.mem_singleton_self o)
      · obtain ⟨v', -, rfl⟩ := List.mem_map.mp h
        exact .inr rfl
  · rw [consumed_eq c hone] at h
    rcases List.mem_append.mp h with h | h
    · exact .inl (List.mem_of_mem_tail (List.mem_of_mem_filter (List.of_mem_zip h).1))
    · obtain ⟨v', -, rfl⟩ := List.mem_map.mp h
      exact .inr rfl

namespace Safe

variable {o : ι}

/-- The rounds for grouped options come to an end. -/
theorem groupLoop_isSome (h : Safe P sub) {n length : Nat} {arg : Str} (ho : sub.Has o)
    (hgroup : (P.opt o).formattingFlag = .grouping) (hlength : arg ≠ [] → 0 < length)
    (hn : arg.length < n) (e : Bool) (st : St ι) :
    (groupLoop P sub.optionsMap n o length arg e st).isSome = true := by
  induction n generalizing o length arg e st with
  | zero => cases hn
  | succ n ih =>
    have hprovide : (provideOption P o (arg.take length) none none 0 st).isSome = true :=
      provideOption_isSome (.inr (h.named o ho (.inr hgroup))) _ none 0 st
    obtain ⟨p, hp⟩ := Option.isSome_iff_exists.mp hprovide
    rw [groupLoop.eq_def]
    simp only [if_neg (h.grouping o ho hgroup), hp]
    split
    · rfl
    · rename_i o' length' hpred
      obtain ⟨hlook, hle, hpos, hgroup'⟩ := getOptionPred_spec hpred
      split
      · rfl
      · rename_i hlen
        refine ih (SubCommand.has_of_lookup hlook) (of_decide_eq_true hgroup') hpos ?_ _ _
        rw [List.length_drop] at hle hlen ⊢
        have hne : arg ≠ [] := List.ne_nil_of_length_pos (by omega)
        have hpos := hlength hne
        omega

theorem handlePrefixedOrGroupedOption_isSome (h : Safe P sub) (arg : Str) (e : Bool) (st : St ι) :
    (handlePrefixedOrGroupedOption P sub.optionsMap arg e st).isSome = true := by
  rw [handlePrefixedOrGroupedOption]
  split
  · rfl
  · split
    · rfl
    · rename_i o length hpred
      obtain ⟨hlook, -, hpos, hformat⟩ := getOptionPred_spec hpred
      split
      · rfl
      · rename_i hprefix
        rw [isPrefixedOrGrouping, isGrouping, decide_eq_false hprefix, Bool.or_false] at hformat
        exact h.groupLoop_isSome (SubCommand.has_of_lookup hlook) (of_decide_eq_true hformat) hpos
          (Nat.lt_succ_self _) e st

theorem feedActive_isSome (h : Safe P sub) {l : Loop ι} (hl : ActiveOf P sub l)
    (ho : l.activePositionalArg = some o) (a : Str) (i : Nat) : (feedActive P o a i l).isSome = true := by
  obtain ⟨hhas, hpos⟩ := hl o ho
  rw [feedActive, Option.isSome_map]
  exact providePositionalOption_isSome (h.named o hhas (.inl hpos)) a i l.st

theorem handleOption_isSome (s : Split ι) (a : Str) (args : List Str) (i : Nat) (l : Loop ι) :
    (handleOption P s a args i l).isSome = true := by
  rw [handleOption]
  split
  · split
    · rfl
    · rfl
  · rw [Option.isSome_map]
    exact provideOption_isSome (.inl rfl) _ _ i l.st

theorem step_isSome (h : Safe P sub) {l : Loop ι} (hl : ActiveOf P sub l) (k : Nat) (argv0 a : Str)
    (args : List Str) (i : Nat) : (step P sub k argv0 a args i l).isSome = true := by
  rw [step]
  split
  · rw [positionalStep.eq_def]
    split
    · rename_i o ho
      exact h.feedActive_isSome hl ho a i
    · split
      · dsimp only
        split
        · rfl
        · rfl
      · split
        · rfl
        · rfl
  · split
    · rfl
    · rw [dashStep.eq_def]
      dsimp only
      split
      · rename_i o ho
        split
        · exact handleOption_isSome _ a args i l
        · exact h.feedActive_isSome hl (Option.filter_eq_some_iff.mp ho).1 a i
      · split
        · exact handleOption_isSome _ a args i l
        · obtain ⟨g, hg⟩ := Option.isSome_iff_exists.mp (h.handlePrefixedOrGroupedOption_isSome
            (a.dropWhile (· = '-')) l.errorParsing l.st)
          rw [hg]
          dsimp only
          split
          · exact handleOption_isSome _ a args i _
          · rfl

theorem kept_true (sub : SubCommand ι) : Kept P sub fun _ _ _ => True where
  refl := fun _ => trivial
  trans := fun _ _ => trivial
  write := fun _ _ => trivial
  occurrence := fun _ _ _ _ _ _ _ _ => trivial
  ignore := fun _ _ _ _ _ => trivial

theorem argLoop_isSome (h : Safe P sub) (k : Nat) (argv0 : Str) {l : Loop ι} (hl : ActiveOf P sub l)
    (skip i : Nat) (args : List Str) : (argLoop P sub k argv0 skip i args l).isSome = true := by
  induction args generalizing skip i l with
  | nil => cases skip <;> rfl
  | cons a args ih =>
    cases skip with
    | succ skip => exact ih hl skip (i + 1)
    | zero =>
      obtain ⟨n, hn⟩ := Option.isSome_iff_exists.mp (h.step_isSome hl k argv0 a args i)
      have hkeep := (kept_true (P := P) sub).step hl hn
      rw [argLoop, hn]
      cases n with
      | go taken l' => exact ih hkeep.2 taken (i + 1)
      | stop l' => rfl
      | sub l' => rfl

theorem handlePositional_isSome (h : Safe P sub) (ignoreErrors : Bool) (st : St ι) (argv0 : Str)
    (l : Loop ι) : (handlePositional P sub (collect P sub ignoreErrors st) argv0 l).isSome = true := by
  cases hc : sub.consumeAfterOpt with
  | none =>
    rcases handlePositional_distributes hc h.positional ignoreErrors st argv0 l with
      ⟨-, heq⟩ | ⟨-, text, heq⟩
    · rw [heq, Option.isSome_map]
      exact feed_isSome (fun x hx => h.given x.1 (.inl (mem_of_assigned hx))) l.st
    · rw [heq]
      rfl
  | some c =>
    rcases Nat.lt_or_ge l.positionalVals.length (leastSum (slots P sub.positionalOpts)) with hlen | hlen
    · obtain ⟨text, heq⟩ := handlePositional_few hlen ignoreErrors st argv0
      rw [heq]
      rfl
    · rw [handlePositional_consumes hc ignoreErrors st argv0 l hlen]
      refine feedAll_isSome (fun x hx => ?_) l.errorParsing l.st
      rcases mem_of_consumed hx with ho | ho
      · exact h.given x.1 (.inl ho)
      · exact h.given x.1 (.inr (ho ▸ hc))

end Safe

/-- **The parser is safe**: whatever the arguments are, no null is read and no assertion fails. -/
theorem parseFor_isSome (h : Safe P sub) (ignoreErrors : Bool) (argv : List Str) (firstArg : Nat)
    (st : St ι) : (parseFor P ignoreErrors sub argv firstArg st).isSome = true := by
  have hassert : ¬ (sub.consumeAfterOpt.isSome = true ∧ sub.positionalOpts = []) :=
    fun hh => h.consumeAfter hh.1 hh.2
  obtain ⟨e, he⟩ := Option.isSome_iff_exists.mp (h.argLoop_isSome
    (collect P sub ignoreErrors st).numPositionalRequired (argv.headD [])
    (l := ⟨(collect P sub ignoreErrors st).st, [], none, false, (collect P sub ignoreErrors st).errorParsing⟩)
    (activeOf_none rfl) 0 firstArg (argv.drop firstArg))
  rw [parseFor.eq_def]
  simp only [if_neg hassert, he]
  cases e with
  | sub i l => rfl
  | done l =>
    dsimp only
    rw [Option.isSome_map]
    exact h.handlePositional_isSome ignoreErrors st _ l

/-! ## Subcommands behind other arguments -/

theorem handleOption_go {s : Split ι} {a : Str} {args : List Str} {i : Nat} {l l' : Loop ι} :
    handleOption P s a args i l ≠ some (.sub l') := by
  intro h
  rw [handleOption] at h
  split at h
  · split at h
    · cases h
    · cases h
  · obtain ⟨p, -, hp⟩ := Option.map_eq_some_iff.mp h
    cases hp

theorem feedActive_go {o : ι} {a : Str} {i : Nat} {l l' : Loop ι} : feedActive P o a i l ≠ some (.sub l') := by
  intro h
  obtain ⟨p, -, hp⟩ := Option.map_eq_some_iff.mp h
  cases hp

/-- A round ends with a subcommand only at its name. -/
theorem step_sub {k : Nat} {argv0 a : Str} {args : List Str} {i : Nat} {l l' : Loop ι}
    (h : step P sub k argv0 a args i l = some (.sub l')) :
    (lookupSubCommand P a).isSome = true ∧ (isPositionalText a || l.dashDashFound) = true := by
  rw [step] at h
  split at h
  · rename_i hpos
    refine ⟨?_, hpos⟩
    rw [positionalStep.eq_def] at h
    split at h
    · exact absurd h feedActive_go
    · split at h
      · dsimp only at h
        split at h
        · cases h
        · cases h
      · split at h
        · rename_i hsub
          exact hsub
        · cases h
  · split at h
    · cases h
    · rw [dashStep.eq_def] at h
      dsimp only at h
      split at h
      · split at h
        · exact absurd h handleOption_go
        · exact absurd h feedActive_go
      · split at h
        · exact absurd h handleOption_go
        · split at h
          · cases h
          · split at h
            · exact absurd h handleOption_go
            · cases h

theorem argLoop_sub {k : Nat} {argv0 : Str} {skip i j : Nat} {args : List Str} {l l' : Loop ι}
    (h : argLoop P sub k argv0 skip i args l = some (.sub j l')) :
    ∃ m a, j = i + m ∧ args[m]? = some a ∧ (lookupSubCommand P a).isSome = true ∧
      (m = 0 → l.dashDashFound = false → isPositionalText a = true) := by
  induction args generalizing skip i l with
  | nil => cases skip <;> cases h
  | cons a args ih =>
    have hlater : ∀ {skip : Nat} {l : Loop ι},
        argLoop P sub k argv0 skip (i + 1) args l = some (.sub j l') →
        ∃ m b, j = i + m ∧ (a :: args)[m]? = some b ∧ (lookupSubCommand P b).isSome = true ∧
          (m = 0 → l.dashDashFound = false → isPositionalText b = true) := by
      intro skip l h
      obtain ⟨m, b, hj, hb, hsub, -⟩ := ih h
      exact ⟨m + 1, b, by omega, hb, hsub, fun hm => absurd hm (Nat.succ_ne_zero m)⟩
    cases skip with
    | succ skip =>
      obtain ⟨m, b, hj, hb, hsub, hpos⟩ := hlater (l := l) h
      exact ⟨m, b, hj, hb, hsub, hpos⟩
    | zero =>
      rw [argLoop] at h
      split at h
      · cases h
      · obtain ⟨m, b, hj, hb, hsub, -⟩ := ih h
        exact ⟨m + 1, b, by omega, hb, hsub, fun hm => absurd hm (Nat.succ_ne_zero m)⟩
      · cases h
      · rename_i l'' hs
        cases h
        obtain ⟨hsub, hpos⟩ := step_sub hs
        refine ⟨0, a, rfl, rfl, hsub, fun _ hdash => ?_⟩
        rwa [hdash, Bool.or_false] at hpos

/-- Where a run goes on with a subcommand, there is the name of one. -/
theorem parseFor_again {ignoreErrors : Bool} {argv : List Str} {firstArg j : Nat} {st st' : St ι}
    (h : parseFor P ignoreErrors sub argv firstArg st = some (.again j st')) :
    ∃ a, argv[j]? = some a ∧ firstArg ≤ j ∧ (lookupSubCommand P a).isSome = true ∧
      (j = firstArg → isPositionalText a = true) := by
  rw [parseFor.eq_def] at h
  dsimp only at h
  split at h
  · cases h
  · split at h
    · cases h
    · rename_i i l hloop
      cases h
      obtain ⟨m, a, rfl, ha, hsub, hpos⟩ := argLoop_sub hloop
      rw [List.getElem?_drop] at ha
      exact ⟨a, ha, Nat.le_add_right _ _, hsub, fun hm => hpos (by omega) rfl⟩
    · obtain ⟨p, -, hp⟩ := Option.map_eq_some_iff.mp h
      cases hp

omit [DecidableEq ι] in
theorem lookupSubCommand_spec {name : Str} (h : (lookupSubCommand P name).isSome = true) :
    ∃ s ∈ P.subCommands, s.name = name ∧ lookupSubCommand P name = some s := by
  obtain ⟨s, hs⟩ := Option.isSome_iff_exists.mp h
  have hfind := hs
  rw [lookupSubCommand] at hfind
  split at hfind
  · cases hfind
  · have hname : s.name ≠ [] ∧ s.name = name := by simpa using List.find?_some hfind
    exact ⟨s, List.mem_of_find?_eq_some hfind, hname.2, hs⟩

omit [DecidableEq ι] in
/-- The subcommand is chosen, and its name is behind, or there is no name of a subcommand. -/
theorem chooseSubCommand_spec {argv : List Str} {firstArg : Nat}
    (hlen : firstArg < argv.length ∨ argv.length < 2) :
    ∃ s f, chooseSubCommand P argv firstArg = some (s, f) ∧ s ∈ P.topLevel :: P.subCommands ∧
      (f = firstArg + 1 ∨ f = firstArg ∧ (2 ≤ argv.length → ∀ a, argv[firstArg]? = some a →
        a.head? ≠ some '-' → (lookupSubCommand P a).isSome = false)) := by
  rw [chooseSubCommand]
  split
  · rename_i htwo
    have hlt : firstArg < argv.length := hlen.resolve_right (Nat.not_lt.mpr htwo)
    rw [List.getElem?_eq_getElem hlt]
    dsimp only
    split
    · split
      · rename_i s hs
        obtain ⟨s', hmem, -, hs'⟩ := lookupSubCommand_spec (P := P) (Option.isSome_of_eq_some hs)
        rw [hs] at hs'
        cases hs'
        exact ⟨s, _, rfl, List.mem_cons_of_mem _ hmem, .inl rfl⟩
      · rename_i hnone
        refine ⟨_, _, rfl, List.mem_cons_self .., .inr ⟨rfl, fun _ a ha _ => ?_⟩⟩
        cases ha
        rw [hnone]
        rfl
    · rename_i hdash
      refine ⟨_, _, rfl, List.mem_cons_self .., .inr ⟨rfl, fun _ a ha hhead => ?_⟩⟩
      cases ha
      exact absurd hhead hdash
  · rename_i htwo
    exact ⟨_, _, rfl, List.mem_cons_self .., .inr ⟨rfl, fun h => absurd h htwo⟩⟩

/-- Each subcommand is behind the one before. -/
theorem again_lt (hnames : ∀ s ∈ P.subCommands, s.name ≠ ['-']) {argv : List Str} {firstArg f j : Nat}
    (hone : 1 ≤ firstArg) {s : SubCommand ι} (hf : f = firstArg + 1 ∨ f = firstArg ∧ (2 ≤ argv.length →
      ∀ a, argv[firstArg]? = some a → a.head? ≠ some '-' → (lookupSubCommand P a).isSome = false))
    {ignoreErrors : Bool} {st st' : St ι}
    (h : parseFor P ignoreErrors s argv f st = some (.again j st')) : firstArg < j ∧ j < argv.length := by
  obtain ⟨a, ha, hle, hsub, hpos⟩ := parseFor_again h
  have hlt : j < argv.length := (List.getElem?_eq_some_iff.mp ha).1
  refine ⟨?_, hlt⟩
  rcases hf with rfl | ⟨rfl, hnot⟩
  · exact hle
  · refine lt_of_le_of_ne hle fun heq => ?_
    subst heq
    have htext := hpos rfl
    rw [isPositionalText, Bool.or_eq_true, decide_eq_true_eq, decide_eq_true_eq] at htext
    rcases htext with hhead | rfl
    · have hfalse := hnot (by omega) a ha hhead
      rw [hsub] at hfalse
      cases hfalse
    · obtain ⟨s', hmem, hname, -⟩ := lookupSubCommand_spec hsub
      exact hnames s' hmem hname

/-- With the arguments expanded, there is an end after fewer runs than there are arguments. -/
theorem parseCommandLineOptions_isSome (hsafe : ∀ s ∈ P.topLevel :: P.subCommands, Safe P s)
    (hnames : ∀ s ∈ P.subCommands, s.name ≠ ['-']) {σ : Type} {env : Env σ} {tokenizer : Tokenizer}
    {argv' : List Str} (hne : argv' ≠ [])
    (hagain : ∀ settings, ∃ r, expandResponseFiles env tokenizer false false settings (argv'.map some) =
      some ⟨argv'.map some, settings, r⟩) {n firstArg : Nat} (hone : 1 ≤ firstArg)
    (hlen : firstArg < argv'.length ∨ argv'.length < 2) (hn : argv'.length - firstArg < n)
    {argv : List Str} {settings settings' : σ} {r : Bool}
    (he : expandResponseFiles env tokenizer false false settings (argv.map some) =
      some ⟨argv'.map some, settings', r⟩) (ignoreErrors : Bool) (st : St ι) :
    (parseCommandLineOptions P env tokenizer n ignoreErrors argv firstArg settings st).isSome = true := by
  induction n generalizing firstArg argv settings settings' r ignoreErrors st with
  | zero => cases hn
  | succ n ih =>
    obtain ⟨argv0, rest, rfl⟩ := List.exists_cons_of_ne_nil hne
    obtain ⟨s, f, hchoose, hmem, hf⟩ := chooseSubCommand_spec (P := P) hlen
    obtain ⟨level, hlevel⟩ := Option.isSome_iff_exists.mp (parseFor_isSome (hsafe s hmem) ignoreErrors
      (argv0 :: rest) f { st with programName := env.filename argv0 })
    rw [parseCommandLineOptions, he]
    cases level with
    | finished ok st' =>
      simp only [Option.bind_eq_bind, Option.bind_some, withoutNull_map, List.head?_cons, hchoose, hlevel]
      rfl
    | again j st' =>
      obtain ⟨hlt, hj⟩ := again_lt hnames hone hf hlevel
      obtain ⟨r', he'⟩ := hagain settings'
      simp only [Option.bind_eq_bind, Option.bind_some, withoutNull_map, List.head?_cons, hchoose, hlevel]
      exact ih (by omega) (.inl hj) (by omega) he' true st'

/-- At a subcommand that is called `-`, the parser calls itself with the same arguments again. -/
theorem parseCommandLineOptions_dash (hsub : (lookupSubCommand P ['-']).isSome = true)
    (htop : P.topLevel.positionalOpts = []) (hafter : P.topLevel.consumeAfterOpt = none) {σ : Type}
    (env : Env σ) (tokenizer : Tokenizer) (n : Nat) (ignoreErrors : Bool) (settings : σ) (st : St ι) :
    parseCommandLineOptions P env tokenizer n ignoreErrors [[], ['-']] 1 settings st = none := by
  have hexp : ∀ settings, expandResponseFiles env tokenizer false false settings
      [some [], some ['-']] = some ⟨[some [], some ['-']], settings, true⟩ :=
    fun _ => (Expands.plain rfl (.plain rfl .nil)).expandResponseFiles_eq (Nat.zero_le _)
  have hagain : ∀ ignoreErrors st,
      parseFor P ignoreErrors P.topLevel [[], ['-']] 1 st = some (.again 1 st) := by
    intro ignoreErrors st
    have hstep : ∀ k st, step P P.topLevel k [] ['-'] [] 1 ⟨st, [], none, false, false⟩ =
        some (.sub ⟨st, [], none, false, false⟩) := by
      intro k st
      have htext : isPositionalText ['-'] = true := by decide
      rw [step, htext, Bool.true_or, if_pos rfl, positionalStep.eq_def]
      simp only [htop, ne_eq, not_true_eq_false, if_false, hsub, if_true]
    have hcollect : collect P P.topLevel ignoreErrors st = ⟨0, false, false, st⟩ := by
      rw [collect, htop]
      rfl
    rw [parseFor.eq_def, hcollect, hafter]
    simp only [Option.isSome_none, Bool.false_eq_true, false_and, if_false, List.headD_cons,
      List.drop_succ_cons, List.drop_zero, argLoop, hstep]
  induction n generalizing ignoreErrors settings st with
  | zero => rfl
  | succ n ih =>
    rw [parseCommandLineOptions, List.map_cons, List.map_singleton, hexp]
    simp only [Option.bind_eq_bind, Option.bind_some]
    show (parseFor P ignoreErrors P.topLevel [[], ['-']] 1 _).bind _ = none
    rw [hagain]
    exact ih true settings _

/-- Every command line that needs no more response files than are read comes to an end. -/
def Ends (P : CommandLineParser ι) {σ : Type} (env : Env σ) (tokenizer : Tokenizer) (ignoreErrors : Bool) :
    Prop :=
  ∀ argv argv' settings settings' k st, argv' ≠ [] → k ≤ 21 →
    Expands env (expandResponseFile env tokenizer false false) settings (argv.map some) settings'
      (argv'.map some) k →
    ∃ n, (parseCommandLineOptions P env tokenizer n ignoreErrors argv 1 settings st).isSome = true

/-- **The parser comes to an end** if no subcommand is called `-`, and only then if the top level has no
positional options. -/
theorem parser_ends (hsafe : ∀ s ∈ P.topLevel :: P.subCommands, Safe P s) {σ : Type} (env : Env σ)
    (settings₀ : σ) (tokenizer : Tokenizer) (ignoreErrors : Bool) :
    ((∀ s ∈ P.subCommands, s.name ≠ ['-']) → Ends P env tokenizer ignoreErrors) ∧
      (P.topLevel.positionalOpts = [] → Ends P env tokenizer ignoreErrors →
        ∀ s ∈ P.subCommands, s.name ≠ ['-']) := by
  constructor
  · intro hnames argv argv' settings settings' k st hne hk hexp
    have hstart := hexp.expandResponseFiles_eq (by omega)
    have hagain : ∀ settings, ∃ r, expandResponseFiles env tokenizer false false settings
        (argv'.map some) = some ⟨argv'.map some, settings, r⟩ := by
      intro settings
      obtain ⟨m, hm, hexp'⟩ := hexp.again settings
      exact ⟨_, hexp'.expandResponseFiles_eq (by omega)⟩
    refine ⟨argv'.length, parseCommandLineOptions_isSome hsafe hnames hne hagain (Nat.le_refl 1) (by omega)
      ?_ hstart ignoreErrors st⟩
    have hpos := List.length_pos_of_ne_nil hne
    omega
  · rintro htop hend s hs hname
    have hsub : (lookupSubCommand P ['-']).isSome = true := by
      rw [lookupSubCommand, if_neg (List.cons_ne_nil _ _), List.find?_isSome]
      exact ⟨s, hs, by simp [hname]⟩
    have hafter : P.topLevel.consumeAfterOpt = none := by
      cases hc : P.topLevel.consumeAfterOpt with
      | none => rfl
      | some c =>
        have hsome : P.topLevel.consumeAfterOpt.isSome = true := by
          rw [hc]
          rfl
        exact absurd htop ((hsafe P.topLevel (List.mem_cons_self ..)).consumeAfter hsome)
    obtain ⟨n, hn⟩ := hend [[], ['-']] [[], ['-']] settings₀ settings₀ 0 .fresh
      (List.cons_ne_nil _ _) (Nat.zero_le _) (.plain rfl (.plain rfl .nil))
    rw [parseCommandLineOptions_dash hsub htop hafter] at hn
    cases hn

theorem safe_sample {s : SubCommand Sample} (hpos : ∀ o ∈ s.positionalOpts, flagOf sample o ≠ .consumeAfter)
    (hafter : s.consumeAfterOpt.isSome = true → s.positionalOpts ≠ []) : Safe sample s where
  named := fun o _ _ _ => by cases o <;> rfl
  given := fun o _ _ => by cases o <;> rfl
  grouping := fun o _ h => by cases o <;> revert h <;> decide
  positional := hpos
  consumeAfter := hafter

theorem parser_ends_sample : Ends sample (Env.ofFiles []) tokenizeGNU true := by
  have hsafe : ∀ s ∈ sample.topLevel :: sample.subCommands, Safe sample s :=
    List.forall_mem_cons.mpr ⟨safe_sample (by decide) (by decide), List.forall_mem_cons.mpr
      ⟨safe_sample (by decide) (by decide), List.forall_mem_cons.mpr
        ⟨safe_sample (by decide) (by decide), List.forall_mem_nil _⟩⟩⟩
  exact (parser_ends hsafe (.ofFiles []) () tokenizeGNU true).1 (by decide)

end Primitives.CommandLine
