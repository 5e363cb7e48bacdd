import Primitives.CommandLine.Positional
import Primitives.Lib.Upsert

/-!
# Runs of the parser

What holds over each text that is written and each occurrence of an option holds over the whole run for a
subcommand (`Kept.parseFor`). The flag of a relation says that there was an error, as far as the parser
counts it: it does not count the errors of positional options and of sinks.

Two runs that differ in the positions of the arguments do the same (`AlikeLoop.argLoop`). So the spellings of
a value agree (`spellings_agree`), and a group of options is its letters (`group_agrees`).
-/

set_option autoImplicit false

namespace Primitives.CommandLine

open Lib

variable {ι : Type}

/-! ## What every run keeps -/

/-- The options of a subcommand. -/
def SubCommand.Has (sub : SubCommand ι) (o : ι) : Prop :=
  (∃ name, (name, o) ∈ sub.optionsMap) ∨ o ∈ sub.positionalOpts ∨ o ∈ sub.sinkOpts ∨
    o ∈ sub.consumeAfterOpt

/-- Some errors are not counted. -/
def SubCommand.Ignores (P : CommandLineParser ι) (sub : SubCommand ι) : Prop :=
  (∃ o, sub.Has o ∧ (P.opt o).formattingFlag = .positional) ∨ sub.positionalOpts ≠ [] ∨ sub.sinkOpts ≠ []

theorem SubCommand.has_of_lookup {sub : SubCommand ι} {name : Str} {o : ι}
    (h : sub.optionsMap.lookup name = some o) : sub.Has o :=
  .inl ⟨name, mem_of_lookup h⟩

theorem SubCommand.has_of_lookupOption {sub : SubCommand ι} {arg : Str} {s : Split ι}
    (h : lookupOption sub.optionsMap arg = some s) : sub.Has s.option := by
  rw [lookupOption] at h
  split at h
  · cases h
  · split at h
    · obtain ⟨o, ho, rfl⟩ := Option.map_eq_some_iff.mp h
      exact SubCommand.has_of_lookup ho
    · obtain ⟨o, ho, rfl⟩ := Option.map_eq_some_iff.mp h
      exact SubCommand.has_of_lookup ho

theorem lookup_of_longestName {optionsMap : List (Str × ι)} {name : Str} {n : Nat} {r : ι × Nat}
    (h : longestName optionsMap name n = some r) :
    optionsMap.lookup (name.take r.2) = some r.1 ∧ r.2 ≤ n ∧ (0 < n → 0 < r.2) := by
  induction n with
  | zero =>
    rw [longestName] at h
    obtain ⟨o, ho, rfl⟩ := Option.map_eq_some_iff.mp h
    exact ⟨ho, Nat.le_refl 0, fun hn => absurd hn (Nat.lt_irrefl 0)⟩
  | succ n ih =>
    rw [longestName] at h
    split at h
    · rename_i o ho
      cases h
      exact ⟨ho, Nat.le_refl _, fun hn => hn⟩
    · split at h
      · rename_i hn
        obtain ⟨hlook, hle, hpos⟩ := ih h
        exact ⟨hlook, Nat.le_succ_of_le hle, fun _ => hpos (by omega)⟩
      · cases h

theorem getOptionPred_spec {pred : ι → Bool} {optionsMap : List (Str × ι)} {name : Str} {r : ι × Nat}
    (h : getOptionPred pred optionsMap name = some r) :
    optionsMap.lookup (name.take r.2) = some r.1 ∧ r.2 ≤ name.length ∧ (name ≠ [] → 0 < r.2) ∧
      pred r.1 = true := by
  rw [getOptionPred] at h
  obtain ⟨hlong, hpred⟩ := Option.filter_eq_some_iff.mp h
  obtain ⟨hlook, hle, hpos⟩ := lookup_of_longestName hlong
  exact ⟨hlook, hle, fun hname => hpos (List.length_pos_of_ne_nil hname), hpred⟩

variable [DecidableEq ι]

/-- A relation that holds over each text that is written and each occurrence of an option of the
subcommand. A value is told as one of several only if there are two of them at least. -/
structure Kept (P : CommandLineParser ι) (sub : SubCommand ι) (R : St ι → Bool → St ι → Prop) : Prop where
  refl : ∀ st, R st false st
  trans : ∀ {st₁ f st₂ g st₃}, R st₁ f st₂ → R st₂ g st₃ → R st₁ (f || g) st₃
  write : ∀ st text, R st true (st.write text)
  occurrence : ∀ o pos argName value multiArg st, sub.Has o →
    (multiArg = true → 2 ≤ (P.opt o).numAdditionalVals) →
      R st (addOccurrence P o pos argName value multiArg st).1
        (addOccurrence P o pos argName value multiArg st).2
  ignore : sub.Ignores P → ∀ {st₁ f st₂}, R st₁ f st₂ → R st₁ false st₂

/-- The positional option that is active is one of the subcommand. -/
def ActiveOf (P : CommandLineParser ι) (sub : SubCommand ι) (l : Loop ι) : Prop :=
  ∀ o ∈ l.activePositionalArg, sub.Has o ∧ (P.opt o).formattingFlag = .positional

omit [DecidableEq ι] in
theorem activeOf_none {P : CommandLineParser ι} {sub : SubCommand ι} {l : Loop ι}
    (h : l.activePositionalArg = none) : ActiveOf P sub l := by
  intro o ho
  rw [h] at ho
  cases ho

def Next.loop : Next ι → Loop ι
  | .go _ l => l
  | .stop l => l
  | .sub l => l

def LoopEnd.loop : LoopEnd ι → Loop ι
  | .done l => l
  | .sub _ l => l

/-- From one state to another, with the flag of errors before and after. -/
def Changes (R : St ι → Bool → St ι → Prop) (e : Bool) (st : St ι) (e' : Bool) (st' : St ι) : Prop :=
  ∃ f, e' = (e || f) ∧ R st f st'

namespace Kept

variable {P : CommandLineParser ι} {sub : SubCommand ι} {R : St ι → Bool → St ι → Prop} {o : ι}

theorem changes_refl (h : Kept P sub R) (e : Bool) (st : St ι) : Changes R e st e st :=
  ⟨false, (Bool.or_false e).symm, h.refl st⟩

theorem changes_trans (h : Kept P sub R) {e₁ e₂ e₃ : Bool} {st₁ st₂ st₃ : St ι}
    (h₁ : Changes R e₁ st₁ e₂ st₂) (h₂ : Changes R e₂ st₂ e₃ st₃) : Changes R e₁ st₁ e₃ st₃ := by
  obtain ⟨f, rfl, hf⟩ := h₁
  obtain ⟨g, rfl, hg⟩ := h₂
  exact ⟨f || g, Bool.or_assoc e₁ f g, h.trans hf hg⟩

theorem changes_write (h : Kept P sub R) (e : Bool) (st : St ι) (text : Str) :
    Changes R e st true (st.write text) :=
  ⟨true, (Bool.or_true e).symm, h.write st text⟩

/-! ### The values of an option -/

theorem addOccurrences (h : Kept P sub R) (ho : sub.Has o) {multiArg : Bool}
    (hm : multiArg = true → 2 ≤ (P.opt o).numAdditionalVals) (pos : Nat) (argName : Str)
    (values : List Str) (st : St ι) : R st (addOccurrences P o pos argName multiArg values st).1
      (addOccurrences P o pos argName multiArg values st).2 := by
  induction values generalizing st with
  | nil => exact h.refl st
  | cons value values ih =>
    have hone := h.occurrence o pos argName value multiArg st ho hm
    rw [CommandLine.addOccurrences]
    split
    · rename_i hr
      rwa [hr] at hone
    · rename_i hr
      rw [Bool.eq_false_iff.mpr hr] at hone
      exact h.trans hone (ih _)

theorem commaSeparate (h : Kept P sub R) (ho : sub.Has o) {multiArg : Bool}
    (hm : multiArg = true → 2 ≤ (P.opt o).numAdditionalVals) (pos : Nat) (argName value : Str)
    (st : St ι) : R st (commaSeparateAndAddOccurrence P o pos argName value multiArg st).1
      (commaSeparateAndAddOccurrence P o pos argName value multiArg st).2 := by
  rw [commaSeparateAndAddOccurrence]
  split
  · exact h.addOccurrences ho hm pos argName _ st
  · exact h.occurrence o pos argName value multiArg st ho hm

theorem eatSpaceSeparated (h : Kept P sub R) (ho : sub.Has o) (argName : Str) (i : Nat) (handle : Bool)
    (args : List Str) (st : St ι) : Changes R handle st (eatSpaceSeparated P o argName i handle args st).1
      (eatSpaceSeparated P o argName i handle args st).2 := by
  induction args generalizing i handle st with
  | nil => exact h.changes_refl handle st
  | cons a args ih =>
    rw [CommandLine.eatSpaceSeparated]
    exact h.changes_trans ⟨_, rfl, h.occurrence o i argName a false st ho Bool.noConfusion⟩ (ih _ _ _)

theorem provideMore (h : Kept P sub R) (ho : sub.Has o) (argName : Str) {n : Nat} {multiArg : Bool}
    (hn : n + multiArg.toNat ≤ (P.opt o).numAdditionalVals) (args : List Str) (i : Nat) (st : St ι) :
    R st (provideMore P o argName n multiArg args i st).failed
      (provideMore P o argName n multiArg args i st).st := by
  induction n generalizing multiArg args i st with
  | zero => exact h.refl st
  | succ n ih =>
    cases args with
    | nil => exact h.write st _
    | cons value args =>
      have hm : multiArg = true → 2 ≤ (P.opt o).numAdditionalVals := by
        rintro rfl
        rw [Bool.toNat_true] at hn
        omega
      have hone := h.commaSeparate ho hm (i + 1) argName value st
      rw [CommandLine.provideMore]
      split
      · rename_i hr
        rwa [hr] at hone
      · rename_i hr
        rw [Bool.eq_false_iff.mpr hr] at hone
        refine h.trans hone (ih ?_ args (i + 1) _)
        rw [Bool.toNat_true]
        omega

theorem provideValues (h : Kept P sub R) (ho : sub.Has o) {argName : Str} {value : Option Str}
    {argv : Option (Str × List Str)} {i : Nat} {st : St ι} {p : Provided ι}
    (hp : provideValues P o argName value argv i st = some p) : R st p.failed p.st := by
  rw [CommandLine.provideValues] at hp
  split at hp
  · split at hp
    · obtain ⟨⟨a, args⟩, -, rfl⟩ := Option.map_eq_some_iff.mp hp
      obtain ⟨f, hf, hR⟩ := h.eatSpaceSeparated ho argName i false
        (a :: args.takeWhile fun a => a.head? ≠ some '-') st
      rw [Bool.false_or] at hf
      rw [← hf] at hR
      exact hR
    · cases hp
      exact h.commaSeparate ho Bool.noConfusion i argName _ st
  · cases value with
    | none =>
      cases hp
      exact h.provideMore ho argName (Nat.le_refl _) _ i st
    | some value =>
      have hone := h.commaSeparate ho Bool.false_ne_true.elim i argName value st
      dsimp only at hp
      split at hp
      · rename_i hr
        cases hp
        rwa [hr] at hone
      · rename_i hr
        cases hp
        rw [Bool.eq_false_iff.mpr hr] at hone
        refine h.trans hone (h.provideMore ho argName ?_ _ i _)
        rw [Bool.toNat_true]
        omega

theorem provideOption (h : Kept P sub R) (ho : sub.Has o) {argName : Str} {value : Option Str}
    {argv : Option (Str × List Str)} {i : Nat} {st : St ι} {p : Provided ι}
    (hp : provideOption P o argName value argv i st = some p) : R st p.failed p.st := by
  rw [CommandLine.provideOption.eq_def] at hp
  split at hp
  · split at hp
    · exact h.provideValues ho hp
    · obtain ⟨q, hq, rfl⟩ := Option.map_eq_some_iff.mp hp
      have hR : R st q.failed q.st := h.provideValues ho hq
      exact hR
    · cases hp
      exact h.write st _
  · split at hp
    · cases hp
      exact h.write st _
    · split at hp
      · cases hp
        exact h.write st _
      · exact h.provideValues ho hp
  · exact h.provideValues ho hp

/-! ### A round -/

theorem groupLoop (h : Kept P sub R) {n : Nat} {length : Nat} {arg : Str} {e : Bool} {st : St ι}
    {g : Grouped ι} (ho : sub.Has o) (hg : groupLoop P sub.optionsMap n o length arg e st = some g) :
    Changes R e st g.errorParsing g.st ∧ ∀ s ∈ g.split, sub.Has s.option := by
  induction n generalizing o length arg e st with
  | zero => cases hg
  | succ n ih =>
    rw [CommandLine.groupLoop.eq_def] at hg
    dsimp only at hg
    split at hg
    · cases hg
    · split at hg
      · cases hg
      · rename_i p hp
        have hone : Changes R e st (e || p.failed) p.st := ⟨_, rfl, h.provideOption ho hp⟩
        split at hg
        · cases hg
          exact ⟨hone, fun _ hs => nomatch hs⟩
        · rename_i o' length' hpred
          have ho' := SubCommand.has_of_lookup (getOptionPred_spec hpred).1
          split at hg
          · cases hg
            refine ⟨hone, fun s hs => ?_⟩
            cases hs
            exact ho'
          · obtain ⟨hrest, hsplit⟩ := ih ho' hg
            exact ⟨h.changes_trans hone hrest, hsplit⟩

theorem handlePrefixedOrGroupedOption (h : Kept P sub R) {arg : Str} {e : Bool} {st : St ι}
    {g : Grouped ι} (hg : handlePrefixedOrGroupedOption P sub.optionsMap arg e st = some g) :
    Changes R e st g.errorParsing g.st ∧ ∀ s ∈ g.split, sub.Has s.option := by
  rw [CommandLine.handlePrefixedOrGroupedOption] at hg
  split at hg
  · cases hg
    exact ⟨h.changes_refl e st, fun _ hs => nomatch hs⟩
  · split at hg
    · cases hg
      exact ⟨h.changes_refl e st, fun _ hs => nomatch hs⟩
    · rename_i o length hpred
      have ho := SubCommand.has_of_lookup (getOptionPred_spec hpred).1
      split at hg
      · cases hg
        refine ⟨h.changes_refl e st, fun s hs => ?_⟩
        cases hs
        exact ho
      · exact h.groupLoop ho hg

theorem addToSinks (h : Kept P sub R) (a : Str) (i : Nat) (hsinks : ∀ o ∈ sub.sinkOpts, sub.Has o)
    (hne : sub.sinkOpts ≠ []) (st : St ι) : R st false (addToSinks P a i sub.sinkOpts st) := by
  have hignore : sub.Ignores P := .inr (.inr hne)
  have hone : ∀ (opts : List ι), (∀ o ∈ opts, sub.Has o) → ∀ st,
      R st false (CommandLine.addToSinks P a i opts st) := by
    intro opts
    induction opts with
    | nil => exact fun _ st => h.refl st
    | cons o opts ih =>
      intro hopts st
      obtain ⟨ho, hopts⟩ := List.forall_mem_cons.mp hopts
      have hfirst := h.ignore hignore (h.occurrence o i [] a false st ho Bool.noConfusion)
      exact h.trans hfirst (ih hopts _)
  exact hone _ hsinks st

theorem unknownArgument (h : Kept P sub R) (argv0 a : Str) (i : Nat) (l : Loop ι) :
    Changes R l.errorParsing l.st (unknownArgument P sub argv0 a i l).errorParsing
      (unknownArgument P sub argv0 a i l).st := by
  rw [CommandLine.unknownArgument]
  split
  · exact h.changes_write l.errorParsing l.st _
  · rename_i hne
    exact ⟨false, (Bool.or_false _).symm,
      h.addToSinks a i (fun o ho => .inr (.inr (.inl ho))) hne l.st⟩

theorem activeOf_unknownArgument {argv0 a : Str} {i : Nat} {l : Loop ι}
    (hl : ActiveOf P sub l) : ActiveOf P sub (CommandLine.unknownArgument P sub argv0 a i l) := by
  rw [CommandLine.unknownArgument]
  split
  · exact hl
  · exact hl

/-- What a round keeps. -/
def RoundKeeps (P : CommandLineParser ι) (sub : SubCommand ι) (R : St ι → Bool → St ι → Prop)
    (l l' : Loop ι) : Prop :=
  Changes R l.errorParsing l.st l'.errorParsing l'.st ∧ ActiveOf P sub l'

theorem handleOption (h : Kept P sub R) {s : Split ι} (hs : sub.Has s.option) {a : Str} {args : List Str}
    {i : Nat} {l : Loop ι} (hl : ActiveOf P sub l) {n : Next ι}
    (hn : handleOption P s a args i l = some n) : RoundKeeps P sub R l n.loop := by
  rw [CommandLine.handleOption] at hn
  split at hn
  · rename_i hpos
    have hactive : ∀ o ∈ some s.option, sub.Has o ∧ (P.opt o).formattingFlag = .positional := by
      intro o ho
      cases ho
      exact ⟨hs, hpos⟩
    split at hn
    · cases hn
      exact ⟨h.changes_write l.errorParsing l.st _, hactive⟩
    · cases hn
      exact ⟨h.changes_refl l.errorParsing l.st, hactive⟩
  · obtain ⟨p, hp, rfl⟩ := Option.map_eq_some_iff.mp hn
    exact ⟨⟨_, rfl, h.provideOption hs hp⟩, hl⟩

theorem feedActive (h : Kept P sub R) {a : Str} {i : Nat} {l : Loop ι} (hl : ActiveOf P sub l)
    (ho : l.activePositionalArg = some o) {n : Next ι} (hn : feedActive P o a i l = some n) :
    RoundKeeps P sub R l n.loop := by
  obtain ⟨p, hp, rfl⟩ := Option.map_eq_some_iff.mp hn
  obtain ⟨hhas, hpos⟩ := hl o ho
  have hone := h.ignore (.inl ⟨o, hhas, hpos⟩) (h.provideOption hhas hp)
  exact ⟨⟨false, (Bool.or_false _).symm, hone⟩, hl⟩

theorem positionalStep (h : Kept P sub R) {k : Nat} {argv0 a : Str} {args : List Str} {i : Nat}
    {l : Loop ι} (hl : ActiveOf P sub l) {n : Next ι}
    (hn : positionalStep P sub k argv0 a args i l = some n) : RoundKeeps P sub R l n.loop := by
  rw [CommandLine.positionalStep.eq_def] at hn
  split at hn
  · rename_i o ho
    exact h.feedActive hl ho hn
  · split at hn
    · dsimp only at hn
      split at hn
      · cases hn
        exact ⟨h.changes_refl l.errorParsing l.st, hl⟩
      · cases hn
        exact ⟨h.changes_refl l.errorParsing l.st, hl⟩
    · split at hn
      · cases hn
        exact ⟨h.changes_refl l.errorParsing l.st, hl⟩
      · cases hn
        exact ⟨h.unknownArgument argv0 a i l, activeOf_unknownArgument hl⟩

theorem dashStep (h : Kept P sub R) {argv0 a : Str} {args : List Str} {i : Nat} {l : Loop ι}
    (hl : ActiveOf P sub l) {n : Next ι} (hn : dashStep P sub argv0 a args i l = some n) :
    RoundKeeps P sub R l n.loop := by
  rw [CommandLine.dashStep.eq_def] at hn
  dsimp only at hn
  split at hn
  · rename_i o ho
    have hactive := (Option.filter_eq_some_iff.mp ho).1
    split at hn
    · rename_i s hs
      exact h.handleOption (SubCommand.has_of_lookupOption (Option.filter_eq_some_iff.mp hs).1) hl hn
    · exact h.feedActive hl hactive hn
  · split at hn
    · rename_i s hs
      exact h.handleOption (SubCommand.has_of_lookupOption hs) hl hn
    · split at hn
      · cases hn
      · rename_i g hg
        obtain ⟨hchange, hsplit⟩ := h.handlePrefixedOrGroupedOption hg
        split at hn
        · rename_i s hs
          obtain ⟨hrest, hactive⟩ := h.handleOption
            (l := { l with st := g.st, errorParsing := g.errorParsing }) (hsplit s hs) hl hn
          exact ⟨h.changes_trans hchange hrest, hactive⟩
        · cases hn
          exact ⟨h.changes_trans hchange (h.unknownArgument argv0 a i _), activeOf_unknownArgument hl⟩

theorem step (h : Kept P sub R) {k : Nat} {argv0 a : Str} {args : List Str} {i : Nat} {l : Loop ι}
    (hl : ActiveOf P sub l) {n : Next ι} (hn : step P sub k argv0 a args i l = some n) :
    RoundKeeps P sub R l n.loop := by
  rw [CommandLine.step] at hn
  split at hn
  · exact h.positionalStep hl hn
  · split at hn
    · cases hn
      exact ⟨h.changes_refl l.errorParsing l.st, hl⟩
    · exact h.dashStep hl hn

theorem argLoop (h : Kept P sub R) {k : Nat} {argv0 : Str} {skip i : Nat} {args : List Str} {l : Loop ι}
    (hl : ActiveOf P sub l) {e : LoopEnd ι} (he : argLoop P sub k argv0 skip i args l = some e) :
    RoundKeeps P sub R l e.loop := by
  induction args generalizing skip i l with
  | nil =>
    cases skip <;>
    · cases he
      exact ⟨h.changes_refl l.errorParsing l.st, hl⟩
  | cons a args ih =>
    cases skip with
    | succ skip => exact ih hl he
    | zero =>
      rw [CommandLine.argLoop] at he
      split at he
      · cases he
      · rename_i taken l' hs
        obtain ⟨hone, hl'⟩ := h.step hl hs
        obtain ⟨hrest, hactive⟩ := ih hl' he
        exact ⟨h.changes_trans hone hrest, hactive⟩
      · rename_i l' hs
        cases he
        exact h.step hl hs
      · rename_i l' hs
        cases he
        exact h.step hl hs

/-! ### Positional arguments -/

theorem giveMore (h : Kept P sub R) (hi : sub.Ignores P) (ho : sub.Has o) {n : Nat}
    {vals : List (Str × Nat)} {done : Bool} {st : St ι} {r : List (Str × Nat) × St ι}
    (hr : giveMore P o n vals done st = some r) : R st false r.2 := by
  induction vals generalizing done st with
  | nil =>
    cases hr
    exact h.refl st
  | cons v vals ih =>
    rw [CommandLine.giveMore.eq_def] at hr
    dsimp only at hr
    split at hr
    · split at hr
      · obtain ⟨p, hp, hr⟩ := Option.bind_eq_some_iff.mp hr
        exact h.trans (h.ignore hi (h.provideOption ho hp)) (ih hr)
      · obtain ⟨p, hp, hr⟩ := Option.bind_eq_some_iff.mp hr
        exact h.trans (h.ignore hi (h.provideOption ho hp)) (ih hr)
      · obtain ⟨p, hp, hr⟩ := Option.bind_eq_some_iff.mp hr
        exact h.trans (h.ignore hi (h.provideOption ho hp)) (ih hr)
      · cases hr
      · cases hr
    · cases hr
      exact h.refl st

theorem distribute (h : Kept P sub R) {opts : List ι} (hopts : ∀ o ∈ opts, o ∈ sub.positionalOpts)
    {n : Nat} {vals : List (Str × Nat)} {st st' : St ι}
    (hr : distribute P opts n vals st = some st') : R st false st' := by
  induction opts generalizing n vals st with
  | nil =>
    cases hr
    exact h.refl _
  | cons o opts ih =>
    obtain ⟨ho, hopts⟩ := List.forall_mem_cons.mp hopts
    have hi : sub.Ignores P := .inr (.inl (List.ne_nil_of_mem ho))
    have hhas : sub.Has o := .inr (.inl ho)
    rw [CommandLine.distribute.eq_def] at hr
    dsimp only at hr
    split at hr
    · split at hr
      · cases hr
      · obtain ⟨p, hp, hr⟩ := Option.bind_eq_some_iff.mp hr
        obtain ⟨q, hq, hr⟩ := Option.bind_eq_some_iff.mp hr
        exact h.trans (h.ignore hi (h.provideOption hhas hp)) (h.trans (h.giveMore hi hhas hq) (ih hopts hr))
    · obtain ⟨q, hq, hr⟩ := Option.bind_eq_some_iff.mp hr
      exact h.trans (h.giveMore hi hhas hq) (ih hopts hr)

theorem giveRequired (h : Kept P sub R) {opts : List ι} (hopts : ∀ o ∈ opts, sub.Has o)
    {vals : List (Str × Nat)} {e : Bool} {st : St ι} {r : List (Str × Nat) × Bool × St ι}
    (hr : giveRequired P opts vals e st = some r) : Changes R e st r.2.1 r.2.2 := by
  induction opts generalizing vals e st with
  | nil =>
    cases hr
    exact h.changes_refl e st
  | cons o opts ih =>
    obtain ⟨ho, hopts⟩ := List.forall_mem_cons.mp hopts
    rw [CommandLine.giveRequired.eq_def] at hr
    dsimp only at hr
    split at hr
    · split at hr
      · cases hr
      · obtain ⟨p, hp, hr⟩ := Option.bind_eq_some_iff.mp hr
        exact h.changes_trans ⟨_, rfl, h.provideOption ho hp⟩ (ih hopts hr)
    · exact ih hopts hr

theorem giveAll (h : Kept P sub R) (ho : sub.Has o) {vals : List (Str × Nat)} {e : Bool} {st : St ι}
    {r : Bool × St ι} (hr : giveAll P o vals e st = some r) : Changes R e st r.1 r.2 := by
  induction vals generalizing e st with
  | nil =>
    cases hr
    exact h.changes_refl e st
  | cons v vals ih =>
    obtain ⟨p, hp, hr⟩ := Option.bind_eq_some_iff.mp hr
    exact h.changes_trans ⟨_, rfl, h.provideOption ho hp⟩ (ih hr)

theorem consume (h : Kept P sub R) (ho : sub.Has o) {opts : List ι} (hopts : ∀ o ∈ opts, sub.Has o)
    {vals : List (Str × Nat)} {e : Bool} {st : St ι} {r : Bool × St ι}
    (hr : consume P o opts vals e st = some r) : Changes R e st r.1 r.2 := by
  obtain ⟨⟨rest, e', st'⟩, hq, hr⟩ := Option.bind_eq_some_iff.mp hr
  have hfirst : Changes R e st e' st' :=
    h.giveRequired (fun o ho => hopts o (List.mem_of_mem_tail ho)) hq
  refine h.changes_trans hfirst ?_
  dsimp only at hr
  split at hr
  · split at hr
    · obtain ⟨p, hp, hr⟩ := Option.bind_eq_some_iff.mp hr
      exact h.changes_trans ⟨_, rfl, h.provideOption (hopts _ (List.mem_singleton_self _)) hp⟩
        (h.giveAll ho hr)
    · exact h.giveAll ho hr
  · exact h.giveAll ho hr

theorem handlePositional (h : Kept P sub R) {r : Required ι} {argv0 : Str} {l : Loop ι}
    {p : Bool × St ι} (hp : handlePositional P sub r argv0 l = some p) :
    Changes R l.errorParsing l.st p.1 p.2 := by
  rw [CommandLine.handlePositional.eq_def] at hp
  dsimp only at hp
  split at hp
  · cases hp
    exact h.changes_write _ _ _
  · split at hp
    · cases hp
      exact h.changes_write _ _ _
    · split at hp
      · obtain ⟨st, hst, rfl⟩ := Option.map_eq_some_iff.mp hp
        exact ⟨false, (Bool.or_false _).symm, h.distribute (fun _ ho => ho) hst⟩
      · rename_i c hc
        exact h.consume (.inr (.inr (.inr hc))) (fun o ho => .inr (.inl ho)) hp

/-! ### The whole run -/

theorem collect (h : Kept P sub R) {ignoreErrors : Bool}
    (hi : ignoreErrors = true → sub.positionalOpts ≠ [] → ∀ st, R st true st) (st : St ι) :
    Changes R false st (collect P sub ignoreErrors st).errorParsing (collect P sub ignoreErrors st).st := by
  have hone : ∀ (r : Required ι), ∀ o ∈ sub.positionalOpts, Changes R r.errorParsing r.st
      (collectNeed P sub ignoreErrors r o).errorParsing (collectNeed P sub ignoreErrors r o).st := by
    intro r o ho
    have hsilent : ∀ (o : ι) (text : Str), Changes R r.errorParsing r.st true
        (if ignoreErrors then r.st else error P o text none r.st) := by
      intro o text
      cases ignoreErrors with
      | true => exact ⟨true, (Bool.or_true _).symm, hi rfl (List.ne_nil_of_mem ho) r.st⟩
      | false => exact h.changes_write _ r.st _
    rw [collectNeed]
    split
    · exact h.changes_refl _ _
    · split
      · split
        · exact hsilent _ _
        · exact h.changes_refl _ _
      · split
        · exact h.changes_trans (hsilent _ _)
            (h.changes_trans (h.changes_write _ _ _) (h.changes_write _ _ _))
        · exact h.changes_refl _ _
  rw [CommandLine.collect]
  refine List.foldlRecOn (motive := fun (r : Required ι) => Changes R false st r.errorParsing r.st)
    sub.positionalOpts _ ?_ ?_
  · exact h.changes_refl false st
  · exact fun r hr o ho => h.changes_trans hr (hone r o ho)

theorem checkRequired (h : Kept P sub R) (optionsMap : List (Str × ι)) (e : Bool) (st : St ι) :
    Changes R e st (checkRequired P optionsMap e st).1 (checkRequired P optionsMap e st).2 := by
  induction optionsMap generalizing e st with
  | nil => exact h.changes_refl e st
  | cons x optionsMap ih =>
    obtain ⟨name, o⟩ := x
    rw [CommandLine.checkRequired]
    split
    · exact h.changes_trans (h.changes_write e st _) (ih true _)
    · exact ih e st

end Kept

/-- A relation from the first state to that at the end of a run, with the error that the run reports. -/
def Level.Ends (R : St ι → Bool → St ι → Prop) (st : St ι) : Level ι → Prop
  | .finished ok st' => R st (!ok) st'
  | .again _ st' => ∃ f, R st f st'

/-- **What every run keeps.** -/
theorem Kept.parseFor {P : CommandLineParser ι} {sub : SubCommand ι} {R : St ι → Bool → St ι → Prop}
    (h : Kept P sub R) {ignoreErrors : Bool}
    (hi : ignoreErrors = true → sub.positionalOpts ≠ [] → ∀ st, R st true st)
    {argv : List Str} {firstArg : Nat} {st : St ι} {level : Level ι}
    (hl : parseFor P ignoreErrors sub argv firstArg st = some level) : level.Ends R st := by
  rw [CommandLine.parseFor.eq_def] at hl
  dsimp only at hl
  split at hl
  · cases hl
  · have hcollect := h.collect hi st
    split at hl
    · cases hl
    · rename_i i l hloop
      cases hl
      obtain ⟨hrun, -⟩ := h.argLoop (activeOf_none rfl) hloop
      obtain ⟨f, -, hf⟩ := h.changes_trans hcollect hrun
      exact ⟨f, hf⟩
    · rename_i l hloop
      obtain ⟨hrun, -⟩ := h.argLoop (activeOf_none rfl) hloop
      obtain ⟨p, hp, rfl⟩ := Option.map_eq_some_iff.mp hl
      have hpos := h.handlePositional hp
      have hor : (l.errorParsing || p.1) = p.1 := by
        obtain ⟨f, hf, -⟩ := hpos
        rw [hf, ← Bool.or_assoc, Bool.or_self]
      obtain ⟨f, hf, hR⟩ := h.changes_trans (h.changes_trans (h.changes_trans hcollect hrun) hpos)
        (h.checkRequired sub.optionsMap p.1 p.2)
      rw [Level.Ends, hor, hf, Bool.false_or, Bool.not_not]
      exact hR

/-! ## Positions -/

/-- An occurrence without its position. -/
def Occurrence.text (x : Occurrence ι) : ι × Str × Str := (x.option, x.argName, x.value)

/-- Two states that differ in positions only. -/
structure Alike (st st' : St ι) : Prop where
  programName : st.programName = st'.programName
  numOccurrences : st.numOccurrences = st'.numOccurrences
  handled : st.handled.map Occurrence.text = st'.handled.map Occurrence.text
  errs : st.errs = st'.errs

/-- The same error, and states that differ in positions only. -/
def AlikeResult (r r' : Bool × St ι) : Prop := r.1 = r'.1 ∧ Alike r.2 r'.2

structure AlikeProvided (p p' : Provided ι) : Prop where
  failed : p.failed = p'.failed
  taken : p.taken = p'.taken
  st : Alike p.st p'.st

/-- The variables of two loops that differ in positions only. -/
inductive AlikeLoop : Loop ι → Loop ι → Prop where
  | mk {st st' : St ι} {vals vals' : List (Str × Nat)} (active : Option ι) (dashDash e : Bool)
      (h : Alike st st') (hvals : vals.map Prod.fst = vals'.map Prod.fst) :
      AlikeLoop ⟨st, vals, active, dashDash, e⟩ ⟨st', vals', active, dashDash, e⟩

inductive AlikeNext : Next ι → Next ι → Prop where
  | go (taken : Nat) {l l' : Loop ι} (h : AlikeLoop l l') : AlikeNext (.go taken l) (.go taken l')
  | stop {l l' : Loop ι} (h : AlikeLoop l l') : AlikeNext (.stop l) (.stop l')
  | sub {l l' : Loop ι} (h : AlikeLoop l l') : AlikeNext (.sub l) (.sub l')

inductive AlikeEnd : LoopEnd ι → LoopEnd ι → Prop where
  | done {l l' : Loop ι} (h : AlikeLoop l l') : AlikeEnd (.done l) (.done l')
  | sub (i i' : Nat) {l l' : Loop ι} (h : AlikeLoop l l') : AlikeEnd (.sub i l) (.sub i' l')

section

variable {P : CommandLineParser ι} {st st' : St ι}

omit [DecidableEq ι] in
theorem Alike.refl (st : St ι) : Alike st st := ⟨rfl, rfl, rfl, rfl⟩

omit [DecidableEq ι] in
theorem Alike.error (h : Alike st st') (o : ι) (message : Str) (argName : Option Str) :
    Alike (error P o message argName st) (error P o message argName st') := by
  refine ⟨h.programName, h.numOccurrences, h.handled, ?_⟩
  rw [CommandLine.error, CommandLine.error, h.programName]
  exact congrArg (· ++ _) h.errs

theorem Alike.addOccurrence (h : Alike st st') (o : ι) (pos pos' : Nat) (argName value : Str)
    (multiArg : Bool) : AlikeResult (addOccurrence P o pos argName value multiArg st)
      (addOccurrence P o pos' argName value multiArg st') := by
  have hseen : ∀ o, Alike (st.seen o multiArg) (st'.seen o multiArg) := by
    intro o
    cases multiArg with
    | true => exact h
    | false =>
      refine ⟨h.programName, ?_, h.handled, h.errs⟩
      show Function.update _ _ _ = Function.update _ _ _
      rw [h.numOccurrences]
  have hhandle : ∀ (o : ι) (argName : Str) {st st' : St ι}, Alike st st' →
      AlikeResult (handleOccurrence P o pos argName value st)
        (handleOccurrence P o pos' argName value st') := by
    intro o argName st st' h
    rw [handleOccurrence, handleOccurrence]
    cases (P.opt o).parse argName value with
    | some message => exact ⟨rfl, h.error o message none⟩
    | none =>
      refine ⟨rfl, h.programName, h.numOccurrences, ?_, h.errs⟩
      show List.map _ (_ ++ _) = List.map _ (_ ++ _)
      rw [List.map_append, List.map_append, h.handled]
      rfl
  have hone : ∀ (o : ι) (argName : Str), AlikeResult (addOccurrenceOf P o pos argName value multiArg st)
      (addOccurrenceOf P o pos' argName value multiArg st') := by
    intro o argName
    rw [addOccurrenceOf.eq_def, addOccurrenceOf.eq_def]
    dsimp only
    rw [(hseen o).numOccurrences]
    split
    · split
      · exact ⟨rfl, (hseen o).error o _ _⟩
      · exact hhandle o argName (hseen o)
    · split
      · exact ⟨rfl, (hseen o).error o _ _⟩
      · exact hhandle o argName (hseen o)
    · exact hhandle o argName (hseen o)
    · exact hhandle o argName (hseen o)
    · exact hhandle o argName (hseen o)
  rw [CommandLine.addOccurrence.eq_def, CommandLine.addOccurrence.eq_def]
  split
  · exact hone o argName
  · exact hone _ _

theorem Alike.addOccurrences (h : Alike st st') (o : ι) (pos pos' : Nat) (argName : Str) (multiArg : Bool)
    (values : List Str) : AlikeResult (addOccurrences P o pos argName multiArg values st)
      (addOccurrences P o pos' argName multiArg values st') := by
  induction values generalizing st st' with
  | nil => exact ⟨rfl, h⟩
  | cons value values ih =>
    obtain ⟨hb, hst⟩ := h.addOccurrence (P := P) o pos pos' argName value multiArg
    rw [CommandLine.addOccurrences, CommandLine.addOccurrences, hb]
    split
    · exact ⟨rfl, hst⟩
    · exact ih hst

theorem Alike.commaSeparate (h : Alike st st') (o : ι) (pos pos' : Nat) (argName value : Str)
    (multiArg : Bool) : AlikeResult (commaSeparateAndAddOccurrence P o pos argName value multiArg st)
      (commaSeparateAndAddOccurrence P o pos' argName value multiArg st') := by
  rw [commaSeparateAndAddOccurrence, commaSeparateAndAddOccurrence]
  split
  · exact h.addOccurrences o pos pos' argName multiArg _
  · exact h.addOccurrence o pos pos' argName value multiArg

theorem Alike.eatSpaceSeparated (h : Alike st st') (o : ι) (argName : Str) (i i' : Nat) (handle : Bool)
    (args : List Str) : AlikeResult (eatSpaceSeparated P o argName i handle args st)
      (eatSpaceSeparated P o argName i' handle args st') := by
  induction args generalizing i i' handle st st' with
  | nil => exact ⟨rfl, h⟩
  | cons a args ih =>
    obtain ⟨hb, hst⟩ := h.addOccurrence (P := P) o i i' argName a false
    rw [CommandLine.eatSpaceSeparated, CommandLine.eatSpaceSeparated, hb]
    exact ih hst _ _ _

theorem Alike.provideMore (h : Alike st st') (o : ι) (argName : Str) (n : Nat) (multiArg : Bool)
    (args : List Str) (i i' : Nat) : AlikeProvided (provideMore P o argName n multiArg args i st)
      (provideMore P o argName n multiArg args i' st') := by
  induction n generalizing multiArg args i i' st st' with
  | zero => exact ⟨rfl, rfl, h⟩
  | succ n ih =>
    cases args with
    | nil => exact ⟨rfl, rfl, h.error o _ none⟩
    | cons value args =>
      obtain ⟨hb, hst⟩ := h.commaSeparate (P := P) o (i + 1) (i' + 1) argName value multiArg
      rw [CommandLine.provideMore, CommandLine.provideMore, hb]
      dsimp only
      split
      · exact ⟨rfl, rfl, hst⟩
      · have hp := ih hst true args (i + 1) (i' + 1)
        exact ⟨hp.failed, congrArg (· + 1) hp.taken, hp.st⟩

theorem Alike.provideValues (h : Alike st st') (o : ι) (argName : Str) (value : Option Str)
    (argv : Option (Str × List Str)) (i i' : Nat) : Option.Rel AlikeProvided
      (provideValues P o argName value argv i st) (provideValues P o argName value argv i' st') := by
  rw [CommandLine.provideValues, CommandLine.provideValues]
  split
  · split
    · cases argv with
      | none => exact .none
      | some argv =>
        obtain ⟨hb, hst⟩ := h.eatSpaceSeparated (P := P) o argName i i' false
          (argv.1 :: argv.2.takeWhile fun a => a.head? ≠ some '-')
        exact .some ⟨hb, rfl, hst⟩
    · obtain ⟨hb, hst⟩ := h.commaSeparate (P := P) o i i' argName (value.getD []) false
      exact .some ⟨hb, rfl, hst⟩
  · cases value with
    | none => exact .some (h.provideMore o argName _ false _ i i')
    | some value =>
      obtain ⟨hb, hst⟩ := h.commaSeparate (P := P) o i i' argName value false
      dsimp only
      rw [hb]
      split
      · exact .some ⟨rfl, rfl, hst⟩
      · exact .some (hst.provideMore o argName _ true _ i i')

theorem Alike.provideOption (h : Alike st st') (o : ι) (argName : Str) (value : Option Str)
    (argv : Option (Str × List Str)) (i i' : Nat) : Option.Rel AlikeProvided
      (provideOption P o argName value argv i st) (provideOption P o argName value argv i' st') := by
  rw [CommandLine.provideOption.eq_def, CommandLine.provideOption.eq_def]
  split
  · split
    · exact h.provideValues o argName _ argv i i'
    · rename_i value args
      have hp := h.provideValues (P := P) o argName (some value) (some (value, args)) (i + 1) (i' + 1)
      generalize CommandLine.provideValues P o argName (some value) (some (value, args)) (i + 1) st = p at hp ⊢
      generalize CommandLine.provideValues P o argName (some value) (some (value, args)) (i' + 1) st' = p'
        at hp ⊢
      cases hp with
      | none => exact .none
      | some hp => exact .some ⟨hp.failed, congrArg (· + 1) hp.taken, hp.st⟩
    · exact .some ⟨rfl, rfl, h.error o _ none⟩
  · split
    · exact .some ⟨rfl, rfl, h.error o _ none⟩
    · split
      · exact .some ⟨rfl, rfl, h.error o _ none⟩
      · exact h.provideValues o argName none argv i i'
  · exact h.provideValues o argName value argv i i'

structure AlikeGrouped (g g' : Grouped ι) : Prop where
  split : g.split = g'.split
  errorParsing : g.errorParsing = g'.errorParsing
  st : Alike g.st g'.st

theorem Alike.groupLoop (h : Alike st st') (optionsMap : List (Str × ι)) (n : Nat) (o : ι) (length : Nat)
    (arg : Str) (e : Bool) : Option.Rel AlikeGrouped (groupLoop P optionsMap n o length arg e st)
      (groupLoop P optionsMap n o length arg e st') := by
  induction n generalizing o length arg e st st' with
  | zero => exact .none
  | succ n ih =>
    rw [CommandLine.groupLoop.eq_def, CommandLine.groupLoop.eq_def]
    dsimp only
    split
    · exact .none
    · have hp := h.provideOption (P := P) o (arg.take length) none none 0 0
      generalize CommandLine.provideOption P o (arg.take length) none none 0 st = p at hp ⊢
      generalize CommandLine.provideOption P o (arg.take length) none none 0 st' = p' at hp ⊢
      cases hp with
      | none => exact .none
      | some hp =>
        dsimp only
        rw [hp.failed]
        split
        · exact .some ⟨rfl, rfl, hp.st⟩
        · split
          · exact .some ⟨rfl, rfl, hp.st⟩
          · exact ih hp.st _ _ _ _

theorem Alike.handlePrefixedOrGroupedOption (h : Alike st st') (optionsMap : List (Str × ι)) (arg : Str)
    (e : Bool) : Option.Rel AlikeGrouped (handlePrefixedOrGroupedOption P optionsMap arg e st)
      (handlePrefixedOrGroupedOption P optionsMap arg e st') := by
  rw [CommandLine.handlePrefixedOrGroupedOption, CommandLine.handlePrefixedOrGroupedOption]
  split
  · exact .some ⟨rfl, rfl, h⟩
  · split
    · exact .some ⟨rfl, rfl, h⟩
    · split
      · exact .some ⟨rfl, rfl, h⟩
      · exact h.groupLoop optionsMap _ _ _ arg e

theorem Alike.addToSinks (h : Alike st st') (a : Str) (i i' : Nat) (sinkOpts : List ι) :
    Alike (addToSinks P a i sinkOpts st) (addToSinks P a i' sinkOpts st') := by
  induction sinkOpts generalizing st st' with
  | nil => exact h
  | cons o sinkOpts ih => exact ih (h.addOccurrence o i i' [] a false).2

namespace AlikeLoop

variable {sub : SubCommand ι} {l l' : Loop ι}

theorem unknownArgument (h : AlikeLoop l l') (argv0 a : Str) (i i' : Nat) :
    AlikeLoop (unknownArgument P sub argv0 a i l) (unknownArgument P sub argv0 a i' l') := by
  obtain ⟨active, dashDash, e, h, hvals⟩ := h
  rw [CommandLine.unknownArgument, CommandLine.unknownArgument]
  split
  · refine .mk active dashDash true ⟨h.programName, h.numOccurrences, h.handled, ?_⟩ hvals
    rw [h.programName]
    exact congrArg (· ++ _) h.errs
  · exact .mk active dashDash e (h.addToSinks a i i' sub.sinkOpts) hvals

theorem handleOption (h : AlikeLoop l l') (s : Split ι) (a : Str) (args : List Str) (i i' : Nat) :
    Option.Rel AlikeNext (handleOption P s a args i l) (handleOption P s a args i' l') := by
  obtain ⟨active, dashDash, e, h, hvals⟩ := h
  rw [CommandLine.handleOption, CommandLine.handleOption]
  split
  · split
    · exact .some (.go 0 (.mk _ dashDash true (h.error s.option _ none) hvals))
    · exact .some (.go 0 (.mk _ dashDash e h hvals))
  · rename_i st st' _ _ _
    have hp := h.provideOption (P := P) s.option s.argName s.value (some (a, args)) i i'
    dsimp only
    generalize provideOption P s.option s.argName s.value (some (a, args)) i st = p at hp ⊢
    generalize provideOption P s.option s.argName s.value (some (a, args)) i' st' = p' at hp ⊢
    cases hp with
    | none => exact .none
    | @some p p' hp =>
      rw [Option.map_some, Option.map_some, hp.failed, hp.taken]
      exact .some (.go p'.taken (.mk active dashDash _ hp.st hvals))

theorem feedActive (h : AlikeLoop l l') (o : ι) (a : Str) (i i' : Nat) :
    Option.Rel AlikeNext (feedActive P o a i l) (feedActive P o a i' l') := by
  obtain ⟨active, dashDash, e, h, hvals⟩ := h
  rename_i st st' _ _
  have hp := h.provideOption (P := P) o (P.opt o).argStr (some a) none i i'
  rw [CommandLine.feedActive, CommandLine.feedActive, providePositionalOption, providePositionalOption]
  generalize provideOption P o (P.opt o).argStr (some a) none i st = p at hp ⊢
  generalize provideOption P o (P.opt o).argStr (some a) none i' st' = p' at hp ⊢
  cases hp with
  | none => exact .none
  | some hp => exact .some (.go 0 (.mk active dashDash e hp.st hvals))

theorem positionalStep (h : AlikeLoop l l') (k : Nat) (argv0 a : Str) (args : List Str) (i i' : Nat) :
    Option.Rel AlikeNext (positionalStep P sub k argv0 a args i l)
      (positionalStep P sub k argv0 a args i' l') := by
  have hunknown : AlikeLoop (CommandLine.unknownArgument P sub argv0 a i l)
      (CommandLine.unknownArgument P sub argv0 a i' l') := h.unknownArgument argv0 a i i'
  have hfeed := fun o => h.feedActive (P := P) o a i i'
  have hself := h
  obtain ⟨active, dashDash, e, h, hvals⟩ := h
  rename_i st st' vals vals'
  rw [CommandLine.positionalStep.eq_def, CommandLine.positionalStep.eq_def]
  dsimp only
  split
  · exact hfeed _
  · split
    · have hvals' : (vals ++ [(a, i)]).map Prod.fst = (vals' ++ [(a, i')]).map Prod.fst := by
        rw [List.map_append, List.map_append, hvals]
        rfl
      have hlen : (vals ++ [(a, i)]).length = (vals' ++ [(a, i')]).length := by
        rw [← List.length_map, hvals', List.length_map]
      rw [hlen]
      split
      · have hrest : ∀ v v' : List (Str × Nat), v.map Prod.fst = v'.map Prod.fst →
            (v ++ args.zipIdx (i + 1)).map Prod.fst = (v' ++ args.zipIdx (i' + 1)).map Prod.fst := by
          intro v v' hv
          rw [List.map_append, List.map_append, hv, List.zipIdx_map_fst, List.zipIdx_map_fst]
        exact .some (.stop (.mk _ dashDash e h (hrest _ _ hvals')))
      · exact .some (.go 0 (.mk _ dashDash e h hvals'))
    · split
      · exact .some (.sub hself)
      · exact .some (.go 0 hunknown)

theorem dashStep (h : AlikeLoop l l') (argv0 a : Str) (args : List Str) (i i' : Nat) :
    Option.Rel AlikeNext (dashStep P sub argv0 a args i l) (dashStep P sub argv0 a args i' l') := by
  have hoption := fun s => h.handleOption (P := P) s a args i i'
  have hfeed := fun o => h.feedActive (P := P) o a i i'
  obtain ⟨active, dashDash, e, h, hvals⟩ := h
  rename_i st st' vals vals'
  rw [CommandLine.dashStep.eq_def, CommandLine.dashStep.eq_def]
  dsimp only
  split
  · split
    · exact hoption _
    · exact hfeed _
  · split
    · exact hoption _
    · have hg := h.handlePrefixedOrGroupedOption (P := P) sub.optionsMap (a.dropWhile (· = '-')) e
      generalize handlePrefixedOrGroupedOption P sub.optionsMap (a.dropWhile (· = '-')) e st = g at hg ⊢
      generalize handlePrefixedOrGroupedOption P sub.optionsMap (a.dropWhile (· = '-')) e st' = g' at hg ⊢
      cases hg with
      | none => exact .none
      | @some g g' hg =>
        have hl : AlikeLoop ⟨g.st, vals, active, dashDash, g.errorParsing⟩
            ⟨g'.st, vals', active, dashDash, g'.errorParsing⟩ := by
          rw [hg.errorParsing]
          exact .mk active dashDash _ hg.st hvals
        dsimp only
        rw [hg.split]
        split
        · exact hl.handleOption _ a args i i'
        · exact .some (.go 0 (hl.unknownArgument argv0 a i i'))

theorem step (h : AlikeLoop l l') (k : Nat) (argv0 a : Str) (args : List Str) (i i' : Nat) :
    Option.Rel AlikeNext (step P sub k argv0 a args i l) (step P sub k argv0 a args i' l') := by
  have hpos : Option.Rel AlikeNext (CommandLine.positionalStep P sub k argv0 a args i l)
      (CommandLine.positionalStep P sub k argv0 a args i' l') := h.positionalStep k argv0 a args i i'
  have hdash : Option.Rel AlikeNext (CommandLine.dashStep P sub argv0 a args i l)
      (CommandLine.dashStep P sub argv0 a args i' l') := h.dashStep argv0 a args i i'
  obtain ⟨active, dashDash, e, h, hvals⟩ := h
  rw [CommandLine.step, CommandLine.step]
  dsimp only
  split
  · exact hpos
  · split
    · exact .some (.go 0 (.mk active true e h hvals))
    · exact hdash

/-- **Positions do not matter** to the loop. -/
theorem argLoop (h : AlikeLoop l l') (k : Nat) (argv0 : Str) (skip i i' : Nat) (args : List Str) :
    Option.Rel AlikeEnd (argLoop P sub k argv0 skip i args l) (argLoop P sub k argv0 skip i' args l') := by
  induction args generalizing skip i i' l l' with
  | nil => cases skip <;> exact .some (.done h)
  | cons a args ih =>
    cases skip with
    | succ skip => exact ih h skip (i + 1) (i' + 1)
    | zero =>
      have hs : Option.Rel AlikeNext (CommandLine.step P sub k argv0 a args i l)
          (CommandLine.step P sub k argv0 a args i' l') := h.step k argv0 a args i i'
      rw [CommandLine.argLoop, CommandLine.argLoop]
      generalize CommandLine.step P sub k argv0 a args i l = n at hs ⊢
      generalize CommandLine.step P sub k argv0 a args i' l' = n' at hs ⊢
      cases hs with
      | none => exact .none
      | some hs =>
        cases hs with
        | go taken hl => exact ih hl taken (i + 1) (i' + 1)
        | stop hl => exact .some (.done hl)
        | sub hl => exact .some (.sub i i' hl)

end AlikeLoop

end

/-! ## Spellings -/

/-- An option that its name can be found for, and that is told a value where it stands. -/
structure Named (P : CommandLineParser ι) (sub : SubCommand ι) (name : Str) (o : ι) : Prop where
  ne_nil : name ≠ []
  head : name.head? ≠ some '-'
  equals : '=' ∉ name
  lookup : sub.optionsMap.lookup name = some o
  formatting : (P.opt o).formattingFlag ≠ .positional
  spaceSeparated : (P.opt o).miscFlags.spaceSeparated = false

/-- The argument is taken for an option. -/
def Plain (P : CommandLineParser ι) (l : Loop ι) : Prop :=
  l.dashDashFound = false ∧ (l.activePositionalArg.filter fun o => (P.opt o).miscFlags.positionalEatsArgs) = none

section

variable {P : CommandLineParser ι} {sub : SubCommand ι} {name : Str} {o : ι} {l : Loop ι}

omit [DecidableEq ι] in
theorem Named.lookupOption (h : Named P sub name o) :
    lookupOption sub.optionsMap name = some ⟨o, name, none⟩ := by
  rw [CommandLine.lookupOption, if_neg h.ne_nil, if_neg h.equals, h.lookup]
  rfl

omit [DecidableEq ι] in
theorem Named.lookupOption_value (h : Named P sub name o) (value : Str) :
    CommandLine.lookupOption sub.optionsMap (name ++ '=' :: value) = some ⟨o, name, some value⟩ := by
  have hname : ∀ c ∈ name, c ≠ '=' := fun c hc heq => h.equals (heq ▸ hc)
  have htake : (name ++ '=' :: value).takeWhile (· ≠ '=') = name := by
    rw [List.takeWhile_append_of_pos (by simpa using hname)]
    simp
  have hdrop : (name ++ '=' :: value).dropWhile (· ≠ '=') = '=' :: value := by
    rw [List.dropWhile_append_of_pos (by simpa using hname)]
    simp
  rw [CommandLine.lookupOption, if_neg (by simp), if_pos (by simp), htake, hdrop]
  dsimp only
  rw [h.lookup]
  rfl

/-- A round at an option that is found. The number of dashes does not matter. -/
theorem step_named {dashes : Str} (hdashes : dashes = ['-'] ∨ dashes = ['-', '-']) {arg : Str}
    (hne : arg ≠ []) (hhead : arg.head? ≠ some '-') {s : Split ι}
    (hs : lookupOption sub.optionsMap arg = some s) (hl : Plain P l) (k : Nat) (argv0 : Str)
    (args : List Str) (i : Nat) : step P sub k argv0 (dashes ++ arg) args i l =
      handleOption P s (dashes ++ arg) args i l := by
  obtain ⟨c, rest, rfl⟩ := List.exists_cons_of_ne_nil hne
  have hc : c ≠ '-' := fun heq => hhead (congrArg some heq)
  have hdrop : (dashes ++ c :: rest).dropWhile (· = '-') = c :: rest := by
    rcases hdashes with rfl | rfl
    · simp [hc]
    · simp [hc]
  have htext : isPositionalText (dashes ++ c :: rest) = false := by
    rcases hdashes with rfl | rfl
    · simp [isPositionalText]
    · simp [isPositionalText]
  have hdash : dashes ++ c :: rest ≠ ['-', '-'] := by
    rcases hdashes with rfl | rfl
    · simp [hc]
    · simp
  rw [step, htext, hl.1, Bool.or_false, if_neg Bool.false_ne_true, if_neg hdash, dashStep.eq_def]
  simp only [hl.2, hdrop, hs]

/-- An option that is not `SpaceSeparated` does not look at the argument it stands in. -/
theorem provideOption_argv (h : (P.opt o).miscFlags.spaceSeparated = false) (argName : Str)
    (value : Option Str) (a a' : Str) (args : List Str) (i : Nat) (st : St ι) :
    provideOption P o argName value (some (a, args)) i st =
      provideOption P o argName value (some (a', args)) i st := by
  have hvalues : ∀ value, provideValues P o argName value (some (a, args)) i st =
      provideValues P o argName value (some (a', args)) i st := by
    intro value
    rw [provideValues, provideValues, h]
    rfl
  rw [provideOption.eq_def, provideOption.eq_def]
  cases (P.opt o).valueExpectedFlag with
  | valueRequired =>
    cases value with
    | some value => exact hvalues (some value)
    | none =>
      cases args with
      | nil => rfl
      | cons value args => rfl
  | valueDisallowed =>
    dsimp only
    rw [hvalues none]
  | valueOptional => exact hvalues value

/-- The value in the next argument is told as the one behind `=`. -/
theorem provideOption_next (h : (P.opt o).miscFlags.spaceSeparated = false)
    (hvalue : (P.opt o).valueExpectedFlag = .valueRequired) (argName : Str) (value a a' : Str)
    (args : List Str) (i : Nat) (st : St ι) : Option.Rel (fun p p' => AlikeProvided p ⟨p'.failed, p'.taken + 1, p'.st⟩)
      (provideOption P o argName none (some (a, value :: args)) i st)
      (provideOption P o argName (some value) (some (a', args)) i st) := by
  rw [provideOption_argv h argName (some value) a' value, provideOption.eq_def, provideOption.eq_def]
  simp only [hvalue]
  have hp := (Alike.refl st).provideValues (P := P) o argName (some value) (some (value, args)) (i + 1) i
  generalize provideValues P o argName (some value) (some (value, args)) (i + 1) st = p at hp ⊢
  generalize provideValues P o argName (some value) (some (value, args)) i st = p' at hp ⊢
  cases hp with
  | none => exact .none
  | some hp => exact .some ⟨hp.failed, congrArg (· + 1) hp.taken, hp.st⟩

end

/-- The loop before all arguments. -/
def Loop.start (st : St ι) : Loop ι := ⟨st, [], none, false, false⟩

/-- Letters that are names of grouping options, and that no longer name stands between. -/
structure Group (P : CommandLineParser ι) (sub : SubCommand ι) (option : Char → ι) (cs : Str) : Prop where
  lookup : ∀ c ∈ cs, sub.optionsMap.lookup [c] = some (option c)
  letter : ∀ c ∈ cs, c ≠ '-' ∧ c ≠ '='
  grouping : ∀ c ∈ cs, (P.opt (option c)).formattingFlag = .grouping
  noValue : ∀ c ∈ cs, (P.opt (option c)).valueExpectedFlag ≠ .valueRequired ∧
    (P.opt (option c)).numAdditionalVals = 0 ∧ (P.opt (option c)).miscFlags.spaceSeparated = false
  longest : ∀ t, t <:+ cs → ∀ n, 2 ≤ n → n ≤ t.length → sub.optionsMap.lookup (t.take n) = none

/-- Options without values, told where they stand, with the error before. -/
def flags (P : CommandLineParser ι) (option : Char → ι) : List (Char × Nat) → Bool → St ι → Bool × St ι
  | [], e, st => (e, st)
  | (c, i) :: cs, e, st =>
    let r := commaSeparateAndAddOccurrence P (option c) i [c] [] false st
    flags P option cs (e || r.1) r.2

section

variable {P : CommandLineParser ι} {sub : SubCommand ι} {option : Char → ι} {c : Char} {cs : Str}
  {l : Loop ι}

theorem flags_append (xs ys : List (Char × Nat)) (e : Bool) (st : St ι) :
    flags P option (xs ++ ys) e st =
      flags P option ys (flags P option xs e st).1 (flags P option xs e st).2 := by
  induction xs generalizing e st with
  | nil => rfl
  | cons x xs ih => exact ih _ _

theorem Alike.flags {st st' : St ι} (h : Alike st st') {xs ys : List (Char × Nat)}
    (hxs : xs.map Prod.fst = ys.map Prod.fst) (e : Bool) :
    AlikeResult (flags P option xs e st) (flags P option ys e st') := by
  induction xs generalizing ys e st st' with
  | nil =>
    cases ys with
    | nil => exact ⟨rfl, h⟩
    | cons y ys => cases hxs
  | cons x xs ih =>
    cases ys with
    | nil => cases hxs
    | cons y ys =>
      obtain ⟨c, i⟩ := x
      obtain ⟨c', i'⟩ := y
      obtain ⟨rfl, hys⟩ := List.cons_eq_cons.mp hxs
      obtain ⟨hb, hst⟩ := h.commaSeparate (P := P) (option c) i i' [c] [] false
      rw [CommandLine.flags, CommandLine.flags]
      dsimp only
      rw [hb]
      exact ih hst hys _

namespace Group

omit [DecidableEq ι] in
theorem tail (h : Group P sub option (c :: cs)) : Group P sub option cs where
  lookup := fun d hd => h.lookup d (List.mem_cons_of_mem c hd)
  letter := fun d hd => h.letter d (List.mem_cons_of_mem c hd)
  grouping := fun d hd => h.grouping d (List.mem_cons_of_mem c hd)
  noValue := fun d hd => h.noValue d (List.mem_cons_of_mem c hd)
  longest := fun t ht => h.longest t (ht.trans (List.suffix_cons c cs))

theorem provideOption (h : Group P sub option cs) (hc : c ∈ cs) (argv : Option (Str × List Str)) (i : Nat)
    (st : St ι) : provideOption P (option c) [c] none argv i st =
      some ⟨(commaSeparateAndAddOccurrence P (option c) i [c] [] false st).1, 0,
        (commaSeparateAndAddOccurrence P (option c) i [c] [] false st).2⟩ := by
  obtain ⟨hvalue, hzero, hspace⟩ := h.noValue c hc
  have hvalues : provideValues P (option c) [c] none argv i st =
      some ⟨(commaSeparateAndAddOccurrence P (option c) i [c] [] false st).1, 0,
        (commaSeparateAndAddOccurrence P (option c) i [c] [] false st).2⟩ := by
    rw [provideValues, if_pos hzero, hspace]
    rfl
  rw [provideOption.eq_def]
  split
  · rename_i hreq
    exact absurd hreq hvalue
  · rw [hzero]
    exact hvalues
  · exact hvalues

omit [DecidableEq ι] in
theorem getOptionPred (h : Group P sub option (c :: cs)) {pred : ι → Bool}
    (hpred : pred (option c) = true) :
    getOptionPred pred sub.optionsMap (c :: cs) = some (option c, 1) := by
  have hlong : ∀ n, n < (c :: cs).length →
      longestName sub.optionsMap (c :: cs) (n + 1) = some (option c, 1) := by
    intro n
    induction n with
    | zero =>
      intro _
      rw [longestName, List.take_succ_cons, List.take_zero, h.lookup c (List.mem_cons_self ..)]
    | succ n ih =>
      intro hn
      rw [longestName, h.longest _ List.suffix_rfl _ (by omega) (by omega)]
      exact (if_pos (by omega)).trans (ih (by omega))
  rw [CommandLine.getOptionPred, List.length_cons, hlong _ (Nat.lt_succ_self _), Option.filter_some,
    if_pos hpred]

/-- The loop for grouped options tells all letters but the last one, and leaves that. -/
theorem groupLoop (h : Group P sub option (c :: cs)) {init : Str} {d : Char} (hcs : c :: cs = init ++ [d])
    (hne : cs ≠ []) {n : Nat} (hn : cs.length ≤ n) (e : Bool) (st : St ι) :
    groupLoop P sub.optionsMap n (option c) 1 (c :: cs) e st =
      some ⟨some ⟨option d, [d], none⟩, (flags P option (init.map (·, 0)) e st).1,
        (flags P option (init.map (·, 0)) e st).2⟩ := by
  induction n generalizing c cs init e st with
  | zero => exact absurd (List.length_eq_zero_iff.mp (Nat.le_zero.mp hn)) hne
  | succ n ih =>
    obtain ⟨c', cs', rfl⟩ := List.exists_cons_of_ne_nil hne
    cases init with
    | nil => cases hcs
    | cons b init =>
      obtain ⟨rfl, hcs'⟩ := List.cons_eq_cons.mp hcs
      have hmem : c ∈ c :: c' :: cs' := List.mem_cons_self ..
      have hpred : isGrouping P (option c') = true :=
        decide_eq_true (h.grouping c' (List.mem_cons_of_mem c (List.mem_cons_self ..)))
      rw [groupLoop.eq_def]
      simp only [if_neg (h.noValue c hmem).1, List.take_succ_cons, List.take_zero, List.drop_succ_cons,
        List.drop_zero, h.provideOption hmem, h.tail.getOptionPred hpred, List.length_cons]
      rw [List.map_cons, flags]
      split
      · rename_i hlen
        have hnil : cs' = [] := List.length_eq_zero_iff.mp (by omega)
        subst hnil
        cases init with
        | nil =>
          obtain ⟨rfl, -⟩ := List.cons_eq_cons.mp hcs'
          rfl
        | cons b init =>
          obtain ⟨-, hnil⟩ := List.cons_eq_cons.mp hcs'
          exact absurd hnil.symm (List.append_ne_nil_of_right_ne_nil init (List.cons_ne_nil d []))
      · rename_i hlen
        have hne' : cs' ≠ [] := by
          rintro rfl
          exact hlen rfl
        exact ih h.tail hcs' hne' (by rw [List.length_cons] at hn; omega) _ _

omit [DecidableEq ι] in
theorem named (h : Group P sub option cs) (hc : c ∈ cs) : Named P sub [c] (option c) where
  ne_nil := List.cons_ne_nil _ _
  head := fun heq => (h.letter c hc).1 (Option.some.inj heq)
  equals := fun hmem => (h.letter c hc).2 (List.mem_singleton.mp hmem).symm
  lookup := h.lookup c hc
  formatting := by
    rw [h.grouping c hc]
    exact FormattingFlags.noConfusion
  spaceSeparated := (h.noValue c hc).2.2

theorem handleOption (h : Group P sub option cs) (hc : c ∈ cs) (a : Str) (args : List Str) (i : Nat)
    (l : Loop ι) : handleOption P ⟨option c, [c], none⟩ a args i l =
      some (.go 0 { l with
        st := (flags P option [(c, i)] l.errorParsing l.st).2
        errorParsing := (flags P option [(c, i)] l.errorParsing l.st).1 }) := by
  rw [CommandLine.handleOption, if_neg (h.named hc).formatting]
  simp only [h.provideOption hc]
  rfl

/-- Letters one by one. -/
theorem argLoop_single (h : Group P sub option cs) (hl : Plain P l) (k : Nat) (argv0 : Str)
    (args : List Str) (i : Nat) : argLoop P sub k argv0 0 i (cs.map (fun c => ['-', c]) ++ args) l =
      argLoop P sub k argv0 0 (i + cs.length) args { l with
        st := (flags P option (cs.zipIdx i) l.errorParsing l.st).2
        errorParsing := (flags P option (cs.zipIdx i) l.errorParsing l.st).1 } := by
  induction cs generalizing i l with
  | nil => rfl
  | cons c cs ih =>
    have hmem : c ∈ c :: cs := List.mem_cons_self ..
    have hstep : step P sub k argv0 ['-', c] (cs.map (fun c => ['-', c]) ++ args) i l = _ :=
      (step_named (.inl rfl) (h.named hmem).ne_nil (h.named hmem).head (h.named hmem).lookupOption hl k
        argv0 _ i).trans (h.handleOption hmem _ _ i l)
    rw [List.map_cons, List.cons_append, argLoop, hstep]
    refine (ih h.tail (l := { l with
      st := (flags P option [(c, i)] l.errorParsing l.st).2
      errorParsing := (flags P option [(c, i)] l.errorParsing l.st).1 }) hl (i + 1)).trans ?_
    rw [List.length_cons, Nat.add_right_comm, Nat.add_assoc]
    rfl

/-- A round at a group. -/
theorem step_group (h : Group P sub option cs) (hlen : 2 ≤ cs.length) {init : Str} {d : Char}
    (hcs : cs = init ++ [d]) (hl : Plain P l) (k : Nat) (argv0 : Str) (args : List Str) (i : Nat) :
    step P sub k argv0 ('-' :: cs) args i l =
      CommandLine.handleOption P ⟨option d, [d], none⟩ ('-' :: cs) args i { l with
        st := (flags P option (init.map (·, 0)) l.errorParsing l.st).2
        errorParsing := (flags P option (init.map (·, 0)) l.errorParsing l.st).1 } := by
  obtain ⟨c, rest, rfl⟩ := List.exists_cons_of_ne_nil (List.ne_nil_of_length_pos (by omega : 0 < cs.length))
  have hmem : c ∈ c :: rest := List.mem_cons_self ..
  obtain ⟨hc, -⟩ := h.letter c hmem
  have hrest : rest ≠ [] := by
    rintro rfl
    rw [List.length_singleton] at hlen
    omega
  have htext : isPositionalText ('-' :: c :: rest) = false := by simp [isPositionalText]
  have hdash : '-' :: c :: rest ≠ ['-', '-'] := by simp [hc]
  have hdrop : ('-' :: c :: rest).dropWhile (· = '-') = c :: rest := by simp [hc]
  have hlookup : lookupOption sub.optionsMap (c :: rest) = none := by
    have hnone := h.longest _ List.suffix_rfl _ hlen (Nat.le_refl _)
    rw [List.take_length] at hnone
    rw [lookupOption, if_neg (List.cons_ne_nil _ _), if_neg fun heq => (h.letter '=' heq).2 rfl, hnone]
    rfl
  have hgroup : isGrouping P (option c) = true := decide_eq_true (h.grouping c hmem)
  have hpred : isPrefixedOrGrouping P (option c) = true := by
    rw [isPrefixedOrGrouping, hgroup, Bool.true_or]
  have hprefix : ¬ (P.opt (option c)).formattingFlag = .prefixed := by
    rw [h.grouping c hmem]
    exact FormattingFlags.noConfusion
  have hone : ¬ (c :: rest).length = 1 := by omega
  have hrounds : rest.length ≤ (c :: rest).length + 1 := by
    rw [List.length_cons]
    omega
  have hloop := h.groupLoop hcs hrest hrounds l.errorParsing l.st
  rw [step, htext, hl.1, Bool.or_false, if_neg Bool.false_ne_true, if_neg hdash, dashStep.eq_def]
  simp only [hl.2, hdrop, hlookup, handlePrefixedOrGroupedOption, if_neg hone, h.getOptionPred hpred,
    if_neg hprefix, hloop, hl.1]

end Group

end

end Primitives.CommandLine
