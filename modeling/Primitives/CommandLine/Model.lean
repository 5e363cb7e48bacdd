import Primitives.CommandLine.Windows
import Primitives.CommandLine.Responses

/-!
# Command line options

The parser of `CommandLine.cpp` over options that are known by names of a type `ι`. What it does to an
option is to tell it of an occurrence: the position, the name that was used and the value. So a run of the
parser is the list of the occurrences that the options took (`St.handled`), how often each option was seen,
and the error texts.

An option is not modelled further than the parser sees it. Its flags are data, and `parse` is the parser of
its values: it takes a value, or it has an error text. An alias is for the option that is told in the end.

What the parser would do with a null `argv` or a failed assertion is no result at all. The nearest name
that is offered for an unknown argument is left out.
-/

set_option autoImplicit false

namespace Primitives.CommandLine

/-! ## Options -/

inductive NumOccurrencesFlag where
  | optional
  | zeroOrMore
  | required
  | oneOrMore
  /-- This option is fed anything that follows the last positional argument required. -/
  | consumeAfter
deriving DecidableEq, Repr

inductive ValueExpected where
  | valueOptional
  | valueRequired
  | valueDisallowed
deriving DecidableEq, Repr

inductive FormattingFlags where
  | normalFormatting
  | positional
  /-- `Prefix`: can this option directly prefix its value? -/
  | prefixed
  | grouping
deriving DecidableEq, Repr

structure MiscFlags where
  commaSeparated : Bool
  positionalEatsArgs : Bool
  sink : Bool
  /-- Eat args until next option started with '-'. -/
  spaceSeparated : Bool
deriving DecidableEq, Repr

/-- `Option`, as the parser sees it. -/
structure Opt (ι : Type) where
  argStr : Str
  helpStr : Str
  numOccurrencesFlag : NumOccurrencesFlag
  /-- What `getValueExpectedFlag` returns. -/
  valueExpectedFlag : ValueExpected
  formattingFlag : FormattingFlags
  miscFlags : MiscFlags
  numAdditionalVals : Nat
  /-- The option that an alias is for in the end. -/
  aliasFor : Option ι
  /-- The parser of values: the error text for a name and a value, if there is one. -/
  parse : Str → Str → Option Str

structure SubCommand (ι : Type) where
  name : Str
  positionalOpts : List ι
  sinkOpts : List ι
  /-- In the order of the hash table. -/
  optionsMap : List (Str × ι)
  consumeAfterOpt : Option ι

structure CommandLineParser (ι : Type) where
  opt : ι → Opt ι
  /-- `getTopLevelSubCommand` -/
  topLevel : SubCommand ι
  /-- The other registered subcommands, but for `getAllSubCommands`. -/
  subCommands : List (SubCommand ι)

/-- An occurrence that an option took. -/
structure Occurrence (ι : Type) where
  option : ι
  pos : Nat
  argName : Str
  value : Str
deriving DecidableEq, Repr

structure St (ι : Type) where
  programName : Str
  numOccurrences : ι → Nat
  /-- What `handleOccurrence` was told without an error. -/
  handled : List (Occurrence ι)
  /-- What was written to the error streams. -/
  errs : List Str

variable {ι : Type}

/-- Nothing was seen. -/
def St.fresh : St ι := ⟨[], fun _ => 0, [], []⟩

/-- A text that is written to an error stream. -/
def St.write (st : St ι) (text : Str) : St ι := { st with errs := st.errs ++ [text] }

section

variable (P : CommandLineParser ι)

/-- `Option::error` -/
def error (o : ι) (message : Str) (argName : Option Str) (st : St ι) : St ι :=
  let name := argName.getD (P.opt o).argStr
  st.write ((if name = [] then (P.opt o).helpStr else st.programName ++ ": for the -".toList ++ name) ++
    " option: ".toList ++ message ++ "\n".toList)

/-- `handleOccurrence` of an option that is no alias. -/
def handleOccurrence (o : ι) (pos : Nat) (argName value : Str) (st : St ι) : Bool × St ι :=
  match (P.opt o).parse argName value with
  | some message => (true, error P o message none st)
  | none => (false, { st with handled := st.handled ++ [⟨o, pos, argName, value⟩] })

variable [DecidableEq ι]

/-- `++NumOccurrences`, unless it is one of several values. -/
def St.seen (st : St ι) (o : ι) (multiArg : Bool) : St ι :=
  if multiArg then st
  else { st with numOccurrences := Function.update st.numOccurrences o (st.numOccurrences o + 1) }

/-- `Option::addOccurrence` -/
def addOccurrenceOf (o : ι) (pos : Nat) (argName value : Str) (multiArg : Bool) (st : St ι) :
    Bool × St ι :=
  let st := st.seen o multiArg
  match (P.opt o).numOccurrencesFlag with
  | .optional =>
    if st.numOccurrences o > 1 then
      (true, error P o "may only occur zero or one times!".toList (some argName) st)
    else handleOccurrence P o pos argName value st
  | .required =>
    if st.numOccurrences o > 1 then
      (true, error P o "must occur exactly one time!".toList (some argName) st)
    else handleOccurrence P o pos argName value st
  | .oneOrMore | .zeroOrMore | .consumeAfter => handleOccurrence P o pos argName value st

/-- `addOccurrence`: an alias tells the option that it is for, by the name of that option. -/
def addOccurrence (o : ι) (pos : Nat) (argName value : Str) (multiArg : Bool) (st : St ι) : Bool × St ι :=
  match (P.opt o).aliasFor with
  | none => addOccurrenceOf P o pos argName value multiArg st
  | some t => addOccurrenceOf P t pos (P.opt t).argStr value multiArg st

/-- Values one after the other, up to the first error. -/
def addOccurrences (o : ι) (pos : Nat) (argName : Str) (multiArg : Bool) : List Str → St ι → Bool × St ι
  | [], st => (false, st)
  | value :: values, st =>
    let r := addOccurrence P o pos argName value multiArg st
    if r.1 then (true, r.2) else addOccurrences o pos argName multiArg values r.2

/-- `CommaSeparateAndAddOccurrence` -/
def commaSeparateAndAddOccurrence (o : ι) (pos : Nat) (argName value : Str) (multiArg : Bool) (st : St ι) :
    Bool × St ι :=
  if (P.opt o).miscFlags.commaSeparated then
    addOccurrences P o pos argName multiArg (value.splitOn ',') st
  else addOccurrence P o pos argName value multiArg st

/-- The loop for `SpaceSeparated`, over the arguments from `i` on that it eats. -/
def eatSpaceSeparated (o : ι) (argName : Str) : Nat → Bool → List Str → St ι → Bool × St ι
  | _, handle, [], st => (handle, st)
  | i, handle, a :: args, st =>
    let r := addOccurrence P o i argName a false st
    eatSpaceSeparated o argName (i + 1) (handle || r.1) args r.2

/-- The result of `ProvideOption`: the error, by how much `i` was moved, and what it did. -/
structure Provided (ι : Type) where
  failed : Bool
  taken : Nat
  st : St ι

/-- The last loop of `ProvideOption`, with the values that are left to be taken and the arguments behind
`i`. -/
def provideMore (o : ι) (argName : Str) : Nat → Bool → List Str → Nat → St ι → Provided ι
  | 0, _, _, _, st => ⟨false, 0, st⟩
  | _ + 1, _, [], _, st => ⟨true, 0, error P o "not enough values!".toList none st⟩
  | n + 1, multiArg, value :: args, i, st =>
    let r := commaSeparateAndAddOccurrence P o (i + 1) argName value multiArg st
    if r.1 then ⟨true, 1, r.2⟩
    else
      let p := provideMore o argName n true args (i + 1) r.2
      ⟨p.failed, p.taken + 1, p.st⟩

/-- `ProvideOption` behind the check of the value. `argv` is the argument at `i` and those behind it, or
null. -/
def provideValues (o : ι) (argName : Str) (value : Option Str) (argv : Option (Str × List Str)) (i : Nat)
    (st : St ι) : Option (Provided ι) :=
  if (P.opt o).numAdditionalVals = 0 then
    if (P.opt o).miscFlags.spaceSeparated then
      argv.map fun (a, args) =>
        let eaten := args.takeWhile fun a => a.head? ≠ some '-'
        let r := eatSpaceSeparated P o argName i false (a :: eaten) st
        ⟨r.1, eaten.length, r.2⟩
    else
      let r := commaSeparateAndAddOccurrence P o i argName (value.getD []) false st
      some ⟨r.1, 0, r.2⟩
  else
    let args := (argv.map Prod.snd).getD []
    match value with
    | none => some (provideMore P o argName (P.opt o).numAdditionalVals false args i st)
    | some value =>
      let r := commaSeparateAndAddOccurrence P o i argName value false st
      if r.1 then some ⟨true, 0, r.2⟩
      else some (provideMore P o argName ((P.opt o).numAdditionalVals - 1) true args i r.2)

/-- `ProvideOption` -/
def provideOption (o : ι) (argName : Str) (value : Option Str) (argv : Option (Str × List Str)) (i : Nat)
    (st : St ι) : Option (Provided ι) :=
  match (P.opt o).valueExpectedFlag with
  | .valueRequired =>
    match value, argv with
    | some value, _ => provideValues P o argName (some value) argv i st
    | none, some (_, value :: args) =>
      -- steal the next argument, like for '-o filename'
      (provideValues P o argName (some value) (some (value, args)) (i + 1) st).map fun p =>
        ⟨p.failed, p.taken + 1, p.st⟩
    | none, _ => some ⟨true, 0, error P o "requires a value!".toList none st⟩
  | .valueDisallowed =>
    if (P.opt o).numAdditionalVals > 0 then
      some ⟨true, 0,
        error P o "multi-valued option specified with ValueDisallowed modifier!".toList none st⟩
    else
      match value with
      | some value => some ⟨true, 0, error P o
          ("does not allow a value! '".toList ++ value ++ "' specified.".toList) none st⟩
      | none => provideValues P o argName none argv i st
  | .valueOptional => provideValues P o argName value argv i st

/-- `ProvidePositionalOption` -/
def providePositionalOption (o : ι) (arg : Str) (i : Nat) (st : St ι) : Option (Provided ι) :=
  provideOption P o (P.opt o).argStr (some arg) none i st

/-! ## Names -/

/-- What an argument is split into. -/
structure Split (ι : Type) where
  option : ι
  argName : Str
  value : Option Str

omit [DecidableEq ι] in
/-- `LookupOption` -/
def lookupOption (optionsMap : List (Str × ι)) (arg : Str) : Option (Split ι) :=
  if arg = [] then none
  else if '=' ∈ arg then
    let name := arg.takeWhile (· ≠ '=')
    (optionsMap.lookup name).map fun o => ⟨o, name, some (arg.dropWhile (· ≠ '=')).tail⟩
  else (optionsMap.lookup arg).map fun o => ⟨o, arg, none⟩

def isGrouping (o : ι) : Bool := (P.opt o).formattingFlag = .grouping

def isPrefixedOrGrouping (o : ι) : Bool := isGrouping P o || (P.opt o).formattingFlag = .prefixed

/-- The loop of `getOptionPred`: the option of the longest name among the first characters, from `n` of them
downwards, and the length of the name. -/
def longestName (optionsMap : List (Str × ι)) (name : Str) : Nat → Option (ι × Nat)
  | 0 => (optionsMap.lookup (name.take 0)).map (·, 0)
  | n + 1 =>
    match optionsMap.lookup (name.take (n + 1)) with
    | some o => some (o, n + 1)
    | none => if n + 1 > 1 then longestName optionsMap name n else none

/-- `getOptionPred` -/
def getOptionPred (pred : ι → Bool) (optionsMap : List (Str × ι)) (name : Str) : Option (ι × Nat) :=
  (longestName optionsMap name name.length).filter fun p => pred p.1

/-- What `HandlePrefixedOrGroupedOption` returns and sets. -/
structure Grouped (ι : Type) where
  split : Option (Split ι)
  errorParsing : Bool
  st : St ι

/-- The loop for grouped options. Each round but the last one cuts a name off. -/
def groupLoop (optionsMap : List (Str × ι)) : Nat → ι → Nat → Str → Bool → St ι → Option (Grouped ι)
  | 0, _, _, _, _, _ => none
  | n + 1, o, length, arg, errorParsing, st =>
    let rest := arg.drop length
    if (P.opt o).valueExpectedFlag = .valueRequired then none
    else
      match provideOption P o (arg.take length) none none 0 st with
      | none => none
      | some p =>
        match getOptionPred (isGrouping P) optionsMap rest with
        | none => some ⟨none, errorParsing || p.failed, p.st⟩
        | some (o', length') =>
          if length' = rest.length then some ⟨some ⟨o', rest, none⟩, errorParsing || p.failed, p.st⟩
          else groupLoop optionsMap n o' length' rest (errorParsing || p.failed) p.st

/-- `HandlePrefixedOrGroupedOption` -/
def handlePrefixedOrGroupedOption (optionsMap : List (Str × ι)) (arg : Str) (errorParsing : Bool)
    (st : St ι) : Option (Grouped ι) :=
  if arg.length = 1 then some ⟨none, errorParsing, st⟩
  else
    match getOptionPred (isPrefixedOrGrouping P) optionsMap arg with
    | none => some ⟨none, errorParsing, st⟩
    | some (o, length) =>
      if (P.opt o).formattingFlag = .prefixed then
        some ⟨some ⟨o, arg.take length, some (arg.drop length)⟩, errorParsing, st⟩
      else groupLoop P optionsMap (arg.length + 1) o length arg errorParsing st

/-! ## The loop over the arguments -/

/-- The variables of the loop. -/
structure Loop (ι : Type) where
  st : St ι
  positionalVals : List (Str × Nat)
  activePositionalArg : Option ι
  dashDashFound : Bool
  errorParsing : Bool

/-- How a round ends: with the next argument, behind those that were taken with this one, behind the loop,
or with a subcommand, which is parsed instead. -/
inductive Next (ι : Type) where
  | go (taken : Nat) (l : Loop ι)
  | stop (l : Loop ι)
  | sub (l : Loop ι)

omit [DecidableEq ι] in
/-- `LookupSubCommand`: the name is not that of the top level. -/
def lookupSubCommand (name : Str) : Option (SubCommand ι) :=
  if name = [] then none else P.subCommands.find? fun s => s.name ≠ [] ∧ s.name = name

/-- Tell each sink. -/
def addToSinks (a : Str) (i : Nat) (sinkOpts : List ι) (st : St ι) : St ι :=
  sinkOpts.foldl (fun st o => (addOccurrence P o i [] a false st).2) st

/-- There is no option for the argument. -/
def unknownArgument (sub : SubCommand ι) (argv0 a : Str) (i : Nat) (l : Loop ι) : Loop ι :=
  if sub.sinkOpts = [] then
    { l with
      errorParsing := true
      st := l.st.write (l.st.programName ++ ": Unknown command line argument '".toList ++ a ++
        "'. Try: '".toList ++ argv0 ++ " --help'\n".toList) }
  else { l with st := addToSinks P a i sub.sinkOpts l.st }

/-- There is an option for the argument. A named positional argument is only remembered. -/
def handleOption (s : Split ι) (a : Str) (args : List Str) (i : Nat) (l : Loop ι) : Option (Next ι) :=
  if (P.opt s.option).formattingFlag = .positional then
    if (P.opt s.option).miscFlags.positionalEatsArgs ∧ s.value.getD [] ≠ [] then
      some (.go 0
        { l with
          activePositionalArg := some s.option
          errorParsing := true
          st := error P s.option ("This argument does not take a value.\n\tInstead, it consumes any " ++
            "positional arguments until the next recognized option.").toList none l.st })
    else some (.go 0 { l with activePositionalArg := some s.option })
  else
    (provideOption P s.option s.argName s.value (some (a, args)) i l.st).map fun p =>
      .go p.taken { l with st := p.st, errorParsing := l.errorParsing || p.failed }

/-- A positional argument, and nothing else happens to it. -/
def feedActive (o : ι) (a : Str) (i : Nat) (l : Loop ι) : Option (Next ι) :=
  (providePositionalOption P o a i l.st).map fun p => .go 0 { l with st := p.st }

/-- A round of the loop for an argument that is positional. -/
def positionalStep (sub : SubCommand ι) (numPositionalRequired : Nat) (argv0 a : Str) (args : List Str)
    (i : Nat) (l : Loop ι) : Option (Next ι) :=
  match l.activePositionalArg with
  | some o => feedActive P o a i l
  | none =>
    if sub.positionalOpts ≠ [] then
      let vals := l.positionalVals ++ [(a, i)]
      if vals.length ≥ numPositionalRequired ∧ sub.consumeAfterOpt.isSome then
        some (.stop { l with positionalVals := vals ++ args.zipIdx (i + 1) })
      else some (.go 0 { l with positionalVals := vals })
    else if (lookupSubCommand P a).isSome then some (.sub l)
    else some (.go 0 (unknownArgument P sub argv0 a i l))

/-- A round of the loop for an argument that starts with a dash. -/
def dashStep (sub : SubCommand ι) (argv0 a : Str) (args : List Str) (i : Nat) (l : Loop ι) :
    Option (Next ι) :=
  let argName := a.dropWhile (· = '-')
  match l.activePositionalArg.filter fun o => (P.opt o).miscFlags.positionalEatsArgs with
  | some o =>
    -- an option that is not another positional argument is fed to the one that eats
    match (lookupOption sub.optionsMap argName).filter
      fun s => (P.opt s.option).formattingFlag = .positional with
    | some s => handleOption P s a args i l
    | none => feedActive P o a i l
  | none =>
    match lookupOption sub.optionsMap argName with
    | some s => handleOption P s a args i l
    | none =>
      match handlePrefixedOrGroupedOption P sub.optionsMap argName l.errorParsing l.st with
      | none => none
      | some g =>
        let l := { l with st := g.st, errorParsing := g.errorParsing }
        match g.split with
        | some s => handleOption P s a args i l
        | none => some (.go 0 (unknownArgument P sub argv0 a i l))

def isPositionalText (a : Str) : Bool := a.head? ≠ some '-' || a = ['-']

/-- A round of the loop. -/
def step (sub : SubCommand ι) (numPositionalRequired : Nat) (argv0 a : Str) (args : List Str) (i : Nat)
    (l : Loop ι) : Option (Next ι) :=
  if isPositionalText a || l.dashDashFound then
    positionalStep P sub numPositionalRequired argv0 a args i l
  else if a = ['-', '-'] then some (.go 0 { l with dashDashFound := true })
  else dashStep P sub argv0 a args i l

/-- How the loop ends. -/
inductive LoopEnd (ι : Type) where
  | done (l : Loop ι)
  | sub (i : Nat) (l : Loop ι)

/-- The loop over the arguments from `i` on. `skip` of them were taken already. -/
def argLoop (sub : SubCommand ι) (numPositionalRequired : Nat) (argv0 : Str) :
    Nat → Nat → List Str → Loop ι → Option (LoopEnd ι)
  | _, _, [], l => some (.done l)
  | skip + 1, i, _ :: args, l => argLoop sub numPositionalRequired argv0 skip (i + 1) args l
  | 0, i, a :: args, l =>
    match step P sub numPositionalRequired argv0 a args i l with
    | none => none
    | some (.go taken l) => argLoop sub numPositionalRequired argv0 taken (i + 1) args l
    | some (.stop l) => some (.done l)
    | some (.sub l) => some (.sub i l)

/-! ## Positional arguments -/

omit [DecidableEq ι] in
def requiresValue (o : ι) : Bool :=
  (P.opt o).numOccurrencesFlag = .required || (P.opt o).numOccurrencesFlag = .oneOrMore

omit [DecidableEq ι] in
def eatsUnboundedNumberOfValues (o : ι) : Bool :=
  (P.opt o).numOccurrencesFlag = .zeroOrMore || (P.opt o).numOccurrencesFlag = .oneOrMore

/-- The inner loop that gives an option more values, while there are more than others need. The switch of
the source has no case for `ConsumeAfter`. -/
def giveMore (o : ι) (numPositionalRequired : Nat) : List (Str × Nat) → Bool → St ι →
    Option (List (Str × Nat) × St ι)
  | [], _, st => some ([], st)
  | v :: vals, done, st =>
    if (v :: vals).length > numPositionalRequired ∧ done = false then
      match (P.opt o).numOccurrencesFlag with
      | .optional =>
        (providePositionalOption P o v.1 v.2 st).bind fun p => giveMore o numPositionalRequired vals true p.st
      | .zeroOrMore | .oneOrMore =>
        (providePositionalOption P o v.1 v.2 st).bind fun p => giveMore o numPositionalRequired vals done p.st
      | .required | .consumeAfter => none
    else some (v :: vals, st)

/-- The loop that gives the positional options their values, where no option consumes what is behind
them. -/
def distribute : List ι → Nat → List (Str × Nat) → St ι → Option (St ι)
  | [], _, _, st => some st
  | o :: opts, numPositionalRequired, vals, st =>
    let done := decide ((P.opt o).numOccurrencesFlag = .required)
    if requiresValue P o then
      match vals with
      | [] => none
      | v :: vals =>
        (providePositionalOption P o v.1 v.2 st).bind fun p =>
          (giveMore P o (numPositionalRequired - 1) vals done p.st).bind fun r =>
            distribute opts (numPositionalRequired - 1) r.1 r.2
    else
      (giveMore P o numPositionalRequired vals done st).bind fun r =>
        distribute opts numPositionalRequired r.1 r.2

/-- One value for each of the options that require one. -/
def giveRequired : List ι → List (Str × Nat) → Bool → St ι → Option (List (Str × Nat) × Bool × St ι)
  | [], vals, errorParsing, st => some (vals, errorParsing, st)
  | o :: opts, vals, errorParsing, st =>
    if requiresValue P o then
      match vals with
      | [] => none
      | v :: vals =>
        (providePositionalOption P o v.1 v.2 st).bind fun p =>
          giveRequired opts vals (errorParsing || p.failed) p.st
    else giveRequired opts vals errorParsing st

/-- All values to one option. -/
def giveAll (o : ι) : List (Str × Nat) → Bool → St ι → Option (Bool × St ι)
  | [], errorParsing, st => some (errorParsing, st)
  | v :: vals, errorParsing, st =>
    (providePositionalOption P o v.1 v.2 st).bind fun p => giveAll o vals (errorParsing || p.failed) p.st

/-- The values where `consumeAfter` consumes the rest. The loop over the options starts with the second
one. -/
def consume (consumeAfter : ι) (opts : List ι) (vals : List (Str × Nat)) (errorParsing : Bool)
    (st : St ι) : Option (Bool × St ι) :=
  (giveRequired P opts.tail vals errorParsing st).bind fun (rest, errorParsing, st) =>
    match opts, rest with
    | [o], v :: rest' =>
      if rest.length = vals.length then
        (providePositionalOption P o v.1 v.2 st).bind fun p =>
          giveAll P consumeAfter rest' (errorParsing || p.failed) p.st
      else giveAll P consumeAfter rest errorParsing st
    | _, _ => giveAll P consumeAfter rest errorParsing st

/-- What is collected about the positional options. -/
structure Required (ι : Type) where
  numPositionalRequired : Nat
  unboundedFound : Bool
  errorParsing : Bool
  st : St ι

omit [DecidableEq ι] in
/-- Whether one positional option needs a value, or can never get one. With `ignoreErrors`, the error of the
option is not written. -/
def collectNeed (sub : SubCommand ι) (ignoreErrors : Bool) (r : Required ι) (o : ι) : Required ι :=
  if requiresValue P o then { r with numPositionalRequired := r.numPositionalRequired + 1 }
  else if sub.consumeAfterOpt.isSome then
    if sub.positionalOpts.length > 1 then
      { r with
        errorParsing := true
        st := if ignoreErrors then r.st else error P o ("error - this positional option will never be " ++
          "matched, because it does not Require a value, and a cl::ConsumeAfter option is " ++
          "active!").toList none r.st }
    else r
  else if r.unboundedFound ∧ (P.opt o).argStr = [] then
    let st := if ignoreErrors then r.st else error P o ("error - option can never match, because another " ++
      "positional argument will match an unbounded number of values, and this option does not require a " ++
      "value!").toList none r.st
    { r with
      errorParsing := true
      st := (st.write (st.programName ++ ": CommandLine Error: Option '".toList ++ (P.opt o).argStr ++
        "' is all messed up!\n".toList)).write (decimalStr sub.positionalOpts.length) }
  else r

omit [DecidableEq ι] in
/-- One positional option. -/
def collectOne (sub : SubCommand ι) (ignoreErrors : Bool) (r : Required ι) (o : ι) : Required ι :=
  let r := collectNeed P sub ignoreErrors r o
  { r with unboundedFound := r.unboundedFound || eatsUnboundedNumberOfValues P o }

omit [DecidableEq ι] in
/-- The loop that collects information about the positional options. -/
def collect (sub : SubCommand ι) (ignoreErrors : Bool) (st : St ι) : Required ι :=
  sub.positionalOpts.foldl (collectOne P sub ignoreErrors) ⟨0, false, false, st⟩

/-- The positional arguments, behind the loop over all arguments. -/
def handlePositional (sub : SubCommand ι) (r : Required ι) (argv0 : Str) (l : Loop ι) :
    Option (Bool × St ι) :=
  let hasUnlimitedPositionals := r.unboundedFound || sub.consumeAfterOpt.isSome
  if r.numPositionalRequired > l.positionalVals.length then
    some (true, l.st.write (l.st.programName ++
      ": Not enough positional command line arguments specified!\nMust specify at least ".toList ++
      decimalStr r.numPositionalRequired ++ " positional argument".toList ++
      (if r.numPositionalRequired > 1 then "s".toList else []) ++ ": See: ".toList ++ argv0 ++
      " --help\n".toList))
  else if hasUnlimitedPositionals = false ∧ l.positionalVals.length > sub.positionalOpts.length then
    some (true, l.st.write (l.st.programName ++
      ": Too many positional arguments specified!\nCan specify at most ".toList ++
      decimalStr sub.positionalOpts.length ++ " positional arguments: See: ".toList ++ argv0 ++
      " --help\n".toList))
  else
    match sub.consumeAfterOpt with
    | none =>
      (distribute P sub.positionalOpts r.numPositionalRequired l.positionalVals l.st).map fun st =>
        (l.errorParsing, st)
    | some c => consume P c sub.positionalOpts l.positionalVals l.errorParsing l.st

omit [DecidableEq ι] in
/-- Make sure all required args are specified. -/
def checkRequired : List (Str × ι) → Bool → St ι → Bool × St ι
  | [], errorParsing, st => (errorParsing, st)
  | (_, o) :: optionsMap, errorParsing, st =>
    if requiresValue P o ∧ st.numOccurrences o = 0 then
      checkRequired optionsMap true (error P o "must be specified at least once!".toList none st)
    else checkRequired optionsMap errorParsing st

/-! ## The parser -/

/-- How a run for one subcommand ends: it returns, or it goes on with a subcommand that was found at an
argument. -/
inductive Level (ι : Type) where
  | finished (ok : Bool) (st : St ι)
  | again (i : Nat) (st : St ι)

/-- A subcommand and the first argument that is for it. -/
def chooseSubCommand (argv : List Str) (firstArg : Nat) : Option (SubCommand ι × Nat) :=
  if argv.length ≥ 2 then
    match argv[firstArg]? with
    | none => none
    | some a =>
      if a.head? ≠ some '-' then
        match lookupSubCommand P a with
        | some sub => some (sub, firstArg + 1)
        | none => some (P.topLevel, firstArg)
      else some (P.topLevel, firstArg)
  else some (P.topLevel, firstArg)

/-- `ParseCommandLineOptions` for a subcommand, with the arguments expanded. -/
def parseFor (ignoreErrors : Bool) (sub : SubCommand ι) (argv : List Str) (firstArg : Nat) (st : St ι) :
    Option (Level ι) :=
  let argv0 := argv.headD []
  if sub.consumeAfterOpt.isSome ∧ sub.positionalOpts = [] then none
  else
    let r := collect P sub ignoreErrors st
    match argLoop P sub r.numPositionalRequired argv0 0 firstArg (argv.drop firstArg)
      ⟨r.st, [], none, false, r.errorParsing⟩ with
    | none => none
    | some (.sub i l) => some (.again i l.st)
    | some (.done l) =>
      (handlePositional P sub r argv0 l).map fun p =>
        -- an error before the positional arguments stays one
        let c := checkRequired P sub.optionsMap (l.errorParsing || p.1) p.2
        .finished (!c.1) c.2

/-- What becomes of the caller: it gets a result, or the program ends with `exit(1)`. -/
inductive Answer where
  | returned (ok : Bool)
  | exit
deriving DecidableEq, Repr

def answer (ignoreErrors ok : Bool) : Answer :=
  if ok = false ∧ ignoreErrors = false then .exit else .returned ok

omit [DecidableEq ι] in
/-- The arguments, where none of them is null. -/
def withoutNull : List Arg → Option (List Str)
  | [] => some []
  | none :: _ => none
  | some a :: argv => (withoutNull argv).map (a :: ·)

/-- `ParseCommandLineOptions`, with the settings that `@@file` loads. It calls itself where it finds a
subcommand behind other arguments, and then with an error stream; `n` is how often it can. -/
def parseCommandLineOptions {σ : Type} (env : Env σ) (tokenizer : Tokenizer) :
    Nat → Bool → List Str → Nat → σ → St ι → Option (Answer × σ × St ι)
  | 0, _, _, _, _, _ => none
  | n + 1, ignoreErrors, argv, firstArg, settings, st => do
    let e ← expandResponseFiles env tokenizer false false settings (argv.map some)
    let argv ← withoutNull e.argv
    let argv0 ← argv.head?
    let (sub, firstArg) ← chooseSubCommand P argv firstArg
    match ← parseFor P ignoreErrors sub argv firstArg { st with programName := env.filename argv0 } with
    | .finished ok st => some (answer ignoreErrors ok, e.settings, st)
    | .again i st => parseCommandLineOptions env tokenizer n true argv i e.settings st

end

/-! ## An example -/

inductive Sample where
  | output
  | verbose
  | quiet
  | source
  | target
  | command
deriving DecidableEq, Repr

/-- `copy SOURCE TARGET...` -/
def copyCommand : SubCommand Sample := ⟨"copy".toList, [.source, .target], [], [], none⟩

/-- `exec SOURCE TARGET COMMAND...` -/
def execCommand : SubCommand Sample := ⟨"exec".toList, [.source, .target], [], [], some .command⟩

/-- A program `tool -o FILE [-vq]` with two subcommands. -/
def sample : CommandLineParser Sample where
  opt
    | .output => ⟨['o'], [], .required, .valueRequired, .normalFormatting, ⟨false, false, false, false⟩, 0,
        none, fun _ _ => none⟩
    | .verbose => ⟨['v'], [], .optional, .valueDisallowed, .grouping, ⟨false, false, false, false⟩, 0,
        none, fun _ _ => none⟩
    | .quiet => ⟨['q'], [], .optional, .valueDisallowed, .grouping, ⟨false, false, false, false⟩, 0,
        none, fun _ _ => none⟩
    | .source => ⟨[], ['s'], .required, .valueRequired, .positional, ⟨false, false, false, false⟩, 0,
        none, fun _ _ => none⟩
    | .target => ⟨[], ['t'], .oneOrMore, .valueRequired, .positional, ⟨false, false, false, false⟩, 0,
        none, fun _ _ => none⟩
    | .command => ⟨[], ['c'], .consumeAfter, .valueRequired, .normalFormatting,
        ⟨false, false, false, false⟩, 0, none, fun _ _ => none⟩
  topLevel := ⟨[], [], [], [(['o'], .output), (['v'], .verbose), (['q'], .quiet)], none⟩
  subCommands := [copyCommand, execCommand]

/-- `tool -vq -o out` -/
def sampleArgv : List Str := ["tool".toList, "-vq".toList, "-o".toList, "out".toList]

example : (parseFor sample true sample.topLevel sampleArgv 1 .fresh).map
    (fun | .finished ok st => (ok, st.handled.map Occurrence.value) | .again _ _ => (false, [])) =
      some (true, [[], [], "out".toList]) := by decide

end Primitives.CommandLine
