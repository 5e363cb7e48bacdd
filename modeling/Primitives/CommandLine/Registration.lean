import Mathlib.Algebra.BigOperators.Pi
import Mathlib.Algebra.Order.Group.Multiset
import Primitives.CommandLine.Model
import Primitives.Lib.Fallible
import Primitives.Lib.Upsert

/-!
# Registration of options

Options and subcommands register themselves before the parser runs, in the order in which their
constructors are called. An option is added to its subcommands (`Subs`), or to the top level if it has none.
What is added to `getAllSubCommands` is added to the registered subcommands too, and to the others when they
are registered.

So the order should not matter, and it does not for options that `getAllSubCommands` has a name for, or that
are neither positional nor sinks nor consume what follows (`any_order`, `found_iff`).

Where the program ends with a fatal error, or an assertion fails, there is no result. How the two hash tables
order what is in them is a parameter of the model.
-/

set_option autoImplicit false

namespace Primitives.CommandLine

open Lib

/-! ## The parser before it runs -/

/-- What a program declares. -/
structure Program (κ ι : Type) where
  opt : ι → Opt ι
  /-- `Subs`, in the order of the set. -/
  subs : ι → List κ
  subs_nodup : ∀ o, (subs o).Nodup
  name : κ → Str
  getTopLevelSubCommand : κ
  getAllSubCommands : κ
  ne : getTopLevelSubCommand ≠ getAllSubCommands
  name_getTopLevelSubCommand : name getTopLevelSubCommand = []
  name_getAllSubCommands : name getAllSubCommands = []
  /-- The order of `RegisteredSubCommands`. -/
  subOrder : List κ → List κ
  subOrder_perm : ∀ l, (subOrder l).Perm l
  /-- The order of an `OptionsMap`. -/
  mapOrder : List (Str × ι) → List (Str × ι)
  mapOrder_perm : ∀ l, (mapOrder l).Perm l

/-- `CommandLineParser`, with the subcommands. -/
structure Registry (κ ι : Type) where
  subs : κ → SubCommand ι
  registeredSubCommands : List κ
  ignoreDuplicateCommandLineOptions : Bool

variable {κ ι : Type}

/-- `insert_option`: whether the name is new. -/
def insertOption (optionsMap : List (Str × ι)) (name : Str) (o : ι) : Bool × List (Str × ι) :=
  if (optionsMap.lookup name).isSome then (false, optionsMap) else (true, optionsMap ++ [(name, o)])

/-- What a subcommand is told: an option, or a name of an option that has none itself. -/
inductive Tell (ι : Type) where
  | option (o : ι)
  | literal (o : ι) (name : Str)
deriving DecidableEq, Repr

section

variable (P : Program κ ι)

def hasArgStr (o : ι) : Bool := (P.opt o).argStr ≠ []

def isPositional (o : ι) : Bool := (P.opt o).formattingFlag = .positional

def isSink (o : ι) : Bool := (P.opt o).miscFlags.sink

def isConsumeAfter (o : ι) : Bool := (P.opt o).numOccurrencesFlag = .consumeAfter

/-- The parser does not need a name to use it. -/
def isSpecial (o : ι) : Bool := isPositional P o || isSink P o || isConsumeAfter P o

/-- `addOption` for a subcommand. There is no result where the program ends with a fatal error. -/
def SubCommand.addOption (ignoreDuplicates : Bool) (o : ι) (sub : SubCommand ι) :
    Option (SubCommand ι) :=
  let r := if hasArgStr P o then insertOption sub.optionsMap (P.opt o).argStr o else (true, sub.optionsMap)
  let sub := { sub with optionsMap := r.2 }
  if r.1 = false ∧ ignoreDuplicates = false then none
  else if isPositional P o then some { sub with positionalOpts := sub.positionalOpts ++ [o] }
  else if isSink P o then some { sub with sinkOpts := sub.sinkOpts ++ [o] }
  else if isConsumeAfter P o then
    if sub.consumeAfterOpt.isSome then none else some { sub with consumeAfterOpt := some o }
  else some sub

/-- `addLiteralOption` for a subcommand. -/
def SubCommand.addLiteralOption (ignoreDuplicates : Bool) (o : ι) (name : Str) (sub : SubCommand ι) :
    Option (SubCommand ι) :=
  if hasArgStr P o then some sub
  else
    let r := insertOption sub.optionsMap name o
    if r.1 = false ∧ ignoreDuplicates = false then none else some { sub with optionsMap := r.2 }

def SubCommand.tell (ignoreDuplicates : Bool) (sub : SubCommand ι) : Tell ι → Option (SubCommand ι)
  | .option o => sub.addOption P ignoreDuplicates o
  | .literal o name => sub.addLiteralOption P ignoreDuplicates o name

variable [DecidableEq κ]

/-- One subcommand is told something. -/
def Registry.tell (s : Registry κ ι) (k : κ) (t : Tell ι) : Option (Registry κ ι) :=
  ((s.subs k).tell P s.ignoreDuplicateCommandLineOptions t).map fun sub =>
    { s with subs := Function.update s.subs k sub }

/-- `addOption` and `addLiteralOption` with a subcommand: what `getAllSubCommands` is told, the registered
subcommands are told too. -/
def Registry.addTo (s : Registry κ ι) (k : κ) (t : Tell ι) : Option (Registry κ ι) := do
  let s ← s.tell P k t
  if k = P.getAllSubCommands then
    (P.subOrder s.registeredSubCommands).foldlM
      (fun s k' => if k' = k then some s else s.tell P k' t) s
  else some s

/-- The subcommands that an option is added to. -/
def Program.subsOf (o : ι) : List κ := if P.subs o = [] then [P.getTopLevelSubCommand] else P.subs o

/-- `addOption` and `addLiteralOption`. -/
def Registry.add (s : Registry κ ι) (o : ι) (t : Tell ι) : Option (Registry κ ι) :=
  (P.subsOf o).foldlM (fun s k => s.addTo P k t) s

/-- What a subcommand that is registered is told about an entry of `getAllSubCommands`. -/
def tellOf (e : Str × ι) : Tell ι :=
  if isSpecial P e.2 || hasArgStr P e.2 then .option e.2
  else .literal e.2 e.1

/-- `registerSubCommand` -/
def Registry.registerSubCommand (s : Registry κ ι) (k : κ) : Option (Registry κ ι) :=
  -- the assertion that there is no other one of this name
  if s.registeredSubCommands.any fun k' => P.name k ≠ [] ∧ P.name k' = P.name k then none
  else
    let s := { s with registeredSubCommands := s.registeredSubCommands.insert k }
    if k = P.getAllSubCommands then some s
    else
      (P.mapOrder (s.subs P.getAllSubCommands).optionsMap).foldlM
        (fun s e => s.addTo P k (tellOf P e)) s

/-- The constructor of `CommandLineParser` registers the two special subcommands. -/
def Registry.init : Registry κ ι :=
  ⟨fun k => ⟨P.name k, [], [], [], none⟩, [P.getTopLevelSubCommand, P.getAllSubCommands], false⟩

/-- What constructors call. -/
inductive Call (κ ι : Type) where
  | addOption (o : ι)
  | addLiteralOption (o : ι) (name : Str)
  | registerSubCommand (k : κ)
deriving DecidableEq, Repr

def Registry.call (s : Registry κ ι) : Call κ ι → Option (Registry κ ι)
  | .addOption o => s.add P o (.option o)
  | .addLiteralOption o name => s.add P o (.literal o name)
  | .registerSubCommand k => s.registerSubCommand P k

def Registry.run (s : Registry κ ι) (calls : List (Call κ ι)) : Option (Registry κ ι) :=
  calls.foldlM (fun s c => s.call P c) s

end

/-- The subcommands of `sample`, and the one for all of them. -/
inductive SampleSub where
  | topLevel
  | all
  | copy
  | exec
deriving DecidableEq, Repr

/-- The options of `sample`. All subcommands have `-v` and `-q` and the source. -/
def sampleProgram : Program SampleSub Sample where
  opt := sample.opt
  subs
    | .output => []
    | .verbose | .quiet | .source => [.all]
    | .target => [.copy, .exec]
    | .command => [.exec]
  subs_nodup := fun o => by cases o <;> decide
  name
    | .topLevel | .all => []
    | .copy => copyCommand.name
    | .exec => execCommand.name
  getTopLevelSubCommand := .topLevel
  getAllSubCommands := .all
  ne := by decide
  name_getTopLevelSubCommand := rfl
  name_getAllSubCommands := rfl
  subOrder := id
  subOrder_perm := fun _ => .refl _
  mapOrder := id
  mapOrder_perm := fun _ => .refl _

def sampleCalls : List (Call SampleSub Sample) :=
  [.addOption .output, .registerSubCommand .copy, .addOption .verbose, .addOption .target,
    .registerSubCommand .exec, .addOption .command]

/-! ## What a subcommand holds -/

/-- The names, the positional options, the sinks and the options that consume what follows, in no order. -/
abbrev Contents (ι : Type) := Multiset (Str × ι) × Multiset ι × Multiset ι × Multiset ι

/-- No two options have one name, and one at most consumes what follows. -/
def Contents.Good (c : Contents ι) : Prop := (c.1.map Prod.fst).Nodup ∧ c.2.2.2.card ≤ 1

def SubCommand.contents (sub : SubCommand ι) : Contents ι :=
  (sub.optionsMap, sub.positionalOpts, sub.sinkOpts, sub.consumeAfterOpt.toList)

variable (P : Program κ ι)

/-- What a subcommand holds of an option by itself. -/
def optionContents (o : ι) : Contents ι :=
  if isPositional P o then (0, {o}, 0, 0)
  else if isSink P o then (0, 0, {o}, 0)
  else if isConsumeAfter P o then (0, 0, 0, {o})
  else 0

/-- What a subcommand holds more when it is told something. -/
def Tell.contents : Tell ι → Contents ι
  | .option o => (if hasArgStr P o then {((P.opt o).argStr, o)} else 0, 0, 0, 0) + optionContents P o
  | .literal o name => (if hasArgStr P o then 0 else {(name, o)}, 0, 0, 0)

variable {P} {sub : SubCommand ι}

theorem Contents.Good.of_le {c d : Contents ι} (h : d.Good) (hle : c ≤ d) : c.Good :=
  ⟨Multiset.nodup_of_le (Multiset.map_le_map hle.1) h.1, (Multiset.card_le_card hle.2.2.2).trans h.2⟩

theorem Contents.le_add (c d : Contents ι) : c ≤ c + d :=
  ⟨Multiset.le_add_right _ _, Multiset.le_add_right _ _, Multiset.le_add_right _ _,
    Multiset.le_add_right _ _⟩

theorem Contents.add_mono {c c' d d' : Contents ι} (h : c ≤ c') (h' : d ≤ d') : c + d ≤ c' + d' :=
  ⟨add_le_add h.1 h'.1, add_le_add h.2.1 h'.2.1, add_le_add h.2.2.1 h'.2.2.1, add_le_add h.2.2.2 h'.2.2.2⟩

theorem not_mem_of_lookup {optionsMap : List (Str × ι)} {name : Str} (h : optionsMap.lookup name = none) :
    name ∉ optionsMap.map Prod.fst := by
  rintro hmem
  obtain ⟨e, he, rfl⟩ := List.mem_map.mp hmem
  exact bne_iff_ne.mp (List.lookup_eq_none_iff.mp h e he) rfl

theorem insertOption_spec {optionsMap : List (Str × ι)} (name : Str) (o : ι)
    (h : (optionsMap.map Prod.fst).Nodup) :
    ((insertOption optionsMap name o).1 = true ↔
        (((optionsMap : Multiset (Str × ι)) + {(name, o)}).map Prod.fst).Nodup) ∧
      ((insertOption optionsMap name o).1 = true →
        ((insertOption optionsMap name o).2 : Multiset (Str × ι)) = optionsMap + {(name, o)}) := by
  have hnodup : (((optionsMap : Multiset (Str × ι)) + {(name, o)}).map Prod.fst).Nodup ↔
      optionsMap.lookup name = none := by
    rw [add_comm, Multiset.singleton_add, Multiset.map_cons, Multiset.nodup_cons, Multiset.map_coe,
      Multiset.mem_coe, Multiset.coe_nodup, and_iff_left h]
    exact ⟨lookup_of_not_mem, not_mem_of_lookup⟩
  rw [hnodup, insertOption]
  cases hlookup : optionsMap.lookup name with
  | none => exact ⟨iff_of_true rfl rfl, fun _ => (Multiset.coe_add _ _).symm⟩
  | some o' => exact ⟨iff_of_false Bool.false_ne_true (Option.some_ne_none o'), fun h => by cases h⟩

/-- The name of an option, if it has one, goes into the map. -/
theorem insertArgStr_spec (h : (sub.optionsMap.map Prod.fst).Nodup) (o : ι) :
    let names : Multiset (Str × ι) := sub.optionsMap + if hasArgStr P o then {((P.opt o).argStr, o)} else 0
    let r := if hasArgStr P o then insertOption sub.optionsMap (P.opt o).argStr o
      else (true, sub.optionsMap)
    (r.1 = true ↔ (names.map Prod.fst).Nodup) ∧ (r.1 = true → (r.2 : Multiset (Str × ι)) = names) := by
  by_cases hname : hasArgStr P o = true
  · simp only [if_pos hname]
    exact insertOption_spec _ o h
  · simp only [if_neg hname, add_zero, Multiset.map_coe, Multiset.coe_nodup]
    exact ⟨iff_of_true trivial h, fun _ => trivial⟩

/-- An option without its name. -/
theorem placeOption_spec (hgood : sub.contents.Good) (o : ι) :
    ResultIff
      (if isPositional P o then some { sub with positionalOpts := sub.positionalOpts ++ [o] }
        else if isSink P o then some { sub with sinkOpts := sub.sinkOpts ++ [o] }
        else if isConsumeAfter P o then
          if sub.consumeAfterOpt.isSome then none else some { sub with consumeAfterOpt := some o }
        else some sub)
      (sub.contents + optionContents P o).Good fun sub' =>
        sub'.contents = sub.contents + optionContents P o ∧ sub'.name = sub.name := by
  have hkept : ∀ x y : Multiset ι, (sub.contents + (0, x, y, 0)).Good := by
    intro x y
    refine ⟨?_, ?_⟩
    · show (((sub.optionsMap : Multiset (Str × ι)) + 0).map Prod.fst).Nodup
      rw [add_zero]
      exact hgood.1
    · show ((sub.consumeAfterOpt.toList : Multiset ι) + 0).card ≤ 1
      rw [add_zero]
      exact hgood.2
  rw [optionContents]
  split
  · refine .of_some (hkept {o} 0) ⟨?_, rfl⟩
    simp [SubCommand.contents, ← Multiset.coe_add]
  · split
    · refine .of_some (hkept 0 {o}) ⟨?_, rfl⟩
      simp [SubCommand.contents, ← Multiset.coe_add]
    · split
      · cases hafter : sub.consumeAfterOpt with
        | none =>
          refine .of_some ⟨?_, ?_⟩ ⟨?_, rfl⟩
          · show (((sub.optionsMap : Multiset (Str × ι)) + 0).map Prod.fst).Nodup
            rw [add_zero]
            exact hgood.1
          · simp [SubCommand.contents, hafter]
          · simp [SubCommand.contents, hafter]
        | some o' =>
          refine .of_none fun hgood' => ?_
          have hcard := hgood'.2
          simp [SubCommand.contents, hafter] at hcard
      · rw [add_zero]
        exact .of_some hgood ⟨rfl, rfl⟩

theorem addOption_spec (hgood : sub.contents.Good) (o : ι) :
    ResultIff (sub.addOption P false o) (sub.contents + (Tell.option o).contents P).Good fun sub' =>
      sub'.contents = sub.contents + (Tell.option o).contents P ∧ sub'.name = sub.name := by
  obtain ⟨hiff, hnames⟩ := insertArgStr_spec (P := P) hgood.1 o
  have hcons : ((sub.consumeAfterOpt.toList : Multiset ι) + 0).card ≤ 1 := by
    rw [add_zero]
    exact hgood.2
  rw [SubCommand.addOption, Tell.contents, ← add_assoc]
  dsimp only at hiff hnames ⊢
  generalize (if hasArgStr P o then insertOption sub.optionsMap (P.opt o).argStr o
    else (true, sub.optionsMap)) = r at hiff hnames ⊢
  cases hr : r.1 with
  | false =>
    rw [if_pos ⟨rfl, rfl⟩]
    refine .of_none fun hgood' => ?_
    have hok := hiff.mpr (hgood'.of_le (Contents.le_add _ _)).1
    rw [hr] at hok
    cases hok
  | true =>
    have hcontents : ({ sub with optionsMap := r.2 } : SubCommand ι).contents =
        sub.contents + (if hasArgStr P o then {((P.opt o).argStr, o)} else 0, 0, 0, 0) := by
      simp [SubCommand.contents, hnames hr]
    rw [if_neg (by simp), ← hcontents]
    refine placeOption_spec ?_ o
    rw [hcontents]
    exact ⟨hiff.mp hr, hcons⟩

theorem addLiteralOption_spec (hgood : sub.contents.Good) (o : ι) (name : Str) :
    ResultIff (sub.addLiteralOption P false o name)
      (sub.contents + (Tell.literal o name).contents P).Good fun sub' =>
        sub'.contents = sub.contents + (Tell.literal o name).contents P ∧ sub'.name = sub.name := by
  rw [SubCommand.addLiteralOption, Tell.contents]
  split
  · have hzero : sub.contents + (0, 0, 0, 0) = sub.contents := add_zero _
    rw [hzero]
    exact .of_some hgood ⟨rfl, rfl⟩
  · obtain ⟨hiff, hnames⟩ := insertOption_spec name o hgood.1
    dsimp only
    cases hr : (insertOption sub.optionsMap name o).1 with
    | false =>
      rw [if_pos ⟨rfl, rfl⟩]
      refine .of_none fun hgood' => ?_
      rw [hiff.mpr hgood'.1] at hr
      cases hr
    | true =>
      rw [if_neg (by simp)]
      refine .of_some ⟨hiff.mp hr, ?_⟩ ⟨?_, rfl⟩
      · show ((sub.consumeAfterOpt.toList : Multiset ι) + 0).card ≤ 1
        rw [add_zero]
        exact hgood.2
      · simp [SubCommand.contents, hnames hr]

/-- **What a subcommand is told, it holds.** It is a fatal error if then two options had one name, or two of
them consumed what follows. -/
theorem tell_spec (hgood : sub.contents.Good) (t : Tell ι) :
    ResultIff (sub.tell P false t) (sub.contents + t.contents P).Good fun sub' =>
      sub'.contents = sub.contents + t.contents P ∧ sub'.name = sub.name := by
  cases t with
  | option o => exact addOption_spec hgood o
  | literal o name => exact addLiteralOption_spec hgood o name

/-! ## What a call adds -/

variable {c d : κ → Contents ι} {r : List κ} {s : Registry κ ι}

def AllGood (c : κ → Contents ι) : Prop := ∀ k, (c k).Good

theorem AllGood.of_add (h : AllGood (c + d)) : AllGood c := fun k => (h k).of_le (Contents.le_add _ _)

/-- The registered subcommands and what each subcommand holds. -/
structure Registry.Holds (P : Program κ ι) (c : κ → Contents ι) (r : List κ) (s : Registry κ ι) :
    Prop where
  contents : ∀ k, (s.subs k).contents = c k
  name : ∀ k, (s.subs k).name = P.name k
  registered : s.registeredSubCommands = r
  ignoreDuplicates : s.ignoreDuplicateCommandLineOptions = false

theorem foldl_add {M α : Type} [AddCommMonoid M] (f : α → M) (l : List α) (c : M) :
    l.foldl (fun c a => c + f a) c = c + (l.map f).sum := by
  induction l generalizing c with
  | nil => exact (add_zero c).symm
  | cons a l ih => rw [List.foldl_cons, ih, List.map_cons, List.sum_cons, add_assoc]

/-- A fold of steps each of which adds something. -/
theorem foldlM_adds {α : Type} {f : Registry κ ι → α → Option (Registry κ ι)} {g : α → κ → Contents ι}
    {l : List α} (h : s.Holds P c r) (hgood : AllGood c)
    (hstep : ∀ c s a, a ∈ l → s.Holds P c r → AllGood c →
      ResultIff (f s a) (AllGood (c + g a)) (Registry.Holds P (c + g a) r)) :
    ResultIff (l.foldlM f s) (AllGood (c + (l.map g).sum)) (Registry.Holds P (c + (l.map g).sum) r) := by
  rw [← foldl_add]
  exact .foldlM (R := fun c => Registry.Holds P c r) (fun c a hg => hg.of_add) hstep h hgood

variable [DecidableEq κ]

theorem Registry.tell_spec (h : s.Holds P c r) (hgood : AllGood c) (k : κ) (t : Tell ι) :
    ResultIff (s.tell P k t) (AllGood (c + Pi.single k (t.contents P)))
      (Registry.Holds P (c + Pi.single k (t.contents P)) r) := by
  have hsub : (s.subs k).contents.Good := h.contents k ▸ hgood k
  have hspec := CommandLine.tell_spec (P := P) hsub t
  have hiff : AllGood (c + Pi.single k (t.contents P)) ↔ ((s.subs k).contents + t.contents P).Good := by
    constructor
    · intro hg
      have hk := hg k
      rwa [Pi.add_apply, Pi.single_eq_same, ← h.contents k] at hk
    · intro hg j
      by_cases hj : j = k
      · rw [hj, Pi.add_apply, Pi.single_eq_same, ← h.contents k]
        exact hg
      · rw [Pi.add_apply, Pi.single_eq_of_ne hj, add_zero]
        exact hgood j
  rw [Registry.tell, h.ignoreDuplicates]
  refine ⟨?_, fun s' hs' => ?_⟩
  · rw [Option.isSome_map, hiff]
    exact hspec.isSome_iff
  · obtain ⟨sub, hsub', rfl⟩ := Option.map_eq_some_iff.mp hs'
    obtain ⟨hcontents, hname⟩ := hspec.post sub hsub'
    refine ⟨fun j => ?_, fun j => ?_, h.registered, rfl⟩
    · show (Function.update s.subs k sub j).contents = _
      by_cases hj : j = k
      · rw [hj, Function.update_self, hcontents, h.contents, Pi.add_apply, Pi.single_eq_same]
      · rw [Function.update_of_ne hj, h.contents, Pi.add_apply, Pi.single_eq_of_ne hj, add_zero]
    · show (Function.update s.subs k sub j).name = _
      by_cases hj : j = k
      · rw [hj, Function.update_self, hname, h.name]
      · rw [Function.update_of_ne hj, h.name]

/-- What `addTo` adds for a subcommand. -/
def added (P : Program κ ι) (r : List κ) (x : Contents ι) (k : κ) : κ → Contents ι :=
  Pi.single k x + if k = P.getAllSubCommands then
    ((P.subOrder r).map fun k' => if k' = k then 0 else Pi.single k' x).sum else 0

theorem Registry.addTo_spec (h : s.Holds P c r) (hgood : AllGood c) (k : κ) (t : Tell ι) :
    ResultIff (s.addTo P k t) (AllGood (c + added P r (t.contents P) k))
      (Registry.Holds P (c + added P r (t.contents P) k) r) := by
  rw [added, ← add_assoc, Registry.addTo]
  refine (Registry.tell_spec h hgood k t).bind AllGood.of_add fun hgood' s' h' => ?_
  split
  · rw [h'.registered]
    refine foldlM_adds h' hgood' fun c s k' _ h hgood => ?_
    split
    · rw [add_zero]
      exact .of_some hgood h
    · exact Registry.tell_spec h hgood k' t
  · rw [add_zero]
    exact .of_some hgood' h'

theorem Registry.add_spec (h : s.Holds P c r) (hgood : AllGood c) (o : ι) (t : Tell ι) :
    ResultIff (s.add P o t) (AllGood (c + ((P.subsOf o).map (added P r (t.contents P))).sum))
      (Registry.Holds P (c + ((P.subsOf o).map (added P r (t.contents P))).sum) r) :=
  foldlM_adds h hgood fun _ _ k _ h hgood => Registry.addTo_spec h hgood k t

omit [DecidableEq κ] in
theorem subsOf_nodup (P : Program κ ι) (o : ι) : (P.subsOf o).Nodup := by
  rw [Program.subsOf]
  split
  · exact List.nodup_singleton _
  · exact P.subs_nodup o

/-- A sum with one term that is not zero. -/
theorem sum_only {M : Type} [AddCommMonoid M] {l : List κ} (hl : l.Nodup) {f : κ → M} {j : κ}
    (h : ∀ k, k ≠ j → k ∈ l → f k = 0) : (l.map f).sum = if j ∈ l then f j else 0 := by
  rw [List.sum_map_eq_nsmul_single j f h, hl.count]
  split
  · exact one_nsmul _
  · exact zero_nsmul _

theorem added_apply (hr : r.Nodup) (x : Contents ι) (k j : κ) : added P r x k j =
    (if j = k then x else 0) +
      if k = P.getAllSubCommands then (if j ∈ r ∧ j ≠ P.getAllSubCommands then x else 0) else 0 := by
  rw [added, Pi.add_apply, Pi.single_apply]
  congr 1
  split
  · rename_i hk
    rw [Pi.list_sum_apply, List.map_map, sum_only ((P.subOrder_perm r).nodup_iff.mpr hr) (j := j), hk]
    · refine (if_congr (P.subOrder_perm r).mem_iff rfl rfl).trans ?_
      rw [ite_and]
      split
      · by_cases hj : j = P.getAllSubCommands
        · simp [hj]
        · simp [hj]
      · rfl
    · intro k' hk' _
      show (if k' = k then 0 else Pi.single k' x : κ → Contents ι) j = 0
      split
      · rfl
      · rw [Pi.single_eq_of_ne hk'.symm]
  · rfl

/-- What an option adds for the subcommands that it is added to, and for all of them. -/
theorem sum_added_apply (hr : r.Nodup) (x : Contents ι) (o : ι) (j : κ) :
    ((P.subsOf o).map (added P r x)).sum j = (if j ∈ P.subsOf o then x else 0) +
      if j ∈ r ∧ j ≠ P.getAllSubCommands then (if P.getAllSubCommands ∈ P.subsOf o then x else 0)
      else 0 := by
  have hsum : (List.map (fun f : κ → Contents ι => f j) ((P.subsOf o).map (added P r x))).sum =
      ((P.subsOf o).map fun k => if j = k then x else 0).sum + ((P.subsOf o).map fun k =>
        if k = P.getAllSubCommands then (if j ∈ r ∧ j ≠ P.getAllSubCommands then x else 0) else 0).sum := by
    rw [List.map_map, ← List.sum_map_add]
    exact congrArg List.sum (List.map_congr_left fun k _ => added_apply hr x k j)
  rw [Pi.list_sum_apply, hsum, sum_only (subsOf_nodup P o) (j := j) fun k hk _ => if_neg (Ne.symm hk),
    sum_only (subsOf_nodup P o) (j := P.getAllSubCommands) fun k hk _ => if_neg hk, if_pos rfl, if_pos rfl]
  congr 1
  split
  · split
    · rfl
    · rfl
  · split
    · rfl
    · rfl

/-! ## Calls in any order -/

/-- What a call adds to a subcommand because the option names it. -/
def Call.direct (P : Program κ ι) : Call κ ι → κ → Contents ι
  | .addOption o, k => if k ∈ P.subsOf o then (Tell.option o).contents P else 0
  | .addLiteralOption o name, k => if k ∈ P.subsOf o then (Tell.literal o name).contents P else 0
  | .registerSubCommand _, _ => 0

omit [DecidableEq κ] in
def Call.registers : Call κ ι → Option κ
  | .registerSubCommand k => some k
  | _ => none

def direct (P : Program κ ι) (calls : List (Call κ ι)) (k : κ) : Contents ι :=
  (calls.map fun c => c.direct P k).sum

def registered (P : Program κ ι) (calls : List (Call κ ι)) : List κ :=
  calls.filterMap Call.registers ++ [P.getTopLevelSubCommand, P.getAllSubCommands]

/-- What each subcommand should hold: its own options, and if it is registered, those for all. -/
def wanted (P : Program κ ι) (calls : List (Call κ ι)) (k : κ) : Contents ι :=
  direct P calls k +
    if k ∈ registered P calls ∧ k ≠ P.getAllSubCommands then direct P calls P.getAllSubCommands else 0

/-- No two options of a subcommand have one name, one at most consumes what follows, and no two subcommands
have one name. -/
def Fits (P : Program κ ι) (calls : List (Call κ ι)) : Prop :=
  AllGood (wanted P calls) ∧ ((calls.filterMap Call.registers).map P.name).Nodup

/-- The options in `getAllSubCommands` are found there by a name, or it has only names of them to keep. The
other subcommands have names. -/
def Call.Ordinary (P : Program κ ι) : Call κ ι → Prop
  | .addOption o | .addLiteralOption o _ =>
    P.getAllSubCommands ∈ P.subsOf o → hasArgStr P o = true ∨ isSpecial P o = false
  | .registerSubCommand k => P.name k ≠ []

instance (P : Program κ ι) : (c : Call κ ι) → Decidable (c.Ordinary P)
  | .addOption _ | .addLiteralOption _ _ => inferInstanceAs (Decidable (_ → _ ∨ _))
  | .registerSubCommand _ => inferInstanceAs (Decidable (_ ≠ _))

variable {calls done : List (Call κ ι)}

theorem direct_append (calls calls' : List (Call κ ι)) (k : κ) :
    direct P (calls ++ calls') k = direct P calls k + direct P calls' k := by
  rw [direct, List.map_append, List.sum_append, direct, direct]

omit [DecidableEq κ] in
theorem optionContents_fst (o : ι) : (optionContents P o).1 = 0 := by
  rw [optionContents]
  split
  · rfl
  · split
    · rfl
    · split
      · rfl
      · rfl

/-- What is told about the entries of what a subcommand holds. -/
def retold (P : Program κ ι) (x : Contents ι) : Contents ι :=
  (x.1.map fun e => (tellOf P e).contents P).sum

omit [DecidableEq κ] in
theorem retold_add (x y : Contents ι) : retold P (x + y) = retold P x + retold P y := by
  rw [retold, Prod.fst_add, Multiset.map_add, Multiset.sum_add, retold, retold]

omit [DecidableEq κ] in
theorem retold_option {o : ι} (h : hasArgStr P o = true ∨ isSpecial P o = false) :
    retold P ((Tell.option o).contents P) = (Tell.option o).contents P := by
  rw [retold, Tell.contents, Prod.fst_add, optionContents_fst, add_zero]
  cases hname : hasArgStr P o with
  | true => simp [tellOf, hname, Tell.contents]
  | false =>
    rw [hname] at h
    have hspecial := h.resolve_left Bool.false_ne_true
    simp only [isSpecial, Bool.or_eq_false_iff] at hspecial
    simp [optionContents, hspecial]
    rfl

omit [DecidableEq κ] in
theorem retold_literal {o : ι} (h : hasArgStr P o = true ∨ isSpecial P o = false) (name : Str) :
    retold P ((Tell.literal o name).contents P) = (Tell.literal o name).contents P := by
  rw [retold, Tell.contents]
  cases hname : hasArgStr P o with
  | true => rfl
  | false =>
    rw [hname] at h
    have htell : tellOf P (name, o) = .literal o name := by
      rw [tellOf, h.resolve_left Bool.false_ne_true, hname]
      rfl
    simp only [Bool.false_eq_true, if_false, Multiset.map_singleton, Multiset.sum_singleton, htell,
      Tell.contents, hname]

/-- **What is for all subcommands can be told again** from the names in `getAllSubCommands`. -/
theorem retold_direct (h : ∀ c ∈ calls, c.Ordinary P) :
    retold P (direct P calls P.getAllSubCommands) = direct P calls P.getAllSubCommands := by
  induction calls with
  | nil => rfl
  | cons c calls ih =>
    obtain ⟨hc, h⟩ := List.forall_mem_cons.mp h
    rw [← List.singleton_append, direct_append, retold_add, ih h, direct, List.map_singleton,
      List.sum_singleton]
    congr 1
    cases c with
    | addOption o =>
      rw [Call.direct]
      split
      · exact retold_option (hc ‹_›)
      · rfl
    | addLiteralOption o name =>
      rw [Call.direct]
      split
      · exact retold_literal (hc ‹_›) name
      · rfl
    | registerSubCommand k => rfl

omit [DecidableEq κ] in
theorem name_ne_nil (h : ∀ c ∈ calls, c.Ordinary P) {k : κ} (hk : k ∈ calls.filterMap Call.registers) :
    P.name k ≠ [] := by
  obtain ⟨c, hc, hregisters⟩ := List.mem_filterMap.mp hk
  cases c with
  | addOption o => cases hregisters
  | addLiteralOption o name => cases hregisters
  | registerSubCommand k' =>
    cases hregisters
    exact h _ hc

omit [DecidableEq κ] in
theorem registered_nodup (h : ∀ c ∈ calls, c.Ordinary P)
    (hnames : ((calls.filterMap Call.registers).map P.name).Nodup) : (registered P calls).Nodup := by
  refine List.nodup_append.mpr ⟨hnames.of_map, ?_, ?_⟩
  · simp [P.ne]
  · rintro k hk _ hspecial rfl
    have hname := name_ne_nil h hk
    rcases List.mem_pair.mp hspecial with rfl | rfl
    · exact hname P.name_getTopLevelSubCommand
    · exact hname P.name_getAllSubCommands

/-- The registry is what the calls want. -/
def Registry.Done (P : Program κ ι) (calls : List (Call κ ι)) (s : Registry κ ι) : Prop :=
  ∃ r : List κ, r.Perm (registered P calls) ∧ s.Holds P (wanted P calls) r

theorem wanted_le (calls calls' : List (Call κ ι)) (k : κ) :
    wanted P calls k ≤ wanted P (calls ++ calls') k := by
  have hle : ∀ k, direct P calls k ≤ direct P (calls ++ calls') k := by
    intro k
    rw [direct_append]
    exact Contents.le_add _ _
  rw [wanted, wanted]
  refine Contents.add_mono (hle k) ?_
  split
  · rename_i hk
    have hmem : k ∈ registered P (calls ++ calls') := by
      rw [registered, List.filterMap_append, List.append_assoc]
      exact List.mem_append.mpr ((List.mem_append.mp hk.1).imp_right (List.mem_append_right _))
    rw [if_pos ⟨hmem, hk.2⟩]
    exact hle _
  · have hzero := Contents.le_add 0 (if k ∈ registered P (calls ++ calls') ∧ k ≠ P.getAllSubCommands then
      direct P (calls ++ calls') P.getAllSubCommands else 0)
    rwa [zero_add] at hzero

theorem Fits.of_append {calls' : List (Call κ ι)} (h : Fits P (calls ++ calls')) : Fits P calls := by
  refine ⟨fun k => (h.1 k).of_le (wanted_le calls calls' k), ?_⟩
  have hnames := h.2
  rw [List.filterMap_append, List.map_append] at hnames
  exact hnames.of_append_left

/-- A call that is about an option. -/
theorem Registry.add_done (hord : ∀ c ∈ done, c.Ordinary P) (hfits : Fits P done) (hs : s.Done P done)
    {o : ι} {t : Tell ι} {c : Call κ ι} (hnone : c.registers = none)
    (hdirect : ∀ k, c.direct P k = if k ∈ P.subsOf o then t.contents P else 0) :
    ResultIff (s.add P o t) (Fits P (done ++ [c])) (Registry.Done P (done ++ [c])) := by
  obtain ⟨r, hr, hholds⟩ := hs
  have hfilter : (done ++ [c]).filterMap Call.registers = done.filterMap Call.registers := by
    rw [List.filterMap_append, List.filterMap_cons_none hnone, List.filterMap_nil, List.append_nil]
  have hregistered : registered P (done ++ [c]) = registered P done := by
    rw [registered, hfilter, registered]
  have hone : ∀ k, direct P [c] k = if k ∈ P.subsOf o then t.contents P else 0 := by
    intro k
    rw [direct, List.map_singleton, List.sum_singleton, hdirect]
  have hwanted : wanted P (done ++ [c]) =
      wanted P done + ((P.subsOf o).map (added P r (t.contents P))).sum := by
    funext k
    rw [Pi.add_apply, sum_added_apply (hr.nodup_iff.mpr (registered_nodup hord hfits.2)), wanted, wanted,
      direct_append, direct_append, hregistered, hone, hone]
    simp only [hr.mem_iff]
    by_cases hk : k ∈ registered P done ∧ k ≠ P.getAllSubCommands
    · simp only [if_pos hk]
      exact add_add_add_comm (direct P done k) _ _ _
    · simp only [if_neg hk, add_zero]
  have hspec := Registry.add_spec hholds hfits.1 o t
  rw [← hwanted] at hspec
  refine ⟨hspec.isSome_iff.trans ?_, fun s' hs' => ⟨r, hregistered ▸ hr, hspec.post s' hs'⟩⟩
  rw [Fits, hfilter]
  exact (and_iff_left hfits.2).symm

omit [DecidableEq κ] in
theorem clash_iff {r : List κ} (hr : r.Perm (registered P done)) {k : κ}
    (hk : P.name k ≠ []) : (r.any fun k' => P.name k ≠ [] ∧ P.name k' = P.name k) = true ↔
      P.name k ∈ (done.filterMap Call.registers).map P.name := by
  rw [List.any_eq_true, List.mem_map]
  simp only [ne_eq, hk, not_false_eq_true, true_and, decide_eq_true_eq, hr.mem_iff]
  constructor
  · rintro ⟨k', hk', hname⟩
    refine ⟨k', (List.mem_append.mp hk').resolve_right fun hspecial => ?_, hname⟩
    rw [← hname] at hk
    rcases List.mem_pair.mp hspecial with rfl | rfl
    · exact hk P.name_getTopLevelSubCommand
    · exact hk P.name_getAllSubCommands
  · rintro ⟨k', hk', hname⟩
    exact ⟨k', List.mem_append_left _ hk', hname⟩

/-- What a subcommand is told when it is registered. -/
theorem sum_tellOf (hholds : s.Holds P (wanted P done) r) (h : ∀ c ∈ done, c.Ordinary P) {r' : List κ}
    {k : κ} (hk : k ≠ P.getAllSubCommands) :
    ((P.mapOrder (s.subs P.getAllSubCommands).optionsMap).map fun e =>
      added P r' ((tellOf P e).contents P) k).sum = Pi.single k (direct P done P.getAllSubCommands) := by
  have hmap : ((s.subs P.getAllSubCommands).optionsMap : Multiset (Str × ι)) =
      (direct P done P.getAllSubCommands).1 := by
    have hcontents := congrArg Prod.fst (hholds.contents P.getAllSubCommands)
    rwa [wanted, if_neg fun hall => hall.2 rfl, add_zero] at hcontents
  have hsum : ((P.mapOrder (s.subs P.getAllSubCommands).optionsMap).map fun e =>
      (tellOf P e).contents P).sum = direct P done P.getAllSubCommands := by
    rw [((P.mapOrder_perm _).map _).sum_eq, ← Multiset.sum_coe, ← Multiset.map_coe, hmap, ← retold,
      retold_direct h]
  have hsingle : (fun e => added P r' ((tellOf P e).contents P) k) =
      Pi.single k ∘ fun e => (tellOf P e).contents P := by
    funext e
    rw [added, if_neg hk, add_zero]
    rfl
  rw [hsingle, ← List.map_map, ← hsum]
  exact (map_list_sum (AddMonoidHom.single (fun _ => Contents ι) k) _).symm

theorem Registry.register_done (hord : ∀ c ∈ done, c.Ordinary P) (hfits : Fits P done)
    (hs : s.Done P done) {k : κ} (hk : P.name k ≠ []) :
    ResultIff (s.registerSubCommand P k) (Fits P (done ++ [.registerSubCommand k]))
      (Registry.Done P (done ++ [.registerSubCommand k])) := by
  obtain ⟨r, hr, hholds⟩ := hs
  have hfilter : (done ++ [Call.registerSubCommand k]).filterMap Call.registers =
      done.filterMap Call.registers ++ [k] := List.filterMap_append
  have hall : k ≠ P.getAllSubCommands := fun heq => hk (heq ▸ P.name_getAllSubCommands)
  have hclash := clash_iff hr hk
  rw [Registry.registerSubCommand, hholds.registered]
  split
  · rename_i hany
    refine .of_none fun hfits' => ?_
    have hnames := hfits'.2
    rw [hfilter, List.map_append] at hnames
    exact List.disjoint_of_nodup_append hnames (hclash.mp hany) List.mem_cons_self
  · rename_i hany
    rw [hclash] at hany
    have hnew : k ∉ registered P done := by
      intro hmem
      exact hany (hclash.mp (List.any_eq_true.mpr ⟨k, hr.mem_iff.mpr hmem, by simp [hk]⟩))
    have hnames : (((done ++ [Call.registerSubCommand k]).filterMap Call.registers).map P.name).Nodup := by
      rw [hfilter, List.map_append, List.map_singleton]
      exact List.nodup_append.mpr ⟨hfits.2, List.nodup_singleton _, by
        rintro _ hx _ hy rfl
        exact hany (List.mem_singleton.mp hy ▸ hx)⟩
    have hr' : (k :: r).Perm (registered P (done ++ [.registerSubCommand k])) := by
      rw [registered, hfilter, List.append_assoc]
      exact (hr.cons k).trans List.perm_middle.symm
    have hinsert : r.insert k = k :: r := List.insert_of_not_mem fun hmem => hnew (hr.mem_iff.mp hmem)
    have hstart : Registry.Holds P (wanted P done) (k :: r)
        { s with registeredSubCommands := r.insert k } :=
      ⟨hholds.contents, hholds.name, hinsert, hholds.ignoreDuplicates⟩
    have hwanted : wanted P (done ++ [.registerSubCommand k]) =
        wanted P done + Pi.single k (direct P done P.getAllSubCommands) := by
      funext j
      have hone : ∀ j, direct P [Call.registerSubCommand k] j = 0 := fun j => rfl
      have hmem : j ∈ registered P (done ++ [Call.registerSubCommand k]) ↔ j = k ∨ j ∈ registered P done := by
        rw [← hr'.mem_iff, List.mem_cons, hr.mem_iff]
      rw [Pi.add_apply, wanted, wanted, direct_append, direct_append, hone, hone, add_zero, add_zero]
      simp only [hmem]
      by_cases hj : j = k
      · rw [hj, Pi.single_eq_same, if_pos ⟨.inl rfl, hall⟩, if_neg fun h => hnew h.1, add_zero]
      · rw [Pi.single_eq_of_ne hj, add_zero]
        simp only [hj, false_or]
    have hspec := foldlM_adds (f := fun s e => s.addTo P k (tellOf P e))
      (g := fun e => added P (k :: r) ((tellOf P e).contents P) k)
      (l := P.mapOrder (s.subs P.getAllSubCommands).optionsMap) hstart hfits.1
      fun c s e _ h hgood => Registry.addTo_spec h hgood k (tellOf P e)
    rw [sum_tellOf hholds hord hall, ← hwanted] at hspec
    exact ⟨hspec.isSome_iff.trans (and_iff_left hnames).symm,
      fun s' hs' => ⟨_, hr', hspec.post s' hs'⟩⟩

theorem foldl_concat {α : Type} (l done : List α) : l.foldl (fun d a => d ++ [a]) done = done ++ l := by
  induction l generalizing done with
  | nil => exact (List.append_nil done).symm
  | cons a l ih => rw [List.foldl_cons, ih, List.append_assoc, List.singleton_append]

theorem Registry.call_done (hord : ∀ c ∈ done, c.Ordinary P) (hfits : Fits P done) (hs : s.Done P done)
    {c : Call κ ι} (hc : c.Ordinary P) :
    ResultIff (s.call P c) (Fits P (done ++ [c])) (Registry.Done P (done ++ [c])) := by
  cases c with
  | addOption o => exact Registry.add_done hord hfits hs rfl fun _ => rfl
  | addLiteralOption o name => exact Registry.add_done hord hfits hs rfl fun _ => rfl
  | registerSubCommand k => exact Registry.register_done hord hfits hs hc

theorem Registry.init_done (P : Program κ ι) : Fits P [] ∧ (Registry.init P).Done P [] := by
  have hwanted : ∀ k, wanted P [] k = 0 := by
    intro k
    rw [wanted]
    split
    · exact add_zero _
    · exact add_zero _
  refine ⟨⟨fun k => ?_, List.nodup_nil⟩, _, .refl _, fun k => ?_, fun k => rfl, rfl, rfl⟩
  · rw [hwanted]
    exact ⟨Multiset.nodup_zero, Nat.zero_le 1⟩
  · rw [hwanted]
    rfl

/-- **All calls.** There is a fatal error or a failed assertion exactly if what the calls want does not fit,
and otherwise the registry is what they want. -/
theorem Registry.run_done (h : ∀ c ∈ calls, c.Ordinary P) :
    ResultIff ((Registry.init P).run P calls) (Fits P calls) (Registry.Done P calls) := by
  obtain ⟨hfits, hinit⟩ := Registry.init_done P
  have hspec : ResultIff ((Registry.init P).run P calls)
      (Fits P (calls.foldl (fun done c => done ++ [c]) [])) fun s =>
        (∀ c ∈ calls.foldl (fun done c => done ++ [c]) [], c.Ordinary P) ∧
          s.Done P (calls.foldl (fun done c => done ++ [c]) []) := by
    refine ResultIff.foldlM (R := fun done s => (∀ c ∈ done, c.Ordinary P) ∧ Registry.Done P done s)
      (fun done c hg => hg.of_append) (fun done s c hc hs hgood => ?_)
      ⟨fun _ hc => absurd hc List.not_mem_nil, hinit⟩ hfits
    have hcall := Registry.call_done hs.1 hgood hs.2 (h c hc)
    refine ⟨hcall.isSome_iff, fun s' hs' => ⟨?_, hcall.post s' hs'⟩⟩
    exact List.forall_mem_append.mpr ⟨hs.1, List.forall_mem_singleton.mpr (h c hc)⟩
  rw [foldl_concat, List.nil_append] at hspec
  exact ⟨hspec.isSome_iff, fun s hs => (hspec.post s hs).2⟩

theorem wanted_perm {calls' : List (Call κ ι)} (h : calls.Perm calls') : wanted P calls = wanted P calls' := by
  have hdirect : ∀ k, direct P calls k = direct P calls' k := fun k => (h.map _).sum_eq
  have hmem : ∀ k, k ∈ registered P calls ↔ k ∈ registered P calls' := fun k =>
    ((h.filterMap _).append_right _).mem_iff
  funext k
  rw [wanted, wanted, hdirect, hdirect]
  simp only [hmem]

omit [DecidableEq κ] in
theorem eq_of_perm_toList {a b : Option ι} (h : a.toList.Perm b.toList) : a = b := by
  cases a with
  | none =>
    have hb : b.toList = [] := List.nil_perm.mp h
    exact (Option.toList_eq_nil_iff.mp hb).symm
  | some x => exact (Option.toList_eq_singleton_iff.mp (List.singleton_perm.mp h).symm).symm

/-- The same options in the same places, but for their order. -/
structure SubCommand.Same (sub sub' : SubCommand ι) : Prop where
  optionsMap : sub.optionsMap.Perm sub'.optionsMap
  positionalOpts : sub.positionalOpts.Perm sub'.positionalOpts
  sinkOpts : sub.sinkOpts.Perm sub'.sinkOpts
  consumeAfterOpt : sub.consumeAfterOpt = sub'.consumeAfterOpt

omit [DecidableEq κ] in
theorem same_of_contents {sub sub' : SubCommand ι} (h : sub.contents = sub'.contents) : sub.Same sub' := by
  simp only [SubCommand.contents, Prod.mk.injEq, Multiset.coe_eq_coe] at h
  exact ⟨h.1, h.2.1, h.2.2.1, eq_of_perm_toList h.2.2.2⟩

theorem Fits.perm {calls' : List (Call κ ι)} (h : Fits P calls) (hperm : calls.Perm calls') :
    Fits P calls' :=
  ⟨wanted_perm hperm ▸ h.1, ((hperm.filterMap _).map _).nodup_iff.mp h.2⟩

/-- **The order of the calls does not matter.** -/
theorem any_order (P : Program κ ι) {calls calls' : List (Call κ ι)} (h : ∀ c ∈ calls, c.Ordinary P)
    (hperm : calls.Perm calls') {s : Registry κ ι} (hs : (Registry.init P).run P calls = some s) :
    ∃ s', (Registry.init P).run P calls' = some s' ∧
      s.registeredSubCommands.Perm s'.registeredSubCommands ∧ ∀ k, (s.subs k).Same (s'.subs k) := by
  have hrun := Registry.run_done h
  have hrun' := Registry.run_done (P := P) fun c hc => h c (hperm.mem_iff.mpr hc)
  obtain ⟨s', hs', r', hr', hholds'⟩ := hrun'.exists_of_ok ((hrun.ok_of_some hs).perm hperm)
  obtain ⟨r, hr, hholds⟩ := hrun.post s hs
  refine ⟨s', hs', ?_, fun k => same_of_contents ?_⟩
  · rw [hholds.registered, hholds'.registered]
    exact hr.trans (((hperm.filterMap _).append_right _).trans hr'.symm)
  · rw [hholds.contents, hholds'.contents, wanted_perm hperm]

theorem exists_sample_run : ∃ s, (Registry.init sampleProgram).run sampleProgram sampleCalls = some s :=
  Option.isSome_iff_exists.mp rfl

theorem any_order_sample : ∃ s s',
    (Registry.init sampleProgram).run sampleProgram sampleCalls = some s ∧
      (Registry.init sampleProgram).run sampleProgram sampleCalls.reverse = some s' ∧
      s.registeredSubCommands.Perm s'.registeredSubCommands ∧ ∀ k, (s.subs k).Same (s'.subs k) := by
  obtain ⟨s, hs⟩ := exists_sample_run
  obtain ⟨s', hs'⟩ := any_order sampleProgram (by decide) sampleCalls.reverse_perm.symm hs
  exact ⟨s, s', hs, hs'⟩

/-! ## What the parser finds -/

def Registry.ordered (P : Program κ ι) (s : Registry κ ι) (k : κ) : SubCommand ι :=
  { s.subs k with optionsMap := P.mapOrder (s.subs k).optionsMap }

/-- The parser that runs behind the registration. -/
def Registry.parser (P : Program κ ι) (s : Registry κ ι) : CommandLineParser ι :=
  ⟨P.opt, s.ordered P P.getTopLevelSubCommand,
    ((P.subOrder s.registeredSubCommands).filter fun k =>
      k ≠ P.getTopLevelSubCommand ∧ k ≠ P.getAllSubCommands).map (s.ordered P)⟩

/-- The call declares the name for the subcommand. -/
def Call.Declares (P : Program κ ι) (k : κ) (name : Str) (o : ι) : Call κ ι → Prop
  | .addOption o' => o' = o ∧ k ∈ P.subsOf o ∧ hasArgStr P o = true ∧ (P.opt o).argStr = name
  | .addLiteralOption o' name' => o' = o ∧ k ∈ P.subsOf o ∧ hasArgStr P o = false ∧ name' = name
  | .registerSubCommand _ => False

omit [DecidableEq κ] in
theorem mem_contents_option {o o' : ι} {name : Str} : (name, o) ∈ ((Tell.option o').contents P).1 ↔
    o' = o ∧ hasArgStr P o = true ∧ (P.opt o).argStr = name := by
  rw [Tell.contents, Prod.fst_add, optionContents_fst, add_zero]
  cases hname : hasArgStr P o' with
  | true =>
    rw [if_pos rfl, Multiset.mem_singleton, Prod.mk.injEq]
    constructor
    · rintro ⟨rfl, rfl⟩
      exact ⟨rfl, hname, rfl⟩
    · rintro ⟨rfl, -, rfl⟩
      exact ⟨rfl, rfl⟩
  | false =>
    refine iff_of_false (Multiset.notMem_zero _) ?_
    rintro ⟨rfl, hname', -⟩
    rw [hname] at hname'
    cases hname'

omit [DecidableEq κ] in
theorem mem_contents_literal {o o' : ι} {name name' : Str} :
    (name, o) ∈ ((Tell.literal o' name').contents P).1 ↔
      o' = o ∧ hasArgStr P o = false ∧ name' = name := by
  rw [Tell.contents]
  cases hname : hasArgStr P o' with
  | true =>
    refine iff_of_false (Multiset.notMem_zero _) ?_
    rintro ⟨rfl, hname', -⟩
    rw [hname] at hname'
    cases hname'
  | false =>
    rw [if_neg Bool.false_ne_true, Multiset.mem_singleton, Prod.mk.injEq]
    constructor
    · rintro ⟨rfl, rfl⟩
      exact ⟨rfl, hname, rfl⟩
    · rintro ⟨rfl, -, rfl⟩
      exact ⟨rfl, rfl⟩

omit [DecidableEq κ] in
theorem mem_ite_zero {p : Prop} [Decidable p] {x : Contents ι} {e : Str × ι} :
    e ∈ (if p then x else 0).1 ↔ p ∧ e ∈ x.1 := by
  split
  · rename_i hp
    exact (and_iff_right hp).symm
  · rename_i hp
    exact iff_of_false (Multiset.notMem_zero _) fun h => hp h.1

theorem mem_direct {k : κ} {name : Str} {o : ι} :
    (name, o) ∈ (direct P calls k).1 ↔ ∃ c ∈ calls, c.Declares P k name o := by
  induction calls with
  | nil => exact iff_of_false (Multiset.notMem_zero _) fun ⟨c, hc, _⟩ => List.not_mem_nil hc
  | cons c calls ih =>
    have hone : (name, o) ∈ (c.direct P k).1 ↔ c.Declares P k name o := by
      cases c with
      | addOption o' =>
        rw [Call.direct, mem_ite_zero, mem_contents_option]
        constructor
        · rintro ⟨hk, rfl, h⟩
          exact ⟨rfl, hk, h⟩
        · rintro ⟨rfl, hk, h⟩
          exact ⟨hk, rfl, h⟩
      | addLiteralOption o' name' =>
        rw [Call.direct, mem_ite_zero, mem_contents_literal]
        constructor
        · rintro ⟨hk, rfl, h⟩
          exact ⟨rfl, hk, h⟩
        · rintro ⟨rfl, hk, h⟩
          exact ⟨hk, rfl, h⟩
      | registerSubCommand k' => exact iff_of_false (Multiset.notMem_zero _) id
    rw [← List.singleton_append, direct_append, Prod.fst_add, Multiset.mem_add, ih, direct,
      List.map_singleton, List.sum_singleton, hone]
    simp only [List.singleton_append, List.mem_cons, exists_eq_or_imp]

omit [DecidableEq κ] in
theorem lookup_ordered {k : κ} (hgood : (s.subs k).contents.Good) (name : Str) (o : ι) :
    (s.ordered P k).optionsMap.lookup name = some o ↔ (name, o) ∈ (s.subs k).optionsMap := by
  have hperm := P.mapOrder_perm (s.subs k).optionsMap
  rw [← hperm.mem_iff]
  exact ⟨Lib.mem_of_lookup, Lib.lookup_of_mem ((hperm.map _).nodup_iff.mpr hgood.1)⟩

/-- A registered subcommand is found under its name. -/
theorem lookupSubCommand_registered (h : ∀ c ∈ calls, c.Ordinary P)
    (hnames : ((calls.filterMap Call.registers).map P.name).Nodup)
    (hr : r.Perm (registered P calls)) (hholds : s.Holds P c r) {k : κ}
    (hk : k ∈ calls.filterMap Call.registers) :
    lookupSubCommand (s.parser P) (P.name k) = some (s.ordered P k) := by
  have hname := name_ne_nil h hk
  have hmem : ∀ k', k' ∈ (P.subOrder s.registeredSubCommands).filter (fun k =>
      k ≠ P.getTopLevelSubCommand ∧ k ≠ P.getAllSubCommands) ↔
        k' ∈ registered P calls ∧ k' ≠ P.getTopLevelSubCommand ∧ k' ≠ P.getAllSubCommands := by
    intro k'
    rw [List.mem_filter, (P.subOrder_perm _).mem_iff, hholds.registered, hr.mem_iff, decide_eq_true_eq]
  have hspecial : k ≠ P.getTopLevelSubCommand ∧ k ≠ P.getAllSubCommands :=
    ⟨fun heq => hname (heq ▸ P.name_getTopLevelSubCommand),
      fun heq => hname (heq ▸ P.name_getAllSubCommands)⟩
  have hthere : s.ordered P k ∈ (s.parser P).subCommands :=
    List.mem_map_of_mem ((hmem k).mpr ⟨List.mem_append_left _ hk, hspecial⟩)
  have hsub : ∀ k, (s.ordered P k).name = P.name k := hholds.name
  rw [lookupSubCommand, if_neg hname]
  cases hfind : (s.parser P).subCommands.find? fun s => s.name ≠ [] ∧ s.name = P.name k with
  | none =>
    have hno := List.find?_eq_none.mp hfind _ hthere
    simp [hsub, hname] at hno
  | some sub =>
    obtain ⟨k', hk', rfl⟩ := List.mem_map.mp (List.mem_of_find?_eq_some hfind)
    obtain ⟨hregistered, htop, hall⟩ := (hmem k').mp hk'
    have heq := List.find?_some hfind
    simp only [hsub, ne_eq, decide_eq_true_eq] at heq
    have hmem' : k' ∈ calls.filterMap Call.registers :=
      (List.mem_append.mp hregistered).resolve_right fun hpair =>
        (List.mem_pair.mp hpair).elim htop hall
    rw [List.inj_on_of_nodup_map hnames hmem' hk heq.2]

/-- **What is found** behind the registration: each registered subcommand under its name, and under a name
the option that was declared with it for the subcommand or for all of them. -/
theorem found_iff (P : Program κ ι) {calls : List (Call κ ι)} (h : ∀ c ∈ calls, c.Ordinary P)
    {s : Registry κ ι} (hs : (Registry.init P).run P calls = some s) :
    (∀ k, .registerSubCommand k ∈ calls →
        lookupSubCommand (s.parser P) (P.name k) = some (s.ordered P k)) ∧
      ∀ k name o, (s.ordered P k).optionsMap.lookup name = some o ↔
        (∃ c ∈ calls, c.Declares P k name o) ∨
          (k ∈ registered P calls ∧ k ≠ P.getAllSubCommands) ∧
            ∃ c ∈ calls, c.Declares P P.getAllSubCommands name o := by
  have hrun := Registry.run_done h
  obtain ⟨hgood, hnames⟩ := hrun.ok_of_some hs
  obtain ⟨r, hr, hholds⟩ := hrun.post s hs
  refine ⟨fun k hk => ?_, fun k name o => ?_⟩
  · exact lookupSubCommand_registered h hnames hr hholds (List.mem_filterMap.mpr ⟨_, hk, rfl⟩)
  · have hcontents : ((s.subs k).optionsMap : Multiset (Str × ι)) = (wanted P calls k).1 :=
      congrArg Prod.fst (hholds.contents k)
    rw [lookup_ordered (hholds.contents k ▸ hgood k), ← Multiset.mem_coe, hcontents, wanted, Prod.fst_add,
      Multiset.mem_add, mem_ite_zero, mem_direct, mem_direct]

theorem found_iff_sample : ∃ s,
    (Registry.init sampleProgram).run sampleProgram sampleCalls = some s ∧
      lookupSubCommand (s.parser sampleProgram) "copy".toList = some (s.ordered sampleProgram .copy) ∧
      (s.ordered sampleProgram .copy).optionsMap.lookup ['v'] = some .verbose := by
  obtain ⟨s, hs⟩ := exists_sample_run
  obtain ⟨hsubs, hoptions⟩ := found_iff sampleProgram (by decide) hs
  refine ⟨s, hs, hsubs .copy (by decide), (hoptions .copy ['v'] .verbose).mpr (.inr ⟨by decide, ?_⟩)⟩
  exact ⟨.addOption .verbose, by decide, rfl, by decide, rfl, rfl⟩

end Primitives.CommandLine
