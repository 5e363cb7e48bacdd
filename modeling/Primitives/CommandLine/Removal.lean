import Primitives.CommandLine.Registration

/-!
# Registration of options — late and removed options

The options that `getAllSubCommands` has no name for are not seen when a subcommand is registered. If they
are positional, sinks or consume what follows, they are missing from the subcommands that are registered
later (`unnamed_iff`).

An option that is removed leaves everything as if it had never been added (`removeOption_undoes`).
-/

set_option autoImplicit false

namespace Primitives.CommandLine

open Lib

variable {κ ι : Type} {P : Program κ ι} {sub : SubCommand ι} {c : κ → Contents ι} {r : List κ}
  {s : Registry κ ι} [DecidableEq κ] {calls : List (Call κ ι)}

/-! ## Options without a name -/

/-- The option is a positional one, a sink or the one that consumes what follows. -/
def Placed (o : ι) (c : Contents ι) : Prop := o ∈ c.2.1 ∨ o ∈ c.2.2.1 ∨ o ∈ c.2.2.2

/-- The option has a name. -/
def Has (o : ι) (c : Contents ι) : Prop := ∃ name, (name, o) ∈ c.1

section

omit [DecidableEq κ]

variable {o : ι}

theorem placed_add (x y : Contents ι) : Placed o (x + y) ↔ Placed o x ∨ Placed o y := by
  simp only [Placed, Prod.fst_add, Prod.snd_add, Multiset.mem_add]
  tauto

theorem has_add (x y : Contents ι) : Has o (x + y) ↔ Has o x ∨ Has o y := by
  simp only [Has, Prod.fst_add, Multiset.mem_add, exists_or]

theorem not_placed_zero : ¬ Placed o (0 : Contents ι) := by
  rintro (h | h | h)
  all_goals exact Multiset.notMem_zero _ h

theorem not_has_zero : ¬ Has o (0 : Contents ι) := fun ⟨_, h⟩ => Multiset.notMem_zero _ h

/-- The option is in it in some way. -/
def Mentions (o : ι) (c : Contents ι) : Prop := Has o c ∨ Placed o c

theorem mentions_add (x y : Contents ι) : Mentions o (x + y) ↔ Mentions o x ∨ Mentions o y := by
  rw [Mentions, has_add, placed_add, Mentions, Mentions]
  tauto

theorem not_mentions_zero : ¬ Mentions o (0 : Contents ι) := fun h => h.elim not_has_zero not_placed_zero

theorem not_mentions_sum {l : List (Contents ι)} (h : ∀ x ∈ l, ¬ Mentions o x) : ¬ Mentions o l.sum := by
  induction l with
  | nil => exact not_mentions_zero
  | cons x l ih =>
    obtain ⟨hx, h⟩ := List.forall_mem_cons.mp h
    rw [List.sum_cons, mentions_add]
    exact fun hmem => hmem.elim hx (ih h)

theorem placed_optionContents (o' : ι) :
    Placed o (optionContents P o') ↔ o' = o ∧ isSpecial P o' = true := by
  rw [optionContents, isSpecial]
  split
  · simp [Placed, *, eq_comm]
  · split
    · simp [Placed, *, eq_comm]
    · split
      · simp [Placed, *, eq_comm]
      · simp [Placed, *]

/-- The option that a subcommand is told about. -/
def Tell.about : Tell ι → ι
  | .option o | .literal o _ => o

theorem has_ite {p : Prop} [Decidable p] {e : Str × ι}
    (h : Has o ((if p then {e} else 0, 0, 0, 0) : Contents ι)) : p ∧ e.2 = o := by
  obtain ⟨name, h⟩ := h
  split at h
  · rename_i hp
    exact ⟨hp, congrArg Prod.snd (Multiset.mem_singleton.mp h).symm⟩
  · exact absurd h (Multiset.notMem_zero _)

theorem not_placed_names (x : Multiset (Str × ι)) : ¬ Placed o ((x, 0, 0, 0) : Contents ι) := by
  rintro (h | h | h)
  all_goals exact Multiset.notMem_zero _ h

theorem about_of_mentions {t : Tell ι} (h : Mentions o (t.contents P)) : t.about = o := by
  cases t with
  | option o' =>
    rw [Tell.contents, mentions_add] at h
    rcases h with (h | h) | ⟨name, h⟩ | h
    · exact (has_ite h).2
    · exact absurd h (not_placed_names _)
    · rw [optionContents_fst] at h
      exact absurd h (Multiset.notMem_zero _)
    · exact ((placed_optionContents o').mp h).1
  | literal o' name =>
    rw [Tell.contents, ← ite_not] at h
    rcases h with h | h
    · exact (has_ite h).2
    · exact absurd h (not_placed_names _)

end

/-- What a call adds about other options. -/
theorem not_mentions_added {x : Contents ι} {o : ι} (hr : r.Nodup) (h : ¬ Mentions o x) (k j : κ) :
    ¬ Mentions o (added P r x k j) := by
  rw [added_apply hr, mentions_add]
  have hite : ∀ (p : Prop) [Decidable p], ¬ Mentions o (if p then x else 0) := by
    intro p _
    split
    · exact h
    · exact not_mentions_zero
  rintro (hmem | hmem)
  · exact hite _ hmem
  · split at hmem
    · exact hite _ hmem
    · exact not_mentions_zero hmem

theorem not_mentions_sum_added {α : Type} {o : ι} (hr : r.Nodup) {l : List α} {g : α → κ → Contents ι}
    (h : ∀ a ∈ l, ∃ x k, g a = added P r x k ∧ ¬ Mentions o x) (j : κ) :
    ¬ Mentions o ((l.map g).sum j) := by
  rw [Pi.list_sum_apply, List.map_map]
  refine not_mentions_sum fun y hy => ?_
  obtain ⟨a, ha, rfl⟩ := List.mem_map.mp hy
  obtain ⟨x, k, hg, hx⟩ := h a ha
  show ¬ Mentions o (g a j)
  rw [hg]
  exact not_mentions_added hr hx k j

theorem exists_split_concat {α : Type} {l : List α} {a x : α} {p : List α → Prop} :
    (∃ l₁ l₂, l ++ [a] = l₁ ++ x :: l₂ ∧ p l₁) ↔ (∃ l₁ l₂, l = l₁ ++ x :: l₂ ∧ p l₁) ∨ a = x ∧ p l := by
  constructor
  · rintro ⟨l₁, l₂, heq, hp⟩
    rcases List.eq_nil_or_concat l₂ with rfl | ⟨l₂, y, rfl⟩
    · obtain ⟨rfl, hx⟩ := List.append_inj' heq rfl
      exact .inr ⟨List.singleton_inj.mp hx, hp⟩
    · rw [List.concat_eq_append, ← List.cons_append, ← List.append_assoc] at heq
      exact .inl ⟨l₁, l₂, (List.append_inj' heq rfl).1, hp⟩
  · rintro (⟨l₁, l₂, rfl, hp⟩ | ⟨rfl, hp⟩)
    · exact ⟨l₁, l₂ ++ [a], by rw [List.append_assoc, List.cons_append], hp⟩
    · exact ⟨l, [], rfl, hp⟩

/-- The option is added when the subcommand is one of its own, or is registered and the option is for all of
them. -/
def AddedTo (P : Program κ ι) (o : ι) (k : κ) (calls : List (Call κ ι)) : Prop :=
  ∃ before behind, calls = before ++ .addOption o :: behind ∧
    (k ∈ P.subsOf o ∨ P.getAllSubCommands ∈ P.subsOf o ∧ k ∈ registered P before)

/-- What calls leave of an option without a name. -/
def Traced (P : Program κ ι) (o : ι) (calls : List (Call κ ι)) (s : Registry κ ι) : Prop :=
  ∃ (c : κ → Contents ι) (r : List κ), s.Holds P c r ∧ AllGood c ∧ r.Nodup ∧
    (∀ k, k ∈ r ↔ k ∈ registered P calls) ∧ ¬ Has o (c P.getAllSubCommands) ∧
      ∀ k, k ≠ P.getAllSubCommands → (Placed o (c k) ↔ AddedTo P o k calls)

omit [DecidableEq κ] in
theorem mem_registered_concat (calls : List (Call κ ι)) (a : Call κ ι) (k : κ) :
    k ∈ registered P (calls ++ [a]) ↔ a.registers = some k ∨ k ∈ registered P calls := by
  rw [registered, List.filterMap_append, List.append_assoc, List.mem_append, List.mem_append, registered,
    List.mem_append, List.mem_filterMap (l := [a])]
  simp only [List.mem_singleton, exists_eq_left]
  tauto

omit [DecidableEq κ] in
/-- A call that does not mention the option. -/
theorem Traced.other {o : ι} {x : κ → Contents ι} {r' : List κ} {s' : Registry κ ι} {a : Call κ ι}
    (h : ∀ k, k ≠ P.getAllSubCommands → (Placed o (c k) ↔ AddedTo P o k calls))
    (hhas : ¬ Has o (c P.getAllSubCommands)) (hholds : s'.Holds P (c + x) r') (hgood : AllGood (c + x))
    (hnodup : r'.Nodup) (hr' : ∀ k, k ∈ r' ↔ k ∈ registered P (calls ++ [a])) (ha : a ≠ .addOption o)
    (hx : ∀ k, ¬ Mentions o (x k)) : Traced P o (calls ++ [a]) s' := by
  refine ⟨c + x, r', hholds, hgood, hnodup, hr', ?_, fun k hk => ?_⟩
  · rw [Pi.add_apply, has_add]
    exact fun hmem => hmem.elim hhas fun hmem => hx _ (.inl hmem)
  · rw [Pi.add_apply, placed_add, h k hk, AddedTo, AddedTo, exists_split_concat]
    constructor
    · exact fun hmem => .inl (hmem.resolve_right fun hmem => hx k (.inr hmem))
    · exact fun hmem => .inl (hmem.resolve_right fun hmem => ha hmem.1)

section

variable {o : ι} {s' : Registry κ ι} {a : Call κ ι}

/-- The option is added. -/
theorem Traced.added (h : Traced P o calls s) (hname : hasArgStr P o = false)
    (hspecial : isSpecial P o = true) (hs : s.add P o (.option o) = some s') :
    Traced P o (calls ++ [.addOption o]) s' := by
  obtain ⟨c, r, hholds, hgood, hnodup, hr, hhas, hplaced⟩ := h
  have hspec := Registry.add_spec hholds hgood o (.option o)
  have hnone : ∀ k, k ∈ registered P (calls ++ [Call.addOption o]) ↔ k ∈ registered P calls := by
    intro k
    rw [mem_registered_concat]
    exact or_iff_right (Option.some_ne_none k).symm
  have hyes : Placed o ((Tell.option o).contents P) := by
    rw [Tell.contents, placed_add]
    exact .inr ((placed_optionContents o).mpr ⟨rfl, hspecial⟩)
  have hno : ¬ Has o ((Tell.option o).contents P) := by
    rintro ⟨name, hmem⟩
    rw [(mem_contents_option.mp hmem).2.1] at hname
    cases hname
  have hite : ∀ (p : Prop) [Decidable p], (Placed o (if p then (Tell.option o).contents P else 0) ↔ p) ∧
      ¬ Has o (if p then (Tell.option o).contents P else 0) := by
    intro p _
    split
    · exact ⟨iff_of_true hyes ‹_›, hno⟩
    · exact ⟨iff_of_false not_placed_zero ‹_›, not_has_zero⟩
  refine ⟨_, r, hspec.post s' hs, hspec.ok_of_some hs, hnodup, fun k => (hr k).trans (hnone k).symm, ?_,
    fun k hk => ?_⟩
  · rw [Pi.add_apply, has_add, sum_added_apply hnodup, has_add, ← ite_and]
    exact fun hmem => hmem.elim hhas fun hmem => hmem.elim (hite _).2 (hite _).2
  · rw [Pi.add_apply, placed_add, sum_added_apply hnodup, placed_add, ← ite_and, (hite _).1, (hite _).1,
      hplaced k hk, AddedTo, AddedTo, exists_split_concat, ← hr]
    refine or_congr_right ?_
    constructor
    · rintro (hown | ⟨⟨hmem, -⟩, hall⟩)
      · exact ⟨rfl, .inl hown⟩
      · exact ⟨rfl, .inr ⟨hall, hmem⟩⟩
    · rintro ⟨-, hown | ⟨hall, hmem⟩⟩
      · exact .inl hown
      · exact .inr ⟨⟨hmem, hk⟩, hall⟩

/-- Another option is added, or gets a name. -/
theorem Traced.add_other (h : Traced P o calls s) {o' : ι} {t : Tell ι} (ht : t.about ≠ o)
    (hnone : a.registers = none) (ha : a ≠ .addOption o) (hs : s.add P o' t = some s') :
    Traced P o (calls ++ [a]) s' := by
  obtain ⟨c, r, hholds, hgood, hnodup, hr, hhas, hplaced⟩ := h
  have hspec := Registry.add_spec hholds hgood o' t
  refine .other hplaced hhas (hspec.post s' hs) (hspec.ok_of_some hs) hnodup (fun k => ?_) ha fun k => ?_
  · rw [hr, mem_registered_concat, hnone]
    exact (or_iff_right (Option.some_ne_none k).symm).symm
  · exact not_mentions_sum_added hnodup
      (fun k _ => ⟨_, k, rfl, fun hmem => ht (about_of_mentions hmem)⟩) k

theorem Traced.register (h : Traced P o calls s) {k : κ} (hs : s.registerSubCommand P k = some s') :
    Traced P o (calls ++ [.registerSubCommand k]) s' := by
  obtain ⟨c, r, hholds, hgood, hnodup, hr, hhas, hplaced⟩ := h
  rw [Registry.registerSubCommand, hholds.registered] at hs
  split at hs
  · cases hs
  · have hr' : ∀ j, j ∈ r.insert k ↔ j ∈ registered P (calls ++ [Call.registerSubCommand k]) := by
      intro j
      rw [List.mem_insert_iff, hr, mem_registered_concat, Call.registers, Option.some.injEq, eq_comm]
    have hstart : Registry.Holds P c (r.insert k) { s with registeredSubCommands := r.insert k } :=
      ⟨hholds.contents, hholds.name, rfl, hholds.ignoreDuplicates⟩
    have hne : Call.registerSubCommand k ≠ .addOption o := fun heq => by cases heq
    dsimp only at hs
    split at hs
    · cases hs
      refine .other (x := 0) hplaced hhas ?_ ?_ (hnodup.insert) hr' hne
        fun _ => not_mentions_zero
      · rwa [add_zero]
      · rwa [add_zero]
    · have hspec := foldlM_adds (f := fun s e => s.addTo P k (tellOf P e))
        (g := fun e => CommandLine.added P (r.insert k) ((tellOf P e).contents P) k)
        (l := P.mapOrder (s.subs P.getAllSubCommands).optionsMap) hstart hgood
        fun c s e _ h hgood => Registry.addTo_spec h hgood k (tellOf P e)
      refine .other hplaced hhas (hspec.post s' hs) (hspec.ok_of_some hs) hnodup.insert hr'
        hne fun j => not_mentions_sum_added hnodup.insert
          (fun e he => ⟨_, k, rfl, fun hmem => hhas ⟨e.1, ?_⟩⟩) j
      have hcontents : ((s.subs P.getAllSubCommands).optionsMap : Multiset (Str × ι)) =
          (c P.getAllSubCommands).1 := congrArg Prod.fst (hholds.contents P.getAllSubCommands)
      have habout : (tellOf P e).about = e.2 := by
        rw [tellOf]
        split
        · rfl
        · rfl
      rw [← hcontents, ← about_of_mentions hmem, habout]
      exact (P.mapOrder_perm _).mem_iff.mp he

end

theorem Traced.call {o : ι} {s' : Registry κ ι} {a : Call κ ι} (h : Traced P o calls s)
    (hname : hasArgStr P o = false) (hspecial : isSpecial P o = true)
    (ha : ∀ name, a ≠ .addLiteralOption o name) (hs : s.call P a = some s') :
    Traced P o (calls ++ [a]) s' := by
  cases a with
  | addOption o' =>
    by_cases ho : o' = o
    · subst ho
      exact h.added hname hspecial hs
    · exact h.add_other (t := .option o') ho rfl (fun heq => ho (Call.addOption.inj heq)) hs
  | addLiteralOption o' name =>
    have ho : o' ≠ o := by
      rintro rfl
      exact ha name rfl
    exact h.add_other (t := .literal o' name) ho rfl (fun heq => by cases heq) hs
  | registerSubCommand k => exact h.register hs

theorem Traced.init (P : Program κ ι) (o : ι) : Traced P o [] (Registry.init P) := by
  obtain ⟨⟨hgood, -⟩, -⟩ := Registry.init_done P
  refine ⟨0, [P.getTopLevelSubCommand, P.getAllSubCommands], ⟨fun _ => rfl, fun _ => rfl, rfl, rfl⟩,
    fun _ => ⟨Multiset.nodup_zero, Nat.zero_le 1⟩, by simp [P.ne], fun _ => .rfl, not_has_zero,
    fun k _ => iff_of_false not_placed_zero ?_⟩
  rintro ⟨before, behind, heq, -⟩
  exact List.append_ne_nil_of_right_ne_nil before (List.cons_ne_nil _ behind) heq.symm

theorem Traced.run {o : ι} {more : List (Call κ ι)} {s' : Registry κ ι} (h : Traced P o calls s)
    (hname : hasArgStr P o = false) (hspecial : isSpecial P o = true)
    (hliteral : ∀ name, .addLiteralOption o name ∉ more) (hs : s.run P more = some s') :
    Traced P o (calls ++ more) s' := by
  induction more generalizing calls s with
  | nil =>
    cases hs
    rwa [List.append_nil]
  | cons a more ih =>
    rw [Registry.run, List.foldlM_cons] at hs
    obtain ⟨s₁, hs₁, hs⟩ := Option.bind_eq_some_iff.mp hs
    have hone := h.call hname hspecial (fun name heq => hliteral name (heq ▸ List.mem_cons_self)) hs₁
    rw [List.append_cons]
    exact ih hone (fun name hmem => hliteral name (List.mem_cons_of_mem _ hmem)) hs

section

variable [DecidableEq ι]

/-- The names that `removeOption` erases. Without a name of its own, an option has those of its values. -/
def optionNames (P : Program κ ι) (o : ι) (values : List Str) : List Str :=
  if hasArgStr P o then [(P.opt o).argStr] else values

omit [DecidableEq κ] in
/-- `removeOption` for a subcommand -/
def SubCommand.removeOption (P : Program κ ι) (o : ι) (values : List Str) (sub : SubCommand ι) :
    SubCommand ι :=
  let sub := { sub with optionsMap := sub.optionsMap.filter fun e => !(optionNames P o values).contains e.1 }
  if isPositional P o then { sub with positionalOpts := sub.positionalOpts.erase o }
  else if isSink P o then { sub with sinkOpts := sub.sinkOpts.erase o }
  else if sub.consumeAfterOpt = some o then { sub with consumeAfterOpt := none }
  else sub

/-- An option for all subcommands is removed from the registered ones. -/
def Registry.removedFrom (P : Program κ ι) (s : Registry κ ι) (o : ι) : List κ :=
  if P.getAllSubCommands ∈ P.subsOf o then P.subOrder s.registeredSubCommands else P.subsOf o

/-- `removeOption` -/
def Registry.removeOption (P : Program κ ι) (s : Registry κ ι) (o : ι) (values : List Str) :
    Registry κ ι :=
  (s.removedFrom P o).foldl
    (fun s k => { s with subs := Function.update s.subs k ((s.subs k).removeOption P o values) }) s

omit [DecidableEq κ] [DecidableEq ι] in
theorem filter_names (hgood : sub.contents.Good) {o : ι} {values : List Str} {c : Contents ι}
    {names : Multiset (Str × ι)} (h : sub.contents = c + ((names, 0, 0, 0) + optionContents P o))
    (hnames : ∀ name, name ∈ optionNames P o values ↔ name ∈ names.map Prod.fst) :
    ((sub.optionsMap.filter fun e => !(optionNames P o values).contains e.1 : List (Str × ι)) :
      Multiset (Str × ι)) = c.1 := by
  have hfst : (sub.optionsMap : Multiset (Str × ι)) = c.1 + names := by
    have hfst := congrArg Prod.fst h
    rwa [Prod.fst_add, Prod.fst_add, optionContents_fst, add_zero] at hfst
  have hnodup := hgood.1
  rw [SubCommand.contents, hfst, Multiset.map_add, Multiset.nodup_add] at hnodup
  have hdisjoint : ∀ name ∈ c.1.map Prod.fst, name ∉ names.map Prod.fst := fun name hmem =>
    Multiset.disjoint_left.mp hnodup.2.2 hmem
  have hfilter : ((sub.optionsMap.filter fun e => !(optionNames P o values).contains e.1 : List (Str × ι)) :
      Multiset (Str × ι)) = (sub.optionsMap : Multiset (Str × ι)).filter fun e =>
        e.1 ∉ optionNames P o values := by
    have hcongr : (sub.optionsMap.filter fun e => !(optionNames P o values).contains e.1) =
        sub.optionsMap.filter fun e => e.1 ∉ optionNames P o values :=
      List.filter_congr fun e _ => by rw [List.contains_eq_mem, decide_not]
    rw [hcongr, Multiset.filter_coe]
  have hkept : ∀ e ∈ c.1, e.1 ∉ optionNames P o values := by
    intro e he hmem
    exact hdisjoint e.1 (Multiset.mem_map_of_mem Prod.fst he) ((hnames e.1).mp hmem)
  have hgone : ∀ e ∈ names, ¬ e.1 ∉ optionNames P o values := by
    intro e he hmem
    exact hmem ((hnames e.1).mpr (Multiset.mem_map_of_mem Prod.fst he))
  rw [hfilter, hfst, Multiset.filter_add, Multiset.filter_eq_self.mpr hkept,
    Multiset.filter_eq_nil.mpr hgone, add_zero]

theorem erase_add_singleton (x : Multiset ι) (o : ι) : (x + {o}).erase o = x := by
  rw [add_comm, Multiset.singleton_add, Multiset.erase_cons_head]

omit [DecidableEq κ] in
/-- **What was added is taken away**, if the names are those of the option. -/
theorem contents_removeOption (hgood : sub.contents.Good)
    (hconsume : ∀ o, sub.consumeAfterOpt = some o → isConsumeAfter P o = true) {o : ι}
    {values : List Str} {c : Contents ι} {names : Multiset (Str × ι)}
    (h : sub.contents = c + ((names, 0, 0, 0) + optionContents P o))
    (hnames : ∀ name, name ∈ optionNames P o values ↔ name ∈ names.map Prod.fst) :
    (sub.removeOption P o values).contents = c := by
  have hmap := filter_names hgood h hnames
  obtain ⟨names', pos, sinks, after⟩ := c
  rw [SubCommand.removeOption]
  rw [SubCommand.contents, optionContents] at h
  split at h
  · rename_i hpos
    simp only [Prod.mk_add_mk, Prod.mk.injEq, add_zero, zero_add] at h
    rw [if_pos hpos, SubCommand.contents, hmap, ← Multiset.coe_erase, h.2.1, erase_add_singleton, h.2.2.1,
      h.2.2.2]
  · rename_i hpos
    rw [if_neg hpos]
    split at h
    · rename_i hsink
      simp only [Prod.mk_add_mk, Prod.mk.injEq, add_zero, zero_add] at h
      rw [if_pos hsink, SubCommand.contents, hmap, ← Multiset.coe_erase, h.2.1, h.2.2.1,
        erase_add_singleton, h.2.2.2]
    · rename_i hsink
      rw [if_neg hsink]
      split at h
      · simp only [Prod.mk_add_mk, Prod.mk.injEq, add_zero, zero_add] at h
        obtain ⟨hconsumer, hzero⟩ : sub.consumeAfterOpt = some o ∧ after = 0 := by
          have hafter := h.2.2.2
          rw [add_comm, Multiset.singleton_add] at hafter
          cases hopt : sub.consumeAfterOpt with
          | none =>
            rw [hopt] at hafter
            exact absurd hafter.symm (Multiset.cons_ne_zero)
          | some o' =>
            rw [hopt] at hafter
            obtain ⟨rfl, hzero⟩ := Multiset.singleton_eq_cons_iff _ |>.mp hafter
            exact ⟨rfl, hzero⟩
        rw [if_pos hconsumer, SubCommand.contents, hmap, h.2.1, h.2.2.1, hzero]
        rfl
      · rename_i hafter
        rw [add_zero] at h
        simp only [Prod.mk_add_mk, Prod.mk.injEq, add_zero] at h
        rw [if_neg fun heq => hafter (hconsume o heq), SubCommand.contents, hmap, h.2.1, h.2.2.1, h.2.2.2]

omit [DecidableEq ι] in
theorem foldl_update {f : SubCommand ι → SubCommand ι} {ks : List κ} (h : ks.Nodup) (s : Registry κ ι)
    (k : κ) :
    (ks.foldl (fun s k => { s with subs := Function.update s.subs k (f (s.subs k)) }) s).subs k =
      if k ∈ ks then f (s.subs k) else s.subs k := by
  induction ks generalizing s with
  | nil => rfl
  | cons j ks ih =>
    obtain ⟨hj, h⟩ := List.nodup_cons.mp h
    rw [List.foldl_cons, ih h]
    show (if k ∈ ks then f (Function.update s.subs j (f (s.subs j)) k)
      else Function.update s.subs j (f (s.subs j)) k) = _
    by_cases hk : k = j
    · subst hk
      rw [if_neg hj, if_pos List.mem_cons_self, Function.update_self]
    · rw [Function.update_of_ne hk]
      simp only [List.mem_cons, hk, false_or]

/-- The call is about the option. -/
def Call.isAbout (o : ι) : Call κ ι → Bool
  | .addOption o' | .addLiteralOption o' _ => o' = o
  | .registerSubCommand _ => false

omit [DecidableEq κ] [DecidableEq ι] in
/-- What a call adds to each subcommand of its option. -/
def Call.contents (P : Program κ ι) : Call κ ι → Contents ι
  | .addOption o => (Tell.option o).contents P
  | .addLiteralOption o name => (Tell.literal o name).contents P
  | .registerSubCommand _ => 0

/-- What the calls about an option add to each of its subcommands. -/
def ownContents (P : Program κ ι) (o : ι) (calls : List (Call κ ι)) : Contents ι :=
  ((calls.filter (Call.isAbout o)).map (Call.contents P)).sum

theorem direct_of_isAbout {o : ι} {c : Call κ ι} (h : c.isAbout o = true) (k : κ) :
    c.direct P k = if k ∈ P.subsOf o then c.contents P else 0 := by
  cases c with
  | addOption o' =>
    obtain rfl := of_decide_eq_true h
    rfl
  | addLiteralOption o' name =>
    obtain rfl := of_decide_eq_true h
    rfl
  | registerSubCommand k' => cases h

theorem direct_own (o : ι) (calls : List (Call κ ι)) (k : κ) :
    direct P (calls.filter (Call.isAbout o)) k = if k ∈ P.subsOf o then ownContents P o calls else 0 := by
  have hmap : (calls.filter (Call.isAbout o)).map (fun c => c.direct P k) =
      (calls.filter (Call.isAbout o)).map fun c => if k ∈ P.subsOf o then c.contents P else 0 :=
    List.map_congr_left fun c hc => direct_of_isAbout (List.mem_filter.mp hc).2 k
  rw [direct, hmap, ownContents]
  split
  · rfl
  · exact List.sum_eq_zero (by simp)

omit [DecidableEq κ] in
/-- The calls that are about other options, and those about the option. -/
theorem others_perm (o : ι) (calls : List (Call κ ι)) :
    ((calls.filter fun c => !c.isAbout o) ++ calls.filter (Call.isAbout o)).Perm calls :=
  List.perm_append_comm.trans (List.filter_append_perm _ _)

omit [DecidableEq κ] in
theorem registered_own (o : ι) (calls : List (Call κ ι)) :
    (calls.filter (Call.isAbout o)).filterMap Call.registers = [] := by
  rw [List.filterMap_eq_nil_iff]
  intro c hc
  cases c with
  | addOption o' => rfl
  | addLiteralOption o' name => rfl
  | registerSubCommand k => cases (List.mem_filter.mp hc).2

omit [DecidableEq κ] in
theorem mem_registered_others (o : ι) (calls : List (Call κ ι)) (k : κ) :
    k ∈ registered P (calls.filter fun c => !c.isAbout o) ↔ k ∈ registered P calls := by
  have hperm := (others_perm o calls).filterMap Call.registers
  rw [List.filterMap_append, registered_own, List.append_nil] at hperm
  exact (hperm.append_right _).mem_iff

/-- What the calls want without the option, and what they want of it. -/
theorem wanted_others (o : ι) (calls : List (Call κ ι)) (k : κ) :
    wanted P calls k = wanted P (calls.filter fun c => !c.isAbout o) k +
      ((if k ∈ P.subsOf o then ownContents P o calls else 0) +
        if (k ∈ registered P calls ∧ k ≠ P.getAllSubCommands) ∧ P.getAllSubCommands ∈ P.subsOf o then
          ownContents P o calls else 0) := by
  have hdirect : ∀ k, direct P calls k = direct P (calls.filter fun c => !c.isAbout o) k +
      if k ∈ P.subsOf o then ownContents P o calls else 0 := by
    intro k
    rw [← direct_own, ← direct_append]
    exact ((others_perm o calls).map _).sum_eq.symm
  rw [wanted, wanted, hdirect, hdirect P.getAllSubCommands]
  simp only [mem_registered_others]
  by_cases hk : k ∈ registered P calls ∧ k ≠ P.getAllSubCommands
  · simp only [if_pos hk, and_iff_right hk]
    exact add_add_add_comm (direct P (calls.filter fun c => !c.isAbout o) k) _ _ _
  · simp only [if_neg hk, if_neg fun h : _ ∧ _ => hk h.1, add_zero]

/-- The names of an option are those that calls gave to it. -/
def HasNames (P : Program κ ι) (calls : List (Call κ ι)) (o : ι) (values : List Str) : Prop :=
  hasArgStr P o = false → ∀ name, name ∈ values ↔ .addLiteralOption o name ∈ calls

theorem ownContents_snd (o : ι) (calls : List (Call κ ι)) :
    (ownContents P o calls).2 = calls.count (.addOption o) • (optionContents P o).2 := by
  rw [ownContents]
  induction calls with
  | nil => exact (zero_nsmul _).symm
  | cons c calls ih =>
    by_cases hc : c.isAbout o = true
    · rw [List.filter_cons_of_pos hc, List.map_cons, List.sum_cons, Prod.snd_add, ih]
      cases c with
      | addOption o' =>
        obtain rfl := of_decide_eq_true hc
        rw [List.count_cons_self, succ_nsmul', Call.contents, Tell.contents, Prod.snd_add]
        congr 1
        exact zero_add _
      | addLiteralOption o' name =>
        rw [List.count_cons_of_ne fun heq => by cases heq]
        exact zero_add _
      | registerSubCommand k => cases hc
    · have hne : c ≠ .addOption o := by
        rintro rfl
        exact hc (decide_eq_true rfl)
      rw [List.filter_cons_of_neg hc, ih, List.count_cons_of_ne hne]

theorem mem_ownContents {o : ι} {values : List Str} (hadd : .addOption o ∈ calls)
    (hvalues : HasNames P calls o values) (name : Str) :
    name ∈ optionNames P o values ↔ name ∈ (ownContents P o calls).1.map Prod.fst := by
  obtain ⟨j, hj⟩ : ∃ j, j ∈ P.subsOf o := by
    rw [Program.subsOf]
    split
    · exact ⟨_, List.mem_cons_self⟩
    · exact List.exists_mem_of_ne_nil _ ‹_›
  have hown := direct_own (P := P) o calls j
  rw [if_pos hj] at hown
  rw [← hown, Multiset.mem_map, optionNames]
  constructor
  · intro hname
    refine ⟨(name, o), mem_direct.mpr ?_, rfl⟩
    split at hname
    · rename_i harg
      exact ⟨.addOption o, List.mem_filter.mpr ⟨hadd, decide_eq_true rfl⟩, rfl, hj, harg,
        (List.mem_singleton.mp hname).symm⟩
    · rename_i harg
      have hfalse := Bool.eq_false_iff.mpr harg
      exact ⟨.addLiteralOption o name,
        List.mem_filter.mpr ⟨(hvalues hfalse name).mp hname, decide_eq_true rfl⟩, rfl, hj, hfalse, rfl⟩
  · rintro ⟨⟨name, o'⟩, hmem, rfl⟩
    obtain ⟨c, hc, hdeclares⟩ := mem_direct.mp hmem
    obtain ⟨hcalls, habout⟩ := List.mem_filter.mp hc
    cases c with
    | addOption o'' =>
      obtain rfl := of_decide_eq_true habout
      obtain ⟨rfl, -, harg, rfl⟩ := hdeclares
      rw [if_pos harg]
      exact List.mem_cons_self
    | addLiteralOption o'' name' =>
      obtain rfl := of_decide_eq_true habout
      obtain ⟨rfl, -, harg, rfl⟩ := hdeclares
      rw [if_neg (by rw [harg]; exact Bool.false_ne_true)]
      exact (hvalues harg name').mpr hcalls
    | registerSubCommand k => cases habout

omit [DecidableEq κ] [DecidableEq ι] in
theorem isConsumeAfter_of_mem {o o' : ι} (h : o ∈ (optionContents P o').2.2.2) :
    isConsumeAfter P o = true := by
  rw [optionContents] at h
  split at h
  · exact absurd h (Multiset.notMem_zero _)
  · split at h
    · exact absurd h (Multiset.notMem_zero _)
    · split at h
      · rename_i hafter
        rwa [Multiset.mem_singleton.mp h]
      · exact absurd h (Multiset.notMem_zero _)

omit [DecidableEq ι] in
theorem isConsumeAfter_of_direct {k : κ} {o : ι} (h : o ∈ (direct P calls k).2.2.2) :
    isConsumeAfter P o = true := by
  induction calls with
  | nil => exact absurd h (Multiset.notMem_zero _)
  | cons c calls ih =>
    rw [direct, List.map_cons, List.sum_cons] at h
    rcases Multiset.mem_add.mp h with h | h
    · cases c with
      | addOption o' =>
        rw [Call.direct] at h
        split at h
        · apply isConsumeAfter_of_mem
          rcases Multiset.mem_add.mp h with h | h
          · exact absurd h (Multiset.notMem_zero _)
          · exact h
        · exact absurd h (Multiset.notMem_zero _)
      | addLiteralOption o' name =>
        rw [Call.direct] at h
        split at h
        · exact absurd h (Multiset.notMem_zero _)
        · exact absurd h (Multiset.notMem_zero _)
      | registerSubCommand k' => exact absurd h (Multiset.notMem_zero _)
    · exact ih h

omit [DecidableEq ι] in
theorem isConsumeAfter_of_wanted {k : κ} {o : ι} (h : o ∈ (wanted P calls k).2.2.2) :
    isConsumeAfter P o = true := by
  rw [wanted] at h
  rcases Multiset.mem_add.mp h with h | h
  · exact isConsumeAfter_of_direct h
  · split at h
    · exact isConsumeAfter_of_direct h
    · exact absurd h (Multiset.notMem_zero _)

omit [DecidableEq ι] in
theorem nodup_removedFrom (h : ∀ c ∈ calls, c.Ordinary P)
    (hnames : ((calls.filterMap Call.registers).map P.name).Nodup) (hr : r.Perm (registered P calls))
    (hregistered : s.registeredSubCommands = r) (o : ι) : (s.removedFrom P o).Nodup := by
  rw [Registry.removedFrom]
  split
  · rw [(P.subOrder_perm _).nodup_iff, hregistered, hr.nodup_iff]
    exact registered_nodup h hnames
  · exact subsOf_nodup P o

/-- An option has been added to the subcommands that it is removed from, and to no other ones. -/
theorem wanted_removedFrom (hr : s.registeredSubCommands.Perm (registered P calls)) {o : ι}
    (hsubs : P.getAllSubCommands ∈ P.subsOf o → P.subsOf o = [P.getAllSubCommands]) (k : κ) :
    wanted P calls k = wanted P (calls.filter fun c => !c.isAbout o) k +
      if k ∈ s.removedFrom P o then ownContents P o calls else 0 := by
  have hall : P.getAllSubCommands ∈ registered P calls :=
    List.mem_append_right _ (List.mem_cons_of_mem _ List.mem_cons_self)
  rw [wanted_others o, Registry.removedFrom]
  congr 1
  by_cases hmem : P.getAllSubCommands ∈ P.subsOf o
  · have hmap : ∀ k, k ∈ P.subOrder s.registeredSubCommands ↔ k ∈ registered P calls := fun k =>
      (P.subOrder_perm _).mem_iff.trans hr.mem_iff
    simp only [hsubs hmem, List.mem_singleton, and_true, if_true, hmap]
    by_cases hk : k = P.getAllSubCommands
    · simp [hk, hall]
    · simp [hk]
  · simp [hmem]

/-- **An option that is removed** leaves the registry as if it had never been there, if it was added once,
its names are those that calls gave to it, and it is for all subcommands or for some of them. -/
theorem removeOption_undoes (P : Program κ ι) {calls : List (Call κ ι)} (h : ∀ c ∈ calls, c.Ordinary P)
    {s : Registry κ ι} (hs : (Registry.init P).run P calls = some s) {o : ι} {values : List Str}
    (honce : calls.count (.addOption o) = 1) (hvalues : HasNames P calls o values)
    (hsubs : P.getAllSubCommands ∈ P.subsOf o → P.subsOf o = [P.getAllSubCommands]) :
    ∃ s', (Registry.init P).run P (calls.filter fun c => !c.isAbout o) = some s' ∧
      s.registeredSubCommands.Perm s'.registeredSubCommands ∧
      ∀ k, ((s.removeOption P o values).subs k).Same (s'.subs k) := by
  have hrun := Registry.run_done h
  have hfits := hrun.ok_of_some hs
  have hrun' : ResultIff ((Registry.init P).run P (calls.filter fun c => !c.isAbout o))
      (Fits P (calls.filter fun c => !c.isAbout o))
      (Registry.Done P (calls.filter fun c => !c.isAbout o)) :=
    Registry.run_done fun c hc => h c (List.mem_filter.mp hc).1
  have hfits' : Fits P (calls.filter fun c => !c.isAbout o) :=
    (hfits.perm (others_perm o calls).symm).of_append
  obtain ⟨s', hs', r', hr', hholds'⟩ := hrun'.exists_of_ok hfits'
  obtain ⟨r, hr, hholds⟩ := hrun.post s hs
  have hregistered : (registered P (calls.filter fun c => !c.isAbout o)).Perm (registered P calls) := by
    have hperm := (others_perm o calls).filterMap Call.registers
    rw [List.filterMap_append, registered_own, List.append_nil] at hperm
    exact hperm.append_right _
  refine ⟨s', hs', ?_, fun k => same_of_contents ?_⟩
  · rw [hholds.registered, hholds'.registered]
    exact hr.trans (hregistered.symm.trans hr'.symm)
  have hown : ownContents P o calls = ((ownContents P o calls).1, 0, 0, 0) + optionContents P o := by
    refine Prod.ext ?_ ?_
    · rw [Prod.fst_add, optionContents_fst, add_zero]
    · rw [ownContents_snd, honce, one_nsmul]
      exact (zero_add _).symm
  have hgood : (s.subs k).contents.Good := hholds.contents k ▸ hfits.1 k
  have hcontents := (hholds.contents k).trans
    (wanted_removedFrom (hholds.registered ▸ hr : s.registeredSubCommands.Perm _) hsubs k)
  rw [Registry.removeOption, foldl_update (nodup_removedFrom h hfits.2 hr hholds.registered o),
    hholds'.contents]
  split
  · rename_i hk
    rw [if_pos hk, hown] at hcontents
    refine contents_removeOption hgood (fun o' ho' => ?_) hcontents
      (mem_ownContents (List.count_pos_iff.mp (by omega)) hvalues)
    have hafter : o' ∈ (wanted P calls k).2.2.2 := by
      rw [← hholds.contents]
      show o' ∈ ((s.subs k).consumeAfterOpt.toList : Multiset ι)
      rw [ho']
      exact Multiset.mem_singleton_self o'
    exact isConsumeAfter_of_wanted hafter
  · rename_i hk
    rwa [if_neg hk, add_zero] at hcontents

theorem removeOption_undoes_verbose : ∃ s s',
    (Registry.init sampleProgram).run sampleProgram sampleCalls = some s ∧
      (Registry.init sampleProgram).run sampleProgram
        (sampleCalls.filter fun c => !c.isAbout .verbose) = some s' ∧
      s.registeredSubCommands.Perm s'.registeredSubCommands ∧
      ∀ k, ((s.removeOption sampleProgram .verbose []).subs k).Same (s'.subs k) := by
  obtain ⟨s, hs⟩ := exists_sample_run
  have honce : sampleCalls.count (.addOption .verbose) = 1 := rfl
  have hnames : HasNames sampleProgram sampleCalls .verbose [] := fun hname => by cases hname
  obtain ⟨s', hs'⟩ := removeOption_undoes sampleProgram (by decide) hs honce hnames fun _ => rfl
  exact ⟨s, s', hs, hs'⟩

end

end Primitives.CommandLine
