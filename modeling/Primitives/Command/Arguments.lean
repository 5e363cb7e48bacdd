import Mathlib.Logic.Function.Basic
import Primitives.Command.Positions

/-!
# Lists of arguments

`Arguments` puts clones of the arguments of another list behind its own (`push_back`) or before them
(`push_front`), one by one. One by one before the own means in the order from the last to the first. And
the other list may be the same one: the loop goes through a deque that it puts elements into, and its
iterators are not valid any more after the first.

So a list is put behind another as it should unless it is not empty and the same, and before another
unless it is that, or reads otherwise from behind (`push_iff`).
-/

set_option autoImplicit false

namespace Primitives.Command

/-! ## The code -/

inductive Argument where
  /-- `SimpleArgument` -/
  | simple (a : Str) (affectsOutput : Bool)
  /-- `SimplePositionalArgument` -/
  | positional (a : Str) (affectsOutput : Bool) (pos : ArgumentPosition)
deriving DecidableEq, Repr

namespace Argument

def toString : Argument → Str
  | simple a _ => a
  | positional a _ _ => a

def getPosition : Argument → ArgumentPosition
  | simple _ _ => ⟨[]⟩
  | positional _ _ pos => pos

def clone : Argument → Argument
  | simple a affectsOutput => .simple a affectsOutput
  | positional a affectsOutput pos => .positional a affectsOutput pos

end Argument

/-- The deque of `Arguments`. An insertion at an end invalidates all iterators: those of an epoch before
are not valid. -/
structure Arguments where
  args : List Argument
  epoch : Nat
deriving DecidableEq, Repr

namespace Arguments

/-- `args.push_back` -/
def insertBack (l : Arguments) (e : Argument) : Arguments := ⟨l.args ++ [e], l.epoch + 1⟩

/-- `args.push_front` -/
def insertFront (l : Arguments) (e : Argument) : Arguments := ⟨e :: l.args, l.epoch + 1⟩

end Arguments

-- where the lists are
variable {ι : Type} [DecidableEq ι]

abbrev Heap (ι : Type) := ι → Arguments

section

variable (insert : Arguments → Argument → Arguments) (this args2 : ι)

/-- One round of `for (auto &a : args2)`, with an iterator that is of the epoch and stands at the index,
and `++` of it; `none` if it is not valid then. -/
def round (epoch : Nat) (h : Heap ι) (i : Nat) : Option (Heap ι) := do
  let a ← (h args2).args[i]?
  let h := Function.update h this (insert (h this) a.clone)
  if (h args2).epoch = epoch then some h else none

/-- The loop, from the `begin` to the `end` that there are before it. -/
def insertAll (h : Heap ι) : Option (Heap ι) :=
  (List.range (h args2).args.length).foldlM (round insert this args2 (h args2).epoch) h

end

/-- `push_back` of a list; `none` is undefined behaviour. -/
def pushBack (this args2 : ι) (h : Heap ι) : Option (Heap ι) := insertAll .insertBack this args2 h

/-- `push_front` of a list; `none` is undefined behaviour. -/
def pushFront (this args2 : ι) (h : Heap ι) : Option (Heap ι) := insertAll .insertFront this args2 h

/-! ## The loop -/

theorem clone_eq (a : Argument) : a.clone = a := by
  cases a <;> rfl

/-- **Another list** is gone through as it is. -/
theorem insertAll_of_ne (insert : Arguments → Argument → Arguments) {this args2 : ι}
    (hne : args2 ≠ this) (h : Heap ι) :
    insertAll insert this args2 h =
      some (Function.update h this ((h args2).args.foldl insert (h this))) := by
  -- after some rounds so many of the elements are inserted
  have hrounds : ∀ n ≤ (h args2).args.length,
      (List.range n).foldlM (round insert this args2 (h args2).epoch) h =
        some (Function.update h this (((h args2).args.take n).foldl insert (h this))) := by
    intro n
    induction n with
    | zero =>
      intro _
      exact congrArg some (Function.update_eq_self this h).symm
    | succ n ih =>
      intro hn
      have hget := List.getElem?_eq_getElem (Nat.lt_of_succ_le hn)
      rw [List.range_succ, List.foldlM_append, ih (Nat.le_of_succ_le hn), Option.bind_eq_bind,
        Option.bind_some, List.foldlM_cons, round, Function.update_of_ne hne, hget,
        List.take_succ_eq_append_getElem (Nat.lt_of_succ_le hn), List.foldl_append]
      simp [Function.update_of_ne hne, clone_eq]
  rw [insertAll, hrounds _ (Nat.le_refl _), List.take_length]

/-- **The same list** is left with an iterator that is not valid, after its first element. -/
theorem insertAll_self (insert : Arguments → Argument → Arguments)
    (hinsert : ∀ l e, (insert l e).epoch = l.epoch + 1) (this : ι) (h : Heap ι) :
    insertAll insert this this h = if (h this).args = [] then some h else none := by
  rw [insertAll]
  cases hargs : (h this).args with
  | nil => rfl
  | cons a l =>
    have hround : round insert this this (h this).epoch h 0 = none := by
      simp [round, hargs, hinsert]
    rw [List.length_cons, List.range_succ_eq_map, List.foldlM_cons, hround, if_neg (by simp)]
    rfl

theorem foldl_insertBack (l : List Argument) (d : Arguments) :
    (l.foldl .insertBack d).args = d.args ++ l := by
  induction l generalizing d with
  | nil => exact (List.append_nil _).symm
  | cons a l ih =>
    rw [List.foldl_cons, ih, Arguments.insertBack, List.append_assoc]
    rfl

/-- One by one before the first. -/
theorem foldl_insertFront (l : List Argument) (d : Arguments) :
    (l.foldl .insertFront d).args = l.reverse ++ d.args := by
  induction l generalizing d with
  | nil => rfl
  | cons a l ih =>
    rw [List.foldl_cons, ih, Arguments.insertFront, List.reverse_cons, List.append_assoc]
    rfl

/-! ## Concatenation -/

/-- The texts and the positions of the arguments of a list. -/
def shown (h : Heap ι) (x : ι) : List (Str × ArgumentPosition) :=
  (h x).args.map fun a => (a.toString, a.getPosition)

/-- The list has these arguments after an operation, and another one is unchanged. -/
def Results (op : Heap ι → Option (Heap ι)) (this args2 : ι) (h : Heap ι)
    (args : List (Str × ArgumentPosition)) : Prop :=
  ∃ h', op h = some h' ∧ shown h' this = args ∧ (args2 ≠ this → h' args2 = h args2)

/-- What the loop results in. -/
theorem results_insertAll_iff {insert : Arguments → Argument → Arguments}
    (hinsert : ∀ l e, (insert l e).epoch = l.epoch + 1) (this args2 : ι) (h : Heap ι)
    (args : List (Str × ArgumentPosition)) :
    Results (insertAll insert this args2) this args2 h args ↔
      if args2 = this then (h this).args = [] ∧ shown h this = args
      else ((h args2).args.foldl insert (h this)).args.map
        (fun a => (a.toString, a.getPosition)) = args := by
  unfold Results
  split
  · rename_i heq
    subst heq
    rw [insertAll_self insert hinsert]
    constructor
    · rintro ⟨h', hop, hshown, -⟩
      split at hop
      · rename_i hempty
        cases hop
        exact ⟨hempty, hshown⟩
      · cases hop
    · rintro ⟨hempty, hshown⟩
      rw [if_pos hempty]
      exact ⟨h, rfl, hshown, fun _ => rfl⟩
  · rename_i hne
    rw [insertAll_of_ne insert hne]
    constructor
    · rintro ⟨h', hop, hshown, -⟩
      cases hop
      rwa [shown, Function.update_self] at hshown
    · intro hshown
      refine ⟨_, rfl, ?_, fun _ => Function.update_of_ne hne _ _⟩
      rw [shown, Function.update_self, hshown]

/-- The lists are two, or there is nothing in the one. -/
def Apart (this args2 : ι) (h : Heap ι) : Prop := args2 = this → (h this).args = []

/-- **A list put to another.** Behind it the result is right unless the two are the same and not empty;
before it the other list also has to read the same from behind. -/
theorem push_iff (this args2 : ι) (h : Heap ι) :
    (Results (pushBack this args2) this args2 h (shown h this ++ shown h args2) ↔
        Apart this args2 h) ∧
      (Results (pushFront this args2) this args2 h (shown h args2 ++ shown h this) ↔
        Apart this args2 h ∧ (shown h args2).reverse = shown h args2) := by
  unfold pushBack pushFront Apart
  rw [results_insertAll_iff (fun _ _ => rfl), results_insertAll_iff (fun _ _ => rfl),
    foldl_insertBack, foldl_insertFront]
  by_cases heq : args2 = this
  · subst heq
    simp only [if_pos trivial, forall_const]
    have hshown : (h args2).args = [] → shown h args2 = [] := by
      intro hempty
      rw [shown, hempty, List.map_nil]
    constructor
    · constructor
      · exact And.left
      · intro hempty
        refine ⟨hempty, ?_⟩
        rw [hshown hempty, List.append_nil]
    · refine and_congr_right fun hempty => ?_
      rw [hshown hempty]
      exact iff_of_true rfl rfl
  · rw [if_neg heq, if_neg heq, List.map_append, List.map_append, List.map_reverse]
    constructor
    · exact iff_of_true rfl fun h => absurd h heq
    · rw [and_iff_right fun h => absurd h heq]
      exact List.append_left_inj _

/-- Two arguments put before a third come in the order from the second to the first. -/
theorem pushFront_reverses : ¬ ∀ (this args2 : Bool) (h : Heap Bool),
    Results (pushBack this args2) this args2 h (shown h this ++ shown h args2) ∧
      Results (pushFront this args2) this args2 h (shown h args2 ++ shown h this) := by
  intro hall
  obtain ⟨-, h', hop, hshown, -⟩ := hall true false fun x =>
    if x then ⟨[.simple ['c'] true], 0⟩ else ⟨[.simple ['a'] true, .simple ['b'] true], 0⟩
  have hlist : (pushFront true false fun x : Bool =>
      if x then (⟨[.simple ['c'] true], 0⟩ : Arguments)
      else ⟨[.simple ['a'] true, .simple ['b'] true], 0⟩).map (shown · true) =
        some [(['b'], ⟨[]⟩), (['a'], ⟨[]⟩), (['c'], ⟨[]⟩)] := by decide
  rw [hop, Option.map_some, hshown] at hlist
  exact absurd hlist (by decide)

end Primitives.Command
