import Mathlib.Logic.Function.Basic
import Mathlib.Data.List.Chain
import Mathlib.Data.List.Nodup

/-!
# Pipes of commands

`c1 | c2` sets `next` of the left command and `prev` of the right one, and returns the left one. So
in `c1 | c2 | c3` it is `c1` that both pipes begin at, and the second pipe takes the place of the
first. A pipe of two commands is a chain, and a longer one is not (`pipe_iff`).

What libuv does with a command, and how its executable is found, is left open: a command is one that
resolves or one that does not.
-/

set_option autoImplicit false

namespace Primitives.Command

/-! ## The code -/

/-- `prev` and `next` of every command. -/
structure Links where
  prev : Nat → Option Nat
  next : Nat → Option Nat

/-- `c.appendPipeCommand(c2)` -/
def appendPipeCommand (l : Links) (c c2 : Nat) : Links where
  next := Function.update l.next c (some c2)
  prev := Function.update l.prev c2 (some c)

/-- `c | c2`, and the command it returns. -/
def pipeOperator (l : Links) (c c2 : Nat) : Links × Nat := (appendPipeCommand l c c2, c)

/-- `c |= c2`, and the command it returns. -/
def pipeAssign (l : Links) (c c2 : Nat) : Links × Nat := pipeOperator l c c2

/-- What `execute2` returns, the commands that it starts, and the pipes from the output of one to the
input of another. -/
structure Started where
  cmds : List Nat
  executed : List Nat
  pipes : List (Nat × Nat)
deriving DecidableEq, Repr

/-- The loop of `execute2`, from a command `p` behind `last` on. It takes `n` turns at most. -/
def executeNext (l : Links) (resolves : Nat → Bool) :
    Nat → Nat → Option Nat → List Nat → List (Nat × Nat) → Option Started
  | _, _, none, cmds, pipes => some ⟨cmds, cmds, pipes⟩
  | 0, _, some _, _, _ => none
  | n + 1, last, some p, cmds, pipes =>
    if resolves p then executeNext l resolves n p (l.next p) (cmds ++ [p]) (pipes ++ [(last, p)])
    else some ⟨cmds, [], pipes⟩

def execute2 (l : Links) (resolves : Nat → Bool) (n c : Nat) : Option Started :=
  if resolves c then executeNext l resolves n c (l.next c) [c] [] else some ⟨[], [], []⟩

/-! ## Pipelines -/

/-- `c | c2 | … | cn` -/
def pipe (l : Links) (c : Nat) (cs : List Nat) : Links × Nat :=
  cs.foldl (fun s d => pipeOperator s.1 s.2 d) (l, c)

/-- `c |= c2`, `c |= c3` and so on, one after another. -/
def pipeAll (l : Links) (c : Nat) (cs : List Nat) : Links :=
  cs.foldl (fun l d => (pipeAssign l c d).1) l

/-- The `next` links visit the commands of a list. -/
def Visits (l : Links) : Option Nat → List Nat → Prop
  | p, [] => p = none
  | p, c :: cs => p = some c ∧ Visits l (l.next c) cs

/-- The commands are a chain: `next` visits them, `prev` leads back, and `execute2` starts them with
the output of each piped into the next. -/
structure Pipeline (l : Links) (c : Nat) (cs : List Nat) : Prop where
  next : Visits l (some c) (c :: cs)
  first : l.prev c = none
  prev : (c :: cs).IsChain fun a b => l.prev b = some a
  execute : ∃ n, execute2 l (fun _ => true) n c =
    some ⟨c :: cs, c :: cs, (c :: cs).zip cs⟩

theorem pipe_eq (l : Links) (c : Nat) (cs : List Nat) : pipe l c cs = (pipeAll l c cs, c) := by
  induction cs generalizing l with
  | nil => rfl
  | cons d cs ih => exact ih (appendPipeCommand l c d)

/-- The last command is the one behind the first. -/
theorem next_pipeAll (l : Links) (c d : Nat) (cs : List Nat) :
    (pipeAll l c (cs ++ [d])).next c = some d := by
  rw [pipeAll, List.foldl_concat]
  exact Function.update_self ..

theorem not_visits_pipeAll {l : Links} {c d : Nat} {cs : List Nat} (hne : cs ≠ [])
    (hnodup : (cs ++ [d]).Nodup) : ¬ Visits (pipeAll l c (cs ++ [d])) (some c) (c :: (cs ++ [d])) := by
  intro h
  obtain ⟨b, cs, rfl⟩ := List.exists_cons_of_ne_nil hne
  have hnext : (pipeAll l c (b :: cs ++ [d])).next c = some b := h.2.1
  rw [next_pipeAll] at hnext
  cases hnext
  exact (List.nodup_cons.mp hnodup).1 (by simp)

theorem pipeline_two {l : Links} {c d : Nat} (hne : c ≠ d) (hc : l.prev c = none)
    (hd : l.next d = none) : Pipeline (pipeAll l c [d]) c [d] := by
  have hnext : (pipeAll l c [d]).next c = some d := Function.update_self ..
  have hlast : (pipeAll l c [d]).next d = none :=
    (Function.update_of_ne hne.symm _ _).trans hd
  refine ⟨⟨rfl, hnext, hlast⟩, (Function.update_of_ne hne _ _).trans hc, ?_, 1, ?_⟩
  · simp [pipeAll, pipeAssign, pipeOperator, appendPipeCommand]
  · simp [execute2, executeNext, hnext, hlast]

/-- **Pipes** of distinct commands that were not piped before, by `|` or by `|=`, are a chain if and
only if there are two. -/
theorem pipe_iff (l : Links) (c : Nat) (cs : List Nat) (hne : cs ≠ []) (hnodup : (c :: cs).Nodup)
    (hnew : ∀ d ∈ c :: cs, l.prev d = none ∧ l.next d = none) :
    (Pipeline (pipe l c cs).1 (pipe l c cs).2 cs ↔ cs.length = 1) ∧
    (Pipeline (pipeAll l c cs) c cs ↔ cs.length = 1) := by
  rw [pipe_eq]
  refine and_self_iff.mpr ⟨?_, ?_⟩
  · intro h
    by_contra hlen
    obtain ⟨cs, d, rfl⟩ := (List.eq_nil_or_concat' cs).resolve_left hne
    have hcs : cs ≠ [] := by
      rintro rfl
      exact hlen rfl
    exact not_visits_pipeAll hcs (List.nodup_cons.mp hnodup).2 h.next
  · intro hlen
    obtain ⟨d, rfl⟩ := List.length_eq_one_iff.mp hlen
    have hcd : c ≠ d := by
      rintro rfl
      exact (List.nodup_cons.mp hnodup).1 (by simp)
    exact pipeline_two hcd (hnew c (by simp)).1 (hnew d (by simp)).2

/-- Commands without links. -/
def single : Links := ⟨fun _ => none, fun _ => none⟩

theorem pipe_two : Pipeline (pipe single 1 [2]).1 (pipe single 1 [2]).2 [2] :=
  (pipe_iff single 1 [2] (by decide) (by decide) fun _ _ => ⟨rfl, rfl⟩).1.mpr rfl

/-- Of three commands the first is piped into the third, and the second is not started. -/
theorem pipe_three_skips : (pipe single 1 [2, 3]).2 = 1 ∧ (pipe single 1 [2, 3]).1.next 1 = some 3 ∧
    (pipe single 1 [2, 3]).1.prev 3 = some 1 ∧
    execute2 (pipe single 1 [2, 3]).1 (fun _ => true) 3 1 = some ⟨[1, 3], [1, 3], [(1, 3)]⟩ ∧
    ¬ Pipeline (pipe single 1 [2, 3]).1 (pipe single 1 [2, 3]).2 [2, 3] := by
  refine ⟨rfl, rfl, rfl, rfl, ?_⟩
  intro h
  cases h.next.2.1

end Primitives.Command
