import Primitives.Executor.Machine
import Primitives.Lib.Run

/-!
# Workers

What a step of the executor can do (`step_cases`), and what the stack of each thread looks like.
A thread outside never takes a task and never touches a busy flag (`Outer`). A worker's flag is
cleared when a task it ran returns, and that may be a task that it ran inside another one, which
goes on. In a run where no worker does so, and none frees itself in a `wait()` of its own
(`Flat`), a worker's stack has one of a few shapes, and its flag is set in those that have a task
(`Shapes.busy_of_inside`).
-/

set_option autoImplicit false

namespace Primitives.Executor

open Lib

/-! ## Frames -/

/-- Frames of the operations that a thread starts. -/
def Frame.isOp : Frame → Bool
  | .loop | .tryPop _ false | .pop | .popFront _ _ _ | .doubleCheck _ | .run _ | .unbusy => false
  | _ => true

/-- Frames of the operations of a thread outside, which takes no tasks. -/
def Frame.outer : Frame → Bool
  | .tryPop _ _ | .scanRun _ _ => false
  | fr => fr.isOp

/-- The task that a frame has taken from a queue. -/
def Frame.holds : Frame → Option Nat
  | .popFront _ x _ | .doubleCheck (some x) | .run x => some x
  | _ => none

section Next

variable {n : Nat} {st : State} {t : Thread} {fr : Frame} {e : Effect} {frs : List Frame}

/-- An operation goes on, unless it takes a task. -/
theorem op_next (h : fr.next n st t = some (e, frs)) (hop : fr.isOp = true)
    (htake : ∀ j, e ≠ .take j) :
    (∀ fr' ∈ frs, fr'.isOp = true) ∧ (e = .unbusy → fr = .freeSelf) ∧ ∀ j, e ≠ .popFront j := by
  cases fr with
  | tryPop k inside =>
    cases inside with
    | false => cases hop
    | true =>
      simp only [Frame.next] at h
      split at h
      · cases h
        exact ⟨nofun, nofun, nofun⟩
      · split at h <;> cases h
        · exact ⟨by simp [Frame.isOp], nofun, nofun⟩
        · exact absurd rfl (htake _)
  | scanRun q r =>
    simp only [Frame.next] at h
    split at h
    · cases h
      exact ⟨by simp [Frame.isOp], nofun, nofun⟩
    · split at h <;> cases h
      · exact ⟨by simp [Frame.isOp], nofun, nofun⟩
      · exact absurd rfl (htake _)
  | freeSelf =>
    cases t <;> cases h
    · exact ⟨by simp [Frame.isOp], fun _ => rfl, nofun⟩
    · exact ⟨by simp [Frame.isOp], nofun, nofun⟩
  | loop | pop | popFront | doubleCheck | run | unbusy => cases hop
  | _ =>
    simp only [Frame.next] at h
    repeat' split at h
    all_goals cases h
    all_goals exact ⟨by simp [Frame.isOp], nofun, nofun⟩

/-- A thread outside takes no task and no flag is its own. -/
theorem outer_next {u : Nat} (h : fr.next n st (.outside u) = some (e, frs))
    (hop : fr.outer = true) :
    (∀ fr' ∈ frs, fr'.outer = true) ∧ (∀ j, e ≠ .take j) ∧ (∀ j, e ≠ .popFront j) ∧
      e ≠ .unbusy := by
  cases fr with
  | tryPop | scanRun => cases hop
  | loop | pop | popFront | doubleCheck | run | unbusy => cases hop
  | _ =>
    simp only [Frame.next] at h
    repeat' split at h
    all_goals cases h
    all_goals exact ⟨by simp [Frame.outer, Frame.isOp], nofun, nofun, nofun⟩

end Next

/-- The tasks that the frames have taken. -/
def heldBy (frames : List Frame) : List Nat := frames.filterMap Frame.holds

theorem heldBy_append (frs k : List Frame) : heldBy (frs ++ k) = heldBy frs ++ heldBy k :=
  List.filterMap_append

theorem heldBy_ops {ops : List Frame} (h : ∀ fr ∈ ops, fr.isOp = true) : heldBy ops = [] := by
  refine List.filterMap_eq_nil_iff.mpr fun fr hfr => ?_
  have hop := h fr hfr
  cases fr with
  | popFront | doubleCheck | run => cases hop
  | _ => rfl

/-! ## A worker that runs one task at a time -/

/-- The stack of a worker, and its flag. -/
inductive Shape : Bool → List Frame → Prop
  | exited (b : Bool) : Shape b []
  | loop (b : Bool) : Shape b [.loop]
  | tryPop (b : Bool) (k : Nat) : Shape b [.tryPop k false, .loop]
  | pop (b : Bool) : Shape b [.pop, .loop]
  | popFront (j x : Nat) : Shape true [.popFront j x false, .loop]
  | doubleCheck (x : Nat) : Shape true [.doubleCheck (some x), .loop]
  | failed (b : Bool) : Shape b [.doubleCheck none, .loop]
  | inside {ops : List Frame} (x : Nat) : (∀ fr ∈ ops, fr.isOp = true) →
      Shape true (ops ++ [.run x, .unbusy, .loop])
  | finished : Shape true [.unbusy, .loop]

/-- The busy flag of a thread after its access. -/
def Effect.flag (b : Bool) : Effect → Bool
  | .take _ => true
  | .unbusy => false
  | _ => b

/-- A worker that is in a task has its flag set. -/
theorem Shape.busy_of_held {b : Bool} {frames : List Frame} (h : Shape b frames)
    (hheld : heldBy frames ≠ []) : b = true := by
  cases h with
  | popFront | doubleCheck | inside | finished => rfl
  | exited | loop | tryPop | pop | failed => exact absurd rfl hheld

theorem tryPop_eq_some {q : TaskQueue} {x : Nat} (h : q.tryPop = some x) :
    q.owner = none ∧ q.tasks.head? = some x := by
  unfold TaskQueue.tryPop at h
  split at h
  · exact ⟨‹_ ∧ _›.1, h⟩
  · cases h

/-- A step in a task, which takes no other one. -/
theorem Shape.step_inside {n : Nat} {st : State} {i x : Nat} {op : Frame} {ops frs : List Frame}
    {e : Effect} (hops : ∀ fr ∈ op :: ops, fr.isOp = true)
    (h : op.next n st (.worker i) = some (e, frs)) (hself : op ≠ .freeSelf)
    (htake : ∀ j, e ≠ .take j) :
    Shape (e.flag true) (frs ++ (ops ++ [.run x, .unbusy, .loop])) ∧ (∀ j, e ≠ .popFront j) ∧
      heldBy (frs ++ (ops ++ [.run x, .unbusy, .loop])) =
        heldBy (op :: ops ++ [.run x, .unbusy, .loop]) := by
  obtain ⟨hop, hrest⟩ := List.forall_mem_cons.mp hops
  obtain ⟨hfrs, hunbusy, hpop⟩ := op_next h hop htake
  have hall : ∀ fr ∈ frs ++ ops, fr.isOp = true := List.forall_mem_append.mpr ⟨hfrs, hrest⟩
  have hflag : e.flag true = true := by
    cases e with
    | unbusy => exact absurd (hunbusy rfl) hself
    | _ => rfl
  rw [hflag, ← List.append_assoc]
  refine ⟨.inside x hall, hpop, ?_⟩
  rw [heldBy_append, heldBy_append (op :: ops), heldBy_ops hall, heldBy_ops hops]

/-- **One step of a worker.** It takes a task from the front of a queue, or has the task that it
had. -/
theorem Shape.next {n : Nat} {st : State} {i : Nat} {b : Bool} {fr : Frame} {k frs : List Frame}
    {e : Effect} (hs : Shape b (fr :: k)) (h : fr.next n st (.worker i) = some (e, frs))
    (hrun : st.stopped = false)
    (hflat : ∀ x, .run x ∈ k → fr ≠ .freeSelf ∧ ∀ j, e ≠ .take j) :
    Shape (e.flag b) (frs ++ k) ∧ (∀ j, e = .popFront j → ∃ x, fr = .popFront j x false) ∧
    ((∃ j x, e = .take j ∧ frs = [.popFront j x false] ∧ heldBy (fr :: k) = [] ∧
        (st.queues j).owner = none ∧ (st.queues j).tasks.head? = some x) ∨
      (∀ j, e ≠ .take j) ∧ heldBy (frs ++ k) = heldBy (fr :: k)) := by
  generalize hstack : fr :: k = stack at hs
  cases hs with
  | exited => cases hstack
  | loop =>
    cases hstack
    simp only [Frame.next, hrun] at h
    cases h
    exact ⟨.tryPop b 0, nofun, .inr ⟨nofun, rfl⟩⟩
  | tryPop _ k =>
    cases hstack
    simp only [Frame.next] at h
    split at h
    · cases h
      exact ⟨.pop b, nofun, .inr ⟨nofun, rfl⟩⟩
    · cases hq : (st.queues (((Thread.worker i).index + k) % n)).tryPop with
      | none =>
        rw [hq] at h
        cases h
        exact ⟨.tryPop b (k + 1), nofun, .inr ⟨nofun, rfl⟩⟩
      | some x =>
        rw [hq] at h
        cases h
        exact ⟨.popFront _ x, nofun, .inl ⟨_, x, rfl, rfl, rfl, tryPop_eq_some hq⟩⟩
  | pop =>
    cases hstack
    simp only [Frame.next] at h
    split at h
    · split at h
      · cases h
        exact ⟨.failed b, nofun, .inr ⟨nofun, rfl⟩⟩
      · cases hq : (st.queues (Thread.worker i).index).tasks with
        | nil => simp [hq] at h
        | cons x rest =>
          rw [hq] at h
          cases h
          exact ⟨.popFront _ x, nofun, .inl ⟨_, x, rfl, rfl, rfl, ‹_›, by rw [hq]; rfl⟩⟩
    · cases h
  | popFront j x =>
    cases hstack
    cases h
    exact ⟨.doubleCheck x, fun j' hj => ⟨x, by cases hj; rfl⟩, .inr ⟨nofun, rfl⟩⟩
  | doubleCheck x =>
    cases hstack
    simp only [Frame.next, hrun] at h
    cases h
    have hnone : ∀ fr ∈ ([] : List Frame), fr.isOp = true := nofun
    exact ⟨.inside x hnone, nofun, .inr ⟨nofun, rfl⟩⟩
  | failed =>
    cases hstack
    simp [Frame.next, hrun] at h
  | @inside ops x hops =>
    cases ops with
    | nil =>
      cases hstack
      cases h
    | cons op ops =>
      rw [List.cons_append, List.cons.injEq] at hstack
      obtain ⟨rfl, rfl⟩ := hstack
      obtain ⟨hself, htake⟩ := hflat x (by simp)
      obtain ⟨hshape, hpop, hheld⟩ := Shape.step_inside (x := x) hops h hself htake
      exact ⟨hshape, fun j hj => absurd hj (hpop j), .inr ⟨htake, hheld⟩⟩
  | finished =>
    cases hstack
    cases h
    exact ⟨.loop false, nofun, .inr ⟨nofun, rfl⟩⟩

/-! ## Steps -/

theorem next_enqueue {n : Nat} {st : State} {t : Thread} {fr : Frame} {j x : Nat}
    {frs : List Frame} (h : fr.next n st t = some (.enqueue j x, frs)) :
    j < n ∧ (st.queues j).owner = none := by
  cases fr with
  | tryPush y i k =>
    simp only [Frame.next] at h
    split at h
    · cases h
    · rename_i hn
      split at h
      · cases h
      · split at h <;> cases h
        exact ⟨Nat.mod_lt _ (Nat.pos_of_ne_zero hn), ‹_ ∧ _›.2⟩
  | pushQueue y i =>
    simp only [Frame.next] at h
    split at h
    · cases h
    · rename_i hn
      split at h
      · cases h
      · split at h <;> cases h
        exact ⟨Nat.mod_lt _ (Nat.pos_of_ne_zero hn), ‹_›⟩
  | _ =>
    simp only [Frame.next] at h
    repeat' split at h
    all_goals cases h

theorem next_setStopped {n : Nat} {st : State} {t : Thread} {fr : Frame} {frs : List Frame}
    (h : fr.next n st t = some (.setStopped, frs)) : fr = .stopFlag := by
  cases fr with
  | stopFlag => rfl
  | _ =>
    simp only [Frame.next] at h
    repeat' split at h
    all_goals cases h

/-- The frames of an operation that a thread starts. -/
inductive Starts (st : State) : Thread → List Frame → Prop
  | push (t : Thread) : Starts st t [.pushReject st.calls]
  | runOne (i : Nat) : Starts st (.worker i) [.tryPop 0 true]
  | wait (t : Thread) (p : WaitStatus) : Starts st t [.waitTry p]
  | join (t : Thread) : Starts st t [.waitTry .blockIncoming, .stopFlag, .join 0]
  | stop (t : Thread) : Starts st t [.stopFlag]

theorem Starts.isOp {st : State} {t : Thread} {frs : List Frame} (h : Starts st t frs) :
    ∀ fr ∈ frs, fr.isOp = true := by
  cases h <;> simp [Frame.isOp]

theorem Starts.outer {st : State} {u : Nat} {frs : List Frame} (h : Starts st (.outside u) frs) :
    ∀ fr ∈ frs, fr.outer = true := by
  cases h <;> simp [Frame.outer, Frame.isOp]

/-- A step is an operation started, a task that returns, or an access of the innermost frame of
a thread. -/
theorem step_cases {n : Nat} {st st' : State} {a : Act} (h : step n st a = some st') :
    (∃ t c frs, st.free t = true ∧ Starts st t frs ∧
      st' = { st with calls := c }.setStack t (frs ++ st.stackOf t)) ∨
    (∃ t x k, a = .finish t ∧ st.stackOf t = .run x :: k ∧
      st' = { st with finished := st.finished ++ [x] }.setStack t k) ∨
    (∃ t fr k e frs, a = .step t ∧ st.stackOf t = fr :: k ∧ fr.next n st t = some (e, frs) ∧
      st' = (st.apply t e).setStack t (frs ++ k)) := by
  have hstart : ∀ {t c frs}, { st with calls := c }.start t frs = some st' → Starts st t frs →
      ∃ t c frs, st.free t = true ∧ Starts st t frs ∧
        st' = { st with calls := c }.setStack t (frs ++ st.stackOf t) := by
    intro t c frs hst hstarts
    rw [State.start] at hst
    split at hst <;> cases hst
    exact ⟨t, c, frs, ‹_›, hstarts, rfl⟩
  cases a with
  | push t => exact .inl (hstart h (.push t))
  | runOne t =>
    cases t with
    | worker i => exact .inl (hstart (c := st.calls) h (.runOne i))
    | outside u => cases h
  | wait t p => exact .inl (hstart (c := st.calls) h (.wait t p))
  | join t => exact .inl (hstart (c := st.calls) h (.join t))
  | stop t => exact .inl (hstart (c := st.calls) h (.stop t))
  | finish t =>
    rw [step] at h
    split at h <;> cases h
    exact .inr (.inl ⟨t, _, _, rfl, ‹_›, rfl⟩)
  | step t =>
    rw [step] at h
    split at h
    · cases h
    · split at h <;> cases h
      exact .inr (.inr ⟨t, _, _, _, _, rfl, ‹_›, ‹_›, rfl⟩)

@[simp] theorem setStack_stackOf (st : State) (t : Thread) (frs : List Frame) :
    (st.setStack t frs).stackOf = Function.update st.stackOf t frs := rfl

@[simp] theorem apply_stackOf (st : State) (t : Thread) (e : Effect) :
    (st.apply t e).stackOf = st.stackOf := by cases e <;> rfl

/-- The flag of the thread that acts, and of the others. -/
theorem apply_busy_self (st : State) (i : Nat) (e : Effect) :
    (st.apply (.worker i) e).busy i = e.flag (st.busy i) := by
  cases e <;> simp [State.apply, State.modify, Effect.flag, Thread.index]

theorem apply_busy_of_ne (st : State) {t : Thread} {e : Effect} {i : Nat}
    (h : t ≠ .worker i) (hout : ∀ u, t = .outside u → (∀ j, e ≠ .take j) ∧ e ≠ .unbusy) :
    (st.apply t e).busy i = st.busy i := by
  cases t with
  | worker i' =>
    have hi : i ≠ i' := fun heq => h (by rw [heq])
    cases e <;> simp [State.apply, State.modify, Thread.index, hi]
  | outside u =>
    obtain ⟨htake, hunbusy⟩ := hout u rfl
    cases e with
    | take j => exact absurd rfl (htake j)
    | unbusy => exact absurd rfl hunbusy
    | _ => rfl

/-- A queue after an access. -/
theorem apply_tasks (st : State) (t : Thread) (e : Effect) (j : Nat) :
    ((st.apply t e).queues j).tasks =
      match e with
      | .popFront j' => if j' = j then (st.queues j).tasks.tail else (st.queues j).tasks
      | .enqueue j' x => if j' = j then (st.queues j).tasks ++ [x] else (st.queues j).tasks
      | _ => (st.queues j).tasks := by
  cases e with
  | take j' | popFront j' | enqueue j' x | setDone j' =>
    by_cases h : j' = j
    · subst h
      simp [State.apply, State.modify]
    · simp [State.apply, State.modify, h, Ne.symm h]
  | _ => rfl

/-- A queue that an access does not touch, or only marks as done. -/
theorem apply_queue (st : State) (t : Thread) {e : Effect} {j : Nat} (htake : e ≠ .take j)
    (hpop : e ≠ .popFront j) (hpush : ∀ x, e ≠ .enqueue j x) :
    ((st.apply t e).queues j).owner = (st.queues j).owner ∧
      ((st.apply t e).queues j).tasks = (st.queues j).tasks := by
  cases e with
  | take j' =>
    have h : j ≠ j' := fun h => htake (by rw [h])
    simp [State.apply, State.modify, h]
  | popFront j' =>
    have h : j ≠ j' := fun h => hpop (by rw [h])
    simp [State.apply, State.modify, h]
  | enqueue j' x =>
    have h : j ≠ j' := fun h => hpush x (by rw [h])
    simp [State.apply, State.modify, h]
  | setDone j' =>
    by_cases h : j = j'
    · subst h
      simp [State.apply, State.modify]
    · simp [State.apply, State.modify, h]
  | _ => exact ⟨rfl, rfl⟩

/-- The frames after an access. -/
theorem mem_access {st : State} {t t' : Thread} {fr fr' : Frame} {k frs : List Frame} {e : Effect}
    (ht : st.stackOf t = fr :: k)
    (hm : fr' ∈ ((st.apply t e).setStack t (frs ++ k)).stackOf t') :
    (t' = t ∧ fr' ∈ frs) ∨ (fr' ∈ st.stackOf t' ∧ (t' = t → fr' ∈ k)) := by
  rw [setStack_stackOf, apply_stackOf] at hm
  by_cases h : t' = t
  · subst h
    rw [Function.update_self, List.mem_append] at hm
    rcases hm with hm | hm
    · exact .inl ⟨rfl, hm⟩
    · exact .inr ⟨by rw [ht]; exact List.mem_cons_of_mem _ hm, fun _ => hm⟩
  · rw [Function.update_of_ne h] at hm
    exact .inr ⟨hm, fun heq => absurd heq h⟩

/-! ## Threads outside -/

/-- The threads outside are in operations that take no tasks. -/
def Outer (st : State) : Prop := ∀ u, ∀ fr ∈ st.stackOf (.outside u), fr.outer = true

theorem Outer.init (n : Nat) : Outer (State.init n) := nofun

/-- The effects of a thread outside, and that its frames stay such. -/
theorem Outer.next {n : Nat} {st : State} (h : Outer st) {u : Nat} {fr : Frame} {k : List Frame}
    (ht : st.stackOf (.outside u) = fr :: k) {e : Effect} {frs : List Frame}
    (hn : fr.next n st (.outside u) = some (e, frs)) :
    (∀ fr' ∈ frs ++ k, fr'.outer = true) ∧ (∀ j, e ≠ .take j) ∧ (∀ j, e ≠ .popFront j) ∧
      e ≠ .unbusy := by
  have hall := h u
  rw [ht] at hall
  obtain ⟨hfr, hk⟩ := List.forall_mem_cons.mp hall
  obtain ⟨hfrs, heffects⟩ := outer_next hn hfr
  exact ⟨List.forall_mem_append.mpr ⟨hfrs, hk⟩, heffects⟩

/-- Only a worker changes its flag. -/
theorem Outer.apply_busy {n : Nat} {st : State} (h : Outer st) {t : Thread} {fr : Frame}
    {k : List Frame} (ht : st.stackOf t = fr :: k) {e : Effect} {frs : List Frame}
    (hn : fr.next n st t = some (e, frs)) {i : Nat} (hne : t ≠ .worker i) :
    (st.apply t e).busy i = st.busy i := by
  cases t with
  | worker i' => exact apply_busy_of_ne st hne nofun
  | outside u =>
    obtain ⟨-, htake, -, hunbusy⟩ := h.next ht hn
    exact apply_busy_of_ne st hne fun _ _ => ⟨htake, hunbusy⟩

theorem Outer.step {n : Nat} {st st' : State} {a : Act} (h : Outer st)
    (hs : step n st a = some st') : Outer st' := by
  have hset : ∀ {st'' : State} {t frames}, st''.stackOf = Function.update st.stackOf t frames →
      (∀ u, t = .outside u → ∀ fr ∈ frames, fr.outer = true) → Outer st'' := by
    intro st'' t frames hstacks hout u fr hm
    rw [hstacks] at hm
    by_cases heq : Thread.outside u = t
    · subst heq
      rw [Function.update_self] at hm
      exact hout u rfl fr hm
    · rw [Function.update_of_ne heq] at hm
      exact h u fr hm
  obtain ⟨t, c, frs, hfree, hstarts, rfl⟩ | ⟨t, x, k, rfl, ht, rfl⟩ |
    ⟨t, fr, k, e, frs, rfl, ht, hn, rfl⟩ := step_cases hs
  · refine hset (t := t) rfl ?_
    rintro u rfl
    have hnil : st.stackOf (.outside u) = [] := List.isEmpty_iff.mp hfree
    rw [hnil, List.append_nil]
    exact hstarts.outer
  · refine hset (t := t) rfl ?_
    rintro u rfl
    have hout := h u (.run x) (by rw [ht]; exact List.mem_cons_self)
    cases hout
  · refine hset (t := t) (by rw [setStack_stackOf, apply_stackOf]) ?_
    rintro u rfl
    exact (h.next ht hn).1

/-! ## One task at a time -/

/-- The worker is inside a task. -/
def Inside (st : State) (i : Nat) : Prop := ∃ x, Frame.run x ∈ st.stackOf (.worker i)

/-- A worker that is inside a task pops another one, or has waited for the other workers and
frees itself. -/
def Nests (n : Nat) (st : State) (t : Thread) : Prop :=
  ∃ i fr k, t = .worker i ∧ Inside st i ∧ st.stackOf t = fr :: k ∧
    (fr = .freeSelf ∨ ∃ j frs, fr.next n st t = some (.take j, frs))

/-- No worker does so, and the executor is not stopped. -/
def Flat (n : Nat) (st : State) (a : Act) : Prop :=
  ∀ t, a = .step t → ¬ Nests n st t ∧ ∀ k, st.stackOf t ≠ .stopFlag :: k

/-- Every worker has its flag set while it has a task, and the threads outside have none. -/
structure Shapes (n : Nat) (st : State) : Prop where
  shape : ∀ i, Shape (st.busy i) (st.stackOf (.worker i))
  outer : Outer st
  size : ∀ i, n ≤ i → st.stackOf (.worker i) = []
  running : st.stopped = false

theorem Shapes.init (n : Nat) : Shapes n (State.init n) where
  shape := by
    intro i
    simp only [State.init]
    split
    · exact .loop false
    · exact .exited false
  outer := .init n
  size := by
    intro i hi
    simp [State.init, Nat.not_lt.mpr hi]
  running := rfl

/-- A worker goes on. -/
theorem Shapes.worker {n : Nat} {st st' : State} (h : Shapes n st) (hout : Outer st') {i : Nat}
    {frames : List Frame} (hstacks : st'.stackOf = Function.update st.stackOf (.worker i) frames)
    (hne : st.stackOf (.worker i) ≠ []) (hshape : Shape (st'.busy i) frames)
    (hbusy : ∀ i', i' ≠ i → st'.busy i' = st.busy i') (hrun : st'.stopped = false) :
    Shapes n st' := by
  refine ⟨fun i' => ?_, hout, fun i' hi => ?_, hrun⟩
  · by_cases heq : i' = i
    · subst heq
      rw [hstacks, Function.update_self]
      exact hshape
    · have hother : st'.stackOf (.worker i') = st.stackOf (.worker i') := by simp [hstacks, heq]
      rw [hbusy i' heq, hother]
      exact h.shape i'
  · have heq : i' ≠ i := by
      rintro rfl
      exact hne (h.size i' hi)
    simp [hstacks, heq, h.size i' hi]

/-- A thread outside goes on. -/
theorem Shapes.outside {n : Nat} {st st' : State} (h : Shapes n st) (hout : Outer st') {u : Nat}
    {frames : List Frame} (hstacks : st'.stackOf = Function.update st.stackOf (.outside u) frames)
    (hbusy : ∀ i, st'.busy i = st.busy i) (hrun : st'.stopped = false) : Shapes n st' := by
  have hworker : ∀ i, st'.stackOf (.worker i) = st.stackOf (.worker i) := by simp [hstacks]
  refine ⟨fun i => ?_, hout, fun i hi => ?_, hrun⟩
  · rw [hbusy, hworker]
    exact h.shape i
  · rw [hworker, h.size i hi]

/-- A worker that can start an operation, or whose task returns, is in one task. -/
theorem Shape.of_run {b : Bool} {x : Nat} {k : List Frame} (h : Shape b (.run x :: k)) :
    b = true ∧ k = [.unbusy, .loop] := by
  generalize hstack : Frame.run x :: k = stack at h
  cases h with
  | @inside ops y hops =>
    cases ops with
    | nil =>
      cases hstack
      exact ⟨rfl, rfl⟩
    | cons op ops =>
      rw [List.cons_append, List.cons.injEq] at hstack
      obtain ⟨rfl, -⟩ := hstack
      cases (List.forall_mem_cons.mp hops).1
  | _ => cases hstack

theorem Shape.popFront_not_mem {b : Bool} {fr : Frame} {k : List Frame} (h : Shape b (fr :: k))
    (j x : Nat) (c : Bool) : .popFront j x c ∉ k := by
  generalize hstack : fr :: k = stack at h
  cases h with
  | @inside ops y hops =>
    intro hm
    have hmem : Frame.popFront j x c ∈ ops ++ [.run y, .unbusy, .loop] := by
      rw [← hstack]
      exact List.mem_cons_of_mem _ hm
    rcases List.mem_append.mp hmem with hops' | hrest
    · cases hops _ hops'
    · simp at hrest
  | exited => cases hstack
  | _ =>
    cases hstack
    simp

theorem free_worker {st : State} {i : Nat} (h : st.free (.worker i) = true) :
    ∃ x k, st.stackOf (.worker i) = .run x :: k := by
  simp only [State.free] at h
  split at h
  · exact ⟨_, _, ‹_›⟩
  · cases h

/-- What a step of a worker does, in a run where none nests. -/
theorem Shapes.worker_next {n : Nat} {st : State} (h : Shapes n st) {i : Nat}
    (hflat : Flat n st (.step (.worker i))) {fr : Frame} {k : List Frame}
    (ht : st.stackOf (.worker i) = fr :: k) {e : Effect} {frs : List Frame}
    (hn : fr.next n st (.worker i) = some (e, frs)) :
    Shape (e.flag (st.busy i)) (frs ++ k) ∧
    (∀ j, e = .popFront j → ∃ x, fr = .popFront j x false) ∧
    ((∃ j x, e = .take j ∧ frs = [.popFront j x false] ∧ heldBy (fr :: k) = [] ∧
        (st.queues j).owner = none ∧ (st.queues j).tasks.head? = some x) ∨
      (∀ j, e ≠ .take j) ∧ heldBy (frs ++ k) = heldBy (fr :: k)) := by
  have hshape := h.shape i
  rw [ht] at hshape
  refine hshape.next hn h.running fun x hx => ?_
  have hinside : Inside st i := ⟨x, by rw [ht]; exact List.mem_cons_of_mem _ hx⟩
  have hnot := (hflat _ rfl).1
  exact ⟨fun hself => hnot ⟨i, fr, k, rfl, hinside, ht, .inl hself⟩,
    fun j hj => hnot ⟨i, fr, k, rfl, hinside, ht, .inr ⟨j, frs, hj ▸ hn⟩⟩⟩

theorem apply_stopped {st : State} {t : Thread} {e : Effect} (h : e ≠ .setStopped) :
    (st.apply t e).stopped = st.stopped := by
  cases e with
  | setStopped => exact absurd rfl h
  | _ => rfl

theorem Shapes.of_run {n : Nat} {st : State} (h : Shapes n st) {i x : Nat} {k : List Frame}
    (ht : st.stackOf (.worker i) = .run x :: k) : st.busy i = true ∧ k = [.unbusy, .loop] := by
  have hshape := h.shape i
  rw [ht] at hshape
  exact hshape.of_run

theorem Shapes.step {n : Nat} {st st' : State} {a : Act} (h : Shapes n st) (hflat : Flat n st a)
    (hs : step n st a = some st') : Shapes n st' := by
  have hout := h.outer.step hs
  obtain ⟨t, c, frs, hfree, hstarts, rfl⟩ | ⟨t, x, k, rfl, ht, rfl⟩ |
    ⟨t, fr, k, e, frs, rfl, ht, hn, rfl⟩ := step_cases hs
  · cases t with
    | outside u => exact h.outside hout (u := u) rfl (fun _ => rfl) h.running
    | worker i =>
      obtain ⟨x, k, ht⟩ := free_worker hfree
      obtain ⟨hbusy, rfl⟩ := h.of_run ht
      refine h.worker hout (i := i) rfl (by simp [ht]) ?_ (fun _ _ => rfl) h.running
      show Shape (st.busy i) _
      rw [hbusy, ht]
      exact .inside x hstarts.isOp
  · cases t with
    | outside u =>
      have hrun := h.outer u (.run x) (by rw [ht]; exact List.mem_cons_self)
      cases hrun
    | worker i =>
      obtain ⟨hbusy, rfl⟩ := h.of_run ht
      refine h.worker hout (i := i) rfl (by simp [ht]) ?_ (fun _ _ => rfl) h.running
      show Shape (st.busy i) _
      rw [hbusy]
      exact .finished
  · have hstopped : (st.apply t e).stopped = false := by
      rw [apply_stopped, h.running]
      rintro rfl
      cases next_setStopped hn
      exact (hflat t rfl).2 k ht
    have hstacks : ((st.apply t e).setStack t (frs ++ k)).stackOf =
        Function.update st.stackOf t (frs ++ k) := by rw [setStack_stackOf, apply_stackOf]
    have hbusy : ∀ i, t ≠ .worker i → (st.apply t e).busy i = st.busy i :=
      fun i hne => h.outer.apply_busy ht hn hne
    cases t with
    | outside u => exact h.outside hout hstacks (fun i => hbusy i nofun) hstopped
    | worker i =>
      obtain ⟨hshape, -⟩ := h.worker_next hflat ht hn
      refine h.worker hout hstacks (by simp [ht]) ?_ (fun i' hne => ?_) hstopped
      · show Shape ((st.apply (.worker i) e).busy i) _
        rw [apply_busy_self]
        exact hshape
      · exact hbusy i' (by simpa using Ne.symm hne)

/-- **A worker that is inside a task has its busy flag set.** -/
theorem Shapes.busy_of_inside {n : Nat} {st : State} (h : Shapes n st) {i : Nat}
    (hi : Inside st i) : st.busy i = true := by
  obtain ⟨x, hx⟩ := hi
  refine (h.shape i).busy_of_held fun hnil => ?_
  simpa [Frame.holds] using List.filterMap_eq_nil_iff.mp hnil _ hx

end Primitives.Executor
