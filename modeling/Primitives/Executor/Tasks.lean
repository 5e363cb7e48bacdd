import Mathlib.Tactic.Abel
import Primitives.Executor.Workers
import Primitives.Lib.Totals

/-!
# What becomes of the tasks

Whatever the threads do, and in whatever order, the task of each call of `push()` is in one place: with the
thread that is in the call, in a queue, with a worker, or finished (`tasks_once`). A queue that is locked
still has the task that is being popped, but it counts for the worker. Only where the executor is stopped, or
rejects tasks, one of them may be gone.

When the workers have nothing left to do, all tasks are finished (`idle_finished`).
-/

set_option autoImplicit false

namespace Primitives.Executor

open Lib

/-! ## Where a task is -/

/-- The call of `push()` that a frame belongs to. -/
def Frame.pushing : Frame → Option Nat
  | .pushReject x | .pushBlock x | .pushLock x | .pushHeld x | .pushIndex x => some x
  | .tryPush x _ _ | .pushQueue x _ => some x
  | _ => none

/-- The tasks that the frames are to put into a queue. -/
def pushedBy (frames : List Frame) : List Nat := frames.filterMap Frame.pushing

theorem pushedBy_append (frs k : List Frame) : pushedBy (frs ++ k) = pushedBy frs ++ pushedBy k :=
  List.filterMap_append

theorem pushedBy_cons (fr : Frame) (k : List Frame) :
    pushedBy (fr :: k) = fr.pushing.toList ++ pushedBy k := by
  unfold pushedBy
  cases h : fr.pushing <;> simp [h]

theorem heldBy_cons (fr : Frame) (k : List Frame) : heldBy (fr :: k) = fr.holds.toList ++ heldBy k := by
  unfold heldBy
  cases h : fr.holds <;> simp [h]

/-- The tasks that no thread has taken: the first task of a locked queue is being popped. -/
def TaskQueue.untaken (q : TaskQueue) : List Nat := if q.owner = none then q.tasks else q.tasks.tail

def Frame.isPop : Frame → Bool
  | .popFront _ _ _ => true
  | _ => false

/-- No task goes from one place to another. -/
structure Frame.Keeps (fr : Frame) (frs : List Frame) : Prop where
  held : heldBy frs = fr.holds.toList
  pushing : pushedBy frs = fr.pushing.toList
  pop : ∀ fr' ∈ frs, fr'.isPop = false

/-- The access takes no task from a queue and puts none into one. -/
def Effect.still : Effect → Bool
  | .take _ | .popFront _ | .enqueue _ _ => false
  | _ => true

theorem Effect.still_queue (st : State) (t : Thread) {e : Effect} (h : e.still = true) (j : Nat) :
    ((st.apply t e).queues j).owner = (st.queues j).owner ∧
      ((st.apply t e).queues j).tasks = (st.queues j).tasks := by
  apply apply_queue
  · rintro rfl
    cases h
  · rintro rfl
    cases h
  · rintro x rfl
    cases h

/-- What an access does to the tasks. -/
inductive Frame.Moves (st : State) : Frame → Effect → List Frame → Prop
  | take {fr : Frame} {j x : Nat} {inside : Bool} {rest : List Frame} :
      (st.queues j).owner = none → (st.queues j).tasks.head? = some x → fr.Keeps rest →
      fr.holds = none → fr.isPop = false → Moves st fr (.take j) (.popFront j x inside :: rest)
  | popFront {j x : Nat} {inside : Bool} {frs : List Frame} :
      (Frame.popFront j x inside).Keeps frs → Moves st (.popFront j x inside) (.popFront j) frs
  | drop {x : Nat} : st.stopped = true → Moves st (.doubleCheck (some x)) .silent []
  | enqueue {fr : Frame} {j x : Nat} : fr.pushing = some x → fr.holds = none →
      (st.queues j).owner = none → Moves st fr (.enqueue j x) []
  | refuse {fr : Frame} {x : Nat} : fr.pushing = some x → fr.holds = none →
      st.waiting = .rejectIncoming ∨ (∃ j, (st.queues j).done = true) → Moves st fr .silent []
  | keep {fr : Frame} {e : Effect} {frs : List Frame} : fr.Keeps frs → fr.isPop = false →
      e.still = true → Moves st fr e frs

theorem Frame.Keeps.pushedBy_eq {fr : Frame} {frs : List Frame} (h : fr.Keeps frs) (k : List Frame) :
    pushedBy (frs ++ k) = pushedBy (fr :: k) := by rw [pushedBy_append, pushedBy_cons, h.pushing]

theorem Frame.Keeps.heldBy_eq {fr : Frame} {frs : List Frame} (h : fr.Keeps frs) (k : List Frame) :
    heldBy (frs ++ k) = heldBy (fr :: k) := by rw [heldBy_append, heldBy_cons, h.held]

theorem Frame.moves {n : Nat} {st : State} {t : Thread} {fr : Frame} {e : Effect} {frs : List Frame}
    (h : fr.next n st t = some (e, frs)) : fr.Moves st e frs := by
  cases fr with
  | tryPop k inside =>
    simp only [Frame.next] at h
    split at h
    · cases h
      refine .keep ⟨?_, ?_, ?_⟩ rfl rfl
      · cases inside <;> rfl
      · cases inside <;> rfl
      · cases inside <;> simp [Frame.isPop]
    · split at h <;> cases h
      · exact .keep ⟨rfl, rfl, by simp [Frame.isPop]⟩ rfl rfl
      · obtain ⟨howner, hhead⟩ := tryPop_eq_some ‹_›
        exact .take howner hhead ⟨rfl, rfl, by simp⟩ rfl rfl
  | pop =>
    simp only [Frame.next] at h
    split at h
    · split at h
      · cases h
        exact .keep ⟨rfl, rfl, by simp [Frame.isPop]⟩ rfl rfl
      · split at h
        · cases h
        · rename_i hrest
          cases h
          exact .take ‹_› (by rw [hrest]; rfl) ⟨rfl, rfl, by simp⟩ rfl rfl
    · cases h
  | popFront j x inside =>
    cases h
    refine .popFront ⟨?_, ?_, ?_⟩
    · cases inside <;> rfl
    · cases inside <;> rfl
    · cases inside <;> simp [Frame.isPop]
  | doubleCheck x =>
    simp only [Frame.next] at h
    split at h
    · cases h
      cases x with
      | none => exact .keep ⟨rfl, rfl, by simp⟩ rfl rfl
      | some x => exact .drop ‹_›
    · cases x with
      | none => cases h
      | some x =>
        cases h
        exact .keep ⟨rfl, rfl, by simp [Frame.isPop]⟩ rfl rfl
  | pushReject x =>
    cases h
    by_cases hreject : st.waiting = .rejectIncoming
    · rw [if_pos hreject]
      exact .refuse rfl rfl (.inl hreject)
    · rw [if_neg hreject]
      exact .keep ⟨rfl, rfl, by simp [Frame.isPop]⟩ rfl rfl
  | tryPush x i k =>
    simp only [Frame.next] at h
    split at h
    · cases h
    · split at h
      · cases h
        exact .keep ⟨rfl, rfl, by simp [Frame.isPop]⟩ rfl rfl
      · split at h <;> cases h
        · exact .enqueue rfl rfl ‹_ ∧ _›.2
        · exact .keep ⟨rfl, rfl, by simp [Frame.isPop]⟩ rfl rfl
  | pushQueue x i =>
    simp only [Frame.next] at h
    split at h
    · cases h
    · split at h
      · cases h
        exact .refuse rfl rfl (.inr ⟨_, ‹_›⟩)
      · split at h <;> cases h
        exact .enqueue rfl rfl ‹_›
  | scanRun q r =>
    simp only [Frame.next] at h
    split at h
    · cases h
      exact .keep ⟨rfl, rfl, by simp [Frame.isPop]⟩ rfl rfl
    · split at h <;> cases h
      · exact .keep ⟨rfl, rfl, by simp [Frame.isPop]⟩ rfl rfl
      · obtain ⟨howner, hhead⟩ := tryPop_eq_some ‹_›
        exact .take howner hhead ⟨rfl, rfl, by simp [Frame.isPop]⟩ rfl rfl
  | loop =>
    cases h
    cases st.stopped <;> exact .keep ⟨rfl, rfl, by simp [Frame.isPop]⟩ rfl rfl
  | pushBlock x =>
    cases h
    refine .keep ⟨?_, ?_, ?_⟩ rfl rfl
    all_goals split <;> simp [Frame.isPop, heldBy, pushedBy] <;> rfl
  | pushHeld x =>
    cases h
    refine .keep ⟨?_, ?_, ?_⟩ rfl rfl
    all_goals split <;> simp [Frame.isPop, heldBy, pushedBy] <;> rfl
  | _ =>
    simp only [Frame.next] at h
    repeat' split at h
    all_goals cases h
    all_goals exact .keep ⟨rfl, rfl, by simp [Frame.isPop]⟩ rfl rfl

/-! ## Frames -/

theorem mem_init {n : Nat} {t : Thread} {fr : Frame} (hm : fr ∈ (State.init n).stackOf t) :
    fr = .loop := by
  cases t with
  | worker i =>
    simp only [State.init] at hm
    split at hm
    · exact List.mem_singleton.mp hm
    · cases hm
  | outside u => cases hm

/-- A thread starts an operation. -/
theorem mem_start {st st' : State} {t u : Thread} {frs : List Frame} {fr : Frame}
    (hstacks : st'.stackOf = Function.update st.stackOf t (frs ++ st.stackOf t))
    (hm : fr ∈ st'.stackOf u) : fr ∈ frs ∨ fr ∈ st.stackOf u := by
  rw [hstacks] at hm
  by_cases heq : u = t
  · subst heq
    rw [Function.update_self] at hm
    exact List.mem_append.mp hm
  · rw [Function.update_of_ne heq] at hm
    exact .inr hm

/-- A task returns. -/
theorem mem_finish {st st' : State} {t u : Thread} {fr fr' : Frame} {k : List Frame}
    (ht : st.stackOf t = fr :: k) (hstacks : st'.stackOf = Function.update st.stackOf t k)
    (hm : fr' ∈ st'.stackOf u) : fr' ∈ st.stackOf u := by
  rw [hstacks] at hm
  by_cases heq : u = t
  · subst heq
    rw [Function.update_self] at hm
    rw [ht]
    exact List.mem_cons_of_mem _ hm
  · rw [Function.update_of_ne heq] at hm
    exact hm

/-! ## Who pops -/

/-- A thread that pops is in `pop()` in its innermost frame, has the queue's mutex, and nobody else has. -/
structure Popping (st : State) : Prop where
  tail : ∀ t, ∀ fr ∈ (st.stackOf t).tail, fr.isPop = false
  front : ∀ t j x inside k, st.stackOf t = .popFront j x inside :: k →
    (st.queues j).owner = some t ∧ (st.queues j).tasks.head? = some x
  owner : ∀ j t, (st.queues j).owner = some t → ∃ x inside k, st.stackOf t = .popFront j x inside :: k

theorem Popping.init (n : Nat) : Popping (State.init n) where
  tail := by
    intro t fr hm
    cases mem_init (List.mem_of_mem_tail hm)
    rfl
  front := by
    intro t j x inside k h
    have hloop : Frame.popFront j x inside = .loop :=
      mem_init (n := n) (t := t) (by rw [h]; exact List.mem_cons_self)
    cases hloop
  owner := nofun

/-- A thread whose next frame is none of `pop()` has none. -/
theorem Popping.not_isPop {st : State} (h : Popping st) {t : Thread} {fr : Frame} {k : List Frame}
    (ht : st.stackOf t = fr :: k) : ∀ fr' ∈ k, fr'.isPop = false := by
  intro fr' hm
  refine h.tail t fr' ?_
  rw [ht]
  exact hm

/-- A thread goes on that pops neither before nor behind it, and leaves the queues that others pop. -/
theorem Popping.next {st st' : State} (h : Popping st) {t : Thread} {frames : List Frame}
    (hstacks : st'.stackOf = Function.update st.stackOf t frames)
    (hbefore : ∀ j x inside k, st.stackOf t ≠ .popFront j x inside :: k)
    (hframes : ∀ fr ∈ frames, fr.isPop = false)
    (hqueues : ∀ j u, (st.queues j).owner = some u → (st'.queues j).owner = some u ∧
      (st'.queues j).tasks = (st.queues j).tasks)
    (hnew : ∀ j, (st.queues j).owner = none → (st'.queues j).owner = none) : Popping st' := by
  refine ⟨fun u fr hm => ?_, fun u j x inside k hu => ?_, fun j u hu => ?_⟩
  · rw [hstacks] at hm
    by_cases heq : u = t
    · subst heq
      rw [Function.update_self] at hm
      exact hframes fr (List.mem_of_mem_tail hm)
    · rw [Function.update_of_ne heq] at hm
      exact h.tail u fr hm
  · rw [hstacks] at hu
    by_cases heq : u = t
    · subst heq
      rw [Function.update_self] at hu
      subst hu
      cases hframes _ List.mem_cons_self
    · rw [Function.update_of_ne heq] at hu
      obtain ⟨howner, hhead⟩ := h.front u j x inside k hu
      obtain ⟨howner', htasks⟩ := hqueues j u howner
      exact ⟨howner', htasks ▸ hhead⟩
  · have howner : (st.queues j).owner = some u := by
      cases howner : (st.queues j).owner with
      | none => rw [hnew j howner] at hu; cases hu
      | some u' => rwa [(hqueues j u' howner).1] at hu
    obtain ⟨x, inside, k, hstack⟩ := h.owner j u howner
    have hne : u ≠ t := fun heq => hbefore j x inside k (heq ▸ hstack)
    exact ⟨x, inside, k, by rw [hstacks, Function.update_of_ne hne, hstack]⟩

theorem free_not_isPop {st : State} (h : Popping st) {t : Thread} (hfree : st.free t = true) :
    ∀ fr ∈ st.stackOf t, fr.isPop = false := by
  intro fr hm
  cases t with
  | outside u =>
    rw [List.isEmpty_iff.mp hfree] at hm
    cases hm
  | worker i =>
    obtain ⟨x, k, hstack⟩ := free_worker hfree
    rw [hstack] at hm
    rcases List.mem_cons.mp hm with rfl | hm
    · rfl
    · exact h.not_isPop hstack fr hm

theorem queues_take (st : State) (t : Thread) (j j' : Nat) : (st.apply t (.take j)).queues j' =
    if j' = j then { st.queues j with owner := some t } else st.queues j' :=
  Function.update_apply st.queues j _ j'

theorem queues_popFront (st : State) (t : Thread) (j j' : Nat) : (st.apply t (.popFront j)).queues j' =
    if j' = j then { st.queues j with tasks := (st.queues j).tasks.tail, owner := none }
    else st.queues j' :=
  Function.update_apply st.queues j _ j'

theorem queues_enqueue (st : State) (t : Thread) (j x j' : Nat) :
    (st.apply t (.enqueue j x)).queues j' =
      if j' = j then { st.queues j with tasks := (st.queues j).tasks ++ [x] } else st.queues j' :=
  Function.update_apply st.queues j _ j'

section Access

variable {n : Nat} {st : State} {t : Thread} {fr : Frame} {k : List Frame}

theorem Popping.take (h : Popping st) (ht : st.stackOf t = fr :: k) {j x : Nat} {inside : Bool}
    {rest : List Frame} (howner : (st.queues j).owner = none)
    (hhead : (st.queues j).tasks.head? = some x) (hrest : ∀ fr' ∈ rest, fr'.isPop = false)
    (hpop : fr.isPop = false) :
    Popping ((st.apply t (.take j)).setStack t (.popFront j x inside :: rest ++ k)) := by
  have hstacks : ((st.apply t (.take j)).setStack t (.popFront j x inside :: rest ++ k)).stackOf =
      Function.update st.stackOf t (.popFront j x inside :: rest ++ k) := by
    rw [setStack_stackOf, apply_stackOf]
  refine ⟨fun u fr' hm => ?_, fun u j' x' inside' k' hu => ?_, fun j' u hu => ?_⟩
  · rw [hstacks] at hm
    by_cases heq : u = t
    · subst heq
      rw [Function.update_self] at hm
      rcases List.mem_append.mp hm with hm | hm
      · exact hrest fr' hm
      · exact h.not_isPop ht fr' hm
    · rw [Function.update_of_ne heq] at hm
      exact h.tail u fr' hm
  · show ((st.apply t (.take j)).queues j').owner = some u ∧
      ((st.apply t (.take j)).queues j').tasks.head? = some x'
    rw [hstacks] at hu
    rw [queues_take]
    by_cases heq : u = t
    · subst heq
      rw [Function.update_self] at hu
      cases hu
      rw [if_pos rfl]
      exact ⟨rfl, hhead⟩
    · rw [Function.update_of_ne heq] at hu
      have hold := h.front u j' x' inside' k' hu
      have hne : j' ≠ j := by
        rintro rfl
        rw [howner] at hold
        cases hold.1
      rw [if_neg hne]
      exact hold
  · replace hu : ((st.apply t (.take j)).queues j').owner = some u := hu
    rw [hstacks]
    rw [queues_take] at hu
    by_cases hj : j' = j
    · subst hj
      rw [if_pos rfl] at hu
      cases hu
      exact ⟨x, inside, rest ++ k, Function.update_self ..⟩
    · rw [if_neg hj] at hu
      obtain ⟨x', inside', k', hstack⟩ := h.owner j' u hu
      have hne : u ≠ t := by
        rintro rfl
        rw [ht] at hstack
        cases hstack
        cases hpop
      exact ⟨x', inside', k', by rw [Function.update_of_ne hne, hstack]⟩

theorem Popping.popFront (h : Popping st) {j x : Nat} {inside : Bool} {frs : List Frame}
    (ht : st.stackOf t = .popFront j x inside :: k) (hfrs : ∀ fr' ∈ frs, fr'.isPop = false) :
    Popping ((st.apply t (.popFront j)).setStack t (frs ++ k)) := by
  have hstacks : ((st.apply t (.popFront j)).setStack t (frs ++ k)).stackOf =
      Function.update st.stackOf t (frs ++ k) := by
    rw [setStack_stackOf, apply_stackOf]
  have howner := (h.front t j x inside k ht).1
  have hframes : ∀ fr' ∈ frs ++ k, fr'.isPop = false :=
    List.forall_mem_append.mpr ⟨hfrs, h.not_isPop ht⟩
  refine ⟨fun u fr' hm => ?_, fun u j' x' inside' k' hu => ?_, fun j' u hu => ?_⟩
  · rw [hstacks] at hm
    by_cases heq : u = t
    · subst heq
      rw [Function.update_self] at hm
      exact hframes fr' (List.mem_of_mem_tail hm)
    · rw [Function.update_of_ne heq] at hm
      exact h.tail u fr' hm
  · show ((st.apply t (.popFront j)).queues j').owner = some u ∧
      ((st.apply t (.popFront j)).queues j').tasks.head? = some x'
    rw [hstacks] at hu
    rw [queues_popFront]
    by_cases heq : u = t
    · subst heq
      rw [Function.update_self] at hu
      have hnot := hframes (.popFront j' x' inside') (by rw [hu]; exact List.mem_cons_self)
      cases hnot
    · rw [Function.update_of_ne heq] at hu
      have hold := h.front u j' x' inside' k' hu
      have hne : j' ≠ j := by
        rintro rfl
        exact heq (Option.some.inj (hold.1.symm.trans howner))
      rw [if_neg hne]
      exact hold
  · replace hu : ((st.apply t (.popFront j)).queues j').owner = some u := hu
    rw [hstacks]
    rw [queues_popFront] at hu
    by_cases hj : j' = j
    · rw [if_pos hj] at hu
      cases hu
    · rw [if_neg hj] at hu
      obtain ⟨x', inside', k', hstack⟩ := h.owner j' u hu
      have hne : u ≠ t := by
        rintro rfl
        rw [ht] at hstack
        cases hstack
        exact hj rfl
      exact ⟨x', inside', k', by rw [Function.update_of_ne hne, hstack]⟩

end Access

theorem not_isPop_of_isOp {fr : Frame} (h : fr.isOp = true) : fr.isPop = false := by
  cases fr with
  | popFront => cases h
  | _ => rfl

theorem Popping.step {n : Nat} {st st' : State} {a : Act} (h : Popping st)
    (hs : step n st a = some st') : Popping st' := by
  obtain ⟨t, c, frs, hfree, hstarts, rfl⟩ | ⟨t, x, k, rfl, ht, rfl⟩ |
    ⟨t, fr, k, e, frs, rfl, ht, hn, rfl⟩ := step_cases hs
  · have hold := free_not_isPop h hfree
    refine h.next (setStack_stackOf _ t (frs ++ st.stackOf t)) (fun j x inside k hstack => ?_)
      (List.forall_mem_append.mpr ⟨fun fr hm => not_isPop_of_isOp (hstarts.isOp fr hm), hold⟩)
      (fun _ _ hu => ⟨hu, rfl⟩) fun _ hj => hj
    have hnot := hold (.popFront j x inside) (by rw [hstack]; exact List.mem_cons_self)
    cases hnot
  · refine h.next (setStack_stackOf _ t k) (fun j x inside k' hstack => ?_) (h.not_isPop ht)
      (fun _ _ hu => ⟨hu, rfl⟩) fun _ hj => hj
    rw [ht] at hstack
    cases hstack
  · have hstacks : ((st.apply t e).setStack t (frs ++ k)).stackOf =
        Function.update st.stackOf t (frs ++ k) := by rw [setStack_stackOf, apply_stackOf]
    have hbefore : fr.isPop = false → ∀ j x inside k', st.stackOf t ≠ .popFront j x inside :: k' := by
      intro hpop j x inside k' hstack
      rw [ht] at hstack
      cases hstack
      cases hpop
    cases Frame.moves hn with
    | take howner hhead hkeep _ hpop => exact h.take ht howner hhead hkeep.pop hpop
    | popFront hkeep => exact h.popFront ht hkeep.pop
    | drop =>
      exact h.next hstacks (hbefore rfl) (h.not_isPop ht) (fun _ _ hu => ⟨hu, rfl⟩) fun _ hj => hj
    | @enqueue _ j x hpushing _ howner =>
      refine h.next hstacks (hbefore ?_) (h.not_isPop ht) (fun j' u hu => ?_) fun j' hj => ?_
      · cases fr <;> first | rfl | cases hpushing
      · have hne : j' ≠ j := by
          rintro rfl
          rw [howner] at hu
          cases hu
        show ((st.apply t (.enqueue j x)).queues j').owner = some u ∧
          ((st.apply t (.enqueue j x)).queues j').tasks = (st.queues j').tasks
        rw [queues_enqueue, if_neg hne]
        exact ⟨hu, rfl⟩
      · show ((st.apply t (.enqueue j x)).queues j').owner = none
        rw [queues_enqueue]
        split
        · exact howner
        · exact hj
    | refuse hpushing =>
      refine h.next hstacks (hbefore ?_) (h.not_isPop ht) (fun _ _ hu => ⟨hu, rfl⟩) fun _ hj => hj
      cases fr <;> first | rfl | cases hpushing
    | keep hkeep hpop hstill =>
      have hsame := Effect.still_queue st t hstill
      exact h.next hstacks (hbefore hpop) (List.forall_mem_append.mpr ⟨hkeep.pop, h.not_isPop ht⟩)
        (fun j _ hu => ⟨(hsame j).1.trans hu, (hsame j).2⟩) fun j hj => (hsame j).1.trans hj

/-! ## Stops -/

/-- Frames that there are only when the executor is stopped: `stop()` behind its flag, and a worker that
found its queue done. -/
def Frame.halts : Frame → Bool
  | .stopQueue _ | .doubleCheck none => true
  | _ => false

structure Halting (st : State) : Prop where
  frames : ∀ t, ∀ fr ∈ st.stackOf t, fr.halts = true → st.stopped = true
  done : ∀ j, (st.queues j).done = true → st.stopped = true

theorem Halting.init (n : Nat) : Halting (State.init n) where
  frames := by
    intro t fr hm hhalts
    cases mem_init hm
    cases hhalts
  done := nofun

theorem Starts.not_halts {st : State} {t : Thread} {frs : List Frame} (h : Starts st t frs) :
    ∀ fr ∈ frs, fr.halts = false := by
  cases h <;> simp [Frame.halts]

theorem halts_next {n : Nat} {st : State} {t : Thread} {fr : Frame} {e : Effect} {frs : List Frame}
    (h : fr.next n st t = some (e, frs)) :
    (∀ fr' ∈ frs, fr'.halts = true →
      e = .setStopped ∨ fr.halts = true ∨ ∃ j, (st.queues j).done = true) ∧
    ∀ j, e = .setDone j → fr.halts = true := by
  cases fr with
  | pop =>
    simp only [Frame.next] at h
    split at h
    · split at h
      · cases h
        exact ⟨fun _ _ _ => .inr (.inr ⟨_, ‹_›⟩), by simp⟩
      · split at h <;> cases h
        exact ⟨by simp [Frame.halts], by simp⟩
    · cases h
  | stopFlag =>
    cases h
    exact ⟨fun _ _ _ => .inl rfl, by simp⟩
  | stopQueue k => exact ⟨fun _ _ _ => .inr (.inl rfl), fun _ _ => rfl⟩
  | _ =>
    simp only [Frame.next] at h
    repeat' split at h
    all_goals cases h
    all_goals exact ⟨by simp [Frame.halts], by simp⟩

theorem done_apply {st : State} {t : Thread} {e : Effect} {j : Nat}
    (h : ((st.apply t e).queues j).done = true) : (st.queues j).done = true ∨ e = .setDone j := by
  cases e with
  | take j' | popFront j' | enqueue j' x | setDone j' =>
    by_cases heq : j = j'
    · subst heq
      simp [State.apply, State.modify] at h ⊢ <;> exact h
    · simp [State.apply, State.modify, heq] at h
      exact .inl h
  | _ => exact .inl h

theorem stopped_apply {st : State} {t : Thread} {e : Effect} (h : st.stopped = true ∨ e = .setStopped) :
    (st.apply t e).stopped = true := by
  cases e with
  | setStopped => rfl
  | _ => exact h.resolve_right nofun

theorem Halting.step {n : Nat} {st st' : State} {a : Act} (h : Halting st)
    (hs : step n st a = some st') : Halting st' := by
  obtain ⟨t, c, frs, -, hstarts, rfl⟩ | ⟨t, x, k, rfl, ht, rfl⟩ |
    ⟨t, fr, k, e, frs, rfl, ht, hn, rfl⟩ := step_cases hs
  · refine ⟨fun u fr hm hhalts => ?_, h.done⟩
    rcases mem_start (setStack_stackOf st t _) hm with hnew | hold
    · rw [hstarts.not_halts fr hnew] at hhalts
      cases hhalts
    · exact h.frames u fr hold hhalts
  · exact ⟨fun u fr hm => h.frames u fr (mem_finish ht (setStack_stackOf _ t k) hm), h.done⟩
  · obtain ⟨hfrs, hset⟩ := halts_next hn
    have hfr : fr.halts = true → st.stopped = true :=
      h.frames t fr (by rw [ht]; exact List.mem_cons_self)
    refine ⟨fun u fr' hm hhalts => ?_, fun j hj => ?_⟩
    · show (st.apply t e).stopped = true
      obtain ⟨-, hnew⟩ | ⟨hold, -⟩ := mem_access ht hm
      · obtain he | hold | ⟨j, hj⟩ := hfrs fr' hnew hhalts
        · exact stopped_apply (.inr he)
        · exact stopped_apply (.inl (hfr hold))
        · exact stopped_apply (.inl (h.done j hj))
      · exact stopped_apply (.inl (h.frames u fr' hold hhalts))
    · rcases done_apply hj with hj | he
      · exact stopped_apply (.inl (h.done j hj))
      · exact stopped_apply (.inl (hfr (hset j he)))

/-! ## The ledger -/

/-- Where the tasks of the calls of `push()` are. Those that are refused were never put into a queue, and
those that are dropped were taken from one and not run. -/
structure Ledger (st : State) (pushing queued held refused dropped : Multiset Nat) : Prop where
  total_pushing : Total (fun t => (pushedBy (st.stackOf t) : Multiset Nat)) pushing
  total_queued : Total (fun j => ((st.queues j).untaken : Multiset Nat)) queued
  total_held : Total (fun t => (heldBy (st.stackOf t) : Multiset Nat)) held
  calls : Multiset.range st.calls = pushing + refused + (st.pushed : Multiset Nat)
  pushed : (st.pushed : Multiset Nat) = queued + held + (st.finished : Multiset Nat) + dropped
  stopped : dropped ≠ 0 → st.stopped = true

theorem Ledger.init (n : Nat) : Ledger (State.init n) 0 0 0 0 0 where
  total_pushing := .zero fun t => by
    cases t with
    | worker i => simp only [State.init]; split <;> rfl
    | outside u => rfl
  total_queued := .zero fun _ => rfl
  total_held := .zero fun t => by
    cases t with
    | worker i => simp only [State.init]; split <;> rfl
    | outside u => rfl
  calls := rfl
  pushed := rfl
  stopped h := absurd rfl h

section Step

variable {n : Nat} {st st' : State} {pushing queued held refused dropped : Multiset Nat}

/-- One queue apart. -/
theorem Ledger.queue (h : Ledger st pushing queued held refused dropped) (j : Nat) :
    ∃ r, queued = ↑(st.queues j).untaken + r ∧ ∀ q : TaskQueue,
      Total (fun k => ((Function.update st.queues j q k).untaken : Multiset Nat)) (↑q.untaken + r) :=
  Total.split (g := fun q : TaskQueue => (q.untaken : Multiset Nat)) (f := st.queues) h.total_queued j

/-- One thread apart, and what the ledger is when it goes on. -/
theorem Ledger.thread (h : Ledger st pushing queued held refused dropped) (t : Thread) :
    ∃ p q : Multiset Nat, pushing = ↑(pushedBy (st.stackOf t)) + p ∧
      held = ↑(heldBy (st.stackOf t)) + q ∧
      ∀ {st' : State} {frames : List Frame} {queued' refused' dropped' : Multiset Nat},
        st'.stackOf = Function.update st.stackOf t frames →
        Total (fun j => ((st'.queues j).untaken : Multiset Nat)) queued' →
        Multiset.range st'.calls = ↑(pushedBy frames) + p + refused' + (st'.pushed : Multiset Nat) →
        (st'.pushed : Multiset Nat) =
          queued' + (↑(heldBy frames) + q) + (st'.finished : Multiset Nat) + dropped' →
        (dropped' ≠ 0 → st'.stopped = true) →
        Ledger st' (↑(pushedBy frames) + p) queued' (↑(heldBy frames) + q) refused' dropped' := by
  obtain ⟨p, hp, hp'⟩ :=
    Total.split (g := fun s => (pushedBy s : Multiset Nat)) (f := st.stackOf) h.total_pushing t
  obtain ⟨q, hq, hq'⟩ :=
    Total.split (g := fun s => (heldBy s : Multiset Nat)) (f := st.stackOf) h.total_held t
  refine ⟨p, q, hp, hq, fun {st'} {frames} _ _ _ hstacks hqueued hcalls hpushed hstopped => ?_⟩
  refine ⟨?_, hqueued, ?_, hcalls, hpushed, hstopped⟩
  · rw [hstacks]
    exact hp' frames
  · rw [hstacks]
    exact hq' frames

theorem of_start {t : Thread} {frs : List Frame} (h : st.start t frs = some st') :
    st.free t = true ∧ st' = st.setStack t (frs ++ st.stackOf t) := by
  rw [State.start] at h
  split at h <;> cases h
  exact ⟨‹_›, rfl⟩

/-- A call is started: a new task, or another operation. -/
theorem start_cases {a : Act} (h : step n st a = some st') :
    (∃ t, st' = { st with calls := st.calls + 1 }.setStack t (.pushReject st.calls :: st.stackOf t)) ∨
    (∃ t frs, pushedBy frs = [] ∧ heldBy frs = [] ∧ st' = st.setStack t (frs ++ st.stackOf t)) ∨
    (∃ t x k, a = .finish t ∧ st.stackOf t = .run x :: k ∧
      st' = { st with finished := st.finished ++ [x] }.setStack t k) ∨
    (∃ t fr k e frs, a = .step t ∧ st.stackOf t = fr :: k ∧ fr.next n st t = some (e, frs) ∧
      st' = (st.apply t e).setStack t (frs ++ k)) := by
  cases a with
  | push t => exact .inl ⟨t, (of_start h).2⟩
  | runOne t =>
    cases t with
    | worker i => exact .inr (.inl ⟨_, _, rfl, rfl, (of_start h).2⟩)
    | outside u => cases h
  | wait t p => exact .inr (.inl ⟨t, _, rfl, rfl, (of_start h).2⟩)
  | join t => exact .inr (.inl ⟨t, _, rfl, rfl, (of_start h).2⟩)
  | stop t => exact .inr (.inl ⟨t, _, rfl, rfl, (of_start h).2⟩)
  | finish t =>
    obtain ⟨t', c, frs, -, -, hst⟩ | hfinish | ⟨t', fr, k, e, frs, ha, -⟩ := step_cases h
    · rw [step] at h
      split at h <;> cases h
      exact .inr (.inr (.inl ⟨t, _, _, rfl, ‹_›, rfl⟩))
    · exact .inr (.inr (.inl hfinish))
    · cases ha
  | step t =>
    rw [step] at h
    split at h
    · cases h
    · split at h <;> cases h
      exact .inr (.inr (.inr ⟨t, _, _, _, _, rfl, ‹_›, ‹_›, rfl⟩))

theorem coe_cons (x : Nat) (l : List Nat) : ((x :: l : List Nat) : Multiset Nat) = {x} + ↑l := by
  rw [Multiset.singleton_add, Multiset.cons_coe]

theorem coe_concat (l : List Nat) (x : Nat) : ((l ++ [x] : List Nat) : Multiset Nat) = ↑l + {x} := by
  rw [← Multiset.coe_add, Multiset.coe_singleton]

theorem untaken_of_none {q : TaskQueue} (h : q.owner = none) : q.untaken = q.tasks := if_pos h

theorem untaken_of_some {q : TaskQueue} {t : Thread} (h : q.owner = some t) : q.untaken = q.tasks.tail :=
  if_neg (by rw [h]; exact nofun)

@[simp] theorem apply_calls (st : State) (t : Thread) (e : Effect) : (st.apply t e).calls = st.calls := by
  cases e <;> rfl

@[simp] theorem apply_finished (st : State) (t : Thread) (e : Effect) :
    (st.apply t e).finished = st.finished := by cases e <;> rfl

theorem apply_pushed (st : State) (t : Thread) {e : Effect} (h : e.still = true) :
    (st.apply t e).pushed = st.pushed := by
  cases e with
  | enqueue j x => cases h
  | _ => rfl

/-- The ledger after an access. A task is refused only where the executor rejects tasks, or is stopped. -/
theorem Ledger.access (h : Ledger st pushing queued held refused dropped) (hpop : Popping st)
    (hhalt : Halting st) {t : Thread} {fr : Frame} {k frs : List Frame} {e : Effect}
    (ht : st.stackOf t = fr :: k) (hn : fr.next n st t = some (e, frs)) :
    ∃ pushing' queued' held' refused' dropped',
      Ledger ((st.apply t e).setStack t (frs ++ k)) pushing' queued' held' refused' dropped' ∧
      (refused' = refused ∨ st.waiting = .rejectIncoming ∨ st.stopped = true) := by
  obtain ⟨p, q, hp, hq, hnext⟩ := h.thread t
  rw [ht] at hp hq
  have hstacks : ((st.apply t e).setStack t (frs ++ k)).stackOf =
      Function.update st.stackOf t (frs ++ k) := by rw [setStack_stackOf, apply_stackOf]
  cases Frame.moves hn with
  | @take _ j x inside rest howner hhead hkeep _ _ =>
    obtain ⟨r, hr, hr'⟩ := h.queue j
    obtain ⟨tasks, htasks⟩ := List.head?_eq_some_iff.mp hhead
    have hp₁ : pushedBy (.popFront j x inside :: rest ++ k) = pushedBy (fr :: k) := hkeep.pushedBy_eq k
    have hq₁ : heldBy (.popFront j x inside :: rest ++ k) = x :: heldBy (fr :: k) :=
      congrArg (x :: ·) (hkeep.heldBy_eq k)
    refine ⟨_, _, _, refused, dropped,
      hnext hstacks (hr' { st.queues j with owner := some t }) ?_ ?_ h.stopped, .inl rfl⟩
    · rw [hp₁, ← hp]
      exact h.calls
    · show (st.pushed : Multiset Nat) = _ + _ + (st.finished : Multiset Nat) + dropped
      rw [h.pushed, hr, hq, hq₁, untaken_of_none howner, untaken_of_some rfl, htasks, List.tail_cons,
        coe_cons, coe_cons]
      abel
  | @popFront j x inside _ hkeep =>
    obtain ⟨r, hr, hr'⟩ := h.queue j
    have howner := (hpop.front t j x inside k ht).1
    refine ⟨_, _, _, refused, dropped,
      hnext hstacks (hr' { st.queues j with tasks := (st.queues j).tasks.tail, owner := none })
        ?_ ?_ h.stopped, .inl rfl⟩
    · rw [hkeep.pushedBy_eq, ← hp]
      exact h.calls
    · show (st.pushed : Multiset Nat) = _ + _ + (st.finished : Multiset Nat) + dropped
      rw [h.pushed, hr, hq, hkeep.heldBy_eq, untaken_of_some howner, untaken_of_none rfl]
  | @drop x hstopped =>
    refine ⟨_, _, _, refused, {x} + dropped,
      hnext hstacks h.total_queued ?_ ?_ fun _ => hstopped, .inl rfl⟩
    · rw [hp] at h
      exact h.calls
    · have hq₁ : heldBy (.doubleCheck (some x) :: k) = x :: heldBy k := rfl
      show (st.pushed : Multiset Nat) = queued + (↑(heldBy k) + q) + (st.finished : Multiset Nat) + _
      rw [h.pushed, hq, hq₁, coe_cons]
      abel
  | @enqueue _ j x hpushing hholds howner =>
    obtain ⟨r, hr, hr'⟩ := h.queue j
    have hp₁ : pushedBy (fr :: k) = x :: pushedBy k := by rw [pushedBy_cons, hpushing]; rfl
    have hq₁ : heldBy (fr :: k) = heldBy k := by rw [heldBy_cons, hholds]; rfl
    refine ⟨_, _, _, refused, dropped,
      hnext hstacks (hr' { st.queues j with tasks := (st.queues j).tasks ++ [x] })
        ?_ ?_ h.stopped, .inl rfl⟩
    · show Multiset.range st.calls = ↑(pushedBy k) + p + refused + ↑(st.pushed ++ [x])
      rw [h.calls, hp, hp₁, coe_cons, coe_concat]
      abel
    · show ((st.pushed ++ [x] : List Nat) : Multiset Nat) =
        _ + (↑(heldBy k) + q) + (st.finished : Multiset Nat) + dropped
      rw [coe_concat, h.pushed, hr, hq, hq₁, untaken_of_none howner,
        untaken_of_none (q := { st.queues j with tasks := (st.queues j).tasks ++ [x] }) howner, coe_concat]
      abel
  | @refuse _ x hpushing hholds hwhy =>
    have hp₁ : pushedBy (fr :: k) = x :: pushedBy k := by rw [pushedBy_cons, hpushing]; rfl
    have hq₁ : heldBy (fr :: k) = heldBy k := by rw [heldBy_cons, hholds]; rfl
    refine ⟨_, _, _, {x} + refused, dropped, hnext hstacks h.total_queued ?_ ?_ h.stopped, .inr ?_⟩
    · show Multiset.range st.calls = ↑(pushedBy k) + p + ({x} + refused) + ↑st.pushed
      rw [h.calls, hp, hp₁, coe_cons]
      abel
    · show (st.pushed : Multiset Nat) = queued + (↑(heldBy k) + q) + (st.finished : Multiset Nat) + dropped
      rw [← hq₁, ← hq]
      exact h.pushed
    · exact hwhy.imp_right fun ⟨j, hj⟩ => hhalt.done j hj
  | keep hkeep _ hstill =>
    have hqueues : (fun j => (((st.apply t e).queues j).untaken : Multiset Nat)) =
        fun j => ((st.queues j).untaken : Multiset Nat) := by
      funext j
      obtain ⟨howner, htasks⟩ := Effect.still_queue st t hstill j
      rw [TaskQueue.untaken, TaskQueue.untaken, howner, htasks]
    have hqueued : Total (fun j => (((st.apply t e).queues j).untaken : Multiset Nat)) queued := by
      rw [hqueues]
      exact h.total_queued
    refine ⟨_, _, _, refused, dropped,
      hnext hstacks hqueued ?_ ?_ fun hne => stopped_apply (.inl (h.stopped hne)), .inl rfl⟩
    · show Multiset.range (st.apply t e).calls = _ + ((st.apply t e).pushed : Multiset Nat)
      rw [apply_calls, apply_pushed st t hstill, hkeep.pushedBy_eq, ← hp]
      exact h.calls
    · show ((st.apply t e).pushed : Multiset Nat) = _ + ((st.apply t e).finished : Multiset Nat) + dropped
      rw [apply_finished, apply_pushed st t hstill, hkeep.heldBy_eq, ← hq]
      exact h.pushed

theorem Ledger.step {a : Act} (h : Ledger st pushing queued held refused dropped) (hpop : Popping st)
    (hhalt : Halting st) (hs : step n st a = some st') :
    ∃ pushing' queued' held' refused' dropped', Ledger st' pushing' queued' held' refused' dropped' ∧
      (refused' = refused ∨ st.waiting = .rejectIncoming ∨ st.stopped = true) := by
  obtain ⟨t, rfl⟩ | ⟨t, frs, hp₀, hh₀, rfl⟩ | ⟨t, x, k, rfl, ht, rfl⟩ |
    ⟨t, fr, k, e, frs, rfl, ht, hn, rfl⟩ := start_cases hs
  · obtain ⟨p, q, hp, hq, hnext⟩ := h.thread t
    refine ⟨_, _, _, refused, dropped,
      hnext (setStack_stackOf _ t _) h.total_queued ?_ ?_ h.stopped, .inl rfl⟩
    · show Multiset.range (st.calls + 1) = _
      rw [Multiset.range_succ, h.calls, hp, pushedBy_cons, ← Multiset.coe_add, ← Multiset.singleton_add]
      show {st.calls} + _ = {st.calls} + _ + _ + _ + _
      abel
    · show (st.pushed : Multiset Nat) =
        queued + (↑(heldBy (st.stackOf t)) + q) + (st.finished : Multiset Nat) + dropped
      rw [← hq]
      exact h.pushed
  · obtain ⟨p, q, hp, hq, hnext⟩ := h.thread t
    refine ⟨_, _, _, refused, dropped,
      hnext (setStack_stackOf _ t _) h.total_queued ?_ ?_ h.stopped, .inl rfl⟩
    · rw [pushedBy_append, hp₀, List.nil_append, ← hp]
      exact h.calls
    · rw [heldBy_append, hh₀, List.nil_append, ← hq]
      exact h.pushed
  · obtain ⟨p, q, hp, hq, hnext⟩ := h.thread t
    rw [ht] at hp hq
    refine ⟨_, _, _, refused, dropped,
      hnext (setStack_stackOf _ t _) h.total_queued ?_ ?_ h.stopped, .inl rfl⟩
    · rw [hp] at h
      exact h.calls
    · show (st.pushed : Multiset Nat) = queued + (↑(heldBy k) + q) + ↑(st.finished ++ [x]) + dropped
      rw [h.pushed, hq, heldBy_cons, ← Multiset.coe_add, ← Multiset.coe_add]
      show queued + ({x} + _ + _) + _ + _ = _ + (_ + {x}) + _
      abel
  · exact h.access hpop hhalt ht hn

end Step

theorem stopped_of_step {n : Nat} {st st' : State} {a : Act} (hs : step n st a = some st')
    (h : st.stopped = true) : st'.stopped = true := by
  obtain ⟨t, c, frs, -, -, rfl⟩ | ⟨t, x, k, rfl, -, rfl⟩ | ⟨t, fr, k, e, frs, rfl, -, -, rfl⟩ :=
    step_cases hs
  · exact h
  · exact h
  · exact stopped_apply (.inl h)

/-! ## Every task in one place -/

/-- Nobody calls `wait()` with `RejectIncoming`. -/
def Accepts (_ : State) (a : Act) : Prop := ∀ t, a ≠ .wait t .rejectIncoming

def Frame.rejects : Frame → Bool
  | .waitTry .rejectIncoming | .waitSet .rejectIncoming => true
  | _ => false

theorem rejects_next {n : Nat} {st : State} {t : Thread} {fr : Frame} {e : Effect} {frs : List Frame}
    (h : fr.next n st t = some (e, frs)) (hno : fr.rejects = false) :
    (∀ fr' ∈ frs, fr'.rejects = false) ∧ e ≠ .setWaiting .rejectIncoming := by
  cases fr with
  | waitTry p =>
    simp only [Frame.next] at h
    split at h <;> cases h
    · cases p with
      | rejectIncoming => cases hno
      | _ => exact ⟨by simp [Frame.rejects], by simp⟩
    · exact ⟨by simp [Frame.rejects], by simp⟩
  | waitSet p =>
    cases h
    cases p with
    | rejectIncoming => cases hno
    | _ => exact ⟨by simp [Frame.rejects], by simp⟩
  | _ =>
    simp only [Frame.next] at h
    repeat' split at h
    all_goals cases h
    all_goals exact ⟨by simp [Frame.rejects], by simp⟩

/-- The executor rejects no tasks, and will not. -/
structure Accepting (st : State) : Prop where
  waiting : st.waiting ≠ .rejectIncoming
  frames : ∀ t, ∀ fr ∈ st.stackOf t, fr.rejects = false

theorem Accepting.init (n : Nat) : Accepting (State.init n) where
  waiting := nofun
  frames := by
    intro t fr hm
    cases mem_init hm
    rfl

theorem Accepting.step {n : Nat} {st st' : State} {a : Act} (h : Accepting st) (ha : Accepts st a)
    (hs : step n st a = some st') : Accepting st' := by
  have hset : ∀ {st'' : State} {t : Thread} {frs : List Frame}, st''.waiting = st.waiting →
      st''.stackOf = Function.update st.stackOf t (frs ++ st.stackOf t) →
      (∀ fr ∈ frs, fr.rejects = false) → Accepting st'' := by
    intro st'' t frs hwaiting hstacks hfrs
    exact ⟨hwaiting ▸ h.waiting, fun u fr hm => (mem_start hstacks hm).elim (hfrs fr) (h.frames u fr)⟩
  cases a with
  | push t =>
    obtain ⟨-, rfl⟩ := of_start hs
    exact hset rfl (setStack_stackOf _ t _) (by simp [Frame.rejects])
  | runOne t =>
    cases t with
    | worker i =>
      obtain ⟨-, rfl⟩ := of_start hs
      exact hset rfl (setStack_stackOf _ _ _) (by simp [Frame.rejects])
    | outside u => cases hs
  | wait t p =>
    obtain ⟨-, rfl⟩ := of_start hs
    refine hset rfl (setStack_stackOf _ t _) fun fr hm => ?_
    cases List.mem_singleton.mp hm
    cases p with
    | rejectIncoming => exact absurd rfl (ha t)
    | _ => rfl
  | join t =>
    obtain ⟨-, rfl⟩ := of_start hs
    exact hset rfl (setStack_stackOf _ t _) (by simp [Frame.rejects])
  | stop t =>
    obtain ⟨-, rfl⟩ := of_start hs
    exact hset rfl (setStack_stackOf _ t _) (by simp [Frame.rejects])
  | finish t =>
    rw [Executor.step] at hs
    split at hs <;> cases hs
    rename_i x k ht
    exact ⟨h.waiting, fun u fr hm => h.frames u fr (mem_finish ht (setStack_stackOf _ t k) hm)⟩
  | step t =>
    rw [Executor.step] at hs
    split at hs
    · cases hs
    · rename_i fr k ht
      split at hs <;> cases hs
      rename_i e frs hn
      obtain ⟨hfrs, he⟩ := rejects_next hn (h.frames t fr (by rw [ht]; exact List.mem_cons_self))
      refine ⟨?_, fun u fr' hm => ?_⟩
      · show (st.apply t e).waiting ≠ .rejectIncoming
        cases e with
        | setWaiting p => exact fun hp => he (congrArg Effect.setWaiting hp)
        | _ => exact h.waiting
      · obtain ⟨-, hnew⟩ | ⟨hold, -⟩ := mem_access ht hm
        · exact hfrs fr' hnew
        · exact h.frames u fr' hold

/-- **Every task in one place**: with the thread that is in the call of `push()`, in a queue, with a worker,
or finished. Some may be lost when the executor is stopped. -/
theorem tasks_once {n : Nat} {st : State} (h : Run (step n) Accepts (State.init n) st) :
    ∃ pushing queued held lost : Multiset Nat,
      Total (fun t => (pushedBy (st.stackOf t) : Multiset Nat)) pushing ∧
      Total (fun j => ((st.queues j).untaken : Multiset Nat)) queued ∧
      Total (fun t => (heldBy (st.stackOf t) : Multiset Nat)) held ∧
      Multiset.range st.calls = pushing + queued + held + (st.finished : Multiset Nat) + lost ∧
      (lost ≠ 0 → st.stopped = true) := by
  have hall : Popping st ∧ Halting st ∧ Accepting st ∧ ∃ pushing queued held refused dropped,
      Ledger st pushing queued held refused dropped ∧ (refused ≠ 0 → st.stopped = true) := by
    apply h.invariant
    · exact ⟨.init n, .init n, .init n, 0, 0, 0, 0, 0, .init n, fun h => absurd rfl h⟩
    rintro s s' a ⟨hpop, hhalt, hacc, _, _, _, refused, _, hledger, hrefused⟩ ha hs
    obtain ⟨_, _, _, refused', _, hledger', hwhy⟩ := hledger.step hpop hhalt hs
    refine ⟨hpop.step hs, hhalt.step hs, hacc.step ha hs, _, _, _, refused', _, hledger', fun hne => ?_⟩
    obtain rfl | hreject | hstopped := hwhy
    · exact stopped_of_step hs (hrefused hne)
    · exact absurd hreject hacc.waiting
    · exact stopped_of_step hs hstopped
  obtain ⟨-, -, -, pushing, queued, held, refused, dropped, hledger, hrefused⟩ := hall
  refine ⟨pushing, queued, held, refused + dropped, hledger.total_pushing, hledger.total_queued,
    hledger.total_held, ?_, fun hne => ?_⟩
  · rw [hledger.calls, hledger.pushed]
    abel
  · by_cases hzero : refused = 0
    · refine hledger.stopped fun hdropped => hne ?_
      rw [hzero, hdropped, add_zero]
    · exact hrefused hzero

/-! ## Workers that have nothing to do -/

/-- The stack of a worker, from the outermost frame. -/
inductive Rooted : List Frame → Prop
  | exited : Rooted []
  | loop : Rooted [.loop]
  | tryPop (k : Nat) : Rooted [.tryPop k false, .loop]
  | pop : Rooted [.pop, .loop]
  | popFront (j x : Nat) : Rooted [.popFront j x false, .loop]
  | doubleCheck (x : Option Nat) : Rooted [.doubleCheck x, .loop]
  | unbusy : Rooted [.unbusy, .loop]
  | inside (frames : List Frame) (x : Nat) : Rooted (frames ++ [.run x, .unbusy, .loop])

theorem Rooted.of_run {x : Nat} {k : List Frame} (h : Rooted (.run x :: k)) :
    Rooted k ∧ k ≠ [] ∧ ∀ frs, Rooted (frs ++ .run x :: k) := by
  generalize hstack : Frame.run x :: k = stack at h
  cases h with
  | inside frames y =>
    cases frames with
    | nil =>
      cases hstack
      exact ⟨.unbusy, nofun, fun frs => .inside frs x⟩
    | cons fr frames =>
      rw [List.cons_append, List.cons.injEq] at hstack
      obtain ⟨rfl, rfl⟩ := hstack
      refine ⟨.inside frames y, by simp, fun frs => ?_⟩
      rw [← List.append_assoc]
      exact .inside _ y
  | _ => cases hstack

theorem Rooted.next {n : Nat} {st : State} {i : Nat} {fr : Frame} {k frs : List Frame} {e : Effect}
    (h : Rooted (fr :: k)) (hn : fr.next n st (.worker i) = some (e, frs)) :
    Rooted (frs ++ k) ∧ (frs ++ k = [] → st.stopped = true) := by
  generalize hstack : fr :: k = stack at h
  cases h with
  | exited => cases hstack
  | loop =>
    cases hstack
    simp only [Frame.next] at hn
    cases hn
    split
    · exact ⟨.exited, fun _ => ‹_›⟩
    · exact ⟨.tryPop 0, by simp⟩
  | tryPop k =>
    cases hstack
    simp only [Frame.next] at hn
    split at hn
    · cases hn
      exact ⟨.pop, by simp⟩
    · split at hn <;> cases hn
      · exact ⟨.tryPop (k + 1), by simp⟩
      · exact ⟨.popFront _ _, by simp⟩
  | pop =>
    cases hstack
    simp only [Frame.next] at hn
    repeat' split at hn
    all_goals cases hn
    · exact ⟨.doubleCheck none, by simp⟩
    · exact ⟨.popFront _ _, by simp⟩
  | popFront j x =>
    cases hstack
    cases hn
    exact ⟨.doubleCheck (some x), by simp⟩
  | doubleCheck x =>
    cases hstack
    simp only [Frame.next] at hn
    split at hn
    · cases hn
      exact ⟨.loop, by simp⟩
    · cases x with
      | none => cases hn
      | some x =>
        cases hn
        exact ⟨.inside [] x, by simp⟩
  | unbusy =>
    cases hstack
    cases hn
    exact ⟨.loop, by simp⟩
  | inside frames x =>
    cases frames with
    | nil =>
      cases hstack
      cases hn
    | cons fr' frames =>
      rw [List.cons_append, List.cons.injEq] at hstack
      obtain ⟨rfl, rfl⟩ := hstack
      rw [← List.append_assoc]
      exact ⟨.inside _ x, by simp⟩

/-- The workers are in their loops until the executor is stopped, and the other queues are not used. -/
structure AtWork (n : Nat) (st : State) : Prop where
  rooted : ∀ i, Rooted (st.stackOf (.worker i))
  exited : ∀ i < n, st.stackOf (.worker i) = [] → st.stopped = true
  size : ∀ i, n ≤ i → st.stackOf (.worker i) = []
  queues : ∀ j, n ≤ j → (st.queues j).tasks = []

theorem AtWork.init (n : Nat) : AtWork n (State.init n) where
  rooted := by
    intro i
    simp only [State.init]
    split
    · exact .loop
    · exact .exited
  exited := by
    intro i hi h
    simp [State.init, hi] at h
  size := by
    intro i hi
    simp [State.init, Nat.not_lt.mpr hi]
  queues := fun _ _ => rfl

/-- A thread goes on. -/
theorem AtWork.next {n : Nat} {st st' : State} (h : AtWork n st) {t : Thread} {frames : List Frame}
    (hstacks : st'.stackOf = Function.update st.stackOf t frames)
    (hrooted : ∀ i, t = .worker i → st.stackOf t ≠ [] ∧ Rooted frames ∧
      (frames = [] → st'.stopped = true))
    (hstopped : st.stopped = true → st'.stopped = true)
    (hqueues : ∀ j, n ≤ j → (st'.queues j).tasks = []) : AtWork n st' := by
  refine ⟨fun i => ?_, fun i hi hnil => ?_, fun i hi => ?_, hqueues⟩
  · rw [hstacks]
    by_cases heq : Thread.worker i = t
    · rw [heq, Function.update_self]
      exact (hrooted i heq.symm).2.1
    · rw [Function.update_of_ne heq]
      exact h.rooted i
  · rw [hstacks] at hnil
    by_cases heq : Thread.worker i = t
    · rw [heq, Function.update_self] at hnil
      exact (hrooted i heq.symm).2.2 hnil
    · rw [Function.update_of_ne heq] at hnil
      exact hstopped (h.exited i hi hnil)
  · rw [hstacks]
    by_cases heq : Thread.worker i = t
    · refine absurd ?_ (hrooted i heq.symm).1
      rw [← heq]
      exact h.size i hi
    · rw [Function.update_of_ne heq]
      exact h.size i hi

theorem AtWork.step {n : Nat} {st st' : State} {a : Act} (h : AtWork n st)
    (hs : step n st a = some st') : AtWork n st' := by
  obtain ⟨t, c, frs, hfree, hstarts, rfl⟩ | ⟨t, x, k, rfl, ht, rfl⟩ |
    ⟨t, fr, k, e, frs, rfl, ht, hn, rfl⟩ := step_cases hs
  · refine h.next (setStack_stackOf _ t _) (fun i hi => ?_) id h.queues
    subst hi
    obtain ⟨x, k, hstack⟩ := free_worker hfree
    have hrooted := h.rooted i
    rw [hstack] at hrooted ⊢
    exact ⟨nofun, hrooted.of_run.2.2 frs, by simp⟩
  · refine h.next (setStack_stackOf _ t _) (fun i hi => ?_) id h.queues
    subst hi
    have hrooted := h.rooted i
    rw [ht] at hrooted ⊢
    exact ⟨nofun, hrooted.of_run.1, fun hnil => absurd hnil hrooted.of_run.2.1⟩
  · refine h.next (by rw [setStack_stackOf, apply_stackOf]) (fun i hi => ?_)
      (fun hst => stopped_apply (.inl hst)) fun j hj => ?_
    · subst hi
      have hrooted := h.rooted i
      rw [ht] at hrooted ⊢
      exact ⟨nofun, (hrooted.next hn).1, fun hnil => stopped_apply (.inl ((hrooted.next hn).2 hnil))⟩
    · show ((st.apply t e).queues j).tasks = []
      rw [apply_tasks, h.queues j hj]
      cases e with
      | popFront j' => simp
      | enqueue j' x =>
        have hne : j' ≠ j := Nat.ne_of_lt ((next_enqueue hn).1.trans_le hj)
        exact if_neg hne
      | _ => rfl

theorem next_eq_none {n : Nat} {st : State} {t : Thread} {fr : Frame} {k : List Frame}
    (ht : st.stackOf t = fr :: k) (hs : step n st (.step t) = none) : fr.next n st t = none := by
  cases hn : fr.next n st t with
  | none => rfl
  | some r =>
    obtain ⟨e, frs⟩ := r
    simp [step, ht, hn] at hs

/-- A worker that is in no task and has no step waits for its queue, unless it is stopped. -/
theorem Rooted.idle {n : Nat} {st : State} {i : Nat} {stack : List Frame} (h : Rooted stack)
    (hstack : st.stackOf (.worker i) = stack) (hinside : ¬ Inside st i)
    (hstep : step n st (.step (.worker i)) = none) :
    stack = [] ∨ stack = [.doubleCheck none, .loop] ∨ stack = [.pop, .loop] := by
  cases h with
  | exited => exact .inl rfl
  | pop => exact .inr (.inr rfl)
  | doubleCheck x =>
    cases x with
    | none => exact .inr (.inl rfl)
    | some x =>
      have hnext := next_eq_none hstack hstep
      simp only [Frame.next] at hnext
      split at hnext <;> cases hnext
  | inside frames x => exact absurd ⟨x, by rw [hstack]; simp⟩ hinside
  | loop | popFront | unbusy => cases next_eq_none hstack hstep
  | tryPop k =>
    have hnext := next_eq_none hstack hstep
    simp only [Frame.next] at hnext
    split at hnext
    · cases hnext
    · split at hnext <;> cases hnext

/-- A worker that waits for its queue leaves no task in it that could be taken. -/
theorem tasks_eq_nil {n : Nat} {st : State} {i : Nat} (hstack : st.stackOf (.worker i) = [.pop, .loop])
    (hstep : step n st (.step (.worker i)) = none) (howner : (st.queues i).owner = none) :
    (st.queues i).tasks = [] := by
  have hnext := next_eq_none hstack hstep
  cases hdone : (st.queues i).done with
  | true => simp [Frame.next, Thread.index, howner, hdone] at hnext
  | false =>
    cases htasks : (st.queues i).tasks with
    | nil => rfl
    | cons x tasks => simp [Frame.next, Thread.index, howner, hdone, htasks] at hnext

/-- **The workers come to rest only when all is done**: in no task, with no step to make, and not stopped,
they have run each task that was put into a queue, and each of them once. -/
theorem idle_finished {n : Nat} {st : State} (h : Reachable (step n) (State.init n) st)
    (hrun : st.stopped = false)
    (hidle : ∀ i < n, ¬ Inside st i ∧ step n st (.step (.worker i)) = none) :
    st.finished.Perm st.pushed := by
  have hall : Popping st ∧ Halting st ∧ AtWork n st ∧ Outer st ∧
      ∃ pushing queued held refused dropped, Ledger st pushing queued held refused dropped := by
    apply h.invariant
    · exact ⟨.init n, .init n, .init n, .init n, 0, 0, 0, 0, 0, .init n⟩
    rintro s s' a ⟨hpop, hhalt, hwork, hout, _, _, _, _, _, hledger⟩ - hs
    obtain ⟨_, _, _, _, _, hledger', -⟩ := hledger.step hpop hhalt hs
    exact ⟨hpop.step hs, hhalt.step hs, hwork.step hs, hout.step hs, _, _, _, _, _, hledger'⟩
  obtain ⟨hpop, hhalt, hwork, hout, pushing, queued, held, refused, dropped, hledger⟩ := hall
  have hnot : ¬ st.stopped = true := by rw [hrun]; exact nofun
  have hwaits : ∀ i < n, st.stackOf (.worker i) = [.pop, .loop] := by
    intro i hi
    obtain ⟨hinside, hstep⟩ := hidle i hi
    obtain hnil | hfailed | hpops := (hwork.rooted i).idle rfl hinside hstep
    · exact absurd (hwork.exited i hi hnil) hnot
    · refine absurd (hhalt.frames (.worker i) (.doubleCheck none) ?_ rfl) hnot
      rw [hfailed]
      exact List.mem_cons_self
    · exact hpops
  have howner : ∀ j, (st.queues j).owner = none := by
    intro j
    by_contra howned
    obtain ⟨t, ht⟩ := Option.ne_none_iff_exists'.mp howned
    obtain ⟨x, inside, k, hstack⟩ := hpop.owner j t ht
    cases t with
    | outside u =>
      have houter := hout u (.popFront j x inside) (by rw [hstack]; exact List.mem_cons_self)
      cases houter
    | worker i =>
      rcases Nat.lt_or_ge i n with hi | hi
      · rw [hwaits i hi] at hstack
        cases hstack
      · rw [hwork.size i hi] at hstack
        cases hstack
  have hempty : ∀ j, (st.queues j).tasks = [] := by
    intro j
    rcases Nat.lt_or_ge j n with hj | hj
    · exact tasks_eq_nil (hwaits j hj) (hidle j hj).2 (howner j)
    · exact hwork.queues j hj
  have hqueued : queued = 0 := hledger.total_queued.eq_zero fun j => by
    rw [untaken_of_none (howner j), hempty j, Multiset.coe_nil]
  have hheld : held = 0 := hledger.total_held.eq_zero fun t => by
    cases t with
    | outside u =>
      have hops : ∀ fr ∈ st.stackOf (.outside u), fr.isOp = true := by
        intro fr hm
        have houter := hout u fr hm
        cases fr <;> first | exact houter | cases houter
      rw [heldBy_ops hops, Multiset.coe_nil]
    | worker i =>
      rcases Nat.lt_or_ge i n with hi | hi
      · rw [hwaits i hi]
        rfl
      · rw [hwork.size i hi]
        rfl
  have hdropped : dropped = 0 := by
    by_contra hne
    exact hnot (hledger.stopped hne)
  have hpushed := hledger.pushed
  rw [hqueued, hheld, hdropped, add_zero, zero_add, zero_add] at hpushed
  exact (Multiset.coe_eq_coe.mp hpushed).symm

/-! ## Runs -/

def Act.isWait : Act → Bool
  | .wait _ _ => true
  | _ => false

/-- A thread outside pushes a task, and a worker is in it. -/
def pushAndRun : List Act :=
  [.push (.outside 0)] ++ List.replicate 4 (.step (.outside 0)) ++ List.replicate 4 (.step (.worker 0))

/-- One task is running, another one is in the queue. -/
theorem tasks_once_two : ∃ st, Run (step 1) Accepts (State.init 1) st ∧ st.calls = 2 ∧
    ∃ pushing queued held lost : Multiset Nat,
      Total (fun t => (pushedBy (st.stackOf t) : Multiset Nat)) pushing ∧
      Total (fun j => ((st.queues j).untaken : Multiset Nat)) queued ∧
      Total (fun t => (heldBy (st.stackOf t) : Multiset Nat)) held ∧
      Multiset.range st.calls = pushing + queued + held + (st.finished : Multiset Nat) + lost ∧
      (lost ≠ 0 → st.stopped = true) := by
  obtain ⟨st, hrun, hp⟩ := exists_run_of_exec (step 1) (fun _ a => !a.isWait) (State.init 1)
    (pushAndRun ++ [.push (.outside 0)] ++ List.replicate 4 (.step (.outside 0)))
    (fun st => decide (st.calls = 2)) (by decide)
  have hrun' : Run (step 1) Accepts (State.init 1) st := hrun.mono fun ha t heq => by
    subst heq
    cases ha
  exact ⟨st, hrun', of_decide_eq_true hp, tasks_once hrun'⟩

/-- The task has returned, and the worker waits for the next one. -/
theorem idle_finished_one : ∃ st, Reachable (step 1) (State.init 1) st ∧ st.pushed = [0] ∧
    st.finished.Perm st.pushed := by
  obtain ⟨st, hrun, hp⟩ := exists_run_of_exec (step 1) (fun _ _ => true) (State.init 1)
    (pushAndRun ++ [.finish (.worker 0)] ++ List.replicate 7 (.step (.worker 0)))
    (fun st => decide (st.pushed = [0] ∧ st.stopped = false ∧ st.stackOf (.worker 0) = [.pop, .loop] ∧
      (step 1 st (.step (.worker 0))).isNone = true))
    (by decide)
  obtain ⟨hpushed, hstopped, hstack, hnone⟩ := of_decide_eq_true hp
  refine ⟨st, hrun.reachable, hpushed, idle_finished hrun.reachable hstopped fun i hi => ?_⟩
  cases Nat.lt_one_iff.mp hi
  refine ⟨?_, Option.isNone_iff_eq_none.mp hnone⟩
  rintro ⟨x, hx⟩
  rw [hstack] at hx
  simp at hx

end Primitives.Executor
