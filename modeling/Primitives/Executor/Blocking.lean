import Primitives.Executor.Workers

/-!
# `push()` during a `wait()`

A thread in `wait()` holds `m_wait` until it has seen every busy flag clear, and `push()` waits
for that mutex while new tasks are to be blocked. A task that pushes then waits for the `wait()`,
which waits for the task (`push_deadlock_one_task`). Where no task pushes at such a time
(`PushesFree`) a worker in `push()` has its flag clear, and nobody waits for it
(`no_push_deadlock`).
-/

set_option autoImplicit false

namespace Primitives.Executor

open Lib

/-- The thread, in `wait()` or `join()`, waits for the flag of the worker. -/
def WaitsBusy (st : State) (t : Thread) (i : Nat) : Prop :=
  (∃ k, st.stackOf t = .busyScan i :: k ∨ st.stackOf t = .busyStopped i :: k) ∧ st.busy i = true

/-- The task of the worker is blocked in `push()` by the `wait()` of the thread. -/
def BlockedBy (st : State) (t : Thread) (i : Nat) : Prop :=
  (∃ x k, st.stackOf (.worker i) = .pushLock x :: k) ∧ st.mWait = some t

/-- No task comes to the check of `waiting_` in `push()` while new tasks are to be blocked, and
its worker's flag is set. -/
def PushesFree (st : State) (a : Act) : Prop :=
  ∀ i x k, a = .step (.worker i) → st.stackOf (.worker i) = .pushBlock x :: k →
    st.busy i = true → st.waiting ≠ .blockIncoming

/-- The places in `push()` where it waits for a `wait()`. -/
def Frame.inPush : Frame → Bool
  | .pushLock _ | .pushHeld _ => true
  | _ => false

theorem Starts.not_inPush {st : State} {t : Thread} {frs : List Frame} (h : Starts st t frs) :
    ∀ fr ∈ frs, fr.inPush = false := by
  cases h <;> simp [Frame.inPush]

section Next

variable {n : Nat} {st : State} {t : Thread} {fr : Frame} {e : Effect} {frs : List Frame}

/-- `push()` calls nothing while it waits. -/
theorem inPush_tail (h : fr.next n st t = some (e, frs)) :
    ∀ fr' ∈ frs.tail, fr'.inPush = false := by
  cases fr with
  | _ =>
    simp only [Frame.next] at h
    repeat' split at h
    all_goals cases h
    all_goals simp [Frame.inPush]

/-- How a thread comes to such a place, with its flag as it was. -/
theorem inPush_next (h : fr.next n st t = some (e, frs)) {fr' : Frame} (hm : fr' ∈ frs)
    (hin : fr'.inPush = true) :
    (fr.inPush = true ∨ ∃ x, fr = .pushBlock x ∧ st.waiting = .blockIncoming) ∧
      ∀ b, e.flag b = b := by
  cases fr with
  | pushBlock x =>
    simp only [Frame.next] at h
    split at h <;> cases h
    · exact ⟨.inr ⟨x, rfl, ‹_›⟩, fun _ => rfl⟩
    · cases List.mem_singleton.mp hm
      cases hin
  | pushLock x =>
    simp only [Frame.next] at h
    split at h <;> cases h
    exact ⟨.inl rfl, fun _ => rfl⟩
  | pushHeld x =>
    cases h
    exact ⟨.inl rfl, fun _ => rfl⟩
  | _ =>
    have hnone : ∀ fr' ∈ frs, fr'.inPush = false := by
      simp only [Frame.next] at h
      repeat' split at h
      all_goals cases h
      all_goals simp [Frame.inPush]
    simp [hnone fr' hm] at hin

end Next

/-- A worker waits in `push()` only in its innermost frame, and with its flag clear. -/
structure PushInv (st : State) : Prop where
  outer : Outer st
  tail : ∀ i, ∀ fr ∈ (st.stackOf (.worker i)).tail, fr.inPush = false
  clear : ∀ i, ∀ fr ∈ st.stackOf (.worker i), fr.inPush = true → st.busy i = false

theorem PushInv.init (n : Nat) : PushInv (State.init n) where
  outer := .init n
  tail := by
    intro i fr hm
    simp only [State.init] at hm
    split at hm <;> simp at hm
  clear := by
    intro i fr hm
    simp only [State.init] at hm
    split at hm
    · cases List.mem_singleton.mp hm
      intro hin
      cases hin
    · cases hm

/-- A thread that starts an operation, or returns to its task, is not in `push()`. -/
theorem PushInv.setStack {st st' : State} (h : PushInv st) (hout : Outer st') {t : Thread}
    {frames : List Frame} (hstacks : st'.stackOf = Function.update st.stackOf t frames)
    (hframes : ∀ fr ∈ frames, fr.inPush = false) (hbusy : st'.busy = st.busy) : PushInv st' := by
  refine ⟨hout, fun i fr hm => ?_, fun i fr hm hin => ?_⟩
  · rw [hstacks] at hm
    by_cases heq : Thread.worker i = t
    · subst heq
      rw [Function.update_self] at hm
      exact hframes fr (List.mem_of_mem_tail hm)
    · rw [Function.update_of_ne heq] at hm
      exact h.tail i fr hm
  · rw [hstacks] at hm
    rw [hbusy]
    by_cases heq : Thread.worker i = t
    · subst heq
      rw [Function.update_self] at hm
      simp [hframes fr hm] at hin
    · rw [Function.update_of_ne heq] at hm
      exact h.clear i fr hm hin

theorem PushInv.access {n : Nat} {st : State} (h : PushInv st) {t : Thread}
    (hfree : PushesFree st (.step t)) {fr : Frame} {k : List Frame} (ht : st.stackOf t = fr :: k)
    {e : Effect} {frs : List Frame} (hn : fr.next n st t = some (e, frs))
    (hout : Outer ((st.apply t e).setStack t (frs ++ k))) :
    PushInv ((st.apply t e).setStack t (frs ++ k)) := by
  have hstacks : ((st.apply t e).setStack t (frs ++ k)).stackOf =
      Function.update st.stackOf t (frs ++ k) := by rw [setStack_stackOf, apply_stackOf]
  refine ⟨hout, fun i fr' hm => ?_, fun i fr' hm hin => ?_⟩
  · rw [hstacks] at hm
    by_cases heq : Thread.worker i = t
    · subst heq
      have htail := h.tail i
      rw [ht] at htail
      rw [Function.update_self] at hm
      cases frs with
      | nil => exact htail fr' (List.mem_of_mem_tail hm)
      | cons fr₁ frs =>
        rcases List.mem_append.mp hm with hm | hm
        · exact inPush_tail hn fr' hm
        · exact htail fr' hm
    · rw [Function.update_of_ne heq] at hm
      exact h.tail i fr' hm
  · rw [hstacks] at hm
    by_cases heq : Thread.worker i = t
    · subst heq
      have htail := h.tail i
      rw [ht] at htail
      rw [Function.update_self, List.mem_append] at hm
      rcases hm with hm | hm
      · obtain ⟨hor, hflag⟩ := inPush_next hn hm hin
        show (st.apply (.worker i) e).busy i = false
        rw [apply_busy_self, hflag]
        obtain hin' | ⟨x, rfl, hblock⟩ := hor
        · exact h.clear i fr (by rw [ht]; exact List.mem_cons_self) hin'
        · by_contra hset
          exact hfree i x k rfl ht (eq_true_of_ne_false hset) hblock
      · simp [htail fr' hm] at hin
    · rw [Function.update_of_ne heq] at hm
      show (st.apply t e).busy i = false
      rw [h.outer.apply_busy ht hn (Ne.symm heq)]
      exact h.clear i fr' hm hin

theorem PushInv.step {n : Nat} {st st' : State} {a : Act} (h : PushInv st)
    (hfree : PushesFree st a) (hs : step n st a = some st') : PushInv st' := by
  have hout := h.outer.step hs
  obtain ⟨t, c, frs, hft, hstarts, rfl⟩ | ⟨t, x, k, rfl, ht, rfl⟩ |
    ⟨t, fr, k, e, frs, rfl, ht, hn, rfl⟩ := step_cases hs
  · cases t with
    | outside u =>
      refine ⟨hout, fun i fr hm => h.tail i fr ?_, fun i fr hm => h.clear i fr ?_⟩
      · simpa using hm
      · simpa using hm
    | worker i =>
      obtain ⟨x, k, ht⟩ := free_worker hft
      refine h.setStack hout (t := .worker i) rfl (fun fr hm => ?_) rfl
      have htail := h.tail i
      rw [ht] at htail hm
      rcases List.mem_append.mp hm with hm | hm
      · exact hstarts.not_inPush fr hm
      · rcases List.mem_cons.mp hm with rfl | hm
        · rfl
        · exact htail fr hm
  · cases t with
    | outside u =>
      have hrun := h.outer u (.run x) (by rw [ht]; exact List.mem_cons_self)
      cases hrun
    | worker i =>
      refine h.setStack hout (t := .worker i) rfl (fun fr hm => ?_) rfl
      have htail := h.tail i
      rw [ht] at htail
      exact htail fr hm
  · exact h.access hfree ht hn hout

/-- **No deadlock between `wait()` and `push()`.** In a run where no task pushes while new tasks
are to be blocked, no thread waits for the flag of a worker whose task is blocked in `push()` by
the thread's `wait()`. -/
theorem no_push_deadlock {n : Nat} {st : State} (h : Run (step n) PushesFree (State.init n) st)
    (t : Thread) (i : Nat) : ¬ (WaitsBusy st t i ∧ BlockedBy st t i) := by
  rintro ⟨⟨-, hbusy⟩, ⟨x, k, hstack⟩, -⟩
  have hi : PushInv st := h.invariant (.init n) fun hi ha hs => hi.step ha hs
  have hclear := hi.clear i (.pushLock x) (by rw [hstack]; exact List.mem_cons_self) rfl
  simp [hbusy] at hclear

/-! ## Runs -/

/-- A test of `PushesFree`. -/
def pushesFree (st : State) : Act → Bool
  | .step (.worker i) =>
    match st.stackOf (.worker i) with
    | .pushBlock _ :: _ => !(st.busy i && decide (st.waiting = .blockIncoming))
    | _ => true
  | _ => true

theorem pushesFree_of_test {st : State} {a : Act} (h : pushesFree st a = true) :
    PushesFree st a := by
  intro i x k ha ht hbusy hblock
  subst ha
  simp [pushesFree, ht, hbusy, hblock] at h

/-- A thread outside pushes a task, and the worker takes it. -/
def startTask : List Act :=
  [.push (.outside 0)] ++ List.replicate 4 (.step (.outside 0)) ++
    List.replicate 4 (.step (.worker 0))

/-- The thread calls `wait()`, and comes to the flag of the worker. -/
def startWait : List Act :=
  [.wait (.outside 0) .blockIncoming] ++ List.replicate 5 (.step (.outside 0))

/-- The task pushes another one before `wait()` is called. -/
theorem no_push_deadlock_one_task :
    ∃ st, Run (step 1) PushesFree (State.init 1) st ∧ st.pushed = [0, 1] ∧
      WaitsBusy st (.outside 0) 0 ∧
      ¬ (WaitsBusy st (.outside 0) 0 ∧ BlockedBy st (.outside 0) 0) := by
  obtain ⟨st, hrun, hp⟩ := exists_run_of_exec (step 1) pushesFree (State.init 1)
    (startTask ++ [.push (.worker 0)] ++ List.replicate 4 (.step (.worker 0)) ++
      [.finish (.worker 0)] ++ List.replicate 5 (.step (.worker 0)) ++ startWait)
    (fun st => decide (st.pushed = [0, 1] ∧ st.stackOf (.outside 0) = [.busyScan 0] ∧
      st.busy 0 = true))
    (by decide)
  obtain ⟨hpushed, hstack, hbusy⟩ := of_decide_eq_true hp
  have hrun' := hrun.mono pushesFree_of_test
  exact ⟨st, hrun', hpushed, ⟨⟨[], .inl hstack⟩, hbusy⟩, no_push_deadlock hrun' (.outside 0) 0⟩

/-- The task pushes another one while a thread outside is in `wait()`. -/
theorem push_deadlock_one_task :
    ∃ st, Reachable (step 1) (State.init 1) st ∧
      WaitsBusy st (.outside 0) 0 ∧ BlockedBy st (.outside 0) 0 := by
  obtain ⟨st, hrun, hp⟩ := exists_run_of_exec (step 1) (fun _ _ => true) (State.init 1)
    (startTask ++ startWait ++ [.push (.worker 0)] ++ List.replicate 2 (.step (.worker 0)))
    (fun st => decide (st.stackOf (.outside 0) = [.busyScan 0] ∧ st.busy 0 = true ∧
      st.stackOf (.worker 0) = [.pushLock 1, .run 0, .unbusy, .loop] ∧
      st.mWait = some (.outside 0)))
    (by decide)
  obtain ⟨hstack, hbusy, hworker, howner⟩ := of_decide_eq_true hp
  exact ⟨st, hrun.reachable, ⟨⟨[], .inl hstack⟩, hbusy⟩, ⟨1, _, hworker⟩, howner⟩

end Primitives.Executor
