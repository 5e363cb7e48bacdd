import Primitives.Executor.Workers

/-!
# `wait()` as a barrier

In a run where no worker nests, every task that was pushed is finished, in a queue, or with a
worker whose flag is set (`Located`). Then a call of `wait()` that takes the mutex is a barrier:
it sees each queue empty, and with no more pushes they stay so; and then it sees each worker
without a task, and with the queues empty they stay so (`wait_barrier`).

A worker that runs a task inside another one clears its flag too early, and `wait()` returns
while the outer task is running (`wait_returns_in_task`).
-/

set_option autoImplicit false

namespace Primitives.Executor

open Lib

/-! ## Where the tasks are -/

/-- A task is finished, in a queue, or with a worker. -/
def Placed (n : Nat) (st : State) (x : Nat) : Prop :=
  x ∈ st.finished ∨ (∃ j < n, x ∈ (st.queues j).tasks) ∨
    ∃ i, x ∈ heldBy (st.stackOf (.worker i))

/-- A task that is being popped is still at the front of its queue, which the worker has locked,
and every task that was pushed is somewhere. -/
structure Located (n : Nat) (st : State) : Prop where
  front : ∀ i j x, .popFront j x false ∈ st.stackOf (.worker i) →
    (st.queues j).owner = some (.worker i) ∧ (st.queues j).tasks.head? = some x
  placed : ∀ x ∈ st.pushed, Placed n st x

theorem Located.init (n : Nat) : Located n (State.init n) where
  front := by
    intro i j x hm
    simp only [State.init] at hm
    split at hm <;> simp at hm
  placed := nofun

theorem next_popFront {n : Nat} {st : State} {t : Thread} {fr : Frame} {e : Effect}
    {frs : List Frame} (h : fr.next n st t = some (e, frs)) {j x : Nat} {c : Bool}
    (hm : .popFront j x c ∈ frs) : e = .take j := by
  cases fr with
  | tryPop k inside =>
    simp only [Frame.next] at h
    split at h
    · cases h
      split at hm <;> simp at hm
    · split at h <;> cases h
      · simp at hm
      · cases List.mem_singleton.mp hm
        rfl
  | pop =>
    simp only [Frame.next] at h
    repeat' split at h
    all_goals cases h
    · simp at hm
    · cases List.mem_singleton.mp hm
      rfl
  | scanRun q r =>
    simp only [Frame.next] at h
    split at h
    · cases h
      simp at hm
    · split at h <;> cases h
      · simp at hm
      · rcases List.mem_pair.mp hm with heq | heq <;> cases heq
        rfl
  | _ =>
    simp only [Frame.next] at h
    repeat' split at h
    all_goals cases h
    all_goals simp at hm

section Access

variable {n : Nat} {st : State} {t : Thread} {fr : Frame} {k frs : List Frame} {e : Effect}

/-- The queue that another worker has locked is left alone. -/
theorem Located.apply_locked (h : Located n st) (hsh : Shapes n st) (hflat : Flat n st (.step t))
    (ht : st.stackOf t = fr :: k) (hn : fr.next n st t = some (e, frs)) {i j : Nat}
    (hi : t ≠ .worker i) (howner : (st.queues j).owner = some (.worker i)) :
    ((st.apply t e).queues j).owner = (st.queues j).owner ∧
      ((st.apply t e).queues j).tasks = (st.queues j).tasks := by
  have hpush : ∀ x, e ≠ .enqueue j x := by
    rintro x rfl
    simp [(next_enqueue hn).2] at howner
  cases t with
  | outside u =>
    obtain ⟨-, htake, hpop, -⟩ := hsh.outer.next ht hn
    exact apply_queue st _ (htake j) (hpop j) hpush
  | worker i' =>
    obtain ⟨-, hpop, htake⟩ := hsh.worker_next hflat ht hn
    refine apply_queue st _ ?_ ?_ hpush
    · rintro rfl
      obtain ⟨j', x, he, -, -, hnone, -⟩ | ⟨hne, -⟩ := htake
      · cases he
        simp [hnone] at howner
      · exact hne j rfl
    · rintro rfl
      obtain ⟨x, rfl⟩ := hpop j rfl
      have hlocked := (h.front i' j x (by rw [ht]; exact List.mem_cons_self)).1
      rw [howner, Option.some.injEq] at hlocked
      exact hi hlocked.symm

theorem Located.front_access (h : Located n st) (hsh : Shapes n st) (hflat : Flat n st (.step t))
    (ht : st.stackOf t = fr :: k) (hn : fr.next n st t = some (e, frs)) {i j x : Nat}
    (hm : .popFront j x false ∈ ((st.apply t e).setStack t (frs ++ k)).stackOf (.worker i)) :
    ((st.apply t e).queues j).owner = some (.worker i) ∧
      ((st.apply t e).queues j).tasks.head? = some x := by
  obtain ⟨rfl, hfrs⟩ | ⟨hold, hk⟩ := mem_access ht hm
  · -- the task is taken in this step
    cases next_popFront hn hfrs
    obtain ⟨-, -, ⟨j', y, he, rfl, -, -, hhead⟩ | ⟨hne, -⟩⟩ := hsh.worker_next hflat ht hn
    · cases he
      cases List.mem_singleton.mp hfrs
      simpa [State.apply, State.modify] using hhead
    · exact absurd rfl (hne j)
  · have hi : t ≠ .worker i := by
      rintro rfl
      have hshape := hsh.shape i
      rw [ht] at hshape
      exact hshape.popFront_not_mem j x false (hk rfl)
    obtain ⟨howner, hhead⟩ := h.front i j x hold
    obtain ⟨howner', htasks⟩ := h.apply_locked hsh hflat ht hn hi howner
    rw [howner', htasks]
    exact ⟨howner, hhead⟩

/-- A task is still somewhere after an access. -/
theorem Located.placed_access (h : Located n st) (hsh : Shapes n st) (hflat : Flat n st (.step t))
    (ht : st.stackOf t = fr :: k) (hn : fr.next n st t = some (e, frs)) {x : Nat}
    (hx : Placed n st x) : Placed n ((st.apply t e).setStack t (frs ++ k)) x := by
  have hheld : ∀ i, x ∈ heldBy (st.stackOf (.worker i)) →
      x ∈ heldBy (((st.apply t e).setStack t (frs ++ k)).stackOf (.worker i)) := by
    intro i hi
    rw [setStack_stackOf, apply_stackOf]
    by_cases heq : t = .worker i
    · subst heq
      rw [Function.update_self]
      rw [ht] at hi
      obtain ⟨-, -, ⟨j, y, -, -, hnil, -⟩ | ⟨-, hsame⟩⟩ := hsh.worker_next hflat ht hn
      · simp [hnil] at hi
      · rwa [hsame]
    · rwa [Function.update_of_ne (Ne.symm heq)]
  obtain hfin | ⟨j, hj, hq⟩ | ⟨i, hi⟩ := hx
  · refine .inl ?_
    cases e <;> exact hfin
  · by_cases hpop : e = .popFront j
    · -- the task at the front is with the worker that pops it
      subst hpop
      cases t with
      | outside u =>
        obtain ⟨-, -, hne, -⟩ := hsh.outer.next ht hn
        exact absurd rfl (hne j)
      | worker i =>
        obtain ⟨-, hfr, -⟩ := hsh.worker_next hflat ht hn
        obtain ⟨y, rfl⟩ := hfr j rfl
        have hhead := (h.front i j y (by rw [ht]; exact List.mem_cons_self)).2
        obtain ⟨rest, hrest⟩ := List.head?_eq_some_iff.mp hhead
        rw [hrest] at hq
        rcases List.mem_cons.mp hq with rfl | hq
        · exact .inr (.inr ⟨i, hheld i (by rw [ht]; simp [heldBy, Frame.holds])⟩)
        · exact .inr (.inl ⟨j, hj, by simp [State.setStack, apply_tasks, hrest, hq]⟩)
    · refine .inr (.inl ⟨j, hj, ?_⟩)
      show x ∈ ((st.apply t e).queues j).tasks
      by_cases hpush : ∃ y, e = .enqueue j y
      · obtain ⟨y, rfl⟩ := hpush
        simp [apply_tasks, hq]
      · by_cases htake : e = .take j
        · subst htake
          rwa [apply_tasks]
        · rw [(apply_queue st t htake hpop fun y hy => hpush ⟨y, hy⟩).2]
          exact hq
  · exact .inr (.inr ⟨i, hheld i hi⟩)

end Access

/-- The frames of an operation that a thread starts hold no task. -/
theorem Located.start {n : Nat} {st : State} (h : Located n st) {t : Thread} {c : Nat}
    {frs : List Frame} (hop : ∀ fr ∈ frs, fr.isOp = true) :
    Located n ({ st with calls := c }.setStack t (frs ++ st.stackOf t)) := by
  have hheld : ∀ i, heldBy (Function.update st.stackOf t (frs ++ st.stackOf t) (.worker i)) =
      heldBy (st.stackOf (.worker i)) := by
    intro i
    by_cases heq : t = .worker i
    · rw [heq, Function.update_self, heldBy_append, heldBy_ops hop, List.nil_append]
    · rw [Function.update_of_ne (Ne.symm heq)]
  refine ⟨fun i j x hm => h.front i j x ?_, fun x hx => ?_⟩
  · rw [setStack_stackOf] at hm
    by_cases heq : t = .worker i
    · subst heq
      rw [Function.update_self, List.mem_append] at hm
      rcases hm with hm | hm
      · cases hop _ hm
      · exact hm
    · rwa [Function.update_of_ne (Ne.symm heq)] at hm
  · obtain hfin | hq | ⟨i, hi⟩ := h.placed x hx
    · exact .inl hfin
    · exact .inr (.inl hq)
    · exact .inr (.inr ⟨i, by rw [setStack_stackOf, hheld]; exact hi⟩)

/-- The task that a worker runs is finished when it returns. -/
theorem Located.finish {n : Nat} {st : State} (h : Located n st) {t : Thread} {x : Nat}
    {k : List Frame} (ht : st.stackOf t = .run x :: k) :
    Located n ({ st with finished := st.finished ++ [x] }.setStack t k) := by
  refine ⟨fun i j y hm => h.front i j y ?_, fun y hy => ?_⟩
  · rw [setStack_stackOf] at hm
    by_cases heq : t = .worker i
    · subst heq
      rw [Function.update_self] at hm
      rw [ht]
      exact List.mem_cons_of_mem _ hm
    · rwa [Function.update_of_ne (Ne.symm heq)] at hm
  · obtain hfin | hq | ⟨i, hi⟩ := h.placed y hy
    · exact .inl (List.mem_append_left _ hfin)
    · exact .inr (.inl hq)
    · by_cases heq : t = .worker i
      · subst heq
        rw [ht] at hi
        rcases List.mem_cons.mp hi with rfl | hi
        · exact .inl (List.mem_append_right _ (List.mem_singleton.mpr rfl))
        · exact .inr (.inr ⟨i, by rw [setStack_stackOf, Function.update_self]; exact hi⟩)
      · refine .inr (.inr ⟨i, ?_⟩)
        rw [setStack_stackOf, Function.update_of_ne (Ne.symm heq)]
        exact hi

theorem Located.step {n : Nat} {st st' : State} {a : Act} (h : Located n st) (hsh : Shapes n st)
    (hflat : Flat n st a) (hs : step n st a = some st') : Located n st' := by
  obtain ⟨t, c, frs, -, hstarts, rfl⟩ | ⟨t, x, k, rfl, ht, rfl⟩ |
    ⟨t, fr, k, e, frs, rfl, ht, hn, rfl⟩ := step_cases hs
  · exact h.start hstarts.isOp
  · exact h.finish ht
  · refine ⟨fun i j x => h.front_access hsh hflat ht hn, fun x hx => ?_⟩
    by_cases hpush : ∃ j, e = .enqueue j x
    · obtain ⟨j, rfl⟩ := hpush
      refine .inr (.inl ⟨j, (next_enqueue hn).1, ?_⟩)
      simp [State.setStack, apply_tasks]
    · refine h.placed_access hsh hflat ht hn (h.placed x ?_)
      cases e with
      | enqueue j y =>
        have hx' : x ∈ st.pushed ++ [y] := hx
        rcases List.mem_append.mp hx' with hx' | hx'
        · exact hx'
        · exact absurd ⟨j, by rw [List.mem_singleton.mp hx']⟩ hpush
      | _ => exact hx

/-- What holds in a run where no worker nests. -/
theorem shapes_located {n : Nat} {st : State} {ok : State → Act → Prop}
    (hok : ∀ {s a}, ok s a → Flat n s a) (h : Run (step n) ok (State.init n) st) :
    Shapes n st ∧ Located n st := by
  induction h with
  | refl => exact ⟨.init n, .init n⟩
  | tail _ ha hs ih => exact ⟨ih.1.step (hok ha) hs, ih.2.step ih.1 (hok ha) hs⟩

/-! ## The barrier -/

/-- No task is put into a queue. -/
def Quiet (n : Nat) (st : State) (a : Act) : Prop :=
  ∀ t fr k j x frs, a = .step t → st.stackOf t = fr :: k →
    fr.next n st t ≠ some (.enqueue j x, frs)

/-- A call of `wait()` by the thread finds the mutex free. -/
def Acquires (t : Thread) (st : State) (a : Act) : Prop :=
  ∀ p k, a = .step t → st.stackOf t = .waitTry p :: k → st.mWait = none

/-- The queues before the `q`-th are empty. -/
def EmptyTo (st : State) (q : Nat) : Prop := ∀ j < q, (st.queues j).tasks = []

/-- The workers before the `b`-th have no task. -/
def IdleTo (st : State) (b : Nat) : Prop := ∀ i < b, heldBy (st.stackOf (.worker i)) = []

/-- What the thread has seen at a place of `wait()`. -/
def Frame.Seen (n : Nat) (st : State) : Frame → Prop
  | .waitTry _ | .waitSet _ => True
  | .scan q | .scanStopped q => EmptyTo st q
  | .freeSelf => EmptyTo st n
  | .busyScan b | .busyStopped b => EmptyTo st n ∧ IdleTo st b
  | .waitDone | .waitUnlock => EmptyTo st n ∧ IdleTo st n
  | _ => False

theorem Frame.Seen.mono {n : Nat} {st st' : State} {fr : Frame} (h : fr.Seen n st)
    (hempty : ∀ {q}, EmptyTo st q → EmptyTo st' q)
    (hidle : ∀ {b}, EmptyTo st n → IdleTo st b → IdleTo st' b) : fr.Seen n st' := by
  cases fr with
  | waitTry | waitSet => trivial
  | scan q | scanStopped q | freeSelf => exact hempty h
  | busyScan b | busyStopped b | waitDone | waitUnlock => exact ⟨hempty h.1, hidle h.1 h.2⟩
  | _ => exact h.elim

/-- The thread looks at one queue or one flag after the other. -/
theorem Frame.Seen.next {n u : Nat} {st : State} {fr : Frame} {e : Effect} {frs : List Frame}
    (h : fr.Seen n st) (hsh : Shapes n st) (hn : fr.next n st (.outside u) = some (e, frs))
    (hfree : ∀ p, fr = .waitTry p → st.mWait = none) :
    (frs = [] ∧ EmptyTo st n ∧ IdleTo st n) ∨ ∃ fr', frs = [fr'] ∧ fr'.Seen n st := by
  cases fr with
  | waitTry p =>
    simp only [Frame.next, hfree p rfl, if_true] at hn
    cases hn
    exact .inr ⟨_, rfl, trivial⟩
  | waitSet p =>
    cases hn
    exact .inr ⟨_, rfl, fun j hj => absurd hj (Nat.not_lt_zero j)⟩
  | scan q =>
    simp only [Frame.next] at hn
    split at hn
    · rename_i heq
      cases hn
      exact .inr ⟨_, rfl, heq ▸ h⟩
    · split at hn <;> cases hn
      · rename_i hnil
        refine .inr ⟨_, rfl, fun j hj => ?_⟩
        obtain hlt | rfl := Nat.lt_succ_iff_lt_or_eq.mp hj
        · exact h j hlt
        · exact hnil
      · exact .inr ⟨_, rfl, h⟩
  | scanStopped q =>
    simp only [Frame.next, hsh.running] at hn
    cases hn
    exact .inr ⟨_, rfl, h⟩
  | freeSelf =>
    cases hn
    exact .inr ⟨_, rfl, h, fun i hi => absurd hi (Nat.not_lt_zero i)⟩
  | busyScan b =>
    simp only [Frame.next] at hn
    split at hn
    · rename_i heq
      cases hn
      exact .inr ⟨_, rfl, h.1, heq ▸ h.2⟩
    · split at hn <;> cases hn
      · exact .inr ⟨_, rfl, h⟩
      · rename_i hbusy
        refine .inr ⟨_, rfl, h.1, fun i hi => ?_⟩
        obtain hlt | rfl := Nat.lt_succ_iff_lt_or_eq.mp hi
        · exact h.2 i hlt
        · -- a worker with a task has its flag set
          by_contra hheld
          exact hbusy ((hsh.shape i).busy_of_held hheld)
  | busyStopped b =>
    simp only [Frame.next, hsh.running] at hn
    cases hn
    exact .inr ⟨_, rfl, h⟩
  | waitDone =>
    cases hn
    exact .inr ⟨_, rfl, h⟩
  | waitUnlock =>
    cases hn
    exact .inl ⟨rfl, h⟩
  | _ => exact h.elim

theorem take_lt {n i : Nat} {st : State} {fr : Frame} {j x : Nat} (hi : i < n)
    (h : fr.next n st (.worker i) = some (.take j, [.popFront j x false])) : j < n := by
  cases fr with
  | tryPop k inside =>
    simp only [Frame.next] at h
    split at h
    · cases h
    · split at h <;> cases h
      exact Nat.mod_lt _ (Nat.zero_lt_of_lt hi)
  | pop =>
    simp only [Frame.next] at h
    repeat' split at h
    all_goals cases h
    exact hi
  | _ =>
    simp only [Frame.next] at h
    repeat' split at h
    all_goals cases h

section Segment

variable {n : Nat} {st st' : State} {a : Act}

/-- An empty queue stays empty while nothing is pushed. -/
theorem EmptyTo.step (hquiet : Quiet n st a) (hs : step n st a = some st') {q : Nat}
    (h : EmptyTo st q) : EmptyTo st' q := by
  intro j hj
  obtain ⟨t, c, frs, -, -, rfl⟩ | ⟨t, x, k, rfl, -, rfl⟩ |
    ⟨t, fr, k, e, frs, rfl, ht, hn, rfl⟩ := step_cases hs
  · exact h j hj
  · exact h j hj
  · show ((st.apply t e).queues j).tasks = []
    rw [apply_tasks, h j hj]
    cases e with
    | enqueue j' x => exact absurd hn (hquiet t fr k j' x frs rfl ht)
    | popFront j' => simp
    | _ => rfl

/-- A worker without a task stays so while the queues are empty. -/
theorem IdleTo.step (hsh : Shapes n st) (hflat : Flat n st a) (hs : step n st a = some st')
    (hempty : EmptyTo st n) {b : Nat} (h : IdleTo st b) : IdleTo st' b := by
  intro i hi
  obtain ⟨t, c, frs, -, hstarts, rfl⟩ | ⟨t, x, k, rfl, ht, rfl⟩ |
    ⟨t, fr, k, e, frs, rfl, ht, hn, rfl⟩ := step_cases hs
  · rw [setStack_stackOf]
    by_cases heq : t = .worker i
    · rw [heq, Function.update_self, heldBy_append, heldBy_ops hstarts.isOp]
      exact h i hi
    · rw [Function.update_of_ne (Ne.symm heq)]
      exact h i hi
  · rw [setStack_stackOf]
    by_cases heq : t = .worker i
    · subst heq
      have hheld := h i hi
      rw [ht] at hheld
      cases hheld
    · rw [Function.update_of_ne (Ne.symm heq)]
      exact h i hi
  · rw [setStack_stackOf, apply_stackOf]
    by_cases heq : t = .worker i
    · subst heq
      rw [Function.update_self]
      have hlt : i < n := by
        by_contra hle
        simp [hsh.size i (Nat.not_lt.mp hle)] at ht
      obtain ⟨-, -, ⟨j, x, rfl, rfl, -, -, hhead⟩ | ⟨-, hsame⟩⟩ := hsh.worker_next hflat ht hn
      · simp [hempty j (take_lt hlt hn)] at hhead
      · rw [hsame, ← ht]
        exact h i hi
    · rw [Function.update_of_ne (Ne.symm heq)]
      exact h i hi

theorem pushed_of_quiet (hquiet : Quiet n st a) (hs : step n st a = some st') :
    st'.pushed = st.pushed := by
  obtain ⟨t, c, frs, -, -, rfl⟩ | ⟨t, x, k, rfl, -, rfl⟩ |
    ⟨t, fr, k, e, frs, rfl, ht, hn, rfl⟩ := step_cases hs
  · rfl
  · rfl
  · cases e with
    | enqueue j x => exact absurd hn (hquiet t fr k j x frs rfl ht)
    | _ => rfl

theorem finished_of_step (hs : step n st a = some st') {x : Nat} (h : x ∈ st.finished) :
    x ∈ st'.finished := by
  obtain ⟨t, c, frs, -, -, rfl⟩ | ⟨t, y, k, rfl, -, rfl⟩ |
    ⟨t, fr, k, e, frs, rfl, ht, hn, rfl⟩ := step_cases hs
  · exact h
  · exact List.mem_append_left _ h
  · cases e <;> exact h

end Segment

/-- The call of `wait()` is under way, with what it has seen, or the tasks pushed before it are
finished. -/
def Waiting (n u : Nat) (before : List Nat) (st : State) : Prop :=
  (∀ x ∈ before, x ∈ st.finished) ∨
  (st.pushed = before ∧ ∃ fr, st.stackOf (.outside u) = [fr] ∧ fr.Seen n st)

/-- With all queues empty and no worker in a task, the tasks are finished. -/
theorem Located.finished {n : Nat} {st : State} (h : Located n st) (hsh : Shapes n st)
    (hempty : EmptyTo st n) (hidle : IdleTo st n) {x : Nat} (hx : x ∈ st.pushed) :
    x ∈ st.finished := by
  obtain hfin | ⟨j, hj, hq⟩ | ⟨i, hi⟩ := h.placed x hx
  · exact hfin
  · simp [hempty j hj] at hq
  · obtain hlt | hle := Nat.lt_or_ge i n
    · simp [hidle i hlt] at hi
    · simp [hsh.size i hle, heldBy] at hi

theorem Waiting.step {n u : Nat} {before : List Nat} {st st' : State} {a : Act}
    (h : Waiting n u before st) (hsh : Shapes n st) (hloc : Located n st) (hflat : Flat n st a)
    (hquiet : Quiet n st a) (hacq : Acquires (.outside u) st a) (hs : step n st a = some st') :
    Waiting n u before st' := by
  obtain hfin | ⟨rfl, fr, hstack, hseen⟩ := h
  · exact .inl fun x hx => finished_of_step hs (hfin x hx)
  have hmono : ∀ {fr' : Frame}, fr'.Seen n st → fr'.Seen n st' := fun h =>
    h.mono (fun he => he.step hquiet hs) fun he hi => hi.step hsh hflat hs he
  have hpushed := pushed_of_quiet hquiet hs
  obtain ⟨t, c, frs, hfree, -, rfl⟩ | ⟨t, x, k, rfl, ht, rfl⟩ |
    ⟨t, fr', k, e, frs, rfl, ht, hn, rfl⟩ := step_cases hs
  · have hne : Thread.outside u ≠ t := by
      rintro rfl
      simp [State.free, hstack] at hfree
    exact .inr ⟨hpushed, fr, (Function.update_of_ne hne _ _).trans hstack, hmono hseen⟩
  · have hne : Thread.outside u ≠ t := by
      rintro rfl
      rw [hstack] at ht
      cases ht
      exact hseen
    exact .inr ⟨hpushed, fr, (Function.update_of_ne hne _ _).trans hstack, hmono hseen⟩
  · by_cases hne : Thread.outside u = t
    · subst hne
      rw [hstack] at ht
      cases ht
      have hfree : ∀ p, fr = .waitTry p → st.mWait = none := by
        rintro p rfl
        exact hacq p [] rfl hstack
      obtain ⟨-, hempty, hidle⟩ | ⟨fr', rfl, hseen'⟩ := hseen.next hsh hn hfree
      · exact .inl fun x hx => finished_of_step hs (hloc.finished hsh hempty hidle hx)
      · exact .inr ⟨hpushed, fr', by simp, hmono hseen'⟩
    · have hkeep : ((st.apply t e).setStack t (frs ++ k)).stackOf (.outside u) = [fr] := by
        rw [setStack_stackOf, Function.update_of_ne hne, apply_stackOf, hstack]
      exact .inr ⟨hpushed, fr, hkeep, hmono hseen⟩

/-- **`wait()` is a barrier.** In a run where no worker nests and nobody stops the executor, a
worker that is inside a task has its flag set; and when a call of `wait()` from outside, that
took the mutex and during which nothing was pushed, has returned, the tasks pushed before it are
finished. -/
theorem wait_barrier {n : Nat} {s₀ : State} (h : Run (step n) (Flat n) (State.init n) s₀) :
    (∀ i, Inside s₀ i → s₀.busy i = true) ∧
    ∀ u p s₁ s₂, step n s₀ (.wait (.outside u) p) = some s₁ →
      Run (step n) (fun s a => Flat n s a ∧ Quiet n s a ∧ Acquires (.outside u) s a) s₁ s₂ →
      s₂.stackOf (.outside u) = [] → ∀ x ∈ s₀.pushed, x ∈ s₂.finished := by
  obtain ⟨hsh, hloc⟩ := shapes_located id h
  refine ⟨fun i => hsh.busy_of_inside, fun u p s₁ s₂ hcall hrun hret => ?_⟩
  have hflat : Flat n s₀ (.wait (.outside u) p) := nofun
  have hstart : Shapes n s₁ ∧ Located n s₁ ∧ Waiting n u s₀.pushed s₁ := by
    refine ⟨hsh.step hflat hcall, hloc.step hsh hflat hcall, ?_⟩
    simp only [step, State.start] at hcall
    split at hcall <;> cases hcall
    have hnil : s₀.stackOf (.outside u) = [] := List.isEmpty_iff.mp ‹_›
    exact .inr ⟨rfl, .waitTry p, by simp [hnil], trivial⟩
  have hend : Shapes n s₂ ∧ Located n s₂ ∧ Waiting n u s₀.pushed s₂ := by
    clear hret
    induction hrun with
    | refl => exact hstart
    | tail _ hok hs ih =>
      obtain ⟨hf, hq, ha⟩ := hok
      obtain ⟨ih₁, ih₂, ih₃⟩ := ih
      exact ⟨ih₁.step hf hs, ih₂.step ih₁ hf hs, ih₃.step ih₁ ih₂ hf hq ha hs⟩
  obtain hfin | ⟨-, fr, hstack, -⟩ := hend.2.2
  · exact hfin
  · cases hret.symm.trans hstack

/-! ## Runs -/

def Frame.isRun : Frame → Bool
  | .run _ => true
  | _ => false

def Effect.isTake : Effect → Bool
  | .take _ => true
  | _ => false

def Effect.isEnqueue : Effect → Bool
  | .enqueue _ _ => true
  | _ => false

/-- A test of `Flat`. -/
def flat (n : Nat) (st : State) : Act → Bool
  | .step t =>
    match st.stackOf t with
    | [] => true
    | fr :: k => decide (fr ≠ .stopFlag) &&
      !((fr :: k).any Frame.isRun &&
        (decide (fr = .freeSelf) || (fr.next n st t).any fun p => p.1.isTake))
  | _ => true

theorem flat_of_test {n : Nat} {st : State} {a : Act} (h : flat n st a = true) : Flat n st a := by
  rintro t rfl
  cases hstack : st.stackOf t with
  | nil => exact ⟨fun ⟨i, fr, k, _, _, ht, _⟩ => by simp [hstack] at ht, nofun⟩
  | cons fr k =>
    simp only [flat, hstack, Bool.and_eq_true, Bool.not_eq_true', decide_eq_true_eq] at h
    obtain ⟨hstop, hnest⟩ := h
    refine ⟨?_, fun k' heq => hstop (List.cons.inj heq).1⟩
    rintro ⟨i, fr', k', rfl, ⟨x, hx⟩, ht, hor⟩
    rw [hstack] at ht hx
    cases ht
    have hany : (fr :: k).any Frame.isRun = true := List.any_eq_true.mpr ⟨_, hx, rfl⟩
    rw [hany, Bool.true_and, Bool.or_eq_false_iff] at hnest
    obtain hself | ⟨j, frs, hn⟩ := hor
    · exact of_decide_eq_false hnest.1 hself
    · simp [hn, Effect.isTake] at hnest

/-- A test of `Quiet`. -/
def quiet (n : Nat) (st : State) : Act → Bool
  | .step t =>
    match st.stackOf t with
    | [] => true
    | fr :: _ => !(fr.next n st t).any fun p => p.1.isEnqueue
  | _ => true

theorem quiet_of_test {n : Nat} {st : State} {a : Act} (h : quiet n st a = true) :
    Quiet n st a := by
  rintro t fr k j x frs rfl ht hn
  simp [quiet, ht, hn, Effect.isEnqueue] at h

/-- A test of `Acquires`. -/
def acquires (t : Thread) (st : State) : Act → Bool
  | .step t' =>
    match st.stackOf t' with
    | .waitTry _ :: _ => decide (t' = t → st.mWait = none)
    | _ => true
  | _ => true

theorem acquires_of_test {t : Thread} {st : State} {a : Act} (h : acquires t st a = true) :
    Acquires t st a := by
  rintro p k rfl ht
  simpa [acquires, ht] using h

/-- The actions of the thread outside that pushes a task. -/
def pushes : List Act := [.push (.outside 0)] ++ List.replicate 4 (.step (.outside 0))

/-- One worker is inside a task when `wait()` is called, and `wait()` returns after it. -/
theorem wait_barrier_one_task :
    ∃ s₀ s₁ s₂, Run (step 1) (Flat 1) (State.init 1) s₀ ∧ s₀.pushed = [0] ∧ s₀.finished = [] ∧
      step 1 s₀ (.wait (.outside 0) .blockIncoming) = some s₁ ∧
      Run (step 1) (fun s a => Flat 1 s a ∧ Quiet 1 s a ∧ Acquires (.outside 0) s a) s₁ s₂ ∧
      s₂.stackOf (.outside 0) = [] ∧ 0 ∈ s₂.finished := by
  obtain ⟨s₀, s₁, s₂, hrun, hcall, hrun₂, hp⟩ := exists_runs_of_exec (step 1) (flat 1)
    (fun s a => flat 1 s a && (quiet 1 s a && acquires (.outside 0) s a)) (State.init 1)
    (pushes ++ List.replicate 4 (.step (.worker 0))) (.wait (.outside 0) .blockIncoming)
    (List.replicate 8 (.step (.outside 0)) ++ [.finish (.worker 0)] ++ [.step (.worker 0)] ++
      List.replicate 5 (.step (.outside 0)))
    (fun s₀ s₂ => decide (s₀.pushed = [0] ∧ s₀.finished = [] ∧ s₂.stackOf (.outside 0) = []))
    (by decide)
  obtain ⟨hpushed, hfin, hret⟩ := of_decide_eq_true hp
  have hrun' := hrun.mono flat_of_test
  have hrun₂' : Run (step 1) (fun s a => Flat 1 s a ∧ Quiet 1 s a ∧ Acquires (.outside 0) s a)
      s₁ s₂ := hrun₂.mono fun h => by
    simp only [Bool.and_eq_true] at h
    exact ⟨flat_of_test h.1, quiet_of_test h.2.1, acquires_of_test h.2.2⟩
  exact ⟨s₀, s₁, s₂, hrun', hpushed, hfin, hcall, hrun₂', hret,
    (wait_barrier hrun').2 0 _ s₁ s₂ hcall hrun₂' hret 0 (by simp [hpushed])⟩

/-- A task that waits for a future runs another one, which clears the flag of its worker:
`wait()` returns while the first is still running. -/
theorem wait_returns_in_task :
    ∃ s₀ s₁ s₂, Reachable (step 1) (State.init 1) s₀ ∧ 0 ∈ s₀.pushed ∧
      step 1 s₀ (.wait (.outside 0) .blockIncoming) = some s₁ ∧ Run (step 1) (Quiet 1) s₁ s₂ ∧
      s₂.stopped = false ∧ s₂.stackOf (.outside 0) = [] ∧ 0 ∉ s₂.finished ∧
      Inside s₂ 0 ∧ s₂.busy 0 = false := by
  obtain ⟨s₀, s₁, s₂, hrun, hcall, hrun₂, hp⟩ := exists_runs_of_exec (step 1) (fun _ _ => true)
    (quiet 1) (State.init 1)
    (pushes ++ pushes ++ List.replicate 4 (.step (.worker 0)) ++ [.runOne (.worker 0)] ++
      List.replicate 2 (.step (.worker 0)) ++ [.finish (.worker 0)] ++ [.step (.worker 0)])
    (.wait (.outside 0) .blockIncoming) (List.replicate 9 (.step (.outside 0)))
    (fun s₀ s₂ => decide (0 ∈ s₀.pushed ∧ s₂.stopped = false ∧ s₂.stackOf (.outside 0) = [] ∧
      0 ∉ s₂.finished ∧ s₂.stackOf (.worker 0) = [.run 0, .unbusy, .loop] ∧ s₂.busy 0 = false))
    (by decide)
  obtain ⟨hpushed, hstop, hret, hfin, hstack, hbusy⟩ := of_decide_eq_true hp
  exact ⟨s₀, s₁, s₂, hrun.reachable, hpushed, hcall, hrun₂.mono quiet_of_test, hstop, hret, hfin,
    ⟨0, by rw [hstack]; exact List.mem_cons_self⟩, hbusy⟩

end Primitives.Executor
