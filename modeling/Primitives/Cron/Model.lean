import Primitives.Lib.SortedMap
import Mathlib.Order.Basic
import Mathlib.Data.Int.Order.Basic

/-!
# Cron — the code

`Cron` of `cron.h`: tasks are pushed for a time point, and one thread, in `run`, takes them when
their time has come, puts those that repeat back for a later time, and hands them to the
executor. Everything happens under one mutex that the thread gives up only in its two waits, so
a step is a push, a `stop()`, or what the thread does from one wait to the next (`Event`). The
clock is read up to three times in between and may show anything.

The map's `begin()` is dereferenced after the last task may have been taken; where it has, the
program's behaviour is undefined and the model goes no further. What is left out: the log of the
executor's exceptions, and overflow in the computation of time points.
-/

set_option autoImplicit false

namespace Primitives.Cron

open Lib

/-- Nanoseconds of the system clock. -/
abbrev TimePoint := Int

structure Repeat where
  day : Int := 0
  hour : Int := 0
  min : Int := 0
  second : Int := 0
deriving DecidableEq, Repr

def Repeat.needRepeat (r : Repeat) : Bool := r.second > 0 || r.min > 0 || r.hour > 0 || r.day > 0

def Repeat.nextRepeat (r : Repeat) (tp : TimePoint) : TimePoint :=
  tp + ((24 * r.day + r.hour) * 3600 + r.min * 60 + r.second) * 1000000000

structure CronTask (τ : Type) where
  task : τ
  rep : Repeat
  skip : Int
deriving DecidableEq, Repr

/-- Where the thread is. -/
inductive Phase where
  /-- At `while (!done)`. -/
  | top
  /-- In `cv.wait`: there are no tasks. -/
  | waiting
  /-- In `cv.wait_until`, with the deadline that it was called with. -/
  | sleeping (deadline : TimePoint)
  | exited
  /-- `begin()` of an empty map was dereferenced. -/
  | undefined
deriving DecidableEq, Repr

/-- `executor` holds the tasks handed to the executor. `accepted` records the tasks pushed, and
`handed` and `skipped` those that were handed to the executor, or skipped, and do not repeat;
nothing reads them. -/
structure State (τ : Type) where
  tasks : SortedMap TimePoint (CronTask τ)
  done : Bool
  phase : Phase
  executor : List τ
  accepted : List τ
  handed : List τ
  skipped : List τ

variable {τ : Type}

def State.init : State τ := ⟨.empty, false, .top, [], [], [], []⟩

inductive Event (τ : Type) where
  | push (p : TimePoint) (t : τ) (r : Repeat := {}) (skip : Int := 1)
  | stop
  /-- The thread goes on to its next wait. The clock shows `now` when the first task's time is
  compared, `again` when its next time is computed, and `last` when the wait begins. -/
  | run (now again last : TimePoint)
deriving DecidableEq, Repr

def State.push (st : State τ) (p : TimePoint) (t : τ) (r : Repeat) (skip : Int) : State τ :=
  { st with
    tasks := st.tasks.emplace p ⟨t, r, skip⟩
    accepted := st.accepted ++ [t] }

/-- The first task, whose time has come, is taken, put back if it repeats, and handed over unless
it is still to be skipped. -/
def State.take (st : State τ) (t : CronTask τ) (again : TimePoint) : State τ :=
  let fire := t.skip ≤ 0
  let t' := if fire then t else { t with skip := t.skip - 1 }
  let last := !t.rep.needRepeat
  { st with
    tasks :=
      if t.rep.needRepeat then st.tasks.eraseBegin.emplace (t.rep.nextRepeat again) t'
      else st.tasks.eraseBegin
    executor := if fire then st.executor ++ [t.task] else st.executor
    handed := if fire ∧ last then st.handed ++ [t.task] else st.handed
    skipped := if ¬ fire ∧ last then st.skipped ++ [t.task] else st.skipped }

/-- `if (!tasks.empty() || !done) cv.wait_until(lock, tasks.begin()->first, ...)`. The predicate
is tested before the wait. -/
def State.waitUntil (st : State τ) (now : TimePoint) : State τ :=
  match st.tasks.entries with
  | [] => { st with phase := if st.done then .top else .undefined }
  | (p, _) :: _ => { st with phase := if p ≤ now ∨ st.done then .top else .sleeping p }

/-- One turn of the loop, from the wait for tasks on. -/
def State.turn (st : State τ) (now again last : TimePoint) : State τ :=
  if st.done then { st with phase := .exited }
  else
    match st.tasks.entries with
    | [] => { st with phase := .waiting }
    | (p, t) :: _ => (if p ≤ now then st.take t again else st).waitUntil last

/-- The thread wakes up in `cv.wait_until`, and leaves it when the predicate holds or the
deadline has passed. -/
def State.wake (st : State τ) (deadline now : TimePoint) : State τ :=
  match st.tasks.entries with
  | [] => { st with phase := .undefined }
  | (p, _) :: _ => if p ≤ now ∨ st.done ∨ deadline ≤ now then { st with phase := .top } else st

def step (st : State τ) : Event τ → Option (State τ)
  | .push p t r skip => if st.phase = .undefined then none else some (st.push p t r skip)
  | .stop => if st.phase = .undefined then none else some { st with done := true }
  | .run now again last =>
    match st.phase with
    | .top | .waiting => some (st.turn now again last)
    | .sleeping deadline => some (st.wake deadline now)
    | .exited | .undefined => none

end Primitives.Cron
