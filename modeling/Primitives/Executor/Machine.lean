import Mathlib.Logic.Function.Basic
import Mathlib.Data.List.Basic
import Mathlib.Algebra.Ring.Nat

/-!
# Executor — the code

`Executor` and `TaskQueue` of `executor.h`: `n` workers with a queue and a busy flag each, and any
number of threads outside, one access at a time.

A thread is a stack of frames, the innermost first: a worker is in its loop, in a task it popped,
or in what the task calls, and that may run another task. `Frame.next` says which access a frame
makes to the shared state (`Effect`) and which frames take its place. A frame that waits for a
mutex, or for a condition, has no next step until it gets it. What a task does is not known: while
it is running it may start any operation (`Act`), as a thread outside may at any time.

The two writes of `pop` are two steps, because `wait()` looks at the queues and the flags without
their mutexes. What is left out: the constructor's start-up, thread names, what a task computes
(its exceptions end in its future), sleeping between two looks, and wake-ups, since a condition
that holds enables its step. `try_lock` fails only while the mutex is owned.
-/

set_option autoImplicit false

namespace Primitives.Executor

inductive Thread where
  | worker (i : Nat)
  | outside (t : Nat)
deriving DecidableEq, Repr

/-- The index of a worker in `thread_pool`. -/
def Thread.index : Thread → Nat
  | .worker i => i
  | .outside _ => 0

inductive WaitStatus where
  | running
  | allowIncoming
  | blockIncoming
  | rejectIncoming
deriving DecidableEq, Repr

/-- `q`, the owner of `m`, and `done_`. -/
structure TaskQueue where
  tasks : List Nat
  owner : Option Thread
  done : Bool

/-- A place in a function. A task is the number of the call of `push` that it was given to. -/
inductive Frame where
  /-- `run`: `while (!stopped_)`. -/
  | loop
  /-- `try_pop(i)` at its `k`-th look, called by `get_task`, or by `try_run_one`. -/
  | tryPop (k : Nat) (inside : Bool)
  /-- `thr.q.pop`. -/
  | pop
  /-- `q.pop_front()` of the `j`-th queue, after the task was moved and the flag was set. -/
  | popFront (j : Nat) (x : Nat) (inside : Bool)
  /-- `run_task(i)`: the double check. -/
  | doubleCheck (x : Option Nat)
  /-- `t()`. -/
  | run (x : Nat)
  /-- `thr.busy = false`. -/
  | unbusy
  /-- `push`: `waiting_ == RejectIncoming`. -/
  | pushReject (x : Nat)
  /-- `push`: `waiting_ == BlockIncoming`. -/
  | pushBlock (x : Nat)
  /-- `push`: the mutex `m_wait`. -/
  | pushLock (x : Nat)
  /-- `push`: the predicate of `cv_wait.wait`. -/
  | pushHeld (x : Nat)
  /-- `index++`. -/
  | pushIndex (x : Nat)
  /-- The `k`-th `try_push`, from the queue `i` on. -/
  | tryPush (x i k : Nat)
  /-- `push` of the queue `i % nThreads`. -/
  | pushQueue (x i : Nat)
  /-- `wait`: `try_to_lock`. -/
  | waitTry (p : WaitStatus)
  /-- `wait`: the lock of a second call. -/
  | waitBlocked
  | waitSet (p : WaitStatus)
  /-- `wait`: `!t.q.empty()` of the queue `q`. -/
  | scan (q : Nat)
  /-- `wait`: `!stopped_`, at a queue that is not empty. -/
  | scanStopped (q : Nat)
  /-- `wait`: a worker runs what is in the queues, and is at the queue `r`. -/
  | scanRun (q r : Nat)
  | freeSelf
  /-- `wait`: `t.busy` of the worker `b`. -/
  | busyScan (b : Nat)
  | busyStopped (b : Nat)
  | waitDone
  | waitUnlock
  | stopFlag
  /-- `stop`: `t.q.done()` of the queue `k`. -/
  | stopQueue (k : Nat)
  /-- `join`: `t.t.join()` of the worker `k`. -/
  | join (k : Nat)
deriving DecidableEq, Repr

/-- One access. -/
inductive Effect where
  | silent
  /-- The queue `j` is locked, and the busy flag of the thread is set. -/
  | take (j : Nat)
  /-- The queue's first task is removed and the queue unlocked. -/
  | popFront (j : Nat)
  | enqueue (j x : Nat)
  | unbusy
  | lockWait
  | unlockWait
  | setWaiting (p : WaitStatus)
  | bumpIndex
  | setStopped
  | setDone (j : Nat)
deriving DecidableEq, Repr

/-- `pushed` and `finished` record the tasks that were put into a queue, and those that were run
to their end; nothing reads them. `calls` counts the calls of `push`. -/
structure State where
  queues : Nat → TaskQueue
  busy : Nat → Bool
  stopped : Bool
  waiting : WaitStatus
  mWait : Option Thread
  index : Nat
  calls : Nat
  pushed : List Nat
  finished : List Nat
  stackOf : Thread → List Frame

/-- The workers are at their loops. -/
def State.init (n : Nat) : State where
  queues := fun _ => ⟨[], none, false⟩
  busy := fun _ => false
  stopped := false
  waiting := .running
  mWait := none
  index := 0
  calls := 0
  pushed := []
  finished := []
  stackOf := fun t =>
    match t with
    | .worker i => if i < n then [.loop] else []
    | .outside _ => []

/-- The task that `try_pop` of a queue takes: none while the queue is locked, empty or done. -/
def TaskQueue.tryPop (q : TaskQueue) : Option Nat :=
  if q.owner = none ∧ q.done = false then q.tasks.head? else none

/-- The access a frame of thread `t` makes, and the frames that take its place. -/
def Frame.next (n : Nat) (st : State) (t : Thread) : Frame → Option (Effect × List Frame)
  | .loop => some (.silent, if st.stopped then [] else [.tryPop 0 false, .loop])
  | .tryPop k inside =>
    if k = 4 * n then some (.silent, if inside then [] else [.pop])
    else
      match (st.queues ((t.index + k) % n)).tryPop with
      | none => some (.silent, [.tryPop (k + 1) inside])
      | some x => some (.take ((t.index + k) % n), [.popFront ((t.index + k) % n) x inside])
  | .pop =>
    if (st.queues t.index).owner = none then
      if (st.queues t.index).done then some (.silent, [.doubleCheck none])
      else
        match (st.queues t.index).tasks with
        | [] => none
        | x :: _ => some (.take t.index, [.popFront t.index x false])
    else none
  | .popFront j x inside =>
    some (.popFront j, if inside then [.run x, .unbusy] else [.doubleCheck (some x)])
  | .doubleCheck x =>
    if st.stopped then some (.silent, [])
    else
      match x with
      | none => none
      | some x => some (.silent, [.run x, .unbusy])
  | .run _ => none
  | .unbusy => some (.unbusy, [])
  | .pushReject x => some (.silent, if st.waiting = .rejectIncoming then [] else [.pushBlock x])
  | .pushBlock x =>
    some (.silent, if st.waiting = .blockIncoming then [.pushLock x] else [.pushIndex x])
  | .pushLock x => if st.mWait = none then some (.lockWait, [.pushHeld x]) else none
  | .pushHeld x =>
    some (.unlockWait, if st.waiting = .running then [.pushIndex x] else [.pushLock x])
  | .pushIndex x => some (.bumpIndex, [.tryPush x st.index 0])
  | .tryPush x i k =>
    -- with no workers, `i % nThreads` divides by zero
    if n = 0 then none
    else if k = n then some (.silent, [.pushQueue x i])
    else
      let j := (i + k) % 2 ^ 64 % n
      if (st.queues j).done = false ∧ (st.queues j).owner = none then some (.enqueue j x, [])
      else some (.silent, [.tryPush x i (k + 1)])
  | .pushQueue x i =>
    if n = 0 then none
    else if (st.queues (i % n)).done then some (.silent, [])
    else if (st.queues (i % n)).owner = none then some (.enqueue (i % n) x, [])
    else none
  | .waitTry p =>
    if st.mWait = none then some (.lockWait, [.waitSet p]) else some (.silent, [.waitBlocked])
  | .waitBlocked => if st.mWait = none then some (.lockWait, [.waitUnlock]) else none
  | .waitSet p => some (.setWaiting p, [.scan 0])
  | .scan q =>
    if q = n then some (.silent, [.freeSelf])
    else if (st.queues q).tasks = [] then some (.silent, [.scan (q + 1)])
    else some (.silent, [.scanStopped q])
  | .scanStopped q =>
    if st.stopped then some (.silent, [.scan (q + 1)])
    else
      match t with
      | .worker _ => some (.silent, [.scanRun q 0])
      | .outside _ => some (.silent, [.scan q])
  | .scanRun q r =>
    if r = n then some (.silent, [.scan q])
    else
      match (st.queues r).tryPop with
      | none => some (.silent, [.scanRun q (r + 1)])
      | some x => some (.take r, [.popFront r x true, .scanRun q (r + 1)])
  | .freeSelf =>
    match t with
    | .worker _ => some (.unbusy, [.busyScan 0])
    | .outside _ => some (.silent, [.busyScan 0])
  | .busyScan b =>
    if b = n then some (.silent, [.waitDone])
    else if st.busy b then some (.silent, [.busyStopped b])
    else some (.silent, [.busyScan (b + 1)])
  | .busyStopped b =>
    some (.silent, if st.stopped then [.busyScan (b + 1)] else [.busyScan b])
  | .waitDone => some (.setWaiting .running, [.waitUnlock])
  | .waitUnlock => some (.unlockWait, [])
  | .stopFlag => some (.setStopped, [.stopQueue 0])
  | .stopQueue k =>
    if k = n then some (.silent, [])
    else if (st.queues k).owner = none then some (.setDone k, [.stopQueue (k + 1)])
    else none
  | .join k =>
    if k = n then some (.silent, [])
    else if st.stackOf (.worker k) = [] then some (.silent, [.join (k + 1)])
    else none

/-- A queue changes. -/
def State.modify (st : State) (j : Nat) (g : TaskQueue → TaskQueue) : State :=
  { st with queues := Function.update st.queues j (g (st.queues j)) }

/-- The access, made by thread `t`. -/
def State.apply (st : State) (t : Thread) : Effect → State
  | .silent => st
  | .take j =>
    { st.modify j fun q => { q with owner := some t } with
      busy := Function.update st.busy t.index true }
  | .popFront j => st.modify j fun q => { q with tasks := q.tasks.tail, owner := none }
  | .enqueue j x =>
    { st.modify j fun q => { q with tasks := q.tasks ++ [x] } with pushed := st.pushed ++ [x] }
  | .unbusy => { st with busy := Function.update st.busy t.index false }
  | .lockWait => { st with mWait := some t }
  | .unlockWait => { st with mWait := none }
  | .setWaiting p => { st with waiting := p }
  | .bumpIndex => { st with index := (st.index + 1) % 2 ^ 64 }
  | .setStopped => { st with stopped := true }
  | .setDone j => st.modify j fun q => { q with done := true }

def State.setStack (st : State) (t : Thread) (frames : List Frame) : State :=
  { st with stackOf := Function.update st.stackOf t frames }

/-- What a thread does next. The first five are operations it starts. -/
inductive Act where
  | push (t : Thread)
  /-- `SharedState::wait`, from a task: `try_run_one`. -/
  | runOne (t : Thread)
  | wait (t : Thread) (p : WaitStatus)
  | join (t : Thread)
  | stop (t : Thread)
  /-- The task that the thread is running returns. -/
  | finish (t : Thread)
  /-- The next access of the innermost frame. -/
  | step (t : Thread)
deriving DecidableEq, Repr

/-- A thread outside is not in an operation, or a worker is in a task. -/
def State.free (st : State) : Thread → Bool
  | .outside t => (st.stackOf (.outside t)).isEmpty
  | .worker i =>
    match st.stackOf (.worker i) with
    | .run _ :: _ => true
    | _ => false

def State.start (st : State) (t : Thread) (frames : List Frame) : Option State :=
  if st.free t then some (st.setStack t (frames ++ st.stackOf t)) else none

def step (n : Nat) (st : State) : Act → Option State
  | .push t => { st with calls := st.calls + 1 }.start t [.pushReject st.calls]
  | .runOne t =>
    match t with
    | .worker _ => st.start t [.tryPop 0 true]
    | .outside _ => none
  | .wait t p => st.start t [.waitTry p]
  | .join t => st.start t [.waitTry .blockIncoming, .stopFlag, .join 0]
  | .stop t => st.start t [.stopFlag]
  | .finish t =>
    match st.stackOf t with
    | .run x :: k => some ({ st with finished := st.finished ++ [x] }.setStack t k)
    | _ => none
  | .step t =>
    match st.stackOf t with
    | [] => none
    | fr :: k =>
      match fr.next n st t with
      | none => none
      | some (e, frs) => some ((st.apply t e).setStack t (frs ++ k))

end Primitives.Executor
