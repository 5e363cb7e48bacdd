import Mathlib.Logic.Function.Basic
import Mathlib.Data.List.Basic

/-!
# Futures — the code

`SharedState`, `Future::then`, `whenAll` and `whenAny` of `executor.h`, run by any number of
threads one atomic access at a time.

A thread is a stack of frames, the innermost first, because `notice()` runs callbacks under the
future's mutex and a callback may call `setExecuted()` of another future. A frame is a place in
one of the functions; `Frame.next` says which access it makes to the shared state (`Effect`) and
which frames take its place. A frame that waits for a mutex has no next step while the mutex is
owned. Threads with an empty stack start operations as they like, so a run is any interleaving
of any operations.

The vector and the variadic versions of `whenAll` and `whenAny` differ in that the variadic ones
read every flag, also when the answer is known; the reads have no effect, and one model serves
both. What is left out: the condition variables and `cv_notifiers`, which only wake waiting
threads, `data` and `eptr` of tasks, and the executor that `then` pushes to, of which `pushed`
is a record.
-/

set_option autoImplicit false

namespace Primitives.Future

abbrev Thread := Nat

/-- A shared state: of a task pushed to an executor, or the one that the `n`-th call of
`whenAll` or `whenAny` creates. -/
inductive FutureId where
  | task (n : Nat)
  | combined (n : Nat)
deriving DecidableEq, Repr

/-- What is pushed to `SharedState::callbacks`. -/
inductive Callback where
  /-- `whenAll`: `if ((*ac)++ == max) s->setExecuted();`, for the state `s` and counter `ac` of
  the `c`-th call. -/
  | all (c max : Nat)
  /-- `whenAny`: `if (s->setExecuted()) s->data = i;`, for the state `s` of the `c`-th call. -/
  | any (c i : Nat)
  /-- `then`: `state->e.push(pt);`, for the `k`-th call of `then`. -/
  | push (k : Nat)
deriving DecidableEq, Repr

/-- The fields of `SharedState`: `set`, the owner of `m`, `callbacks`, and `data` where it is an
index that `whenAny` returns. -/
structure SharedState where
  set : Bool
  owner : Option Thread
  callbacks : List Callback
  data : Option Nat

/-- A call of `whenAny`, or else of `whenAll`. -/
structure Call where
  any : Bool
  futures : List FutureId
deriving DecidableEq, Repr

/-- A place in a function. `ix` is `some i` where `setExecuted()` was called by a callback that
goes on to store `i` if it returns true. In the frames of a call, `c` is its number and `i` the
index of the next future in its list; `locked` tells the second check from the first. -/
inductive Frame where
  /-- `set.compare_exchange_strong`. -/
  | setExecuted (f : FutureId) (ix : Option Nat)
  /-- `notice()`: the mutex. -/
  | noticeLock (f : FutureId) (ix : Option Nat)
  /-- `notice()`: the callbacks that are still to be run. -/
  | noticeRun (f : FutureId) (ix : Option Nat) (cbs : List Callback)
  /-- `notice()`: `callbacks.clear()`, after the mutex is released. -/
  | noticeClear (f : FutureId) (ix : Option Nat)
  /-- `s->data = i`. -/
  | assign (f : FutureId) (i : Nat)
  /-- The checks of the futures' flags. -/
  | check (c : Nat) (call : Call) (locked : Bool) (i : Nat)
  /-- `s->data = i` where a check of `whenAny` found the `i`-th future set. -/
  | found (c : Nat) (call : Call) (locked : Bool) (i : Nat)
  /-- `s->set = true`. -/
  | setCombined (c : Nat) (call : Call) (locked : Bool)
  /-- The loop that locks. -/
  | lock (c : Nat) (call : Call) (i : Nat)
  /-- The loop that pushes the callbacks. -/
  | register (c : Nat) (call : Call) (i : Nat)
  /-- The loop that unlocks. -/
  | unlock (c : Nat) (call : Call) (i : Nat)
  /-- `return s->getFuture()`. -/
  | ret (c : Nat)
  /-- `then`: the checks of `state->set`. -/
  | thenCheck (k : Nat) (f : FutureId) (locked : Bool)
  /-- `then`: `state->e.push(...)`. -/
  | thenPush (k : Nat) (f : FutureId) (locked : Bool)
  | thenLock (k : Nat) (f : FutureId)
  | thenRegister (k : Nat) (f : FutureId)
  | thenUnlock (k : Nat) (f : FutureId)
deriving DecidableEq, Repr

/-- One atomic access. -/
inductive Effect where
  | silent
  | setFlag (f : FutureId)
  | lock (f : FutureId)
  | unlock (f : FutureId)
  | addCallback (f : FutureId) (cb : Callback)
  | clear (f : FutureId)
  | setData (f : FutureId) (i : Nat)
  | runCallback (f : FutureId) (cb : Callback)
  | push (k : Nat)
  | ret (c : Nat)
deriving DecidableEq, Repr

/-- The futures, the counters `ac` of the `whenAll` calls, the calls made so far and which of
them have returned, the futures that `then` was called on so far, and the continuations that
have been pushed to the executor. `added` and `ran` record the callbacks that futures were given
and that were run; nothing reads them. -/
structure State where
  shared : FutureId → SharedState
  ac : Nat → Nat
  calls : List Call
  returned : Nat → Bool
  thens : List FutureId
  pushed : List Nat
  added : List (FutureId × Callback)
  ran : List (FutureId × Callback)
  stackOf : Thread → List Frame

/-- No operation has been started. -/
def State.init : State where
  shared := fun _ => ⟨false, none, [], none⟩
  ac := fun _ => 0
  calls := []
  returned := fun _ => false
  thens := []
  pushed := []
  added := []
  ran := []
  stackOf := fun _ => []

/-- The callback that the `c`-th call pushes to the `i`-th future of its list. -/
def Call.callback (call : Call) (c i : Nat) : Callback :=
  if call.any then .any c i else .all c (call.futures.length - 1)

/-- The access a frame makes, and the frames that take its place. -/
def Frame.next (st : State) : Frame → Option (Effect × List Frame)
  | .setExecuted f ix =>
    if (st.shared f).set then some (.silent, []) else some (.setFlag f, [.noticeLock f ix])
  | .noticeLock f ix =>
    if (st.shared f).owner = none then
      some (.lock f, [.noticeRun f ix (st.shared f).callbacks])
    else none
  | .noticeRun f ix [] => some (.unlock f, [.noticeClear f ix])
  | .noticeRun f ix (.all c max :: cbs) =>
    some (.runCallback f (.all c max),
      if st.ac c = max then [.setExecuted (.combined c) none, .noticeRun f ix cbs]
      else [.noticeRun f ix cbs])
  | .noticeRun f ix (.any c i :: cbs) =>
    some (.runCallback f (.any c i), [.setExecuted (.combined c) (some i), .noticeRun f ix cbs])
  | .noticeRun f ix (.push k :: cbs) =>
    some (.runCallback f (.push k), [.noticeRun f ix cbs])
  | .noticeClear f ix =>
    some (.clear f, match ix with
      | none => []
      | some i => [.assign f i])
  | .assign f i => some (.setData f i, [])
  | .check c call locked i =>
    match call.futures[i]? with
    | none =>
      if call.any then some (.silent, if locked then [.register c call 0] else [.lock c call 0])
      else some (.silent, [.setCombined c call locked])
    | some f =>
      if (st.shared f).set then
        if call.any then some (.silent, [.found c call locked i])
        else some (.silent, [.check c call locked (i + 1)])
      else if call.any then some (.silent, [.check c call locked (i + 1)])
      else some (.silent, if locked then [.register c call 0] else [.lock c call 0])
  | .found c call locked i => some (.setData (.combined c) i, [.setCombined c call locked])
  | .setCombined c call locked =>
    some (.setFlag (.combined c), if locked then [.unlock c call 0] else [.ret c])
  | .lock c call i =>
    match call.futures[i]? with
    | none => some (.silent, [.check c call true 0])
    | some f =>
      if (st.shared f).owner = none then some (.lock f, [.lock c call (i + 1)]) else none
  | .register c call i =>
    match call.futures[i]? with
    | none => some (.silent, [.unlock c call 0])
    | some f => some (.addCallback f (call.callback c i), [.register c call (i + 1)])
  | .unlock c call i =>
    match call.futures[i]? with
    | none => some (.silent, [.ret c])
    | some f => some (.unlock f, [.unlock c call (i + 1)])
  | .ret c => some (.ret c, [])
  | .thenCheck k f locked =>
    if (st.shared f).set then some (.silent, [.thenPush k f locked])
    else some (.silent, if locked then [.thenRegister k f] else [.thenLock k f])
  | .thenPush k f locked => some (.push k, if locked then [.thenUnlock k f] else [])
  | .thenLock k f =>
    if (st.shared f).owner = none then some (.lock f, [.thenCheck k f true]) else none
  | .thenRegister k f => some (.addCallback f (.push k), [.thenUnlock k f])
  | .thenUnlock _ f => some (.unlock f, [])

/-- The shared state of one future changes. -/
def State.modify (st : State) (f : FutureId) (g : SharedState → SharedState) : State :=
  { st with shared := Function.update st.shared f (g (st.shared f)) }

/-- The access, made by thread `t`. -/
def State.apply (st : State) (t : Thread) : Effect → State
  | .silent => st
  | .setFlag f => st.modify f fun s => { s with set := true }
  | .lock f => st.modify f fun s => { s with owner := some t }
  | .unlock f => st.modify f fun s => { s with owner := none }
  | .addCallback f cb =>
    { st.modify f fun s => { s with callbacks := s.callbacks ++ [cb] } with
      added := st.added ++ [(f, cb)] }
  | .clear f => st.modify f fun s => { s with callbacks := [] }
  | .setData f i => st.modify f fun s => { s with data := some i }
  | .runCallback f cb =>
    { st with
      ran := st.ran ++ [(f, cb)]
      ac := match cb with
        | .all c _ => Function.update st.ac c (st.ac c + 1)
        | _ => st.ac
      pushed := match cb with
        | .push k => st.pushed ++ [k]
        | _ => st.pushed }
  | .push k => { st with pushed := st.pushed ++ [k] }
  | .ret c => { st with returned := Function.update st.returned c true }

def State.setStack (st : State) (t : Thread) (frames : List Frame) : State :=
  { st with stackOf := Function.update st.stackOf t frames }

/-- A call of `whenAll` or `whenAny` is the next one. -/
def State.addCall (st : State) (call : Call) : State := { st with calls := st.calls ++ [call] }

/-- A call of `then` on `f` is the next one. -/
def State.addThen (st : State) (f : FutureId) : State := { st with thens := st.thens ++ [f] }

/-- A thread can use a future once it has been returned. -/
def State.usable (st : State) : FutureId → Bool
  | .task _ => true
  | .combined c => st.returned c

/-- What a thread does next. -/
inductive Act where
  /-- `PackagedTask::operator()` calls `setExecuted()`. -/
  | complete (t : Thread) (n : Nat)
  | whenAll (t : Thread) (futures : List FutureId)
  | whenAny (t : Thread) (futures : List FutureId)
  | then (t : Thread) (f : FutureId)
  /-- The next access of an operation that has been started. -/
  | step (t : Thread)
deriving DecidableEq, Repr

/-- `makeSharedState` for the state that the next call returns: it is set at once where the list
of the call is empty. -/
def State.makeShared (st : State) (t : Thread) (call : Call) : State :=
  if call.futures = [] then st.apply t (.setFlag (.combined st.calls.length)) else st

/-- `whenAll` or `whenAny` is called. -/
def State.startCall (st : State) (t : Thread) (call : Call) : Option State :=
  if st.stackOf t = [] ∧ ∀ f ∈ call.futures, st.usable f then
    some (((st.makeShared t call).addCall call).setStack t [.check st.calls.length call false 0])
  else none

def step (st : State) : Act → Option State
  | .complete t n =>
    if st.stackOf t = [] then some (st.setStack t [.setExecuted (.task n) none]) else none
  | .whenAll t fs => st.startCall t ⟨false, fs⟩
  | .whenAny t fs => st.startCall t ⟨true, fs⟩
  | .then t f =>
    if st.stackOf t = [] ∧ st.usable f then
      some ((st.addThen f).setStack t [.thenCheck st.thens.length f false])
    else none
  | .step t =>
    match st.stackOf t with
    | [] => none
    | fr :: k =>
      match fr.next st with
      | none => none
      | some (e, frs) => some ((st.apply t e).setStack t (frs ++ k))

end Primitives.Future
