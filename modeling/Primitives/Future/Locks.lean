import Primitives.Future.Machine
import Primitives.Lib.Run
import Primitives.Lib.LockOrder
import Mathlib.Data.List.Nodup
import Mathlib.Order.Nat

/-!
# Who holds which mutex

The frames of a thread say which futures' mutexes it holds (`heldBy`), and in every reachable
state that is what the owners say (`Own`). With the futures ranked so that every call lists its
futures in ascending order and returns a state that ranks above them (`RankedStep`), a thread
only ever waits for a mutex that ranks above those it holds, and no cycle of waiting threads can
form (`no_lock_cycle`).

Without such a ranking it can: two calls with their lists in opposite orders are enough.
-/

set_option autoImplicit false

namespace Primitives.Future

open Lib

/-! ## Steps -/

/-- A step is an operation started, or an access of the innermost frame of a thread. -/
theorem step_cases {st st' : State} {a : Act} (h : step st a = some st') :
    (∃ t n, a = .complete t n ∧ st.stackOf t = [] ∧
      st' = st.setStack t [.setExecuted (.task n) none]) ∨
    (∃ t call, (a = .whenAll t call.futures ∧ call.any = false ∨
        a = .whenAny t call.futures ∧ call.any = true) ∧ st.startCall t call = some st') ∨
    (∃ t f, a = .then t f ∧ st.stackOf t = [] ∧ st.usable f ∧
      st' = (st.addThen f).setStack t [.thenCheck st.thens.length f false]) ∨
    (∃ t fr k e frs, a = .step t ∧ st.stackOf t = fr :: k ∧ fr.next st = some (e, frs) ∧
      st' = (st.apply t e).setStack t (frs ++ k)) := by
  cases a with
  | complete t n =>
    rw [step] at h
    split at h <;> cases h
    exact .inl ⟨t, n, rfl, ‹_›, rfl⟩
  | whenAll t fs => exact .inr (.inl ⟨t, ⟨false, fs⟩, .inl ⟨rfl, rfl⟩, h⟩)
  | whenAny t fs => exact .inr (.inl ⟨t, ⟨true, fs⟩, .inr ⟨rfl, rfl⟩, h⟩)
  | «then» t f =>
    rw [step] at h
    split at h <;> cases h
    exact .inr (.inr (.inl ⟨t, f, rfl, ‹_ ∧ _›.1, ‹_ ∧ _›.2, rfl⟩))
  | step t =>
    rw [step] at h
    split at h
    · cases h
    · split at h <;> cases h
      exact .inr (.inr (.inr ⟨t, _, _, _, _, rfl, ‹_›, ‹_›, rfl⟩))

@[simp] theorem setStack_shared (st : State) (t : Thread) (frs : List Frame) :
    (st.setStack t frs).shared = st.shared := rfl

@[simp] theorem setStack_stackOf (st : State) (t : Thread) (frs : List Frame) :
    (st.setStack t frs).stackOf = Function.update st.stackOf t frs := rfl

@[simp] theorem apply_stackOf (st : State) (t : Thread) (e : Effect) :
    (st.apply t e).stackOf = st.stackOf := by cases e <;> rfl

/-- The mutex an access locks. -/
def Effect.locks : Effect → List FutureId
  | .lock f => [f]
  | _ => []

/-- The mutex an access unlocks. -/
def Effect.unlocks : Effect → List FutureId
  | .unlock f => [f]
  | _ => []

/-- The owner of a mutex after an access. -/
theorem apply_owner (st : State) (t : Thread) (e : Effect) (f : FutureId) :
    ((st.apply t e).shared f).owner =
      if f ∈ e.locks then some t else if f ∈ e.unlocks then none else (st.shared f).owner := by
  cases e with
  | lock g =>
    by_cases h : f = g <;> simp [State.apply, State.modify, Effect.locks, Effect.unlocks, h]
  | unlock g =>
    by_cases h : f = g <;> simp [State.apply, State.modify, Effect.locks, Effect.unlocks, h]
  | setFlag g | addCallback g | clear g | setData g =>
    by_cases h : f = g <;> simp [State.apply, State.modify, Effect.locks, Effect.unlocks, h]
  | silent | runCallback | push | ret => rfl

/-- The callbacks of a future after an access. -/
theorem mem_callbacks_apply {st : State} {t : Thread} {e : Effect} {f : FutureId} {cb : Callback}
    (h : cb ∈ ((st.apply t e).shared f).callbacks) :
    cb ∈ (st.shared f).callbacks ∨ e = .addCallback f cb := by
  cases e with
  | addCallback g cb' =>
    by_cases heq : f = g
    · subst heq
      simp only [State.apply, State.modify, Function.update_self, List.mem_append,
        List.mem_singleton] at h
      exact h.imp_right fun h => by rw [h]
    · simp only [State.apply, State.modify, Function.update_of_ne heq] at h
      exact .inl h
  | clear g =>
    by_cases heq : f = g
    · subst heq
      simp [State.apply, State.modify] at h
    · simp only [State.apply, State.modify, Function.update_of_ne heq] at h
      exact .inl h
  | setFlag g | lock g | unlock g | setData g =>
    left
    by_cases heq : f = g
    · subst heq
      simpa [State.apply, State.modify] using h
    · simpa [State.apply, State.modify, heq] using h
  | silent | runCallback | push | ret => exact .inl h

/-- The state after a call of `whenAll` or `whenAny`. -/
def State.called (st : State) (t : Thread) (call : Call) : State :=
  { st with
    shared := fun f => { st.shared f with
      set := (st.shared f).set || decide (call.futures = [] ∧ f = .combined st.calls.length) }
    calls := st.calls ++ [call]
    stackOf := Function.update st.stackOf t [.check st.calls.length call false 0] }

theorem startCall_cases {st st' : State} {t : Thread} {call : Call}
    (h : st.startCall t call = some st') :
    st.stackOf t = [] ∧ (∀ f ∈ call.futures, st.usable f = true) ∧ st' = st.called t call := by
  rw [State.startCall] at h
  split at h <;> cases h
  refine ⟨‹_ ∧ _›.1, ‹_ ∧ _›.2, ?_⟩
  by_cases hnil : call.futures = []
  · simp only [State.called, State.makeShared, State.addCall, State.setStack, if_pos hnil,
      State.apply, State.modify]
    congr 1
    funext f
    by_cases hf : f = .combined st.calls.length <;> simp [hf, hnil]
  · simp [State.called, State.makeShared, State.addCall, State.setStack, hnil]

/-! ## Owners -/

/-- The futures whose mutexes a thread holds at a frame. -/
def Frame.held : Frame → List FutureId
  | .noticeRun f _ _ => [f]
  | .check _ call locked _ => if locked then call.futures else []
  | .found _ call locked _ => if locked then call.futures else []
  | .setCombined _ call locked => if locked then call.futures else []
  | .lock _ call i => call.futures.take i
  | .register _ call _ => call.futures
  | .unlock _ call i => call.futures.drop i
  | .thenCheck _ f locked => if locked then [f] else []
  | .thenPush _ f locked => if locked then [f] else []
  | .thenRegister _ f => [f]
  | .thenUnlock _ f => [f]
  | _ => []

def heldBy (frames : List Frame) : List FutureId := frames.flatMap Frame.held

@[simp] theorem heldBy_nil : heldBy [] = [] := rfl

@[simp] theorem heldBy_cons (fr : Frame) (frs : List Frame) :
    heldBy (fr :: frs) = fr.held ++ heldBy frs := rfl

theorem heldBy_append (frs frs' : List Frame) :
    heldBy (frs ++ frs') = heldBy frs ++ heldBy frs' := List.flatMap_append

/-- A mutex is locked only while nobody owns it. -/
theorem owner_of_lock {st : State} {fr : Frame} {f : FutureId} {frs : List Frame}
    (h : fr.next st = some (.lock f, frs)) : (st.shared f).owner = none := by
  unfold Frame.next at h
  split at h <;> repeat' split at h
  all_goals first
    | (cases h; assumption)
    | cases h

/-- The mutexes a frame holds change by those its access locks and unlocks. -/
theorem held_next {st : State} {fr : Frame} {e : Effect} {frs : List Frame}
    (h : fr.next st = some (e, frs)) :
    (fr.held ++ e.locks).Perm (heldBy frs ++ e.unlocks) := by
  cases fr with
  | lock c call i =>
    rw [Frame.next] at h
    cases hi : call.futures[i]? with
    | none =>
      rw [hi] at h
      cases h
      have hlen := List.getElem?_eq_none_iff.mp hi
      simp [Frame.held, Effect.locks, Effect.unlocks, List.take_of_length_le hlen]
    | some f =>
      rw [hi] at h
      dsimp only at h
      split at h <;> cases h
      simp [Frame.held, Effect.locks, Effect.unlocks, List.take_add_one, hi]
  | unlock c call i =>
    rw [Frame.next] at h
    cases hi : call.futures[i]? with
    | none =>
      rw [hi] at h
      cases h
      have hlen := List.getElem?_eq_none_iff.mp hi
      simp [Frame.held, Effect.locks, Effect.unlocks, List.drop_eq_nil_of_le hlen]
    | some f =>
      rw [hi] at h
      cases h
      obtain ⟨hlt, hf⟩ := List.getElem?_eq_some_iff.mp hi
      simp only [Frame.held, Effect.locks, Effect.unlocks, List.drop_eq_getElem_cons hlt, hf,
        List.append_nil, heldBy_cons, heldBy_nil]
      exact (List.perm_append_singleton f _).symm
  | _ =>
    simp only [Frame.next] at h
    repeat' split at h
    all_goals cases h
    all_goals simp_all [Frame.held, Effect.locks, Effect.unlocks]

/-- The owners are the threads whose frames say so, and no thread holds a mutex twice. -/
structure Own (st : State) : Prop where
  owner : ∀ {t : Thread} {f : FutureId},
    (st.shared f).owner = some t ↔ f ∈ heldBy (st.stackOf t)
  nodup : ∀ t, (heldBy (st.stackOf t)).Nodup

theorem Own.init : Own State.init := ⟨by simp [State.init, heldBy], by simp [State.init, heldBy]⟩

/-- A thread that held nothing goes to frames that hold nothing. -/
theorem Own.start {st st' : State} (h : Own st) {t : Thread} {frs : List Frame}
    (ht : st.stackOf t = []) (hfrs : heldBy frs = [])
    (howner : ∀ f, (st'.shared f).owner = (st.shared f).owner)
    (hstacks : st'.stackOf = Function.update st.stackOf t frs) : Own st' := by
  have hheld : ∀ t', heldBy (st'.stackOf t') = heldBy (st.stackOf t') := by
    intro t'
    by_cases heq : t' = t
    · subst heq
      simp [hstacks, hfrs, ht]
    · simp [hstacks, heq]
  refine ⟨fun {t' f} => ?_, fun t' => ?_⟩
  · rw [howner, hheld, h.owner]
  · rw [hheld]
    exact h.nodup t'

/-- An access changes the owner of a mutex as it changes the frames. -/
theorem Own.access {st : State} (h : Own st) {t : Thread} {fr : Frame} {k : List Frame}
    (ht : st.stackOf t = fr :: k) {e : Effect} {frs : List Frame}
    (hn : fr.next st = some (e, frs)) : Own ((st.apply t e).setStack t (frs ++ k)) := by
  have hperm : (heldBy (st.stackOf t) ++ e.locks).Perm (heldBy (frs ++ k) ++ e.unlocks) := by
    have hfr := (held_next hn).append_right (heldBy k)
    rw [ht, heldBy_cons, heldBy_append]
    calc (fr.held ++ heldBy k ++ e.locks).Perm (fr.held ++ e.locks ++ heldBy k) := by
          simpa using List.perm_append_comm.append_left fr.held
      _ |>.Perm (heldBy frs ++ e.unlocks ++ heldBy k) := hfr
      _ |>.Perm (heldBy frs ++ heldBy k ++ e.unlocks) := by
          simpa using List.perm_append_comm.append_left (heldBy frs)
  have hfree : ∀ f ∈ e.locks, (st.shared f).owner = none := by
    intro f hf
    cases e with
    | lock g =>
      rw [List.mem_singleton.mp hf]
      exact owner_of_lock hn
    | _ => cases hf
  have hbefore : (heldBy (st.stackOf t) ++ e.locks).Nodup := by
    refine List.nodup_append'.mpr ⟨h.nodup t, by cases e <;> simp [Effect.locks], ?_⟩
    intro f hf hl
    rw [← h.owner, hfree f hl] at hf
    cases hf
  have hafter := hperm.nodup_iff.mp hbefore
  have hmem : ∀ f, f ∈ heldBy (frs ++ k) ↔
      (f ∈ heldBy (st.stackOf t) ∨ f ∈ e.locks) ∧ f ∉ e.unlocks := by
    intro f
    have hiff := hperm.mem_iff (a := f)
    have hdisj : f ∈ heldBy (frs ++ k) → f ∉ e.unlocks :=
      fun h₁ h₂ => (List.nodup_append'.mp hafter).2.2 h₁ h₂
    rw [List.mem_append, List.mem_append] at hiff
    tauto
  refine ⟨fun {t' f} => ?_, fun t' => ?_⟩
  · have hown : ∀ {t'}, (st.shared f).owner = some t' ↔ f ∈ heldBy (st.stackOf t') := h.owner
    have hboth : f ∈ e.locks → f ∉ e.unlocks := by
      cases e <;> simp [Effect.locks, Effect.unlocks]
    have hheld : f ∈ e.unlocks → f ∈ heldBy (st.stackOf t) := by
      intro hu
      have hl : f ∉ e.locks := fun hl => hboth hl hu
      have hiff := hperm.mem_iff (a := f)
      rw [List.mem_append, List.mem_append] at hiff
      tauto
    rw [setStack_shared, apply_owner, setStack_stackOf, apply_stackOf]
    by_cases heq : t' = t
    · subst heq
      rw [Function.update_self, hmem]
      split_ifs with hl hu <;> simp_all
    · rw [Function.update_of_ne heq, ← hown]
      split_ifs with hl hu
      · simp [hfree f hl, Ne.symm heq]
      · simp [hown.mpr (hheld hu), Ne.symm heq]
      · rfl
  · rw [setStack_stackOf, apply_stackOf]
    by_cases heq : t' = t
    · subst heq
      rw [Function.update_self]
      exact (List.nodup_append'.mp hafter).1
    · rw [Function.update_of_ne heq]
      exact h.nodup t'

/-- **In every reachable state the frames say who owns which mutex.** -/
theorem Own.step {st st' : State} {a : Act} (h : Own st) (hs : step st a = some st') : Own st' := by
  obtain ⟨t, n, rfl, ht, rfl⟩ | ⟨t, call, -, hc⟩ | ⟨t, f, rfl, ht, -, rfl⟩ |
    ⟨t, fr, k, e, frs, rfl, ht, hn, rfl⟩ := step_cases hs
  · exact h.start ht (by rfl) (fun _ => rfl) rfl
  · obtain ⟨ht, -, rfl⟩ := startCall_cases hc
    have hheld : heldBy [.check st.calls.length call false 0] = [] := rfl
    exact h.start ht hheld (fun _ => rfl) rfl
  · exact h.start ht (by rfl) (fun _ => rfl) rfl
  · exact h.access ht hn

theorem own {ok : State → Act → Prop} {st : State} (h : Run step ok State.init st) : Own st :=
  h.invariant Own.init fun hi _ hs => hi.step hs

/-! ## The order of the futures -/

/-- The future whose mutex a frame is about to lock. -/
def Frame.awaits : Frame → Option FutureId
  | .noticeLock f _ => some f
  | .lock _ call i => call.futures[i]?
  | .thenLock _ f => some f
  | _ => none

/-- Thread `t` is about to lock the mutex of `f`, or is blocked there. -/
def Waits (st : State) (t : Thread) (f : FutureId) : Prop :=
  ∃ fr k, st.stackOf t = fr :: k ∧ fr.awaits = some f

/-- The futures whose mutexes a frame, and those that take its place, may come to lock. -/
def Frame.wants : Frame → List FutureId
  | .setExecuted f _ | .noticeLock f _ | .noticeRun f _ _ | .noticeClear f _ => [f]
  | .assign _ _ | .ret _ => []
  | .check _ call _ _ | .found _ call _ _ | .setCombined _ call _ => call.futures
  | .lock _ call _ | .register _ call _ | .unlock _ call _ => call.futures
  | .thenCheck _ f _ | .thenPush _ f _ | .thenLock _ f | .thenRegister _ f | .thenUnlock _ f => [f]

theorem wants_of_awaits {fr : Frame} {f : FutureId} (h : fr.awaits = some f) : f ∈ fr.wants := by
  cases fr with
  | lock c call i => exact List.mem_of_getElem? h
  | noticeLock | thenLock => simpa [Frame.awaits, Frame.wants, eq_comm] using h
  | _ => cases h

section Rank

variable {β : Type} [Preorder β] (rank : FutureId → β)

/-- The futures of the list are in ascending order, and the state that the call returns comes
after them. -/
def Ascending (c : Nat) (fs : List FutureId) : Prop :=
  fs.Pairwise (fun f g => rank f < rank g) ∧ ∀ f ∈ fs, rank f < rank (.combined c)

/-- A call of `whenAll` or `whenAny` lists its futures in the order. -/
def RankedStep (st : State) : Act → Prop
  | .whenAll _ fs | .whenAny _ fs => Ascending rank st.calls.length fs
  | _ => True

instance [DecidableRel fun x y : β => x < y] (st : State) (a : Act) :
    Decidable (RankedStep rank st a) := by
  cases a <;> unfold RankedStep <;> try unfold Ascending
  all_goals infer_instance

/-- The state that a callback completes comes after the future it is pushed to. -/
def Callback.Above (f : FutureId) : Callback → Prop
  | .all c _ | .any c _ => rank f < rank (.combined c)
  | .push _ => True

/-- What a frame's data owe to the order. -/
def Frame.Ok : Frame → Prop
  | .noticeRun f _ cbs => ∀ cb ∈ cbs, cb.Above rank f
  | .check c call _ _ | .found c call _ _ | .setCombined c call _ => Ascending rank c call.futures
  | .lock c call _ | .register c call _ | .unlock c call _ => Ascending rank c call.futures
  | _ => True

/-- Up the stack, the futures a frame may come to lock come after those held below it. -/
def Climbs : List Frame → Prop
  | [] => True
  | fr :: k => (∀ f ∈ fr.wants, ∀ g ∈ heldBy k, rank g < rank f) ∧ Climbs k

structure Ranked (st : State) : Prop where
  frames : ∀ t, ∀ fr ∈ st.stackOf t, fr.Ok rank
  callbacks : ∀ f, ∀ cb ∈ (st.shared f).callbacks, cb.Above rank f
  climbs : ∀ t, Climbs rank (st.stackOf t)

variable {rank}

variable (rank) in
/-- A frame is replaced by one that wants no more, or a callback is called on top of it. -/
theorem wants_next {st : State} {fr : Frame} {e : Effect} {frs : List Frame}
    (h : fr.next st = some (e, frs)) :
    (∀ fr' ∈ frs, frs = [fr'] ∧ ∀ f ∈ fr'.wants, f ∈ fr.wants) ∨
    (∃ f ix cb cbs c ix', fr = .noticeRun f ix (cb :: cbs) ∧
      frs = [.setExecuted (.combined c) ix', .noticeRun f ix cbs] ∧
      (cb.Above rank f → rank f < rank (.combined c))) := by
  cases fr with
  | noticeRun f ix cbs =>
    cases cbs with
    | nil => cases h; exact .inl (by simp [Frame.wants])
    | cons cb cbs =>
      cases cb with
      | all c max =>
        simp only [Frame.next, Option.some.injEq, Prod.mk.injEq] at h
        obtain ⟨rfl, rfl⟩ := h
        split
        · exact .inr ⟨f, ix, _, cbs, c, none, rfl, rfl, id⟩
        · exact .inl (by simp [Frame.wants])
      | any c i => cases h; exact .inr ⟨f, ix, _, cbs, c, some i, rfl, rfl, id⟩
      | push k => cases h; exact .inl (by simp [Frame.wants])
  | _ =>
    left
    simp only [Frame.next] at h
    repeat' split at h
    all_goals cases h
    all_goals simp_all [Frame.wants]

/-- The frames that take a frame's place owe the order nothing new. -/
theorem ok_next {st : State} {fr : Frame} {e : Effect} {frs : List Frame}
    (h : fr.next st = some (e, frs)) (hok : fr.Ok rank)
    (hcb : ∀ f, ∀ cb ∈ (st.shared f).callbacks, cb.Above rank f) : ∀ fr' ∈ frs, fr'.Ok rank := by
  cases fr with
  | noticeRun f ix cbs =>
    cases cbs with
    | nil => cases h; simp [Frame.Ok]
    | cons cb cbs =>
      have htail : (Frame.noticeRun f ix cbs).Ok rank := (List.forall_mem_cons.mp hok).2
      cases cb with
      | all c max =>
        simp only [Frame.next, Option.some.injEq, Prod.mk.injEq] at h
        obtain ⟨rfl, rfl⟩ := h
        split <;> simpa [Frame.Ok] using htail
      | any c i => cases h; simpa [Frame.Ok] using htail
      | push k => cases h; simpa [Frame.Ok] using htail
  | _ =>
    simp only [Frame.next] at h
    repeat' split at h
    all_goals cases h
    all_goals simp_all [Frame.Ok]

/-- A callback is pushed to a future that comes before the state it completes. -/
theorem above_of_addCallback {st : State} {fr : Frame} {f : FutureId} {cb : Callback}
    {frs : List Frame} (h : fr.next st = some (.addCallback f cb, frs)) (hok : fr.Ok rank) :
    cb.Above rank f := by
  cases fr with
  | register c call i =>
    rw [Frame.next] at h
    cases hi : call.futures[i]? with
    | none => rw [hi] at h; cases h
    | some g =>
      rw [hi] at h
      cases h
      have hlt := hok.2 f (List.mem_of_getElem? hi)
      unfold Call.callback
      split <;> exact hlt
  | thenRegister k g => cases h; trivial
  | noticeRun g ix cbs => rcases cbs with _ | ⟨_ | _ | _, _⟩ <;> cases h
  | _ =>
    simp only [Frame.next] at h
    repeat' split at h
    all_goals cases h

theorem climbs_append {frs k : List Frame} {fr : Frame}
    (hfr : ∀ f ∈ fr.wants, ∀ g ∈ heldBy k, rank g < rank f) (hk : Climbs rank k)
    (h : ∀ fr' ∈ frs, frs = [fr'] ∧ ∀ f ∈ fr'.wants, f ∈ fr.wants) : Climbs rank (frs ++ k) := by
  cases frs with
  | nil => exact hk
  | cons fr' frs =>
    obtain ⟨heq, hw⟩ := h fr' (by simp)
    rw [heq]
    exact ⟨fun f hf => hfr f (hw f hf), hk⟩

/-- A thread that starts an operation, with nothing below it. -/
theorem Ranked.start {st st' : State} (h : Ranked rank st) {t : Thread} {fr : Frame}
    (hok : fr.Ok rank)
    (hcb : ∀ f, ∀ cb ∈ (st'.shared f).callbacks, cb ∈ (st.shared f).callbacks)
    (hstacks : st'.stackOf = Function.update st.stackOf t [fr]) : Ranked rank st' := by
  refine ⟨fun t' => ?_, fun f cb hm => h.callbacks f cb (hcb f cb hm), fun t' => ?_⟩
  all_goals
    rw [hstacks]
    by_cases heq : t' = t
  · subst heq
    simpa using hok
  · rw [Function.update_of_ne heq]
    exact h.frames t'
  · subst heq
    simp [Climbs]
  · rw [Function.update_of_ne heq]
    exact h.climbs t'

theorem Ranked.access {st : State} (h : Ranked rank st) {t : Thread} {fr : Frame} {k : List Frame}
    (ht : st.stackOf t = fr :: k) {e : Effect} {frs : List Frame}
    (hn : fr.next st = some (e, frs)) : Ranked rank ((st.apply t e).setStack t (frs ++ k)) := by
  have hframes := h.frames t
  have hclimbs := h.climbs t
  rw [ht] at hframes hclimbs
  obtain ⟨hok, hk⟩ := List.forall_mem_cons.mp hframes
  obtain ⟨hfr, hck⟩ := hclimbs
  refine ⟨fun t' => ?_, fun f cb hm => ?_, fun t' => ?_⟩
  · rw [setStack_stackOf, apply_stackOf]
    by_cases heq : t' = t
    · subst heq
      rw [Function.update_self]
      exact List.forall_mem_append.mpr ⟨ok_next hn hok h.callbacks, hk⟩
    · rw [Function.update_of_ne heq]
      exact h.frames t'
  · rw [setStack_shared] at hm
    obtain hm | rfl := mem_callbacks_apply hm
    · exact h.callbacks f cb hm
    · exact above_of_addCallback hn hok
  · rw [setStack_stackOf, apply_stackOf]
    by_cases heq : t' = t
    swap
    · rw [Function.update_of_ne heq]
      exact h.climbs t'
    subst heq
    rw [Function.update_self]
    obtain hw | ⟨f, ix, cb, cbs, c, ix', rfl, rfl, habove⟩ := wants_next rank hn
    · exact climbs_append hfr hck hw
    · -- the callback's state comes after `f`, and `f` after what is held below
      have hlt := habove (hok cb (by simp))
      refine ⟨fun g hg x hx => ?_, hfr, hck⟩
      rw [List.mem_singleton.mp hg]
      rcases List.mem_cons.mp hx with rfl | hx
      · exact hlt
      · exact (hfr f (by simp [Frame.wants]) x hx).trans hlt

theorem Ranked.step {st st' : State} {a : Act} (h : Ranked rank st) (hr : RankedStep rank st a)
    (hs : step st a = some st') : Ranked rank st' := by
  obtain ⟨t, n, rfl, ht, rfl⟩ | ⟨t, call, ha, hc⟩ | ⟨t, f, rfl, ht, -, rfl⟩ |
    ⟨t, fr, k, e, frs, rfl, ht, hn, rfl⟩ := step_cases hs
  · have hok : (Frame.setExecuted (.task n) none).Ok rank := trivial
    exact h.start hok (fun _ _ => id) rfl
  · obtain ⟨ht, -, rfl⟩ := startCall_cases hc
    have hok : (Frame.check st.calls.length call false 0).Ok rank := by
      obtain ⟨rfl, -⟩ | ⟨rfl, -⟩ := ha <;> exact hr
    exact h.start hok (fun _ _ => id) rfl
  · have hok : (Frame.thenCheck st.thens.length f false).Ok rank := trivial
    exact h.start hok (fun _ _ => id) rfl
  · exact h.access ht hn

theorem ranked {st : State} (h : Run step (RankedStep rank) State.init st) : Ranked rank st :=
  h.invariant ⟨by simp [State.init], by simp [State.init], fun _ => trivial⟩
    fun hi hr hs => hi.step hr hs

/-- A thread waits above what it holds. -/
theorem Ranked.ordered {st : State} (h : Ranked rank st) (ho : Own st) :
    Ordered rank (fun f => (st.shared f).owner) (Waits st) := by
  rintro t f g ⟨fr, k, ht, hf⟩ hg
  have hclimbs := h.climbs t
  have hok := h.frames t fr (by simp [ht])
  rw [ho.owner, ht, heldBy_cons, List.mem_append] at hg
  rw [ht] at hclimbs
  rcases hg with hg | hg
  · -- only the loop that locks holds mutexes of its own
    cases fr with
    | lock c call i =>
      obtain ⟨hlt, rfl⟩ := List.getElem?_eq_some_iff.mp hf
      obtain ⟨j, hj, rfl⟩ := List.mem_take_iff_getElem.mp hg
      exact List.pairwise_iff_getElem.mp hok.1 j i _ hlt (by omega)
    | noticeLock | thenLock => cases hg
    | _ => cases hf
  · exact hclimbs.1 f (wants_of_awaits hf) g hg

/-- **No lock cycle.** In a run whose calls all list their futures in one order, with the states
they return after them, no thread waits, through others that wait, for itself. -/
theorem no_lock_cycle {st : State} (h : Run step (RankedStep rank) State.init st) (t : Thread) :
    ¬ Relation.TransGen (WaitsFor (fun f => (st.shared f).owner) (Waits st)) t t :=
  ((ranked h).ordered (own h)).no_cycle t

end Rank

theorem waits_of_head {st : State} {t : Thread} {f : FutureId}
    (h : (st.stackOf t).head?.bind Frame.awaits = some f) : Waits st t f := by
  obtain ⟨fr, hfr, hf⟩ := Option.bind_eq_some_iff.mp h
  obtain ⟨k, hk⟩ := List.head?_eq_some_iff.mp hfr
  exact ⟨fr, k, hk, hf⟩

/-- Tasks in the order of their numbers, then the calls. -/
def taskFirst : FutureId → Nat
  | .task n => n
  | .combined c => c + 2

/-- Two calls on the same two futures in the same order: one waits for the other. -/
theorem no_lock_cycle_two_calls :
    ∃ st, Run step (RankedStep taskFirst) State.init st ∧
      WaitsFor (fun f => (st.shared f).owner) (Waits st) 2 1 ∧
      ¬ Relation.TransGen (WaitsFor (fun f => (st.shared f).owner) (Waits st)) 2 2 := by
  obtain ⟨st, hrun, hp⟩ := exists_run_of_exec step
    (fun st a => decide (RankedStep taskFirst st a)) State.init
    [.whenAll 1 [.task 0, .task 1], .whenAll 2 [.task 0, .task 1], .step 1, .step 1, .step 2]
    (fun st => decide ((st.stackOf 2).head?.bind Frame.awaits = some (.task 0) ∧
      (st.shared (.task 0)).owner = some 1)) (by decide)
  obtain ⟨hwait, hown⟩ := of_decide_eq_true hp
  have hrun' := hrun.mono fun h => of_decide_eq_true h
  exact ⟨st, hrun', ⟨.task 0, waits_of_head hwait, hown⟩, no_lock_cycle hrun' 2⟩

/-- Two calls on the same two futures in opposite orders: each waits for the other. -/
theorem lock_cycle_two_calls :
    ∃ st, Reachable step State.init st ∧
      (st.shared (.task 0)).owner = some 1 ∧ Waits st 1 (.task 1) ∧
      (st.shared (.task 1)).owner = some 2 ∧ Waits st 2 (.task 0) ∧
      Relation.TransGen (WaitsFor (fun f => (st.shared f).owner) (Waits st)) 1 1 := by
  obtain ⟨st, hrun, hp⟩ := exists_run_of_exec step (fun _ _ => true) State.init
    [.whenAll 1 [.task 0, .task 1], .whenAll 2 [.task 1, .task 0], .step 1, .step 1, .step 2,
      .step 2]
    (fun st => decide ((st.shared (.task 0)).owner = some 1 ∧
      (st.stackOf 1).head?.bind Frame.awaits = some (.task 1) ∧
      (st.shared (.task 1)).owner = some 2 ∧
      (st.stackOf 2).head?.bind Frame.awaits = some (.task 0))) (by decide)
  obtain ⟨h₁, hw₁, h₂, hw₂⟩ := of_decide_eq_true hp
  refine ⟨st, hrun.reachable, h₁, waits_of_head hw₁, h₂, waits_of_head hw₂, ?_⟩
  exact .tail (.single ⟨.task 1, waits_of_head hw₁, h₂⟩) ⟨.task 0, waits_of_head hw₂, h₁⟩

end Primitives.Future
