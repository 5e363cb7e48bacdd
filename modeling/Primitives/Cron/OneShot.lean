import Primitives.Cron.Model
import Primitives.Lib.Run

/-!
# Tasks that are to run once

`push(p, t)` passes no `skip` on, so the task is queued with `skip = 1`: the first time it comes up
it is skipped. A task that repeats comes up again. A task that does not is over with that, and the
executor never sees it (`oneShot_never_handed`).
-/

set_option autoImplicit false

namespace Primitives.Cron

open Lib

variable {τ : Type}

/-- `t` is pushed by `push(p, t)` only, without a repeat and without a `skip`. -/
def OneShot (t : τ) (_ : State τ) : Event τ → Prop
  | .push _ t' r skip => t' = t → r = {} ∧ skip = 1
  | .stop => True
  | .run _ _ _ => True

instance [DecidableEq τ] (t : τ) (st : State τ) : (a : Event τ) → Decidable (OneShot t st a)
  | .push _ t' r skip => inferInstanceAs (Decidable (t' = t → r = {} ∧ skip = 1))
  | .stop => .isTrue trivial
  | .run _ _ _ => .isTrue trivial

/-- The task, if it is `t`, is over the first time that it comes up, and skipped then. -/
def SkippedOnce (t : τ) (x : CronTask τ) : Prop :=
  x.task = t → x.rep.needRepeat = false ∧ 0 < x.skip

/-- Nothing in the queue hands `t` over, and nothing has. -/
structure NeverHanded (t : τ) (st : State τ) : Prop where
  queued : ∀ x ∈ st.tasks.entries, SkippedOnce t x.2
  executor : t ∉ st.executor

theorem NeverHanded.push {t : τ} {st : State τ} (h : NeverHanded t st) {p : TimePoint} {t' : τ}
    {r : Repeat} {skip : Int} (hone : t' = t → r = {} ∧ skip = 1) :
    NeverHanded t (st.push p t' r skip) where
  queued := by
    intro x hx
    obtain rfl | hx := SortedMap.mem_emplaceEntry hx
    · intro ht
      obtain ⟨rfl, rfl⟩ := hone ht
      exact ⟨rfl, Int.one_pos⟩
    · exact h.queued x hx
  executor := h.executor

/-- The first task is taken: if it is `t`, it is skipped, and not put back. -/
theorem NeverHanded.take {t : τ} {st : State τ} (h : NeverHanded t st) {p : TimePoint}
    {x : CronTask τ} {rest : List (TimePoint × CronTask τ)}
    (hentries : st.tasks.entries = (p, x) :: rest) (again : TimePoint) :
    NeverHanded t (st.take x again) where
  queued := by
    have hx : SkippedOnce t x := h.queued (p, x) (by rw [hentries]; exact List.mem_cons_self)
    have hrest : ∀ y ∈ st.tasks.eraseBegin.entries, SkippedOnce t y.2 := by
      intro y hy
      exact h.queued y (List.mem_of_mem_tail hy)
    intro y hy
    cases hrep : x.rep.needRepeat with
    | false =>
      simp only [State.take, hrep, Bool.false_eq_true, ↓reduceIte] at hy
      exact hrest y hy
    | true =>
      simp only [State.take, hrep, ↓reduceIte] at hy
      obtain rfl | hy := SortedMap.mem_emplaceEntry hy
      · -- what is put back repeats, so it is another task
        intro ht
        have hxt : x.task = t := by
          rw [← ht]
          dsimp only
          split <;> rfl
        have hfalse := (hx hxt).1
        rw [hrep] at hfalse
        cases hfalse
      · exact hrest y hy
  executor := by
    have hx : SkippedOnce t x := h.queued (p, x) (by rw [hentries]; exact List.mem_cons_self)
    intro hmem
    simp only [State.take] at hmem
    split at hmem
    · rename_i hfire
      rcases List.mem_append.mp hmem with hmem | hmem
      · exact h.executor hmem
      · have hskip := (hx (List.mem_singleton.mp hmem).symm).2
        omega
    · exact h.executor hmem

/-- Waiting changes neither the queue nor what was handed over. -/
theorem NeverHanded.congr {t : τ} {st st' : State τ} (h : NeverHanded t st)
    (htasks : st'.tasks = st.tasks) (hexec : st'.executor = st.executor) : NeverHanded t st' :=
  ⟨htasks ▸ h.queued, hexec ▸ h.executor⟩

theorem NeverHanded.waitUntil {t : τ} {st : State τ} (h : NeverHanded t st) (now : TimePoint) :
    NeverHanded t (st.waitUntil now) := by
  unfold State.waitUntil
  split <;> exact h.congr rfl rfl

theorem NeverHanded.turn {t : τ} {st : State τ} (h : NeverHanded t st)
    (now again last : TimePoint) : NeverHanded t (st.turn now again last) := by
  unfold State.turn
  split
  · exact h.congr rfl rfl
  · cases hentries : st.tasks.entries with
    | nil => exact h.congr rfl rfl
    | cons x rest =>
      obtain ⟨p, x⟩ := x
      dsimp only
      split
      · exact (h.take hentries again).waitUntil last
      · exact h.waitUntil last

theorem NeverHanded.wake {t : τ} {st : State τ} (h : NeverHanded t st)
    (deadline now : TimePoint) : NeverHanded t (st.wake deadline now) := by
  unfold State.wake
  repeat' split
  all_goals exact h.congr rfl rfl

theorem NeverHanded.step {t : τ} {st st' : State τ} {a : Event τ} (h : NeverHanded t st)
    (hone : OneShot t st a) (hs : step st a = some st') : NeverHanded t st' := by
  cases a with
  | push p t' r skip =>
    rw [Cron.step] at hs
    split at hs <;> cases hs
    exact h.push hone
  | stop =>
    rw [Cron.step] at hs
    split at hs <;> cases hs
    exact h.congr rfl rfl
  | run now again last =>
    simp only [Cron.step] at hs
    split at hs <;> cases hs
    · exact h.turn now again last
    · exact h.turn now again last
    · exact h.wake _ now

/-- **A task pushed to run once never runs.** In every run in which `t` is pushed by `push(p, t)`
only, at whatever time points, `t` is never handed to the executor. -/
theorem oneShot_never_handed {t : τ} {st : State τ} (h : Run step (OneShot t) State.init st) :
    t ∉ st.executor := by
  have hinit : NeverHanded t State.init := by
    refine ⟨?_, List.not_mem_nil⟩
    intro x hx
    cases hx
  have hinv : NeverHanded t st := h.invariant hinit fun h hone hs => h.step hone hs
  exact hinv.executor

/-- Beside a task that repeats and is handed over. -/
theorem oneShot_never_handed_beside_repeat :
    ∃ st : State String, Run step (OneShot "once") State.init st ∧ st.executor = ["tick"] ∧
      "once" ∉ st.executor := by
  obtain ⟨st, hrun, hp⟩ := exists_run_of_exec step
    (fun (st : State String) a => decide (OneShot "once" st a)) State.init
    [.push 5 "once", .push 7 "tick" ⟨0, 0, 0, 1⟩ 0, .run 10 10 10, .run 10 10 10]
    (fun st => decide (st.executor = ["tick"])) (by decide)
  have hrun' : Run step (OneShot "once") State.init st := hrun.mono fun h => of_decide_eq_true h
  exact ⟨st, hrun', of_decide_eq_true hp, oneShot_never_handed hrun'⟩

/-- `"once"` is pushed for a time point of its own. The loop sleeps until then, takes it when its
time has come, and goes on to sleep until the next time point. -/
theorem oneShot_skipped :
    ∃ st : State String, Run step (OneShot "once") State.init st ∧ st.done = false ∧
      st.accepted = ["once", "later"] ∧ st.tasks.keys = [100] ∧ st.phase = .sleeping 100 ∧
      st.skipped = ["once"] ∧ st.executor = [] := by
  obtain ⟨st, hrun, hp⟩ := exists_run_of_exec step
    (fun (st : State String) a => decide (OneShot "once" st a)) State.init
    [.push 5 "once", .push 100 "later", .run 3 3 3, .run 10 10 10, .run 10 10 10]
    (fun st => decide (st.done = false ∧ st.accepted = ["once", "later"] ∧
      st.tasks.keys = [100] ∧ st.phase = .sleeping 100 ∧ st.skipped = ["once"] ∧
      st.executor = []))
    (by decide)
  have hrun' : Run step (OneShot "once") State.init st := hrun.mono fun h => of_decide_eq_true h
  exact ⟨st, hrun', of_decide_eq_true hp⟩

end Primitives.Cron
