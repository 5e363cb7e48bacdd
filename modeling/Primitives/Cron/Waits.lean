import Primitives.Cron.Model
import Primitives.Lib.Run

/-!
# What the loop waits for

The loop waits in two places: without a deadline while there are no tasks, and with the time of
the first task otherwise. Both have a flaw.

* The second wait is entered with `if (!tasks.empty() || !done)`. The turn may just have taken the
  only task, and then `begin()` is dereferenced although there is none. `begin()` is sound exactly in
  the runs where a task that is taken and was the only one repeats (`defined_iff`).
* `push` notifies the loop, and the loop looks at the tasks again, but goes back to the wait with
  the deadline that it had. A task that comes before it is late unless its time has come when the
  loop looks (`punctual_iff`).
-/

set_option autoImplicit false

namespace Primitives.Cron

open Lib

variable {τ : Type}

/-! ## `begin()` of a map that has one -/

/-- The task that is there, if it is the only one. -/
def State.only (st : State τ) : Option (TimePoint × CronTask τ) :=
  match st.tasks.entries with
  | [x] => some x
  | _ => none

/-- A turn of the loop that takes the only task puts it back. -/
def KeepsTask (st : State τ) : Event τ → Prop
  | .push _ _ _ _ => True
  | .stop => True
  | .run now _ _ => (st.phase = .top ∨ st.phase = .waiting) → st.done = false →
    ∀ x ∈ st.only, x.1 ≤ now → x.2.rep.needRepeat = true

instance (st : State τ) (a : Event τ) : Decidable (KeepsTask st a) :=
  match a with
  | .push _ _ _ _ => inferInstanceAs (Decidable True)
  | .stop => inferInstanceAs (Decidable True)
  | .run now _ _ => inferInstanceAs (Decidable ((st.phase = .top ∨ st.phase = .waiting) →
    st.done = false → ∀ x ∈ st.only, x.1 ≤ now → x.2.rep.needRepeat = true))

/-- The loop sleeps until the time of a task, so there is one. -/
def SleepsOnTask (st : State τ) : Prop := ∀ d, st.phase = .sleeping d → st.tasks.entries ≠ []

/-- The wait is undefined where the map is empty and `done` is not set. -/
theorem waitUntil_phase_ne_undefined {st : State τ} {now : TimePoint} (hdone : st.done = false) :
    (st.waitUntil now).phase ≠ .undefined ↔ st.tasks.entries ≠ [] := by
  rw [State.waitUntil]
  cases hentries : st.tasks.entries with
  | nil => simp [hdone]
  | cons x rest =>
    obtain ⟨p, t⟩ := x
    simp only [ne_eq, reduceCtorEq, not_false_eq_true, iff_true]
    split <;> simp

theorem waitUntil_sleepsOnTask (st : State τ) (now : TimePoint) :
    SleepsOnTask (st.waitUntil now) := by
  intro d hd
  rw [State.waitUntil] at hd ⊢
  cases hentries : st.tasks.entries with
  | nil =>
    rw [hentries] at hd
    by_cases hdone : st.done = true
    · simp [hdone] at hd
    · simp [hdone] at hd
  | cons x rest => simp [hentries]

theorem take_entries_ne_nil {st : State τ} {x : TimePoint × CronTask τ}
    {rest : List (TimePoint × CronTask τ)} (hentries : st.tasks.entries = x :: rest)
    (again : TimePoint) :
    (st.take x.2 again).tasks.entries ≠ [] ↔ (rest = [] → x.2.rep.needRepeat = true) := by
  by_cases hrep : x.2.rep.needRepeat = true
  · have hne := SortedMap.emplace_entries_ne_nil st.tasks.eraseBegin (x.2.rep.nextRepeat again)
      (if x.2.skip ≤ 0 then x.2 else { x.2 with skip := x.2.skip - 1 })
    simpa [State.take, hrep] using hne
  · have htail : (st.take x.2 again).tasks.entries = rest := by
      simp [State.take, hrep, SortedMap.eraseBegin, hentries]
    rw [htail]
    simp [hrep]

/-- **A turn** stays defined exactly where it does not take the last task for good. -/
theorem turn_phase_ne_undefined {st : State τ} {now again last : TimePoint} :
    (st.turn now again last).phase ≠ .undefined ↔
      (st.done = false → ∀ x ∈ st.only, x.1 ≤ now → x.2.rep.needRepeat = true) := by
  rw [State.turn]
  by_cases hdone : st.done = true
  · simp [hdone]
  · have hdone : st.done = false := by simpa using hdone
    simp only [hdone, Bool.false_eq_true, if_false, forall_const]
    cases hentries : st.tasks.entries with
    | nil => simp [State.only, hentries]
    | cons x rest =>
      by_cases hdue : x.1 ≤ now
      · have htake : (st.take x.2 again).done = false := hdone
        simp only [hdue, if_true]
        rw [waitUntil_phase_ne_undefined htake, take_entries_ne_nil hentries]
        cases rest with
        | nil => simp [State.only, hentries, hdue]
        | cons y rest => simp [State.only, hentries]
      · simp only [hdue, if_false]
        rw [waitUntil_phase_ne_undefined hdone]
        cases rest with
        | nil => simp [State.only, hentries, hdue]
        | cons y rest => simp [State.only, hentries]

theorem turn_sleepsOnTask (st : State τ) (now again last : TimePoint) :
    SleepsOnTask (st.turn now again last) := by
  rw [State.turn]
  split
  · intro d hd
    cases hd
  · split
    · intro d hd
      cases hd
    · exact waitUntil_sleepsOnTask _ last

theorem SleepsOnTask.step {st st' : State τ} {a : Event τ} (h : SleepsOnTask st)
    (hs : step st a = some st') : SleepsOnTask st' := by
  cases a with
  | push p t r skip =>
    rw [Cron.step] at hs
    split at hs <;> cases hs
    intro d _
    exact SortedMap.emplace_entries_ne_nil st.tasks p ⟨t, r, skip⟩
  | stop =>
    rw [Cron.step] at hs
    split at hs <;> cases hs
    exact h
  | run now again last =>
    simp only [Cron.step] at hs
    split at hs <;> cases hs
    · exact turn_sleepsOnTask st now again last
    · exact turn_sleepsOnTask st now again last
    · rw [State.wake]
      split
      · intro d hd
        cases hd
      · split
        · intro d hd
          cases hd
        · exact h

/-- The thread goes on only from states that are defined. -/
theorem phase_ne_undefined_of_step {st st' : State τ} {a : Event τ} (hs : step st a = some st') :
    st.phase ≠ .undefined := by
  intro hphase
  cases a <;> simp [step, hphase] at hs

/-- A step from a state that is defined leads to one exactly where `KeepsTask` holds. -/
theorem step_phase_ne_undefined {st st' : State τ} {a : Event τ} (h : SleepsOnTask st)
    (hs : step st a = some st') : st'.phase ≠ .undefined ↔ KeepsTask st a := by
  have hphase := phase_ne_undefined_of_step hs
  cases a with
  | push p t r skip =>
    rw [step, if_neg hphase] at hs
    cases hs
    exact iff_of_true hphase trivial
  | stop =>
    rw [step, if_neg hphase] at hs
    cases hs
    exact iff_of_true hphase trivial
  | run now again last =>
    simp only [step] at hs
    split at hs <;> cases hs
    · rename_i htop
      rw [turn_phase_ne_undefined]
      simp [KeepsTask, htop]
    · rename_i hwaiting
      rw [turn_phase_ne_undefined]
      simp [KeepsTask, hwaiting]
    · rename_i d hsleeping
      refine iff_of_true ?_ (by simp [KeepsTask, hsleeping])
      rw [State.wake]
      cases hentries : st.tasks.entries with
      | nil => exact absurd hentries (h d hsleeping)
      | cons x rest =>
        obtain ⟨p, t⟩ := x
        simp only
        split
        · simp
        · exact hphase

theorem sleepsOnTask {st : State τ} (h : Reachable step State.init st) : SleepsOnTask st := by
  have hinit : SleepsOnTask (State.init : State τ) := fun d hd => by cases hd
  exact h.invariant hinit fun h _ hs => h.step hs

/-- The deadline of the wait that the thread is in. -/
def Phase.deadline : Phase → Option TimePoint
  | .sleeping d => some d
  | _ => none

theorem mem_deadline {ph : Phase} {d : TimePoint} (h : d ∈ ph.deadline) : ph = .sleeping d := by
  cases ph with
  | sleeping d' =>
    cases h
    rfl
  | _ => cases h

/-- The loop, and whether it has been notified since it last looked at the tasks. -/
structure Alarm (τ : Type) where
  state : State τ
  notified : Bool

def Alarm.init : Alarm τ := ⟨State.init, false⟩

/-- `push` and `stop` notify the loop, which looks at the tasks when it runs. -/
def Event.notifies : Event τ → Bool
  | .push _ _ _ _ => true
  | .stop => true
  | .run _ _ _ => false

def Alarm.step (x : Alarm τ) (a : Event τ) : Option (Alarm τ) :=
  (Cron.step x.state a).map fun st => ⟨st, a.notifies⟩

/-- Asleep, and with no notification to come, the loop wakes up for the first task in time. -/
def Alarm.Punctual (x : Alarm τ) : Prop :=
  x.notified = false → ∀ d ∈ x.state.phase.deadline, ∀ p ∈ x.state.tasks.keys, d ≤ p

/-- When the loop is woken before its deadline and the first task comes before it too, the time of
this task has come. -/
def Timely (x : Alarm τ) : Event τ → Prop
  | .push _ _ _ _ => True
  | .stop => True
  | .run now _ _ => x.state.done = false → ∀ d ∈ x.state.phase.deadline,
    ∀ p ∈ x.state.tasks.keys.head?, p < d → p ≤ now

instance (x : Alarm τ) (a : Event τ) : Decidable (Timely x a) :=
  match a with
  | .push _ _ _ _ => inferInstanceAs (Decidable True)
  | .stop => inferInstanceAs (Decidable True)
  | .run now _ _ => inferInstanceAs (Decidable (x.state.done = false →
    ∀ d ∈ x.state.phase.deadline, ∀ p ∈ x.state.tasks.keys.head?, p < d → p ≤ now))

theorem keys_of_entries {st : State τ} {x : TimePoint × CronTask τ}
    {rest : List (TimePoint × CronTask τ)} (hentries : st.tasks.entries = x :: rest) :
    st.tasks.keys = x.1 :: rest.map Prod.fst := by
  rw [SortedMap.keys, hentries, List.map_cons]

/-- The first task is the earliest. -/
theorem first_le_keys {st : State τ} {x : TimePoint × CronTask τ}
    {rest : List (TimePoint × CronTask τ)} (hentries : st.tasks.entries = x :: rest)
    {p : TimePoint} (hp : p ∈ st.tasks.keys) : x.1 ≤ p := by
  have hsorted := st.tasks.sorted
  rw [hentries, List.pairwise_cons] at hsorted
  rw [keys_of_entries hentries, List.mem_cons] at hp
  rcases hp with rfl | hp
  · exact le_rfl
  · obtain ⟨y, hy, rfl⟩ := List.mem_map.mp hp
    exact (hsorted.1 y hy).le

/-- The wait begins with the time of the first task. -/
theorem waitUntil_deadline {st : State τ} {now d : TimePoint}
    (hd : (st.waitUntil now).phase = .sleeping d) {p : TimePoint}
    (hp : p ∈ (st.waitUntil now).tasks.keys) : d ≤ p := by
  rw [State.waitUntil] at hd hp
  cases hentries : st.tasks.entries with
  | nil =>
    simp only [hentries] at hd
    split at hd <;> cases hd
  | cons x rest =>
    obtain ⟨q, t⟩ := x
    simp only [hentries] at hd hp
    split at hd
    · cases hd
    · cases hd
      exact first_le_keys hentries hp

theorem turn_deadline {st : State τ} {now again last d : TimePoint}
    (hd : (st.turn now again last).phase = .sleeping d) {p : TimePoint}
    (hp : p ∈ (st.turn now again last).tasks.keys) : d ≤ p := by
  rw [State.turn] at hd hp
  by_cases hdone : st.done = true
  · rw [if_pos hdone] at hd
    cases hd
  · rw [if_neg hdone] at hd hp
    cases hentries : st.tasks.entries with
    | nil =>
      rw [hentries] at hd
      cases hd
    | cons x rest =>
      rw [hentries] at hd hp
      exact waitUntil_deadline hd hp

/-- **Woken up**, the loop goes back to sleep with the deadline that it had, so it is in time for the
first task exactly where this does not come before the deadline. -/
theorem wake_punctual {st : State τ} {d now : TimePoint} (hphase : st.phase = .sleeping d) :
    Alarm.Punctual ⟨st.wake d now, false⟩ ↔
      (st.done = false → ∀ p ∈ st.tasks.keys.head?, p < d → p ≤ now) := by
  rw [Alarm.Punctual, State.wake]
  cases hentries : st.tasks.entries with
  | nil =>
    refine iff_of_true (fun _ d' hd' => by cases hd') ?_
    intro _ p hp
    rw [SortedMap.keys, hentries] at hp
    cases hp
  | cons x rest =>
    obtain ⟨q, t⟩ := x
    have hkeys : st.tasks.keys = q :: rest.map Prod.fst := keys_of_entries hentries
    have hhead : ∀ p ∈ st.tasks.keys.head?, p = q := by
      intro p hp
      rw [hkeys] at hp
      cases hp
      rfl
    by_cases hleave : q ≤ now ∨ st.done = true ∨ d ≤ now
    · -- the loop leaves the wait
      simp only [if_pos hleave]
      refine iff_of_true (fun _ d' hd' => by cases hd') ?_
      intro hdone p hp hlt
      obtain rfl := hhead p hp
      rcases hleave with h | h | h
      · exact h
      · rw [hdone] at h
        cases h
      · exact hlt.le.trans h
    · -- it sleeps on
      simp only [if_neg hleave]
      obtain ⟨hnow, hdone, -⟩ : ¬ q ≤ now ∧ ¬ st.done = true ∧ ¬ d ≤ now := by
        simpa only [not_or] using hleave
      have hdeadline : st.phase.deadline = some d := by
        rw [hphase]
        rfl
      constructor
      · intro hle _ p hp hlt
        obtain rfl := hhead p hp
        have hmem : p ∈ st.tasks.keys := by
          rw [hkeys]
          exact List.mem_cons_self
        exact absurd hlt (not_lt.mpr (hle trivial d hdeadline p hmem))
      · intro htimely _ d' hd' p hp
        obtain rfl : d = d' := Option.some.inj (hdeadline.symm.trans hd')
        have hge : d ≤ q := by
          refine not_lt.mp fun hlt => hnow (htimely (by simpa using hdone) q ?_ hlt)
          rw [hkeys]
          rfl
        exact hge.trans (first_le_keys hentries hp)

/-- A step leads to a state that is punctual exactly where `Timely` holds. -/
theorem step_punctual {x y : Alarm τ} {a : Event τ} (hs : x.step a = some y) :
    y.Punctual ↔ Timely x a := by
  obtain ⟨st, hst, rfl⟩ := Option.map_eq_some_iff.mp hs
  cases a with
  | push p t r skip => exact iff_of_true (fun h => by cases h) trivial
  | stop => exact iff_of_true (fun h => by cases h) trivial
  | run now again last =>
    have hturn : Alarm.Punctual ⟨x.state.turn now again last, false⟩ :=
      fun _ d hd p hp => turn_deadline (mem_deadline hd) hp
    simp only [Cron.step] at hst
    split at hst <;> cases hst
    · rename_i htop
      refine iff_of_true hturn fun _ d hd => ?_
      rw [htop] at hd
      cases hd
    · rename_i hwaiting
      refine iff_of_true hturn fun _ d hd => ?_
      rw [hwaiting] at hd
      cases hd
    · rename_i d hsleeping
      refine (wake_punctual hsleeping).trans ?_
      constructor
      · intro h hdone d' hd'
        rw [hsleeping] at hd'
        cases hd'
        exact h hdone
      · intro h hdone
        refine h hdone d ?_
        rw [hsleeping]
        rfl

/-- **The deadline is not later than the first task** in every state of a run whose steps are
timely, and it is later after the first step that is not. -/
theorem punctual_iff :
    (∀ x : Alarm τ, Run Alarm.step Timely Alarm.init x → x.Punctual) ∧
    ∀ (x y : Alarm τ) (a : Event τ), Run Alarm.step Timely Alarm.init x → x.step a = some y →
      (y.Punctual ↔ Timely x a) := by
  refine ⟨fun x h => ?_, fun x y a _ hs => step_punctual hs⟩
  refine h.invariant (fun _ d hd => by cases hd) ?_
  intro x y a _ htimely hs
  exact (step_punctual hs).mpr htimely

/-- A task for 50 is pushed while the loop sleeps until 100, and the loop runs at 60. -/
theorem punctual_iff_late_run :
    ∃ x : Alarm String, Run Alarm.step Timely Alarm.init x ∧ x.state.tasks.keys = [50, 100] ∧
      x.state.phase = .top ∧ x.Punctual ∧
      ∀ (y : Alarm String) (a : Event String), x.step a = some y → (y.Punctual ↔ Timely x a) := by
  obtain ⟨x, hrun, hp⟩ := exists_run_of_exec Alarm.step (fun x a => decide (Timely x a)) Alarm.init
    [.push 100 "later", .run 1 1 1, .push 50 "sooner", .run 60 60 60]
    (fun x : Alarm String => decide (x.state.tasks.keys = [50, 100] ∧ x.state.phase = .top))
    (by decide)
  obtain ⟨hkeys, htop⟩ := of_decide_eq_true hp
  have hrun' : Run Alarm.step Timely Alarm.init x := hrun.mono fun h => of_decide_eq_true h
  exact ⟨x, hrun', hkeys, htop, punctual_iff.1 x hrun',
    fun y a hs => punctual_iff.2 x y a hrun' hs⟩

/-- The loop sleeps until 100. A task is pushed for 50 and notifies it at 10: it sleeps on until
100. -/
theorem not_punctual_earlier_task :
    ∃ x : Alarm String, Reachable Alarm.step Alarm.init x ∧ x.notified = false ∧
      x.state.phase = .sleeping 100 ∧ x.state.tasks.keys = [50, 100] := by
  obtain ⟨x, hrun, hp⟩ := exists_run_of_exec Alarm.step (fun _ _ => true) Alarm.init
    [.push 100 "later", .run 1 1 1, .push 50 "sooner", .run 10 10 10]
    (fun x : Alarm String => decide (x.notified = false ∧ x.state.phase = .sleeping 100 ∧
      x.state.tasks.keys = [50, 100])) (by decide)
  exact ⟨x, hrun.reachable, of_decide_eq_true hp⟩

end Primitives.Cron
