import Primitives.Cron.Model
import Primitives.Lib.Run
import Mathlib.Algebra.Order.Group.Multiset
import Mathlib.Tactic.Abel

/-!
# Which tasks are kept

A task that was pushed is in the queue until it has been handed to the executor, or skipped, for
the last time (`Conserved`) — as long as no task is pushed, or put back, for a time point at which
another one is queued: `emplace` drops it. The tasks are conserved exactly in the runs where that
never happens (`conserved_iff`).
-/

set_option autoImplicit false

namespace Primitives.Cron

open Lib

variable {τ : Type}

/-- The tasks in the queue. -/
def State.queued (st : State τ) : Multiset τ := st.tasks.values.map CronTask.task

/-- The tasks that have not been dropped: they are queued or over. -/
def State.kept (st : State τ) : Multiset τ := st.queued + st.handed + st.skipped

/-- The tasks accepted so far are those still queued and those that were handed to the executor
or skipped for the last time. -/
def Conserved (st : State τ) : Prop := (st.accepted : Multiset τ) = st.kept

/-- The time point for which a turn of the loop puts the first task back. -/
def State.requeues (st : State τ) (now again : TimePoint) : Option TimePoint :=
  match st.tasks.entries with
  | [] => none
  | (p, t) :: _ => if p ≤ now ∧ t.rep.needRepeat then some (t.rep.nextRepeat again) else none

/-- No task is pushed or put back for a time point that is taken. -/
def NoCollision (st : State τ) : Event τ → Prop
  | .push p _ _ _ => p ∉ st.tasks.keys
  | .stop => True
  | .run now again _ => (st.phase = .top ∨ st.phase = .waiting) → st.done = false →
    ∀ p ∈ st.requeues now again, p ∉ st.tasks.eraseBegin.keys

instance (st : State τ) (a : Event τ) : Decidable (NoCollision st a) := by
  cases a <;> unfold NoCollision <;> infer_instance

/-! ## One step -/

/-- The tasks that a step accepts. -/
def Event.accepts : Event τ → List τ
  | .push _ t _ _ => [t]
  | _ => []

theorem accepted_step {st st' : State τ} {a : Event τ} (hs : step st a = some st') :
    st'.accepted = st.accepted ++ a.accepts := by
  have htake : ∀ (t : CronTask τ) again, (st.take t again).accepted = st.accepted :=
    fun _ _ => rfl
  have hwait : ∀ (u : State τ) last, (u.waitUntil last).accepted = u.accepted := by
    intro u last
    unfold State.waitUntil
    split <;> rfl
  cases a with
  | push p t r skip =>
    rw [step] at hs
    split at hs <;> cases hs
    rfl
  | stop =>
    rw [step] at hs
    split at hs <;> cases hs
    exact (List.append_nil _).symm
  | run now again last =>
    have hturn : (st.turn now again last).accepted = st.accepted := by
      unfold State.turn
      repeat' split
      · rfl
      · rfl
      · rw [hwait, htake]
      · rw [hwait]
    have hwake : ∀ d, (st.wake d now).accepted = st.accepted := by
      intro d
      unfold State.wake
      repeat' split
      all_goals rfl
    have hnil : st.accepted ++ (Event.run now again last : Event τ).accepts = st.accepted :=
      List.append_nil _
    rw [hnil]
    simp only [step] at hs
    split at hs <;> cases hs
    · exact hturn
    · exact hturn
    · exact hwake _

theorem kept_waitUntil (st : State τ) (last : TimePoint) :
    (st.waitUntil last).kept = st.kept := by
  unfold State.waitUntil
  split <;> rfl

theorem kept_wake (st : State τ) (deadline now : TimePoint) :
    (st.wake deadline now).kept = st.kept := by
  unfold State.wake
  repeat' split
  all_goals rfl

/-- `emplace` drops what it is given where the time point is taken. -/
theorem queued_emplace (m : SortedMap TimePoint (CronTask τ)) (p : TimePoint) (t : CronTask τ) :
    (((m.emplace p t).values.map CronTask.task : List τ) : Multiset τ) +
      (if p ∈ m.keys then {t.task} else 0) = t.task ::ₘ (m.values.map CronTask.task : List τ) := by
  by_cases h : p ∈ m.keys
  · rw [if_pos h, SortedMap.values_emplace_of_mem t h, add_comm, Multiset.singleton_add]
  · rw [if_neg h, add_zero, Multiset.cons_coe]
    exact Multiset.coe_eq_coe.mpr ((SortedMap.values_emplace t h).map CronTask.task)

/-- The task that is taken is put back or over, but for the one that `emplace` drops. -/
theorem kept_take {st : State τ} {p : TimePoint} {t : CronTask τ}
    {rest : List (TimePoint × CronTask τ)} (h : st.tasks.entries = (p, t) :: rest)
    (again : TimePoint) :
    (st.take t again).kept + (if t.rep.needRepeat = true ∧
      t.rep.nextRepeat again ∈ st.tasks.eraseBegin.keys then {t.task} else 0) = st.kept := by
  have hqueued : st.queued =
      t.task ::ₘ (st.tasks.eraseBegin.values.map CronTask.task : List τ) := by
    simp [State.queued, SortedMap.values, SortedMap.eraseBegin, h]
  rw [State.kept, State.kept, hqueued]
  cases hrep : t.rep.needRepeat with
  | false =>
    -- it is over, and recorded as handed over or skipped
    have hq : (st.take t again).queued =
        (st.tasks.eraseBegin.values.map CronTask.task : List τ) := by
      simp [State.take, State.queued, hrep]
    rw [hq, if_neg (by simp), ← Multiset.singleton_add]
    by_cases hfire : t.skip ≤ 0
    · have hh : (st.take t again).handed = st.handed ++ [t.task] := by
        simp [State.take, hfire, hrep]
      have hk : (st.take t again).skipped = st.skipped := by simp [State.take, hfire]
      rw [hh, hk, ← Multiset.coe_add, Multiset.coe_singleton]
      abel
    · have hh : (st.take t again).handed = st.handed := by simp [State.take, hfire]
      have hk : (st.take t again).skipped = st.skipped ++ [t.task] := by
        simp [State.take, hfire, hrep]
      rw [hh, hk, ← Multiset.coe_add, Multiset.coe_singleton]
      abel
  | true =>
    have hh : (st.take t again).handed = st.handed := by simp [State.take, hrep]
    have hk : (st.take t again).skipped = st.skipped := by simp [State.take, hrep]
    obtain ⟨t', ht', hq⟩ : ∃ t' : CronTask τ, t'.task = t.task ∧ (st.take t again).queued =
        ((st.tasks.eraseBegin.emplace (t.rep.nextRepeat again) t').values.map CronTask.task :
          List τ) := by
      refine ⟨if t.skip ≤ 0 then t else { t with skip := t.skip - 1 }, ?_, ?_⟩
      · split <;> rfl
      · simp [State.take, State.queued, hrep]
    have hemplace := queued_emplace st.tasks.eraseBegin (t.rep.nextRepeat again) t'
    rw [ht'] at hemplace
    rw [hh, hk, hq, ← hemplace]
    simp only [true_and]
    abel

/-- What a turn of the loop puts back. -/
theorem mem_requeues {st : State τ} {now again : TimePoint} {p : TimePoint} {t : CronTask τ}
    {rest : List (TimePoint × CronTask τ)} (h : st.tasks.entries = (p, t) :: rest) {q : TimePoint} :
    q ∈ st.requeues now again ↔
      (p ≤ now ∧ t.rep.needRepeat = true) ∧ q = t.rep.nextRepeat again := by
  unfold State.requeues
  rw [h]
  by_cases hdue : p ≤ now ∧ t.rep.needRepeat = true
  · simp [hdue, eq_comm]
  · simp [hdue]

theorem kept_turn (st : State τ) (now again last : TimePoint) :
    (st.done = false → ∀ q ∈ st.requeues now again, q ∉ st.tasks.eraseBegin.keys) ∧
      (st.turn now again last).kept = st.kept ∨
    ¬ (st.done = false → ∀ q ∈ st.requeues now again, q ∉ st.tasks.eraseBegin.keys) ∧
      ∃ x, (st.turn now again last).kept + {x} = st.kept := by
  unfold State.turn
  cases hdone : st.done with
  | true => exact .inl ⟨nofun, rfl⟩
  | false =>
    cases hentries : st.tasks.entries with
    | nil => exact .inl ⟨fun _ q hq => by simp [State.requeues, hentries] at hq, rfl⟩
    | cons x rest =>
      obtain ⟨p, t⟩ := x
      rw [if_neg Bool.false_ne_true]
      dsimp only
      rw [kept_waitUntil]
      by_cases hdue : p ≤ now
      · have hkept := kept_take hentries again
        rw [if_pos hdue]
        by_cases hmem : t.rep.needRepeat = true ∧
            t.rep.nextRepeat again ∈ st.tasks.eraseBegin.keys
        · rw [if_pos hmem] at hkept
          refine .inr ⟨fun hno => ?_, t.task, hkept⟩
          exact hno rfl _ ((mem_requeues hentries).mpr ⟨⟨hdue, hmem.1⟩, rfl⟩) hmem.2
        · rw [if_neg hmem, add_zero] at hkept
          refine .inl ⟨fun _ q hq hkey => ?_, hkept⟩
          obtain ⟨⟨-, hrep⟩, rfl⟩ := (mem_requeues hentries).mp hq
          exact hmem ⟨hrep, hkey⟩
      · rw [if_neg hdue]
        refine .inl ⟨fun _ q hq => ?_, rfl⟩
        exact absurd ((mem_requeues hentries).mp hq).1.1 hdue

/-- **What a step does to the tasks.** It keeps what it accepts, or drops one where the time
point is taken. -/
theorem kept_step {st st' : State τ} {a : Event τ} (hs : step st a = some st') :
    NoCollision st a ∧ st'.kept = st.kept + a.accepts ∨
    ¬ NoCollision st a ∧ ∃ x, st'.kept + {x} = st.kept + a.accepts := by
  cases a with
  | push p t r skip =>
    rw [step] at hs
    split at hs <;> cases hs
    have hkept : (st.push p t r skip).kept + (if p ∈ st.tasks.keys then {t} else 0) =
        st.kept + {t} := by
      have hq : (st.push p t r skip).queued + (if p ∈ st.tasks.keys then {t} else 0) =
          t ::ₘ st.queued := queued_emplace st.tasks p ⟨t, r, skip⟩
      have hover : (st.push p t r skip).kept =
          (st.push p t r skip).queued + st.handed + st.skipped := rfl
      rw [hover, State.kept, add_right_comm _ _ (ite _ _ _), add_right_comm _ _ (ite _ _ _), hq,
        ← Multiset.singleton_add]
      abel
    by_cases hmem : p ∈ st.tasks.keys
    · rw [if_pos hmem] at hkept
      exact .inr ⟨fun hno => hno hmem, t, hkept⟩
    · rw [if_neg hmem, add_zero] at hkept
      exact .inl ⟨hmem, hkept⟩
  | stop =>
    rw [step] at hs
    split at hs <;> cases hs
    exact .inl ⟨trivial, (add_zero _).symm⟩
  | run now again last =>
    have hnil : st.kept + ((Event.run now again last : Event τ).accepts : List τ) = st.kept :=
      add_zero _
    rw [hnil]
    simp only [step] at hs
    cases hphase : st.phase with
    | top | waiting =>
      rw [hphase] at hs
      cases hs
      obtain ⟨hno, hkept⟩ | ⟨hno, hkept⟩ := kept_turn st now again last
      · exact .inl ⟨fun _ => hno, hkept⟩
      · exact .inr ⟨fun h => hno (h (by simp [hphase])), hkept⟩
    | sleeping d =>
      rw [hphase] at hs
      cases hs
      exact .inl ⟨fun h => by simp [hphase] at h, kept_wake st d now⟩
    | exited | undefined =>
      rw [hphase] at hs
      cases hs

/-! ## Every run -/

theorem conserved_of_run {st : State τ} (h : Run step NoCollision State.init st) :
    Conserved st := by
  refine h.invariant (by rfl) fun {st st' a} (hi : Conserved st) hok hs => ?_
  obtain ⟨-, hkept⟩ | ⟨hno, -⟩ := kept_step hs
  · rw [Conserved, accepted_step hs, hkept, ← hi]
    rfl
  · exact absurd hok hno

/-- Every task that was dropped is missing ever after. -/
theorem card_accepted {st : State τ} (h : Reachable step State.init st) :
    ∃ n, st.accepted.length = st.kept.card + n ∧ (n = 0 → Run step NoCollision State.init st) := by
  induction h with
  | refl => exact ⟨0, rfl, fun _ => .refl⟩
  | @tail st st' a _ _ hs ih =>
    obtain ⟨n, hcard, hrun⟩ := ih
    obtain ⟨hno, hkept⟩ | ⟨-, x, hkept⟩ := kept_step hs
    · refine ⟨n, ?_, fun hn => .tail (hrun hn) hno hs⟩
      rw [accepted_step hs, List.length_append, hcard, hkept, Multiset.card_add,
        Multiset.coe_card]
      omega
    · refine ⟨n + 1, ?_, nofun⟩
      have hcard' := congrArg Multiset.card hkept
      rw [Multiset.card_add, Multiset.card_add, Multiset.card_singleton, Multiset.coe_card]
        at hcard'
      rw [accepted_step hs, List.length_append, hcard]
      omega

end Primitives.Cron
