import Primitives.Future.Places
import Mathlib.Data.List.Perm.Subperm

/-!
# What becomes of a callback

A future's callbacks wait in its vector until the `notice()` of its completion takes the mutex,
and are then run one by one; what is pushed after that is never run. `Remaining st f cbs` says
that `cbs` are the callbacks of `f` that are still to be run. A step may run the first of them,
or add one at the end while the future is `Open` (`Remaining.access`), so that the callbacks
added are those that have been run, are still to be run, or came too late (`Accounted`).
-/

set_option autoImplicit false

namespace Primitives.Future

/-! ## Callbacks -/

/-- The callbacks of `f` are still to be run: it is not set, or the thread that set it has yet
to take its mutex. -/
def Open (st : State) (f : FutureId) : Prop :=
  (st.shared f).set = false ∨ ∃ t ix, Frame.noticeLock f ix ∈ st.stackOf t

/-- The callbacks of `f` that are still to be run. -/
inductive Remaining (st : State) (f : FutureId) : List Callback → Prop
  | waiting : Open st f → Remaining st f (st.shared f).callbacks
  | running {t : Thread} {ix : Option Nat} {cbs : List Callback} :
      Frame.noticeRun f ix cbs ∈ st.stackOf t → Remaining st f cbs
  | done : (st.shared f).set = true →
      (∀ t, ∀ fr ∈ st.stackOf t, fr.key = some (.notice f) → ∃ ix, fr = .noticeClear f ix) →
      Remaining st f []

theorem next_clear {st : State} {fr : Frame} {f : FutureId} {frs : List Frame}
    (h : fr.next st = some (.clear f, frs)) : fr.key = some (.notice f) := by
  cases fr with
  | noticeRun g ix cbs => rcases cbs with _ | ⟨_ | _ | _, _⟩ <;> cases h
  | _ =>
    simp only [Frame.next] at h
    repeat' split at h
    all_goals cases h
    all_goals rfl

theorem next_setFlag {st : State} {fr : Frame} {f : FutureId} {frs : List Frame}
    (h : fr.next st = some (.setFlag f, frs)) :
    (∃ ix, fr = .setExecuted f ix ∧ frs = [.noticeLock f ix] ∧ (st.shared f).set = false) ∨
    (∃ c call locked, fr = .setCombined c call locked ∧ f = .combined c) := by
  cases fr with
  | noticeRun g ix cbs => rcases cbs with _ | ⟨_ | _ | _, _⟩ <;> cases h
  | setExecuted g ix =>
    simp only [Frame.next] at h
    split at h <;> cases h
    rename_i hset
    exact .inl ⟨ix, rfl, rfl, (Bool.not_eq_true _).mp hset⟩
  | _ =>
    simp only [Frame.next] at h
    repeat' split at h
    all_goals cases h
    all_goals exact .inr ⟨_, _, _, rfl, rfl⟩

theorem next_runCallback {st : State} {fr : Frame} {f : FutureId} {cb : Callback}
    {frs : List Frame} (h : fr.next st = some (.runCallback f cb, frs)) :
    ∃ ix cbs, fr = .noticeRun f ix (cb :: cbs) ∧ Frame.noticeRun f ix cbs ∈ frs := by
  cases fr with
  | noticeRun g ix cbs =>
    rcases cbs with _ | ⟨_ | _ | _, cbs⟩ <;> cases h
    · refine ⟨ix, cbs, rfl, ?_⟩
      split <;> simp
    · exact ⟨ix, cbs, rfl, by simp⟩
    · exact ⟨ix, cbs, rfl, by simp⟩
  | _ =>
    simp only [Frame.next] at h
    repeat' split at h
    all_goals cases h

/-- Only its own `notice()` runs the callbacks of a future. -/
theorem ne_runCallback {st : State} {fr : Frame} {e : Effect} {f : FutureId} {frs : List Frame}
    (h : fr.next st = some (e, frs)) (hkey : fr.key ≠ some (.notice f)) (cb : Callback) :
    e ≠ .runCallback f cb := by
  rintro rfl
  obtain ⟨ix, cbs, rfl, -⟩ := next_runCallback h
  exact hkey rfl

/-- A frame of a `notice()` comes from one, or from the access that sets the flag. -/
theorem notice_of_next {st : State} {fr fr' : Frame} {e : Effect} {f : FutureId}
    {frs : List Frame} (h : fr.next st = some (e, frs)) (hfr' : fr' ∈ frs)
    (hkey : fr'.key = some (.notice f)) :
    fr.key = some (.notice f) ∨ ((st.shared f).set = false ∧ e = .setFlag f) := by
  have hmem : Key.notice f ∈ keys frs := mem_keys.mpr ⟨fr', hfr', hkey⟩
  obtain hn | hn | ⟨g, hn, -, hset, he⟩ := keys_next h
  · simp [hn] at hmem
  · rw [hn] at hmem
    exact .inl (Option.mem_toList.mp hmem)
  · rw [hn, List.mem_singleton] at hmem
    cases hmem
    exact .inr ⟨hset, he⟩

/-- The callback an access pushes to a future. -/
def Effect.adds (f : FutureId) : Effect → List Callback
  | .addCallback g cb => if g = f then [cb] else []
  | _ => []

/-- The callbacks of a future after an access. -/
theorem apply_callbacks (st : State) (t : Thread) (e : Effect) (f : FutureId)
    (hclear : e ≠ .clear f) :
    ((st.apply t e).shared f).callbacks = (st.shared f).callbacks ++ e.adds f := by
  cases e with
  | addCallback g cb =>
    by_cases h : g = f
    · subst h
      simp [State.apply, State.modify, Effect.adds]
    · simp [State.apply, State.modify, Effect.adds, h, Ne.symm h]
  | clear g =>
    have h : f ≠ g := fun h => hclear (by rw [h])
    simp [State.apply, State.modify, Effect.adds, h]
  | setFlag g | lock g | unlock g | setData g =>
    by_cases h : f = g <;> simp [State.apply, State.modify, Effect.adds, h]
  | silent | runCallback | push | ret => simp [State.apply, Effect.adds]

theorem Effect.adds_eq_nil {f : FutureId} {e : Effect} (h : ∀ cb, e ≠ .addCallback f cb) :
    e.adds f = [] := by
  cases e with
  | addCallback g cb => exact if_neg fun heq => h cb (by rw [heq])
  | _ => rfl

section Access

variable {st : State} {t : Thread} {fr : Frame} {k : List Frame} {e : Effect} {frs : List Frame}

/-- While a future is open, an access by another than its `notice()` leaves it open, and its
callbacks stay or get one more, unless it is a state that is set without a `notice()`. -/
theorem Open.access {f : FutureId} (ho : Open st f) (hk : Keyed st) (hu : Used st)
    (ht : st.stackOf t = fr :: k) (hn : fr.next st = some (e, frs))
    (hkey : fr.key ≠ some (.notice f)) :
    Open ((st.apply t e).setStack t (frs ++ k)) f ∨
      (st.usable f = false ∧ (st.shared f).callbacks = [] ∧ e = .setFlag f ∧
        Remaining ((st.apply t e).setStack t (frs ++ k)) f []) := by
  obtain hset | ⟨t', ix, hlock⟩ := ho
  swap
  · refine .inl (.inr ⟨t', ix, mem_access_of_ne ht hlock ?_⟩)
    rintro rfl
    exact hkey rfl
  by_cases he : e = .setFlag f
  swap
  · exact .inl (.inl (by simp [setStack_shared, apply_set, he, hset]))
  subst he
  obtain ⟨ix, rfl, rfl, -⟩ | ⟨c, call, locked, rfl, rfl⟩ := next_setFlag hn
  · exact .inl (.inr ⟨t, ix, (mem_access ht).mpr (.inl ⟨rfl, .inl (by simp)⟩)⟩)
  · have hcall := (hk.call (t := t) (c := c)
      (mem_keys.mpr ⟨.setCombined c call locked, mem_of_stackOf_eq ht, rfl⟩)).2
    refine .inr ⟨hcall, hu.callbacks c hcall, rfl, .done (by simp [apply_set]) ?_⟩
    intro t' fr' hfr' hkey'
    obtain hfr' | hfr' := mem_of_mem_access ht hfr'
    · cases hn
      split at hfr' <;> cases List.mem_singleton.mp hfr' <;> cases hkey'
    · simp [hk.notice (mem_keys.mpr ⟨fr', hfr', hkey'⟩)] at hset

/-- The `notice()` that waits for the mutex, or an access by another, while the future is open. -/
theorem Open.remaining_access {f : FutureId} (ho : Open st f) (hk : Keyed st) (hu : Used st)
    (ht : st.stackOf t = fr :: k) (hn : fr.next st = some (e, frs)) :
    (∃ cb, e = .addCallback f cb ∧
      Remaining ((st.apply t e).setStack t (frs ++ k)) f ((st.shared f).callbacks ++ [cb])) ∨
    ((∀ cb, e ≠ .runCallback f cb) ∧ (∀ cb, e ≠ .addCallback f cb) ∧
      Remaining ((st.apply t e).setStack t (frs ++ k)) f (st.shared f).callbacks) := by
  by_cases hkey : fr.key = some (.notice f)
  · have hacts : fr ∈ st.stackOf t := mem_of_stackOf_eq ht
    -- the frame that acts is the one that waits for the mutex
    obtain hset | ⟨t', ix, hlock⟩ := ho
    · simp [hk.notice (mem_keys.mpr ⟨fr, hacts, hkey⟩)] at hset
    cases hk.unique hlock rfl hacts hkey
    simp only [Frame.next] at hn
    split at hn <;> cases hn
    exact .inr ⟨by simp, by simp, .running (mem_head_access ..)⟩
  · have hrun := ne_runCallback hn hkey
    have hclear : e ≠ .clear f := by
      rintro rfl
      exact hkey (next_clear hn)
    obtain ho' | ⟨-, hnil, rfl, hdone⟩ := ho.access hk hu ht hn hkey
    · have hwait := Remaining.waiting ho'
      rw [setStack_shared, apply_callbacks st t e f hclear] at hwait
      by_cases hadd : ∃ cb, e = .addCallback f cb
      · obtain ⟨cb, rfl⟩ := hadd
        rw [show Effect.adds f (.addCallback f cb) = [cb] from if_pos rfl] at hwait
        exact .inl ⟨cb, rfl, hwait⟩
      · have hadd' : ∀ cb, e ≠ .addCallback f cb := fun cb h => hadd ⟨cb, h⟩
        rw [Effect.adds_eq_nil hadd', List.append_nil] at hwait
        exact .inr ⟨hrun, hadd', hwait⟩
    · rw [hnil]
      exact .inr ⟨by simp, by simp, hdone⟩

/-- The `notice()` that runs the callbacks, or an access by another, while it runs them. -/
theorem remaining_access_running {f : FutureId} {t' : Thread} {ix : Option Nat}
    {cbs : List Callback} (hm : Frame.noticeRun f ix cbs ∈ st.stackOf t') (hk : Keyed st)
    (ht : st.stackOf t = fr :: k) (hn : fr.next st = some (e, frs)) :
    (∃ cb cbs', e = .runCallback f cb ∧ cbs = cb :: cbs' ∧
      Remaining ((st.apply t e).setStack t (frs ++ k)) f cbs') ∨
    ((∀ cb, e ≠ .runCallback f cb) ∧
      Remaining ((st.apply t e).setStack t (frs ++ k)) f cbs) := by
  by_cases hkey : fr.key = some (.notice f)
  · have hacts : fr ∈ st.stackOf t := mem_of_stackOf_eq ht
    cases hk.unique hm rfl hacts hkey
    rcases cbs with _ | ⟨cb, cbs⟩
    · cases hn
      refine .inr ⟨by simp, .done ?_ fun t'' fr' hfr' hkey' => ?_⟩
      · rw [setStack_shared]
        exact apply_set_of_set t _ (hk.notice (mem_keys.mpr ⟨_, hacts, rfl⟩))
      · exact ⟨ix, List.mem_singleton.mp (hk.mem_of_access ht hkey hfr' hkey')⟩
    · obtain ⟨rfl, hm'⟩ : e = .runCallback f cb ∧ Frame.noticeRun f ix cbs ∈ frs := by
        cases cb <;> cases hn
        · refine ⟨rfl, ?_⟩
          split <;> simp
        · exact ⟨rfl, by simp⟩
        · exact ⟨rfl, by simp⟩
      exact .inl ⟨cb, cbs, rfl, rfl, .running ((mem_access ht).mpr (.inl ⟨rfl, .inl hm'⟩))⟩
  · refine .inr ⟨ne_runCallback hn hkey, .running (mem_access_of_ne ht hm ?_)⟩
    rintro rfl
    exact hkey rfl

/-- An access after the last callback was run. -/
theorem remaining_access_done {f : FutureId} (hset : (st.shared f).set = true)
    (hdone : ∀ t, ∀ fr ∈ st.stackOf t, fr.key = some (.notice f) → ∃ ix, fr = .noticeClear f ix)
    (ht : st.stackOf t = fr :: k) (hn : fr.next st = some (e, frs)) :
    (∀ cb, e ≠ .runCallback f cb) ∧ Remaining ((st.apply t e).setStack t (frs ++ k)) f [] := by
  have hacts : fr ∈ st.stackOf t := mem_of_stackOf_eq ht
  constructor
  · rintro cb rfl
    obtain ⟨ix, cbs, rfl, -⟩ := next_runCallback hn
    obtain ⟨_, h⟩ := hdone t _ hacts rfl
    cases h
  · refine .done (by rw [setStack_shared]; exact apply_set_of_set t _ hset) ?_
    intro t' fr' hfr' hkey'
    obtain hm | hm := mem_of_mem_access ht hfr'
    · obtain hkey | ⟨hunset, -⟩ := notice_of_next hn hm hkey'
      · obtain ⟨ix, rfl⟩ := hdone t fr hacts hkey
        cases hn
        cases ix with
        | none => cases hm
        | some i =>
          cases List.mem_singleton.mp hm
          cases hkey'
      · simp [hset] at hunset
    · exact hdone t' fr' hm hkey'

/-- **What an access does to the callbacks that are still to be run.** It adds one, runs the
first, or leaves them. -/
theorem Remaining.access {f : FutureId} {cbs : List Callback} (h : Remaining st f cbs)
    (hk : Keyed st) (hu : Used st) (ht : st.stackOf t = fr :: k)
    (hn : fr.next st = some (e, frs)) :
    (∃ cb, e = .addCallback f cb ∧ Open st f ∧
      Remaining ((st.apply t e).setStack t (frs ++ k)) f (cbs ++ [cb])) ∨
    (∃ cb cbs', e = .runCallback f cb ∧ cbs = cb :: cbs' ∧
      Remaining ((st.apply t e).setStack t (frs ++ k)) f cbs') ∨
    ((∀ cb, e ≠ .runCallback f cb) ∧ (∀ cb, e = .addCallback f cb → ¬ Open st f) ∧
      Remaining ((st.apply t e).setStack t (frs ++ k)) f cbs) := by
  cases h with
  | waiting ho =>
    obtain ⟨cb, he, hrem⟩ | ⟨hrun, hadd, hrem⟩ := ho.remaining_access hk hu ht hn
    · exact .inl ⟨cb, he, ho, hrem⟩
    · exact .inr (.inr ⟨hrun, fun cb he => absurd he (hadd cb), hrem⟩)
  | @running t' ix _ hm =>
    have hclosed : ¬ Open st f := by
      rintro (hset | ⟨t'', ix', hlock⟩)
      · simp [hk.notice (mem_keys.mpr ⟨_, hm, rfl⟩)] at hset
      · cases hk.unique hm rfl hlock rfl
    obtain hran | ⟨hrun, hrem⟩ := remaining_access_running hm hk ht hn
    · exact .inr (.inl hran)
    · exact .inr (.inr ⟨hrun, fun _ _ => hclosed, hrem⟩)
  | done hset hdone =>
    have hclosed : ¬ Open st f := by
      rintro (hunset | ⟨t', ix, hlock⟩)
      · simp [hset] at hunset
      · obtain ⟨_, h⟩ := hdone t' _ hlock rfl
        cases h
    obtain ⟨hrun, hrem⟩ := remaining_access_done hset hdone ht hn
    exact .inr (.inr ⟨hrun, fun _ _ => hclosed, hrem⟩)

end Access

/-- A thread that starts an operation leaves the callbacks that are still to be run. It may set
a future that has none. -/
theorem Remaining.start {st st' : State} {f : FutureId} {cbs : List Callback}
    (h : Remaining st f cbs) (hk : Keyed st) {t : Thread} {fr : Frame} (ht : st.stackOf t = [])
    (hstacks : st'.stackOf = Function.update st.stackOf t [fr])
    (hkey : fr.key ≠ some (.notice f))
    (hcbs : (st'.shared f).callbacks = (st.shared f).callbacks)
    (hset : (st'.shared f).set = (st.shared f).set ∨
      (st.shared f).callbacks = [] ∧ (st'.shared f).set = true) : Remaining st' f cbs := by
  have hmem : ∀ {t' fr'}, fr' ∈ st.stackOf t' → fr' ∈ st'.stackOf t' := mem_start ht hstacks
  have hnotice : ∀ {t' fr'}, fr' ∈ st'.stackOf t' → fr'.key = some (.notice f) →
      fr' ∈ st.stackOf t' := by
    intro t' fr' hfr' hkey'
    obtain ⟨-, rfl⟩ | hm := mem_of_mem_start hstacks hfr'
    · exact absurd hkey' hkey
    · exact hm
  cases h with
  | waiting ho =>
    obtain hs | ⟨t', ix, hlock⟩ := ho
    · obtain hset | ⟨hnil, hset⟩ := hset
      · rw [← hcbs]
        exact .waiting (.inl (by rw [hset, hs]))
      · rw [hnil]
        refine .done hset fun t' fr' hfr' hkey' => ?_
        simp [hk.notice (mem_keys.mpr ⟨fr', hnotice hfr' hkey', hkey'⟩)] at hs
    · rw [← hcbs]
      exact .waiting (.inr ⟨t', ix, hmem hlock⟩)
  | running hm => exact .running (hmem hm)
  | done hs hdone =>
    refine .done ?_ fun t' fr' hfr' hkey' => hdone t' fr' (hnotice hfr' hkey') hkey'
    obtain hset | ⟨-, hset⟩ := hset
    · rw [hset, hs]
    · exact hset

/-! ## Accounts -/

/-- The futures of the recorded callbacks that `p` holds of. -/
def futuresOf (p : Callback → Bool) (record : List (FutureId × Callback)) : List FutureId :=
  (record.filter fun x => p x.2).map Prod.fst

@[simp] theorem futuresOf_nil (p : Callback → Bool) : futuresOf p [] = [] := rfl

theorem futuresOf_append (p : Callback → Bool) (r r' : List (FutureId × Callback)) :
    futuresOf p (r ++ r') = futuresOf p r ++ futuresOf p r' := by
  simp [futuresOf]

@[simp] theorem length_futuresOf_singleton (p : Callback → Bool) (f : FutureId) (cb : Callback) :
    (futuresOf p [(f, cb)]).length = [cb].countP p := by
  cases h : p cb <;> simp [futuresOf, h]

theorem count_futuresOf_self (p : Callback → Bool) (f : FutureId) (cb : Callback) :
    (futuresOf p [(f, cb)]).count f = [cb].countP p := by
  cases h : p cb <;> simp [futuresOf, h]

theorem count_futuresOf_of_ne {f g : FutureId} (p : Callback → Bool) (cb : Callback)
    (h : g ≠ f) : (futuresOf p [(g, cb)]).count f = 0 := by
  cases hp : p cb <;> simp [futuresOf, hp, h]

theorem mem_futuresOf {p : Callback → Bool} {r : List (FutureId × Callback)} {f : FutureId} :
    f ∈ futuresOf p r ↔ ∃ cb, (f, cb) ∈ r ∧ p cb = true := by
  simp [futuresOf]

/-- What an access adds to the record of the callbacks added. -/
def Effect.addition : Effect → List (FutureId × Callback)
  | .addCallback f cb => [(f, cb)]
  | _ => []

/-- What an access adds to the record of the callbacks run. -/
def Effect.execution : Effect → List (FutureId × Callback)
  | .runCallback f cb => [(f, cb)]
  | _ => []

theorem apply_added (st : State) (t : Thread) (e : Effect) :
    (st.apply t e).added = st.added ++ e.addition := by
  cases e <;> simp [State.apply, State.modify, Effect.addition]

theorem apply_ran (st : State) (t : Thread) (e : Effect) :
    (st.apply t e).ran = st.ran ++ e.execution := by
  cases e <;> simp [State.apply, State.modify, Effect.execution]

/-- Of the callbacks of `f` that `p` holds of, those added are those that have been run, those
that are still to be run, and the `late` ones that never will be. -/
def Accounted (p : Callback → Bool) (f : FutureId) (late : Nat) (st : State) : Prop :=
  ∃ cbs, Remaining st f cbs ∧
    (futuresOf p st.ran).count f + cbs.countP p + late = (futuresOf p st.added).count f

theorem Accounted.init (p : Callback → Bool) (f : FutureId) : Accounted p f 0 State.init :=
  ⟨[], .waiting (.inl rfl), rfl⟩

/-- No callback is run that was not added. -/
theorem Accounted.count_le {p : Callback → Bool} {f : FutureId} {late : Nat} {st : State}
    (h : Accounted p f late st) :
    (futuresOf p st.ran).count f ≤ (futuresOf p st.added).count f := by
  obtain ⟨cbs, -, hcount⟩ := h
  omega

theorem ran_subperm {p : Callback → Bool} {st : State} (h : ∀ f, Accounted p f 0 st) :
    (futuresOf p st.ran).Subperm (futuresOf p st.added) :=
  List.subperm_ext_iff.mpr fun f _ => (h f).count_le

/-- When a future is set and its `notice()` is over, all its callbacks have been run but for the
late ones. -/
theorem Accounted.eq_of_done {p : Callback → Bool} {f : FutureId} {late : Nat} {st : State}
    (h : Accounted p f late st) (hset : (st.shared f).set = true)
    (hdone : ∀ t, .notice f ∉ keys (st.stackOf t)) :
    (futuresOf p st.ran).count f + late = (futuresOf p st.added).count f := by
  obtain ⟨cbs, hr, hcount⟩ := h
  cases hr with
  | waiting ho =>
    obtain hs | ⟨t, ix, hlock⟩ := ho
    · cases hs.symm.trans hset
    · exact absurd (mem_keys.mpr ⟨_, hlock, rfl⟩) (hdone t)
  | running hm => exact absurd (mem_keys.mpr ⟨_, hm, rfl⟩) (hdone _)
  | done => simpa using hcount

/-- The account after the record grows by what an access adds to it. -/
theorem Accounted.access {p : Callback → Bool} {f : FutureId} {late : Nat} {st : State}
    (h : Accounted p f late st) (hk : Keyed st) (hu : Used st) {t : Thread} {fr : Frame}
    {k : List Frame} (ht : st.stackOf t = fr :: k) {e : Effect} {frs : List Frame}
    (hn : fr.next st = some (e, frs)) :
    Accounted p f late ((st.apply t e).setStack t (frs ++ k)) ∨
    (∃ cb, e = .addCallback f cb ∧ p cb = true ∧ ¬ Open st f) ∧
      Accounted p f (late + 1) ((st.apply t e).setStack t (frs ++ k)) := by
  obtain ⟨cbs, hr, hcount⟩ := h
  have hadded : ((st.apply t e).setStack t (frs ++ k)).added = st.added ++ e.addition :=
    apply_added st t e
  have hran : ((st.apply t e).setStack t (frs ++ k)).ran = st.ran ++ e.execution :=
    apply_ran st t e
  simp only [Accounted, hadded, hran, futuresOf_append, List.count_append]
  obtain ⟨cb, rfl, -, hr'⟩ | ⟨cb, cbs', rfl, rfl, hr'⟩ | ⟨hrun, hadd, hr'⟩ :=
    hr.access hk hu ht hn
  · refine .inl ⟨_, hr', ?_⟩
    have hnone : (futuresOf p (Effect.addCallback f cb).execution).count f = 0 := rfl
    rw [hnone, Effect.addition, count_futuresOf_self, List.countP_append]
    omega
  · refine .inl ⟨_, hr', ?_⟩
    have hnone : (futuresOf p (Effect.runCallback f cb).addition).count f = 0 := rfl
    rw [hnone, Effect.execution, count_futuresOf_self]
    rw [← List.singleton_append, List.countP_append] at hcount
    omega
  · have hnone : (futuresOf p e.execution).count f = 0 := by
      cases e with
      | runCallback g cb => exact count_futuresOf_of_ne p cb fun h => hrun cb (by rw [h])
      | _ => rfl
    by_cases hlate : ∃ cb, e = .addCallback f cb ∧ p cb = true
    · obtain ⟨cb, rfl, hp⟩ := hlate
      refine .inr ⟨⟨cb, rfl, hp, hadd cb rfl⟩, _, hr', ?_⟩
      rw [hnone, Effect.addition, count_futuresOf_self, List.countP_singleton, if_pos hp]
      omega
    · have hsame : (futuresOf p e.addition).count f = 0 := by
        cases e with
        | addCallback g cb =>
          by_cases hg : g = f
          · rw [Effect.addition, hg, count_futuresOf_self, List.countP_singleton,
              if_neg fun hp => hlate ⟨cb, by rw [hg], hp⟩]
          · exact count_futuresOf_of_ne p cb hg
        | _ => rfl
      exact .inl ⟨_, hr', by omega⟩

/-- The action pushes the callback to the future. -/
def Adds (st : State) (a : Act) (f : FutureId) (cb : Callback) : Prop :=
  ∃ t fr k frs, a = .step t ∧ st.stackOf t = fr :: k ∧
    fr.next st = some (.addCallback f cb, frs)

/-- **What a step does to the account.** It stays, or a callback comes too late. -/
theorem Accounted.step {p : Callback → Bool} {f : FutureId} {late : Nat} {st st' : State}
    {a : Act} (h : Accounted p f late st) (hk : Keyed st) (hu : Used st)
    (hs : step st a = some st') :
    Accounted p f late st' ∨
    (∃ cb, Adds st a f cb ∧ p cb = true ∧ ¬ Open st f) ∧ Accounted p f (late + 1) st' := by
  obtain ⟨t, n, rfl, ht, rfl⟩ | ⟨t, call, -, hc⟩ | ⟨t, g, rfl, ht, hg, rfl⟩ |
    ⟨t, fr, k, e, frs, rfl, ht, hn, rfl⟩ := step_cases hs
  · obtain ⟨cbs, hr, hcount⟩ := h
    exact .inl ⟨cbs, hr.start hk ht rfl (by simp [Frame.key]) rfl (.inl rfl), hcount⟩
  · obtain ⟨ht, -, rfl⟩ := startCall_cases hc
    obtain ⟨cbs, hr, hcount⟩ := h
    refine .inl ⟨cbs, hr.start (t := t) hk ht rfl (by simp [Frame.key]) rfl ?_, hcount⟩
    by_cases hf : call.futures = [] ∧ f = .combined st.calls.length
    · obtain ⟨hnil, rfl⟩ := hf
      exact .inr ⟨hu.callbacks _ (hk.fresh _ le_rfl), by simp [State.called, hnil]⟩
    · exact .inl (by simp [State.called, hf])
  · obtain ⟨cbs, hr, hcount⟩ := h
    exact .inl ⟨cbs, hr.start hk ht rfl (by simp [Frame.key]) rfl (.inl rfl), hcount⟩
  · obtain hacc | ⟨⟨cb, rfl, hp, ho⟩, hacc⟩ := h.access hk hu ht hn
    · exact .inl hacc
    · exact .inr ⟨⟨cb, ⟨t, fr, k, frs, rfl, ht, hn⟩, hp, ho⟩, hacc⟩

/-- A future stays set. -/
theorem set_of_step {st st' : State} {a : Act} (hs : step st a = some st') {f : FutureId}
    (h : (st.shared f).set = true) : (st'.shared f).set = true := by
  obtain ⟨t, n, rfl, ht, rfl⟩ | ⟨t, call, -, hc⟩ | ⟨t, g, rfl, ht, -, rfl⟩ |
    ⟨t, fr, k, e, frs, rfl, ht, hn, rfl⟩ := step_cases hs
  · exact h
  · obtain ⟨-, -, rfl⟩ := startCall_cases hc
    simp [State.called, h]
  · exact h
  · exact apply_set_of_set t e h

/-- Only the callbacks of futures that are set have been run. -/
def RanSet (st : State) : Prop := ∀ f cb, (f, cb) ∈ st.ran → (st.shared f).set = true

theorem RanSet.step {st st' : State} {a : Act} (h : RanSet st) (hk : Keyed st)
    (hs : Future.step st a = some st') : RanSet st' := by
  intro f cb hm
  refine set_of_step hs ?_
  obtain ⟨t, n, rfl, ht, rfl⟩ | ⟨t, call, -, hc⟩ | ⟨t, g, rfl, ht, -, rfl⟩ |
    ⟨t, fr, k, e, frs, rfl, ht, hn, rfl⟩ := step_cases hs
  · exact h f cb hm
  · obtain ⟨-, -, rfl⟩ := startCall_cases hc
    exact h f cb hm
  · exact h f cb hm
  · rw [show ((st.apply t e).setStack t (frs ++ k)).ran = (st.apply t e).ran from rfl, apply_ran,
      List.mem_append] at hm
    rcases hm with hm | hm
    · exact h f cb hm
    · cases e with
      | runCallback g cb' =>
        cases List.mem_singleton.mp hm
        obtain ⟨ix, cbs, rfl, -⟩ := next_runCallback hn
        exact hk.notice (mem_keys.mpr ⟨_, mem_of_stackOf_eq ht, rfl⟩)
      | _ => cases hm

end Primitives.Future
