import Primitives.Future.WhenAll

/-!
# `whenAny`

A call of `whenAny` that finds a future set stores its index, and sets its own state after that. If
it finds none, it registers a callback with each future. A callback sets the state first, and comes
to store its index only when `notice()` has returned. So whoever sees the state set may find no index
in it, and later finds one. Where no callback comes to set the state (`NoCallbackSets`) it has the
index of a future that is set whenever it is set itself, and keeps it (`whenAny_sound`).
-/

set_option autoImplicit false

namespace Primitives.Future

open Lib

/-! ## Data -/

theorem apply_data_of_ne {st : State} {e : Effect} {f : FutureId} (t : Thread)
    (h : ∀ i, e ≠ .setData f i) : ((st.apply t e).shared f).data = (st.shared f).data := by
  cases e with
  | setData g i =>
    have hne : f ≠ g := fun heq => h i (by rw [heq])
    simp [State.apply, State.modify, hne]
  | setFlag g | lock g | unlock g | addCallback g | clear g =>
    by_cases heq : f = g <;> simp [State.apply, State.modify, heq]
  | silent | runCallback | push | ret => rfl

/-- An index is stored by the callback that has set the state, or by a check of the call. -/
theorem next_setData {st : State} {fr : Frame} {f : FutureId} {i : Nat} {frs : List Frame}
    (h : fr.next st = some (.setData f i, frs)) :
    fr = .assign f i ∨ ∃ c call locked, fr = .found c call locked i ∧ f = .combined c := by
  cases fr with
  | noticeRun g ix cbs => rcases cbs with _ | ⟨_ | _ | _, _⟩ <;> cases h
  | assign g j =>
    cases h
    exact .inl rfl
  | found c call locked j =>
    cases h
    exact .inr ⟨c, call, locked, rfl, rfl⟩
  | _ =>
    simp only [Frame.next] at h
    repeat' split at h
    all_goals cases h

/-! ## Callbacks -/

/-- The state that was set by the `setExecuted()` that the frame is a place of. -/
def Frame.publishes : Frame → Option FutureId
  | .noticeLock f _ | .noticeRun f _ _ | .noticeClear f _ | .assign f _ => some f
  | _ => none

theorem publishes_next {st : State} {fr fr' : Frame} {e : Effect} {frs : List Frame} {f : FutureId}
    (h : fr.next st = some (e, frs)) (hfr' : fr' ∈ frs) (hf : fr'.publishes = some f) :
    fr.publishes = some f ∨ ∃ ix, fr = .setExecuted f ix ∧ (st.shared f).set = false := by
  cases fr with
  | noticeRun g ix cbs =>
    rcases cbs with _ | ⟨_ | _ | _, cbs⟩ <;> cases h
    · cases List.mem_singleton.mp hfr'
      exact .inl hf
    · split at hfr'
      · rcases List.mem_pair.mp hfr' with rfl | rfl
        · cases hf
        · exact .inl hf
      · cases List.mem_singleton.mp hfr'
        exact .inl hf
    · rcases List.mem_pair.mp hfr' with rfl | rfl
      · cases hf
      · exact .inl hf
    · cases List.mem_singleton.mp hfr'
      exact .inl hf
  | setExecuted g ix =>
    simp only [Frame.next] at h
    split at h <;> cases h
    · cases hfr'
    · cases List.mem_singleton.mp hfr'
      cases hf
      exact .inr ⟨ix, rfl, (Bool.not_eq_true _).mp ‹_›⟩
  | noticeClear g ix =>
    cases h
    cases ix with
    | none => cases hfr'
    | some i =>
      cases List.mem_singleton.mp hfr'
      exact .inl hf
  | _ =>
    simp only [Frame.next] at h
    repeat' split at h
    all_goals cases h
    all_goals
      first
        | exact absurd hfr' List.not_mem_nil
        | (cases List.mem_singleton.mp hfr'
           exact .inl hf)

/-- No callback of the `c`-th call sets its state: where one comes to do it, the state is set already. -/
def NoCallbackSets (c : Nat) (st : State) (a : Act) : Prop :=
  ∀ t ix k, a = .step t → st.stackOf t = .setExecuted (.combined c) ix :: k →
    (st.shared (.combined c)).set = true

/-! ## A call -/

/-- The state that the `c`-th call returns has the index of a future that is set. -/
def HasWinner (st : State) (c : Nat) (fs : List FutureId) : Prop :=
  ∃ i f, (st.shared (.combined c)).data = some i ∧ fs[i]? = some f ∧ (st.shared f).set = true

/-- What is known at a place of the `c`-th call, of `whenAny` with the futures `fs`. -/
def Frame.AtAny (st : State) (c : Nat) (fs : List FutureId) : Frame → Prop
  | .check _ _ _ _ | .lock _ _ _ | .register _ _ _ => (st.shared (.combined c)).set = false
  | .found _ _ _ i =>
    (st.shared (.combined c)).set = false ∧ ∃ f, fs[i]? = some f ∧ (st.shared f).set = true
  | .setCombined _ _ _ => (st.shared (.combined c)).set = false ∧ HasWinner st c fs
  | _ => True

/-- What holds of the `c`-th call, of `whenAny` with the futures `fs`. -/
structure AnyInv (st : State) (c : Nat) (fs : List FutureId) : Prop where
  place : ∀ t, ∀ fr ∈ st.stackOf t, fr.key = some (.call c) → fr.AtAny st c fs
  sound : (st.shared (.combined c)).set = true → HasWinner st c fs

/-- A place of a call comes from a place of it. -/
theorem key_of_next {st : State} {fr fr' : Frame} {e : Effect} {frs : List Frame} {c : Nat}
    (h : fr.next st = some (e, frs)) (hfr' : fr' ∈ frs) (hkey : fr'.key = some (.call c)) :
    fr.key = some (.call c) := by
  have hmem : Key.call c ∈ keys frs := mem_keys.mpr ⟨fr', hfr', hkey⟩
  obtain hn | hn | ⟨f, hn, -⟩ := keys_next h
  · simp [hn] at hmem
  · rw [hn] at hmem
    exact Option.mem_toList.mp hmem
  · simp [hn] at hmem

/-- Nobody is about to store an index that a callback has. -/
def Quiet (c : Nat) (st : State) : Prop :=
  ∀ t, ∀ fr ∈ st.stackOf t, fr.publishes ≠ some (.combined c)

section Step

variable {st st' : State} {c : Nat} {fs : List FutureId}

theorem HasWinner.congr (h : HasWinner st c fs)
    (hdata : (st'.shared (.combined c)).data = (st.shared (.combined c)).data)
    (hset : ∀ f, (st.shared f).set = true → (st'.shared f).set = true) : HasWinner st' c fs := by
  obtain ⟨i, f, hi, hf, hfset⟩ := h
  exact ⟨i, f, hdata.trans hi, hf, hset f hfset⟩

theorem Frame.AtAny.congr {fr : Frame} (h : fr.AtAny st c fs)
    (hflag : (st'.shared (.combined c)).set = (st.shared (.combined c)).set)
    (hdata : (st'.shared (.combined c)).data = (st.shared (.combined c)).data)
    (hset : ∀ f, (st.shared f).set = true → (st'.shared f).set = true) : fr.AtAny st' c fs := by
  cases fr with
  | check | lock | register => exact hflag.trans h
  | found d call locked i =>
    obtain ⟨hunset, f, hf, hfset⟩ := h
    exact ⟨hflag.trans hunset, f, hf, hset f hfset⟩
  | setCombined d call locked => exact ⟨hflag.trans h.1, h.2.congr hdata hset⟩
  | _ => trivial

/-- A step that leaves the state of the call as it is, and does not come to a place of the call. -/
theorem AnyInv.congr (h : AnyInv st c fs)
    (hframes : ∀ t, ∀ fr ∈ st'.stackOf t, fr.key = some (.call c) → fr ∈ st.stackOf t)
    (hflag : (st'.shared (.combined c)).set = (st.shared (.combined c)).set)
    (hdata : (st'.shared (.combined c)).data = (st.shared (.combined c)).data)
    (hset : ∀ f, (st.shared f).set = true → (st'.shared f).set = true) : AnyInv st' c fs where
  place t fr hfr hkey := (h.place t fr (hframes t fr hfr hkey) hkey).congr hflag hdata hset
  sound hflag' := (h.sound (hflag.symm.trans hflag')).congr hdata hset

variable {t : Thread} {fr : Frame} {rest : List Frame} {e : Effect} {frs : List Frame}

theorem Quiet.access (h : Quiet c st) (hok : NoCallbackSets c st (.step t))
    (ht : st.stackOf t = fr :: rest) (hn : fr.next st = some (e, frs)) :
    Quiet c ((st.apply t e).setStack t (frs ++ rest)) := by
  intro t' fr' hfr' hpub
  obtain hm | hm := mem_of_mem_access ht hfr'
  · obtain hp | ⟨ix, rfl, hunset⟩ := publishes_next hn hm hpub
    · exact h t fr (mem_of_stackOf_eq ht) hp
    · have hset := hok t ix rest rfl ht
      rw [hunset] at hset
      cases hset
  · exact h t' fr' hm hpub

/-- A step of another than the call leaves its state as it is. -/
theorem Quiet.shared_access (h : Quiet c st) (hok : NoCallbackSets c st (.step t))
    (ht : st.stackOf t = fr :: rest) (hn : fr.next st = some (e, frs))
    (hkey : fr.key ≠ some (.call c)) :
    ((st.apply t e).shared (.combined c)).set = (st.shared (.combined c)).set ∧
      ((st.apply t e).shared (.combined c)).data = (st.shared (.combined c)).data := by
  constructor
  · rw [apply_set, Bool.or_eq_right_iff_imp]
    intro he
    cases of_decide_eq_true he
    obtain ⟨ix, rfl, -, -⟩ | ⟨d, call, locked, rfl, heq⟩ := next_setFlag hn
    · exact hok t ix rest rfl ht
    · cases heq
      exact absurd rfl hkey
  · refine apply_data_of_ne t ?_
    rintro i rfl
    obtain rfl | ⟨d, call, locked, rfl, heq⟩ := next_setData hn
    · exact h t _ (mem_of_stackOf_eq ht) rfl
    · cases heq
      exact hkey rfl

theorem AnyInv.access_of_ne (h : AnyInv st c fs) (hq : Quiet c st)
    (hok : NoCallbackSets c st (.step t)) (ht : st.stackOf t = fr :: rest)
    (hn : fr.next st = some (e, frs)) (hkey : fr.key ≠ some (.call c)) :
    AnyInv ((st.apply t e).setStack t (frs ++ rest)) c fs := by
  obtain ⟨hflag, hdata⟩ := hq.shared_access hok ht hn hkey
  refine h.congr (fun t' fr' hfr' hkey' => ?_) hflag hdata fun f => apply_set_of_set t e
  obtain hm | hm := mem_of_mem_access ht hfr'
  · exact absurd (key_of_next hn hm hkey') hkey
  · exact hm

/-- Where a place of the call stores and sets nothing, as much is known at the next one. -/
theorem Frame.AtAny.next (h : fr.AtAny st c fs) (hr : fr.Recorded st)
    (hc : st.calls[c]? = some ⟨true, fs⟩) (hn : fr.next st = some (e, frs))
    (hkey : fr.key = some (.call c)) (hdata : ∀ i, e ≠ .setData (.combined c) i)
    (hflag : e ≠ .setFlag (.combined c)) : ∀ fr' ∈ frs, fr'.AtAny st c fs := by
  cases fr with
  | check d call locked i =>
    cases hkey
    cases hr.symm.trans hc
    have hunset : (st.shared (.combined c)).set = false := h
    simp only [Frame.next] at hn
    cases hi : fs[i]? with
    | none =>
      rw [hi] at hn
      cases hn
      cases locked <;> exact List.forall_mem_singleton.mpr hunset
    | some f =>
      rw [hi] at hn
      dsimp only at hn
      split at hn
      · cases hn
        exact List.forall_mem_singleton.mpr ⟨hunset, f, hi, ‹_›⟩
      · cases hn
        exact List.forall_mem_singleton.mpr hunset
  | found d call locked i =>
    cases hkey
    cases hn
    exact absurd rfl (hdata i)
  | setCombined d call locked =>
    cases hkey
    cases hn
    exact absurd rfl hflag
  | lock d call i =>
    cases hkey
    have hunset : (st.shared (.combined c)).set = false := h
    simp only [Frame.next] at hn
    split at hn
    · cases hn
      exact List.forall_mem_singleton.mpr hunset
    · split at hn <;> cases hn
      exact List.forall_mem_singleton.mpr hunset
  | register d call i =>
    cases hkey
    have hunset : (st.shared (.combined c)).set = false := h
    simp only [Frame.next] at hn
    split at hn <;> cases hn
    · exact List.forall_mem_singleton.mpr trivial
    · exact List.forall_mem_singleton.mpr hunset
  | unlock d call i =>
    simp only [Frame.next] at hn
    split at hn <;> cases hn <;> exact List.forall_mem_singleton.mpr trivial
  | ret d =>
    cases hn
    exact List.forall_mem_nil _
  | _ => cases hkey

/-- A step of the call. -/
theorem AnyInv.access_of_eq (h : AnyInv st c fs) (hk : Keyed st) (hr : fr.Recorded st)
    (hc : st.calls[c]? = some ⟨true, fs⟩) (ht : st.stackOf t = fr :: rest)
    (hn : fr.next st = some (e, frs)) (hkey : fr.key = some (.call c)) :
    AnyInv ((st.apply t e).setStack t (frs ++ rest)) c fs := by
  have hat : fr.AtAny st c fs := h.place t fr (mem_of_stackOf_eq ht) hkey
  have hplace : (∀ fr' ∈ frs, fr'.AtAny (st.apply t e) c fs) → ∀ t', ∀ fr' ∈
      ((st.apply t e).setStack t (frs ++ rest)).stackOf t', fr'.key = some (.call c) →
        fr'.AtAny ((st.apply t e).setStack t (frs ++ rest)) c fs := fun hall t' fr' hfr' hkey' =>
    (hall fr' (hk.mem_of_access ht hkey hfr' hkey')).congr rfl rfl fun _ => id
  have hset : ∀ f, (st.shared f).set = true → ((st.apply t e).shared f).set = true :=
    fun f => apply_set_of_set t e
  by_cases hdata : ∃ i, e = .setData (.combined c) i
  · obtain ⟨i, rfl⟩ := hdata
    obtain rfl | ⟨d, call, locked, rfl, -⟩ := next_setData hn
    · cases hkey
    -- the index of a future that is set is stored
    cases hkey
    cases hn
    obtain ⟨hunset, f, hf, hfset⟩ := hat
    have hflag : ((st.apply t (.setData (.combined c) i)).shared (.combined c)).set = false := by
      rw [apply_set, hunset]
      rfl
    have hstored : ((st.apply t (.setData (.combined c) i)).shared (.combined c)).data = some i := by
      simp [State.apply, State.modify]
    refine ⟨hplace (List.forall_mem_singleton.mpr ?_), fun hs => ?_⟩
    · exact ⟨hflag, i, f, hstored, hf, hset f hfset⟩
    · rw [setStack_shared, hflag] at hs
      cases hs
  have hdata' : ((st.apply t e).shared (.combined c)).data = (st.shared (.combined c)).data :=
    apply_data_of_ne t fun i he => hdata ⟨i, he⟩
  by_cases hflag : e = .setFlag (.combined c)
  · subst hflag
    obtain ⟨ix, rfl, -, -⟩ | ⟨d, call, locked, rfl, -⟩ := next_setFlag hn
    · cases hkey
    -- the state is set, with the index that was stored
    cases hkey
    cases hn
    refine ⟨hplace ?_, fun _ => hat.2.congr hdata' hset⟩
    cases locked <;> exact List.forall_mem_singleton.mpr trivial
  · have hflag' : ((st.apply t e).shared (.combined c)).set = (st.shared (.combined c)).set := by
      rw [apply_set, decide_eq_false hflag, Bool.false_or]
    have hnext := hat.next hr hc hn hkey (fun i he => hdata ⟨i, he⟩) hflag
    refine ⟨hplace fun fr' hm => (hnext fr' hm).congr hflag' hdata' hset, fun hs => ?_⟩
    exact (h.sound (hflag'.symm.trans hs)).congr hdata' hset

/-- An operation is started elsewhere. -/
theorem Quiet.start (h : Quiet c st) (hstacks : st'.stackOf = Function.update st.stackOf t [fr])
    (hpub : fr.publishes = none) : Quiet c st' := by
  intro t' fr' hfr' hf
  obtain ⟨-, rfl⟩ | hm := mem_of_mem_start hstacks hfr'
  · rw [hpub] at hf
    cases hf
  · exact h t' fr' hm hf

theorem AnyInv.start (h : AnyInv st c fs) (hstacks : st'.stackOf = Function.update st.stackOf t [fr])
    (hkey : fr.key ≠ some (.call c))
    (hflag : (st'.shared (.combined c)).set = (st.shared (.combined c)).set)
    (hdata : (st'.shared (.combined c)).data = (st.shared (.combined c)).data)
    (hset : ∀ f, (st.shared f).set = true → (st'.shared f).set = true) : AnyInv st' c fs := by
  refine h.congr (fun t' fr' hfr' hkey' => ?_) hflag hdata hset
  obtain ⟨-, rfl⟩ | hm := mem_of_mem_start hstacks hfr'
  · exact absurd hkey' hkey
  · exact hm

end Step

/-- What holds along a run without a callback that sets the state of the `c`-th call. -/
structure Anys (c : Nat) (st : State) : Prop where
  quiet : Quiet c st
  call : ∀ fs, st.calls[c]? = some ⟨true, fs⟩ → fs ≠ [] → AnyInv st c fs

theorem Anys.init (c : Nat) : Anys c State.init := by
  refine ⟨fun t fr hfr => absurd hfr List.not_mem_nil, fun fs hc => ?_⟩
  cases hc

/-- The state of a call that is being made is not set. -/
theorem AnyInv.called {st : State} (h : Whens st) {t : Thread} {fs : List FutureId} (hne : fs ≠ []) :
    AnyInv (st.called t ⟨true, fs⟩) st.calls.length fs := by
  have hunset : ((st.called t ⟨true, fs⟩).shared (.combined st.calls.length)).set = false := by
    have hold := (h.uncalled st.calls.length (List.getElem?_eq_none le_rfl)).2
    simp [State.called, hold, hne]
  refine ⟨fun t' fr hfr hkey => ?_, fun hset => ?_⟩
  · obtain ⟨-, rfl⟩ | hm := mem_of_mem_start rfl hfr
    · exact hunset
    · have hlt := (h.accounts.keyed.call (mem_keys.mpr ⟨fr, hm, hkey⟩)).1
      exact absurd hlt (Nat.lt_irrefl _)
  · rw [hunset] at hset
    cases hset

theorem Anys.step {c : Nat} {st st' : State} {a : Act} (h : Anys c st) (hw : Whens st)
    (hok : NoCallbackSets c st a) (hs : step st a = some st') : Anys c st' := by
  obtain ⟨t, n, rfl, ht, rfl⟩ | ⟨t, call, -, hcall⟩ | ⟨t, f, rfl, ht, -, rfl⟩ |
    ⟨t, fr, k, e, frs, rfl, ht, hn, rfl⟩ := step_cases hs
  · refine ⟨h.quiet.start rfl rfl, fun fs hc hne => ?_⟩
    exact (h.call fs hc hne).start rfl (fun hkey => by cases hkey) rfl rfl fun _ => id
  · obtain ⟨ht, -, rfl⟩ := startCall_cases hcall
    refine ⟨h.quiet.start rfl rfl, fun fs hc hne => ?_⟩
    have hc' : (st.calls ++ [call])[c]? = some ⟨true, fs⟩ := hc
    obtain hlt | hle := Nat.lt_or_ge c st.calls.length
    · rw [List.getElem?_append_left hlt] at hc'
      refine (h.call fs hc' hne).start rfl (fun hkey => ?_) ?_ rfl fun f hset => ?_
      · cases hkey
        exact Nat.lt_irrefl _ hlt
      · simp [State.called, hlt.ne]
      · simp [State.called, hset]
    · -- the call is this one
      rw [List.getElem?_append_right hle] at hc'
      have hzero := (List.getElem?_eq_some_iff.mp hc').1
      rw [List.length_singleton] at hzero
      obtain rfl : c = st.calls.length := by omega
      rw [Nat.sub_self] at hc'
      cases hc'
      exact .called hw hne
  · refine ⟨h.quiet.start rfl rfl, fun fs hc hne => ?_⟩
    exact (h.call fs hc hne).start rfl (fun hkey => by cases hkey) rfl rfl fun _ => id
  · refine ⟨h.quiet.access hok ht hn, fun fs hc hne => ?_⟩
    have hc' : st.calls[c]? = some ⟨true, fs⟩ := (congrArg (·[c]?) (apply_calls st t e)).symm.trans hc
    have hinv := h.call fs hc' hne
    by_cases hkey : fr.key = some (.call c)
    · have hr := hw.recorded.frames t fr (mem_of_stackOf_eq ht)
      exact hinv.access_of_eq hw.accounts.keyed hr hc' ht hn hkey
    · exact hinv.access_of_ne h.quiet hok ht hn hkey

theorem anys {c : Nat} {st : State} (h : Run step (NoCallbackSets c) State.init st) : Anys c st := by
  induction h with
  | refl => exact .init c
  | tail hrun hok hs ih => exact ih.step (whens hrun) hok hs

/-- The index is not stored again. -/
theorem Anys.data_step {c : Nat} {st st' : State} {a : Act} (h : Anys c st)
    (hs : Future.step st a = some st') {fs : List FutureId} (hc : st.calls[c]? = some ⟨true, fs⟩)
    (hne : fs ≠ [])
    (hset : (st.shared (.combined c)).set = true) :
    (st'.shared (.combined c)).data = (st.shared (.combined c)).data := by
  obtain ⟨t, n, rfl, ht, rfl⟩ | ⟨t, call, -, hcall⟩ | ⟨t, f, rfl, ht, -, rfl⟩ |
    ⟨t, fr, k, e, frs, rfl, ht, hn, rfl⟩ := step_cases hs
  · rfl
  · obtain ⟨ht, -, rfl⟩ := startCall_cases hcall
    rfl
  · rfl
  · refine apply_data_of_ne t ?_
    rintro i rfl
    have hacts : fr ∈ st.stackOf t := mem_of_stackOf_eq ht
    obtain rfl | ⟨d, call, locked, rfl, heq⟩ := next_setData hn
    · exact h.quiet t _ hacts rfl
    · cases heq
      have hunset := ((h.call fs hc hne).place t _ hacts rfl).1
      rw [hset] at hunset
      cases hunset

theorem data_of_run {c : Nat} {st st' : State} (h : Run step (NoCallbackSets c) State.init st)
    (h' : Run step (NoCallbackSets c) st st') {fs : List FutureId}
    (hc : st.calls[c]? = some ⟨true, fs⟩) (hne : fs ≠ [])
    (hset : (st.shared (.combined c)).set = true) :
    (st'.shared (.combined c)).data = (st.shared (.combined c)).data := by
  suffices key : st'.calls[c]? = some ⟨true, fs⟩ ∧ (st'.shared (.combined c)).set = true ∧
      (st'.shared (.combined c)).data = (st.shared (.combined c)).data from key.2.2
  induction h' with
  | refl => exact ⟨hc, hset, rfl⟩
  | tail hrun _ hs ih =>
    obtain ⟨hc', hset', hdata⟩ := ih
    refine ⟨calls_of_step hs hc', set_of_step hs hset', ?_⟩
    exact ((anys (h.trans hrun)).data_step hs hc' hne hset').trans hdata

/-- **`whenAny`.** Where no callback comes to set the state that it returns, this has the index of a
future that is set whenever it is set itself, and keeps it. -/
theorem whenAny_sound {c : Nat} {st : State} (h : Run step (NoCallbackSets c) State.init st)
    {fs : List FutureId} (hc : st.calls[c]? = some ⟨true, fs⟩) (hne : fs ≠ [])
    (hset : (st.shared (.combined c)).set = true) :
    (∃ i f, (st.shared (.combined c)).data = some i ∧ fs[i]? = some f ∧ (st.shared f).set = true) ∧
    ∀ st', Run step (NoCallbackSets c) st st' →
      (st'.shared (.combined c)).data = (st.shared (.combined c)).data :=
  ⟨((anys h).call fs hc hne).sound hset, fun _ h' => data_of_run h h' hc hne hset⟩

/-- A test that a step is not the one of a callback that sets a state. -/
def setsNothing (st : State) : Act → Bool
  | .step t =>
    match st.stackOf t with
    | .setExecuted (.combined c) _ :: _ => (st.shared (.combined c)).set
    | _ => true
  | _ => true

theorem noCallbackSets_of_setsNothing {c : Nat} {st : State} {a : Act} (h : setsNothing st a = true) :
    NoCallbackSets c st a := by
  rintro t ix k rfl ht
  simpa only [setsNothing, ht] using h

/-- The second of two futures completed before the call. -/
theorem whenAny_sound_one_before :
    ∃ st, st.calls = [⟨true, [.task 0, .task 1]⟩] ∧ (st.shared (.combined 0)).data = some 1 ∧
      (∃ i f, (st.shared (.combined 0)).data = some i ∧ [FutureId.task 0, .task 1][i]? = some f ∧
        (st.shared f).set = true) ∧
      ∀ st', Run step (NoCallbackSets 0) st st' →
        (st'.shared (.combined 0)).data = (st.shared (.combined 0)).data := by
  obtain ⟨st, hrun, hp⟩ := exists_run_of_exec step setsNothing State.init
    ([.complete 1 1] ++ List.replicate 4 (.step 1) ++ [.whenAny 1 [.task 0, .task 1]] ++
      List.replicate 5 (.step 1))
    (fun st => decide (st.calls = [⟨true, [.task 0, .task 1]⟩] ∧
      (st.shared (.combined 0)).data = some 1 ∧ (st.shared (.combined 0)).set = true)) (by decide)
  obtain ⟨hcalls, hdata, hset⟩ := of_decide_eq_true hp
  have hrun' : Run step (NoCallbackSets 0) State.init st := hrun.mono noCallbackSets_of_setsNothing
  exact ⟨st, hcalls, hdata, whenAny_sound hrun' (by rw [hcalls]; rfl) (List.cons_ne_nil _ _) hset⟩

/-- The future completes after the call: the state is set without an index, and gets one later. -/
theorem whenAny_set_without_data :
    ∃ st st', Reachable step State.init st ∧ st.calls = [⟨true, [.task 0]⟩] ∧
      (st.shared (.combined 0)).set = true ∧ (st.shared (.combined 0)).data = none ∧
      Reachable step st st' ∧ (st'.shared (.combined 0)).data = some 0 := by
  obtain ⟨st, u, st', hrun, hs, hrun', hp⟩ := exists_runs_of_exec step (fun _ _ => true)
    (fun _ _ => true) State.init
    ([.whenAny 1 [.task 0]] ++ List.replicate 9 (.step 1) ++ [.complete 2 0] ++
      List.replicate 4 (.step 2)) (.step 2) (List.replicate 3 (.step 2))
    (fun st st' => decide (st.calls = [⟨true, [.task 0]⟩] ∧ (st.shared (.combined 0)).set = true ∧
      (st.shared (.combined 0)).data = none ∧ (st'.shared (.combined 0)).data = some 0)) (by decide)
  obtain ⟨hcalls, hset, hdata, hdata'⟩ := of_decide_eq_true hp
  exact ⟨st, st', hrun.reachable, hcalls, hset, hdata, .head trivial hs hrun'.reachable, hdata'⟩

end Primitives.Future
