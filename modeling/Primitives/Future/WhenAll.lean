import Primitives.Future.Callbacks

/-!
# `whenAll`

A call of `whenAll` either finds all its futures set, and sets its state itself, or registers one
callback with each of them. The callback that is run last sets the state, so the state is set
only after all futures are (`whenAll_sound`).

It is set at all only if all callbacks are run. A future that completed before the call may have
been noticed already, and then its callback is registered too late. Where that never happens
(`RegistersOpen`) the state is set once all futures are (`whenAll_correct`).
-/

set_option autoImplicit false

namespace Primitives.Future

open Lib

/-! ## The counter -/

/-- The callbacks of the `c`-th call, of `whenAll`. -/
def isAll (c : Nat) : Callback → Bool
  | .all d _ => d = c
  | _ => false

/-- The account of the callbacks of every call, some of which may come too late. -/
structure Accounts (st : State) : Prop where
  keyed : Keyed st
  used : Used st
  ran : RanSet st
  accounted : ∀ c f, ∃ late, Accounted (isAll c) f late st
  ac : ∀ c, st.ac c = (futuresOf (isAll c) st.ran).length

theorem Accounts.init : Accounts State.init where
  keyed := .init
  used := ⟨by simp [State.init], by simp [State.init]⟩
  ran := nofun
  accounted := fun c f => ⟨0, .init (isAll c) f⟩
  ac := fun _ => rfl

theorem apply_ac (st : State) (t : Thread) (e : Effect) (c : Nat) :
    (st.apply t e).ac c = st.ac c + (futuresOf (isAll c) e.execution).length := by
  cases e with
  | runCallback f cb =>
    cases cb with
    | all d max =>
      by_cases h : c = d
      · subst h
        simp [State.apply, Effect.execution, isAll]
      · simp [State.apply, Effect.execution, isAll, h, Ne.symm h]
    | _ => simp [State.apply, Effect.execution, isAll]
  | _ => rfl

theorem Accounts.step {st st' : State} {a : Act} (h : Accounts st) (hs : step st a = some st') :
    Accounts st' where
  keyed := h.keyed.step hs
  used := h.used.step hs
  ran := h.ran.step h.keyed hs
  accounted := by
    intro c f
    obtain ⟨late, hacc⟩ := h.accounted c f
    obtain hacc' | ⟨-, hacc'⟩ := hacc.step h.keyed h.used hs
    · exact ⟨late, hacc'⟩
    · exact ⟨late + 1, hacc'⟩
  ac := by
    intro c
    obtain ⟨t, n, rfl, ht, rfl⟩ | ⟨t, call, -, hc⟩ | ⟨t, g, rfl, ht, -, rfl⟩ |
      ⟨t, fr, k, e, frs, rfl, ht, hn, rfl⟩ := step_cases hs
    · exact h.ac c
    · obtain ⟨-, -, rfl⟩ := startCall_cases hc
      exact h.ac c
    · exact h.ac c
    · show (st.apply t e).ac c = (futuresOf (isAll c) (st.apply t e).ran).length
      rw [apply_ac, apply_ran, futuresOf_append, List.length_append, h.ac c]

theorem Accounts.ran_subperm {st : State} (h : Accounts st) (c : Nat) :
    (futuresOf (isAll c) st.ran).Subperm (futuresOf (isAll c) st.added) := by
  refine List.subperm_ext_iff.mpr fun f _ => ?_
  obtain ⟨late, hacc⟩ := h.accounted c f
  exact hacc.count_le

/-! ## A call -/

def AllSet (st : State) (fs : List FutureId) : Prop := ∀ f ∈ fs, (st.shared f).set = true

/-- The call has set its state, or has registered its callbacks. -/
def Decided (st : State) (c : Nat) (fs : List FutureId) : Prop :=
  ((st.shared (.combined c)).set = true ∧ futuresOf (isAll c) st.added = []) ∨
  futuresOf (isAll c) st.added = fs

/-- What is known at a place of the `c`-th call, of `whenAll` with the futures `fs`. -/
def Frame.AtCall (st : State) (c : Nat) (fs : List FutureId) : Frame → Prop
  | .check _ _ _ i => futuresOf (isAll c) st.added = [] ∧ AllSet st (fs.take i)
  | .found _ _ _ _ => False
  | .setCombined _ _ _ => futuresOf (isAll c) st.added = [] ∧ AllSet st fs
  | .lock _ _ _ => futuresOf (isAll c) st.added = []
  | .register _ _ i => futuresOf (isAll c) st.added = fs.take i
  | .unlock _ _ _ | .ret _ => Decided st c fs
  | _ => True

/-- The `c`-th call is at a place or has returned. -/
inductive CallInv (st : State) (c : Nat) (fs : List FutureId) : Prop
  | within {t : Thread} {fr : Frame} : fr ∈ st.stackOf t → fr.key = some (.call c) →
      fr.AtCall st c fs → CallInv st c fs
  | returned : (∀ t, .call c ∉ keys (st.stackOf t)) → Decided st c fs → CallInv st c fs

/-- The futures that were given a callback are the first of the list. -/
theorem CallInv.added_sublist {st : State} {c : Nat} {fs : List FutureId}
    (h : CallInv st c fs) : (futuresOf (isAll c) st.added).Sublist fs := by
  have hdecided : Decided st c fs → (futuresOf (isAll c) st.added).Sublist fs := by
    rintro (⟨-, hadded⟩ | hadded)
    · rw [hadded]
      exact List.nil_sublist fs
    · rw [hadded]
  cases h with
  | @within t fr _ hkey hat =>
    cases fr with
    | check | setCombined =>
      rw [hat.1]
      exact List.nil_sublist fs
    | found => exact hat.elim
    | lock =>
      rw [show futuresOf (isAll c) st.added = [] from hat]
      exact List.nil_sublist fs
    | register d call i =>
      rw [show futuresOf (isAll c) st.added = fs.take i from hat]
      exact List.take_sublist i fs
    | unlock | ret => exact hdecided hat
    | _ => cases hkey
  | returned _ hd => exact hdecided hd

/-! ## What callbacks and frames were given -/

/-- The call that a callback was registered by. -/
def Callback.Recorded (calls : List Call) : Callback → Prop
  | .all c max => ∃ fs, calls[c]? = some ⟨false, fs⟩ ∧ fs.length = max + 1
  | .any c _ => ∃ fs, calls[c]? = some ⟨true, fs⟩
  | .push _ => True

/-- The call that a frame belongs to. A state is completed by a callback of its call, and where
that is a call of `whenAll`, its futures are set. -/
def Frame.Recorded (st : State) : Frame → Prop
  | .check c call _ _ | .found c call _ _ | .setCombined c call _ => st.calls[c]? = some call
  | .lock c call _ | .register c call _ | .unlock c call _ => st.calls[c]? = some call
  | .noticeRun _ _ cbs => ∀ cb ∈ cbs, cb.Recorded st.calls
  | .setExecuted (.combined c) _ =>
    ∃ call, st.calls[c]? = some call ∧ (call.any = false → AllSet st call.futures)
  | _ => True

structure Recorded (st : State) : Prop where
  frames : ∀ t, ∀ fr ∈ st.stackOf t, fr.Recorded st
  callbacks : ∀ f, ∀ cb ∈ (st.shared f).callbacks, cb.Recorded st.calls

theorem Callback.Recorded.mono {cb : Callback} {calls calls' : List Call}
    (h : cb.Recorded calls)
    (hle : ∀ {c : Nat} {call : Call}, calls[c]? = some call → calls'[c]? = some call) :
    cb.Recorded calls' := by
  cases cb with
  | all c max =>
    obtain ⟨fs, hc, hlen⟩ := h
    exact ⟨fs, hle hc, hlen⟩
  | any c i =>
    obtain ⟨fs, hc⟩ := h
    exact ⟨fs, hle hc⟩
  | push k => trivial

theorem AllSet.step {st st' : State} {a : Act} {fs : List FutureId} (h : AllSet st fs)
    (hs : step st a = some st') : AllSet st' fs := fun f hf => set_of_step hs (h f hf)

theorem calls_of_step {st st' : State} {a : Act} (hs : step st a = some st') {c : Nat}
    {call : Call} (h : st.calls[c]? = some call) : st'.calls[c]? = some call := by
  obtain ⟨t, n, rfl, ht, rfl⟩ | ⟨t, call', -, hc⟩ | ⟨t, g, rfl, ht, -, rfl⟩ |
    ⟨t, fr, k, e, frs, rfl, ht, hn, rfl⟩ := step_cases hs
  · exact h
  · obtain ⟨-, -, rfl⟩ := startCall_cases hc
    exact List.getElem?_append_left (List.getElem?_eq_some_iff.mp h).1 |>.trans h
  · exact h
  · show (st.apply t e).calls[c]? = some call
    rw [apply_calls, h]

theorem Frame.Recorded.step {st st' : State} {fr : Frame} {a : Act} (h : fr.Recorded st)
    (hs : Future.step st a = some st') : fr.Recorded st' := by
  have hle : ∀ {c : Nat} {call : Call}, st.calls[c]? = some call → st'.calls[c]? = some call :=
    calls_of_step hs
  cases fr with
  | setExecuted f ix =>
    cases f with
    | task n => trivial
    | combined c =>
      obtain ⟨call, hc, hset⟩ := h
      exact ⟨call, hle hc, fun hany => (hset hany).step hs⟩
  | noticeRun f ix cbs =>
    intro cb hcb
    have hcb' : cb.Recorded st.calls := h cb hcb
    exact hcb'.mono hle
  | check | found | setCombined | lock | register | unlock => exact hle h
  | _ => trivial

/-- A frame is replaced by frames of the same call, or runs a callback. -/
theorem recorded_next {st : State} {fr : Frame} {e : Effect} {frs : List Frame}
    (hn : fr.next st = some (e, frs)) (h : fr.Recorded st)
    (hcb : ∀ f, ∀ cb ∈ (st.shared f).callbacks, cb.Recorded st.calls) :
    ∀ fr' ∈ frs, fr'.Recorded st ∨ ∃ f c max, e = .runCallback f (.all c max) ∧
      st.ac c = max ∧ fr' = .setExecuted (.combined c) none := by
  cases fr with
  | noticeRun f ix cbs =>
    cases cbs with
    | nil =>
      cases hn
      intro fr' hm
      cases List.mem_singleton.mp hm
      exact .inl trivial
    | cons cb cbs =>
      obtain ⟨hcb, hcbs⟩ := List.forall_mem_cons.mp h
      cases cb with
      | all c max =>
        simp only [Frame.next, Option.some.injEq, Prod.mk.injEq] at hn
        obtain ⟨rfl, rfl⟩ := hn
        intro fr' hm
        split at hm
        · rcases List.mem_pair.mp hm with rfl | rfl
          · exact .inr ⟨f, c, max, rfl, ‹_›, rfl⟩
          · exact .inl hcbs
        · cases List.mem_singleton.mp hm
          exact .inl hcbs
      | any c i =>
        cases hn
        intro fr' hm
        rcases List.mem_pair.mp hm with rfl | rfl
        · obtain ⟨fs, hc⟩ := hcb
          exact .inl ⟨_, hc, by simp⟩
        · exact .inl hcbs
      | push k =>
        cases hn
        intro fr' hm
        cases List.mem_singleton.mp hm
        exact .inl hcbs
  | noticeLock f ix =>
    simp only [Frame.next] at hn
    split at hn <;> cases hn
    intro fr' hm
    cases List.mem_singleton.mp hm
    exact .inl (hcb f)
  | _ =>
    simp only [Frame.next] at hn
    repeat' split at hn
    all_goals cases hn
    all_goals
      intro fr' hm
      first
        | exact absurd hm List.not_mem_nil
        | (cases List.mem_singleton.mp hm; exact .inl h)
        | (cases List.mem_singleton.mp hm; exact .inl trivial)

/-- A callback is registered by the call of the frame. -/
theorem recorded_of_addCallback {st : State} {fr : Frame} {f : FutureId} {cb : Callback}
    {frs : List Frame} (hn : fr.next st = some (.addCallback f cb, frs)) (h : fr.Recorded st) :
    cb.Recorded st.calls := by
  cases fr with
  | noticeRun g ix cbs => rcases cbs with _ | ⟨_ | _ | _, _⟩ <;> cases hn
  | register c call i =>
    obtain ⟨any, fs⟩ := call
    simp only [Frame.next] at hn
    split at hn <;> cases hn
    have hi : fs[i]? = some f := ‹_›
    cases any with
    | false =>
      have hpos : 0 < fs.length := Nat.zero_lt_of_lt (List.getElem?_eq_some_iff.mp hi).1
      exact ⟨fs, h, (Nat.sub_add_cancel hpos).symm⟩
    | true => exact ⟨fs, h⟩
  | thenRegister k g =>
    cases hn
    trivial
  | _ =>
    simp only [Frame.next] at hn
    repeat' split at hn
    all_goals cases hn

/-! ## A call takes a step -/

theorem next_addAll {st : State} {fr : Frame} {c : Nat} {f : FutureId} {cb : Callback}
    {frs : List Frame} (h : fr.next st = some (.addCallback f cb, frs))
    (hcb : isAll c cb = true) : ∃ call i, fr = .register c call i ∧ call.futures[i]? = some f := by
  cases fr with
  | noticeRun g ix cbs => rcases cbs with _ | ⟨_ | _ | _, _⟩ <;> cases h
  | register d call i =>
    simp only [Frame.next, Call.callback] at h
    split at h <;> cases h
    split at hcb
    · cases hcb
    · cases of_decide_eq_true hcb
      exact ⟨call, i, rfl, ‹_›⟩
  | thenRegister k g =>
    cases h
    cases hcb
  | _ =>
    simp only [Frame.next] at h
    repeat' split at h
    all_goals cases h

section Call

variable {st st' : State} {c : Nat} {fs : List FutureId}

/-- A step in which the call has no part. -/
theorem CallInv.keep (h : CallInv st c fs)
    (hframes : ∀ t fr, fr ∈ st.stackOf t → fr.key = some (.call c) → fr ∈ st'.stackOf t)
    (hkeys : (∀ t, .call c ∉ keys (st.stackOf t)) → ∀ t, .call c ∉ keys (st'.stackOf t))
    (hadded : futuresOf (isAll c) st'.added = futuresOf (isAll c) st.added)
    (hset : ∀ f, (st.shared f).set = true → (st'.shared f).set = true) : CallInv st' c fs := by
  have hall : ∀ {fs}, AllSet st fs → AllSet st' fs := fun h f hf => hset f (h f hf)
  have hdecided : Decided st c fs → Decided st' c fs := by
    intro hd
    unfold Decided
    rw [hadded]
    exact hd.imp_left fun h => ⟨hset _ h.1, h.2⟩
  cases h with
  | @within t fr hfr hkey hat =>
    refine .within (hframes t fr hfr hkey) hkey ?_
    cases fr with
    | check d call locked i => exact ⟨by rw [hadded, hat.1], hall hat.2⟩
    | found => exact hat.elim
    | setCombined d call locked => exact ⟨by rw [hadded, hat.1], hall hat.2⟩
    | lock d call i => exact hadded.trans hat
    | register d call i => exact hadded.trans hat
    | unlock d call i => exact hdecided hat
    | ret d => exact hdecided hat
    | _ => trivial
  | returned hkeys' hd => exact .returned (hkeys hkeys') (hdecided hd)

theorem apply_added_isAll {t : Thread} {fr : Frame} {e : Effect} {frs : List Frame}
    (hn : fr.next st = some (e, frs)) (hkey : ∀ call i, fr ≠ .register c call i) :
    futuresOf (isAll c) (st.apply t e).added = futuresOf (isAll c) st.added := by
  rw [apply_added, futuresOf_append]
  cases e with
  | addCallback f cb =>
    have hcb : isAll c cb = false := by
      by_contra hne
      obtain ⟨call, i, hfr, -⟩ := next_addAll hn (eq_true_of_ne_false hne)
      exact hkey call i hfr
    simp [Effect.addition, futuresOf, hcb]
  | _ => exact List.append_nil _

variable {t : Thread} {fr : Frame} {rest : List Frame} {e : Effect} {frs : List Frame}

/-- A step of another than the call. -/
theorem CallInv.access_of_ne (h : CallInv st c fs) (ht : st.stackOf t = fr :: rest)
    (hn : fr.next st = some (e, frs)) (hkey : fr.key ≠ some (.call c)) :
    CallInv ((st.apply t e).setStack t (frs ++ rest)) c fs := by
  refine h.keep ?_ (absent_access ht hn nofun) ?_ fun f => apply_set_of_set t e
  · intro t' fr' hfr' hkey'
    refine mem_access_of_ne ht hfr' ?_
    rintro rfl
    exact hkey hkey'
  · refine apply_added_isAll hn fun call i hfr => ?_
    rw [hfr] at hkey
    exact hkey rfl

/-- A check: one more future is set, or the call goes on to its callbacks. -/
theorem CallInv.check {locked : Bool} {i : Nat}
    (hat : (Frame.check c ⟨false, fs⟩ locked i).AtCall st c fs)
    (hn : (Frame.check c ⟨false, fs⟩ locked i).next st = some (e, frs)) :
    CallInv ((st.apply t e).setStack t (frs ++ rest)) c fs := by
  obtain ⟨hadded, hset⟩ := hat
  simp only [Frame.next] at hn
  cases hi : fs[i]? with
  | none =>
    rw [hi] at hn
    cases hn
    rw [List.take_of_length_le (List.getElem?_eq_none_iff.mp hi)] at hset
    exact .within (mem_head_access ..) rfl ⟨hadded, hset⟩
  | some f =>
    rw [hi] at hn
    dsimp only at hn
    split at hn
    · cases hn
      refine .within (mem_head_access ..) rfl ⟨hadded, ?_⟩
      rw [List.take_add_one, hi]
      exact List.forall_mem_append.mpr ⟨hset, by simpa using ‹_›⟩
    · cases locked with
      | false =>
        cases hn
        exact .within (mem_head_access ..) rfl hadded
      | true =>
        cases hn
        exact .within (mem_head_access ..) rfl hadded

/-- A callback: one more future has it. -/
theorem CallInv.register {i : Nat} (hat : (Frame.register c ⟨false, fs⟩ i).AtCall st c fs)
    (hn : (Frame.register c ⟨false, fs⟩ i).next st = some (e, frs)) :
    CallInv ((st.apply t e).setStack t (frs ++ rest)) c fs := by
  have hadded : futuresOf (isAll c) st.added = fs.take i := hat
  simp only [Frame.next] at hn
  cases hi : fs[i]? with
  | none =>
    rw [hi] at hn
    cases hn
    rw [List.take_of_length_le (List.getElem?_eq_none_iff.mp hi)] at hadded
    exact .within (mem_head_access ..) rfl (.inr hadded)
  | some f =>
    rw [hi] at hn
    cases hn
    refine .within (mem_head_access ..) rfl ?_
    show futuresOf (isAll c) (st.added ++ [(f, .all c (fs.length - 1))]) = fs.take (i + 1)
    rw [futuresOf_append, hadded, List.take_add_one, hi]
    simp [futuresOf, isAll]

/-- A step of the call. -/
theorem CallInv.access_of_eq (h : CallInv st c fs) (hk : Keyed st) (hr : fr.Recorded st)
    (hc : st.calls[c]? = some ⟨false, fs⟩) (ht : st.stackOf t = fr :: rest)
    (hn : fr.next st = some (e, frs)) (hkey : fr.key = some (.call c)) :
    CallInv ((st.apply t e).setStack t (frs ++ rest)) c fs := by
  have hacts : fr ∈ st.stackOf t := mem_of_stackOf_eq ht
  -- the frame that acts is the place of the call
  have hat : fr.AtCall st c fs := by
    cases h with
    | within hfr' hkey' hat => exact hk.unique hacts hkey hfr' hkey' ▸ hat
    | returned hkeys => exact absurd (mem_keys.mpr ⟨fr, hacts, hkey⟩) (hkeys t)
  cases fr with
  | check d call locked i =>
    cases hkey
    cases hr.symm.trans hc
    exact .check hat hn
  | found => exact hat.elim
  | setCombined d call locked =>
    cases hkey
    cases hn
    have hdecided : Decided (st.apply t (.setFlag (.combined c))) c fs :=
      .inl ⟨by simp [apply_set], hat.1⟩
    cases locked with
    | false => exact .within (mem_head_access ..) rfl hdecided
    | true => exact .within (mem_head_access ..) rfl hdecided
  | lock d call i =>
    cases hkey
    have hadded : futuresOf (isAll c) st.added = [] := hat
    simp only [Frame.next] at hn
    split at hn
    · cases hn
      refine .within (mem_head_access ..) rfl ⟨hadded, fun f hf => ?_⟩
      simp at hf
    · split at hn <;> cases hn
      exact .within (mem_head_access ..) rfl hadded
  | register d call i =>
    cases hkey
    cases hr.symm.trans hc
    exact .register hat hn
  | unlock d call i =>
    cases hkey
    have hdecided : Decided st c fs := hat
    simp only [Frame.next] at hn
    cases hi : call.futures[i]? with
    | none =>
      rw [hi] at hn
      cases hn
      exact .within (mem_head_access ..) rfl hdecided
    | some f =>
      rw [hi] at hn
      cases hn
      exact .within (mem_head_access ..) rfl
        (hdecided.imp_left fun h => ⟨apply_set_of_set t (.unlock f) h.1, h.2⟩)
  | ret d =>
    cases hkey
    cases hn
    exact .returned (hk.gone ht rfl rfl) hat
  | _ => cases hkey

end Call

/-- What holds of the calls in every reachable state: where each call of `whenAll` is, that its
state is set only after its futures, and that it is once the counter has passed them all. -/
structure Whens (st : State) : Prop where
  accounts : Accounts st
  recorded : Recorded st
  calls : ∀ c fs, st.calls[c]? = some ⟨false, fs⟩ → CallInv st c fs
  sound : ∀ c fs, st.calls[c]? = some ⟨false, fs⟩ →
    (st.shared (.combined c)).set = true → AllSet st fs
  counted : ∀ c fs, st.calls[c]? = some ⟨false, fs⟩ → fs.length ≤ st.ac c →
    (st.shared (.combined c)).set = true ∨ ∃ t ix, .setExecuted (.combined c) ix ∈ st.stackOf t
  uncalled : ∀ c, st.calls[c]? = none →
    futuresOf (isAll c) st.added = [] ∧ (st.shared (.combined c)).set = false

theorem Whens.init : Whens State.init where
  accounts := .init
  recorded := ⟨nofun, nofun⟩
  calls := nofun
  sound := nofun
  counted := nofun
  uncalled := fun _ _ => ⟨rfl, rfl⟩

section Step

variable {st : State} {t : Thread} {fr : Frame} {rest : List Frame} {e : Effect}
  {frs : List Frame}

theorem Whens.calls_access (h : Whens st) (ht : st.stackOf t = fr :: rest)
    (hn : fr.next st = some (e, frs)) {c : Nat} {fs : List FutureId}
    (hc : st.calls[c]? = some ⟨false, fs⟩) :
    CallInv ((st.apply t e).setStack t (frs ++ rest)) c fs := by
  by_cases hkey : fr.key = some (.call c)
  · have hr := h.recorded.frames t fr (mem_of_stackOf_eq ht)
    exact (h.calls c fs hc).access_of_eq h.accounts.keyed hr hc ht hn hkey
  · exact (h.calls c fs hc).access_of_ne ht hn hkey

/-- The callback that finds the counter at its end is the last one: all others were run before
it, and so their futures are set. -/
theorem allSet_of_last {st : State} (ha : Accounts st) {c : Nat} {fs : List FutureId}
    (hcall : CallInv st c fs) (hac : st.ac c = fs.length) : AllSet st fs := by
  have hsub := (ha.ran_subperm c).trans hcall.added_sublist.subperm
  have hperm := hsub.perm_of_length_le (by rw [← ha.ac, hac])
  intro f hf
  obtain ⟨cb, hcb, -⟩ := mem_futuresOf.mp (hperm.mem_iff.mpr hf)
  exact ha.ran f cb hcb

theorem Whens.recorded_access (h : Whens st) (hk : Accounts ((st.apply t e).setStack t (frs ++ rest)))
    (ht : st.stackOf t = fr :: rest) (hn : fr.next st = some (e, frs))
    (hs : Future.step st (.step t) = some ((st.apply t e).setStack t (frs ++ rest))) :
    Recorded ((st.apply t e).setStack t (frs ++ rest)) := by
  have hfr := h.recorded.frames t fr (mem_of_stackOf_eq ht)
  refine ⟨fun t' fr' hfr' => ?_, fun f cb hcb => ?_⟩
  · obtain hm | hm := mem_of_mem_access ht hfr'
    · obtain hr | ⟨f, c, max, rfl, hac, rfl⟩ := recorded_next hn hfr h.recorded.callbacks fr' hm
      · exact hr.step hs
      · obtain ⟨ix, cbs, rfl, -⟩ := next_runCallback hn
        obtain ⟨fs, hc, hlen⟩ := hfr (.all c max) List.mem_cons_self
        refine ⟨⟨false, fs⟩, calls_of_step hs hc, fun _ => ?_⟩
        refine allSet_of_last hk (h.calls_access ht hn hc) ?_
        show (st.apply t (.runCallback f (.all c max))).ac c = fs.length
        rw [apply_ac, hac, hlen]
        simp [Effect.execution, isAll]
    · exact (h.recorded.frames t' fr' hm).step hs
  · have hle : ∀ {c : Nat} {call : Call}, st.calls[c]? = some call →
        ((st.apply t e).setStack t (frs ++ rest)).calls[c]? = some call := calls_of_step hs
    rw [setStack_shared] at hcb
    obtain hm | rfl := mem_callbacks_apply hcb
    · exact (h.recorded.callbacks f cb hm).mono hle
    · exact (recorded_of_addCallback hn hfr).mono hle

/-- A state is completed by its call, or by its last callback. -/
theorem Whens.setFlag_combined (h : Whens st) (ht : st.stackOf t = fr :: rest) {c : Nat}
    (hn : fr.next st = some (.setFlag (.combined c), frs)) :
    ∃ call, st.calls[c]? = some call ∧ (call.any = false → AllSet st call.futures) := by
  have hacts : fr ∈ st.stackOf t := mem_of_stackOf_eq ht
  have hr := h.recorded.frames t fr hacts
  obtain ⟨ix, rfl, -, -⟩ | ⟨c, call, locked, rfl, heq⟩ := next_setFlag hn
  · exact hr
  · cases heq
    refine ⟨call, hr, fun hany => ?_⟩
    obtain ⟨any, fs⟩ := call
    cases hany
    cases h.calls c fs hr with
    | within hfr' hkey' hat =>
      cases h.accounts.keyed.unique hacts rfl hfr' hkey'
      exact hat.2
    | returned hkeys => exact absurd (mem_keys.mpr ⟨_, hacts, rfl⟩) (hkeys t)

theorem Whens.sound_access (h : Whens st) (ht : st.stackOf t = fr :: rest)
    (hn : fr.next st = some (e, frs)) {c : Nat} {fs : List FutureId}
    (hc : st.calls[c]? = some ⟨false, fs⟩)
    (hset : ((st.apply t e).shared (.combined c)).set = true) :
    AllSet ((st.apply t e).setStack t (frs ++ rest)) fs := by
  have hall : AllSet st fs := by
    rw [apply_set, Bool.or_eq_true] at hset
    rcases hset with he | hset
    · cases of_decide_eq_true he
      obtain ⟨call, hc', hset⟩ := h.setFlag_combined ht hn
      cases hc'.symm.trans hc
      exact hset rfl
    · exact h.sound c fs hc hset
  exact fun f hf => apply_set_of_set t e (hall f hf)

theorem Whens.counted_access (h : Whens st) (ht : st.stackOf t = fr :: rest)
    (hn : fr.next st = some (e, frs)) {c : Nat} {fs : List FutureId}
    (hc : st.calls[c]? = some ⟨false, fs⟩) (hle : fs.length ≤ (st.apply t e).ac c) :
    ((st.apply t e).shared (.combined c)).set = true ∨
    ∃ t' ix, .setExecuted (.combined c) ix ∈
      ((st.apply t e).setStack t (frs ++ rest)).stackOf t' := by
  -- where the counter had passed all futures before the step
  have hkeep : fs.length ≤ st.ac c → ((st.apply t e).shared (.combined c)).set = true ∨
      ∃ t' ix, .setExecuted (.combined c) ix ∈
        ((st.apply t e).setStack t (frs ++ rest)).stackOf t' := by
    intro hold
    obtain hset | ⟨t', ix, hm⟩ := h.counted c fs hc hold
    · exact .inl (apply_set_of_set t e hset)
    · by_cases heq : Frame.setExecuted (.combined c) ix = fr
      · subst heq
        left
        simp only [Frame.next] at hn
        split at hn
        · exact apply_set_of_set t e ‹_›
        · cases hn
          simp [apply_set]
      · exact .inr ⟨t', ix, mem_access_of_ne ht hm heq⟩
  by_cases hrun : ∃ f max, e = .runCallback f (.all c max)
  · obtain ⟨f, max, rfl⟩ := hrun
    obtain ⟨ix, cbs, rfl, -⟩ := next_runCallback hn
    have hfr := h.recorded.frames t _ (mem_of_stackOf_eq ht)
    obtain ⟨fs', hc', hlen⟩ := hfr (.all c max) List.mem_cons_self
    cases hc'.symm.trans hc
    by_cases hac : st.ac c = max
    · simp only [Frame.next, hac, if_true, Option.some.injEq, Prod.mk.injEq] at hn
      obtain ⟨-, rfl⟩ := hn
      exact .inr ⟨t, none, (mem_access ht).mpr (.inl ⟨rfl, .inl List.mem_cons_self⟩)⟩
    · rw [apply_ac] at hle
      have hone : (futuresOf (isAll c) (Effect.runCallback f (.all c max)).execution).length = 1 := by
        simp [Effect.execution, isAll]
      exact hkeep (by omega)
  · have hzero : (futuresOf (isAll c) e.execution).length = 0 := by
      cases e with
      | runCallback f cb =>
        cases cb with
        | all d max =>
          have hd : d ≠ c := by
            rintro rfl
            exact hrun ⟨f, max, rfl⟩
          simp [Effect.execution, isAll, hd]
        | _ => rfl
      | _ => rfl
    rw [apply_ac, hzero] at hle
    exact hkeep hle

theorem Whens.uncalled_access (h : Whens st) (ht : st.stackOf t = fr :: rest)
    (hn : fr.next st = some (e, frs)) {c : Nat} (hc : st.calls[c]? = none) :
    futuresOf (isAll c) (st.apply t e).added = [] ∧
      ((st.apply t e).shared (.combined c)).set = false := by
  have hr := h.recorded.frames t fr (mem_of_stackOf_eq ht)
  obtain ⟨hadded, hset⟩ := h.uncalled c hc
  constructor
  · rw [apply_added_isAll hn, hadded]
    rintro call i rfl
    cases hc.symm.trans hr
  · rw [apply_set, hset, Bool.or_false]
    refine decide_eq_false ?_
    rintro rfl
    obtain ⟨call, hc', -⟩ := h.setFlag_combined ht hn
    cases hc.symm.trans hc'

end Step

/-- A thread starts an operation, which may be the next call. -/
theorem Whens.start {st st' : State} {a : Act} (h : Whens st) (hs : Future.step st a = some st')
    {t : Thread} {fr : Frame} (ht : st.stackOf t = [])
    (hstacks : st'.stackOf = Function.update st.stackOf t [fr]) (hfr : fr.Recorded st')
    (hkey : ∀ c, fr.key = some (.call c) → st.calls[c]? = none)
    (hadded : st'.added = st.added) (hac : st'.ac = st.ac)
    (hcb : ∀ f, (st'.shared f).callbacks = (st.shared f).callbacks)
    (hset : ∀ c, (st'.shared (.combined c)).set = (st.shared (.combined c)).set ∨
      st.calls[c]? = none ∧ st'.calls[c]? ≠ none)
    (hnew : ∀ c call, st'.calls[c]? = some call → st.calls[c]? = some call ∨
      st.calls[c]? = none ∧ fr = .check c call false 0 ∧
        ((st'.shared (.combined c)).set = true ↔ call.futures = [])) : Whens st' := by
  refine ⟨h.accounts.step hs, ⟨fun t' fr' hfr' => ?_, fun f cb hm => ?_⟩, fun c fs hc => ?_,
    fun c fs hc hs' => ?_, fun c fs hc hle => ?_, fun c hc => ?_⟩
  · obtain ⟨-, rfl⟩ | hm := mem_of_mem_start hstacks hfr'
    · exact hfr
    · exact (h.recorded.frames t' fr' hm).step hs
  · have hle : ∀ {c : Nat} {call : Call}, st.calls[c]? = some call → st'.calls[c]? = some call :=
      calls_of_step hs
    rw [hcb] at hm
    exact (h.recorded.callbacks f cb hm).mono hle
  · obtain hold | ⟨hnone, rfl, -⟩ := hnew c _ hc
    · refine (h.calls c fs hold).keep (fun t' fr' hfr' _ => mem_start ht hstacks hfr')
        (absent_start hstacks fun hc' => ?_) (by rw [hadded]) fun f => set_of_step hs
      cases hold.symm.trans (hkey c hc')
    · have hplace : Frame.check c ⟨false, fs⟩ false 0 ∈ st'.stackOf t := by simp [hstacks]
      refine .within hplace rfl ⟨by rw [hadded, (h.uncalled c hnone).1], fun f hf => ?_⟩
      simp at hf
  · obtain hold | ⟨-, -, hiff⟩ := hnew c _ hc
    · obtain heq | ⟨hnone, -⟩ := hset c
      · exact (h.sound c fs hold (heq ▸ hs')).step hs
      · cases hold.symm.trans hnone
    · have hnil : fs = [] := hiff.mp hs'
      rw [hnil]
      exact fun f hf => absurd hf List.not_mem_nil
  · rw [hac] at hle
    obtain hold | ⟨hnone, -, hiff⟩ := hnew c _ hc
    · obtain hset' | ⟨t', ix, hm⟩ := h.counted c fs hold hle
      · exact .inl (set_of_step hs hset')
      · exact .inr ⟨t', ix, mem_start ht hstacks hm⟩
    · -- no callback of the call has been run
      have hran := h.accounts.ran_subperm c
      rw [(h.uncalled c hnone).1, List.subperm_nil] at hran
      rw [h.accounts.ac, hran] at hle
      exact .inl (hiff.mpr (List.length_eq_zero_iff.mp (Nat.le_zero.mp hle)))
  · have hnone : st.calls[c]? = none := by
      by_contra hne
      obtain ⟨call, hcall⟩ := Option.ne_none_iff_exists'.mp hne
      cases (calls_of_step hs hcall).symm.trans hc
    obtain ⟨hadded', hunset⟩ := h.uncalled c hnone
    refine ⟨by rw [hadded, hadded'], ?_⟩
    obtain heq | ⟨-, hne⟩ := hset c
    · rw [heq, hunset]
    · exact absurd hc hne

theorem Whens.step {st st' : State} {a : Act} (h : Whens st) (hs : step st a = some st') :
    Whens st' := by
  have hs' := hs
  obtain ⟨t, n, rfl, ht, rfl⟩ | ⟨t, call, -, hc⟩ | ⟨t, f, rfl, ht, -, rfl⟩ |
    ⟨t, fr, k, e, frs, rfl, ht, hn, rfl⟩ := step_cases hs
  · exact h.start hs' ht rfl trivial (by simp [Frame.key]) rfl rfl (fun _ => rfl) (fun _ => .inl rfl)
      fun _ _ => .inl
  · obtain ⟨ht, -, rfl⟩ := startCall_cases hc
    have hlast : (st.calls ++ [call])[st.calls.length]? = some call := by simp
    refine h.start hs' (t := t) ht rfl hlast ?_ rfl rfl (fun _ => rfl) (fun c => ?_)
      fun c call' hc' => ?_
    · rintro c ⟨⟩
      exact List.getElem?_eq_none le_rfl
    · by_cases heq : c = st.calls.length
      · subst heq
        refine .inr ⟨List.getElem?_eq_none le_rfl, ?_⟩
        rw [show (st.called t call).calls = st.calls ++ [call] from rfl, hlast]
        intro hnone
        cases hnone
      · exact .inl (by simp [State.called, heq])
    · have hc'' : (st.calls ++ [call])[c]? = some call' := hc'
      obtain hlt | hle := Nat.lt_or_ge c st.calls.length
      · rw [List.getElem?_append_left hlt] at hc''
        exact .inl hc''
      · obtain rfl : c = st.calls.length := by
          have hlt := (List.getElem?_eq_some_iff.mp hc'').1
          rw [List.length_append, List.length_singleton] at hlt
          omega
        cases hlast.symm.trans hc''
        have hnone : st.calls[st.calls.length]? = none := List.getElem?_eq_none le_rfl
        refine .inr ⟨hnone, rfl, ?_⟩
        simp [State.called, (h.uncalled _ hnone).2]
  · exact h.start hs' ht rfl trivial (by simp [Frame.key]) rfl rfl (fun _ => rfl) (fun _ => .inl rfl)
      fun _ _ => .inl
  · have hcalls : ∀ {c : Nat}, ((st.apply t e).setStack t (frs ++ k)).calls[c]? = st.calls[c]? :=
      fun {c} => congrArg (·[c]?) (apply_calls st t e)
    exact ⟨h.accounts.step hs', h.recorded_access (h.accounts.step hs') ht hn hs',
      fun c fs hc => h.calls_access ht hn (hcalls.symm.trans hc),
      fun c fs hc => h.sound_access ht hn (hcalls.symm.trans hc),
      fun c fs hc => h.counted_access ht hn (hcalls.symm.trans hc),
      fun c hc => h.uncalled_access ht hn (hcalls.symm.trans hc)⟩

theorem whens {ok : State → Act → Prop} {st : State} (h : Run step ok State.init st) : Whens st :=
  h.invariant .init fun hi _ hs => hi.step hs

/-- **The state that `whenAll` returns is set only after the futures it was called with.** -/
theorem whenAll_sound {st : State} (h : Reachable step State.init st) {c : Nat}
    {fs : List FutureId} (hc : st.calls[c]? = some ⟨false, fs⟩)
    (hset : (st.shared (.combined c)).set = true) : AllSet st fs := (whens h).sound c fs hc hset

/-! ## Callbacks in time -/

/-- The `c`-th call pushes its callbacks only to futures that are open. -/
def RegistersOpen (c : Nat) (st : State) (a : Act) : Prop :=
  ∀ t call i f k, a = .step t → st.stackOf t = .register c call i :: k →
    call.futures[i]? = some f → Open st f

/-- Then no callback comes too late. -/
theorem accounted_of_registersOpen {c : Nat} {st : State}
    (h : Run step (RegistersOpen c) State.init st) (f : FutureId) :
    Accounted (isAll c) f 0 st := by
  induction h with
  | refl => exact .init (isAll c) f
  | tail hrun hok hs ih =>
    have ha := (whens hrun).accounts
    obtain hacc | ⟨⟨cb, ⟨t, fr, k, frs, rfl, ht, hn⟩, hp, hclosed⟩, -⟩ :=
      ih.step ha.keyed ha.used hs
    · exact hacc
    · obtain ⟨call, i, rfl, hi⟩ := next_addAll hn hp
      exact absurd (hok t call i f k rfl ht hi) hclosed

/-- **`whenAll`.** Where its callbacks are registered in time, the state that it returns is set
only after its futures, and once they are set and all steps have run, it is set. -/
theorem whenAll_correct {c : Nat} {st : State} (h : Run step (RegistersOpen c) State.init st)
    {fs : List FutureId} (hc : st.calls[c]? = some ⟨false, fs⟩) :
    ((st.shared (.combined c)).set = true → ∀ f ∈ fs, (st.shared f).set = true) ∧
    ((∀ t, st.stackOf t = []) → (∀ f ∈ fs, (st.shared f).set = true) →
      (st.shared (.combined c)).set = true) := by
  have hw := whens h
  refine ⟨hw.sound c fs hc, fun hidle hall => ?_⟩
  have hnobody : ∀ t x, x ∉ keys (st.stackOf t) := by
    intro t x
    rw [hidle t]
    exact List.not_mem_nil
  have hdecided : Decided st c fs := by
    cases hw.calls c fs hc with
    | within hfr => simp [hidle] at hfr
    | returned _ hd => exact hd
  obtain ⟨hset, -⟩ | hadded := hdecided
  · exact hset
  · -- every callback has been run, so the counter has passed all futures
    have hran : (futuresOf (isAll c) st.ran).Perm fs := by
      refine List.perm_iff_count.mpr fun f => ?_
      have hacc := accounted_of_registersOpen h f
      by_cases hf : f ∈ fs
      · have heq := hacc.eq_of_done (hall f hf) fun t => hnobody t _
        rwa [hadded] at heq
      · have hle := hacc.count_le
        rw [hadded, List.count_eq_zero.mpr hf] at hle
        rw [List.count_eq_zero.mpr hf]
        omega
    obtain hset | ⟨t, ix, hm⟩ := hw.counted c fs hc (by rw [hw.accounts.ac, hran.length_eq])
    · exact hset
    · simp [hidle] at hm

/-- A test that a step pushes its callback to a future that is not set. -/
def registersUnset (st : State) : Act → Bool
  | .step t =>
    match st.stackOf t with
    | .register _ call i :: _ => (call.futures[i]?).all fun f => !(st.shared f).set
    | _ => true
  | _ => true

theorem registersOpen_of_unset {c : Nat} {st : State} {a : Act} (h : registersUnset st a = true) :
    RegistersOpen c st a := by
  rintro t call i f k rfl ht hi
  simp only [registersUnset, ht, hi, Option.all_some, Bool.not_eq_true'] at h
  exact .inl h

/-- Two futures that complete after the call. -/
theorem whenAll_correct_two_futures :
    ∃ st, Run step (RegistersOpen 0) State.init st ∧
      st.calls = [⟨false, [.task 0, .task 1]⟩] ∧ (∀ t, st.stackOf t = []) ∧
      (st.shared (.combined 0)).set = true := by
  obtain ⟨st, hrun, hp⟩ := exists_run_of_exec step
    (fun st a => registersUnset st a && decide (a.thread ∈ [1, 2])) State.init
    ([.whenAll 1 [.task 0, .task 1]] ++ List.replicate 12 (.step 1) ++ [.complete 2 0] ++
      List.replicate 5 (.step 2) ++ [.complete 2 1] ++ List.replicate 9 (.step 2))
    (fun st => decide (st.calls = [⟨false, [.task 0, .task 1]⟩] ∧ st.stackOf 1 = [] ∧
      st.stackOf 2 = [] ∧ (st.shared (.task 0)).set = true ∧
      (st.shared (.task 1)).set = true)) (by decide)
  obtain ⟨hcalls, h₁, h₂, hset₀, hset₁⟩ := of_decide_eq_true hp
  have hrun' : Run step (RegistersOpen 0) State.init st := hrun.mono fun h =>
    registersOpen_of_unset (Bool.and_eq_true_iff.mp h).1
  have hidle : ∀ t, st.stackOf t = [] := idle_of_run
    (hrun.mono fun h => of_decide_eq_true (Bool.and_eq_true_iff.mp h).2) (by simp [h₁, h₂])
  exact ⟨st, hrun', hcalls, hidle,
    (whenAll_correct hrun' (by rw [hcalls]; rfl)).2 hidle (by simp [hset₀, hset₁])⟩

/-- One of two futures completed before the call: both are set at the end, and all steps have
run, but the state of the call is not set and never will be. -/
theorem whenAll_incomplete_one_before :
    ∃ st, Reachable step State.init st ∧ st.calls = [⟨false, [.task 0, .task 1]⟩] ∧
      (∀ t, st.stackOf t = []) ∧ (∀ f ∈ [FutureId.task 0, .task 1], (st.shared f).set = true) ∧
      (st.shared (.combined 0)).set = false := by
  obtain ⟨st, hrun, hp⟩ := exists_run_of_exec step (fun _ a => decide (a.thread ∈ [1, 2]))
    State.init
    ([.complete 1 0] ++ List.replicate 4 (.step 1) ++ [.whenAll 1 [.task 0, .task 1]] ++
      List.replicate 14 (.step 1) ++ [.complete 2 1] ++ List.replicate 5 (.step 2))
    (fun st => decide (st.calls = [⟨false, [.task 0, .task 1]⟩] ∧ st.stackOf 1 = [] ∧
      st.stackOf 2 = [] ∧ (st.shared (.task 0)).set = true ∧ (st.shared (.task 1)).set = true ∧
      (st.shared (.combined 0)).set = false)) (by decide)
  obtain ⟨hcalls, h₁, h₂, hset₀, hset₁, hunset⟩ := of_decide_eq_true hp
  have hidle : ∀ t, st.stackOf t = [] :=
    idle_of_run (hrun.mono fun h => of_decide_eq_true h) (by simp [h₁, h₂])
  exact ⟨st, hrun.reachable, hcalls, hidle, by simp [hset₀, hset₁], hunset⟩

end Primitives.Future
