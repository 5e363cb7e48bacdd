import Primitives.Future.Locks

/-!
# Where the threads are

Every call of `whenAll` or `whenAny`, every `then` and every `notice()` is in one place: there is
one frame of it (`Keyed`). In particular a completed future is noticed once. And nobody uses the
state a call returns before it is returned, so that has no callbacks until then (`Used`).
-/

set_option autoImplicit false

namespace Primitives.Future

open Lib

/-! ## Places -/

/-- What a frame is a place of. -/
inductive Key where
  | call (c : Nat)
  | «then» (k : Nat)
  | notice (f : FutureId)
deriving DecidableEq, Repr

def Frame.key : Frame → Option Key
  | .noticeLock f _ | .noticeRun f _ _ | .noticeClear f _ => some (.notice f)
  | .check c _ _ _ | .found c _ _ _ | .setCombined c _ _ => some (.call c)
  | .lock c _ _ | .register c _ _ | .unlock c _ _ | .ret c => some (.call c)
  | .thenCheck k _ _ | .thenPush k _ _ | .thenLock k _ | .thenRegister k _ | .thenUnlock k _ =>
    some (.then k)
  | .setExecuted _ _ | .assign _ _ => none

def keys (frames : List Frame) : List Key := frames.filterMap Frame.key

theorem mem_keys {frames : List Frame} {x : Key} :
    x ∈ keys frames ↔ ∃ fr ∈ frames, fr.key = some x := List.mem_filterMap

theorem keys_append (frs k : List Frame) : keys (frs ++ k) = keys frs ++ keys k :=
  List.filterMap_append

theorem keys_cons (fr : Frame) (k : List Frame) : keys (fr :: k) = fr.key.toList ++ keys k := by
  unfold keys
  cases h : fr.key <;> simp [h]

/-- A place is left or kept, or a completed future is to be noticed. -/
theorem keys_next {st : State} {fr : Frame} {e : Effect} {frs : List Frame}
    (h : fr.next st = some (e, frs)) :
    keys frs = [] ∨ keys frs = fr.key.toList ∨
    ∃ f, keys frs = [.notice f] ∧ fr.key = none ∧ (st.shared f).set = false ∧ e = .setFlag f := by
  cases fr with
  | noticeRun f ix cbs =>
    rcases cbs with _ | ⟨_ | _ | _, cbs⟩ <;> cases h
    · exact .inr (.inl rfl)
    · right; left
      split <;> rfl
    · exact .inr (.inl rfl)
    · exact .inr (.inl rfl)
  | setExecuted f ix =>
    simp only [Frame.next] at h
    split at h <;> cases h
    · exact .inl rfl
    · rename_i hset
      exact .inr (.inr ⟨f, rfl, rfl, (Bool.not_eq_true _).mp hset, rfl⟩)
  | _ =>
    simp only [Frame.next] at h
    repeat' split at h
    all_goals cases h
    all_goals first
      | exact .inl rfl
      | exact .inr (.inl rfl)

theorem mem_keys_next {st : State} {fr : Frame} {e : Effect} {frs k : List Frame}
    (h : fr.next st = some (e, frs)) {x : Key} (hx : x ∈ keys (frs ++ k)) :
    x ∈ keys (fr :: k) ∨ ∃ f, x = .notice f ∧ (st.shared f).set = false ∧ e = .setFlag f := by
  rw [keys_append, List.mem_append] at hx
  rw [keys_cons, List.mem_append]
  rcases hx with hx | hx
  · obtain hn | hn | ⟨f, hn, -, hset, he⟩ := keys_next h
    · simp [hn] at hx
    · exact .inl (.inl (hn ▸ hx))
    · rw [hn, List.mem_singleton] at hx
      exact .inr ⟨f, hx, hset, he⟩
  · exact .inl (.inr hx)

/-- A flag after an access. -/
theorem apply_set (st : State) (t : Thread) (e : Effect) (f : FutureId) :
    ((st.apply t e).shared f).set = (decide (e = .setFlag f) || (st.shared f).set) := by
  cases e with
  | setFlag g => by_cases h : f = g <;> simp [State.apply, State.modify, h, eq_comm]
  | lock g | unlock g | addCallback g | clear g | setData g =>
    by_cases h : f = g <;> simp [State.apply, State.modify, h]
  | silent | runCallback | push | ret => simp [State.apply]

theorem apply_set_of_set {st : State} {f : FutureId} (t : Thread) (e : Effect)
    (h : (st.shared f).set = true) : ((st.apply t e).shared f).set = true := by
  rw [apply_set, h, Bool.or_true]

theorem next_ret {st : State} {fr : Frame} {c : Nat} {frs : List Frame}
    (h : fr.next st = some (.ret c, frs)) : fr = .ret c ∧ frs = [] := by
  cases fr with
  | noticeRun f ix cbs => rcases cbs with _ | ⟨_ | _ | _, _⟩ <;> cases h
  | _ =>
    simp only [Frame.next] at h
    repeat' split at h
    all_goals cases h
    all_goals exact ⟨rfl, rfl⟩

theorem apply_returned (st : State) (t : Thread) (e : Effect) (c : Nat) :
    (st.apply t e).returned c = (decide (e = .ret c) || st.returned c) := by
  cases e with
  | ret d => by_cases h : c = d <;> simp [State.apply, h, eq_comm]
  | _ => simp [State.apply, State.modify]

@[simp] theorem apply_calls (st : State) (t : Thread) (e : Effect) :
    (st.apply t e).calls = st.calls := by cases e <;> rfl

@[simp] theorem apply_thens (st : State) (t : Thread) (e : Effect) :
    (st.apply t e).thens = st.thens := by cases e <;> rfl

/-! ## Frames -/

section Access

variable {st : State} {t : Thread} {fr : Frame} {k : List Frame} {e : Effect} {frs : List Frame}

/-- The frames after an access. -/
theorem mem_access {t' : Thread} {fr' : Frame} (ht : st.stackOf t = fr :: k) :
    fr' ∈ ((st.apply t e).setStack t (frs ++ k)).stackOf t' ↔
      (t' = t ∧ (fr' ∈ frs ∨ fr' ∈ k)) ∨ (t' ≠ t ∧ fr' ∈ st.stackOf t') := by
  rw [setStack_stackOf, apply_stackOf]
  by_cases heq : t' = t
  · subst heq
    simp
  · simp [heq]

theorem mem_of_stackOf_eq (ht : st.stackOf t = fr :: k) : fr ∈ st.stackOf t := by
  rw [ht]
  exact List.mem_cons_self

/-- The thread that acted is at the first of the frames that it came to. -/
theorem mem_head_access (st : State) (t : Thread) (e : Effect) (fr : Frame) (frs : List Frame) :
    fr ∈ ((st.apply t e).setStack t (fr :: frs)).stackOf t := by simp

/-- A frame other than the one that acts stays. -/
theorem mem_access_of_ne {t' : Thread} {fr' : Frame} (ht : st.stackOf t = fr :: k)
    (hfr' : fr' ∈ st.stackOf t') (hne : fr' ≠ fr) :
    fr' ∈ ((st.apply t e).setStack t (frs ++ k)).stackOf t' := by
  rw [mem_access ht]
  by_cases heq : t' = t
  · subst heq
    rw [ht, List.mem_cons] at hfr'
    exact .inl ⟨rfl, .inr (hfr'.resolve_left hne)⟩
  · exact .inr ⟨heq, hfr'⟩

/-- A frame of a place stays one, or comes from the frame that acts. -/
theorem mem_of_mem_access {t' : Thread} {fr' : Frame} (ht : st.stackOf t = fr :: k)
    (h : fr' ∈ ((st.apply t e).setStack t (frs ++ k)).stackOf t') :
    fr' ∈ frs ∨ fr' ∈ st.stackOf t' := by
  obtain ⟨rfl, h | h⟩ | ⟨-, h⟩ := (mem_access ht).mp h
  · exact .inl h
  · exact .inr (by rw [ht]; exact List.mem_cons_of_mem _ h)
  · exact .inr h

/-- Nobody comes to a place where nobody is, unless a future is completed. -/
theorem absent_access (ht : st.stackOf t = fr :: k) (hn : fr.next st = some (e, frs)) {x : Key}
    (hx : ∀ f, x ≠ .notice f) (h : ∀ t', x ∉ keys (st.stackOf t')) :
    ∀ t', x ∉ keys (((st.apply t e).setStack t (frs ++ k)).stackOf t') := by
  intro t' hm
  obtain ⟨fr', hfr', hkey'⟩ := mem_keys.mp hm
  obtain hm' | hm' := mem_of_mem_access ht hfr'
  · have hfrs : x ∈ keys (frs ++ k) := mem_keys.mpr ⟨fr', List.mem_append_left _ hm', hkey'⟩
    obtain hfr | ⟨f, hf, -⟩ := mem_keys_next hn hfrs
    · exact h t (by rwa [ht])
    · exact hx f hf
  · exact h t' (mem_keys.mpr ⟨fr', hm', hkey'⟩)

end Access

section Start

variable {st st' : State} {t : Thread} {fr : Frame}

/-- The frames after the start of an operation. -/
theorem mem_of_mem_start (hstacks : st'.stackOf = Function.update st.stackOf t [fr]) {t' : Thread}
    {fr' : Frame} (h : fr' ∈ st'.stackOf t') : (t' = t ∧ fr' = fr) ∨ fr' ∈ st.stackOf t' := by
  rw [hstacks] at h
  by_cases heq : t' = t
  · subst heq
    rw [Function.update_self, List.mem_singleton] at h
    exact .inl ⟨rfl, h⟩
  · rw [Function.update_of_ne heq] at h
    exact .inr h

theorem mem_start (ht : st.stackOf t = [])
    (hstacks : st'.stackOf = Function.update st.stackOf t [fr]) {t' : Thread} {fr' : Frame}
    (h : fr' ∈ st.stackOf t') : fr' ∈ st'.stackOf t' := by
  have hne : t' ≠ t := by
    rintro rfl
    simp [ht] at h
  rwa [hstacks, Function.update_of_ne hne]

/-- Nobody comes to a place by the start of an operation elsewhere. -/
theorem absent_start (hstacks : st'.stackOf = Function.update st.stackOf t [fr]) {x : Key}
    (hkey : fr.key ≠ some x) (h : ∀ t', x ∉ keys (st.stackOf t')) :
    ∀ t', x ∉ keys (st'.stackOf t') := by
  intro t' hx
  obtain ⟨fr', hfr', hkey'⟩ := mem_keys.mp hx
  obtain ⟨-, rfl⟩ | hm := mem_of_mem_start hstacks hfr'
  · exact hkey hkey'
  · exact h t' (mem_keys.mpr ⟨fr', hm, hkey'⟩)

end Start

/-! ## One frame at a place -/

/-- Every call, every `then` and every `notice()` is in one place, and there is none of a call
that has returned or a future that is not set. -/
structure Keyed (st : State) : Prop where
  nodup : ∀ t, (keys (st.stackOf t)).Nodup
  thread : ∀ {t t' : Thread} {x : Key}, x ∈ keys (st.stackOf t) → x ∈ keys (st.stackOf t') → t = t'
  call : ∀ {t : Thread} {c : Nat}, .call c ∈ keys (st.stackOf t) →
    c < st.calls.length ∧ st.returned c = false
  «then» : ∀ {t : Thread} {k : Nat}, .then k ∈ keys (st.stackOf t) → k < st.thens.length
  notice : ∀ {t : Thread} {f : FutureId}, .notice f ∈ keys (st.stackOf t) →
    (st.shared f).set = true
  fresh : ∀ c, st.calls.length ≤ c → st.returned c = false

theorem Keyed.init : Keyed State.init := by
  constructor <;> simp [State.init, keys]

/-- The frame that acts is the only one at its place. -/
theorem Keyed.only {st : State} (h : Keyed st) {t t' : Thread} {fr fr' : Frame} {k : List Frame}
    {x : Key} (ht : st.stackOf t = fr :: k) (hx : fr.key = some x) (hfr' : fr' ∈ st.stackOf t')
    (hx' : fr'.key = some x) : t' = t ∧ fr' = fr ∧ fr' ∉ k := by
  have hmem : x ∈ keys (st.stackOf t) := mem_keys.mpr ⟨fr, mem_of_stackOf_eq ht, hx⟩
  have hmem' : x ∈ keys (st.stackOf t') := mem_keys.mpr ⟨fr', hfr', hx'⟩
  cases h.thread hmem hmem'
  have hnodup := h.nodup t
  rw [ht, keys_cons, hx, Option.toList_some, List.singleton_append, List.nodup_cons] at hnodup
  have hk : fr' ∉ k := fun hk => hnodup.1 (mem_keys.mpr ⟨fr', hk, hx'⟩)
  rw [ht] at hfr'
  exact ⟨rfl, (List.mem_cons.mp hfr').resolve_right hk, hk⟩

/-- A place of the frame that acts is among the frames that it leads to. -/
theorem Keyed.mem_of_access {st : State} (h : Keyed st) {t t' : Thread} {fr fr' : Frame}
    {k : List Frame} {e : Effect} {frs : List Frame} {x : Key} (ht : st.stackOf t = fr :: k)
    (hx : fr.key = some x) (hfr' : fr' ∈ ((st.apply t e).setStack t (frs ++ k)).stackOf t')
    (hx' : fr'.key = some x) : fr' ∈ frs := by
  obtain ⟨rfl, hm | hm⟩ | ⟨hne, hm⟩ := (mem_access ht).mp hfr'
  · exact hm
  · have hmem : fr' ∈ st.stackOf t' := by
      rw [ht]
      exact List.mem_cons_of_mem _ hm
    exact absurd hm (h.only ht hx hmem hx').2.2
  · exact absurd (h.only ht hx hm hx').1 hne

/-- Two frames at one place are one frame. -/
theorem Keyed.unique {st : State} (h : Keyed st) {t t' : Thread} {fr fr' : Frame} {x : Key}
    (hfr : fr ∈ st.stackOf t) (hx : fr.key = some x) (hfr' : fr' ∈ st.stackOf t')
    (hx' : fr'.key = some x) : fr = fr' := by
  have hmem : x ∈ keys (st.stackOf t) := mem_keys.mpr ⟨fr, hfr, hx⟩
  cases h.thread hmem (mem_keys.mpr ⟨fr', hfr', hx'⟩)
  obtain ⟨l₁, l₂, hl⟩ := List.append_of_mem hfr
  have hnodup := h.nodup t
  rw [hl, keys_append, keys_cons, hx, Option.toList_some, List.nodup_append'] at hnodup
  obtain ⟨-, hr, hd⟩ := hnodup
  rw [List.singleton_append, List.nodup_cons] at hr
  rw [hl, List.mem_append, List.mem_cons] at hfr'
  rcases hfr' with hl₁ | rfl | hl₂
  · exact absurd (List.mem_append_left _ (List.mem_singleton.mpr rfl))
      (hd (mem_keys.mpr ⟨fr', hl₁, hx'⟩))
  · rfl
  · exact absurd (mem_keys.mpr ⟨fr', hl₂, hx'⟩) hr.1

/-- The frame that acts leaves its place. -/
theorem Keyed.gone {st : State} (h : Keyed st) {t : Thread} {fr : Frame} {k : List Frame}
    (ht : st.stackOf t = fr :: k) {e : Effect} {frs : List Frame} {x : Key}
    (hkey : fr.key = some x) (hnil : keys frs = []) :
    ∀ t', x ∉ keys (((st.apply t e).setStack t (frs ++ k)).stackOf t') := by
  intro t' hx
  obtain ⟨fr', hfr', hkey'⟩ := mem_keys.mp hx
  have hx' : x ∈ keys frs := mem_keys.mpr ⟨fr', h.mem_of_access ht hkey hfr' hkey', hkey'⟩
  rw [hnil] at hx'
  exact List.not_mem_nil hx'

/-- What is at a place afterwards was there before, but for a completed future. -/
theorem mem_keys_access {st : State} {t t' : Thread} {fr : Frame} {k : List Frame}
    (ht : st.stackOf t = fr :: k) {e : Effect} {frs : List Frame}
    (hn : fr.next st = some (e, frs)) {x : Key}
    (hx : x ∈ keys (((st.apply t e).setStack t (frs ++ k)).stackOf t')) :
    x ∈ keys (st.stackOf t') ∨
      ∃ f, t' = t ∧ x = .notice f ∧ (st.shared f).set = false ∧ e = .setFlag f := by
  rw [setStack_stackOf, apply_stackOf] at hx
  by_cases heq : t' = t
  · subst heq
    rw [Function.update_self] at hx
    rw [ht]
    obtain hx | ⟨f, hx⟩ := mem_keys_next hn hx
    · exact .inl hx
    · exact .inr ⟨f, rfl, hx⟩
  · rw [Function.update_of_ne heq] at hx
    exact .inl hx

theorem Keyed.nodup_access {st : State} (h : Keyed st) {t : Thread} {fr : Frame} {k : List Frame}
    (ht : st.stackOf t = fr :: k) {e : Effect} {frs : List Frame}
    (hn : fr.next st = some (e, frs)) (t' : Thread) :
    (keys (((st.apply t e).setStack t (frs ++ k)).stackOf t')).Nodup := by
  rw [setStack_stackOf, apply_stackOf]
  by_cases heq : t' = t
  swap
  · rw [Function.update_of_ne heq]
    exact h.nodup t'
  subst heq
  have hnodup := h.nodup t'
  rw [ht, keys_cons] at hnodup
  rw [Function.update_self, keys_append]
  obtain hfrs | hfrs | ⟨f, hfrs, -, hset, -⟩ := keys_next hn
  · rw [hfrs]
    exact hnodup.of_append_right
  · rw [hfrs]
    exact hnodup
  · rw [hfrs, List.singleton_append, List.nodup_cons]
    refine ⟨fun hm => ?_, hnodup.of_append_right⟩
    have hkeys : Key.notice f ∈ keys (st.stackOf t') := by
      rw [ht, keys_cons]
      exact List.mem_append_right _ hm
    simp [h.notice hkeys] at hset

theorem Keyed.access {st : State} (h : Keyed st) {t : Thread} {fr : Frame} {k : List Frame}
    (ht : st.stackOf t = fr :: k) {e : Effect} {frs : List Frame}
    (hn : fr.next st = some (e, frs)) : Keyed ((st.apply t e).setStack t (frs ++ k)) := by
  refine ⟨h.nodup_access ht hn, fun {t₁ t₂ x} h₁ h₂ => ?_, fun {t' c} hc => ?_,
    fun {t' k'} hk => ?_, fun {t' f} hf => ?_, fun c hc => ?_⟩
  · obtain hb₁ | ⟨f, rfl, hx₁, hset₁, -⟩ := mem_keys_access ht hn h₁ <;>
      obtain hb₂ | ⟨g, rfl, hx₂, hset₂, -⟩ := mem_keys_access ht hn h₂
    · exact h.thread hb₁ hb₂
    · rw [hx₂] at hb₁
      cases (h.notice hb₁).symm.trans hset₂
    · rw [hx₁] at hb₂
      cases (h.notice hb₂).symm.trans hset₁
    · rfl
  · obtain hc' | ⟨f, -, hf, -⟩ := mem_keys_access ht hn hc
    swap
    · cases hf
    obtain ⟨hlt, hret⟩ := h.call hc'
    refine ⟨by simpa [State.setStack] using hlt, ?_⟩
    have hne : e ≠ .ret c := by
      -- the frame of the `return` was the only one at its place
      rintro rfl
      obtain ⟨rfl, rfl⟩ := next_ret hn
      exact h.gone ht rfl rfl t' hc
    simp [State.setStack, apply_returned, hne, hret]
  · obtain hk' | ⟨f, -, hf, -⟩ := mem_keys_access ht hn hk
    · simpa [State.setStack] using h.then hk'
    · cases hf
  · rw [setStack_shared, apply_set]
    obtain hf' | ⟨g, -, hg, -, he⟩ := mem_keys_access ht hn hf
    · simp [h.notice hf']
    · cases hg
      simp [he]
  · have hne : e ≠ .ret c := by
      rintro rfl
      obtain ⟨rfl, -⟩ := next_ret hn
      have hlt := (h.call (mem_keys.mpr ⟨.ret c, mem_of_stackOf_eq ht, rfl⟩)).1
      simp [State.setStack] at hc
      omega
    simp [State.setStack, apply_returned, hne, h.fresh c (by simpa [State.setStack] using hc)]

/-- A thread that starts an operation, at a place where nobody is. -/
theorem Keyed.start {st st' : State} (h : Keyed st) {t : Thread} {fr : Frame}
    (hstacks : st'.stackOf = Function.update st.stackOf t [fr])
    (hnew : ∀ {x t'}, fr.key = some x → x ∉ keys (st.stackOf t'))
    (hcalls : st.calls.length ≤ st'.calls.length) (hthens : st.thens.length ≤ st'.thens.length)
    (hret : st'.returned = st.returned)
    (hset : ∀ {f}, (st.shared f).set = true → (st'.shared f).set = true)
    (hcall : ∀ {c}, fr.key = some (.call c) → c < st'.calls.length ∧ st.returned c = false)
    (hthen : ∀ {k}, fr.key = some (.then k) → k < st'.thens.length)
    (hnotice : ∀ f, fr.key ≠ some (.notice f)) : Keyed st' := by
  have hmem : ∀ {t' x}, x ∈ keys (st'.stackOf t') →
      x ∈ keys (st.stackOf t') ∨ (t' = t ∧ fr.key = some x) := by
    intro t' x hx
    obtain ⟨fr', hfr', hkey'⟩ := mem_keys.mp hx
    obtain ⟨rfl, rfl⟩ | hm := mem_of_mem_start hstacks hfr'
    · exact .inr ⟨rfl, hkey'⟩
    · exact .inl (mem_keys.mpr ⟨fr', hm, hkey'⟩)
  refine ⟨fun t' => ?_, fun {t₁ t₂ x} h₁ h₂ => ?_, fun {t' c} hc => ?_, fun {t' k} hk => ?_,
    fun {t' f} hf => ?_, fun c hc => ?_⟩
  · rw [hstacks]
    by_cases heq : t' = t
    · subst heq
      rw [Function.update_self, keys_cons]
      cases fr.key <;> simp [keys]
    · rw [Function.update_of_ne heq]
      exact h.nodup t'
  · obtain h₁ | ⟨rfl, hx⟩ := hmem h₁ <;> obtain h₂ | ⟨rfl, hx'⟩ := hmem h₂
    · exact h.thread h₁ h₂
    · exact absurd h₁ (hnew hx')
    · exact absurd h₂ (hnew hx)
    · rfl
  · rw [hret]
    obtain hc | ⟨-, hx⟩ := hmem hc
    · exact ⟨(h.call hc).1.trans_le hcalls, (h.call hc).2⟩
    · exact hcall hx
  · obtain hk | ⟨-, hx⟩ := hmem hk
    · exact (h.then hk).trans_le hthens
    · exact hthen hx
  · obtain hf | ⟨-, hx⟩ := hmem hf
    · exact hset (h.notice hf)
    · exact absurd hx (hnotice f)
  · rw [hret]
    exact h.fresh c (hcalls.trans hc)

theorem Keyed.step {st st' : State} {a : Act} (h : Keyed st) (hs : step st a = some st') :
    Keyed st' := by
  obtain ⟨t, n, rfl, ht, rfl⟩ | ⟨t, call, -, hc⟩ | ⟨t, f, rfl, ht, -, rfl⟩ |
    ⟨t, fr, k, e, frs, rfl, ht, hn, rfl⟩ := step_cases hs
  · exact h.start (t := t) rfl nofun le_rfl le_rfl rfl id (by rintro _ ⟨⟩) (by rintro _ ⟨⟩)
      (by rintro _ ⟨⟩)
  · obtain ⟨ht, -, rfl⟩ := startCall_cases hc
    refine h.start (t := t) rfl ?_ ?_ le_rfl rfl ?_ ?_ (by rintro _ ⟨⟩) (by rintro _ ⟨⟩)
    · rintro x t' hx hm
      cases hx
      exact absurd (h.call hm).1 (lt_irrefl _)
    · simp [State.called]
    · intro f hset
      simp [State.called, hset]
    · rintro c hx
      cases hx
      exact ⟨by simp [State.called], h.fresh _ le_rfl⟩
  · refine h.start (t := t) rfl ?_ le_rfl ?_ rfl id (by rintro _ ⟨⟩) ?_ (by rintro _ ⟨⟩)
    · rintro x t' hx hm
      cases hx
      exact absurd (h.then hm) (lt_irrefl _)
    · simp [State.setStack, State.addThen]
    · rintro k hx
      cases hx
      simp [State.setStack, State.addThen]
  · exact h.access ht hn

/-! ## Futures in use -/

/-- The futures a frame was given. -/
def Frame.uses : Frame → List FutureId
  | .check _ call _ _ | .found _ call _ _ | .setCombined _ call _ => call.futures
  | .lock _ call _ | .register _ call _ | .unlock _ call _ => call.futures
  | .thenCheck _ f _ | .thenPush _ f _ | .thenLock _ f | .thenRegister _ f | .thenUnlock _ f => [f]
  | _ => []

theorem uses_next {st : State} {fr : Frame} {e : Effect} {frs : List Frame}
    (h : fr.next st = some (e, frs)) : ∀ fr' ∈ frs, ∀ f ∈ fr'.uses, f ∈ fr.uses := by
  cases fr with
  | noticeRun f ix cbs =>
    rcases cbs with _ | ⟨_ | _ | _, cbs⟩ <;> cases h
    · simp [Frame.uses]
    · split <;> simp [Frame.uses]
    · simp [Frame.uses]
    · simp [Frame.uses]
  | _ =>
    simp only [Frame.next] at h
    repeat' split at h
    all_goals cases h
    all_goals simp_all [Frame.uses]

/-- A callback is pushed to a future the frame was given. -/
theorem uses_of_addCallback {st : State} {fr : Frame} {f : FutureId} {cb : Callback}
    {frs : List Frame} (h : fr.next st = some (.addCallback f cb, frs)) : f ∈ fr.uses := by
  cases fr with
  | register c call i =>
    simp only [Frame.next] at h
    split at h <;> cases h
    exact List.mem_of_getElem? ‹_›
  | thenRegister k g => cases h; simp [Frame.uses]
  | noticeRun g ix cbs => rcases cbs with _ | ⟨_ | _ | _, _⟩ <;> cases h
  | _ =>
    simp only [Frame.next] at h
    repeat' split at h
    all_goals cases h

/-- Futures in use have been returned, and a state that has not been has no callbacks. -/
structure Used (st : State) : Prop where
  frames : ∀ t, ∀ fr ∈ st.stackOf t, ∀ f ∈ fr.uses, st.usable f = true
  callbacks : ∀ c, st.returned c = false → (st.shared (.combined c)).callbacks = []

theorem usable_of_returned {st st' : State} {f : FutureId} (h : st.usable f = true)
    (hret : ∀ c, st.returned c = true → st'.returned c = true) : st'.usable f = true := by
  cases f with
  | task n => rfl
  | combined c => exact hret c h

theorem Used.access {st : State} (h : Used st) {t : Thread} {fr : Frame} {k : List Frame}
    (ht : st.stackOf t = fr :: k) {e : Effect} {frs : List Frame}
    (hn : fr.next st = some (e, frs)) : Used ((st.apply t e).setStack t (frs ++ k)) := by
  have hret : ∀ c, st.returned c = true → (st.apply t e).returned c = true := by
    intro c hc
    rw [apply_returned, hc, Bool.or_true]
  have hfr := h.frames t fr (mem_of_stackOf_eq ht)
  refine ⟨fun t' fr' hfr' f hf => usable_of_returned (?_ : st.usable f = true) hret, fun c hc => ?_⟩
  · obtain hm | hm := mem_of_mem_access ht hfr'
    · exact hfr f (uses_next hn fr' hm f hf)
    · exact h.frames t' fr' hm f hf
  · have hc' : st.returned c = false := by
      by_contra hne
      have htrue := hret c (by simpa using hne)
      simp [State.setStack, htrue] at hc
    refine List.eq_nil_iff_forall_not_mem.mpr fun cb hm => ?_
    rw [setStack_shared] at hm
    obtain hm | rfl := mem_callbacks_apply hm
    · simp [h.callbacks c hc'] at hm
    · have hu := hfr _ (uses_of_addCallback hn)
      simp [State.usable, hc'] at hu

theorem Used.start {st st' : State} (h : Used st) {t : Thread} {fr : Frame}
    (hstacks : st'.stackOf = Function.update st.stackOf t [fr])
    (hfr : ∀ f ∈ fr.uses, st.usable f = true) (hret : st'.returned = st.returned)
    (hcb : ∀ f cb, cb ∈ (st'.shared f).callbacks → cb ∈ (st.shared f).callbacks) : Used st' := by
  have husable : ∀ {f}, st.usable f = true → st'.usable f = true :=
    fun hf => usable_of_returned hf fun c hc => by rw [hret, hc]
  refine ⟨fun t' fr' hfr' f hf => husable ?_, fun c hc => ?_⟩
  · obtain ⟨-, rfl⟩ | hm := mem_of_mem_start hstacks hfr'
    · exact hfr f hf
    · exact h.frames t' fr' hm f hf
  · rw [hret] at hc
    refine List.eq_nil_iff_forall_not_mem.mpr fun cb hm => ?_
    have hm' := hcb _ _ hm
    simp [h.callbacks c hc] at hm'

theorem Used.step {st st' : State} {a : Act} (h : Used st) (hs : step st a = some st') :
    Used st' := by
  obtain ⟨t, n, rfl, ht, rfl⟩ | ⟨t, call, -, hc⟩ | ⟨t, f, rfl, ht, hf, rfl⟩ |
    ⟨t, fr, k, e, frs, rfl, ht, hn, rfl⟩ := step_cases hs
  · exact h.start (t := t) rfl nofun rfl fun _ _ => id
  · obtain ⟨ht, hu, rfl⟩ := startCall_cases hc
    exact h.start (t := t) rfl hu rfl fun _ _ => id
  · exact h.start (t := t) rfl (by simpa [Frame.uses] using hf) rfl fun _ _ => id
  · exact h.access ht hn

/-! ## Threads -/

/-- The thread that acts. -/
def Act.thread : Act → Thread
  | .complete t _ | .whenAll t _ | .whenAny t _ | .then t _ | .step t => t

theorem stackOf_of_step {st st' : State} {a : Act} (hs : step st a = some st') {t : Thread}
    (ht : t ≠ a.thread) : st'.stackOf t = st.stackOf t := by
  obtain ⟨t', n, rfl, -, rfl⟩ | ⟨t', call, ha, hc⟩ | ⟨t', g, rfl, -, -, rfl⟩ |
    ⟨t', fr, k, e, frs, rfl, -, -, rfl⟩ := step_cases hs
  · exact Function.update_of_ne ht _ _
  · obtain ⟨-, -, rfl⟩ := startCall_cases hc
    obtain ⟨rfl, -⟩ | ⟨rfl, -⟩ := ha <;> exact Function.update_of_ne ht _ _
  · exact Function.update_of_ne ht _ _
  · exact (Function.update_of_ne ht _ _).trans (congrFun (apply_stackOf st t' e) t)

/-- Threads that never act do nothing. -/
theorem idle_of_run {ts : List Thread} {st : State}
    (h : Run step (fun _ a => a.thread ∈ ts) State.init st) (hts : ∀ t ∈ ts, st.stackOf t = [])
    (t : Thread) : st.stackOf t = [] := by
  by_cases ht : t ∈ ts
  · exact hts t ht
  · clear hts
    induction h with
    | refl => rfl
    | tail _ ha hs ih => rw [stackOf_of_step hs (ne_of_mem_of_not_mem ha ht).symm, ih]

end Primitives.Future
