import Primitives.Future.Callbacks

/-!
# `then`

`then` looks at the flag, takes the mutex, looks again, and registers a callback or pushes at
once. `ThenInv` follows one call: until it pushes or registers nothing has been pushed for it;
it pushes only after it saw the flag set, and registers only while the future is `Open`, since
with the mutex taken the flag may be set but the `notice()` cannot begin. Once it has done one of
the two, what is left is the account of its callback (`then_pushes_once`).
-/

set_option autoImplicit false

namespace Primitives.Future

open Lib

/-- The callback of the `k`-th `then`. -/
def isPush (k : Nat) (cb : Callback) : Bool := cb = .push k

/-- The continuation has been pushed `n` times by `then` itself. -/
def PushedBy (st : State) (k n : Nat) : Prop :=
  st.pushed.count k = n + (futuresOf (isPush k) st.ran).length

/-- Nothing has been done for the `k`-th `then`. -/
def Untouched (st : State) (k : Nat) : Prop :=
  PushedBy st k 0 ∧ futuresOf (isPush k) st.added = []

/-- The continuation has been pushed, with the future set, or its callback was registered. -/
def Settled (st : State) (k : Nat) (f : FutureId) : Prop :=
  (PushedBy st k 1 ∧ futuresOf (isPush k) st.added = [] ∧ (st.shared f).set = true) ∨
  (PushedBy st k 0 ∧ futuresOf (isPush k) st.added = [f])

/-- What is known at a place of the `k`-th `then`, on `f`. -/
def Frame.AtThen (st : State) (k : Nat) (f : FutureId) : Frame → Prop
  | .thenCheck _ g _ | .thenLock _ g => g = f ∧ Untouched st k
  | .thenPush _ g _ => g = f ∧ Untouched st k ∧ (st.shared f).set = true
  | .thenRegister _ g => g = f ∧ Untouched st k ∧ Open st f
  | .thenUnlock _ g => g = f ∧ Settled st k f
  | _ => True

/-- The `k`-th `then` has not been called, is at a place, or has returned. -/
inductive ThenInv (st : State) (k : Nat) : Prop
  | uncalled : st.thens[k]? = none → Untouched st k → ThenInv st k
  | within {f : FutureId} {t : Thread} {fr : Frame} : st.thens[k]? = some f → fr ∈ st.stackOf t →
      fr.key = some (.then k) → fr.AtThen st k f → ThenInv st k
  | returned {f : FutureId} : st.thens[k]? = some f → (∀ t, .then k ∉ keys (st.stackOf t)) →
      Settled st k f → ThenInv st k

/-- The account of a continuation after an access. -/
theorem PushedBy.apply {st : State} {k n : Nat} (h : PushedBy st k n) (t : Thread) (e : Effect) :
    PushedBy (st.apply t e) k (n + if e = .push k then 1 else 0) := by
  unfold PushedBy at *
  rw [apply_ran, futuresOf_append, List.length_append]
  cases e with
  | push j =>
    by_cases hj : j = k
    · simp only [State.apply, Effect.execution, futuresOf_nil, hj, List.count_append,
        List.count_singleton_self, List.length_nil, if_true]
      omega
    · simpa [State.apply, Effect.execution, hj, List.count_singleton] using h
  | runCallback f cb =>
    cases cb with
    | push j =>
      by_cases hj : j = k
      · simp [State.apply, Effect.execution, isPush, hj]
        omega
      · simpa [State.apply, Effect.execution, isPush, hj, List.count_singleton] using h
    | _ => simpa [State.apply, Effect.execution, isPush] using h
  | _ => simpa [State.apply, State.modify, Effect.execution] using h

theorem next_push {st : State} {fr : Frame} {k : Nat} {frs : List Frame}
    (h : fr.next st = some (.push k, frs)) : fr.key = some (.then k) := by
  cases fr with
  | noticeRun f ix cbs => rcases cbs with _ | ⟨_ | _ | _, _⟩ <;> cases h
  | _ =>
    simp only [Frame.next] at h
    repeat' split at h
    all_goals cases h
    all_goals rfl

theorem next_addPush {st : State} {fr : Frame} {f : FutureId} {k : Nat} {frs : List Frame}
    (h : fr.next st = some (.addCallback f (.push k), frs)) : fr = .thenRegister k f := by
  cases fr with
  | noticeRun g ix cbs => rcases cbs with _ | ⟨_ | _ | _, _⟩ <;> cases h
  | register c call i =>
    simp only [Frame.next, Call.callback] at h
    repeat' split at h
    all_goals cases h
  | _ =>
    simp only [Frame.next] at h
    repeat' split at h
    all_goals cases h
    all_goals rfl

section Keep

variable {st st' : State} {k : Nat}

/-- A step in which the `k`-th `then` has no part. -/
theorem ThenInv.keep (h : ThenInv st k) (hthens : st'.thens[k]? = st.thens[k]?)
    (hframes : ∀ t fr, fr ∈ st.stackOf t → fr.key = some (.then k) → fr ∈ st'.stackOf t)
    (hkeys : (∀ t, .then k ∉ keys (st.stackOf t)) → ∀ t, .then k ∉ keys (st'.stackOf t))
    (hpushed : ∀ n, PushedBy st k n → PushedBy st' k n)
    (hadded : futuresOf (isPush k) st'.added = futuresOf (isPush k) st.added)
    (hset : ∀ f, (st.shared f).set = true → (st'.shared f).set = true)
    (hopen : ∀ t f, .thenRegister k f ∈ st.stackOf t → Open st f → Open st' f) :
    ThenInv st' k := by
  have huntouched : Untouched st k → Untouched st' k :=
    fun h => ⟨hpushed 0 h.1, by rw [hadded, h.2]⟩
  have hsettled : ∀ f, Settled st k f → Settled st' k f := by
    rintro f (⟨hp, ha, hs⟩ | ⟨hp, ha⟩)
    · exact .inl ⟨hpushed 1 hp, by rw [hadded, ha], hset f hs⟩
    · exact .inr ⟨hpushed 0 hp, by rw [hadded, ha]⟩
  cases h with
  | uncalled hk hu => exact .uncalled (by rw [hthens, hk]) (huntouched hu)
  | @within f t fr hk hfr hkey hat =>
    refine .within (by rw [hthens, hk]) (hframes t fr hfr hkey) hkey ?_
    cases fr with
    | thenCheck j g locked => exact ⟨hat.1, huntouched hat.2⟩
    | thenLock j g => exact ⟨hat.1, huntouched hat.2⟩
    | thenPush j g locked => exact ⟨hat.1, huntouched hat.2.1, hset f hat.2.2⟩
    | thenRegister j g =>
      obtain ⟨rfl, hu, ho⟩ := hat
      cases hkey
      exact ⟨rfl, huntouched hu, hopen t g hfr ho⟩
    | thenUnlock j g => exact ⟨hat.1, hsettled f hat.2⟩
    | _ => trivial
  | returned hk hkeys' hs => exact .returned (by rw [hthens, hk]) (hkeys hkeys') (hsettled _ hs)

/-- A step of another than the `k`-th `then`. -/
theorem ThenInv.access_of_ne (h : ThenInv st k) (hk : Keyed st) (hu : Used st) (ho : Own st)
    {t : Thread} {fr : Frame} {rest : List Frame} (ht : st.stackOf t = fr :: rest) {e : Effect}
    {frs : List Frame} (hn : fr.next st = some (e, frs)) (hkey : fr.key ≠ some (.then k)) :
    ThenInv ((st.apply t e).setStack t (frs ++ rest)) k := by
  refine h.keep (congrArg (·[k]?) (apply_thens st t e)) ?_ ?_ ?_ ?_ ?_ ?_
  · intro t' fr' hfr' hkey'
    refine mem_access_of_ne ht hfr' ?_
    rintro rfl
    exact hkey hkey'
  · exact absent_access ht hn nofun
  · intro n hp
    have hne : e ≠ .push k := by
      rintro rfl
      exact hkey (next_push hn)
    have hp' := hp.apply t e
    rwa [if_neg hne, Nat.add_zero] at hp'
  · have hadded := apply_added st t e
    rw [show ((st.apply t e).setStack t (frs ++ rest)).added = (st.apply t e).added from rfl,
      hadded, futuresOf_append]
    cases e with
    | addCallback f cb =>
      have hcb : isPush k cb = false := by
        refine decide_eq_false ?_
        rintro rfl
        exact hkey (by rw [next_addPush hn, Frame.key])
      simp [Effect.addition, futuresOf, hcb]
    | _ => exact List.append_nil _
  · intro f hset
    rw [setStack_shared]
    exact apply_set_of_set t e hset
  · intro t' f hreg hopen
    -- the mutex of `f` is taken, so its `notice()` cannot begin
    have hheld : f ∈ heldBy (st.stackOf t') := List.mem_flatMap.mpr ⟨_, hreg, by simp [Frame.held]⟩
    have howner := ho.owner.mpr hheld
    have husable : st.usable f = true := hu.frames t' _ hreg f (by simp [Frame.uses])
    by_cases hnotice : fr.key = some (.notice f)
    · obtain hset | ⟨t'', ix, hlock⟩ := hopen
      · simp [hk.notice (mem_keys.mpr ⟨fr, mem_of_stackOf_eq ht, hnotice⟩)] at hset
      · cases hk.unique hlock rfl (mem_of_stackOf_eq ht) hnotice
        simp [Frame.next, howner] at hn
    · obtain hopen' | ⟨hfalse, -⟩ := hopen.access hk hu ht hn hnotice
      · exact hopen'
      · simp [husable] at hfalse

/-- A step of the `k`-th `then`. -/
theorem ThenInv.access_of_eq (h : ThenInv st k) (hk : Keyed st) {t : Thread} {fr : Frame}
    {rest : List Frame} (ht : st.stackOf t = fr :: rest) {e : Effect} {frs : List Frame}
    (hn : fr.next st = some (e, frs)) (hkey : fr.key = some (.then k)) :
    ThenInv ((st.apply t e).setStack t (frs ++ rest)) k := by
  have hacts : fr ∈ st.stackOf t := mem_of_stackOf_eq ht
  -- the frame that acts is the place of the call
  obtain ⟨f, hf, hat⟩ : ∃ f, st.thens[k]? = some f ∧ fr.AtThen st k f := by
    cases h with
    | uncalled hnone hu =>
      have hlt := hk.then (mem_keys.mpr ⟨fr, hacts, hkey⟩)
      rw [List.getElem?_eq_none_iff] at hnone
      omega
    | within hf hfr' hkey' hat => exact ⟨_, hf, hk.unique hacts hkey hfr' hkey' ▸ hat⟩
    | returned hf hkeys => exact absurd (mem_keys.mpr ⟨fr, hacts, hkey⟩) (hkeys t)
  have hthens : ((st.apply t e).setStack t (frs ++ rest)).thens[k]? = some f := by
    rw [← hf]
    exact congrArg (·[k]?) (apply_thens st t e)
  cases fr with
  | thenCheck j g locked =>
    cases hkey
    obtain ⟨rfl, hu⟩ := hat
    simp only [Frame.next] at hn
    split at hn
    · cases hn
      exact .within hthens (mem_head_access ..) rfl ⟨rfl, hu, ‹_›⟩
    · cases locked with
      | false =>
        cases hn
        exact .within hthens (mem_head_access ..) rfl ⟨rfl, hu⟩
      | true =>
        cases hn
        exact .within hthens (mem_head_access ..) rfl ⟨rfl, hu, .inl ((Bool.not_eq_true _).mp ‹_›)⟩
  | thenLock j g =>
    cases hkey
    obtain ⟨rfl, hu⟩ := hat
    simp only [Frame.next] at hn
    split at hn <;> cases hn
    exact .within hthens (mem_head_access ..) rfl ⟨rfl, hu⟩
  | thenPush j g locked =>
    cases hkey
    obtain ⟨rfl, ⟨hp, hadded⟩, hset⟩ := hat
    cases hn
    have hsettled : Settled (st.apply t (.push k)) k g :=
      .inl ⟨by simpa using hp.apply t (.push k), hadded, hset⟩
    cases locked with
    | false => exact .returned hthens (hk.gone ht rfl rfl) hsettled
    | true => exact .within hthens (mem_head_access ..) rfl ⟨rfl, hsettled⟩
  | thenRegister j g =>
    cases hkey
    obtain ⟨rfl, ⟨hp, hadded⟩, hopen⟩ := hat
    cases hn
    refine .within hthens (mem_head_access ..) rfl
      ⟨rfl, .inr ⟨hp.apply t (.addCallback g (.push k)), ?_⟩⟩
    rw [show ((st.apply t (.addCallback g (.push k))).setStack t
      ([.thenUnlock k g] ++ rest)).added = st.added ++ [(g, .push k)] from rfl, futuresOf_append,
      hadded]
    simp [futuresOf, isPush]
  | thenUnlock j g =>
    cases hkey
    obtain ⟨rfl, hsettled⟩ := hat
    cases hn
    exact .returned hthens (hk.gone ht rfl rfl)
      (hsettled.imp_left fun h => ⟨h.1, h.2.1, apply_set_of_set t (.unlock g) h.2.2⟩)
  | _ => cases hkey

/-- A thread that starts another operation. -/
theorem ThenInv.start (h : ThenInv st k) (hu : Used st) {t : Thread} {fr : Frame}
    (ht : st.stackOf t = []) (hstacks : st'.stackOf = Function.update st.stackOf t [fr])
    (hkey : fr.key ≠ some (.then k)) (hthens : st'.thens[k]? = st.thens[k]?)
    (hpushed : st'.pushed = st.pushed) (hran : st'.ran = st.ran) (hadded : st'.added = st.added)
    (hset : ∀ f, (st'.shared f).set = (st.shared f).set ∨
      st.usable f = false ∧ (st'.shared f).set = true) : ThenInv st' k := by
  have hframes : ∀ t' fr', fr' ∈ st.stackOf t' → fr' ∈ st'.stackOf t' :=
    fun _ _ => mem_start ht hstacks
  refine h.keep hthens (fun t' fr' hfr' _ => hframes t' fr' hfr') (absent_start hstacks hkey)
    ?_ (by rw [hadded]) ?_ ?_
  · intro n hp
    unfold PushedBy at *
    rw [hpushed, hran, hp]
  · intro f hs
    obtain heq | ⟨-, heq⟩ := hset f
    · rw [heq, hs]
    · exact heq
  · rintro t' f hreg (hs | ⟨t'', ix, hlock⟩)
    · have husable : st.usable f = true := hu.frames t' _ hreg f (by simp [Frame.uses])
      obtain heq | ⟨hfalse, -⟩ := hset f
      · exact .inl (by rw [heq, hs])
      · simp [husable] at hfalse
    · exact .inr ⟨t'', ix, hframes t'' _ hlock⟩

end Keep

/-- **What a step does to a `then`.** -/
theorem ThenInv.step {st st' : State} {k : Nat} {a : Act} (h : ThenInv st k) (hk : Keyed st)
    (hu : Used st) (ho : Own st) (hs : step st a = some st') : ThenInv st' k := by
  obtain ⟨t, n, rfl, ht, rfl⟩ | ⟨t, call, -, hc⟩ | ⟨t, f, rfl, ht, -, rfl⟩ |
    ⟨t, fr, rest, e, frs, rfl, ht, hn, rfl⟩ := step_cases hs
  · exact h.start hu ht rfl nofun rfl rfl rfl rfl fun _ => .inl rfl
  · obtain ⟨ht, -, rfl⟩ := startCall_cases hc
    refine h.start hu (t := t) ht rfl nofun rfl rfl rfl rfl fun f => ?_
    by_cases hf : call.futures = [] ∧ f = .combined st.calls.length
    · obtain ⟨hnil, rfl⟩ := hf
      exact .inr ⟨hk.fresh _ le_rfl, by simp [State.called, hnil]⟩
    · exact .inl (by simp [State.called, hf])
  · by_cases heq : k = st.thens.length
    · -- the call that starts
      subst heq
      cases h with
      | uncalled _ hun =>
        have hplace : Frame.thenCheck st.thens.length f false ∈
            ((st.addThen f).setStack t [.thenCheck st.thens.length f false]).stackOf t := by simp
        exact .within (by simp [State.setStack, State.addThen]) hplace rfl ⟨rfl, hun⟩
      | within hf => simp at hf
      | returned hf => simp at hf
    · refine h.start hu ht rfl ?_ ?_ rfl rfl rfl fun _ => .inl rfl
      · rintro ⟨⟩
        exact heq rfl
      · show (st.thens ++ [f])[k]? = st.thens[k]?
        obtain hlt | hle := Nat.lt_or_ge k st.thens.length
        · exact List.getElem?_append_left hlt
        · have hle' : (st.thens ++ [f]).length ≤ k := by
            rw [List.length_append, List.length_singleton]
            omega
          rw [List.getElem?_eq_none hle, List.getElem?_eq_none hle']
  · by_cases hkey : fr.key = some (.then k)
    · exact h.access_of_eq hk ht hn hkey
    · exact h.access_of_ne hk hu ho ht hn hkey

/-! ## Every run -/

/-- What holds in every reachable state: the continuations' calls, and the accounts of the
callbacks they register. None comes too late. -/
structure Thens (st : State) : Prop where
  keyed : Keyed st
  used : Used st
  own : Own st
  ran : RanSet st
  «then» : ∀ k, ThenInv st k
  accounted : ∀ k f, Accounted (isPush k) f 0 st

theorem Thens.init : Thens State.init where
  keyed := .init
  used := ⟨by simp [State.init], by simp [State.init]⟩
  own := .init
  ran := nofun
  «then» := fun _ => .uncalled rfl ⟨rfl, rfl⟩
  accounted := fun k f => .init (isPush k) f

/-- A `then` registers its callback while the future is open. -/
theorem ThenInv.open_of_adds {st : State} {k : Nat} (h : ThenInv st k) (hk : Keyed st) {a : Act}
    {f : FutureId} (ha : Adds st a f (.push k)) : Open st f := by
  obtain ⟨t, fr, rest, frs, rfl, ht, hn⟩ := ha
  cases next_addPush hn
  have hacts : Frame.thenRegister k f ∈ st.stackOf t := mem_of_stackOf_eq ht
  cases h with
  | uncalled hnone =>
    have hlt := hk.then (mem_keys.mpr ⟨_, hacts, rfl⟩)
    rw [List.getElem?_eq_none_iff] at hnone
    omega
  | within hf hfr' hkey' hat =>
    cases hk.unique hacts rfl hfr' hkey'
    obtain ⟨rfl, -, hopen⟩ := hat
    exact hopen
  | returned hf hkeys => exact absurd (mem_keys.mpr ⟨_, hacts, rfl⟩) (hkeys t)

theorem Thens.step {st st' : State} {a : Act} (h : Thens st) (hs : step st a = some st') :
    Thens st' where
  keyed := h.keyed.step hs
  used := h.used.step hs
  own := h.own.step hs
  ran := h.ran.step h.keyed hs
  «then» := fun k => (h.then k).step h.keyed h.used h.own hs
  accounted := by
    intro k f
    obtain hacc | ⟨⟨cb, ha, hp, hclosed⟩, -⟩ := (h.accounted k f).step h.keyed h.used hs
    · exact hacc
    · cases of_decide_eq_true hp
      exact absurd ((h.then k).open_of_adds h.keyed ha) hclosed

theorem thens {st : State} (h : Reachable step State.init st) : Thens st :=
  h.invariant .init fun hi _ hs => hi.step hs

/-- A `then` is at a place where it has done nothing, or has settled. -/
theorem ThenInv.cases {st : State} {k : Nat} {f : FutureId} (h : ThenInv st k)
    (hk : st.thens[k]? = some f) :
    (Untouched st k ∧ ∃ t, .then k ∈ keys (st.stackOf t)) ∨ Settled st k f := by
  cases h with
  | uncalled hnone => cases hk.symm.trans hnone
  | @within g t fr hg hfr hkey hat =>
    cases hk.symm.trans hg
    have hplace : ∃ t, .then k ∈ keys (st.stackOf t) := ⟨t, mem_keys.mpr ⟨fr, hfr, hkey⟩⟩
    cases fr with
    | thenCheck | thenLock => exact .inl ⟨hat.2, hplace⟩
    | thenPush | thenRegister => exact .inl ⟨hat.2.1, hplace⟩
    | thenUnlock => exact .inr hat.2
    | _ => cases hkey
  | returned hg _ hs =>
    cases hk.symm.trans hg
    exact .inr hs

/-- **`then` pushes exactly once.** In every reachable state the continuation of a call of
`then` has been pushed at most once, and only if the future is set; and once it is set, the call
has returned and the `notice()` of the future is over, it has been pushed. -/
theorem then_pushes_once {st : State} (h : Reachable step State.init st) {k : Nat} {f : FutureId}
    (hk : st.thens[k]? = some f) :
    st.pushed.count k ≤ 1 ∧ (k ∈ st.pushed → (st.shared f).set = true) ∧
    ((st.shared f).set = true → (∀ t, .then k ∉ keys (st.stackOf t)) →
      (∀ t, .notice f ∉ keys (st.stackOf t)) → st.pushed.count k = 1) := by
  have hi := thens h
  obtain ⟨⟨hp, hadded⟩, t, hplace⟩ | ⟨hp, hadded, hset⟩ | ⟨hp, hadded⟩ := (hi.then k).cases hk
  all_goals
    have hran := ran_subperm (hi.accounted k)
    rw [hadded] at hran
  · rw [PushedBy, List.subperm_nil.mp hran] at hp
    have hzero : st.pushed.count k = 0 := hp
    exact ⟨by omega, fun hm => absurd hm (List.count_eq_zero.mp hzero),
      fun _ hthen => absurd hplace (hthen t)⟩
  · rw [PushedBy, List.subperm_nil.mp hran] at hp
    have hone : st.pushed.count k = 1 := hp
    exact ⟨hone.le, fun _ => hset, fun _ _ _ => hone⟩
  · -- what was pushed is what the future has run
    have hcount : st.pushed.count k = (futuresOf (isPush k) st.ran).length := by
      simpa [PushedBy] using hp
    have hlen := hran.length_le
    rw [← hcount, List.length_singleton] at hlen
    refine ⟨hlen, fun hm => ?_, fun hset _ hover => ?_⟩
    · have hpos := List.count_pos_iff.mpr hm
      obtain ⟨g, hg⟩ := List.exists_mem_of_length_pos (hcount ▸ hpos)
      obtain ⟨cb, hcb, -⟩ := mem_futuresOf.mp hg
      rw [← List.mem_singleton.mp (hran.subset hg)]
      exact hi.ran g cb hcb
    · have hall := (hi.accounted k f).eq_of_done hset hover
      rw [hadded, List.count_singleton_self] at hall
      have hle := List.count_le_length (a := f) (l := futuresOf (isPush k) st.ran)
      omega

/-- A continuation registered before the completion: it is pushed by the `notice()`. -/
theorem then_pushes_once_registered :
    ∃ st, Reachable step State.init st ∧ st.thens = [.task 0] ∧
      st.added = [(.task 0, .push 0)] ∧ st.pushed.count 0 = 1 := by
  obtain ⟨st, hrun, hp⟩ := exists_run_of_exec step (fun _ a => decide (a.thread ∈ [1, 2]))
    State.init
    ([.then 1 (.task 0)] ++ List.replicate 5 (.step 1) ++ [.complete 2 0] ++
      List.replicate 5 (.step 2))
    (fun st => decide (st.thens = [.task 0] ∧ st.added = [(.task 0, .push 0)] ∧
      (st.shared (.task 0)).set = true ∧ st.stackOf 1 = [] ∧ st.stackOf 2 = [])) (by decide)
  obtain ⟨hk, hadded, hset, h₁, h₂⟩ := of_decide_eq_true hp
  have hidle : ∀ t x, x ∉ keys (st.stackOf t) := by
    intro t x
    rw [idle_of_run (hrun.mono fun h => of_decide_eq_true h) (by simp [h₁, h₂]) t]
    exact List.not_mem_nil
  exact ⟨st, hrun.reachable, hk, hadded,
    (then_pushes_once hrun.reachable (by rw [hk]; rfl)).2.2 hset (fun t => hidle t _) fun t => hidle t _⟩

end Primitives.Future
