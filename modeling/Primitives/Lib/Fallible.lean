import Mathlib.Data.List.Basic

/-!
# Computations that can fail

What is known of a computation in `Except` that has succeeded, or failed: a sequence of two of them,
and a fold over a list, for which there is an invariant rule (`foldlM_invariant`) and a check along the
fold that tells whether a step of it fails (`allSteps`, `foldlM_eq_error_iff_allSteps`).

For `Option` a result and the condition under which there is one are told at once (`ResultIff`), which a
fold takes over from its steps where a condition that fails stays false (`ResultIff.foldlM`).
-/

set_option autoImplicit false

namespace Primitives.Lib

variable {ε α β : Type}

theorem of_bind_eq_ok {x : Except ε α} {f : α → Except ε β} {b : β} (h : x >>= f = .ok b) :
    ∃ a, x = .ok a ∧ f a = .ok b := by
  cases x with
  | error e => cases h
  | ok a => exact ⟨a, rfl, h⟩

/-- What is read back of each element is read back of all of them. -/
theorem mapM_map_eq_ok {f : β → Except ε α} {g : α → β} (h : ∀ a, f (g a) = .ok a) (l : List α) :
    (l.map g).mapM f = .ok l := by
  induction l with
  | nil => rfl
  | cons a l ih =>
    rw [List.map_cons, List.mapM_cons, h, ih]
    rfl

theorem not_exists_error_eq_ok {e : ε} : ¬ ∃ b : β, (Except.error e : Except ε β) = .ok b := by
  rintro ⟨b, h⟩
  cases h

theorem not_exists_ok_eq_error {a : α} : ¬ ∃ e : ε, (Except.ok a : Except ε α) = .error e := by
  rintro ⟨e, h⟩
  cases h

theorem bind_eq_error_iff {x : Except ε α} {f : α → Except ε β} {e : ε} :
    x >>= f = .error e ↔ x = .error e ∨ ∃ a, x = .ok a ∧ f a = .error e := by
  cases x with
  | error e' =>
    constructor
    · intro h
      cases h
      exact .inl rfl
    · rintro (h | ⟨a, ha, -⟩)
      · cases h
        rfl
      · cases ha
  | ok a =>
    constructor
    · exact fun h => .inr ⟨a, rfl, h⟩
    · rintro (h | ⟨a', ha, h⟩)
      · cases h
      · cases ha
        exact h

variable {f : β → α → Except ε β} {b b' : β} {l : List α}

/-- **An invariant of a fold**: what holds at the start and is kept by every step. -/
theorem foldlM_invariant (inv : β → Prop) (h : l.foldlM f b = .ok b') (hinit : inv b)
    (hstep : ∀ {b b' : β} {a : α}, a ∈ l → inv b → f b a = .ok b' → inv b') : inv b' := by
  induction l generalizing b with
  | nil =>
    cases h
    exact hinit
  | cons a l ih =>
    rw [List.foldlM_cons] at h
    obtain ⟨b₁, hb₁, h⟩ := of_bind_eq_ok h
    exact ih h (hstep List.mem_cons_self hinit hb₁)
      fun ha => hstep (List.mem_cons_of_mem _ ha)

/-- A check of every step that a fold does, in the state in which it does it. -/
def allSteps (check : β → α → Bool) (f : β → α → Except ε β) : β → List α → Bool
  | _, [] => true
  | b, a :: l =>
    check b a &&
      match f b a with
      | .ok b => allSteps check f b l
      | .error _ => true

/-- If the check tells which steps fail with `e`, it tells it of the fold. -/
theorem foldlM_eq_error_iff_allSteps {check : β → α → Bool} {e : ε}
    (h : ∀ b a, f b a = .error e ↔ check b a = false) :
    l.foldlM f b = .error e ↔ allSteps check f b l = false := by
  induction l generalizing b with
  | nil => exact iff_of_false (fun h => by cases h) Bool.false_ne_true.symm
  | cons a l ih =>
    rw [List.foldlM_cons, bind_eq_error_iff, h, allSteps, Bool.and_eq_false_iff]
    refine or_congr_right ?_
    cases hb : f b a with
    | error e' =>
      refine iff_of_false ?_ Bool.false_ne_true.symm
      rintro ⟨b', hb', -⟩
      cases hb'
    | ok b' =>
      rw [← ih]
      constructor
      · rintro ⟨b'', hb'', h⟩
        cases hb''
        exact h
      · exact fun h => ⟨b', rfl, h⟩

/-! ## Results under a condition -/

/-- There is a result exactly if `ok` holds, and each result has the property `post`. -/
structure ResultIff {α : Type} (x : Option α) (ok : Prop) (post : α → Prop) : Prop where
  isSome_iff : x.isSome = true ↔ ok
  post : ∀ a, x = some a → post a

namespace ResultIff

variable {σ τ γ α : Type} {x : Option σ} {ok ok' : Prop} {post : σ → Prop} {post' : τ → Prop}

theorem of_some {a : σ} (hok : ok) (h : post a) : ResultIff (some a) ok post :=
  ⟨iff_of_true rfl hok, fun _ hb => Option.some.inj hb ▸ h⟩

theorem of_none (hok : ¬ ok) : ResultIff none ok post :=
  ⟨iff_of_false Bool.false_ne_true hok, fun _ h => by cases h⟩

theorem exists_of_ok (h : ResultIff x ok post) (hok : ok) : ∃ a, x = some a ∧ post a := by
  obtain ⟨a, ha⟩ := Option.isSome_iff_exists.mp (h.isSome_iff.mpr hok)
  exact ⟨a, ha, h.post a ha⟩

theorem ok_of_some (h : ResultIff x ok post) {a : σ} (ha : x = some a) : ok :=
  h.isSome_iff.mp (ha ▸ rfl)

theorem bind {f : σ → Option τ} (h : ResultIff x ok post) (hle : ok' → ok)
    (hf : ok → ∀ a, post a → ResultIff (f a) ok' post') : ResultIff (x.bind f) ok' post' := by
  cases hx : x with
  | none =>
    refine of_none fun hok => ?_
    obtain ⟨a, ha, -⟩ := h.exists_of_ok (hle hok)
    cases hx.symm.trans ha
  | some a => exact hf (h.ok_of_some hx) a (h.post a hx)

/-- **A fold takes over from its steps** what they do to an abstract state `c`. -/
theorem foldlM {R : γ → σ → Prop} {ok : γ → Prop} {f : σ → α → Option σ} {g : γ → α → γ} {l : List α}
    (hmono : ∀ c a, ok (g c a) → ok c)
    (hstep : ∀ c s a, a ∈ l → R c s → ok c → ResultIff (f s a) (ok (g c a)) (R (g c a)))
    {c : γ} {s : σ} (hR : R c s) (hok : ok c) :
    ResultIff (l.foldlM f s) (ok (l.foldl g c)) (R (l.foldl g c)) := by
  induction l generalizing c s with
  | nil => exact of_some hok hR
  | cons a l ih =>
    have hle : ∀ (l : List α) (c : γ), ok (l.foldl g c) → ok c := by
      intro l
      induction l with
      | nil => exact fun _ h => h
      | cons a l ih => exact fun c h => hmono c a (ih _ h)
    rw [List.foldlM_cons, List.foldl_cons]
    exact (hstep c s a List.mem_cons_self hR hok).bind (hle l _) fun hok s hR =>
      ih (fun c s a ha => hstep c s a (List.mem_cons_of_mem _ ha)) hR hok

end ResultIff

end Primitives.Lib
