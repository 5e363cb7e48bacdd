import Mathlib.Data.List.Basic
import Mathlib.Data.List.TakeWhile

/-!
# Grammars without ambiguity

A nonterminal of a grammar is a relation of values and the lists of tokens that they are derived with. It
is definite before certain rests if, of a list that begins with something derived and goes on with such a
rest, only one value can be read, and it ends at one place (`Definite`). That is what one needs to know of
the parts of a production: a list of definite items with definite separators is definite again
(`SepBy.definite`), and so is what ends at the first token of another class (`Definite.of_class`).

Items that are known by themselves where they end can be put one behind another: every list is such items
and a rest that begins with none (`exists_flatMap`), and it is so in one way (`SelfDelimiting.unique`).
-/

set_option autoImplicit false

namespace Primitives.Lib

variable {α τ : Type}

/-- What is read before certain rests is known, and where it ends. -/
def Definite (derives : α → List τ → Prop) (follow : List τ → Prop) : Prop :=
  ∀ ⦃a a' : α⦄ ⦃ts ts' rest rest' : List τ⦄, derives a ts → derives a' ts' → follow rest → follow rest' →
    ts ++ rest = ts' ++ rest' → a = a' ∧ ts = ts'

theorem Definite.mono {derives : α → List τ → Prop} {follow follow' : List τ → Prop}
    (h : Definite derives follow) (hf : ∀ {rest}, follow' rest → follow rest) :
    Definite derives follow' :=
  fun _ _ _ _ _ _ ha ha' hr hr' heq => h ha ha' (hf hr) (hf hr') heq

/-- The value and the rest. -/
theorem Definite.split {derives : α → List τ → Prop} {follow : List τ → Prop}
    (h : Definite derives follow) {a a' : α} {ts ts' rest rest' : List τ} (ha : derives a ts)
    (ha' : derives a' ts') (hr : follow rest) (hr' : follow rest') (heq : ts ++ rest = ts' ++ rest') :
    a = a' ∧ rest = rest' := by
  obtain ⟨hvalue, rfl⟩ := h ha ha' hr hr' heq
  exact ⟨hvalue, List.append_cancel_left heq⟩

/-! ## Classes of tokens -/

/-- The first token is of the class. -/
def Begins (p : τ → Bool) (ts : List τ) : Prop := ∃ t us, ts = t :: us ∧ p t = true

theorem Begins.append {p : τ → Bool} {ts us : List τ} (h : Begins p ts) : Begins p (ts ++ us) := by
  obtain ⟨t, ts, rfl, ht⟩ := h
  exact ⟨t, ts ++ us, rfl, ht⟩

/-- The first token is not of the class, or there is none. -/
def Stops (p : τ → Bool) (ts : List τ) : Prop := ∀ t us, ts = t :: us → p t = false

theorem stops_nil {p : τ → Bool} : Stops p [] := fun _ _ h => by cases h

theorem stops_cons {p : τ → Bool} {t : τ} {ts : List τ} (h : p t = false) : Stops p (t :: ts) := by
  rintro t' us heq
  cases heq
  exact h

theorem takeWhile_of_stops {p : τ → Bool} {ts rest : List τ} (hts : ∀ t ∈ ts, p t = true)
    (hrest : Stops p rest) : (ts ++ rest).takeWhile p = ts := by
  have hnil : rest.takeWhile p = [] := by
    cases rest with
    | nil => rfl
    | cons t us => exact List.takeWhile_cons_of_neg (Bool.eq_false_iff.mp (hrest t us rfl))
  rw [List.takeWhile_append_of_pos hts, hnil, List.append_nil]

/-- What is derived with the tokens of a class ends at the first other token. -/
theorem Definite.of_class {derives : α → List τ → Prop} {p : τ → Bool}
    (hclass : ∀ {a ts}, derives a ts → ∀ t ∈ ts, p t = true)
    (hone : ∀ {a a' ts}, derives a ts → derives a' ts → a = a') : Definite derives (Stops p) := by
  intro a a' ts ts' rest rest' ha ha' hr hr' heq
  have hts : ts = ts' := by
    rw [← takeWhile_of_stops (hclass ha) hr, heq, takeWhile_of_stops (hclass ha') hr']
  subst hts
  exact ⟨hone ha ha', rfl⟩

/-- What is derived with one token ends behind it. -/
theorem Definite.of_single {derives : α → List τ → Prop}
    (hsingle : ∀ {a ts}, derives a ts → ∃ t, ts = [t])
    (hone : ∀ {a a' ts}, derives a ts → derives a' ts → a = a') : Definite derives fun _ => True := by
  intro a a' ts ts' rest rest' ha ha' _ _ heq
  obtain ⟨t, rfl⟩ := hsingle ha
  obtain ⟨t', rfl⟩ := hsingle ha'
  cases heq
  exact ⟨hone ha ha', rfl⟩

/-! ## Lists -/

/-- `list: item | list separator item` -/
inductive SepBy (item : α → List τ → Prop) (sep : Unit → List τ → Prop) : List α → List τ → Prop
  | one {a : α} {ts : List τ} (ha : item a ts) : SepBy item sep [a] ts
  | more {as : List α} {a : α} {ts us vs : List τ} (h : SepBy item sep as ts) (hs : sep () us)
      (ha : item a vs) : SepBy item sep (as ++ [a]) (ts ++ (us ++ vs))

namespace SepBy

variable {item : α → List τ → Prop} {sep : Unit → List τ → Prop} {as : List α} {ts : List τ}

theorem cons {a : α} {us vs : List τ} (ha : item a ts) (hs : sep () us) (h : SepBy item sep as vs) :
    SepBy item sep (a :: as) (ts ++ (us ++ vs)) := by
  induction h with
  | one hb => exact more (one ha) hs hb
  | @more as b vs us' ws h hs' hb ih =>
    have hmore := more ih hs' hb
    simpa only [List.append_assoc, List.cons_append] using hmore

/-- The first item, and what follows. -/
theorem cases_first (h : SepBy item sep as ts) :
    (∃ a, as = [a] ∧ item a ts) ∨
      ∃ a bs us vs ws, as = a :: bs ∧ ts = us ++ (vs ++ ws) ∧ item a us ∧ sep () vs ∧
        SepBy item sep bs ws := by
  induction h with
  | one ha => exact .inl ⟨_, rfl, ha⟩
  | @more as b ts us vs h hs hb ih =>
    right
    rcases ih with ⟨a, rfl, ha⟩ | ⟨a, bs, us', vs', ws, rfl, rfl, ha, hs', hbs⟩
    · exact ⟨a, [b], ts, us, vs, rfl, rfl, ha, hs, one hb⟩
    · refine ⟨a, bs ++ [b], us', vs', ws ++ (us ++ vs), rfl, ?_, ha, hs', more hbs hs hb⟩
      simp only [List.append_assoc]

theorem ne_nil (h : SepBy item sep as ts) : as ≠ [] := by
  cases h with
  | one ha => exact List.cons_ne_nil _ _
  | more h hs ha => exact List.append_ne_nil_of_right_ne_nil _ (List.cons_ne_nil _ _)

/-- What is true of items that are derived with the tokens of a class. -/
theorem forall_mem {P : α → Prop} {Q : τ → Prop} (h : SepBy item sep as ts)
    (hitem : ∀ {a us}, item a us → (∀ t ∈ us, Q t) → P a) (hts : ∀ t ∈ ts, Q t) : ∀ a ∈ as, P a := by
  induction h with
  | one ha =>
    intro b hb
    rw [List.mem_singleton.mp hb]
    exact hitem ha hts
  | more h hs ha ih =>
    intro b hb
    rcases List.mem_append.mp hb with hb | hb
    · exact ih (fun t ht => hts t (List.mem_append_left _ ht)) b hb
    · rw [List.mem_singleton.mp hb]
      refine hitem ha fun t ht => hts t ?_
      exact List.mem_append_right _ (List.mem_append_right _ ht)

/-- A class that the tokens of items and separators belong to. -/
theorem forall_token {P : τ → Prop} (h : SepBy item sep as ts)
    (hitem : ∀ {a us}, item a us → ∀ t ∈ us, P t) (hsep : ∀ {us}, sep () us → ∀ t ∈ us, P t) :
    ∀ t ∈ ts, P t := by
  induction h with
  | one ha => exact hitem ha
  | more h hs ha ih =>
    intro t ht
    rcases List.mem_append.mp ht with ht | ht
    · exact ih t ht
    · rcases List.mem_append.mp ht with ht | ht
      · exact hsep hs t ht
      · exact hitem ha t ht

theorem begins {p : τ → Bool} (h : SepBy item sep as ts) (hitem : ∀ {a us}, item a us → Begins p us) :
    Begins p ts := by
  induction h with
  | one ha => exact hitem ha
  | more h hs ha ih =>
    obtain ⟨t, us, rfl, ht⟩ := ih
    exact ⟨t, _, rfl, ht⟩

/-- **A list** of definite items, with definite separators before the items. -/
theorem definite (first : τ → Bool) {inner follow : List τ → Prop} (hitem : Definite item inner)
    (hfirst : ∀ {a us}, item a us → Begins first us) (hsep : Definite sep (Begins first))
    (hinner : ∀ {us vs}, sep () us → Begins first vs → inner (us ++ vs))
    (hfollow : ∀ {rest}, follow rest → inner rest)
    (hstop : ∀ {us vs}, sep () us → Begins first vs → ¬ follow (us ++ vs)) :
    Definite (SepBy item sep) follow := by
  intro as
  induction as with
  | nil =>
    intro _ _ _ _ _ h
    exact absurd rfl h.ne_nil
  | cons a as ih =>
    intro as' ts ts' rest rest' h h' hr hr' heq
    have hbegins : ∀ {bs ws rest}, SepBy item sep bs ws → Begins first (ws ++ rest) := by
      intro bs ws rest hbs
      obtain ⟨t, us, rfl, ht⟩ := hbs.begins hfirst
      exact ⟨t, _, rfl, ht⟩
    rcases h.cases_first with ⟨b, hb, ha⟩ | ⟨b, bs, us, vs, ws, hb, rfl, ha, hs, hbs⟩
    · cases hb
      rcases h'.cases_first with ⟨b', rfl, ha'⟩ | ⟨b', bs', us', vs', ws', rfl, rfl, ha', hs', hbs'⟩
      · obtain ⟨rfl, rfl⟩ := hitem ha ha' (hfollow hr) (hfollow hr') heq
        exact ⟨rfl, rfl⟩
      · -- the other list goes on where this one ends
        simp only [List.append_assoc] at heq
        obtain ⟨-, hrest⟩ := hitem.split ha ha' (hfollow hr) (hinner hs' (hbegins hbs')) heq
        rw [hrest] at hr
        exact absurd hr (hstop hs' (hbegins hbs'))
    · cases hb
      rcases h'.cases_first with ⟨b', rfl, ha'⟩ | ⟨b', bs', us', vs', ws', rfl, rfl, ha', hs', hbs'⟩
      · simp only [List.append_assoc] at heq
        obtain ⟨-, hrest⟩ := hitem.split ha ha' (hinner hs (hbegins hbs)) (hfollow hr') heq
        rw [← hrest] at hr'
        exact absurd hr' (hstop hs (hbegins hbs))
      · simp only [List.append_assoc] at heq
        obtain ⟨rfl, rfl⟩ := hitem ha ha' (hinner hs (hbegins hbs)) (hinner hs' (hbegins hbs')) heq
        have hrest := List.append_cancel_left heq
        obtain ⟨-, rfl⟩ := hsep hs hs' (hbegins hbs) (hbegins hbs') hrest
        obtain ⟨rfl, rfl⟩ := ih hbs hbs' hr hr' (List.append_cancel_left hrest)
        exact ⟨rfl, rfl⟩

end SepBy

/-! ## Items one behind another -/

section

variable {text : α → List τ}

/-- Where an item is read, no other one can be, whatever follows. -/
def SelfDelimiting (text : α → List τ) : Prop :=
  ∀ ⦃a a' : α⦄ ⦃rest rest' : List τ⦄, text a ++ rest = text a' ++ rest' → a = a' ∧ rest = rest'

/-- The list begins with no item. -/
def NoItem (text : α → List τ) (rest : List τ) : Prop := ∀ a s, rest ≠ text a ++ s

/-- **There is one way** to read items up to where none begins. -/
theorem SelfDelimiting.unique (h : SelfDelimiting text) {as as' : List α} {rest rest' : List τ}
    (hr : NoItem text rest) (hr' : NoItem text rest')
    (heq : as.flatMap text ++ rest = as'.flatMap text ++ rest') : as = as' ∧ rest = rest' := by
  induction as generalizing as' with
  | nil =>
    cases as' with
    | nil => exact ⟨rfl, heq⟩
    | cons a' as' =>
      rw [List.flatMap_cons, List.append_assoc] at heq
      exact absurd heq (hr a' _)
  | cons a as ih =>
    cases as' with
    | nil =>
      rw [List.flatMap_cons, List.append_assoc] at heq
      exact absurd heq.symm (hr' a _)
    | cons a' as' =>
      rw [List.flatMap_cons, List.flatMap_cons, List.append_assoc, List.append_assoc] at heq
      obtain ⟨rfl, heq'⟩ := h heq
      obtain ⟨rfl, hrest⟩ := ih heq'
      exact ⟨rfl, hrest⟩

/-- **Every list is read** up to where no item begins. -/
theorem exists_flatMap (hne : ∀ a, text a ≠ []) (ts : List τ) :
    ∃ (as : List α) (rest : List τ), ts = as.flatMap text ++ rest ∧ NoItem text rest := by
  induction hn : ts.length using Nat.strong_induction_on generalizing ts with
  | _ n ih =>
    by_cases h : NoItem text ts
    · exact ⟨[], ts, rfl, h⟩
    · simp only [NoItem, ne_eq, not_forall, not_not] at h
      obtain ⟨a, s, rfl⟩ := h
      have hlt : s.length < n := by
        have hpos : 0 < (text a).length := List.length_pos_iff.mpr (hne a)
        rw [List.length_append] at hn
        omega
      obtain ⟨as, rest, rfl, hrest⟩ := ih s.length hlt s rfl
      exact ⟨a :: as, rest, by rw [List.flatMap_cons, List.append_assoc], hrest⟩

end

end Primitives.Lib
