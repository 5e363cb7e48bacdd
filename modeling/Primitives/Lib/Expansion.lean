import Mathlib.Data.Set.Finite.Basic
import Mathlib.Logic.Relation
import Mathlib.Order.WellFoundedSet

/-!
# Lists that refer to lists

Lists have names, and some of their elements are references: `ref` says which list such an element
names. An expansion replaces every reference by the expansion of the list it names. Where no list
refers to itself, directly or through others, there is one expansion (`exists_isExpansion`,
`IsExpansion.unique`); it has no references (`IsExpansion.plain`), and it stays the expansion while
lists are replaced by theirs one after the other (`IsExpansion.of_partial`). Lists that are turned
around have the expansion turned around (`IsExpansion.reverse`).
-/

set_option autoImplicit false

namespace Primitives.Lib.Expansion

variable {α κ : Type} (ref : α → Option κ)

/-- What stands for an element when the lists are those of `X`. -/
def replaced (X : κ → List α) (x : α) : List α :=
  match ref x with
  | none => [x]
  | some k => X k

/-- The list `j` has a reference to the list `k`. -/
def Refers (f : κ → List α) (j k : κ) : Prop := ∃ x ∈ f j, ref x = some k

/-- No list refers to itself, directly or through others. -/
def Acyclic (f : κ → List α) : Prop := ∀ k, ¬ Relation.TransGen (Refers ref f) k k

/-- The lists of `X` are those of `f`, with every reference replaced by the list of `X` it names. -/
def IsExpansion (f X : κ → List α) : Prop := ∀ k, X k = (f k).flatMap (replaced ref X)

variable {ref} {f g X Y : κ → List α}

theorem replaced_of_none {x : α} (h : ref x = none) : replaced ref X x = [x] := by
  rw [replaced, h]

theorem replaced_of_some {x : α} {k : κ} (h : ref x = some k) : replaced ref X x = X k := by
  rw [replaced, h]

/-- A list without references stays as it is. -/
theorem flatMap_replaced_of_plain {l : List α} (h : ∀ x ∈ l, ref x = none) :
    l.flatMap (replaced ref X) = l := by
  induction l with
  | nil => rfl
  | cons x l ih =>
    rw [List.flatMap_cons, replaced_of_none (h x List.mem_cons_self),
      ih fun y hy => h y (List.mem_cons_of_mem x hy)]
    rfl

theorem reverse_flatMap_replaced (l : List α) :
    (l.flatMap (replaced ref X)).reverse = l.reverse.flatMap (replaced ref fun k => (X k).reverse) := by
  induction l with
  | nil => rfl
  | cons x l ih =>
    have hx : (replaced ref X x).reverse = replaced ref (fun k => (X k).reverse) x := by
      cases href : ref x with
      | none =>
        rw [replaced_of_none href, replaced_of_none href]
        rfl
      | some k => rw [replaced_of_some href, replaced_of_some href]
    rw [List.flatMap_cons, List.reverse_append, ih, List.reverse_cons, List.flatMap_append, hx,
      List.flatMap_singleton]

/-- **Turned around lists** have the expansion turned around. -/
theorem IsExpansion.reverse (h : IsExpansion ref f X) :
    IsExpansion ref (fun k => (f k).reverse) fun k => (X k).reverse := by
  intro k
  show (X k).reverse = _
  rw [h k, reverse_flatMap_replaced]

/-- Lists as long as one another, put at the same places, give the same list only if they are the
same. -/
theorem eq_of_flatMap_replaced_eq (hlen : ∀ k, (X k).length = (Y k).length) {l : List α}
    (h : l.flatMap (replaced ref X) = l.flatMap (replaced ref Y)) {x : α} (hx : x ∈ l) {k : κ}
    (hk : ref x = some k) : X k = Y k := by
  induction l with
  | nil => cases hx
  | cons y l ih =>
    have hy : (replaced ref X y).length = (replaced ref Y y).length := by
      cases href : ref y with
      | none => rw [replaced_of_none href, replaced_of_none href]
      | some j => rw [replaced_of_some href, replaced_of_some href, hlen j]
    rw [List.flatMap_cons, List.flatMap_cons] at h
    -- the first parts are as long as one another, so the rests begin at the same place
    obtain ⟨hhead, htail⟩ := List.append_inj h hy
    rcases List.mem_cons.mp hx with rfl | hx
    · rwa [replaced_of_some hk, replaced_of_some hk] at hhead
    · exact ih htail hx

theorem flatMap_replaced_congr {l : List α} (h : ∀ x ∈ l, ∀ k, ref x = some k → X k = Y k) :
    l.flatMap (replaced ref X) = l.flatMap (replaced ref Y) := by
  refine List.flatMap_congr fun x hx => ?_
  cases href : ref x with
  | none => rw [replaced_of_none href, replaced_of_none href]
  | some k => rw [replaced_of_some href, replaced_of_some href, h x hx k href]

/-! ## Lists without circles -/

/-- Where finitely many lists have references and none refers to itself, references lead to an end. -/
theorem wellFounded_of_acyclic {s : Set κ} (hs : s.Finite) (hf : ∀ k, k ∉ s → f k = [])
    (h : Acyclic ref f) : WellFounded (flip (Refers ref f)) := by
  let r : κ → κ → Prop := flip (Relation.TransGen (Refers ref f))
  have hirrefl : Std.Irrefl r := ⟨h⟩
  have htrans : IsTrans κ r := ⟨fun _ _ _ hab hbc => hbc.trans hab⟩
  have hstrict : IsStrictOrder κ r := {}
  have hwf : s.WellFoundedOn r := hs.wellFoundedOn
  -- what has no list is an end
  have hend : ∀ k, k ∉ s → Acc (flip (Refers ref f)) k := by
    intro k hk
    refine ⟨k, fun j hj => ?_⟩
    obtain ⟨x, hx, -⟩ := hj
    rw [hf k hk] at hx
    cases hx
  refine ⟨fun k => ?_⟩
  by_cases hk : k ∈ s
  · refine hwf.induction hk fun j hj ih => ⟨j, fun i hi => ?_⟩
    by_cases hi' : i ∈ s
    · exact ih i hi' (.single hi)
    · exact hend i hi'
  · exact hend k hk

theorem acyclic_of_wellFounded (h : WellFounded (flip (Refers ref f))) : Acyclic ref f := by
  intro k
  induction k using h.induction with
  | _ k ih =>
    intro hk
    -- the next list of the circle is on a circle as well
    obtain ⟨j, hkj, hjk⟩ := Relation.TransGen.head'_iff.mp hk
    exact ih j hkj (Relation.TransGen.tail' hjk hkj)

open Classical in
/-- **Lists without circles have an expansion.** -/
theorem exists_isExpansion (h : WellFounded (flip (Refers ref f))) : ∃ X, IsExpansion ref f X := by
  let step : (k : κ) → ((j : κ) → flip (Refers ref f) j k → List α) → List α := fun k X =>
    (f k).flatMap (replaced ref fun j => if hj : flip (Refers ref f) j k then X j hj else [])
  refine ⟨h.fix step, fun k => ?_⟩
  rw [h.fix_eq]
  -- a reference of `k` leads below `k`, so that nothing is left out
  refine flatMap_replaced_congr fun x hx j hj => ?_
  exact dif_pos ⟨x, hx, hj⟩

/-- **There is one expansion only.** -/
theorem IsExpansion.unique (h : WellFounded (flip (Refers ref f))) (hX : IsExpansion ref f X)
    (hY : IsExpansion ref f Y) : X = Y := by
  funext k
  induction k using h.induction with
  | _ k ih =>
    rw [hX k, hY k]
    exact flatMap_replaced_congr fun x hx j hj => ih j ⟨x, hx, hj⟩

/-- **An expansion has no references.** -/
theorem IsExpansion.plain (h : WellFounded (flip (Refers ref f))) (hX : IsExpansion ref f X) (k : κ) :
    ∀ x ∈ X k, ref x = none := by
  induction k using h.induction with
  | _ k ih =>
    intro x hx
    rw [hX k] at hx
    obtain ⟨y, hy, hx⟩ := List.mem_flatMap.mp hx
    cases href : ref y with
    | none =>
      rw [replaced_of_none href] at hx
      rw [List.mem_singleton.mp hx, href]
    | some j =>
      rw [replaced_of_some href] at hx
      exact ih j ⟨y, hy, href⟩ x hx

/-- **Lists that are expanded in part** have the same expansion. -/
theorem IsExpansion.of_partial (h : WellFounded (flip (Refers ref f))) (hX : IsExpansion ref f X)
    (hg : ∀ k, g k = f k ∨ g k = X k) : IsExpansion ref g X := by
  intro k
  rcases hg k with hk | hk
  · rw [hk]
    exact hX k
  · rw [hk, flatMap_replaced_of_plain (hX.plain h k)]

/-- They refer to nothing else. -/
theorem IsExpansion.refers_of_partial (h : WellFounded (flip (Refers ref f))) (hX : IsExpansion ref f X)
    (hg : ∀ k, g k = f k ∨ g k = X k) {j k : κ} (hr : Refers ref g j k) : Refers ref f j k := by
  obtain ⟨x, hx, href⟩ := hr
  rcases hg j with hj | hj
  · exact ⟨x, hj ▸ hx, href⟩
  · rw [hj] at hx
    rw [hX.plain h j x hx] at href
    cases href

/-- **A list is worked off** by replacing its first element again and again, where it is a reference,
and dropping it else: what holds of the empty list and back along these steps holds of the list. -/
theorem worked_off {P : List α → Prop} (allowed : κ → Prop) (h : WellFounded (flip (Refers ref f)))
    (hnil : P []) (hplain : ∀ x l, ref x = none → P l → P (x :: l))
    (href : ∀ x l k, ref x = some k → allowed k → P ((f k).reverse ++ l) → P (x :: l))
    (hallowed : ∀ j k, allowed j → Refers ref f j k → allowed k) {l : List α}
    (hl : ∀ x ∈ l, ∀ k, ref x = some k → allowed k) : P l := by
  -- in front of a list of which it holds, a list may be put whose references are worked off
  have happend : ∀ l l' : List α, P l' →
      (∀ x ∈ l, ∀ k, ref x = some k → allowed k ∧ ∀ l', P l' → P ((f k).reverse ++ l')) →
      P (l ++ l') := by
    intro l l' hl' hrefs
    induction l with
    | nil => exact hl'
    | cons x l ih =>
      have hrest : P (l ++ l') := ih fun y hy => hrefs y (List.mem_cons_of_mem x hy)
      cases hx : ref x with
      | none => exact hplain x (l ++ l') hx hrest
      | some k =>
        obtain ⟨hk, hput⟩ := hrefs x List.mem_cons_self k hx
        exact href x (l ++ l') k hx hk (hput (l ++ l') hrest)
  have hlists : ∀ k, allowed k → ∀ l', P l' → P ((f k).reverse ++ l') := by
    -- along the references, which lead to an end
    intro k
    induction k using h.induction with
    | _ k ih =>
      intro hk l' hl'
      refine happend _ l' hl' fun x hx j hj => ?_
      have hr : Refers ref f k j := ⟨x, List.mem_reverse.mp hx, hj⟩
      exact ⟨hallowed k j hk hr, ih j hr (hallowed k j hk hr)⟩
  have hfin : P (l ++ []) := happend l [] hnil fun x hx k hk => ⟨hl x hx k hk, hlists k (hl x hx k hk)⟩
  rwa [List.append_nil] at hfin

end Primitives.Lib.Expansion
