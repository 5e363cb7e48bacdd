import Mathlib.Data.Finset.Card
import Primitives.Lib.Expansion
import Primitives.Lib.Fallible
import Primitives.Makefile.Model

/-!
# Makefile.am — variables in variables

`resolve_variables` of `makefile.h`: an element `$(k)` of a list is taken out and the elements of the
variable `k` are put in, each at the same place, so that they come to stand in the opposite order;
then the first of them is looked at. The list of `k` may have been resolved before, if `k` is less
than the variable at hand, or still have references.

What is put in for a reference comes out turned around, whether it was resolved before or not. So the
result is the list that is meant exactly where what a variable that is referred to stands for is the
same from both ends (`resolvesInOrder_iff`). A variable that refers to itself, directly or through
others, is never done: either the loop has no end, or it changes the list that it goes over.
-/

set_option autoImplicit false

namespace Primitives.Makefile

open Lib Lib.Expansion

/-! ## The code -/

inductive ResolveFailure where
  /-- The bound on the steps is used up. -/
  | outOfSteps
  /-- A vector is changed by a loop over it: undefined behaviour. -/
  | changedInLoop
  /-- `++i` of the greatest `int`: undefined behaviour. -/
  | overflow
deriving DecidableEq, Repr

/-- The greatest `int`. -/
def intMax : Nat := 2 ^ 31 - 1

/-- The name `k` of an element `$(k)`. -/
def reference? (l : Str) : Option Str :=
  if ['$', '('] <+: l ∧ [')'] <:+ l then some ((l.drop 2).take (l.length - 3)) else none

/-- The elements of `variables[k]`: none, if there is no such variable. -/
def elements (v : Variables) (k : Str) : Strings := (v.lookup k).getD []

/-- `for (auto &&l2 : l2s) lst.insert(lst.begin() + i + 1, l2);` -/
def insertAll (i : Nat) (lst l2s : Strings) : Strings :=
  l2s.foldl (fun lst l2 => lst.insertIdx (i + 1) l2) lst

/-- The loop over the list of a variable, with a bound on its steps. `variables[k]` is there
afterwards. The list at hand, which is not looked up but in the case of undefined behaviour, is kept
apart from the map. -/
def resolveList : Nat → Variables → Str → Nat → Strings → Except ResolveFailure (Variables × Strings)
  | 0, _, _, _, _ => .error .outOfSteps
  | n + 1, v, key, i, lst =>
    match lst[i]? with
    | none => .ok (v, lst)
    | some l =>
      match reference? l with
      | none => if i = intMax then .error .overflow else resolveList n v key (i + 1) lst
      | some k =>
        if k = key then .error .changedInLoop
        -- `--i`, and `++i` of the loop
        else resolveList n (v.update k [] id) key i ((insertAll i lst (elements v k)).eraseIdx i)

/-- The loop over the map, behind the variable `last`. -/
def resolveFrom : Nat → Variables → Option Str → Except ResolveFailure Variables
  | 0, _, _ => .error .outOfSteps
  | n + 1, v, last =>
    match v.nextEntry last with
    | none => .ok v
    | some (key, lst) => do
      -- entries that are added here are visited as well, if they stand behind `key`
      let (v, lst) ← resolveList n v key 0 lst
      resolveFrom n (v.update key [] fun _ => lst) (some key)

def resolveVariables (n : Nat) (v : Variables) : Except ResolveFailure Variables := resolveFrom n v none

/-! ## What a step does -/

theorem elements_update (v : Variables) (k : Str) (f : Strings → Strings) (k' : Str) :
    elements (v.update k [] f) k' = if k' = k then f (elements v k) else elements v k' := by
  rw [elements, SortedMap.lookup_update]
  split
  · rfl
  · rfl

/-- A lookup changes no list. -/
theorem elements_touch (v : Variables) (k : Str) : elements (v.update k [] id) = elements v := by
  funext k'
  rw [elements_update]
  split
  · rename_i heq
    rw [heq, id_eq]
  · rfl

theorem insertIdx_behind (pre : Strings) (l : Str) (rest : Strings) (l2 : Str) :
    (pre ++ l :: rest).insertIdx (pre.length + 1) l2 = pre ++ l :: l2 :: rest := by
  induction pre with
  | nil => rfl
  | cons l' pre ih =>
    show (l' :: (pre ++ l :: rest)).insertIdx (pre.length + 1 + 1) l2 = _
    rw [List.insertIdx_succ_cons, ih]
    rfl

/-- **The elements come to stand in the opposite order.** -/
theorem eraseIdx_insertAll (pre : Strings) (l : Str) (rest l2s : Strings) :
    (insertAll pre.length (pre ++ l :: rest) l2s).eraseIdx pre.length = pre ++ (l2s.reverse ++ rest) := by
  have hins : insertAll pre.length (pre ++ l :: rest) l2s = pre ++ l :: (l2s.reverse ++ rest) := by
    induction l2s generalizing rest with
    | nil => rfl
    | cons l2 l2s ih =>
      rw [insertAll, List.foldl_cons, insertIdx_behind]
      -- what comes next is put in front of `l2`
      refine (ih (l2 :: rest)).trans ?_
      simp
  rw [hins, List.eraseIdx_append_of_length_le (Nat.le_refl _)]
  simp

section

variable (n : Nat) (v : Variables) (key : Str) (pre rest : Strings)

theorem resolveList_nil : resolveList (n + 1) v key pre.length pre = .ok (v, pre) := by
  rw [resolveList, List.getElem?_eq_none (Nat.le_refl _)]

theorem getElem?_length (l : Str) : (pre ++ l :: rest)[pre.length]? = some l := by simp

theorem resolveList_plain {l : Str} (h : reference? l = none) :
    resolveList (n + 1) v key pre.length (pre ++ l :: rest) =
      if pre.length = intMax then .error .overflow
      else resolveList n v key (pre ++ [l]).length ((pre ++ [l]) ++ rest) := by
  rw [resolveList, getElem?_length]
  simp only [h, List.length_append, List.length_singleton, List.append_assoc, List.singleton_append]

theorem resolveList_reference {l k : Str} (h : reference? l = some k) :
    resolveList (n + 1) v key pre.length (pre ++ l :: rest) =
      if k = key then .error .changedInLoop
      else resolveList n (v.update k [] id) key pre.length
        (pre ++ ((elements v k).reverse ++ rest)) := by
  rw [resolveList, getElem?_length]
  simp only [h, eraseIdx_insertAll]

end

/-! ## The runs of the loops -/

theorem resolveList_mono {n m : Nat} {v : Variables} {key : Str} {i : Nat} {lst : Strings}
    {r : Variables × Strings} (h : resolveList n v key i lst = .ok r) (hm : n ≤ m) :
    resolveList m v key i lst = .ok r := by
  induction n generalizing m v i lst with
  | zero => cases h
  | succ n ih =>
    obtain ⟨m, rfl⟩ := Nat.exists_eq_add_of_le' (Nat.le_trans (Nat.succ_pos n) hm)
    have hle : n ≤ m := Nat.le_of_succ_le_succ hm
    rw [resolveList] at h ⊢
    cases hl : lst[i]? with
    | none => rwa [hl] at h
    | some l =>
      rw [hl] at h
      dsimp only at h ⊢
      cases href : reference? l with
      | none =>
        rw [href] at h
        dsimp only at h ⊢
        split at h
        · cases h
        · rename_i hi
          rw [if_neg hi]
          exact ih h hle
      | some k =>
        rw [href] at h
        dsimp only at h ⊢
        split at h
        · cases h
        · rename_i hk
          rw [if_neg hk]
          exact ih h hle

/-- A run of the loop over a list that comes to its end: `pre` is done and `rest` is ahead. -/
inductive Resolves (key : Str) : Variables → Strings → Strings → Variables → Strings → Prop
  | nil (v : Variables) (pre : Strings) : Resolves key v pre [] v pre
  | plain {v v' : Variables} {pre rest lst : Strings} {l : Str} (h : reference? l = none)
      (hi : pre.length ≠ intMax) (hrest : Resolves key v (pre ++ [l]) rest v' lst) :
      Resolves key v pre (l :: rest) v' lst
  | reference {v v' : Variables} {pre rest lst : Strings} {l k : Str} (h : reference? l = some k)
      (hk : k ≠ key)
      (hrest : Resolves key (v.update k [] id) pre ((elements v k).reverse ++ rest) v' lst) :
      Resolves key v pre (l :: rest) v' lst

theorem resolves_iff {key : Str} {v v' : Variables} {pre rest lst : Strings} :
    Resolves key v pre rest v' lst ↔
      ∃ n, resolveList n v key pre.length (pre ++ rest) = .ok (v', lst) := by
  constructor
  · intro h
    induction h with
    | nil v pre =>
      refine ⟨1, ?_⟩
      rw [List.append_nil, resolveList_nil]
    | plain h hi _ ih =>
      obtain ⟨n, hn⟩ := ih
      refine ⟨n + 1, ?_⟩
      rw [resolveList_plain _ _ _ _ _ h, if_neg hi, hn]
    | reference h hk _ ih =>
      obtain ⟨n, hn⟩ := ih
      refine ⟨n + 1, ?_⟩
      rw [resolveList_reference _ _ _ _ _ h, if_neg hk, hn]
  · rintro ⟨n, hn⟩
    induction n generalizing v pre rest with
    | zero => cases hn
    | succ n ih =>
      cases rest with
      | nil =>
        rw [List.append_nil, resolveList_nil] at hn
        cases hn
        exact .nil _ _
      | cons l rest =>
        cases href : reference? l with
        | none =>
          rw [resolveList_plain _ _ _ _ _ href] at hn
          split at hn
          · cases hn
          · rename_i hi
            exact .plain href hi (ih hn)
        | some k =>
          rw [resolveList_reference _ _ _ _ _ href] at hn
          split at hn
          · cases hn
          · rename_i hk
            exact .reference href hk (ih hn)

/-- A run of the loop over the map that comes to its end. -/
inductive ResolvesFrom : Variables → Option Str → Variables → Prop
  | done {v : Variables} {last : Option Str} (h : v.nextEntry last = none) : ResolvesFrom v last v
  | entry {v v₁ v' : Variables} {last : Option Str} {key : Str} {lst lst₁ : Strings}
      (h : v.nextEntry last = some (key, lst)) (hlist : Resolves key v [] lst v₁ lst₁)
      (hrest : ResolvesFrom (v₁.update key [] fun _ => lst₁) (some key) v') : ResolvesFrom v last v'

theorem resolveFrom_mono {n m : Nat} {v v' : Variables} {last : Option Str}
    (h : resolveFrom n v last = .ok v') (hm : n ≤ m) : resolveFrom m v last = .ok v' := by
  induction n generalizing m v last with
  | zero => cases h
  | succ n ih =>
    obtain ⟨m, rfl⟩ := Nat.exists_eq_add_of_le' (Nat.le_trans (Nat.succ_pos n) hm)
    have hle : n ≤ m := Nat.le_of_succ_le_succ hm
    rw [resolveFrom] at h ⊢
    cases hnext : v.nextEntry last with
    | none => rwa [hnext] at h
    | some x =>
      rw [hnext] at h
      obtain ⟨⟨v₁, lst₁⟩, hlist, hrest⟩ := of_bind_eq_ok h
      dsimp only
      rw [resolveList_mono hlist hle]
      exact ih hrest hle

theorem resolvesFrom_iff {v v' : Variables} {last : Option Str} :
    ResolvesFrom v last v' ↔ ∃ n, resolveFrom n v last = .ok v' := by
  constructor
  · intro h
    induction h with
    | done h =>
      refine ⟨1, ?_⟩
      rw [resolveFrom, h]
    | entry h hlist _ ih =>
      obtain ⟨n, hn⟩ := resolves_iff.mp hlist
      rw [List.length_nil, List.nil_append] at hn
      obtain ⟨m, hm⟩ := ih
      refine ⟨max n m + 1, ?_⟩
      rw [resolveFrom, h]
      dsimp only
      rw [resolveList_mono hn (le_max_left n m)]
      exact resolveFrom_mono hm (le_max_right n m)
  · rintro ⟨n, hn⟩
    induction n generalizing v last with
    | zero => cases hn
    | succ n ih =>
      rw [resolveFrom] at hn
      cases hnext : v.nextEntry last with
      | none =>
        rw [hnext] at hn
        cases hn
        exact .done hnext
      | some x =>
        rw [hnext] at hn
        obtain ⟨⟨v₁, lst₁⟩, hlist, hrest⟩ := of_bind_eq_ok hn
        exact .entry hnext (resolves_iff.mpr ⟨n, hlist⟩) (ih hrest)

/-! ## What a run does -/

theorem Resolves.elements_eq {key : Str} {v v' : Variables} {pre rest lst : Strings}
    (h : Resolves key v pre rest v' lst) : elements v' = elements v := by
  induction h with
  | nil v pre => rfl
  | plain _ _ _ ih => exact ih
  | reference _ _ _ ih => rw [ih, elements_touch]

/-- **A list is resolved to** what the other lists, each of them turned around, come to. -/
theorem Resolves.eq_flatMap {key : Str} {v v' : Variables} {pre rest lst : Strings} {X : Str → Strings}
    (h : Resolves key v pre rest v' lst)
    (hX : IsExpansion reference? (fun k => (elements v k).reverse) X) :
    lst = pre ++ rest.flatMap (replaced reference? X) := by
  induction h with
  | nil v pre => rw [List.flatMap_nil, List.append_nil]
  | plain href _ _ ih =>
    rw [ih hX, List.flatMap_cons, replaced_of_none href, List.append_assoc]
  | @reference v v' pre rest lst l k href _ _ ih =>
    rw [elements_touch] at ih
    rw [ih hX, List.flatMap_append, List.flatMap_cons, replaced_of_some href, hX k]

theorem Resolves.length_le {key : Str} {v v' : Variables} {pre rest lst : Strings}
    (h : Resolves key v pre rest v' lst) (hpre : pre.length ≤ intMax) : lst.length ≤ intMax := by
  induction h with
  | nil v pre => exact hpre
  | plain _ hi _ ih =>
    refine ih ?_
    rw [List.length_append, List.length_singleton]
    exact Nat.lt_of_le_of_ne hpre hi
  | reference _ _ _ ih => exact ih hpre

/-- What was looked up is in the map. -/
theorem Resolves.mem_of_isSome {key : Str} {v v' : Variables} {pre rest lst : Strings} {s : Set Str}
    (h : Resolves key v pre rest v' lst) (hrest : ∀ l ∈ rest, ∀ k, reference? l = some k → k ∈ s)
    (hv : ∀ j k, Refers reference? (elements v) j k → k ∈ s) {k : Str}
    (hk : (v'.lookup k).isSome = true) : (v.lookup k).isSome = true ∨ k ∈ s := by
  induction h with
  | nil v pre => exact .inl hk
  | plain _ _ _ ih => exact ih (fun l hl => hrest l (List.mem_cons_of_mem _ hl)) hv hk
  | @reference v v' pre rest lst l j href _ _ ih =>
    rw [elements_touch] at ih
    have hj : j ∈ s := hrest l List.mem_cons_self j href
    have hnext := ih (fun l' hl' i hi => ?_) hv hk
    · rcases hnext with hk | hk
      · rw [SortedMap.lookup_update] at hk
        split at hk
        · rename_i heq
          exact .inr (heq ▸ hj)
        · exact .inl hk
      · exact .inr hk
    · rcases List.mem_append.mp hl' with hl' | hl'
      · exact hv j i ⟨l', List.mem_reverse.mp hl', hi⟩
      · exact hrest l' (List.mem_cons_of_mem l hl') i hi

/-- A list that is worked off has references that lead to an end. -/
theorem Resolves.acc {key : Str} {v v' : Variables} {pre rest lst : Strings} {f : Str → Strings}
    (h : Resolves key v pre rest v' lst)
    (hv : ∀ k, Acc (flip (Refers reference? f)) k ∨ k = key ∨ elements v k = f k) :
    ∀ l ∈ rest, ∀ k, reference? l = some k → Acc (flip (Refers reference? f)) k := by
  induction h with
  | nil v pre =>
    intro l hl
    cases hl
  | @plain v v' pre rest lst l href _ _ ih =>
    intro l' hl' k hk
    rcases List.mem_cons.mp hl' with rfl | hl'
    · rw [href] at hk
      cases hk
    · exact ih hv l' hl' k hk
  | @reference v v' pre rest lst l j href hj _ ih =>
    rw [elements_touch] at ih
    intro l' hl' k hk
    rcases List.mem_cons.mp hl' with rfl | hl'
    · rw [href] at hk
      cases hk
      rcases hv j with hacc | heq | heq
      · exact hacc
      · exact absurd heq hj
      · -- the elements of `j` are worked off next
        refine ⟨j, fun i hi => ?_⟩
        obtain ⟨x, hx, hxi⟩ := hi
        rw [← heq] at hx
        exact ih hv x (List.mem_append_left rest (List.mem_reverse.mpr hx)) i hxi
    · exact ih hv l' (List.mem_append_right _ hl') k hk

/-! ## What a run over the map does -/

theorem elements_of_none {v : Variables} {k : Str} (h : v.lookup k = none) : elements v k = [] := by
  rw [elements, h]
  rfl

theorem elements_of_some {v : Variables} {k : Str} {lst : Strings} (h : v.lookup k = some lst) :
    elements v k = lst := by
  rw [elements, h]
  rfl

/-- The lists of the variables that were visited are those of `X`, and the others are still those
of `f`. -/
def Visited (f X : Str → Strings) (v : Variables) (last : Option Str) : Prop :=
  ∀ k, elements v k = if SortedMap.isBehind last k then f k else X k

section

variable {f X : Str → Strings} {v v₁ v' : Variables} {last : Option Str} {key : Str}
  {lst lst₁ : Strings}

/-- A variable that the loop goes past is not there. -/
theorem Visited.eq_nil (h : Visited f X v last) (hnext : v.nextEntry last = some (key, lst)) {k : Str}
    (hk : SortedMap.isBehind last k = true) (hlt : k < key) : f k = [] := by
  have hnone := (SortedMap.nextEntry_eq_some hnext).2.2 k hk hlt
  rw [← elements_of_none hnone, h k, if_pos hk]

theorem Visited.eq_nil_of_done (h : Visited f X v last) (hnext : v.nextEntry last = none) {k : Str}
    (hk : SortedMap.isBehind last k = true) : f k = [] := by
  rw [← elements_of_none (SortedMap.lookup_of_nextEntry_none hnext hk), h k, if_pos hk]

theorem Visited.eq_list (h : Visited f X v last) (hnext : v.nextEntry last = some (key, lst)) :
    lst = f key := by
  obtain ⟨hkey, hlst, -⟩ := SortedMap.nextEntry_eq_some hnext
  have heq : elements v key = lst := elements_of_some hlst
  rw [← heq, h key, if_pos hkey]

/-- **A visit** that leaves the list of `X`. -/
theorem Visited.next (h : Visited f X v last) (hX : IsExpansion reference? f X)
    (hnext : v.nextEntry last = some (key, lst)) (hlist : Resolves key v [] lst v₁ lst₁)
    (hlst₁ : lst₁ = X key) : Visited f X (v₁.update key [] fun _ => lst₁) (some key) := by
  intro k
  rw [elements_update, hlist.elements_eq]
  split
  · rename_i heq
    rw [if_neg (by rw [SortedMap.isBehind_some, heq]; exact lt_irrefl key), hlst₁, heq]
  · rename_i hne
    rw [h k]
    by_cases hlt : key < k
    · have hbehind := SortedMap.isBehind_trans (SortedMap.nextEntry_eq_some hnext).1 hlt
      rw [if_pos hbehind, if_pos (SortedMap.isBehind_some.mpr hlt)]
    · rw [if_neg (fun hb => hlt (SortedMap.isBehind_some.mp hb))]
      split
      · -- what lies between the two visits is not there
        rename_i hbehind
        rw [hX k, h.eq_nil hnext hbehind (lt_of_le_of_ne (not_lt.mp hlt) hne)]
        rfl
      · rfl

theorem Visited.partly (h : Visited f X v last) (k : Str) :
    elements v k = f k ∨ elements v k = X k := by
  rw [h k]
  split
  · exact .inl rfl
  · exact .inr rfl

/-- The lists at hand, turned around, come to those of `X` turned around. -/
theorem Visited.isExpansion (h : Visited f X v last) (hX : IsExpansion reference? f X)
    (hwf : WellFounded (flip (Refers reference? f))) :
    IsExpansion reference? (fun k => (elements v k).reverse) fun k => (X k).reverse :=
  (hX.of_partial hwf h.partly).reverse

/-- Lists that were visited are left alone. -/
theorem ResolvesFrom.elements_eq (h : ResolvesFrom v last v') {k : Str}
    (hk : SortedMap.isBehind last k = false) : elements v' k = elements v k := by
  induction h with
  | done _ => rfl
  | @entry v v₁ v' last key lst lst₁ hnext hlist _ ih =>
    have hkey := (SortedMap.nextEntry_eq_some hnext).1
    have hne : k ≠ key := by
      rintro rfl
      rw [hkey] at hk
      cases hk
    have hbehind : SortedMap.isBehind (some key) k = false := by
      refine Bool.eq_false_iff.mpr fun hb => ?_
      rw [SortedMap.isBehind_trans hkey (SortedMap.isBehind_some.mp hb)] at hk
      cases hk
    rw [ih hbehind, elements_update, if_neg hne, hlist.elements_eq]

/-- **A loop over the map that comes to its end** has found no circle. -/
theorem ResolvesFrom.acc (h : ResolvesFrom v last v')
    (hv : ∀ k, SortedMap.isBehind last k = true → elements v k = f k)
    (hacc : ∀ k, SortedMap.isBehind last k = false → Acc (flip (Refers reference? f)) k) (k : Str) :
    Acc (flip (Refers reference? f)) k := by
  induction h with
  | @done v last hnext =>
    cases hk : SortedMap.isBehind last k with
    | false => exact hacc k hk
    | true =>
      refine ⟨k, fun j hj => ?_⟩
      obtain ⟨x, hx, -⟩ := hj
      rw [← hv k hk, elements_of_none (SortedMap.lookup_of_nextEntry_none hnext hk)] at hx
      cases hx
  | @entry v v₁ v' last key lst lst₁ hnext hlist _ ih =>
    obtain ⟨hkey, hlst, hbetween⟩ := SortedMap.nextEntry_eq_some hnext
    have hlist' := hlist.acc (f := f) fun j => by
      cases hj : SortedMap.isBehind last j with
      | false => exact .inl (hacc j hj)
      | true => exact .inr (.inr (hv j hj))
    refine ih (fun j hj => ?_) (fun j hj => ?_)
    · have hlt := SortedMap.isBehind_some.mp hj
      rw [elements_update, if_neg hlt.ne', hlist.elements_eq]
      exact hv j (SortedMap.isBehind_trans hkey hlt)
    · refine ⟨j, fun i hi => ?_⟩
      obtain ⟨x, hx, hxi⟩ := hi
      cases hj' : SortedMap.isBehind last j with
      | false => exact (hacc j hj').inv ⟨x, hx, hxi⟩
      | true =>
        rw [← hv j hj'] at hx
        rcases eq_or_ne j key with rfl | hne
        · have heq : elements v j = lst := elements_of_some hlst
          rw [heq] at hx
          exact hlist' x hx i hxi
        · have hle : j ≤ key := not_lt.mp fun hlt => by
            rw [SortedMap.isBehind_some.mpr hlt] at hj
            cases hj
          rw [elements_of_none (hbetween j hj' (lt_of_le_of_ne hle hne))] at hx
          cases hx

/-- **Where the result is the list that is meant**, every variable referred to is the same from both
ends, and no list is longer than an `int` can tell. -/
theorem ResolvesFrom.reverse_eq (h : ResolvesFrom v last v') (hvisited : Visited f X v last)
    (hX : IsExpansion reference? f X) (hwf : WellFounded (flip (Refers reference? f)))
    (hv' : elements v' = X) {k : Str} (hk : SortedMap.isBehind last k = true) :
    (∀ j, Refers reference? f k j → (X j).reverse = X j) ∧ (X k).length ≤ intMax := by
  have hnil : f k = [] →
      (∀ j, Refers reference? f k j → (X j).reverse = X j) ∧ (X k).length ≤ intMax := by
    intro hfk
    refine ⟨fun j hj => ?_, ?_⟩
    · obtain ⟨x, hx, -⟩ := hj
      rw [hfk] at hx
      cases hx
    · rw [hX k, hfk]
      exact Nat.zero_le _
  induction h with
  | done hnext => exact hnil (hvisited.eq_nil_of_done hnext hk)
  | @entry v v₁ v' last key lst lst₁ hnext hlist hrest ih =>
    -- the list of `key` is not touched any more
    have hlst₁ : lst₁ = X key := by
      have hself : SortedMap.isBehind (some key) key = false :=
        Bool.eq_false_iff.mpr fun hb => lt_irrefl key (SortedMap.isBehind_some.mp hb)
      rw [← hv', hrest.elements_eq hself, elements_update, if_pos rfl]
    rcases lt_trichotomy k key with hlt | rfl | hlt
    · exact hnil (hvisited.eq_nil hnext hk hlt)
    · constructor
      · intro j hj
        obtain ⟨x, hx, hxj⟩ := hj
        have hsame : (f k).flatMap (replaced reference? fun j => (X j).reverse) =
            (f k).flatMap (replaced reference? X) := by
          rw [← hX k, ← hlst₁, ← hvisited.eq_list hnext]
          exact (hlist.eq_flatMap (hvisited.isExpansion hX hwf)).symm
        exact eq_of_flatMap_replaced_eq (fun i => List.length_reverse) hsame hx hxj
      · rw [← hlst₁]
        exact hlist.length_le (Nat.zero_le _)
    · exact ih (hvisited.next hX hnext hlist hlst₁) hv' (SortedMap.isBehind_some.mpr hlt)

/-- **A list without a circle is worked off**, if the result is not too long. -/
theorem exists_resolves {Y : Str → Strings} (hwf : WellFounded (flip (Refers reference? (elements v))))
    (hY : IsExpansion reference? (fun k => (elements v k).reverse) Y) (key : Str)
    (hlen : ((elements v key).flatMap (replaced reference? Y)).length ≤ intMax) :
    ∃ v' lst', Resolves key v [] (elements v key) v' lst' := by
  have hcircle := acyclic_of_wellFounded hwf
  let ends (rest : Strings) : Prop := ∀ (pre : Strings) (w : Variables), elements w = elements v →
    pre.length + (rest.flatMap (replaced reference? Y)).length ≤ intMax →
      ∃ v' lst', Resolves key w pre rest v' lst'
  have hends : ends (elements v key) := by
    refine worked_off (Relation.TransGen (Refers reference? (elements v)) key) hwf ?_ ?_ ?_ ?_ ?_
    · intro pre w _ _
      exact ⟨w, pre, .nil w pre⟩
    · -- an element that stays takes the index one further
      intro l rest href hrest pre w hw hle
      rw [List.flatMap_cons, replaced_of_none href, List.length_append, List.length_singleton] at hle
      have hle' : (pre ++ [l]).length + (rest.flatMap (replaced reference? Y)).length ≤ intMax := by
        rw [List.length_append, List.length_singleton]
        omega
      obtain ⟨v', lst', hrun⟩ := hrest (pre ++ [l]) w hw hle'
      exact ⟨v', lst', .plain href (by omega) hrun⟩
    · -- what comes for a reference is as long as what it stands for
      intro l rest k href hk hrest pre w hw hle
      have hne : k ≠ key := by
        rintro rfl
        exact hcircle k hk
      rw [List.flatMap_cons, replaced_of_some href, hY k, ← List.flatMap_append, ← hw] at hle
      rw [← hw] at hrest
      obtain ⟨v', lst', hrun⟩ := hrest pre (w.update k [] id) ((elements_touch w k).trans hw) hle
      exact ⟨v', lst', .reference href hne hrun⟩
    · exact fun j k hj hr => hj.tail hr
    · exact fun x hx k hk => .single ⟨x, hx, hk⟩
  exact hends [] v rfl (by rwa [List.length_nil, Nat.zero_add])

theorem card_ahead_lt {s : Finset Str} (hmem : key ∈ s) (hkey : SortedMap.isBehind last key = true) :
    (s.filter fun k => SortedMap.isBehind (some key) k).card <
      (s.filter fun k => SortedMap.isBehind last k).card := by
  refine Finset.card_lt_card (Finset.ssubset_iff_subset_ne.mpr ⟨fun k hk => ?_, fun heq => ?_⟩)
  · obtain ⟨hk, hlt⟩ := Finset.mem_filter.mp hk
    exact Finset.mem_filter.mpr ⟨hk, SortedMap.isBehind_trans hkey (SortedMap.isBehind_some.mp hlt)⟩
  · have hself : key ∈ s.filter fun k => SortedMap.isBehind last k :=
      Finset.mem_filter.mpr ⟨hmem, hkey⟩
    rw [← heq] at hself
    exact lt_irrefl key (SortedMap.isBehind_some.mp (Finset.mem_filter.mp hself).2)

/-- **The loop over the map comes to its end**, with the lists that are meant. All names are in `s`. -/
theorem Visited.exists_resolvesFrom {s : Finset Str} (h : Visited f X v last)
    (hX : IsExpansion reference? f X) (hwf : WellFounded (flip (Refers reference? f)))
    (hpal : ∀ j k, Refers reference? f j k → (X k).reverse = X k) (hlen : ∀ k, (X k).length ≤ intMax)
    (hs : ∀ j k, Refers reference? f j k → k ∈ s) (hv : ∀ k, (v.lookup k).isSome = true → k ∈ s) :
    ∃ v', ResolvesFrom v last v' ∧ elements v' = X := by
  -- with each visit there are fewer names ahead
  induction hn : (s.filter fun k => SortedMap.isBehind last k).card using Nat.strong_induction_on
    generalizing v last with
  | _ n ih =>
    cases hnext : v.nextEntry last with
    | none =>
      refine ⟨v, .done hnext, funext fun k => ?_⟩
      rw [h k]
      split
      · rename_i hk
        rw [hX k, h.eq_nil_of_done hnext hk]
        rfl
      · rfl
    | some e =>
      obtain ⟨key, lst⟩ := e
      obtain ⟨hkey, hlst, -⟩ := SortedMap.nextEntry_eq_some hnext
      have hself : elements v key = lst := elements_of_some hlst
      have hrefers {j k : Str} (hr : Refers reference? (elements v) j k) : Refers reference? f j k :=
        hX.refers_of_partial hwf h.partly hr
      -- it makes no difference that the lists are turned around
      have hsame : (f key).flatMap (replaced reference? fun k => (X k).reverse) = X key := by
        rw [hX key]
        exact flatMap_replaced_congr fun x hx k hk => hpal key k ⟨x, hx, hk⟩
      obtain ⟨v₁, lst₁, hlist⟩ := exists_resolves (Subrelation.wf (fun hr => hrefers hr) hwf)
        (h.isExpansion hX hwf) key (by
          rw [hself, h.eq_list hnext, hsame]
          exact hlen key)
      rw [hself] at hlist
      have hlst₁ : lst₁ = X key := by
        rw [← hsame, ← h.eq_list hnext]
        exact hlist.eq_flatMap (h.isExpansion hX hwf)
      have hmem : key ∈ s := by
        refine hv key ?_
        rw [show v.lookup key = some lst from hlst]
        rfl
      have hv₁ : ∀ k, ((v₁.update key [] fun _ => lst₁).lookup k).isSome = true → k ∈ s := by
        intro k hk
        rw [SortedMap.lookup_update] at hk
        split at hk
        · rename_i heq
          exact heq ▸ hmem
        · have hk := hlist.mem_of_isSome (s := s)
            (fun l hl j hj => hs key j (hrefers ⟨l, hself ▸ hl, hj⟩)) (fun i j hr => hs i j (hrefers hr)) hk
          rcases hk with hk | hk
          · exact hv k hk
          · exact hk
      obtain ⟨v', hrest, hv'⟩ := ih _ (hn ▸ card_ahead_lt hmem hkey)
        (h.next hX hnext hlist hlst₁) hv₁ rfl
      exact ⟨v', .entry hnext hlist hrest, hv'⟩

end

/-! ## Which variables are resolved -/

/-- **What `resolve_variables` is for**: it comes to its end, and every list has become what it was with
each reference replaced by the list, resolved as well, of the variable it names. -/
def ResolvesInOrder (v : Variables) : Prop :=
  ∃ n v', resolveVariables n v = .ok v' ∧ IsExpansion reference? (elements v) (elements v')

/-- The variables it does this for: none refers to itself, directly or through others, what a variable
that is referred to stands for is the same from both ends, and what any of them stands for can be counted
by an `int`. -/
structure SameFromBothEnds (v : Variables) : Prop where
  acyclic : Acyclic reference? (elements v)
  reverse_eq : ∀ X, IsExpansion reference? (elements v) X →
    ∀ j k, Refers reference? (elements v) j k → (X k).reverse = X k
  length_le : ∀ X, IsExpansion reference? (elements v) X → ∀ k, (X k).length ≤ intMax

theorem wellFounded_of_acyclic {v : Variables} (h : Acyclic reference? (elements v)) :
    WellFounded (flip (Refers reference? (elements v))) := by
  refine Expansion.wellFounded_of_acyclic v.keys.finite_toSet (fun k hk => ?_) h
  refine elements_of_none (Option.not_isSome_iff_eq_none.mp fun hsome => hk ?_)
  exact SortedMap.lookup_isSome.mp hsome

/-- The names there can ever be: those of the variables and those they refer to. -/
def names (v : Variables) : Finset Str :=
  (v.keys ++ v.values.flatten.filterMap reference?).toFinset

theorem mem_names_of_isSome {v : Variables} {k : Str} (h : (v.lookup k).isSome = true) : k ∈ names v :=
  List.mem_toFinset.mpr (List.mem_append_left _ (SortedMap.lookup_isSome.mp h))

theorem mem_names_of_refers {v : Variables} {j k : Str} (h : Refers reference? (elements v) j k) :
    k ∈ names v := by
  obtain ⟨x, hx, hk⟩ := h
  refine List.mem_toFinset.mpr (List.mem_append_right _ (List.mem_filterMap.mpr ⟨x, ?_, hk⟩))
  cases hlst : v.lookup j with
  | none =>
    rw [elements_of_none hlst] at hx
    cases hx
  | some lst =>
    rw [elements_of_some hlst] at hx
    have hmem : (j, lst) ∈ v.entries := SortedMap.mem_entries_iff.mpr hlst
    exact List.mem_flatten.mpr ⟨lst, List.mem_map_of_mem hmem, hx⟩

theorem visited_start (v : Variables) (X : Str → Strings) : Visited (elements v) X v none :=
  fun _ => (if_pos rfl).symm

/-- **`resolve_variables` does what it is for** exactly with variables whose lists, where they are
referred to, are the same from both ends. -/
theorem resolvesInOrder_iff (v : Variables) : ResolvesInOrder v ↔ SameFromBothEnds v := by
  constructor
  · -- the lists that the loop leaves are the expansion
    rintro ⟨n, v', hrun, hX⟩
    have hfrom : ResolvesFrom v none v' := resolvesFrom_iff.mpr ⟨n, hrun⟩
    have hwf : WellFounded (flip (Refers reference? (elements v))) :=
      ⟨hfrom.acc (fun _ _ => rfl) fun _ hk => Bool.noConfusion hk⟩
    have hboth (k : Str) := hfrom.reverse_eq (visited_start v _) hX hwf rfl (k := k) rfl
    constructor
    · exact acyclic_of_wellFounded hwf
    · intro X hX' j k hr
      rw [hX'.unique hwf hX]
      exact (hboth j).1 k hr
    · intro X hX' k
      rw [hX'.unique hwf hX]
      exact (hboth k).2
  · intro h
    have hwf := wellFounded_of_acyclic h.acyclic
    obtain ⟨X, hX⟩ := exists_isExpansion hwf
    obtain ⟨v', hfrom, hv'⟩ := (visited_start v X).exists_resolvesFrom hX hwf (h.reverse_eq X hX)
      (h.length_le X hX) (fun _ _ hr => mem_names_of_refers hr) fun _ hk => mem_names_of_isSome hk
    obtain ⟨n, hn⟩ := resolvesFrom_iff.mp hfrom
    exact ⟨n, v', hn, hv' ▸ hX⟩

/-- `A = $(B)` and `B = x y`. -/
def oneReference : Variables :=
  (SortedMap.empty.update ['A'] [] fun _ => [['$', '(', 'B', ')']]).update ['B'] [] fun _ => [['x'], ['y']]

/-- There `A` becomes `y x`. -/
theorem elements_resolveVariables_oneReference {n : Nat} {v' : Variables}
    (h : resolveVariables n oneReference = .ok v') : elements v' ['A'] = [['y'], ['x']] := by
  have hfive : (resolveVariables 5 oneReference).map (elements · ['A']) = .ok [['y'], ['x']] := by
    decide
  cases hrun : resolveVariables 5 oneReference with
  | error e =>
    rw [hrun] at hfive
    cases hfive
  | ok w =>
    have hmax : resolveVariables (max n 5) oneReference = .ok v' := resolveFrom_mono h (le_max_left n 5)
    have hmax' : resolveVariables (max n 5) oneReference = .ok w :=
      resolveFrom_mono hrun (le_max_right n 5)
    rw [hmax] at hmax'
    cases hmax'
    rw [hrun] at hfive
    exact Except.ok.inj hfive

theorem not_resolvesInOrder : ¬ ∀ v : Variables, ResolvesInOrder v := by
  intro h
  obtain ⟨n, v', hrun, hX⟩ := h oneReference
  have hB : elements v' ['B'] = [['x'], ['y']] := by
    rw [hX ['B']]
    rfl
  have hA : elements v' ['A'] = elements v' ['B'] ++ [] := hX ['A']
  rw [elements_resolveVariables_oneReference hrun, hB] at hA
  exact absurd hA (by decide)

end Primitives.Makefile
