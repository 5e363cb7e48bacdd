import Primitives.Versions.Range
import Mathlib.Data.Nat.Pairing
import Mathlib.Data.List.Forall2
import Mathlib.Logic.Function.Basic

/-!
# Hashes and equality

`getHash` folds over the components as they stand, and `==` ignores zeros at their end. So equal
versions have one hash for every `hash_combine` where they have as many components, and only
there; ranges have where this holds of all their bounds (`getHash_respects_iff`).
-/

set_option autoImplicit false

namespace Primitives.Versions

/-! ## Equal versions -/

theorem Version.numbers_eq {v w : Version} (h : v.eq w = true)
    (hlen : v.getLevel = w.getLevel) : v.numbers = w.numbers := by
  rw [Version.eq_iff, Version.key, Version.key, toLex_inj, Prod.mk.injEq] at h
  exact (Lib.sequence_inj 0 hlen).mp h.1

theorem Version.getHash_congr (c : HashCombine) {v w : Version} (h : v.eq w = true)
    (hlen : v.getLevel = w.getLevel) : v.getHash c = w.getHash c := by
  rw [Version.getHash, Version.getHash, Version.numbers_eq h hlen]

/-- A `hash_combine` that counts the components, and loses nothing of other hashes. -/
def counting : HashCombine where
  number := fun h _ => h + 1
  hash := fun h x => Nat.pair h x

theorem Version.getHash_counting (v : Version) : v.getHash counting = v.getLevel := by
  have hcount : ∀ (l : List Int) (h : Nat), l.foldl counting.number h = h + l.length := by
    intro l
    induction l with
    | nil => intro h; rfl
    | cons n l ih =>
      intro h
      rw [List.foldl_cons, ih, List.length_cons]
      show h + 1 + l.length = h + (l.length + 1)
      omega
  exact (hcount v.numbers 0).trans (Nat.zero_add _)

/-! ## Equal ranges -/

/-- How many components the bounds have. -/
def VersionRange.levels (r : VersionRange) : List (Nat × Nat) :=
  r.range.map fun p => (p.first.v.getLevel, p.second.v.getLevel)

theorem eqPairs_iff (l m : List RangePair) :
    VersionRange.eqPairs l m = true ↔ List.Forall₂ (fun p q => p.eq q = true) l m := by
  induction l generalizing m with
  | nil => cases m <;> simp [VersionRange.eqPairs]
  | cons p l ih => cases m <;> simp [VersionRange.eqPairs, ih]

theorem RangePair.getHash_congr (c : HashCombine) {p q : RangePair} (h : p.eq q = true)
    (hlen : (p.first.v.getLevel, p.second.v.getLevel) =
      (q.first.v.getLevel, q.second.v.getLevel)) : p.getHash c = q.getHash c := by
  simp only [RangePair.eq, Side.eq, Bool.and_eq_true] at h
  obtain ⟨⟨hfirst, -⟩, ⟨hsecond, -⟩⟩ := h
  obtain ⟨hlen₁, hlen₂⟩ := Prod.mk.inj hlen
  rw [RangePair.getHash, RangePair.getHash, Version.getHash_congr c hfirst hlen₁,
    Version.getHash_congr c hsecond hlen₂]

theorem RangePair.levels_of_getHash {p q : RangePair} (h : p.getHash counting = q.getHash counting) :
    (p.first.v.getLevel, p.second.v.getLevel) = (q.first.v.getLevel, q.second.v.getLevel) := by
  simp only [RangePair.getHash, counting, Nat.pair_eq_pair, true_and] at h
  rw [← Version.getHash_counting, ← Version.getHash_counting, ← Version.getHash_counting,
    ← Version.getHash_counting]
  exact Prod.ext h.1 h.2

/-- Folds with a step that loses nothing agree on the lists they are of. -/
theorem foldl_injective {f : Nat → Nat → Nat} (hf : Function.Injective2 f) {l m : List Nat}
    (hlen : l.length = m.length) {s t : Nat} (h : l.foldl f s = m.foldl f t) : s = t ∧ l = m := by
  induction l generalizing m s t with
  | nil =>
    obtain rfl := List.length_eq_zero_iff.mp hlen.symm
    exact ⟨h, rfl⟩
  | cons x l ih =>
    cases m with
    | nil => cases hlen
    | cons y m =>
      obtain ⟨hst, rfl⟩ := ih (Nat.succ.inj hlen) h
      obtain ⟨rfl, rfl⟩ := hf hst
      exact ⟨rfl, rfl⟩

theorem map_congr_of_map {α β γ : Type} {f : α → β} {g : α → γ}
    (h : ∀ x y, f x = f y → g x = g y) {l m : List α} (hmap : l.map f = m.map f) :
    l.map g = m.map g := by
  induction l generalizing m with
  | nil =>
    obtain rfl := List.map_eq_nil_iff.mp hmap.symm
    rfl
  | cons x l ih =>
    cases m with
    | nil => cases hmap
    | cons y m =>
      rw [List.map_cons, List.map_cons, List.cons.injEq] at hmap
      rw [List.map_cons, List.map_cons, h x y hmap.1, ih hmap.2]

theorem VersionRange.getHash_congr (c : HashCombine) {a b : VersionRange} (h : a.eq b = true)
    (hlen : a.levels = b.levels) : a.getHash c = b.getHash c := by
  obtain ⟨l⟩ := a
  obtain ⟨m⟩ := b
  have hpairs := (eqPairs_iff l m).mp h
  unfold VersionRange.getHash
  simp only
  generalize 0 = s
  induction hpairs generalizing s with
  | nil => rfl
  | @cons p q l m hpq hlm ih =>
    simp only [VersionRange.levels, List.map_cons, List.cons.injEq] at hlen
    rw [List.foldl_cons, List.foldl_cons, RangePair.getHash_congr c hpq hlen.1]
    exact ih ((eqPairs_iff l m).mpr hlm) hlen.2 _

theorem VersionRange.levels_of_getHash {a b : VersionRange} (h : a.eq b = true)
    (hhash : a.getHash counting = b.getHash counting) : a.levels = b.levels := by
  have hpairs := (eqPairs_iff _ _).mp h
  have hinj : Function.Injective2 counting.hash := by
    intro x x' y y' heq
    exact Nat.pair_eq_pair.mp heq
  have hfold : ∀ r : VersionRange, r.getHash counting =
      (r.range.map fun p => p.getHash counting).foldl counting.hash 0 := by
    intro r
    rw [VersionRange.getHash, List.foldl_map]
  rw [hfold, hfold] at hhash
  have hmap := (foldl_injective hinj (by simpa using hpairs.length_eq) hhash).2
  exact map_congr_of_map (fun p q => RangePair.levels_of_getHash) hmap

/-! ## The condition -/

/-- **Hashes respect equality** of versions with as many components, and of no others, and of
ranges whose bounds have. -/
theorem getHash_respects_iff (v w : Version) (a b : VersionRange) :
    (v.eq w = true → ((∀ c, v.getHash c = w.getHash c) ↔ v.getLevel = w.getLevel)) ∧
    (a.eq b = true → ((∀ c, a.getHash c = b.getHash c) ↔ a.levels = b.levels)) ∧
    (∀ c, Version.hash c v = v.getHash c) ∧
    (∀ c, VersionRange.hash c a = a.getHash c) := by
  refine ⟨fun h => ⟨fun hall => ?_, fun hlen c => Version.getHash_congr c h hlen⟩,
    fun h => ⟨fun hall => ?_, fun hlen c => VersionRange.getHash_congr c h hlen⟩,
    fun _ => rfl, fun _ => rfl⟩
  · rw [← Version.getHash_counting, ← Version.getHash_counting]
    exact hall counting
  · exact VersionRange.levels_of_getHash h (hall counting)

/-- `1` and `1.0` are equal, and their hashes are not. -/
theorem getHash_differs :
    ∃ v w : Version, v.eq w = true ∧ ∃ c, v.getHash c ≠ w.getHash c :=
  ⟨⟨[1], []⟩, ⟨[1, 0], []⟩, by decide, counting, by decide⟩

end Primitives.Versions
