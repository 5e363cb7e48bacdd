import Mathlib.Data.List.Shortlex
import Mathlib.Data.Set.Card
import Mathlib.Algebra.Order.BigOperators.Group.Finset
import Mathlib.Algebra.Ring.GeomSum
import Mathlib.Tactic.Ring
import Mathlib.Order.Interval.Finset.Nat
import Mathlib.Order.Interval.Set.Nat

/-!
# Words in the shortlex order

The words over `k` letters, the shorter ones first and those of one length in alphabetical order.
`rank` is the number of words in front of a word. It is a bijection to the natural numbers
(`rank_injective`, `rank_surjective`) which keeps the order (`rank_lt_rank_iff`), so it counts what is
in front of a word (`ncard_shortlex`). A word of a given length is known by its value as a number with
that many digits (`rank_eq_value`).
-/

set_option autoImplicit false

namespace Primitives.Lib.Shortlex

open Finset

variable {k : Nat}

/-- The number of words that are shorter than `l`. -/
def shorter (k l : Nat) : Nat := ∑ i ∈ range l, k ^ i

/-- The number of words in front of a word. -/
def rank (s : List (Fin k)) : Nat := s.foldl (fun r d => r * k + d + 1) 0

/-- The number that a word is, the first letter being the digit 0. -/
def value (s : List (Fin k)) : Nat := s.foldl (fun v d => v * k + d) 0

theorem shorter_succ (k l : Nat) : shorter k (l + 1) = k * shorter k l + 1 := geom_sum_succ

theorem shorter_succ' (k l : Nat) : shorter k (l + 1) = shorter k l + k ^ l := sum_range_succ _ _

@[simp]
theorem rank_nil : rank ([] : List (Fin k)) = 0 := rfl

@[simp]
theorem rank_concat (s : List (Fin k)) (d : Fin k) : rank (s ++ [d]) = rank s * k + d + 1 := by
  simp [rank]

@[simp]
theorem value_nil : value ([] : List (Fin k)) = 0 := rfl

@[simp]
theorem value_concat (s : List (Fin k)) (d : Fin k) : value (s ++ [d]) = value s * k + d := by
  simp [value]

theorem value_lt (s : List (Fin k)) : value s < k ^ s.length := by
  induction s using List.reverseRecOn with
  | nil => simp
  | append_singleton s d ih =>
    rw [value_concat, List.length_append, List.length_singleton, pow_succ]
    calc value s * k + d < value s * k + k := by omega
      _ = (value s + 1) * k := by ring
      _ ≤ k ^ s.length * k := Nat.mul_le_mul_right k ih

theorem value_append (s t : List (Fin k)) : value (s ++ t) = value s * k ^ t.length + value t := by
  induction t using List.reverseRecOn with
  | nil => simp
  | append_singleton t d ih =>
    rw [← List.append_assoc, value_concat, value_concat, ih, List.length_append,
      List.length_singleton]
    ring

/-- **The words of one length stand together**, behind the shorter ones. -/
theorem rank_eq_value (s : List (Fin k)) : rank s = shorter k s.length + value s := by
  induction s using List.reverseRecOn with
  | nil => simp [shorter]
  | append_singleton s d ih =>
    rw [rank_concat, value_concat, ih, List.length_append, List.length_singleton, shorter_succ]
    ring

/-- The first letter that differs decides. -/
theorem value_lt_value {s t : List (Fin k)} (hlen : s.length = t.length) (h : List.Lex (· < ·) s t) :
    value s < value t := by
  induction h with
  | nil => cases hlen
  | @cons a s t _ ih =>
    have hlt := ih (Nat.succ.inj hlen)
    have hs := value_append [a] s
    have ht := value_append [a] t
    rw [Nat.succ.inj hlen] at hs
    simp only [List.singleton_append] at hs ht
    omega
  | @rel a s b t hab =>
    have hs := value_append [a] s
    have ht := value_append [b] t
    have hless := value_lt s
    simp only [List.singleton_append] at hs ht
    rw [Nat.succ.inj hlen] at hs hless
    have hdigit : ∀ d : Fin k, value [d] = d := fun d => by simp [value]
    rw [hs, ht, hdigit, hdigit]
    calc a * k ^ t.length + value s < a * k ^ t.length + k ^ t.length := by omega
      _ = (a + 1) * k ^ t.length := by ring
      _ ≤ b * k ^ t.length := Nat.mul_le_mul_right _ hab
      _ ≤ b * k ^ t.length + value t := Nat.le_add_right _ _

theorem rank_lt_rank {s t : List (Fin k)} (h : List.Shortlex (· < ·) s t) : rank s < rank t := by
  rw [rank_eq_value, rank_eq_value]
  rcases List.shortlex_def.mp h with hlen | ⟨hlen, hlex⟩
  · calc shorter k s.length + value s < shorter k s.length + k ^ s.length := by
          have hless := value_lt s
          omega
      _ = shorter k (s.length + 1) := (shorter_succ' k s.length).symm
      _ ≤ shorter k t.length := sum_le_sum_of_subset (range_mono hlen)
      _ ≤ shorter k t.length + value t := Nat.le_add_right _ _
  · rw [hlen]
    have hless := value_lt_value hlen hlex
    omega

/-- **The rank keeps the order.** -/
theorem rank_lt_rank_iff {s t : List (Fin k)} : rank s < rank t ↔ List.Shortlex (· < ·) s t := by
  refine ⟨fun h => ?_, rank_lt_rank⟩
  rcases Std.Trichotomous.rel_or_eq_or_rel_swap (r := List.Shortlex (· < ·)) (a := s) (b := t) with
    hst | rfl | hts
  · exact hst
  · exact absurd h (Nat.lt_irrefl _)
  · exact absurd h (Nat.lt_asymm (rank_lt_rank hts))

theorem rank_injective : Function.Injective (rank : List (Fin k) → Nat) := by
  intro s t h
  rcases Std.Trichotomous.rel_or_eq_or_rel_swap (r := List.Shortlex (· < ·)) (a := s) (b := t) with
    hst | rfl | hts
  · exact absurd h (rank_lt_rank hst).ne
  · rfl
  · exact absurd h (rank_lt_rank hts).ne'

/-- **Every number is a rank**: its last letter is what is left over by `k`. -/
theorem rank_surjective (hk : 0 < k) : Function.Surjective (rank : List (Fin k) → Nat) := by
  intro n
  induction n using Nat.strongRecOn with
  | ind n ih =>
    cases n with
    | zero => exact ⟨[], rfl⟩
    | succ n =>
      obtain ⟨s, hs⟩ := ih (n / k) (Nat.lt_succ_of_le (Nat.div_le_self n k))
      refine ⟨s ++ [⟨n % k, Nat.mod_lt n hk⟩], ?_⟩
      rw [rank_concat, hs, Nat.div_mul_self_eq_mod_sub_self]
      have hmod := Nat.mod_le n k
      show n - n % k + n % k + 1 = n + 1
      omega

/-- **The non-empty words in front of a word**: the empty word is in front of it too. -/
theorem ncard_shortlex (hk : 0 < k) (s : List (Fin k)) :
    Set.ncard {t : List (Fin k) | t ≠ [] ∧ List.Shortlex (· < ·) t s} = rank s - 1 := by
  have himage : rank '' {t : List (Fin k) | t ≠ [] ∧ List.Shortlex (· < ·) t s} = Set.Ico 1 (rank s) := by
    ext n
    simp only [Set.mem_image, Set.mem_ofPred_eq, Set.mem_Ico]
    constructor
    · rintro ⟨t, ⟨hne, hlt⟩, rfl⟩
      refine ⟨Nat.pos_of_ne_zero fun hzero => hne ?_, rank_lt_rank hlt⟩
      exact rank_injective (hzero.trans rank_nil.symm)
    · rintro ⟨hpos, hlt⟩
      obtain ⟨t, rfl⟩ := rank_surjective hk n
      refine ⟨t, ⟨?_, rank_lt_rank_iff.mp hlt⟩, rfl⟩
      rintro rfl
      exact absurd hpos (Nat.lt_irrefl 0)
  rw [← Set.ncard_image_of_injective _ rank_injective, himage, ← Finset.coe_Ico, Set.ncard_coe_finset,
    Nat.card_Ico]

/-! ## Other letters -/

variable {α : Type} [LinearOrder α] {f : Fin k → α}

theorem shortlex_map (hf : StrictMono f) {s t : List (Fin k)} :
    List.Shortlex (· < ·) (s.map f) (t.map f) ↔ List.Shortlex (· < ·) s t := by
  have hmap : ∀ {s t : List (Fin k)}, List.Shortlex (· < ·) s t →
      List.Shortlex (· < ·) (s.map f) (t.map f) := by
    intro s t h
    rw [List.shortlex_def, List.length_map, List.length_map]
    exact (List.shortlex_def.mp h).imp_right
      fun h => ⟨h.1, List.map_lt (fun x y hxy => hf hxy) h.2⟩
  refine ⟨fun h => ?_, hmap⟩
  rcases Std.Trichotomous.rel_or_eq_or_rel_swap (r := List.Shortlex (· < ·)) (a := s) (b := t) with
    hst | rfl | hts
  · exact hst
  · exact absurd h (irrefl _)
  · exact absurd h (asymm (hmap hts))

/-- **The non-empty words in front of a word**, in letters of any kind. -/
theorem ncard_shortlex_map (hk : 0 < k) (hf : StrictMono f) (s : List (Fin k)) :
    Set.ncard {t : List α | (t ≠ [] ∧ ∀ c ∈ t, c ∈ Set.range f) ∧ List.Shortlex (· < ·) t (s.map f)} =
      rank s - 1 := by
  rw [← ncard_shortlex hk s, ← Set.ncard_image_of_injective _ (List.map_injective_iff.mpr hf.injective)]
  congr 1
  ext t
  simp only [Set.mem_image, Set.mem_ofPred_eq]
  constructor
  · rintro ⟨⟨hne, hletters⟩, hlt⟩
    obtain ⟨t, rfl⟩ : t ∈ Set.range (List.map f) := by
      rw [Set.range_list_map]
      exact hletters
    exact ⟨t, ⟨fun hnil => hne (hnil ▸ rfl), (shortlex_map hf).mp hlt⟩, rfl⟩
  · rintro ⟨t, ⟨hne, hlt⟩, rfl⟩
    refine ⟨⟨fun hnil => hne (List.map_eq_nil_iff.mp hnil), fun c hc => ?_⟩, (shortlex_map hf).mpr hlt⟩
    obtain ⟨d, -, rfl⟩ := List.mem_map.mp hc
    exact ⟨d, rfl⟩

end Primitives.Lib.Shortlex
