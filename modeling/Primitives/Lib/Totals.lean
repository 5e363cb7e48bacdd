import Mathlib.Algebra.BigOperators.Group.Finset.Piecewise

/-!
# Totals

What any number of parties hold together, each of which may come to hold something. All but finitely many
hold nothing, so there is a total (`Total`), and only one (`Total.eq_sum`).

When one party changes, the others hold the same before and after (`Total.split`). So what goes from one party
to another, also to one of another kind, can be followed by the equations of the totals.
-/

set_option autoImplicit false

namespace Primitives.Lib

variable {ι M : Type} [AddCommMonoid M] {f : ι → M} {m : M}

/-- All but finitely many values are zero, and `m` is their sum. -/
def Total (f : ι → M) (m : M) : Prop := ∃ s : Finset ι, (∀ i ∉ s, f i = 0) ∧ m = ∑ i ∈ s, f i

theorem Total.zero (h : ∀ i, f i = 0) : Total f 0 := ⟨∅, fun i _ => h i, rfl⟩

theorem Total.eq_sum (h : Total f m) {s : Finset ι} (hs : ∀ i ∉ s, f i = 0) : m = ∑ i ∈ s, f i := by
  classical
  obtain ⟨s', hs', rfl⟩ := h
  rw [Finset.sum_subset Finset.subset_union_left fun i _ hi => hs' i hi,
    Finset.sum_subset Finset.subset_union_right fun i _ hi => hs i hi]

theorem Total.eq_zero (h : Total f m) (hf : ∀ i, f i = 0) : m = 0 := h.eq_sum (s := ∅) fun i _ => hf i

/-- **One party apart**: whatever it comes to hold, the others hold the same. -/
theorem Total.split [DecidableEq ι] {σ : Type} {g : σ → M} {f : ι → σ}
    (h : Total (fun i => g (f i)) m) (i : ι) : ∃ others, m = g (f i) + others ∧
      ∀ x, Total (fun k => g (Function.update f i x k)) (g x + others) := by
  obtain ⟨s, hs, rfl⟩ := h
  refine ⟨∑ k ∈ s.erase i, g (f k), ?_, fun x => ⟨insert i s, fun k hk => ?_, ?_⟩⟩
  · by_cases hi : i ∈ s
    · exact (Finset.add_sum_erase s (fun k => g (f k)) hi).symm
    · have hzero : g (f i) = 0 := hs i hi
      rw [Finset.erase_eq_of_notMem hi, hzero, zero_add]
  · rw [Finset.mem_insert, not_or] at hk
    show g (Function.update f i x k) = 0
    rw [Function.update_of_ne hk.1]
    exact hs k hk.2
  · rw [← Finset.add_sum_erase _ _ (Finset.mem_insert_self i s), Finset.erase_insert_eq_erase,
      Function.update_self]
    refine congrArg (g x + ·) (Finset.sum_congr rfl fun k hk => ?_)
    rw [Function.update_of_ne (Finset.ne_of_mem_erase hk)]

end Primitives.Lib
