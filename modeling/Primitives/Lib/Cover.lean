import Mathlib.Data.List.Pairwise
import Mathlib.Order.Interval.Set.Basic

/-!
# Covered intervals

Half-open intervals that are apart leave gaps. Where there is a point in every gap, an interval whose points
are all in such intervals lies in one of them (`exists_of_covered`).
-/

set_option autoImplicit false

namespace Primitives.Lib

variable {α ι : Type} [LinearOrder α] {left right : ι → α} {ends points : Set α}

/-- A gap between an interval and those behind it. -/
theorem exists_gap {p : ι} {l : List ι} (hl : (p :: l).Pairwise fun p q => right p < left q)
    (hlt : ∀ q ∈ l, left q < right q) (hends : ∀ q ∈ l, left q ∈ ends) {b : α} (hb : b ∈ ends)
    (h : right p < b) : ∃ d ∈ ends, right p < d ∧ d ≤ b ∧ ∀ q ∈ l, d ≤ left q := by
  cases l with
  | nil => exact ⟨b, hb, h, le_rfl, List.forall_mem_nil _⟩
  | cons q l =>
    obtain ⟨hp, hl⟩ := List.pairwise_cons.mp hl
    have hq := hp q List.mem_cons_self
    have hbehind : ∀ q' ∈ q :: l, left q ≤ left q' := by
      intro q' hq'
      rcases List.mem_cons.mp hq' with rfl | hq'
      · exact le_rfl
      · exact ((hlt q List.mem_cons_self).trans ((List.pairwise_cons.mp hl).1 q' hq')).le
    rcases le_total b (left q) with hle | hle
    · exact ⟨b, hb, h, le_rfl, fun q' hq' => hle.trans (hbehind q' hq')⟩
    · exact ⟨left q, hends q List.mem_cons_self, hq, hle, hbehind⟩

/-- **An interval that is covered** is inside one of the intervals. -/
theorem exists_of_covered (hdense : ∀ c ∈ ends, ∀ d ∈ ends, c < d → ∃ x ∈ points, x ∈ Set.Ico c d)
    {l : List ι} (hl : l.Pairwise fun p q => right p < left q) (hlt : ∀ p ∈ l, left p < right p)
    (hends : ∀ p ∈ l, left p ∈ ends ∧ right p ∈ ends) {a b : α} (ha : a ∈ ends) (hb : b ∈ ends)
    (hab : a < b) (hcover : ∀ x ∈ points, x ∈ Set.Ico a b → ∃ p ∈ l, x ∈ Set.Ico (left p) (right p)) :
    ∃ p ∈ l, left p ≤ a ∧ b ≤ right p := by
  induction l with
  | nil =>
    obtain ⟨x, hx, hxab⟩ := hdense a ha b hb hab
    obtain ⟨p, hp, -⟩ := hcover x hx hxab
    cases hp
  | cons p l ih =>
    obtain ⟨hp, hl'⟩ := List.pairwise_cons.mp hl
    obtain ⟨hltp, hlt'⟩ := List.forall_mem_cons.mp hlt
    obtain ⟨hendsp, hends'⟩ := List.forall_mem_cons.mp hends
    -- there is no gap in the interval
    have hgap : ∀ c ∈ ends, ∀ d ∈ ends, a ≤ c → d ≤ b → (∀ q ∈ p :: l, right q ≤ c ∨ d ≤ left q) →
        ¬ c < d := by
      intro c hc d hd hac hdb hout hcd
      obtain ⟨x, hx, hcx, hxd⟩ := hdense c hc d hd hcd
      obtain ⟨q, hq, hqx, hxq⟩ := hcover x hx ⟨hac.trans hcx, hxd.trans_le hdb⟩
      rcases hout q hq with hle | hle
      · exact absurd (hle.trans hcx) hxq.not_ge
      · exact absurd (hle.trans hqx) hxd.not_ge
    rcases le_or_gt (right p) a with hra | har
    · obtain ⟨q, hq, hle⟩ := ih hl' hlt' hends' fun x hx hxab => by
        obtain ⟨q, hq, hxq⟩ := hcover x hx hxab
        rcases List.mem_cons.mp hq with rfl | hq
        · exact absurd (hra.trans hxab.1) hxq.2.not_ge
        · exact ⟨q, hq, hxq⟩
      exact ⟨q, List.mem_cons_of_mem _ hq, hle⟩
    · rcases le_or_gt (left p) a with hla | hal
      · refine ⟨p, List.mem_cons_self, hla, not_lt.mp fun hrb => ?_⟩
        obtain ⟨d, hd, hrd, hdb, hbehind⟩ := exists_gap hl hlt' (fun q hq => (hends' q hq).1) hb hrb
        refine hgap (right p) hendsp.2 d hd har.le hdb (fun q hq => ?_) hrd
        rcases List.mem_cons.mp hq with rfl | hq
        · exact .inl le_rfl
        · exact .inr (hbehind q hq)
      · -- the interval would begin before all of them
        have hbehind : ∀ q ∈ p :: l, left p ≤ left q := by
          intro q hq
          rcases List.mem_cons.mp hq with rfl | hq
          · exact le_rfl
          · exact (hltp.trans (hp q hq)).le
        rcases le_total b (left p) with hle | hle
        · exact absurd hab (hgap a ha b hb le_rfl le_rfl fun q hq => .inr (hle.trans (hbehind q hq)))
        · exact absurd hal (hgap a ha (left p) hendsp.1 le_rfl hle fun q hq => .inr (hbehind q hq))

end Primitives.Lib
