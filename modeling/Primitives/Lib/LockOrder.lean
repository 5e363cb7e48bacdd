import Mathlib.Logic.Relation
import Mathlib.Order.Basic

/-!
# Lock order

Threads hold locks and wait for locks. When every lock a thread waits for ranks above every
lock it holds, no thread waits, through any number of others, for itself.
-/

set_option autoImplicit false

namespace Primitives.Lib

variable {Thread Lock : Type}

/-- Thread `t` waits for a lock that thread `t'` holds. -/
def WaitsFor (owner : Lock → Option Thread) (waits : Thread → Lock → Prop) (t t' : Thread) : Prop :=
  ∃ l, waits t l ∧ owner l = some t'

/-- Every lock waited for ranks above the locks held by the thread that waits. -/
def Ordered {β : Type} [Preorder β] (rank : Lock → β) (owner : Lock → Option Thread)
    (waits : Thread → Lock → Prop) : Prop :=
  ∀ ⦃t : Thread⦄ ⦃l l' : Lock⦄, waits t l → owner l' = some t → rank l' < rank l

variable {β : Type} [Preorder β] {rank : Lock → β} {owner : Lock → Option Thread}
  {waits : Thread → Lock → Prop}

/-- Along a chain of waiting threads the locks waited for go up. -/
theorem Ordered.rank_lt (h : Ordered rank owner waits) {t t' : Thread}
    (hc : Relation.TransGen (WaitsFor owner waits) t t') :
    ∃ l, waits t l ∧ ∀ l', waits t' l' → rank l < rank l' := by
  induction hc with
  | single hw =>
    obtain ⟨l, hl, ho⟩ := hw
    exact ⟨l, hl, fun l' hl' => h hl' ho⟩
  | tail _ hw ih =>
    obtain ⟨l, hl, hlt⟩ := ih
    obtain ⟨m, hm, ho⟩ := hw
    exact ⟨l, hl, fun l' hl' => (hlt m hm).trans (h hl' ho)⟩

/-- **No cycle of waiting threads.** -/
theorem Ordered.no_cycle (h : Ordered rank owner waits) (t : Thread) :
    ¬ Relation.TransGen (WaitsFor owner waits) t t := by
  intro hc
  obtain ⟨l, hl, hlt⟩ := h.rank_lt hc
  exact lt_irrefl _ (hlt l hl)

end Primitives.Lib
