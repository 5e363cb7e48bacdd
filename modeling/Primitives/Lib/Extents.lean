import Mathlib.Data.List.Basic
import Mathlib.Data.List.Induction
import Mathlib.Order.Nat

/-!
# Blocks of a sparse sequence

A sequence that is given by blocks, each with the place where it begins, has a filling where no block
is. Blocks in order that are written one after the other make up no more than goes up to the end of the
last (`add_total_le`). So if what is written is the sequence up to there, no place is left out
(`isSequence_iff_noHoles`).
-/

set_option autoImplicit false

namespace Primitives.Lib

variable {α : Type}

structure Block (α : Type) where
  data : List α
  offset : Nat

namespace Block

/-- Where the block ends. -/
def stop (b : Block α) : Nat := b.offset + b.data.length

end Block

/-- No block begins before the end of one before it. -/
def InOrder (bs : List (Block α)) : Prop := bs.Pairwise fun a b => a.stop ≤ b.offset

/-- Where the last block ends. -/
def endOf (bs : List (Block α)) : Nat := (bs.getLast?.map Block.stop).getD 0

/-- How many elements the blocks have. -/
def total : List (Block α) → Nat
  | [] => 0
  | b :: bs => b.data.length + total bs

/-- What is written, one block after the other. -/
def appendedData (bs : List (Block α)) : List α := (bs.map Block.data).flatten

/-- What the sequence has at a place: the element of a block, or the filling. -/
def HasAt (filling : α) (bs : List (Block α)) (k : Nat) (x : α) : Prop :=
  (∃ b ∈ bs, b.offset ≤ k ∧ b.data[k - b.offset]? = some x) ∨
    ((∀ b ∈ bs, ¬ (b.offset ≤ k ∧ k < b.stop)) ∧ x = filling)

/-- The list is the sequence, up to the end of the last block. -/
def IsSequence (filling : α) (bs : List (Block α)) (l : List α) : Prop :=
  ∀ k < endOf bs, ∃ x, l[k]? = some x ∧ HasAt filling bs k x

/-- Every block begins where those before it end. -/
def NoHoles (bs : List (Block α)) : Prop :=
  ∀ pre b post, bs = pre ++ b :: post → b.offset = total pre

theorem total_cons (b : Block α) (bs : List (Block α)) : total (b :: bs) = b.data.length + total bs :=
  rfl

theorem total_append (as bs : List (Block α)) : total (as ++ bs) = total as + total bs := by
  induction as with
  | nil => exact (Nat.zero_add _).symm
  | cons a as ih => rw [List.cons_append, total_cons, ih, total_cons, Nat.add_assoc]

theorem length_appendedData (bs : List (Block α)) : (appendedData bs).length = total bs := by
  induction bs with
  | nil => rfl
  | cons b bs ih => rw [total_cons, ← ih]; exact List.length_append

theorem appendedData_concat (bs : List (Block α)) (b : Block α) :
    appendedData (bs ++ [b]) = appendedData bs ++ b.data := by
  simp [appendedData]

theorem endOf_concat (bs : List (Block α)) (b : Block α) : endOf (bs ++ [b]) = b.stop := by
  rw [endOf, List.getLast?_concat]
  rfl

/-- **Blocks in order** between two places have no more elements than there are places. -/
theorem add_total_le {bs : List (Block α)} {lo hi : Nat} (h : InOrder bs)
    (hlo : ∀ b ∈ bs, lo ≤ b.offset) (hhi : ∀ b ∈ bs, b.stop ≤ hi) (hle : lo ≤ hi) :
    lo + total bs ≤ hi := by
  induction bs generalizing lo with
  | nil => exact hle
  | cons b bs ih =>
    obtain ⟨hb, hbs⟩ := List.pairwise_cons.mp h
    obtain ⟨hlob, -⟩ := List.forall_mem_cons.mp hlo
    obtain ⟨hhib, hhi⟩ := List.forall_mem_cons.mp hhi
    have hrest := ih hbs hb hhi hhib
    rw [total_cons]
    rw [Block.stop] at hrest
    omega

theorem stop_le_endOf {bs : List (Block α)} (h : InOrder bs) : ∀ b ∈ bs, b.stop ≤ endOf bs := by
  rcases List.eq_nil_or_concat' bs with rfl | ⟨bs, last, rfl⟩
  · exact fun b hb => absurd hb List.not_mem_nil
  · intro b hb
    rw [endOf_concat]
    rcases List.mem_append.mp hb with hb | hb
    · have hlast := (List.pairwise_append.mp h).2.2 b hb last (List.mem_singleton_self _)
      exact hlast.trans (Nat.le_add_right _ _)
    · rw [List.mem_singleton.mp hb]

/-- Without holes the last block ends with what is written. -/
theorem NoHoles.endOf_eq {bs : List (Block α)} (h : NoHoles bs) : endOf bs = total bs := by
  rcases List.eq_nil_or_concat' bs with rfl | ⟨bs, last, rfl⟩
  · rfl
  · rw [endOf_concat, Block.stop, h bs last [] rfl, total_append, total_cons]
    rfl

theorem NoHoles.init {bs : List (Block α)} {b : Block α} (h : NoHoles (bs ++ [b])) : NoHoles bs := by
  intro pre c post hbs
  refine h pre c (post ++ [b]) ?_
  rw [hbs, List.append_assoc, List.cons_append]

/-- Without holes every element that is written stands at its place. -/
theorem NoHoles.exists_block {bs : List (Block α)} (h : NoHoles bs) {k : Nat} {x : α}
    (hk : (appendedData bs)[k]? = some x) :
    ∃ b ∈ bs, b.offset ≤ k ∧ b.data[k - b.offset]? = some x := by
  induction bs using List.reverseRecOn with
  | nil => cases hk
  | append_singleton bs b ih =>
    rw [appendedData_concat] at hk
    rcases Nat.lt_or_ge k (appendedData bs).length with hlt | hge
    · rw [List.getElem?_append_left hlt] at hk
      obtain ⟨c, hc, hdata⟩ := ih h.init hk
      exact ⟨c, List.mem_append_left _ hc, hdata⟩
    · rw [List.getElem?_append_right hge, length_appendedData, ← h bs b [] rfl] at hk
      rw [length_appendedData, ← h bs b [] rfl] at hge
      exact ⟨b, List.mem_append_right _ (List.mem_singleton_self _), hge, hk⟩

/-- **What is written is the sequence** exactly if there are no holes. -/
theorem isSequence_iff_noHoles (filling : α) {bs : List (Block α)} (h : InOrder bs) :
    IsSequence filling bs (appendedData bs) ↔ NoHoles bs := by
  constructor
  · rintro hseq pre b post rfl
    obtain ⟨hpre, hpost, hbetween⟩ := List.pairwise_append.mp h
    -- if a place were left out before the block, too little would be written
    have hlong : endOf (pre ++ b :: post) ≤ total (pre ++ b :: post) := by
      by_contra hlt
      obtain ⟨x, hx, -⟩ := hseq _ (Nat.lt_of_not_le hlt)
      rw [← length_appendedData, List.getElem?_eq_none (Nat.le_refl _)] at hx
      cases hx
    have hstops := stop_le_endOf h
    have hbefore := add_total_le hpre (fun c _ => Nat.zero_le _)
      (fun c hc => hbetween c hc b List.mem_cons_self) (Nat.zero_le b.offset)
    have hfrom : ∀ c ∈ b :: post, b.offset ≤ c.offset := by
      intro c hc
      rcases List.mem_cons.mp hc with rfl | hc
      · exact Nat.le_refl _
      · exact (Nat.le_add_right _ _).trans ((List.pairwise_cons.mp hpost).1 c hc)
    have hstop := hstops b (by simp)
    have hbehind := add_total_le hpost hfrom
      (fun c hc => hstops c (List.mem_append_right _ hc)) ((Nat.le_add_right _ _).trans hstop)
    rw [total_append] at hlong
    omega
  · intro hno k hk
    rw [hno.endOf_eq, ← length_appendedData] at hk
    have hx := List.getElem?_eq_getElem hk
    exact ⟨_, hx, .inl (hno.exists_block hx)⟩

end Primitives.Lib
