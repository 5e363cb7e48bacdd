import Mathlib.Data.List.Lex
import Mathlib.Order.PiLex
import Mathlib.Order.Lattice.Nat
import Mathlib.Data.List.GetD

/-!
# Lexicographic comparison

`lexicographicalCompare` walks two lists with a test for "less", and is the order of the lists of
keys wherever the test is the order of the keys. Lists that are padded to one length compare as
the sequences that go on with the padding for ever, so how far they were padded does not matter.

A comparison that is the order of keys is what a sort asks for (`StrictWeakOrder.of_key`).
-/

set_option autoImplicit false

namespace Primitives.Lib

section Compare

variable {α β : Type} [LinearOrder β]

/-- The first difference decides, and a proper beginning is less. -/
def lexicographicalCompare (less : α → α → Bool) : List α → List α → Bool
  | _, [] => false
  | [], _ :: _ => true
  | a :: l, b :: m =>
    if less a b then true
    else if less b a then false
    else lexicographicalCompare less l m

/-- Two elements are compared both ways, and the rest decides where neither of them is less. -/
theorem compared_iff {a b : β} {p q : Prop} [Decidable p] [Decidable q] (hp : p ↔ a < b)
    (hq : q ↔ b < a) (rest : Bool) :
    (if p then true else if q then false else rest) = true ↔ a < b ∨ a = b ∧ rest = true := by
  split
  · rename_i hlt
    exact iff_of_true rfl (.inl (hp.mp hlt))
  · rename_i hnot
    have hge : b ≤ a := not_lt.mp fun hlt => hnot (hp.mpr hlt)
    split
    · rename_i hgt
      have hgt' : b < a := hq.mp hgt
      exact iff_of_false Bool.false_ne_true fun h =>
        h.elim hge.not_gt fun heq => hgt'.ne heq.1.symm
    · rename_i hnot'
      have hle : a ≤ b := not_lt.mp fun hlt => hnot' (hq.mpr hlt)
      exact ⟨fun h => .inr ⟨le_antisymm hle hge, h⟩, fun h => (h.resolve_left hge.not_gt).2⟩

theorem lexicographicalCompare_iff {less : α → α → Bool} (key : α → β)
    (h : ∀ a b, less a b = true ↔ key a < key b) :
    ∀ l m, lexicographicalCompare less l m = true ↔ l.map key < m.map key := by
  intro l
  induction l with
  | nil =>
    intro m
    cases m with
    | nil => simp [lexicographicalCompare]
    | cons b m => simp [lexicographicalCompare]
  | cons a l ih =>
    intro m
    cases m with
    | nil => simp [lexicographicalCompare]
    | cons b m =>
      rw [lexicographicalCompare, List.map_cons, List.map_cons, List.cons_lt_cons_iff, ← ih]
      exact compared_iff (h a b) (h b a) _

/-- Elements that are their own keys. -/
theorem lexicographicalCompare_self_iff {less : β → β → Bool} (h : ∀ a b, less a b = true ↔ a < b)
    (l m : List β) : lexicographicalCompare less l m = true ↔ l < m := by
  rw [lexicographicalCompare_iff id h, List.map_id, List.map_id]

/-- Exactly one of three tests holds that decide the order of two elements. -/
theorem count_trichotomy {a b : β} {lt eq gt : Bool} (hlt : lt = true ↔ a < b)
    (heq : eq = true ↔ a = b) (hgt : gt = true ↔ b < a) : [lt, eq, gt].count true = 1 := by
  rcases lt_trichotomy a b with h | h | h
  · simp [hlt.mpr h, Bool.eq_false_iff.mpr (heq.not.mpr h.ne),
      Bool.eq_false_iff.mpr (hgt.not.mpr h.not_gt)]
  · simp [heq.mpr h, Bool.eq_false_iff.mpr (hlt.not.mpr h.not_lt),
      Bool.eq_false_iff.mpr (hgt.not.mpr h.not_gt)]
  · simp [hgt.mpr h, Bool.eq_false_iff.mpr (heq.not.mpr h.ne'),
      Bool.eq_false_iff.mpr (hlt.not.mpr h.not_gt)]

end Compare

section WeakOrder

variable {α β : Type} {less : α → α → Bool}

/-- Neither of the two is less. -/
def Incomparable (less : α → α → Bool) (a b : α) : Prop := less a b = false ∧ less b a = false

/-- What a sort asks of its comparison. -/
structure StrictWeakOrder (less : α → α → Bool) : Prop where
  irrefl : ∀ a, less a a = false
  trans : ∀ a b c, less a b = true → less b c = true → less a c = true
  incomparable_trans : ∀ a b c,
    Incomparable less a b → Incomparable less b c → Incomparable less a c

variable [LinearOrder β] {key : α → β}

theorem incomparable_iff_key (h : ∀ a b, less a b = true ↔ key a < key b) (a b : α) :
    Incomparable less a b ↔ key a = key b := by
  rw [Incomparable, ← Bool.not_eq_true, ← Bool.not_eq_true, h, h, not_lt, not_lt]
  constructor
  · rintro ⟨hba, hab⟩
    exact le_antisymm hab hba
  · intro heq
    exact ⟨heq.ge, heq.le⟩

/-- **The order of keys** can be sorted by. -/
theorem StrictWeakOrder.of_key (h : ∀ a b, less a b = true ↔ key a < key b) :
    StrictWeakOrder less where
  irrefl a := ((incomparable_iff_key h a a).mpr rfl).1
  trans a b c hab hbc := (h a c).mpr (((h a b).mp hab).trans ((h b c).mp hbc))
  incomparable_trans a b c hab hbc := by
    rw [incomparable_iff_key h] at *
    exact hab.trans hbc

end WeakOrder

section Sequence

variable {β : Type}

/-- The list, and then the padding. -/
def sequence (z : β) (l : List β) : Lex (ℕ → β) := toLex fun i => l.getD i z

theorem sequence_append_replicate (z : β) (l : List β) (n : ℕ) :
    sequence z (l ++ List.replicate n z) = sequence z l := by
  unfold sequence
  congr 1
  funext i
  obtain hlt | hle := Nat.lt_or_ge i l.length
  · simp [List.getD_eq_getElem?_getD, List.getElem?_append_left hlt]
  · rw [List.getD_append_right _ _ _ _ hle, List.getD_eq_default _ _ hle]
    obtain hlt | hge := Nat.lt_or_ge (i - l.length) n
    · simp [List.getD_eq_getElem?_getD, hlt]
    · exact List.getD_eq_default _ _ (by simpa using hge)

/-- The padding is at the end of every list. -/
theorem sequence_headD_cons (z : β) (l : List β) : sequence z (l.headD z :: l.tail) = sequence z l := by
  cases l with
  | nil => exact sequence_append_replicate z [] 1
  | cons x l => rfl

variable [LinearOrder β]

/-- The first places decide, or else the rest. -/
theorem sequence_cons_lt_iff (z a b : β) (l m : List β) :
    sequence z (a :: l) < sequence z (b :: m) ↔
      a < b ∨ a = b ∧ sequence z l < sequence z m := by
  constructor
  · rintro ⟨i, heq, hlt⟩
    cases i with
    | zero => exact .inl hlt
    | succ i =>
      have h₀ : a = b := heq 0 (Nat.succ_pos i)
      exact .inr ⟨h₀, i, fun j hj => heq (j + 1) (Nat.succ_lt_succ hj), hlt⟩
  · rintro (hlt | ⟨rfl, i, heq, hlt⟩)
    · exact ⟨0, fun j hj => absurd hj (Nat.not_lt_zero j), hlt⟩
    · refine ⟨i + 1, fun j hj => ?_, hlt⟩
      cases j with
      | zero => rfl
      | succ j => exact heq j (Nat.lt_of_succ_lt_succ hj)

/-- The first difference decides. -/
theorem sequence_append_lt (z : β) (pre : List β) {a b : β} (h : a < b) (l m : List β) :
    sequence z (pre ++ a :: l) < sequence z (pre ++ b :: m) := by
  induction pre with
  | nil => exact (sequence_cons_lt_iff z a b l m).mpr (.inl h)
  | cons c pre ih => exact (sequence_cons_lt_iff z c c _ _).mpr (.inr ⟨rfl, ih⟩)

theorem sequence_lt_iff (z : β) {l m : List β} (h : l.length = m.length) :
    sequence z l < sequence z m ↔ l < m := by
  induction l generalizing m with
  | nil =>
    obtain rfl := List.length_eq_zero_iff.mp h.symm
    exact iff_of_false (lt_irrefl _) (lt_irrefl _)
  | cons a l ih =>
    cases m with
    | nil => cases h
    | cons b m =>
      rw [sequence_cons_lt_iff, List.cons_lt_cons_iff, ih (Nat.succ.inj h)]

theorem sequence_inj (z : β) {l m : List β} (h : l.length = m.length) :
    sequence z l = sequence z m ↔ l = m := by
  constructor
  · intro heq
    refine le_antisymm (not_lt.mp fun hlt => ?_) (not_lt.mp fun hlt => ?_)
    · exact ((sequence_lt_iff z h.symm).mpr hlt).ne heq.symm
    · exact ((sequence_lt_iff z h).mpr hlt).ne heq
  · intro heq
    rw [heq]

/-- Sequences are the same if the lists can be padded to be so. -/
theorem sequence_eq_iff_padded (z : β) (l m : List β) : sequence z l = sequence z m ↔
    ∃ n k, l ++ List.replicate n z = m ++ List.replicate k z := by
  constructor
  · intro heq
    have hlen : (l ++ List.replicate m.length z).length = (m ++ List.replicate l.length z).length := by
      simp only [List.length_append, List.length_replicate]
      exact Nat.add_comm _ _
    refine ⟨m.length, l.length, (sequence_inj z hlen).mp ?_⟩
    rw [sequence_append_replicate, sequence_append_replicate, heq]
  · rintro ⟨n, k, heq⟩
    rw [← sequence_append_replicate z l n, heq, sequence_append_replicate]

theorem sequence_lt_iff_headD (z : β) (l m : List β) : sequence z l < sequence z m ↔
    l.headD z < m.headD z ∨ l.headD z = m.headD z ∧ sequence z l.tail < sequence z m.tail := by
  rw [← sequence_headD_cons z l, ← sequence_headD_cons z m]
  exact sequence_cons_lt_iff z _ _ _ _

end Sequence

section Firsts

variable {β : Type}

/-- The first `n` places of the list and the padding. -/
def firsts (z : β) : ℕ → List β → List β
  | 0, _ => []
  | n + 1, l => l.headD z :: firsts z n l.tail

theorem length_firsts (z : β) (n : ℕ) (l : List β) : (firsts z n l).length = n := by
  induction n generalizing l with
  | zero => rfl
  | succ n ih => exact congrArg _ (ih l.tail)

theorem firsts_self (z : β) (l : List β) : firsts z l.length l = l := by
  induction l with
  | nil => rfl
  | cons x l ih => exact congrArg _ ih

theorem mem_firsts {z x : β} {n : ℕ} {l : List β} (h : x ∈ firsts z n l) : x = z ∨ x ∈ l := by
  induction n generalizing l with
  | zero => cases h
  | succ n ih =>
    rcases List.mem_cons.mp h with rfl | h
    · cases l with
      | nil => exact .inl rfl
      | cons y l => exact .inr List.mem_cons_self
    · exact (ih h).imp_right List.mem_of_mem_tail

theorem sequence_cons_congr {z : β} (x : β) {l m : List β} (h : sequence z l = sequence z m) :
    sequence z (x :: l) = sequence z (x :: m) := by
  unfold sequence
  congr 1
  funext i
  cases i with
  | zero => rfl
  | succ i => exact congrFun h i

/-- Places that are cut off are padding. -/
theorem sequence_take (z : β) (n : ℕ) (l : List β) :
    sequence z (l.take n) = sequence z (firsts z n l) := by
  induction n generalizing l with
  | zero => rfl
  | succ n ih =>
    cases l with
    | nil =>
      have hnil : sequence z [] = sequence z (firsts z n []) := by
        rw [← ih, List.take_nil]
      exact (sequence_append_replicate z [] 1).symm.trans (sequence_cons_congr z hnil)
    | cons x l => exact sequence_cons_congr x (ih l)

/-- The first places are known from each of them. -/
theorem firsts_eq_iff {z : β} {n : ℕ} {l m : List β} (hl : l.length = n) :
    firsts z n m = l ↔ ∀ i < n, m.getD i z = l.getD i z := by
  subst hl
  induction l generalizing m with
  | nil => exact iff_of_true rfl fun i hi => absurd hi (Nat.not_lt_zero i)
  | cons x l ih =>
    have hzero : m.getD 0 z = m.headD z := by cases m <;> rfl
    have hsucc : ∀ i, m.getD (i + 1) z = m.tail.getD i z := by
      intro i
      cases m <;> rfl
    rw [List.length_cons, firsts, List.cons.injEq, ih]
    constructor
    · rintro ⟨hx, htail⟩ i hi
      cases i with
      | zero => exact hzero.trans hx
      | succ i => exact (hsucc i).trans (htail i (Nat.lt_of_succ_lt_succ hi))
    · intro h
      refine ⟨hzero.symm.trans (h 0 (Nat.zero_lt_succ _)), fun i hi => ?_⟩
      exact (hsucc i).symm.trans (h (i + 1) (Nat.succ_lt_succ hi))

/-- What stands behind the first places and the padding does not change them. -/
theorem firsts_append_replicate {z : β} {n k : ℕ} (h : n ≤ k) (l r : List β) :
    firsts z n (l ++ (List.replicate k z ++ r)) = firsts z n l := by
  induction n generalizing l k with
  | zero => rfl
  | succ n ih =>
    cases l with
    | nil =>
      cases k with
      | zero => exact absurd h (Nat.not_succ_le_zero n)
      | succ k => exact congrArg (List.cons z) (ih (Nat.le_of_succ_le_succ h) [])
    | cons x l => exact congrArg (List.cons x) (ih (Nat.le_of_succ_le h) l)

variable [LinearOrder β] {z : β} {n : ℕ} {l m : List β}

/-- A difference in the first places decides. -/
theorem sequence_lt_of_firsts_lt (h : firsts z n l < firsts z n m) : sequence z l < sequence z m := by
  induction n generalizing l m with
  | zero => exact absurd h (lt_irrefl _)
  | succ n ih =>
    rw [firsts, firsts, List.cons_lt_cons_iff] at h
    exact (sequence_lt_iff_headD z l m).mpr (h.imp_right fun h => ⟨h.1, ih h.2⟩)

theorem firsts_le_of_sequence_le (h : sequence z l ≤ sequence z m) : firsts z n l ≤ firsts z n m :=
  not_lt.mp fun hlt => (sequence_lt_of_firsts_lt hlt).not_ge h

/-- What is left out is not below the padding. -/
theorem sequence_firsts_le (hl : ∀ x ∈ l, z ≤ x) : sequence z (firsts z n l) ≤ sequence z l := by
  refine not_lt.mp fun hlt => ?_
  induction n generalizing l with
  | zero =>
    induction l with
    | nil => exact lt_irrefl _ hlt
    | cons x l ih =>
      obtain ⟨hx, hl⟩ := List.forall_mem_cons.mp hl
      rcases (sequence_lt_iff_headD z _ _).mp hlt with hlt | ⟨-, hlt⟩
      · exact hlt.not_ge hx
      · exact ih hl hlt
  | succ n ih =>
    rcases (sequence_lt_iff_headD z _ _).mp hlt with hlt | ⟨-, hlt⟩
    · exact lt_irrefl _ hlt
    · exact ih (fun x hx => hl x (List.mem_of_mem_tail hx)) hlt

/-- **Before a list of `n` places** are those whose first `n` places are before it. -/
theorem sequence_lt_iff_firsts_lt (hm : ∀ x ∈ m, z ≤ x) (hl : l.length = n) :
    sequence z m < sequence z l ↔ firsts z n m < l := by
  have hself : firsts z n l = l := by
    rw [← hl]
    exact firsts_self z l
  constructor
  · intro h
    refine not_le.mp fun hle => ?_
    rcases hle.lt_or_eq with hlt | heq
    · rw [← hself] at hlt
      exact (sequence_lt_of_firsts_lt hlt).not_gt h
    · rw [heq] at h
      exact (sequence_firsts_le hm).not_gt h
  · intro h
    rw [← hself] at h
    exact sequence_lt_of_firsts_lt h

/-- A list of `n` places is not after those whose first `n` places are not before it. -/
theorem le_sequence_of_le_firsts (hm : ∀ x ∈ m, z ≤ x) (hl : l.length = n) (h : l ≤ firsts z n m) :
    sequence z l ≤ sequence z m :=
  not_lt.mp fun hlt => ((sequence_lt_iff_firsts_lt hm hl).mp hlt).not_ge h

/-! ## Between -/

/-- **There is a sequence between two others**: the first one, and something far behind it. -/
theorem sequence_between {c : β} (hc : z < c) (hl : ∀ x ∈ l, z ≤ x) (h : sequence z l < sequence z m) :
    ∃ k, sequence z l < sequence z (l ++ (List.replicate k z ++ [c])) ∧
      sequence z (l ++ (List.replicate k z ++ [c])) < sequence z m := by
  refine ⟨m.length, ?_, ?_⟩
  · have hpad := sequence_append_replicate z l (m.length + 1)
    rw [List.replicate_succ', ← List.append_assoc] at hpad
    rw [← hpad, ← List.append_assoc]
    exact sequence_append_lt z _ hc [] []
  · have hpos : ∀ x ∈ l ++ (List.replicate m.length z ++ [c]), z ≤ x := by
      intro x hx
      rcases List.mem_append.mp hx with hx | hx
      · exact hl x hx
      · rcases List.mem_append.mp hx with hx | hx
        · exact (List.eq_of_mem_replicate hx).ge
        · exact hc.le.trans (List.mem_singleton.mp hx).ge
    rw [sequence_lt_iff_firsts_lt hpos rfl, firsts_append_replicate le_rfl]
    exact (sequence_lt_iff_firsts_lt hl rfl).mp h

end Firsts

theorem lt_concat {β : Type} [LinearOrder β] (l : List β) (y : β) : l < l ++ [y] := by
  induction l with
  | nil => exact List.nil_lt_cons y []
  | cons x l ih => exact List.cons_lt_cons_iff.mpr (.inr ⟨rfl, ih⟩)

/-- A list that is longer is between one and another, if its last element is low enough. -/
theorem exists_between_concat {β : Type} [LinearOrder β] {l m : List β} (h : l < m)
    (hm : ∀ x ∈ m, ∃ y, y < x) : ∃ y, l < l ++ [y] ∧ l ++ [y] < m := by
  have hbelow : ∃ y, l ++ [y] < m := by
    induction l generalizing m with
    | nil =>
      cases m with
      | nil => exact absurd h (lt_irrefl _)
      | cons x m =>
        obtain ⟨y, hy⟩ := hm x List.mem_cons_self
        exact ⟨y, List.cons_lt_cons_iff.mpr (.inl hy)⟩
    | cons a l ih =>
      cases m with
      | nil => exact absurd h (List.not_lt_nil _)
      | cons x m =>
        rcases List.cons_lt_cons_iff.mp h with hlt | ⟨rfl, hlt⟩
        · obtain ⟨y, -⟩ := hm x List.mem_cons_self
          exact ⟨y, List.cons_lt_cons_iff.mpr (.inl hlt)⟩
        · obtain ⟨y, hy⟩ := ih hlt fun x hx => hm x (List.mem_cons_of_mem _ hx)
          exact ⟨y, List.cons_lt_cons_iff.mpr (.inr ⟨rfl, hy⟩)⟩
  obtain ⟨y, hy⟩ := hbelow
  exact ⟨y, lt_concat l y, hy⟩

end Primitives.Lib
