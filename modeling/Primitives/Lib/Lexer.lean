import Primitives.Lib.Regex

/-!
# Lexers of rules

A lexer is given by rules, some for each of its states: a rule matches by a regular expression, and
its action may return a token and changes the state. At every point the rule is taken that matches
most characters, at least one, and of several the first (`munch`); where no rule matches the lexer
stops.

What is read of a text that begins with `w` is said by `munch_append`: `w` is taken if nothing longer
matches.
-/

set_option autoImplicit false

namespace Primitives.Lib

variable {α ρ σ τ : Type} [DecidableEq α]

theorem firstMatch_eq_none_iff {rule : ρ → RegularExpression α} {rules : List ρ} {s : List α} :
    firstMatch rule rules s = none ↔ ∀ q ∈ rules, s ∉ (rule q).matches' := by
  rw [firstMatch, List.find?_eq_none]
  simp only [RegularExpression.rmatch_iff_matches']

theorem firstMatch_cons_of_mem {rule : ρ → RegularExpression α} {rules : List ρ} {s : List α} {q : ρ}
    (h : s ∈ (rule q).matches') : firstMatch rule (q :: rules) s = some q :=
  List.find?_cons_of_pos ((RegularExpression.rmatch_iff_matches' _ _).mpr h)

theorem firstMatch_cons_of_notMem {rule : ρ → RegularExpression α} {rules : List ρ} {s : List α}
    {q : ρ} (h : s ∉ (rule q).matches') :
    firstMatch rule (q :: rules) s = firstMatch rule rules s :=
  List.find?_cons_of_neg fun hmatch => h ((RegularExpression.rmatch_iff_matches' _ _).mp hmatch)

/-- Only the rules are looked at that can begin so. -/
theorem firstMatch_filter (rule : ρ → RegularExpression α) (rules : List ρ) (c : α) (s : List α) :
    firstMatch rule (rules.filter fun q => canBegin (rule q) c) (c :: s) =
      firstMatch rule rules (c :: s) := by
  induction rules with
  | nil => rfl
  | cons q rules ih =>
    by_cases hmem : c :: s ∈ (rule q).matches'
    · rw [List.filter_cons, if_pos (canBegin_of_mem hmem), firstMatch_cons_of_mem hmem,
        firstMatch_cons_of_mem hmem]
    · rw [firstMatch_cons_of_notMem hmem, List.filter_cons]
      split
      · rw [firstMatch_cons_of_notMem hmem, ih]
      · exact ih

/-! ## The longest match -/

/-- The longest match of at most `n` characters: the rule, the characters, and the rest. -/
def munchUpTo (rule : ρ → RegularExpression α) (rules : List ρ) (s : List α) :
    Nat → Option (ρ × List α × List α)
  | 0 => none
  | n + 1 =>
    match firstMatch rule rules (s.take (n + 1)) with
    | some r => some (r, s.take (n + 1), s.drop (n + 1))
    | none => munchUpTo rule rules s n

/-- The longest match. -/
def munch (rule : ρ → RegularExpression α) (rules : List ρ) (s : List α) :
    Option (ρ × List α × List α) := munchUpTo rule rules s s.length

section

variable {rule : ρ → RegularExpression α} {rules : List ρ}

/-- A match is a beginning of the text, and not empty. -/
theorem munch_split {s w t : List α} {r : ρ} (h : munch rule rules s = some (r, w, t)) :
    w ++ t = s ∧ t.length < s.length := by
  have hup : ∀ n ≤ s.length, munchUpTo rule rules s n = some (r, w, t) →
      w ++ t = s ∧ t.length < s.length := by
    intro n
    induction n with
    | zero =>
      intro _ h
      cases h
    | succ n ih =>
      intro hn h
      rw [munchUpTo] at h
      split at h
      · cases h
        refine ⟨List.take_append_drop _ _, ?_⟩
        rw [List.length_drop]
        omega
      · exact ih (Nat.le_of_succ_le hn) h
  exact hup s.length (Nat.le_refl _) h

/-- The rule of a match is the first one that matches it. -/
theorem firstMatch_of_munch {s w t : List α} {r : ρ} (h : munch rule rules s = some (r, w, t)) :
    firstMatch rule rules w = some r := by
  have hup : ∀ n, munchUpTo rule rules s n = some (r, w, t) → firstMatch rule rules w = some r := by
    intro n
    induction n with
    | zero =>
      intro h
      cases h
    | succ n ih =>
      intro h
      rw [munchUpTo] at h
      split at h
      · rename_i hmatch
        cases h
        exact hmatch
      · exact ih h
  exact hup s.length h

/-- **The longest match** is `w` if a rule matches `w`, and no rule matches more. -/
theorem munch_append {w t : List α} {r : ρ} (hw : w ≠ [])
    (hr : firstMatch rule rules w = some r)
    (hmore : ∀ v ≠ [], v <+: t → ∀ q ∈ rules, w ++ v ∉ (rule q).matches') :
    munch rule rules (w ++ t) = some (r, w, t) := by
  have hup : ∀ k ≤ t.length, munchUpTo rule rules (w ++ t) (w.length + k) = some (r, w, t) := by
    intro k
    induction k with
    | zero =>
      intro _
      obtain ⟨m, hm⟩ := Nat.exists_eq_succ_of_ne_zero (fun h => hw (List.eq_nil_of_length_eq_zero h))
      have htake : (w ++ t).take (m + 1) = w := List.take_left' hm
      have hdrop : (w ++ t).drop (m + 1) = t := List.drop_left' hm
      rw [Nat.add_zero, hm, munchUpTo, htake, hdrop, hr]
    | succ k ih =>
      intro hk
      have htake : (w ++ t).take (w.length + k + 1) = w ++ t.take (k + 1) := by
        rw [Nat.add_assoc]
        exact List.take_length_add_append _
      have hne : t.take (k + 1) ≠ [] := by
        intro hnil
        have hlen := congrArg List.length hnil
        rw [List.length_take, List.length_nil] at hlen
        omega
      have hnone := firstMatch_eq_none_iff.mpr (hmore _ hne (List.take_prefix _ _))
      rw [← Nat.add_assoc, munchUpTo, htake, hnone]
      exact ih (Nat.le_of_succ_le hk)
  have hall := hup t.length (Nat.le_refl _)
  rw [← List.length_append] at hall
  exact hall

theorem munch_filter (rule : ρ → RegularExpression α) (rules : List ρ) (c : α) (s : List α) :
    munch rule (rules.filter fun q => canBegin (rule q) c) (c :: s) = munch rule rules (c :: s) := by
  have hup : ∀ n, munchUpTo rule (rules.filter fun q => canBegin (rule q) c) (c :: s) n =
      munchUpTo rule rules (c :: s) n := by
    intro n
    induction n with
    | zero => rfl
    | succ n ih => rw [munchUpTo, munchUpTo, List.take_succ_cons, firstMatch_filter, ih]
  exact hup _

end

/-! ## The lexer -/

structure Lexer (α ρ σ τ : Type) where
  rules : σ → List ρ
  regex : ρ → RegularExpression α
  action : ρ → List α → σ → Option τ × σ

namespace Lexer

variable (L : Lexer α ρ σ τ)

/-- The tokens of at most `n` matches. -/
def run : Nat → σ → List α → List τ
  | 0, _, _ => []
  | n + 1, st, s =>
    match munch L.regex (L.rules st) s with
    | none => []
    | some (r, w, t) => (L.action r w st).1.toList ++ run n (L.action r w st).2 t

/-- The tokens of a text. -/
def tokens (st : σ) (s : List α) : List τ := L.run s.length st s

/-- A text has no more matches than characters. -/
theorem run_eq_tokens {n : Nat} : ∀ {st : σ} {s : List α}, s.length ≤ n →
    L.run n st s = L.tokens st s := by
  have hrun : ∀ (m n : Nat) (st : σ) (s : List α), s.length ≤ m → s.length ≤ n →
      L.run m st s = L.run n st s := by
    intro m
    induction m with
    | zero =>
      intro n st s hm _
      obtain rfl := List.eq_nil_of_length_eq_zero (Nat.le_zero.mp hm)
      cases n <;> rfl
    | succ m ih =>
      intro n st s hm hn
      cases n with
      | zero =>
        obtain rfl := List.eq_nil_of_length_eq_zero (Nat.le_zero.mp hn)
        rfl
      | succ n =>
        rw [run, run]
        cases hmunch : munch L.regex (L.rules st) s with
        | none => rfl
        | some match' =>
          obtain ⟨r, w, t⟩ := match'
          obtain ⟨-, hlt⟩ := munch_split hmunch
          dsimp only
          rw [ih n _ t (by omega) (by omega)]
  intro st s h
  exact hrun n s.length st s h (Nat.le_refl _)

theorem tokens_nil (st : σ) : L.tokens st [] = [] := rfl

/-- **One match**, and then the rest. -/
theorem tokens_of_munch {st : σ} {s w t : List α} {r : ρ}
    (h : munch L.regex (L.rules st) s = some (r, w, t)) :
    L.tokens st s = (L.action r w st).1.toList ++ L.tokens (L.action r w st).2 t := by
  obtain ⟨-, hlt⟩ := munch_split h
  rw [← L.run_eq_tokens (Nat.le_succ s.length), run, h]
  dsimp only
  rw [L.run_eq_tokens (Nat.le_of_lt hlt)]

/-- A token is returned by the action of a rule, for what it matches. -/
theorem exists_of_mem_tokens {st : σ} {s : List α} {tok : τ} (h : tok ∈ L.tokens st s) :
    ∃ st' r w, firstMatch L.regex (L.rules st') w = some r ∧ (L.action r w st').1 = some tok := by
  have hrun : ∀ (n : Nat) (st : σ) (s : List α), tok ∈ L.run n st s →
      ∃ st' r w, firstMatch L.regex (L.rules st') w = some r ∧ (L.action r w st').1 = some tok := by
    intro n
    induction n with
    | zero =>
      intro st s h
      cases h
    | succ n ih =>
      intro st s h
      rw [run] at h
      split at h
      · cases h
      · rename_i r w t hmunch
        rcases List.mem_append.mp h with h | h
        · exact ⟨st, r, w, firstMatch_of_munch hmunch, Option.mem_toList.mp h⟩
        · exact ih _ t h
  exact hrun _ st s h

end Lexer

end Primitives.Lib
