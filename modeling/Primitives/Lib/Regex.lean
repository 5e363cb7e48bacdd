import Mathlib.Computability.RegularExpressions

/-!
# Lexer rules as regular expressions

Mathlib's regular expressions, with the shorthands that lexers have for them: a class of characters
(`oneOf`), `r?` (`opt`) and `r+` (`many1`). What a shorthand matches is said by the words it is made
of, so that a match of a whole rule is taken apart by rewriting.

Of the rules that match a text, the first one is taken (`firstMatch`).
-/

set_option autoImplicit false

namespace Primitives.Lib

open RegularExpression

variable {α β ρ : Type}

/-- A class of characters. -/
def oneOf (cs : List α) : RegularExpression α := cs.foldr (fun c r => char c + r) 0

/-- `r?` -/
def opt (r : RegularExpression α) : RegularExpression α := 1 + r

/-- `r+` -/
def many1 (r : RegularExpression α) : RegularExpression α := r * star r

/-- A text, letter by letter. -/
def word (w : List α) : RegularExpression α := w.foldr (fun c r => char c * r) 1

/-! ## What they match -/

theorem mem_comp {r q : RegularExpression α} {s : List α} :
    s ∈ (r * q).matches' ↔ ∃ a ∈ r.matches', ∃ b ∈ q.matches', a ++ b = s := Language.mem_mul

theorem mem_oneOf {cs s : List α} : s ∈ (oneOf cs).matches' ↔ ∃ c ∈ cs, [c] = s := by
  induction cs with
  | nil =>
    simp only [List.not_mem_nil, false_and, exists_false, iff_false]
    exact Language.notMem_zero s
  | cons c cs ih =>
    have hcons : s ∈ (oneOf (c :: cs)).matches' ↔ s = [c] ∨ s ∈ (oneOf cs).matches' :=
      Language.mem_add _ _ _
    rw [hcons, ih, List.exists_mem_cons_iff, eq_comm]

theorem mem_opt {r : RegularExpression α} {s : List α} :
    s ∈ (opt r).matches' ↔ s = [] ∨ s ∈ r.matches' := Language.mem_add _ _ _

theorem mem_word {w s : List α} : s ∈ (word w).matches' ↔ w = s := by
  induction w generalizing s with
  | nil =>
    have hnil : s ∈ (word ([] : List α)).matches' ↔ s = [] := Language.mem_one s
    rw [hnil, eq_comm]
  | cons c w ih =>
    have hcons : word (c :: w) = char c * word w := rfl
    rw [hcons, mem_comp]
    constructor
    · rintro ⟨a, ha, b, hb, rfl⟩
      obtain rfl : a = [c] := ha
      rw [ih.mp hb]
      rfl
    · rintro rfl
      exact ⟨[c], rfl, w, ih.mpr rfl, rfl⟩

/-- Where `r` matches the texts of certain things, `r*` matches the texts of lists of them. -/
theorem mem_star_of {r : RegularExpression α} {ok : β → Prop} {text : β → List α}
    (h : ∀ w, w ∈ r.matches' ↔ ∃ x, ok x ∧ text x = w) {s : List α} :
    s ∈ (star r).matches' ↔ ∃ xs : List β, (∀ x ∈ xs, ok x) ∧ xs.flatMap text = s := by
  have hstar : s ∈ (star r).matches' ↔
      ∃ ws : List (List α), s = ws.flatten ∧ ∀ w ∈ ws, w ∈ r.matches' := Language.mem_kstar
  rw [hstar]
  constructor
  · rintro ⟨ws, rfl, hws⟩
    clear hstar
    induction ws with
    | nil => exact ⟨[], by simp, rfl⟩
    | cons w ws ih =>
      obtain ⟨xs, hxs, htext⟩ := ih fun v hv => hws v (List.mem_cons_of_mem w hv)
      obtain ⟨x, hx, hw⟩ := (h w).mp (hws w List.mem_cons_self)
      refine ⟨x :: xs, List.forall_mem_cons.mpr ⟨hx, hxs⟩, ?_⟩
      rw [List.flatMap_cons, hw, htext, List.flatten_cons]
  · rintro ⟨xs, hxs, rfl⟩
    refine ⟨xs.map text, List.flatMap_def, fun w hw => ?_⟩
    obtain ⟨x, hx, rfl⟩ := List.mem_map.mp hw
    exact (h _).mpr ⟨x, hxs x hx, rfl⟩

theorem mem_star_oneOf {cs s : List α} :
    s ∈ (star (oneOf cs)).matches' ↔ ∀ c ∈ s, c ∈ cs := by
  rw [mem_star_of fun w => mem_oneOf]
  simp [List.flatMap_singleton']

theorem mem_oneOf_pow {cs s : List α} {n : Nat} :
    s ∈ (oneOf cs ^ n).matches' ↔ s.length = n ∧ ∀ c ∈ s, c ∈ cs := by
  rw [matches'_pow]
  induction n generalizing s with
  | zero =>
    rw [pow_zero, Language.mem_one, List.length_eq_zero_iff]
    constructor
    · rintro rfl
      exact ⟨rfl, by simp⟩
    · exact And.left
  | succ n ih =>
    rw [pow_succ', Language.mem_mul]
    constructor
    · rintro ⟨a, ha, b, hb, rfl⟩
      obtain ⟨c, hc, rfl⟩ := mem_oneOf.mp ha
      obtain ⟨hlen, hall⟩ := ih.mp hb
      exact ⟨congrArg Nat.succ hlen, List.forall_mem_cons.mpr ⟨hc, hall⟩⟩
    · rintro ⟨hlen, hall⟩
      cases s with
      | nil => cases hlen
      | cons c s =>
        obtain ⟨hc, hall⟩ := List.forall_mem_cons.mp hall
        exact ⟨[c], mem_oneOf.mpr ⟨c, hc, rfl⟩, s, ih.mpr ⟨Nat.succ.inj hlen, hall⟩, rfl⟩

/-! ## How a match begins -/

section

variable [DecidableEq α]

/-- The characters that a match can begin with. -/
def canBegin : RegularExpression α → α → Bool
  | .zero, _ => false
  | .epsilon, _ => false
  | .char d, c => c = d
  | .plus r q, c => canBegin r c || canBegin q c
  | .comp r q, c => canBegin r c || (r.matchEpsilon && canBegin q c)
  | .star r, c => canBegin r c

theorem canBegin_of_mem {r : RegularExpression α} {c : α} {s : List α} (h : c :: s ∈ r.matches') :
    canBegin r c = true := by
  induction r generalizing s with
  | zero => exact absurd h (Language.notMem_zero _)
  | epsilon => cases (Language.mem_one _).mp h
  | char d =>
    obtain ⟨rfl, -⟩ := List.cons.inj (show c :: s = [d] from h)
    exact decide_eq_true rfl
  | plus r q ihr ihq =>
    rcases (Language.mem_add _ _ _).mp h with h | h
    · rw [canBegin, ihr h, Bool.true_or]
    · rw [canBegin, ihq h, Bool.or_true]
  | comp r q ihr ihq =>
    obtain ⟨a, ha, b, hb, hab⟩ := Language.mem_mul.mp h
    cases a with
    | nil =>
      obtain rfl : b = c :: s := hab
      have hnil : r.matchEpsilon = true := (rmatch_iff_matches' r []).mpr ha
      rw [canBegin, hnil, ihq hb, Bool.and_true, Bool.or_true]
    | cons d a =>
      obtain ⟨rfl, -⟩ := List.cons.inj hab
      rw [canBegin, ihr ha, Bool.true_or]
  | star r ih =>
    obtain ⟨ws, hws, hall⟩ := Language.mem_kstar_iff_exists_nonempty.mp h
    cases ws with
    | nil => cases hws
    | cons w ws =>
      obtain ⟨hw, hne⟩ := hall w List.mem_cons_self
      obtain ⟨d, w, rfl⟩ := List.exists_cons_of_ne_nil hne
      obtain ⟨rfl, -⟩ := List.cons.inj hws
      exact ih hw

@[simp] theorem canBegin_mul (r q : RegularExpression α) (c : α) :
    canBegin (r * q) c = (canBegin r c || (r.matchEpsilon && canBegin q c)) := rfl

@[simp] theorem canBegin_star (r : RegularExpression α) (c : α) : canBegin (star r) c = canBegin r c :=
  rfl

@[simp] theorem canBegin_opt (r : RegularExpression α) (c : α) : canBegin (opt r) c = canBegin r c :=
  Bool.false_or _

@[simp] theorem canBegin_many1 (r : RegularExpression α) (c : α) :
    canBegin (many1 r) c = canBegin r c := by
  rw [many1, canBegin_mul, canBegin_star]
  cases canBegin r c <;> simp

@[simp] theorem canBegin_oneOf (cs : List α) (c : α) : canBegin (oneOf cs) c = decide (c ∈ cs) := by
  induction cs with
  | nil => rfl
  | cons d cs ih =>
    have hcons : canBegin (oneOf (d :: cs)) c = (decide (c = d) || canBegin (oneOf cs) c) := rfl
    rw [hcons, ih]
    simp

@[simp] theorem canBegin_word_cons (d : α) (w : List α) (c : α) :
    canBegin (word (d :: w)) c = decide (c = d) := by
  have hcons : canBegin (word (d :: w)) c = (decide (c = d) || (false && canBegin (word w) c)) := rfl
  rw [hcons, Bool.false_and, Bool.or_false]

end

@[simp] theorem matchEpsilon_opt (r : RegularExpression α) : (opt r).matchEpsilon = true := rfl

@[simp] theorem matchEpsilon_oneOf (cs : List α) : (oneOf cs).matchEpsilon = false := by
  induction cs with
  | nil => rfl
  | cons d cs ih => exact (Bool.false_or _).trans ih

@[simp] theorem matchEpsilon_word_cons (d : α) (w : List α) :
    (word (d :: w)).matchEpsilon = false := rfl

/-! ## The first rule that matches -/

section

variable [DecidableEq α]

/-- The first of the rules that matches the text. -/
def firstMatch (rule : ρ → RegularExpression α) (rules : List ρ) (s : List α) : Option ρ :=
  rules.find? fun r => (rule r).rmatch s

theorem firstMatch_eq_some_iff {rule : ρ → RegularExpression α} {rules : List ρ} {s : List α}
    {r : ρ} : firstMatch rule rules s = some r ↔ s ∈ (rule r).matches' ∧
      ∃ before after, rules = before ++ r :: after ∧ ∀ q ∈ before, s ∉ (rule q).matches' := by
  rw [firstMatch, List.find?_eq_some_iff_append, rmatch_iff_matches']
  simp only [Bool.not_eq_true', ← Bool.not_eq_true, rmatch_iff_matches']

end

end Primitives.Lib
