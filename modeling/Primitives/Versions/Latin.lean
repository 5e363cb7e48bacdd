import Mathlib.Data.Char
import Primitives.Basic
import Primitives.Lib.Fallible
import Primitives.Lib.Shortlex

/-!
# Letters for numbers

In the pattern of `Version::format` a component may be asked for in letters. `create_latin_replacements`
goes over the lengths first: it takes the numbers of all shorter strings off, and what is left is written
with 26 digits, which are the letters, and padded to the length. This gives the strings of letters in
shortlex order (`create_latin_replacements_shortlex`) as long as `p`, the number of strings of the length,
is an `int64_t`.
-/

set_option autoImplicit false

namespace Primitives.Versions.Latin

open Lib Lib.Shortlex

/-! ## The code -/

/-- Why there is no string. -/
inductive Stop where
  /-- Signed overflow: undefined behaviour. -/
  | overflow
  /-- A loop takes more turns than it is given. -/
  | turns
deriving DecidableEq, Repr

/-- The result of an operation of `Number`, an `int64_t`. -/
def number (i : Int) : Except Stop Int :=
  if -(int64Max + 1) ≤ i ∧ i ≤ int64Max then .ok i else .error .overflow

/-- The cast to `char`. -/
def toChar (i : Int) : Char := Char.ofNat (i % 256).toNat

/-- `while (n >= p)`: `n` and `c` at its end. -/
def blocks (a : Int) : Nat → Int → Int → Nat → Except Stop (Int × Nat)
  | 0, _, _, _ => .error .turns
  | turns + 1, n, p, c =>
    if n ≥ p then do
      let n ← number (n - p)
      let p ← number (p * a)
      blocks a turns n p (c + 1)
    else .ok (n, c)

/-- `while (n >= a)`: `n` and `s` at its end. -/
def digits (a : Int) (base : Char) : Nat → Int → Str → Except Stop (Int × Str)
  | 0, _, _ => .error .turns
  | turns + 1, n, s =>
    if n ≥ a then do
      let letter ← number (n.tmod a + base.toNat)
      digits a base turns (n.tdiv a) (s ++ [toChar letter])
    else .ok (n, s)

/-- `create_latin_replacements`. Neither loop takes 64 turns: `p` overflows before, and `n` is a
number of 64 bits. -/
def create_latin_replacements (n : Int) (base : Char) : Except Stop Str := do
  let a := 26
  let p := a
  let (n, c) ← blocks a 64 n p 1
  let (n, s) ← digits a base 64 n []
  let letter ← number (n + base.toNat)
  let s := (s ++ [toChar letter]).reverse
  .ok (if s.length < c then List.replicate (c - s.length) base ++ s else s)

/-! ## The first loop -/

/-- The numbers that there are strings for: `26 + 26 ^ 2 + … + 26 ^ 13`. -/
def count : Nat := ∑ i ∈ Finset.range 13, 26 ^ (i + 1)

theorem number_of_le {i : Int} (h0 : 0 ≤ i) (h : i ≤ int64Max) : number i = .ok i := by
  refine if_pos ⟨?_, h⟩
  unfold int64Max
  omega

theorem count_add_one : count + 1 = shorter 26 14 := by
  decide

/-- **The length is found.** At the head of the loop, `p` is the number of strings of `c` letters and
the shorter ones are taken off. -/
theorem blocks_eq (n c turns : Nat) (hc : 1 ≤ c) (hc' : c ≤ 13) (hturns : 14 ≤ turns + c)
    (hn : n + shorter 26 c < shorter 26 14) :
    ∃ m d : Nat, blocks 26 turns n (26 ^ c : Nat) c = .ok ((m : Int), d) ∧ 1 ≤ d ∧ d ≤ 13 ∧
      m < 26 ^ d ∧ m + shorter 26 d = n + shorter 26 c := by
  induction turns generalizing n c with
  | zero => omega
  | succ turns ih =>
    rw [blocks]
    split
    · rename_i hge
      have hge' : 26 ^ c ≤ n := by exact_mod_cast hge
      have hshorter := shorter_succ' 26 c
      -- there is a longer string, since the numbers of all shorter ones are used up
      have hlt : c < 13 := by
        rcases Nat.lt_or_ge c 13 with hlt | hge
        · exact hlt
        · obtain rfl : c = 13 := Nat.le_antisymm hc' hge
          exact absurd hn (by rw [shorter_succ' 26 13]; omega)
      have hpow : 26 ^ (c + 1) ≤ 26 ^ 13 := Nat.pow_le_pow_right (by decide) hlt
      have hsmall : shorter 26 14 < int64Max := by decide
      have hsub : number ((n : Int) - (26 ^ c : Nat)) = .ok ((n - 26 ^ c : Nat) : Int) := by
        rw [← Nat.cast_sub hge']
        exact number_of_le (Int.natCast_nonneg _) (by omega)
      have hmul : number (((26 ^ c : Nat) : Int) * 26) = .ok ((26 ^ (c + 1) : Nat) : Int) := by
        rw [pow_succ, Nat.cast_mul]
        refine number_of_le (by positivity) ?_
        have hmax : 26 ^ 13 ≤ int64Max := by decide
        exact_mod_cast pow_succ 26 c ▸ hpow.trans hmax
      obtain ⟨m, d, hblocks, hd, hd', hm, heq⟩ := ih (n - 26 ^ c) (c + 1) (Nat.le_add_left 1 c) hlt
        (by omega) (by omega)
      refine ⟨m, d, ?_, hd, hd', hm, by omega⟩
      rw [hsub, hmul]
      exact hblocks
    · rename_i hlt
      have hlt' : n < 26 ^ c := by
        have hless := not_le.mp hlt
        exact_mod_cast hless
      exact ⟨n, c, rfl, hc, hc', hlt', rfl⟩

/-! ## The second loop -/

/-- A letter, from the first one on. -/
def letter (base : Char) (d : Fin 26) : Char := toChar (d + base.toNat)

/-- The first letters of the two alphabets. -/
def IsBase (base : Char) : Prop := base = 'a' ∨ base = 'A'

theorem IsBase.toNat_le {base : Char} (h : IsBase base) : base.toNat ≤ 97 := by
  rcases h with rfl | rfl
  · decide
  · decide

/-- **The digits are the letters of a word**, the last one first. -/
theorem digits_eq {base : Char} (hbase : IsBase base) (n j turns : Nat) (s : Str) (hn : n < 26 ^ (j + 1))
    (hturns : j < turns) :
    ∃ (m : Nat) (t : Str) (w : List (Fin 26)), digits 26 base turns n s = .ok ((m : Int), t) ∧ m < 26 ∧
      (t ++ [toChar (m + base.toNat)]).reverse = w.map (letter base) ++ s.reverse ∧ w.length ≤ j + 1 ∧
      value w = n := by
  induction j generalizing n s turns with
  | zero =>
    obtain ⟨turns, rfl⟩ : ∃ k, turns = k + 1 := ⟨turns - 1, by omega⟩
    rw [digits, if_neg (by simpa using hn)]
    refine ⟨n, s, [⟨n, by simpa using hn⟩], rfl, by simpa using hn, ?_, Nat.le_refl 1, ?_⟩
    · simp [letter]
    · simp [value]
  | succ j ih =>
    obtain ⟨turns, rfl⟩ : ∃ k, turns = k + 1 := ⟨turns - 1, by omega⟩
    rw [digits]
    split
    · have hdiv : n / 26 < 26 ^ (j + 1) := by
        rw [Nat.div_lt_iff_lt_mul (by decide), ← pow_succ]
        exact hn
      have hmod : n % 26 < 26 := Nat.mod_lt n (by decide)
      obtain ⟨m, t, w, hdigits, hm, hrev, hlen, hvalue⟩ :=
        ih (n / 26) turns (s ++ [letter base ⟨n % 26, hmod⟩]) hdiv (by omega)
      refine ⟨m, t, w ++ [⟨n % 26, hmod⟩], ?_, hm, ?_, ?_, ?_⟩
      · have hnumber : number (((n : Int).tmod 26) + base.toNat) = .ok ((n % 26 : Nat) + base.toNat) := by
          rw [Int.tmod_eq_emod_of_nonneg (Int.natCast_nonneg n)]
          refine number_of_le (Int.natCast_nonneg (n % 26 + base.toNat)) ?_
          have hsmall := hbase.toNat_le
          unfold int64Max
          omega
        rw [hnumber]
        have hquot : (n : Int).tdiv 26 = ((n / 26 : Nat) : Int) :=
          Int.tdiv_eq_ediv_of_nonneg (Int.natCast_nonneg n)
        rw [hquot]
        exact hdigits
      · rw [hrev]
        simp
      · simp only [List.length_append, List.length_singleton]
        omega
      · rw [value_concat, hvalue]
        exact Nat.div_add_mod' n 26
    · rename_i hlt
      have hlt' : n < 26 := by
        have hless := not_le.mp hlt
        exact_mod_cast hless
      refine ⟨n, s, [⟨n, hlt'⟩], rfl, hlt', ?_, ?_, ?_⟩
      · simp [letter]
      · simp
      · simp [value]

/-! ## The strings -/

/-- The first letter is the digit 0. -/
theorem letter_zero {base : Char} (hbase : IsBase base) : letter base 0 = base := by
  rcases hbase with rfl | rfl
  · rfl
  · rfl

theorem value_replicate (k : Nat) (w : List (Fin 26)) : value (List.replicate k 0 ++ w) = value w := by
  have hzero : value (List.replicate k (0 : Fin 26)) = 0 := by
    induction k with
    | zero => rfl
    | succ k ih =>
      rw [List.replicate_succ', value_concat, ih]
      rfl
  rw [value_append, hzero, Nat.zero_mul, Nat.zero_add]

/-- **The word of a number** stands behind as many words as the number says, the empty one aside. -/
theorem create_latin_replacements_word {base : Char} (hbase : IsBase base) {n : Nat} (hn : n < count) :
    ∃ w : List (Fin 26), create_latin_replacements n base = .ok (w.map (letter base)) ∧
      rank w = n + 1 := by
  have hcount := count_add_one
  have hone : shorter 26 1 = 1 := rfl
  obtain ⟨m, c, hblocks, hc, hc', hm, hsum⟩ := blocks_eq n 1 64 (Nat.le_refl 1) (by decide)
    (by decide) (by omega)
  obtain ⟨c, rfl⟩ : ∃ k, c = k + 1 := ⟨c - 1, by omega⟩
  obtain ⟨d, t, w, hdigits, hd, hrev, hlen, hvalue⟩ := digits_eq hbase m c 64 [] hm (by omega)
  have hletter : number ((d : Int) + base.toNat) = .ok ((d : Int) + base.toNat) := by
    refine number_of_le (Int.natCast_nonneg (d + base.toNat)) ?_
    have hsmall := hbase.toNat_le
    unfold int64Max
    omega
  rw [List.reverse_nil, List.append_nil] at hrev
  -- the word gets its length by letters of the digit 0
  refine ⟨List.replicate (c + 1 - w.length) 0 ++ w, ?_, ?_⟩
  · have hblocks' : blocks 26 64 (n : Int) 26 1 = .ok ((m : Int), c + 1) := hblocks
    have hbind : create_latin_replacements n base = .ok
        (if (w.map (letter base)).length < c + 1 then
          List.replicate (c + 1 - (w.map (letter base)).length) base ++ w.map (letter base)
        else w.map (letter base)) := by
      simp only [create_latin_replacements, hblocks', hdigits, hletter, hrev, bind, Except.bind]
    rw [hbind, List.map_append, List.map_replicate, letter_zero hbase, List.length_map]
    split
    · rfl
    · rename_i hge
      rw [Nat.sub_eq_zero_of_le (not_lt.mp hge)]
      rfl
  · rw [rank_eq_value, value_replicate, hvalue, List.length_append, List.length_replicate,
      Nat.sub_add_cancel hlen]
    omega

/-- Two letters are in the order of their digits. -/
theorem letter_strictMono {base : Char} (hbase : IsBase base) : StrictMono (letter base) := by
  rcases hbase with rfl | rfl
  · decide
  · decide

/-- A non-empty string of letters of the alphabet that begins with `base`. -/
def IsWord (base : Char) (s : Str) : Prop :=
  s ≠ [] ∧ ∀ c ∈ s, base.toNat ≤ c.toNat ∧ c.toNat < base.toNat + 26

theorem mem_range_letter {base c : Char} (hbase : IsBase base) :
    c ∈ Set.range (letter base) ↔ base.toNat ≤ c.toNat ∧ c.toNat < base.toNat + 26 := by
  have hletter : ∀ d : Fin 26, (letter base d).toNat = base.toNat + d := by
    rcases hbase with rfl | rfl
    · decide
    · decide
  constructor
  · rintro ⟨d, rfl⟩
    rw [hletter d]
    omega
  · rintro ⟨hge, hlt⟩
    refine ⟨⟨c.toNat - base.toNat, by omega⟩, ?_⟩
    apply Char.toNat_inj.mp
    rw [hletter]
    show base.toNat + (c.toNat - base.toNat) = c.toNat
    omega

/-- **Letters for a number.** The string of `n` has `n` strings of letters in front of it, the shorter
ones first and those of one length in alphabetical order, and nothing overflows. It is the string of
no other number. -/
theorem create_latin_replacements_shortlex {base : Char} (hbase : base = 'a' ∨ base = 'A') {n : Int}
    (h0 : 0 ≤ n) (hn : n < ∑ i ∈ Finset.range 13, 26 ^ (i + 1)) :
    ∃ s, create_latin_replacements n base = .ok s ∧ IsWord base s ∧
      Set.ncard {t | IsWord base t ∧ List.Shortlex (· < ·) t s} = n ∧
      ∀ m : Int, 0 ≤ m → m < ∑ i ∈ Finset.range 13, 26 ^ (i + 1) →
        create_latin_replacements m base = .ok s → m = n := by
  have hword : ∀ {t : Str}, IsWord base t ↔ t ≠ [] ∧ ∀ c ∈ t, c ∈ Set.range (letter base) := by
    intro t
    simp only [IsWord, mem_range_letter hbase]
  obtain ⟨n, rfl⟩ := Int.eq_ofNat_of_zero_le h0
  obtain ⟨w, hw, hrank⟩ := create_latin_replacements_word hbase (n := n) (by exact_mod_cast hn)
  refine ⟨w.map (letter base), hw, ?_, ?_, ?_⟩
  · refine hword.mpr ⟨?_, fun c hc => ?_⟩
    · intro hnil
      obtain rfl := List.map_eq_nil_iff.mp hnil
      cases hrank
    · obtain ⟨d, -, rfl⟩ := List.mem_map.mp hc
      exact ⟨d, rfl⟩
  · have hcard := ncard_shortlex_map (by decide) (letter_strictMono hbase) w
    simp only [hword, hcard, hrank, Nat.add_sub_cancel]
  · intro m hm0 hm hmw
    obtain ⟨m, rfl⟩ := Int.eq_ofNat_of_zero_le hm0
    obtain ⟨v, hv, hrank'⟩ := create_latin_replacements_word hbase (n := m) (by exact_mod_cast hm)
    have heq : v.map (letter base) = w.map (letter base) := Except.ok.inj (hv.symm.trans hmw)
    have hvw : v = w := List.map_injective_iff.mpr (letter_strictMono hbase).injective heq
    subst hvw
    omega

/-- The number 700 in small letters. -/
theorem create_latin_replacements_700 :
    ∃ s, create_latin_replacements 700 'a' = .ok s ∧ IsWord 'a' s ∧
      Set.ncard {t | IsWord 'a' t ∧ List.Shortlex (· < ·) t s} = (700 : Int) ∧
      ∀ m : Int, 0 ≤ m → m < ∑ i ∈ Finset.range 13, 26 ^ (i + 1) →
        create_latin_replacements m 'a' = .ok s → m = 700 :=
  create_latin_replacements_shortlex (.inl rfl) (by decide) (by decide)

-- from `Z` on there are two letters, and from `ZZ` on three
example : create_latin_replacements 25 'A' = .ok ['Z'] ∧ create_latin_replacements 26 'A' = .ok ['A', 'A'] ∧
    create_latin_replacements (26 * 26 + 26 - 1) 'A' = .ok ['Z', 'Z'] ∧
    create_latin_replacements (26 * 26 + 26) 'A' = .ok ['A', 'A', 'A'] := by decide

end Primitives.Versions.Latin
