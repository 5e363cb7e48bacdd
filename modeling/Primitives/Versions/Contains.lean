import Primitives.Versions.Pattern

/-!
# Ranges in ranges

A range contains another one if their intersection has the pairs of the other one. Where the pairs of both
are apart, so are those of the intersection, and each of the other range has to be covered by one pair
(`containsRange_iff_covers`). Their ends are compared as `operator&` compares them.
-/

set_option autoImplicit false

namespace Primitives.Versions

open Lib VersionRange

/-- `contains(const VersionRange &)`. -/
def VersionRange.containsRange (r s : VersionRange) : Bool := (r.and s).eq s

namespace RangePair

variable {p p' q q' m m' : RangePair}

/-- The cut below the version at which the pair ends. -/
def last (p : RangePair) : Cut := p.second.v.cut

theorem last_le_right (p : RangePair) : p.last ≤ p.right := by
  rw [last, Version.cut, right, Side.right, Prod.Lex.toLex_le_toLex]
  exact .inr ⟨rfl, bot_le⟩

theorem le_last_of_lt {x : Cut} (h : x < p.right) : x ≤ p.last := by
  refine (lt_upper_iff x p.second.v.key).mp (h.trans_le ?_)
  rw [right, Side.right, Prod.Lex.toLex_le_toLex]
  exact .inr ⟨rfl, le_top⟩

theorem last_le_last (h : p.second.left ≤ q.second.left) : p.last ≤ q.last := by
  rw [last, last, Version.cut, Version.cut, Prod.Lex.toLex_le_toLex]
  exact (Side.key_le_of_left_le h).lt_or_eq.imp_right fun heq => ⟨heq, le_rfl⟩

/-! ## Two pairs -/

theorem sides_of_and (h : p.and q = some m) :
    m.first = stdMax Side.lt p.first q.first ∧ m.second = stdMin Side.lt p.second q.second := by
  unfold RangePair.and at h
  simp only at h
  split at h
  · cases h
    exact ⟨rfl, rfl⟩
  · cases h

theorem left_of_and (h : p.and q = some m) : m.left = max p.left q.left := by
  rw [left, (sides_of_and h).1]
  exact Side.left_stdMax _ _

theorem second_left_of_and (h : p.and q = some m) : m.second.left = min p.second.left q.second.left := by
  rw [(sides_of_and h).2]
  exact Side.left_stdMin _ _

/-- A pair that meets another one begins before the version at which the other one ends. -/
theorem left_le_last (h : p.and q = some m) : p.left ≤ q.last ∧ q.left ≤ p.last := by
  have hlast := le_last_of_lt m.left_lt_right
  rw [left_of_and h, max_le_iff] at hlast
  have hsecond := second_left_of_and h
  have hp : m.last ≤ p.last := last_le_last (hsecond.trans_le (min_le_left _ _))
  have hq : m.last ≤ q.last := last_le_last (hsecond.trans_le (min_le_right _ _))
  exact ⟨hlast.1.trans hq, hlast.2.trans hp⟩

/-- The end of the pair that two pairs have in common. -/
theorem right_of_and (h : p.and q = some m) :
    m.right = p.right ∧ p.last ≤ q.last ∨ m.right = q.right ∧ q.last ≤ p.last := by
  have hleft := second_left_of_and h
  rcases and_second h with hsecond | hsecond
  · refine .inl ⟨congrArg Side.right hsecond, last_le_last ?_⟩
    rw [← hsecond, hleft]
    exact min_le_right _ _
  · refine .inr ⟨congrArg Side.right hsecond, last_le_last ?_⟩
    rw [← hsecond, hleft]
    exact min_le_left _ _

/-- What a pair has in common with two others. -/
theorem right_lt_left_of_and (hq : q.right < q'.left) (h : p.and q = some m) (h' : p.and q' = some m') :
    m.right < m'.left := by
  rw [left_of_and h']
  refine lt_max_of_lt_right ?_
  rcases right_of_and h with ⟨-, hlast⟩ | ⟨hright, -⟩
  · exact absurd ((left_le_last h').2.trans (hlast.trans q.last_le_right)) hq.not_ge
  · exact hright.trans_lt hq

theorem right_lt_left_of_and_of_and (hp : p.right < p'.left)
    (hq : q = q' ∨ q.right < q'.left ∨ q'.right < q.left) (h : p.and q = some m)
    (h' : p'.and q' = some m') : m.right < m'.left := by
  rw [left_of_and h']
  rcases right_of_and h with ⟨hright, -⟩ | ⟨hright, hlast⟩
  · exact lt_max_of_lt_left (hright.trans_lt hp)
  · have hlast' := (left_le_last h').1
    rcases hq with rfl | hq | hq
    · exact absurd (hlast'.trans (hlast.trans p.last_le_right)) hp.not_ge
    · exact lt_max_of_lt_right (hright.trans_lt hq)
    · -- then each of `p` and `q'` would end before the other one begins
      have hp' : p'.left < q.left := (hlast'.trans q'.last_le_right).trans_lt hq
      exact absurd (hp'.le.trans ((left_le_last h).2.trans p.last_le_right)) hp.not_ge

end RangePair

/-! ## The intersection -/

/-- Pairs that are apart are one pair, or one is behind the other. -/
theorem VersionRange.Apart.trichotomy {l : List RangePair} (h : Apart l) {p q : RangePair} (hp : p ∈ l)
    (hq : q ∈ l) : p = q ∨ p.right < q.left ∨ q.right < p.left :=
  List.Pairwise.forall_of_forall_of_flip
    (R := fun p q => p = q ∨ p.right < q.left ∨ q.right < p.left) (fun _ _ => .inl rfl)
    (h.imp fun hpq => .inr (.inl hpq)) (h.imp fun hpq => .inr (.inr hpq)) hp hq

/-- **An intersection of pairs that are apart** has pairs that are apart. -/
theorem meets_apart {a b : VersionRange} (ha : Apart a.range) (hb : Apart b.range) :
    Apart (meets a b) := by
  rw [Apart, meets, List.pairwise_flatMap]
  constructor
  · intro p hp
    rw [List.pairwise_filterMap]
    exact hb.imp fun hq m hm m' hm' => RangePair.right_lt_left_of_and hq hm hm'
  · refine ha.imp fun hp m hm m' hm' => ?_
    obtain ⟨q, hq, hm⟩ := List.mem_filterMap.mp hm
    obtain ⟨q', hq', hm'⟩ := List.mem_filterMap.mp hm'
    exact RangePair.right_lt_left_of_and_of_and hp (hb.trichotomy hq hq') hm hm'

theorem and_eq_meets {a b : VersionRange} (ha : Apart a.range) (hb : Apart b.range) :
    a.and b = ⟨meets a b⟩ :=
  foldl_orPair_apart (l := []) (meets_apart ha hb)

/-! ## What is contained -/

/-- The pair begins where the other one does or before it, and ends as `operator&` compares ends. -/
def RangePair.Covers (p q : RangePair) : Prop := p.left ≤ q.left ∧ q.second.left ≤ p.second.left

/-- The sides of a pair, as `operator==` compares them. -/
def RangePair.sides (p : RangePair) : Cut × Cut := (p.left, p.second.left)

theorem eqPairs_iff_sides {l m : List RangePair} :
    eqPairs l m = true ↔ l.map RangePair.sides = m.map RangePair.sides := by
  have heq : ∀ p q : RangePair, p.eq q = true ↔ p.sides = q.sides := by
    intro p q
    rw [RangePair.eq_iff, RangePair.sides, RangePair.sides, Prod.mk.injEq]
    rfl
  rw [eqPairs_iff, ← List.forall₂_eq_eq_eq, List.forall₂_map_left_iff, List.forall₂_map_right_iff]
  simp only [heq]

/-- A pair that covers another one has all of it. -/
theorem RangePair.Covers.and {p q : RangePair} (h : p.Covers q) :
    ∃ m, p.and q = some m ∧ m.sides = q.sides := by
  have hleft : (stdMax Side.lt p.first q.first).left = q.left :=
    (Side.left_stdMax _ _).trans (max_eq_right h.1)
  have hsecond : (stdMin Side.lt p.second q.second).left = q.second.left :=
    (Side.left_stdMin _ _).trans (min_eq_right h.2)
  have hlt : (stdMax Side.lt p.first q.first).left < (stdMin Side.lt p.second q.second).right := by
    rw [hleft, Side.right_congr hsecond]
    exact q.left_lt_right
  rw [Side.left_lt_right_iff] at hlt
  refine ⟨_, dif_pos hlt, Prod.ext hleft hsecond⟩

/-- What a pair of the list covers meets no other one of them. -/
theorem RangePair.Covers.eq_of_and {l : List RangePair} (hl : Apart l) {p₀ p q m : RangePair} (hp₀ : p₀ ∈ l)
    (hp : p ∈ l) (h : p₀.Covers q) (hm : p.and q = some m) : p = p₀ := by
  obtain ⟨hle, hle'⟩ := RangePair.left_le_last hm
  rcases hl.trichotomy hp hp₀ with heq | hlt | hlt
  · exact heq
  · exact absurd (h.1.trans (hle'.trans p.last_le_right)) hlt.not_ge
  · exact absurd (hle.trans ((RangePair.last_le_last h.2).trans p₀.last_le_right)) hlt.not_ge

theorem sides_sorted {l : List RangePair} (h : Apart l) :
    (l.map RangePair.sides).Pairwise fun x y => x.1 < y.1 := by
  rw [List.pairwise_map]
  exact h.imp fun {p q} hpq => p.left_lt_right.trans hpq

theorem sides_eq_of_mem {l m : List (Cut × Cut)} (hl : l.Pairwise fun x y => x.1 < y.1)
    (hm : m.Pairwise fun x y => x.1 < y.1) (h : ∀ x, x ∈ l ↔ x ∈ m) : l = m := by
  have hnodup : ∀ {l : List (Cut × Cut)}, l.Pairwise (fun x y => x.1 < y.1) → l.Nodup :=
    fun h => h.imp fun hlt heq => hlt.ne (congrArg Prod.fst heq)
  have hperm := (List.perm_ext_iff_of_nodup (hnodup hl) (hnodup hm)).mpr h
  exact hperm.eq_of_pairwise (fun _ _ _ _ hlt hlt' => absurd hlt hlt'.not_gt) hl hm

/-- **A range contains another one** if and only if its pairs cover the pairs of the other one. -/
theorem containsRange_iff_covers {a b : VersionRange} (ha : Apart a.range) (hb : Apart b.range) :
    a.containsRange b = true ↔ ∀ q ∈ b.range, ∃ p ∈ a.range, p.Covers q := by
  rw [containsRange, and_eq_meets ha hb]
  show eqPairs (meets a b) b.range = true ↔ _
  have hmem : ∀ {m}, m ∈ meets a b ↔ ∃ p ∈ a.range, ∃ q ∈ b.range, p.and q = some m := by
    intro m
    simp only [meets, List.mem_flatMap, List.mem_filterMap]
  rw [eqPairs_iff_sides]
  constructor
  · intro heq q hq
    have hsides : q.sides ∈ (meets a b).map RangePair.sides := by
      rw [heq]
      exact List.mem_map_of_mem hq
    obtain ⟨m, hm, hsides⟩ := List.mem_map.mp hsides
    obtain ⟨p, hp, q', -, hand⟩ := hmem.mp hm
    obtain ⟨hleft, hsecond⟩ := Prod.mk.inj hsides
    rw [RangePair.left_of_and hand] at hleft
    rw [RangePair.second_left_of_and hand] at hsecond
    exact ⟨p, hp, hleft ▸ le_max_left _ _, hsecond ▸ min_le_left _ _⟩
  · intro h
    refine sides_eq_of_mem (sides_sorted (meets_apart ha hb)) (sides_sorted hb) fun x => ?_
    constructor
    · intro hx
      obtain ⟨m, hm, rfl⟩ := List.mem_map.mp hx
      obtain ⟨p, hp, q, hq, hand⟩ := hmem.mp hm
      obtain ⟨p₀, hp₀, hcovers⟩ := h q hq
      -- no other pair of `a` has anything in common with `q`
      obtain rfl := RangePair.Covers.eq_of_and ha hp₀ hp hcovers hand
      obtain ⟨m', hm', hsides⟩ := hcovers.and
      cases hm'.symm.trans hand
      rw [hsides]
      exact List.mem_map_of_mem hq
    · intro hx
      obtain ⟨q, hq, rfl⟩ := List.mem_map.mp hx
      obtain ⟨p, hp, hcovers⟩ := h q hq
      obtain ⟨m, hm, hsides⟩ := hcovers.and
      rw [← hsides]
      exact List.mem_map_of_mem (hmem.mpr ⟨p, hp, q, hq, hm⟩)

/-! ## All versions -/

theorem sequence_nonneg {ns : List Int} (h : ∀ n ∈ ns, 0 ≤ n) : sequence (0 : Int) [0] ≤ sequence 0 ns :=
  (sequence_append_replicate 0 [] 1).trans_le (sequence_firsts_le (n := 0) h)

theorem min_le_of_sequence_lt {v : Version} (h : sequence (0 : Int) [0] < sequence 0 v.numbers) :
    Version.min.le v = true := by
  rw [Version.le_iff, Version.key, Version.key, Prod.Lex.toLex_le_toLex]
  exact .inl h

/-- No version of a text is below `min()`. -/
theorem kept_min_le : Version.Kept fun v => v.Clean ∧ Version.min.le v = true where
  min := ⟨clean_min, rfl⟩
  max := ⟨clean_max, rfl⟩
  numbers {v ns} hv h := by
    refine ⟨kept_clean.numbers hv.1 h, (Version.le_iff_sequence rfl).mpr ?_⟩
    exact sequence_nonneg fun n hn => (hv.1.numbers n (h.subset hn)).1
  increment {v w} hv h := by
    have hclean := incrementVersion_clean h hv.1
    refine ⟨hclean, ?_⟩
    cases hmax : v.eq .max with
    | true =>
      rw [Version.incrementVersion, if_pos hmax] at h
      cases h
      exact hv.2
    | false =>
      -- the component that was counted up is not 0
      obtain ⟨m, hm, rfl⟩ := (incrementVersion_eq hmax).mp h
      obtain ⟨k, n, rest, hl, rfl⟩ := carry_ok hm
      have hn : n ∈ v.numbers := by
        rw [← List.mem_reverse, hl]
        exact List.mem_append_right _ List.mem_cons_self
      have hpos := (hv.1.numbers n hn).1
      have hgt : (⟨(List.replicate k 0 ++ (n + 1) :: rest).reverse, []⟩ : Version).gt .min = true := by
        refine (gt_zero_iff fun x hx => (hclean.numbers x hx).1).mpr ⟨n + 1, ?_, by omega⟩
        exact List.mem_reverse.mpr (List.mem_append_right _ List.mem_cons_self)
      rw [Version.gt_iff, ← Version.lt_iff, Version.lt_iff_sequence rfl rfl] at hgt
      exact min_le_of_sequence_lt hgt

theorem min_le_whole {t : VersionText} (ht : t.whole.Clean) (hfails : t.fails = false) :
    Version.min.le t.whole = true := by
  have hle := sequence_nonneg fun n hn => (ht.numbers n hn).1
  rw [VersionText.fails, Bool.and_eq_false_iff] at hfails
  rcases hfails with hextra | hne
  · refine (Version.le_iff_sequence ?_).mpr hle
    rw [Bool.not_eq_false', List.isEmpty_iff] at hextra
    exact hextra
  · refine min_le_of_sequence_lt (hle.lt_of_ne fun heq => ?_)
    refine absurd ?_ (Bool.eq_false_iff.mp hne)
    rw [Version.eq_iff]
    exact congrArg (fun seq => toLex (seq, _)) heq.symm

/-- **`*` contains a range** with its pairs in order if and only if none of them begins at version 0 itself
or ends above `max()`. -/
theorem star_contains (o : Outside) (h : o.Generated) (s : Str) (b : VersionRange)
    (hb : construct o s = .ok b) (hapart : Apart b.range) :
    ∃ a, construct o ['*'] = .ok a ∧ (a.containsRange b = true ↔
      ∀ q ∈ b.range, ¬ (q.first.v.eq .min = true ∧ q.first.strong = false) ∧
        q.second.v.le .max = true) := by
  refine ⟨_, construct_star h, ?_⟩
  rw [containsRange_iff_covers (List.pairwise_singleton _ _) hapart]
  refine forall₂_congr fun q hq => ?_
  have hmin : Version.min.le q.first.v = true :=
    ((forall_of_construct h kept_min_le (fun _ ht hfails => ⟨ht, min_le_whole ht hfails⟩) hb) q hq).1.2
  -- the left side of `*` leaves out version 0 and nothing else
  have hleft : (⟨.min, true⟩ : Side).left ≤ q.left ↔
      ¬ (q.first.v.eq .min = true ∧ q.first.strong = false) := by
    rw [RangePair.left, Side.left, Side.left, Prod.Lex.toLex_le_toLex, Version.eq_iff]
    rw [Version.le_iff] at hmin
    cases q.first.strong with
    | false => simp [hmin.lt_iff_ne, eq_comm]
    | true => simpa using hmin.lt_or_eq
  have hsecond : q.second.left ≤ (⟨.max, true⟩ : Side).left ↔ q.second.v.le .max = true := by
    have htrue : q.second.strong ≤ true := le_top
    rw [Side.left, Side.left, Prod.Lex.toLex_le_toLex, Version.le_iff, and_iff_left htrue]
    exact le_iff_lt_or_eq.symm
  rw [← hleft, ← hsecond]
  constructor
  · rintro ⟨p, hp, hcovers⟩
    cases List.mem_singleton.mp hp
    exact hcovers
  · intro hcovers
    exact ⟨_, List.mem_singleton.mpr rfl, hcovers⟩

theorem star_contains_zeroTwo : ∃ a b, construct derivation ['*'] = .ok a ∧
    construct derivation "0.2.x".toList = .ok b ∧ a.containsRange b = true := by
  obtain ⟨ts, hts, hreads⟩ := zeroTwo.reads
  have hb : construct derivation "0.2.x".toList = .ok _ :=
    (construct_text_iff generated_derivation zeroTwo.solid (.version hts) hreads
      (List.forall_mem_singleton.mpr rfl)).mpr ⟨by decide, rfl⟩
  obtain ⟨a, ha, hcontains⟩ :=
    star_contains derivation generated_derivation _ _ hb (List.pairwise_singleton _ _)
  exact ⟨a, _, ha, hb, hcontains.mpr (List.forall_mem_singleton.mpr (by decide))⟩

/-- `0` -/
def onlyZero : Pattern :=
  ⟨[.zero], List.cons_ne_nil _ _⟩

/-- `>=0` begins at version 0, which is not in `*`. -/
theorem star_contains_ge_zero : ∃ o : Outside, o.Generated ∧ ∃ a b, construct o ['*'] = .ok a ∧
    construct o ">=0".toList = .ok b ∧ Apart b.range ∧ a.containsRange b = false := by
  obtain ⟨ts, hrange, hreads⟩ := onlyZero.reads_symbol reads_ge rfl
  have hsolid : Solid ">=0".toList := ⟨⟨_, _, rfl, rfl⟩, ⟨_, _, rfl, rfl⟩⟩
  refine ⟨derivation, generated_derivation, _, _, construct_star generated_derivation,
    (construct_text_iff generated_derivation hsolid hrange hreads
      (List.forall_mem_singleton.mpr rfl)).mpr ⟨by decide, rfl⟩, List.pairwise_singleton _ _, by decide⟩

end Primitives.Versions
