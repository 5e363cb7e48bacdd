import Primitives.Lib.Cover
import Primitives.Versions.Contains

/-!
# What a range in a range means

Between two versions of texts there is another one. So all versions of a range are in another range only
if each of its pairs is inside a pair of the other one, and `contains` tells that where the ends of these
pairs are not alike in version only (`containsRange_iff_subset`).
-/

set_option autoImplicit false

namespace Primitives.Versions

open Lib VersionRange

/-! ## Between two versions -/

/-- There is a value below one of a text. -/
theorem exists_lt_value {x : Value} (h : x.Clean) : (Value.string []).key < x.key := by
  cases x with
  | string s =>
    obtain ⟨c, t, rfl⟩ := List.exists_cons_of_ne_nil h.1.ne_nil
    exact Sum.Lex.inl_lt_inl_iff.mpr (List.nil_lt_cons c t)
  | number n => exact Sum.Lex.inl_lt_inr _ _

theorem exists_value (k : Lex (Str ⊕ Int)) : ∃ x : Value, x.key = k := by
  cases hk : ofLex k with
  | inl s => exact ⟨.string s, congrArg toLex hk.symm⟩
  | inr n => exact ⟨.number n, congrArg toLex hk.symm⟩

theorem exists_between_extra {e e' : Extra} (he' : ∀ x ∈ e', x.Clean) (h : e.key < e'.key) :
    ∃ f : Extra, e.key < f.key ∧ f.key < e'.key := by
  -- a version without an extra part is above those that have one
  by_cases hnil : e = []
  · rw [hnil] at h
    exact absurd h not_top_lt
  · have hkey : ∀ x, Extra.key (e ++ [x]) = ((e.map Value.key ++ [x.key] : List _) : WithTop _) := by
      intro x
      rw [Extra.key, if_neg (List.append_ne_nil_of_left_ne_nil hnil _), List.map_append]
      rfl
    have hlt : ∀ x, e.key < Extra.key (e ++ [x]) := by
      intro x
      rw [hkey, Extra.key, if_neg hnil, WithTop.coe_lt_coe]
      exact lt_concat _ _
    by_cases hnil' : e' = []
    · refine ⟨e ++ [.string []], hlt _, ?_⟩
      rw [hkey, hnil']
      exact WithTop.coe_lt_top _
    · rw [Extra.key, Extra.key, if_neg hnil, if_neg hnil', WithTop.coe_lt_coe] at h
      have hbelow : ∀ k ∈ e'.map Value.key, ∃ k', k' < k := by
        intro k hk
        obtain ⟨x, hx, rfl⟩ := List.mem_map.mp hk
        exact ⟨_, exists_lt_value (he' x hx)⟩
      obtain ⟨k, -, hk⟩ := exists_between_concat h hbelow
      obtain ⟨x, rfl⟩ := exists_value k
      refine ⟨e ++ [x], hlt x, ?_⟩
      rw [hkey, Extra.key, if_neg hnil', WithTop.coe_lt_coe]
      exact hk

/-- **Between two versions** there is a third one. -/
theorem exists_between {u v : Version} (hu : u.Clean) (hv : v.Clean) (h : u.key < v.key) :
    ∃ w : Version, u.key < w.key ∧ w.key < v.key := by
  have hkey : ∀ {ns ms : List Int} {e f : Extra}, (⟨ns, e⟩ : Version).key < (⟨ms, f⟩ : Version).key ↔
      sequence 0 ns < sequence 0 ms ∨ sequence 0 ns = sequence 0 ms ∧ e.key < f.key :=
    Prod.Lex.toLex_lt_toLex
  rcases hkey.mp h with hnumbers | ⟨hnumbers, hextra⟩
  · obtain ⟨k, hlt, hlt'⟩ := sequence_between (c := 1) Int.zero_lt_one (fun n hn => (hu.numbers n hn).1) hnumbers
    exact ⟨⟨_, []⟩, hkey.mpr (.inl hlt), hkey.mpr (.inl hlt')⟩
  · obtain ⟨e, hlt, hlt'⟩ := exists_between_extra hv.extra hextra
    exact ⟨⟨u.numbers, e⟩, hkey.mpr (.inr ⟨rfl, hlt⟩), hkey.mpr (.inr ⟨hnumbers, hlt'⟩)⟩

/-! ## Cuts -/

/-- The cuts below and above the versions of texts. -/
def ends : Set Cut := {c | ∃ v : Version, v.Clean ∧ ∃ upper, c = toLex (v.key, upper)}

/-- Between two cuts there is a version. -/
theorem exists_cut_mem {c d : Cut} (hc : c ∈ ends) (hd : d ∈ ends) (h : c < d) :
    ∃ x ∈ Set.range Version.cut, x ∈ Set.Ico c d := by
  obtain ⟨u, hu, upper, rfl⟩ := hc
  obtain ⟨v, hv, upper', rfl⟩ := hd
  have hle : ∀ {k k' : Key} {b b' : Bool}, k < k' → (toLex (k, b) : Cut) < toLex (k', b') :=
    fun hlt => Prod.Lex.toLex_lt_toLex.mpr (.inl hlt)
  rcases Prod.Lex.toLex_lt_toLex.mp h with hlt | ⟨heq, hlt⟩
  · obtain ⟨w, huw, hwv⟩ := exists_between hu hv hlt
    exact ⟨w.cut, ⟨w, rfl⟩, (hle huw).le, hle hwv⟩
  · -- the two cuts of one version
    obtain ⟨rfl, rfl⟩ := Bool.lt_iff.mp hlt
    exact ⟨u.cut, ⟨u, rfl⟩, le_rfl, h⟩

/-- The versions at the sides are those of texts. -/
def CleanSides (r : VersionRange) : Prop := ∀ p ∈ r.range, p.Both fun s => s.v.Clean

theorem CleanSides.ends {r : VersionRange} (h : CleanSides r) :
    ∀ p ∈ r.range, p.left ∈ ends ∧ p.right ∈ ends :=
  fun p hp => ⟨⟨_, (h p hp).1, _, rfl⟩, ⟨_, (h p hp).2, _, rfl⟩⟩

/-- **All versions of a range are in another one** if and only if each of its pairs is inside one of the
other. -/
theorem forall_contains_iff {a b : VersionRange} (hapart : Apart a.range) (ha : CleanSides a)
    (hb : CleanSides b) : (∀ v, b.contains v = true → a.contains v = true) ↔
      ∀ q ∈ b.range, ∃ p ∈ a.range, p.left ≤ q.left ∧ q.right ≤ p.right := by
  have hcontains : ∀ (r : VersionRange) (v : Version), r.contains v = true ↔
      ∃ p ∈ r.range, v.cut ∈ Set.Ico p.left p.right := by
    intro r v
    simp only [VersionRange.contains, List.any_eq_true, RangePair.contains_iff]
  simp only [hcontains]
  constructor
  · intro h q hq
    refine exists_of_covered (fun c hc d hd => exists_cut_mem hc hd) hapart
      (fun p _ => p.left_lt_right) ha.ends (hb.ends q hq).1 (hb.ends q hq).2 q.left_lt_right ?_
    rintro x ⟨v, rfl⟩ hv
    exact h v ⟨q, hq, hv⟩
  · rintro h v ⟨q, hq, hv⟩
    obtain ⟨p, hp, hleft, hright⟩ := h q hq
    exact ⟨p, hp, hleft.trans hv.1, hv.2.trans_le hright⟩

/-! ## Ends -/

namespace RangePair

variable {p q : RangePair}

/-- The pair begins where the other one does or before it, and does not end at a version below. -/
def Spans (p q : RangePair) : Prop := p.left ≤ q.left ∧ q.second.v.le p.second.v = true

/-- The pairs end at one version, and only the one with this relation. -/
def EndsOtherwise (strong : Bool) (p q : RangePair) : Prop :=
  q.second.v.eq p.second.v = true ∧ q.second.strong = strong ∧ p.second.strong = !strong

/-- Cuts of one version are in their order unless the upper one is first. -/
theorem cut_le_cut_iff {k k' : Key} {b b' : Bool} : (toLex (k, b) : Cut) ≤ toLex (k', b') ↔
    k ≤ k' ∧ ¬ (k = k' ∧ b = true ∧ b' = false) := by
  have hbool : b ≤ b' ↔ ¬ (b = true ∧ b' = false) := by cases b <;> cases b' <;> simp
  rw [Prod.Lex.toLex_le_toLex, hbool]
  constructor
  · rintro (hlt | ⟨heq, hno⟩)
    · exact ⟨hlt.le, fun h => hlt.ne h.1⟩
    · exact ⟨heq.le, fun h => hno h.2⟩
  · rintro ⟨hle, hno⟩
    exact hle.lt_or_eq.imp_right fun heq => ⟨heq, fun h => hno ⟨heq, h⟩⟩

theorem covers_iff : p.Covers q ↔ p.Spans q ∧ ¬ EndsOtherwise true p q := by
  rw [Covers, Spans, EndsOtherwise, and_assoc, Version.le_iff, Version.eq_iff]
  exact and_congr_right fun _ => cut_le_cut_iff

theorem inside_iff : p.left ≤ q.left ∧ q.right ≤ p.right ↔ p.Spans q ∧ ¬ EndsOtherwise false p q := by
  rw [Spans, EndsOtherwise, and_assoc, Version.le_iff, Version.eq_iff, right, right, Side.right, Side.right,
    cut_le_cut_iff, Bool.not_eq_true', Bool.not_eq_false']
  rfl

/-- Only one pair of a list spans another pair. -/
theorem Spans.unique {l : List RangePair} (hl : Apart l) {p p' : RangePair} (hp : p ∈ l) (hp' : p' ∈ l)
    (h : p.Spans q) (h' : p'.Spans q) : p = p' := by
  have hno : ∀ {p p' : RangePair}, p.Spans q → p'.Spans q → ¬ p.right < p'.left := by
    intro p p' h h' hlt
    have hlast : q.last ≤ p.last := by
      rw [last, last, Version.cut, Version.cut, Prod.Lex.toLex_le_toLex]
      exact ((Version.le_iff _ _).mp h.2).lt_or_eq.imp_right fun heq => ⟨heq, le_rfl⟩
    have hle := h'.1.trans ((le_last_of_lt q.left_lt_right).trans (hlast.trans p.last_le_right))
    exact hlt.not_ge hle
  rcases hl.trichotomy hp hp' with heq | hlt | hlt
  · exact heq
  · exact absurd hlt (hno h h')
  · exact absurd hlt (hno h' h)

end RangePair

/-- A pair of the second range ends otherwise than the pair of the first one that spans it. -/
def SomeEnds (strong : Bool) (a b : VersionRange) : Prop :=
  ∃ q ∈ b.range, ∃ p ∈ a.range, p.Spans q ∧ p.EndsOtherwise strong q

/-- If all pairs of the second range are spanned by pairs of the first one, some end open where these are
closed just if some end closed where these are open. -/
def EndsAlike (a b : VersionRange) : Prop :=
  (∀ q ∈ b.range, ∃ p ∈ a.range, p.Spans q) → (SomeEnds true a b ↔ SomeEnds false a b)

/-- What holds of all pairs but for the ends. -/
theorem forall_exists_spans_iff {a b : VersionRange} (ha : Apart a.range)
    (h : ∀ q ∈ b.range, ∃ p ∈ a.range, p.Spans q) (strong : Bool) :
    (∀ q ∈ b.range, ∃ p ∈ a.range, p.Spans q ∧ ¬ p.EndsOtherwise strong q) ↔ ¬ SomeEnds strong a b := by
  constructor
  · rintro hall ⟨q, hq, p, hp, hspans, hends⟩
    obtain ⟨p', hp', hspans', hno⟩ := hall q hq
    exact hno (hspans.unique ha hp hp' hspans' ▸ hends)
  · intro hno q hq
    obtain ⟨p, hp, hspans⟩ := h q hq
    exact ⟨p, hp, hspans, fun hends => hno ⟨q, hq, p, hp, hspans, hends⟩⟩

/-! ## All ranges -/

/-- The ranges that parsing and the operators make. -/
inductive Built (o : Outside) : VersionRange → Prop
  | empty : Built o .empty
  | parse {s : Str} {r : VersionRange} (h : construct o s = .ok r) : Built o r
  | orPair {r : VersionRange} {p : RangePair} (hr : Built o r) (hp : p.Both fun s => s.v.Clean) :
    Built o (r.orPair p)
  | or {a b : VersionRange} (ha : Built o a) (hb : Built o b) : Built o (a.or b)
  | and {a b : VersionRange} (ha : Built o a) (hb : Built o b) : Built o (a.and b)

theorem Built.cleanSides {o : Outside} (h : o.Generated) {r : VersionRange} (hr : Built o r) :
    CleanSides r := by
  induction hr with
  | empty => exact List.forall_mem_nil _
  | parse hr => exact clean_of_construct h hr
  | orPair _ hp ih => exact addPair_both hp ih
  | or _ _ iha ihb => exact foldl_orPair_both ihb iha
  | and _ _ iha ihb => exact and_both iha ihb

/-- **`contains` tells** whether all versions of a range are in another one, of ranges whose pairs are in
order, if and only if their ends are alike. -/
theorem containsRange_iff_subset (o : Outside) (h : o.Generated) (a b : VersionRange) (ha : Built o a)
    (hb : Built o b) (haapart : Apart a.range) (hbapart : Apart b.range) :
    (a.containsRange b = true ↔ ∀ v, b.contains v = true → a.contains v = true) ↔ EndsAlike a b := by
  rw [containsRange_iff_covers haapart hbapart,
    forall_contains_iff haapart (ha.cleanSides h) (hb.cleanSides h)]
  simp only [RangePair.covers_iff, RangePair.inside_iff]
  by_cases hspans : ∀ q ∈ b.range, ∃ p ∈ a.range, p.Spans q
  · rw [forall_exists_spans_iff haapart hspans, forall_exists_spans_iff haapart hspans, not_iff_not,
      EndsAlike, forall_prop_of_true hspans]
  · -- a pair that is not spanned has versions outside, and `contains` finds it
    have hno : ∀ strong, ¬ ∀ q ∈ b.range, ∃ p ∈ a.range, p.Spans q ∧ ¬ p.EndsOtherwise strong q := by
      intro strong hall
      refine hspans fun q hq => ?_
      obtain ⟨p, hp, hp', -⟩ := hall q hq
      exact ⟨p, hp, hp'⟩
    exact iff_of_true (iff_of_false (hno true) (hno false)) fun h => absurd h hspans

/-- The versions up to 2. -/
def upToTwo (strong : Bool) : VersionRange := ⟨[pairOf ⟨.min, true⟩ ⟨⟨[2], []⟩, strong⟩ rfl]⟩

theorem construct_lt_two : construct derivation "<2".toList = .ok (upToTwo true) :=
  construct_of_file generated_derivation ⟨⟨_, _, rfl, rfl⟩, ⟨_, _, rfl, rfl⟩⟩
    (.one (.one (rangeTokens_numeral (c := .lt) rfl ['2'] (by decide)))) (reads_numeral reads_lt rfl)
    (by decide) rfl

theorem construct_le_two : construct derivation "<=2".toList = .ok (upToTwo false) :=
  construct_of_file generated_derivation ⟨⟨_, _, rfl, rfl⟩, ⟨_, _, rfl, rfl⟩⟩
    (.one (.one (rangeTokens_numeral (c := .le) rfl ['2'] (by decide))))
    (reads_numeral (reads_le.mono fun _ => trivial) rfl) (by decide) rfl

theorem containsRange_star_two : ∃ a b, construct derivation ['*'] = .ok a ∧
    construct derivation "<2".toList = .ok b ∧
      (a.containsRange b = true ↔ ∀ v, b.contains v = true → a.contains v = true) := by
  have hstar := construct_star generated_derivation
  refine ⟨_, _, hstar, construct_lt_two, (containsRange_iff_subset derivation generated_derivation _ _
    (.parse hstar) (.parse construct_lt_two) (List.pairwise_singleton _ _)
    (List.pairwise_singleton _ _)).mpr fun _ => ?_⟩
  have hno : ∀ strong, ¬ SomeEnds strong ⟨[pairOf ⟨.min, true⟩ ⟨.max, true⟩ (by decide)]⟩ (upToTwo true) := by
    rintro strong ⟨q, hq, p, hp, -, heq, -⟩
    cases List.mem_singleton.mp hq
    cases List.mem_singleton.mp hp
    cases heq
  exact iff_of_false (hno true) (hno false)

/-- `<=2` does not contain `<2`, and `<2` contains `<=2`. -/
theorem containsRange_two : ∃ o : Outside, o.Generated ∧ ∃ a b, construct o "<=2".toList = .ok a ∧
    construct o "<2".toList = .ok b ∧ Apart a.range ∧ Apart b.range ∧
    a.containsRange b = false ∧ (∀ v, b.contains v = true → a.contains v = true) ∧
    b.containsRange a = true ∧ a.contains ⟨[2], []⟩ = true ∧ b.contains ⟨[2], []⟩ = false := by
  refine ⟨derivation, generated_derivation, _, _, construct_le_two, construct_lt_two,
    List.pairwise_singleton _ _, List.pairwise_singleton _ _, by decide, fun v hv => ?_, by decide,
    by decide, by decide⟩
  rw [upToTwo, contains_single, RangePair.contains, Bool.and_eq_true] at hv ⊢
  exact ⟨hv.1, (Version.ge_iff _ _).mpr ((Version.gt_iff _ _).mp hv.2).le⟩

end Primitives.Versions
