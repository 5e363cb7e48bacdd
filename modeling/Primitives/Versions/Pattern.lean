import Primitives.Versions.Accept
import Primitives.Versions.Meaning
import Primitives.Versions.Parse

/-!
# Version patterns

A version pattern is numbers and wildcards with dots between them, and only its numbers are put into the
version. What a caret, a tilde, a hyphen or nothing makes of it is told from the components of the releases
that are contained (`caret_contains`, `pattern_contains`).
-/

set_option autoImplicit false

namespace Primitives.Versions

open Lib VersionRange

/-! ## Texts -/

/-- `number`, as it is written. -/
inductive Component where
  | number (digits : Str) (h : IsPart isDigit digits) (hmax : decimal digits ≤ int64Max)
  | x (upper : Bool)
  | star

def Component.text : Component → Str
  | number digits _ _ => digits
  | x upper => if upper then ['X'] else ['x']
  | star => ['*']

/-- What is put into the version. -/
def Component.value? : Component → Option Int
  | number digits _ _ => some (decimal digits)
  | x _ | star => none

def Component.toNumber : Component → Number
  | number digits _ hmax => .number (decimal digits) hmax
  | x _ | star => .any

/-- `basic_version`, as it is written. -/
structure Pattern where
  components : List Component
  ne_nil : components ≠ []

namespace Pattern

def text (p : Pattern) : Str := ['.'].intercalate (p.components.map Component.text)

/-- The numbers without the wildcards. -/
def numbers (p : Pattern) : List Int := p.components.filterMap Component.value?

/-- The version that the grammar reads. -/
def version (p : Pattern) : VersionText :=
  ⟨p.components.map Component.toNumber, fun h => p.ne_nil (List.map_eq_nil_iff.mp h), []⟩

theorem whole_version (p : Pattern) : p.version.whole = ⟨p.numbers, []⟩ := by
  have hvalue : Number.value? ∘ Component.toNumber = Component.value? := by
    funext c
    cases c with
    | number digits h hmax => rfl
    | x upper => rfl
    | star => rfl
  show (⟨(p.components.map Component.toNumber).filterMap Number.value?, []⟩ : Version) = _
  rw [List.filterMap_map, hvalue]
  rfl

theorem fails_version (p : Pattern) : p.version.fails = false := rfl

theorem value_version (p : Pattern) : p.version.value = .ok ⟨p.numbers, []⟩ := by
  rw [VersionText.value_eq, p.fails_version, ← p.whole_version]
  rfl

theorem numbers_nonneg (p : Pattern) : ∀ n ∈ p.numbers, 0 ≤ n := by
  intro n hn
  obtain ⟨c, -, hc⟩ := List.mem_filterMap.mp hn
  cases c with
  | number digits h hmax =>
    cases hc
    exact Int.natCast_nonneg _
  | x upper => cases hc
  | star => cases hc

/-- A pattern without large numbers is a release. -/
theorem release {p : Pattern} (h : ∀ n ∈ p.numbers, n ≤ Version.maxNumber) :
    (⟨p.numbers, []⟩ : Version).Release :=
  ⟨fun n hn => ⟨p.numbers_nonneg n hn, h n hn⟩, rfl⟩

end Pattern

/-! ## Tokens -/

theorem Component.reads (c : Component) :
    ∃ t, NumberText c.toNumber [t] ∧ Reads c.text [t] (Stops isWordChar) := by
  have hx : ∀ w : Str, w = ['x'] ∨ w = ['X'] → Reads w [.xNumber w] (Stops isWordChar) := by
    intro w hw
    have hword : IsWord w := by
      rcases hw with rfl | rfl
      · exact ⟨List.cons_ne_nil _ _, List.forall_mem_singleton.mpr (by decide)⟩
      · exact ⟨List.cons_ne_nil _ _, List.forall_mem_singleton.mpr (by decide)⟩
    have hreads := reads_word hword
    rwa [wordRule, if_pos hw] at hreads
  cases c with
  | number digits h hmax =>
    exact ⟨_, .number digits hmax, reads_digits h.ne_nil fun c hc => isDigit_mem (h.isPart c hc)⟩
  | x upper =>
    refine ⟨_, .x _, hx _ ?_⟩
    cases upper with
    | false => exact .inl rfl
    | true => exact .inr rfl
  | star => exact ⟨_, .star, reads_star.mono fun _ => trivial⟩

theorem Pattern.reads (p : Pattern) :
    ∃ ts, VersionTokens p.version ts ∧ Reads p.text ts (Stops isWordChar) := by
  have hdotted : ∃ ts, SepBy NumberText Dot (p.components.map Component.toNumber) ts ∧
      Reads (['.'].intercalate (p.components.map Component.text)) ts (Stops isWordChar) :=
    reads_dotted p.ne_nil fun c _ => c.reads
  obtain ⟨ts, hts, hreads⟩ := hdotted
  exact ⟨ts, .basic hts rfl, hreads⟩

/-- A text that is not empty and has no blanks. -/
theorem Solid.of_forall {s : Str} (hne : s ≠ []) (h : ∀ c ∈ s, isBlank c = false) : Solid s := by
  obtain ⟨c, t, rfl⟩ := List.exists_cons_of_ne_nil hne
  obtain ⟨hc, ht⟩ := List.forall_mem_cons.mp h
  exact .of_symbol hc ht

theorem Component.not_isBlank (c : Component) : ∀ d ∈ c.text, isBlank d = false := by
  intro d hd
  cases c with
  | number digits h hmax =>
    refine not_isBlank_of_isWordChar (List.contains_iff_mem.mpr (List.mem_append_right _ ?_))
    exact isDigit_mem (h.isPart d hd)
  | x upper =>
    cases upper with
    | false =>
      rw [List.mem_singleton.mp hd]
      rfl
    | true =>
      rw [List.mem_singleton.mp hd]
      rfl
  | star =>
    rw [List.mem_singleton.mp hd]
    rfl

theorem Pattern.not_isBlank (p : Pattern) : ∀ d ∈ p.text, isBlank d = false := by
  intro d hd
  rcases mem_intercalate hd with hdot | ⟨w, hw, hd⟩
  · rw [List.mem_singleton.mp hdot]
    rfl
  · obtain ⟨c, -, rfl⟩ := List.mem_map.mp hw
    exact c.not_isBlank d hd

theorem Pattern.solid (p : Pattern) : Solid p.text := by
  obtain ⟨ts, hts, hreads⟩ := p.reads
  exact .of_forall (hreads.ne_nil stops_nil hts.ne_nil) p.not_isBlank

/-! ## What is constructed -/

section

variable {o : Outside}

/-- A text whose versions have no extra part. -/
theorem construct_text_iff (h : o.Generated) {s : Str} (hs : Solid s) {range : Range} {ts : List Token}
    (hrange : RangeTokens range ts) (hreads : Reads s ts (Stops isWordChar))
    (hversions : ∀ t ∈ range.versions, t.fails = false) {r : VersionRange} :
    construct o s = .ok r ↔ s.length ≤ 32 * 1024 ∧ range.eval = .ok r := by
  have htokens : RangeTokens range (tokens (o.strip s)) := by
    rw [h.strip_eq hs, hreads.tokens_eq stops_nil]
    exact hrange
  rw [construct_range_iff h htokens, h.strip_eq hs]
  exact and_congr_right fun _ => and_iff_right hversions

/-- What a text is that is not too long: a range with these versions. -/
def Means (o : Outside) (s : Str) (p : Version → Prop) : Prop :=
  (s.length ≤ 32 * 1024 → ∃ r, construct o s = .ok r) ∧
    ∀ r, construct o s = .ok r → ∀ w : Version, w.Release → (r.contains w = true ↔ p w)

theorem means_of_pairs (h : o.Generated) {s : Str} (hs : Solid s) {range : Range} {ts : List Token}
    (hrange : RangeTokens range ts) (hreads : Reads s ts (Stops isWordChar))
    (hversions : ∀ t ∈ range.versions, t.fails = false) {q : RangePair} (hq : range.pairs = .ok [q])
    {p : Version → Prop} (hp : ∀ w : Version, w.Release → (q.contains w = true ↔ p w)) : Means o s p := by
  have heval := eval_of_pairs hq
  constructor
  · intro hlen
    exact ⟨_, (construct_text_iff h hs hrange hreads hversions).mpr ⟨hlen, heval⟩⟩
  · intro r hr w hw
    have hr' := ((construct_text_iff h hs hrange hreads hversions).mp hr).2
    cases heval.symm.trans hr'
    rw [contains_single]
    exact hp w hw

end

/-! ## Carets, tildes and hyphens -/

/-- The components that have to agree are told one by one. -/
theorem firsts_eq_iff_of_isPrefix {ns p ms : List Int} (hpre : p <+: ns) :
    firsts 0 p.length ms = p ↔ ∀ i < p.length, ms.getD i 0 = ns.getD i 0 := by
  rw [firsts_eq_iff rfl]
  obtain ⟨rest, rfl⟩ := hpre
  refine forall₂_congr fun i hi => ?_
  rw [List.getD_append _ _ _ _ hi]

theorem Pattern.reads_symbol {symbol : Str} {tok : Token} {f : VersionText → Range} (p : Pattern)
    (hsymbol : Reads symbol [tok] fun _ => True) (htok : prefixRange tok = some f) :
    ∃ ts, RangeTokens (f p.version) ts ∧ Reads (symbol ++ p.text) ts (Stops isWordChar) := by
  obtain ⟨ts, hts, hreads⟩ := p.reads
  exact ⟨_, .prefixed htok .empty hts, hsymbol.append hreads fun _ => trivial⟩

theorem Pattern.solid_cons (p : Pattern) {c : Char} (hc : isBlank c = false) : Solid (c :: p.text) :=
  .of_symbol hc p.not_isBlank

/-- **A caret** is for the releases from the version on that agree with it up to its first number that is
not 0. -/
theorem caret_contains (o : Outside) (h : o.Generated) (p : Pattern) (hne : p.numbers ≠ [])
    (hle : ∀ n ∈ p.numbers, n ≤ Version.maxNumber) (hmajor : p.numbers.head? ≠ some Version.maxNumber) :
    Means o ('^' :: p.text) fun w => w.ge ⟨p.numbers, []⟩ = true ∧
      ∀ i < p.numbers.length, (∀ j < i, p.numbers.getD j 0 = 0) →
        w.numbers.getD i 0 = p.numbers.getD i 0 := by
  have hpre := isPrefix_caretNumbers p.numbers
  have hlength := fun i => lt_length_caretNumbers_iff p.numbers_nonneg (i := i)
  -- the major is among the components that are counted up
  have hmax : ∃ n ∈ caretNumbers p.numbers, n ≠ Version.maxNumber := by
    obtain ⟨n, ns, hns⟩ := List.exists_cons_of_ne_nil hne
    have hpos : 0 < (caretNumbers p.numbers).length := by
      rw [hlength, hns]
      exact ⟨Nat.zero_lt_succ _, fun j hj => absurd hj (Nat.not_lt_zero j)⟩
    obtain ⟨m, ms, hms⟩ := List.exists_cons_of_length_pos hpos
    rw [hms, hns, List.cons_prefix_cons] at hpre
    refine ⟨n, ?_, fun heq => hmajor ?_⟩
    · rw [hms, hpre.1]
      exact List.mem_cons_self
    · rw [hns, heq]
      rfl
  obtain ⟨q, hq, hcontains⟩ := contains_upTo (Pattern.release hle) hpre hmax
  obtain ⟨ts, hrange, hreads⟩ := p.reads_symbol reads_caret rfl
  refine means_of_pairs h (p.solid_cons rfl) hrange hreads (List.forall_mem_singleton.mpr p.fails_version)
    (q := q) ?_ fun w hw => ?_
  · rw [Range.pairs, p.value_version]
    exact hq
  · rw [hcontains w hw, Version.le_iff, ← Version.ge_iff, firsts_eq_iff_of_isPrefix hpre]
    refine and_congr_right fun _ => forall_congr' fun i => ?_
    rw [hlength, and_imp]

def Component.zero : Component :=
  .number ['0'] ⟨List.cons_ne_nil _ _, List.forall_mem_singleton.mpr rfl⟩ (Nat.le_of_ble_eq_true rfl)

def Component.two : Component :=
  .number ['2'] ⟨List.cons_ne_nil _ _, List.forall_mem_singleton.mpr rfl⟩ (Nat.le_of_ble_eq_true rfl)

/-- `0.2.x` -/
def zeroTwo : Pattern :=
  ⟨[.zero, .two, .x false], List.cons_ne_nil _ _⟩

theorem caret_contains_zeroTwo : Means derivation "^0.2.x".toList fun w =>
    w.ge ⟨[0, 2], []⟩ = true ∧ ∀ i < 2, (∀ j < i, [0, 2].getD j (0 : Int) = 0) →
      w.numbers.getD i 0 = [0, 2].getD i 0 :=
  caret_contains derivation generated_derivation zeroTwo (List.cons_ne_nil _ _) (by decide) (by decide)

/-- A pattern alone: all its numbers have to agree. -/
theorem version_contains {o : Outside} (h : o.Generated) (p : Pattern)
    (hle : ∀ n ∈ p.numbers, n ≤ Version.maxNumber) (hmax : ∃ n ∈ p.numbers, n ≠ Version.maxNumber) :
    Means o p.text fun w => ∀ i < p.numbers.length, w.numbers.getD i 0 = p.numbers.getD i 0 := by
  obtain ⟨q, hq, hcontains⟩ := contains_upTo (Pattern.release hle) List.prefix_rfl hmax
  obtain ⟨ts, hts, hreads⟩ := p.reads
  have hne : p.numbers ≠ [] := by
    obtain ⟨n, hn, -⟩ := hmax
    exact List.ne_nil_of_mem hn
  refine means_of_pairs h p.solid (.version hts) hreads (List.forall_mem_singleton.mpr p.fails_version)
    (q := q) ?_ fun w hw => ?_
  · rw [Range.pairs, p.value_version]
    show (if p.numbers = [] then _ else _) = _
    rw [if_neg hne]
    exact hq
  · rw [hcontains w hw, ← firsts_eq_iff_of_isPrefix List.prefix_rfl]
    exact and_iff_right_of_imp (le_of_firsts_eq hw)

theorem tilde_contains {o : Outside} (h : o.Generated) (p : Pattern)
    (hle : ∀ n ∈ p.numbers, n ≤ Version.maxNumber)
    (hmax : ∃ n ∈ p.numbers.take 2, n ≠ Version.maxNumber) :
    Means o ('~' :: p.text) fun w => w.ge ⟨p.numbers, []⟩ = true ∧
      ∀ i < min 2 p.numbers.length, w.numbers.getD i 0 = p.numbers.getD i 0 := by
  have htilde : tildeNumbers p.numbers = p.numbers.take 2 := by
    unfold tildeNumbers
    split
    · rfl
    · rename_i hshort
      exact (List.take_of_length_le (Nat.le_of_not_gt hshort)).symm
  have hpre := List.take_prefix 2 p.numbers
  obtain ⟨q, hq, hcontains⟩ := contains_upTo (Pattern.release hle) hpre hmax
  obtain ⟨ts, hrange, hreads⟩ := p.reads_symbol reads_tilde rfl
  refine means_of_pairs h (p.solid_cons rfl) hrange hreads (List.forall_mem_singleton.mpr p.fails_version)
    (q := q) ?_ fun w hw => ?_
  · rw [Range.pairs, p.value_version]
    show upTo ⟨p.numbers, []⟩ (tildeNumbers p.numbers) = _
    rw [htilde]
    exact hq
  · rw [hcontains w hw, Version.le_iff, ← Version.ge_iff, firsts_eq_iff_of_isPrefix hpre, List.length_take]

theorem Pattern.reads_hyphen (p₁ p₂ : Pattern) :
    ∃ ts, RangeTokens (.hyphen p₁.version p₂.version) ts ∧
      Reads (p₁.text ++ (" - ".toList ++ p₂.text)) ts (Stops isWordChar) := by
  obtain ⟨ts, hts, hreads⟩ := p₁.reads
  obtain ⟨us, hus, hreads'⟩ := p₂.reads
  obtain ⟨c, t, heq, hc⟩ := p₂.solid.begins
  refine ⟨_, .hyphen hts .space hus, ?_⟩
  have hspace : Reads ([' '] ++ p₂.text) ([.space] ++ us) (Stops isWordChar) := by
    refine reads_space.append hreads' fun _ => ?_
    rw [heq]
    exact stops_cons ((Bool.not_eq_true' _).mp hc)
  have hhyphen : Reads (['-'] ++ ([' '] ++ p₂.text)) ([.hyphen] ++ ([.space] ++ us)) (Stops isWordChar) :=
    Versions.reads_hyphen.append hspace fun _ => trivial
  have hall := reads_space.append hhyphen fun _ => stops_cons rfl
  exact hreads.append hall fun _ => stops_cons (by decide)

/-- From the first version up to the one after the second, if there is something between them. -/
theorem hyphen_contains {o : Outside} (h : o.Generated) (p₁ p₂ : Pattern)
    (hle : ∀ n ∈ p₂.numbers, n ≤ Version.maxNumber) (hmax : ∃ n ∈ p₂.numbers, n ≠ Version.maxNumber)
    {r : VersionRange} (hr : construct o (p₁.text ++ (" - ".toList ++ p₂.text)) = .ok r) {w : Version}
    (hw : w.Release) : r.contains w = true ↔ w.ge ⟨p₁.numbers, []⟩ = true ∧
      (⟨w.numbers.take p₂.numbers.length, []⟩ : Version).le ⟨p₂.numbers, []⟩ = true := by
  obtain ⟨ts, hrange, hreads⟩ := p₁.reads_hyphen p₂
  have hversions : ∀ t ∈ (Range.hyphen p₁.version p₂.version).versions, t.fails = false :=
    List.forall_mem_cons.mpr ⟨p₁.fails_version, List.forall_mem_singleton.mpr p₂.fails_version⟩
  have heval := ((construct_text_iff h (p₁.solid.append p₂.solid) hrange hreads hversions).mp hr).2
  obtain ⟨ps, hps, heval⟩ := of_bind_eq_ok heval
  obtain ⟨ns, hinc, hnext, -⟩ := (Pattern.release hle).incrementVersion_eq hmax
  rw [Range.pairs, p₁.value_version, p₂.value_version] at hps
  change (⟨p₂.numbers, []⟩ : Version).incrementVersion >>= _ = _ at hps
  obtain ⟨v₂, hv₂, hps⟩ := of_bind_eq_ok hps
  cases hinc.symm.trans hv₂
  obtain ⟨q, hq, hps⟩ := of_bind_eq_ok hps
  obtain ⟨hfirst, hsecond⟩ := make_eq_ok hq
  cases hps
  cases heval
  show (⟨[q]⟩ : VersionRange).contains w = true ↔ _
  rw [contains_single, RangePair.contains, hfirst, hsecond, Bool.and_eq_true, Version.take_le_iff,
    ← Version.lt_next_iff hnext hw]
  show Version.le _ w = true ∧ (⟨ns, []⟩ : Version).gt w = true ↔ _
  rw [Version.gt_iff, ← Version.lt_iff, Version.le_iff, ← Version.ge_iff]

/-- **Patterns, tildes and hyphens** are for the releases that agree with the version where it counts. -/
theorem pattern_contains (o : Outside) (h : o.Generated) (p : Pattern)
    (hle : ∀ n ∈ p.numbers, n ≤ Version.maxNumber) :
    ((∃ n ∈ p.numbers, n ≠ Version.maxNumber) → Means o p.text fun w =>
      ∀ i < p.numbers.length, w.numbers.getD i 0 = p.numbers.getD i 0) ∧
    ((∃ n ∈ p.numbers.take 2, n ≠ Version.maxNumber) → Means o ('~' :: p.text) fun w =>
      w.ge ⟨p.numbers, []⟩ = true ∧
        ∀ i < min 2 p.numbers.length, w.numbers.getD i 0 = p.numbers.getD i 0) ∧
    ((∃ n ∈ p.numbers, n ≠ Version.maxNumber) → ∀ (p₁ : Pattern) (r : VersionRange),
      construct o (p₁.text ++ (" - ".toList ++ p.text)) = .ok r → ∀ w : Version, w.Release →
        (r.contains w = true ↔ w.ge ⟨p₁.numbers, []⟩ = true ∧
          (⟨w.numbers.take p.numbers.length, []⟩ : Version).le ⟨p.numbers, []⟩ = true)) :=
  ⟨version_contains h p hle, tilde_contains h p hle,
    fun hmax p₁ _ hr _ hw => hyphen_contains h p₁ p hle hmax hr hw⟩

theorem pattern_contains_zeroTwo :
    (Means derivation "0.2.x".toList fun w => ∀ i < 2, w.numbers.getD i 0 = [0, 2].getD i 0) ∧
    (Means derivation "~0.2.x".toList fun w => w.ge ⟨[0, 2], []⟩ = true ∧
      ∀ i < 2, w.numbers.getD i 0 = [0, 2].getD i 0) ∧
    ∃ r, construct derivation "0.2.x - 0.2.x".toList = .ok r ∧ ∀ w : Version, w.Release →
      (r.contains w = true ↔ w.ge ⟨[0, 2], []⟩ = true ∧
        (⟨w.numbers.take 2, []⟩ : Version).le ⟨[0, 2], []⟩ = true) := by
  obtain ⟨hversion, htilde, hhyphen⟩ :=
    pattern_contains derivation generated_derivation zeroTwo (by decide)
  have hmax : ∃ n ∈ zeroTwo.numbers, n ≠ Version.maxNumber := ⟨0, by decide, by decide⟩
  have hconstruct : ∃ r, construct derivation "0.2.x - 0.2.x".toList = .ok r := by
    obtain ⟨ts, hrange, hreads⟩ := zeroTwo.reads_hyphen zeroTwo
    have hversions : ∀ t ∈ (Range.hyphen zeroTwo.version zeroTwo.version).versions, t.fails = false :=
      List.forall_mem_cons.mpr ⟨rfl, List.forall_mem_singleton.mpr rfl⟩
    exact ⟨_, (construct_text_iff generated_derivation (zeroTwo.solid.append zeroTwo.solid) hrange hreads
      hversions).mpr ⟨by decide, rfl⟩⟩
  obtain ⟨r, hr⟩ := hconstruct
  exact ⟨hversion hmax, htilde ⟨0, by decide, by decide⟩, r, hr, hhyphen hmax zeroTwo r hr⟩

end Primitives.Versions
