import Primitives.Versions.Pairs

/-!
# What is read of a text

The numbers of a range that is read are `int64_t`s that are not negative, and the strings of its extra
parts are words that are not numbers (`parseActions_clean`). The lexer reads nothing else, and what is
done with the pairs takes no other sides than theirs. What `make_long` cannot read is in no text that is
derived (`file_fits`).
-/

set_option autoImplicit false

namespace Primitives.Versions

open Lib VersionRange

/-! ## Tokens -/

/-- The string of a token. -/
def Token.string? : Token → Option Str
  | .extra s | .string s | .xNumber s => some s
  | _ => none

/-- It is a word, and no number. -/
def Token.Clean (t : Token) : Prop := ∀ s ∈ t.string?, IsWord s ∧ ¬ ∀ c ∈ s, c ∈ digitChars

def Rule.symbolToken : Rule → Option Token
  | symbol _ t => some t
  | _ => none

theorem symbolToken_string? : ∀ r ∈ rules, ∀ t ∈ r.symbolToken, t.string? = none := by decide

theorem not_digits_of_wordRule {w : Str} (hw : IsWord w) (h : wordRule w ≠ .number) :
    ¬ ∀ c ∈ w, c ∈ digitChars := by
  intro hdigits
  refine h ?_
  rw [wordRule, if_neg, if_pos (all_contains.mpr hdigits)]
  rintro (rfl | rfl)
  · exact absurd (hdigits 'x' List.mem_cons_self) (by decide)
  · exact absurd (hdigits 'X' List.mem_cons_self) (by decide)

/-- A word that is matched by another rule than that of numbers. -/
theorem clean_of_firstMatch {r : Rule} {w : Str} (hmatch : firstMatch Rule.regex rules w = some r)
    (hw : IsWord w) (hr : r ≠ .number) : IsWord w ∧ ¬ ∀ c ∈ w, c ∈ digitChars := by
  have heq : wordRule w = r := Option.some.inj ((firstMatch_wordRule hw).symm.trans hmatch)
  exact ⟨hw, not_digits_of_wordRule hw (heq ▸ hr)⟩

theorem clean_of_mem_tokens {s : Str} {tok : Token} (h : tok ∈ tokens s) : tok.Clean := by
  obtain ⟨st, r, w, hfirst, haction⟩ := lexer.exists_of_mem_tokens h
  have hmatch : firstMatch Rule.regex rules w = some r := hfirst
  have htok : r.token w = tok := Option.some.inj haction
  obtain ⟨hregex, before, after, hrules, -⟩ := firstMatch_eq_some_iff.mp hmatch
  subst htok
  intro s hs
  cases r with
  | symbol text t =>
    have hmem : Rule.symbol text t ∈ rules := by
      have hsplit : Rule.symbol text t ∈ before ++ .symbol text t :: after := by simp
      rwa [← hrules] at hsplit
    have hno := symbolToken_string? _ hmem t rfl
    have ht : t.string? = some s := hs
    rw [hno] at ht
    cases ht
  | space => cases hs
  | number => cases hs
  | any => cases hs
  | x =>
    cases hs
    refine clean_of_firstMatch hmatch ?_ (by decide)
    obtain ⟨c, hc, rfl⟩ := mem_oneOf.mp hregex
    have hword : isWordChar c = true := by
      rcases List.mem_cons.mp hc with rfl | hc
      · rfl
      · rw [List.mem_singleton.mp hc]
        rfl
    exact ⟨List.cons_ne_nil _ _, List.forall_mem_singleton.mpr hword⟩
  | string =>
    cases hs
    refine clean_of_firstMatch hmatch ?_ (by decide)
    obtain ⟨c, t, rfl, hc, ht⟩ := mem_string.mp hregex
    refine ⟨List.cons_ne_nil _ _, List.forall_mem_cons.mpr ⟨?_, fun d hd => ?_⟩⟩
    · exact List.contains_iff_mem.mpr (List.mem_append_left _ hc)
    · exact List.contains_iff_mem.mpr (ht d hd)
  | extra =>
    cases hs
    refine clean_of_firstMatch hmatch ?_ (by decide)
    obtain ⟨hne, hall⟩ := mem_many1_oneOf.mp hregex
    exact ⟨hne, fun c hc => List.contains_iff_mem.mpr (hall c hc)⟩

/-! ## Versions -/

theorem ExtraPart.clean {x : Value} {us : List Token} (h : ExtraPart x us) (hus : ∀ t ∈ us, t.Clean) :
    x.Clean := by
  cases h with
  | extra s => exact hus _ List.mem_cons_self s rfl
  | string s => exact hus _ List.mem_cons_self s rfl
  | x s => exact hus _ List.mem_cons_self s rfl
  | number digits h => exact ⟨Int.natCast_nonneg _, Int.ofNat_le.mpr h⟩

theorem VersionText.whole_clean {t : VersionText} (h : ∀ x ∈ t.extra, x.Clean) : t.whole.Clean where
  numbers := by
    intro n hn
    obtain ⟨number, -, hvalue⟩ := List.mem_filterMap.mp hn
    cases number with
    | any => cases hvalue
    | number m hm =>
      cases hvalue
      exact ⟨Int.natCast_nonneg _, Int.ofNat_le.mpr hm⟩
  extra := h

theorem VersionTokens.clean {t : VersionText} {ts : List Token} (h : VersionTokens t ts)
    (hts : ∀ tok ∈ ts, tok.Clean) : t.whole.Clean := by
  refine VersionText.whole_clean ?_
  cases h with
  | basic h hextra =>
    rw [hextra]
    intro x hx
    cases hx
  | extra h hextra =>
    refine hextra.forall_mem (fun hx hus => hx.clean hus) fun tok htok => hts tok ?_
    exact List.mem_append_right _ (List.mem_cons_of_mem _ htok)

/-- The versions of a range stand among its tokens. -/
theorem RangeTokens.exists_versionTokens {r : Range} {ts : List Token} (h : RangeTokens r ts) :
    ∀ v ∈ r.versions, ∃ us, VersionTokens v us ∧ us ⊆ ts := by
  have hright : ∀ {us vs ws : List Token}, us ⊆ ws → us ⊆ vs ++ ws :=
    fun h => List.subset_append_of_subset_right _ h
  cases h with
  | @prefixed tok f v sp ts htok hsp hv =>
    have hversions : (f v).versions = [v] := by
      cases tok <;> cases htok <;> rfl
    rw [hversions]
    intro w hw
    rw [List.mem_singleton.mp hw]
    exact ⟨ts, hv, List.subset_cons_of_subset _ (hright fun _ h => h)⟩
  | @hyphen v₁ v₂ sp ts us h₁ hsp h₂ =>
    intro w hw
    rcases List.mem_cons.mp hw with rfl | hw
    · exact ⟨ts, h₁, List.subset_append_left _ _⟩
    · rw [List.mem_singleton.mp hw]
      refine ⟨us, h₂, hright ?_⟩
      exact List.subset_cons_of_subset _ (List.subset_cons_of_subset _ (hright fun _ h => h))
  | @interval b c l r v₁ v₂ s₁ s₂ s₃ s₄ ts us hb hc h₁ h₂ hs₁ hs₂ hs₃ hs₄ =>
    intro w hw
    rcases List.mem_cons.mp hw with rfl | hw
    · refine ⟨ts, h₁, fun t ht => ?_⟩
      simp [ht]
    · rw [List.mem_singleton.mp hw]
      refine ⟨us, h₂, fun t ht => ?_⟩
      simp [ht]
  | @intervalFrom b c l r v s₁ s₂ s₃ ts hb hc h hs₁ hs₂ hs₃ =>
    intro w hw
    rw [List.mem_singleton.mp hw]
    refine ⟨ts, h, fun t ht => ?_⟩
    simp [ht]
  | @intervalTo b c l r v s₁ s₂ s₃ ts hb hc h hs₁ hs₂ hs₃ =>
    intro w hw
    rw [List.mem_singleton.mp hw]
    refine ⟨ts, h, fun t ht => ?_⟩
    simp [ht]
  | @version v ts h =>
    intro w hw
    rw [List.mem_singleton.mp hw]
    exact ⟨ts, h, fun _ h => h⟩

/-- All versions of a text are clean. -/
theorem File.clean {sets : List (List Range)} {ts : List Token} (h : File sets ts)
    (hts : ∀ tok ∈ ts, tok.Clean) : ∀ rs ∈ sets, ∀ r ∈ rs, ∀ v ∈ r.versions, v.whole.Clean := by
  have hrange : ∀ {r us}, RangeTokens r us → (∀ tok ∈ us, tok.Clean) →
      ∀ v ∈ r.versions, v.whole.Clean := by
    intro r us h hus v hv
    obtain ⟨ws, hw, hsub⟩ := h.exists_versionTokens v hv
    exact hw.clean fun tok htok => hus tok (hsub htok)
  refine SepBy.forall_mem h (fun hrs hus => ?_) hts
  exact SepBy.forall_mem hrs hrange hus

/-! ## Numbers -/

/-- A number of a text that is derived is one that `make_long` reads. -/
def Token.Fits (t : Token) : Prop := ∀ digits, t = .number digits → decimal digits ≤ int64Max

theorem Token.fits_of_not_isNumber {t : Token} (h : t.isNumber = false) : t.Fits := by
  rintro digits rfl
  cases h

theorem SpaceOrEmpty.fits {sp : List Token} (h : SpaceOrEmpty () sp) : ∀ t ∈ sp, t.Fits := by
  intro t ht
  rw [h.eq_space t ht]
  exact Token.fits_of_not_isNumber rfl

theorem Token.fits_number {digits : Str} (h : decimal digits ≤ int64Max) :
    (Token.number digits).Fits := by
  intro digits' heq
  cases heq
  exact h

theorem NumberText.fits {n : Number} {us : List Token} (h : NumberText n us) :
    ∃ t, us = [t] ∧ t.Fits := by
  cases h with
  | number digits h => exact ⟨_, rfl, Token.fits_number h⟩
  | x s => exact ⟨_, rfl, fun digits heq => by cases heq⟩
  | star => exact ⟨_, rfl, fun digits heq => by cases heq⟩

theorem ExtraPart.fits {x : Value} {us : List Token} (h : ExtraPart x us) : ∃ t, us = [t] ∧ t.Fits := by
  cases h with
  | extra s => exact ⟨_, rfl, fun digits heq => by cases heq⟩
  | string s => exact ⟨_, rfl, fun digits heq => by cases heq⟩
  | x s => exact ⟨_, rfl, fun digits heq => by cases heq⟩
  | number digits h => exact ⟨_, rfl, Token.fits_number h⟩

theorem VersionTokens.fits {v : VersionText} {ts : List Token} (h : VersionTokens v ts) :
    ∀ t ∈ ts, t.Fits := by
  have hdot : Token.dot.Fits := Token.fits_of_not_isNumber rfl
  cases h with
  | basic h hextra => exact dotted_tokens h NumberText.fits hdot
  | extra h hextra =>
    rw [List.forall_mem_append, List.forall_mem_cons]
    exact ⟨dotted_tokens h NumberText.fits hdot, Token.fits_of_not_isNumber rfl,
      dotted_tokens hextra ExtraPart.fits hdot⟩

theorem RangeTokens.fits {r : Range} {ts : List Token} (h : RangeTokens r ts) : ∀ t ∈ ts, t.Fits := by
  have hopen : ∀ {b l}, openBracket b = some l → b.Fits := by
    rintro b l hb digits rfl
    cases hb
  have hclose : ∀ {c r}, closeBracket c = some r → ∀ t ∈ [c], t.Fits := by
    intro c r hc t ht digits heq
    rw [List.mem_singleton.mp ht] at heq
    rw [heq] at hc
    cases hc
  have hcomma : Token.comma.Fits := Token.fits_of_not_isNumber rfl
  cases h with
  | prefixed ht hsp hv =>
    rw [List.forall_mem_cons, List.forall_mem_append]
    refine ⟨?_, hsp.fits, hv.fits⟩
    rintro digits rfl
    cases ht
  | hyphen h₁ hsp h₂ =>
    rw [List.forall_mem_append, List.forall_mem_cons, List.forall_mem_cons, List.forall_mem_append]
    exact ⟨h₁.fits, Token.fits_of_not_isNumber rfl, Token.fits_of_not_isNumber rfl, hsp.fits, h₂.fits⟩
  | interval hb hc h₁ h₂ hs₁ hs₂ hs₃ hs₄ =>
    have hend := List.forall_mem_append.mpr ⟨h₂.fits, List.forall_mem_append.mpr ⟨hs₄.fits, hclose hc⟩⟩
    rw [List.forall_mem_cons, List.forall_mem_append, List.forall_mem_append, List.forall_mem_append,
      List.forall_mem_cons, List.forall_mem_append]
    exact ⟨hopen hb, hs₁.fits, h₁.fits, hs₂.fits, hcomma, hs₃.fits, hend⟩
  | intervalFrom hb hc h hs₁ hs₂ hs₃ =>
    rw [List.forall_mem_cons, List.forall_mem_append, List.forall_mem_append, List.forall_mem_append,
      List.forall_mem_cons, List.forall_mem_append]
    exact ⟨hopen hb, hs₁.fits, h.fits, hs₂.fits, hcomma, hs₃.fits, hclose hc⟩
  | intervalTo hb hc h hs₁ hs₂ hs₃ =>
    rw [List.forall_mem_cons, List.forall_mem_append, List.forall_mem_cons, List.forall_mem_append,
      List.forall_mem_append, List.forall_mem_append]
    exact ⟨hopen hb, hs₁.fits, hcomma, hs₂.fits, h.fits, hs₃.fits, hclose hc⟩
  | version h => exact h.fits

theorem file_fits {sets : List (List Range)} {ts : List Token} (h : File sets ts) :
    ∀ t ∈ ts, t.Fits := by
  have hand : ∀ {us}, And () us → ∀ t ∈ us, t.Fits := by
    intro us h t ht digits heq
    rcases h.mem_cases t ht with rfl | rfl | rfl <;> cases heq
  have hor : ∀ {us}, Or () us → ∀ t ∈ us, t.Fits := by
    intro us h t ht digits heq
    rcases h.mem_cases t ht with rfl | rfl <;> cases heq
  exact SepBy.forall_token h (fun hrs => SepBy.forall_token hrs RangeTokens.fits hand) hor

/-! ## Sides -/

/-- Both sides of a pair. -/
def RangePair.Both (P : Side → Prop) (p : RangePair) : Prop := P p.first ∧ P p.second

section Sides

variable {P : Side → Prop}

theorem stdMax_mem {s s' : Side} (h : P s) (h' : P s') : P (stdMax Side.lt s s') := by
  rcases stdMax_cases Side.lt s s' with heq | heq
  · rw [heq]
    exact h
  · rw [heq]
    exact h'

theorem stdMin_mem {s s' : Side} (h : P s) (h' : P s') : P (stdMin Side.lt s s') := by
  rcases stdMin_cases Side.lt s s' with heq | heq
  · rw [heq]
    exact h
  · rw [heq]
    exact h'

theorem RangePair.or_both {p q u : RangePair} (h : p.or q = some u) (hp : p.Both P) (hq : q.Both P) :
    u.Both P := by
  unfold RangePair.or at h
  simp only at h
  split at h
  · cases h
    exact ⟨stdMin_mem hp.1 hq.1, stdMax_mem hp.2 hq.2⟩
  · cases h

theorem RangePair.and_both {p q u : RangePair} (h : p.and q = some u) (hp : p.Both P) (hq : q.Both P) :
    u.Both P := by
  unfold RangePair.and at h
  simp only at h
  split at h
  · cases h
    exact ⟨stdMax_mem hp.1 hq.1, stdMin_mem hp.2 hq.2⟩
  · cases h

theorem mergeFollowing_both {prev : RangePair} {l : List RangePair} (hprev : prev.Both P)
    (hl : ∀ p ∈ l, p.Both P) : ∀ p ∈ mergeFollowing prev l, p.Both P := by
  induction l generalizing prev with
  | nil => exact List.forall_mem_singleton.mpr hprev
  | cons i rest ih =>
    obtain ⟨hi, hrest⟩ := List.forall_mem_cons.mp hl
    rw [mergeFollowing]
    split
    · exact List.forall_mem_cons.mpr ⟨hprev, hl⟩
    · split
      · rename_i u hu
        exact ih (RangePair.or_both hu hprev hi) hrest
      · exact List.forall_mem_cons.mpr ⟨hprev, ih hi hrest⟩

theorem addPair_both {rhs : RangePair} {l : List RangePair} (hrhs : rhs.Both P)
    (hl : ∀ p ∈ l, p.Both P) : ∀ p ∈ addPair rhs l, p.Both P := by
  induction l with
  | nil => exact List.forall_mem_singleton.mpr hrhs
  | cons i rest ih =>
    obtain ⟨hi, hrest⟩ := List.forall_mem_cons.mp hl
    rw [addPair]
    split
    · exact List.forall_mem_cons.mpr ⟨hi, ih hrest⟩
    · split
      · rw [List.forall_mem_append, List.forall_mem_cons]
        exact ⟨⟨hrhs, hl⟩, List.forall_mem_singleton.mpr hrhs⟩
      · split
        · rename_i u hu
          exact mergeFollowing_both (RangePair.or_both hu hi hrhs) hrest
        · exact List.forall_mem_cons.mpr ⟨hi, mergeFollowing_both hrhs hrest⟩

theorem foldl_orPair_both {ps : List RangePair} {r : VersionRange} (hps : ∀ p ∈ ps, p.Both P)
    (hr : ∀ p ∈ r.range, p.Both P) : ∀ p ∈ (ps.foldl orPair r).range, p.Both P := by
  induction ps generalizing r with
  | nil => exact hr
  | cons p ps ih =>
    obtain ⟨hp, hps⟩ := List.forall_mem_cons.mp hps
    exact ih hps (addPair_both hp hr)

theorem and_both {a b : VersionRange} (ha : ∀ p ∈ a.range, p.Both P) (hb : ∀ p ∈ b.range, p.Both P) :
    ∀ p ∈ (a.and b).range, p.Both P := by
  refine foldl_orPair_both (fun u hu => ?_) fun p hp => by cases hp
  obtain ⟨p, hp, hu⟩ := List.mem_flatMap.mp hu
  obtain ⟨q, hq, hu⟩ := List.mem_filterMap.mp hu
  exact RangePair.and_both hu (ha p hp) (hb q hq)

end Sides

/-! ## Simple ranges -/

/-- The version of a side is clean. -/
def Side.Clean (s : Side) : Prop := s.v.Clean

theorem clean_min : Version.min.Clean where
  numbers := by decide
  extra x hx := by cases hx

theorem clean_max : Version.max.Clean where
  numbers := by decide
  extra x hx := by cases hx

theorem carry_clean {l m : List Int} (h : carry l = .ok m) (hl : ∀ n ∈ l, 0 ≤ n ∧ n ≤ int64Max) :
    ∀ n ∈ m, 0 ≤ n ∧ n ≤ int64Max := by
  induction l generalizing m with
  | nil => cases h
  | cons n l ih =>
    obtain ⟨hn, hl⟩ := List.forall_mem_cons.mp hl
    rw [carry] at h
    split at h
    · cases hc : carry l with
      | error f =>
        rw [hc] at h
        cases h
      | ok m' =>
        rw [hc] at h
        cases h
        exact List.forall_mem_cons.mpr ⟨⟨le_rfl, Int.natCast_nonneg _⟩, ih hc hl⟩
    · split at h
      · cases h
      · rename_i hmax
        cases h
        exact List.forall_mem_cons.mpr ⟨⟨by omega, by omega⟩, hl⟩

theorem incrementVersion_clean {v w : Version} (h : v.incrementVersion = .ok w) (hv : v.Clean) :
    w.Clean := by
  unfold Version.incrementVersion at h
  split at h
  · cases h
    exact hv
  · cases hc : carry v.numbers.reverse with
    | error f =>
      rw [hc] at h
      cases h
    | ok m =>
      rw [hc] at h
      cases h
      refine ⟨fun n hn => ?_, hv.extra⟩
      have hnumbers : ∀ n ∈ v.numbers.reverse, 0 ≤ n ∧ n ≤ int64Max :=
        fun n hn => hv.numbers n (List.mem_reverse.mp hn)
      exact carry_clean hc hnumbers n (List.mem_reverse.mp hn)

/-- What holds of the first and the last version and of all that are made of others. -/
structure Version.Kept (P : Version → Prop) : Prop where
  min : P .min
  max : P .max
  numbers {v : Version} {ns : List Int} (hv : P v) (h : ns <+: v.numbers) : P ⟨ns, []⟩
  increment {v w : Version} (hv : P v) (h : v.incrementVersion = .ok w) : P w

theorem kept_clean : Version.Kept Version.Clean where
  min := clean_min
  max := clean_max
  numbers hv h := ⟨fun n hn => hv.numbers n (h.subset hn), fun x hx => by cases hx⟩
  increment hv h := incrementVersion_clean h hv

section Kept

variable {P : Version → Prop}

theorem make_both {v₁ v₂ : Version} {strong₁ strong₂ : Bool} {p : RangePair}
    (h : RangePair.make v₁ strong₁ v₂ strong₂ = .ok p) (h₁ : P v₁) (h₂ : P v₂) :
    p.Both fun s => P s.v := by
  obtain ⟨hfirst, hsecond⟩ := make_eq_ok h
  rw [RangePair.Both, hfirst, hsecond]
  exact ⟨h₁, h₂⟩

/-- The pairs of a range that makes one. -/
theorem bind_make_both {v₁ v₂ : Version} {strong₁ strong₂ : Bool} {ps : List RangePair}
    (h : (do return [← RangePair.make v₁ strong₁ v₂ strong₂] : Except Failure (List RangePair)) = .ok ps)
    (h₁ : P v₁) (h₂ : P v₂) : ∀ p ∈ ps, p.Both fun s => P s.v := by
  obtain ⟨p, hp, h⟩ := of_bind_eq_ok h
  cases h
  exact List.forall_mem_singleton.mpr (make_both hp h₁ h₂)

theorem upTo_both (hP : Version.Kept P) {v : Version} {ns : List Int} {ps : List RangePair}
    (h : upTo v ns = .ok ps) (hv : P v) (hns : ns <+: v.numbers) : ∀ p ∈ ps, p.Both fun s => P s.v := by
  obtain ⟨w, hw, h⟩ := of_bind_eq_ok h
  exact bind_make_both h hv (hP.increment (hP.numbers hv hns) hw)

theorem comparePairs_both (hP : Version.Kept P) {c : Comparison} {v : Version} {ps : List RangePair}
    (h : comparePairs c v = .ok ps) (hv : P v) : ∀ p ∈ ps, p.Both fun s => P s.v := by
  cases c with
  | lt => exact bind_make_both h hP.min hv
  | le => exact bind_make_both h hP.min hv
  | gt => exact bind_make_both h hv hP.max
  | ge => exact bind_make_both h hv hP.max
  | eq => exact bind_make_both h hv hv
  | ne =>
    obtain ⟨below, hbelow, h⟩ := of_bind_eq_ok h
    obtain ⟨above, habove, h⟩ := of_bind_eq_ok h
    cases h
    rw [List.forall_mem_cons, List.forall_mem_singleton]
    exact ⟨make_both hbelow hP.min hv, make_both habove hv hP.max⟩

/-- The version that is read. -/
theorem whole_of_value {t : VersionText} {v : Version} (h : t.value = .ok v)
    (ht : t.fails = false → P t.whole) : P v := by
  rw [t.value_eq] at h
  split at h
  · cases h
  · rename_i hfails
    cases h
    exact ht (Bool.eq_false_iff.mpr hfails)

theorem pairs_both (hP : Version.Kept P) {r : Range} {ps : List RangePair} (h : r.pairs = .ok ps)
    (hr : ∀ t ∈ r.versions, t.fails = false → P t.whole) : ∀ p ∈ ps, p.Both fun s => P s.v := by
  cases r with
  | compare c t =>
    obtain ⟨v, hv, h⟩ := of_bind_eq_ok h
    exact comparePairs_both hP h (whole_of_value hv (hr t List.mem_cons_self))
  | caret t =>
    obtain ⟨v, hv, h⟩ := of_bind_eq_ok h
    exact upTo_both hP h (whole_of_value hv (hr t List.mem_cons_self)) (isPrefix_caretNumbers _)
  | tilde t =>
    obtain ⟨v, hv, h⟩ := of_bind_eq_ok h
    exact upTo_both hP h (whole_of_value hv (hr t List.mem_cons_self)) (isPrefix_tildeNumbers _)
  | hyphen t₁ t₂ =>
    obtain ⟨v₁, hv₁, h⟩ := of_bind_eq_ok h
    obtain ⟨v₂, hv₂, h⟩ := of_bind_eq_ok h
    obtain ⟨w, hw, h⟩ := of_bind_eq_ok h
    have h₂ := whole_of_value hv₂ (hr t₂ (List.mem_cons_of_mem _ List.mem_cons_self))
    exact bind_make_both h (whole_of_value hv₁ (hr t₁ List.mem_cons_self)) (hP.increment h₂ hw)
  | interval leftOpen t₁ t₂ rightOpen =>
    obtain ⟨v₁, hv₁, h⟩ := of_bind_eq_ok h
    obtain ⟨v₂, hv₂, h⟩ := of_bind_eq_ok h
    have h₂ := whole_of_value hv₂ (hr t₂ (List.mem_cons_of_mem _ List.mem_cons_self))
    exact bind_make_both h (whole_of_value hv₁ (hr t₁ List.mem_cons_self)) h₂
  | intervalFrom leftOpen t rightOpen =>
    obtain ⟨v, hv, h⟩ := of_bind_eq_ok h
    exact bind_make_both h (whole_of_value hv (hr t List.mem_cons_self)) hP.max
  | intervalTo leftOpen t rightOpen =>
    obtain ⟨v, hv, h⟩ := of_bind_eq_ok h
    exact bind_make_both h hP.min (whole_of_value hv (hr t List.mem_cons_self))
  | version t =>
    obtain ⟨v, hv, h⟩ := of_bind_eq_ok h
    by_cases hnil : v.numbers = []
    · rw [if_pos hnil] at h
      exact bind_make_both h hP.min hP.max
    · rw [if_neg hnil] at h
      exact upTo_both hP h (whole_of_value hv (hr t List.mem_cons_self)) (List.prefix_refl _)

theorem eval_both (hP : Version.Kept P) {r : Range} {vr : VersionRange} (h : r.eval = .ok vr)
    (hr : ∀ t ∈ r.versions, t.fails = false → P t.whole) : ∀ p ∈ vr.range, p.Both fun s => P s.v := by
  obtain ⟨ps, hps, h⟩ := of_bind_eq_ok h
  cases h
  exact foldl_orPair_both (pairs_both hP hps hr) fun p hp => by cases hp

/-! ## Sets -/

/-- The versions of all sides of the ranges that the parser has. -/
def Sets.All (P : Version → Prop) (s : Sets) : Prop :=
  ∀ vr, s.range = some vr ∨ s.andSet = some vr ∨ s.orSet = some vr →
    ∀ p ∈ vr.range, p.Both fun s => P s.v

theorem Sets.all_iff {s : Sets} : s.All P ↔ (∀ vr ∈ s.range, ∀ p ∈ vr.range, p.Both fun s => P s.v) ∧
    (∀ vr ∈ s.andSet, ∀ p ∈ vr.range, p.Both fun s => P s.v) ∧
    ∀ vr ∈ s.orSet, ∀ p ∈ vr.range, p.Both fun s => P s.v := by
  simp only [Sets.All, or_imp, forall_and, Option.mem_def]

theorem Action.step_all (hP : Version.Kept P) {s s' : Sets} {a : Action} (h : a.step s = .ok s')
    (ha : ∀ r, a = .range r → ∀ t ∈ r.versions, t.fails = false → P t.whole) (hs : s.All P) :
    s'.All P := by
  obtain ⟨range, andSet, orSet⟩ := s
  obtain ⟨hrange, hand, hor⟩ := Sets.all_iff.mp hs
  have hnone : ∀ vr ∈ (none : Option VersionRange), ∀ p ∈ vr.range, p.Both fun s => P s.v := by
    intro vr hvr
    cases hvr
  rw [Sets.all_iff]
  cases a with
  | number digits =>
    rw [Action.step] at h
    split at h
    · cases h
      exact ⟨hrange, hand, hor⟩
    · cases h
  | version t =>
    obtain ⟨v, -, h⟩ := of_bind_eq_ok h
    cases h
    exact ⟨hrange, hand, hor⟩
  | range r =>
    obtain ⟨vr, hvr, h⟩ := of_bind_eq_ok h
    cases h
    refine ⟨?_, hand, hor⟩
    rintro _ ⟨rfl⟩
    exact eval_both hP hvr (ha r rfl)
  | andSet =>
    cases range with
    | none =>
      cases h
      exact ⟨hrange, hand, hor⟩
    | some vr =>
      -- the range goes into the conjunction, the first one as it is
      cases andSet with
      | none =>
        cases h
        exact ⟨hnone, hrange, hor⟩
      | some vrAnd =>
        cases h
        refine ⟨hnone, ?_, hor⟩
        rintro _ ⟨rfl⟩
        exact and_both (hand vrAnd rfl) (hrange vr rfl)
  | orSet =>
    cases andSet with
    | none =>
      cases h
      exact ⟨hrange, hand, hor⟩
    | some vrAnd =>
      cases orSet with
      | none =>
        cases h
        exact ⟨hrange, hnone, hand⟩
      | some vr =>
        cases h
        refine ⟨hrange, hnone, ?_⟩
        rintro _ ⟨rfl⟩
        exact foldl_orPair_both (hand vrAnd rfl) (hor vr rfl)

theorem parseActions_all (hP : Version.Kept P) {sets : List (List Range)} {s : Sets}
    (h : parseActions (actions sets) = .ok s)
    (hsets : ∀ rs ∈ sets, ∀ r ∈ rs, ∀ t ∈ r.versions, t.fails = false → P t.whole) : s.All P := by
  refine foldlM_invariant (Sets.All P) h ?_ fun ha hs hstep => Action.step_all hP hstep ?_ hs
  · rintro vr (h | h | h) <;> cases h
  · rintro r rfl
    obtain ⟨rs, hrs, ha⟩ := List.mem_flatMap.mp ha
    rcases List.mem_append.mp ha with ha | ha
    · obtain ⟨r', hr', ha⟩ := List.mem_flatMap.mp ha
      rcases List.mem_append.mp ha with ha | ha
      · obtain ⟨t, -, ht⟩ := List.mem_map.mp ha
        cases ht
      · simp only [List.mem_cons, List.not_mem_nil, or_false] at ha
        rcases ha with heq | heq
        · cases heq
          exact hsets rs hrs r hr'
        · cases heq
    · cases List.mem_singleton.mp ha

end Kept

/-- The sides of the ranges that the parser has. -/
def Sets.Clean (s : Sets) : Prop :=
  ∀ vr, s.range = some vr ∨ s.andSet = some vr ∨ s.orSet = some vr → ∀ p ∈ vr.range, p.Both Side.Clean

theorem parseActions_clean {sets : List (List Range)} {s : Sets}
    (h : parseActions (actions sets) = .ok s)
    (hsets : ∀ rs ∈ sets, ∀ r ∈ rs, ∀ v ∈ r.versions, v.whole.Clean) : s.Clean :=
  parseActions_all kept_clean h fun rs hrs r hr v hv _ => hsets rs hrs r hr v hv

end Primitives.Versions
