import Primitives.Versions.Print
import Primitives.Versions.Unambiguous

/-!
# Reading a pair that was printed

A pair is printed without a bound that is `min()` or not below `max()`. If it is open at such a bound, and
goes no further, the comparisons that are printed are read as this pair (`RangePair.Prints.readAs`): one
of them is the pair itself, two of them intersect in it, and `*` has both bounds left out.
-/

set_option autoImplicit false

namespace Primitives.Versions

open Lib

/-! ## Actions -/

/-- The actions of a set add one pair to the union. -/
def Yields (rs : List Range) (p : RangePair) : Prop :=
  ∀ o : Option VersionRange, (rs.flatMap Range.actions ++ [Action.orSet]).foldlM Action.step ⟨none, none, o⟩ =
    .ok ⟨none, none, some ((o.getD .empty).orPair p)⟩

theorem foldlM_versions {ts : List VersionText} (h : ∀ t ∈ ts, t.fails = false) (s : Sets) :
    (ts.map Action.version).foldlM Action.step s = .ok s := by
  induction ts with
  | nil => rfl
  | cons t ts ih =>
    obtain ⟨ht, hts⟩ := List.forall_mem_cons.mp h
    have hstep : (Action.version t).step s = .ok s := by
      rw [Action.step, t.value_eq, ht]
      rfl
    rw [List.map_cons, List.foldlM_cons, hstep]
    exact ih hts

/-- The actions of a range intersect the set with it. -/
theorem foldlM_range {r : Range} {vr : VersionRange} (hversions : ∀ t ∈ r.versions, t.fails = false)
    (hr : r.eval = .ok vr) (s : Sets) : r.actions.foldlM Action.step s =
      .ok ⟨none, some (s.andSet.elim vr (·.and vr)), s.orSet⟩ := by
  have hrange : (Action.range r).step s = .ok { s with range := some vr } := by
    rw [Action.step, hr]
    rfl
  rw [Range.actions, List.foldlM_append, foldlM_versions hversions]
  show [Action.range r, .andSet].foldlM Action.step s = _
  rw [List.foldlM_cons, hrange]
  obtain ⟨range, andSet, orSet⟩ := s
  cases andSet with
  | none => rfl
  | some vrAnd => rfl

theorem orSet_step (p : RangePair) (o : Option VersionRange) :
    Action.orSet.step ⟨none, some ⟨[p]⟩, o⟩ =
      .ok ⟨none, none, some ((o.getD .empty).orPair p)⟩ := by
  cases o with
  | none => rfl
  | some vr => rfl

theorem yields_one {r : Range} {p : RangePair} (hversions : ∀ t ∈ r.versions, t.fails = false)
    (hr : r.eval = .ok ⟨[p]⟩) : Yields [r] p := by
  intro o
  rw [List.flatMap_cons, List.flatMap_nil, List.append_nil, List.foldlM_append,
    foldlM_range hversions hr]
  show Action.orSet.step ⟨none, some ⟨[p]⟩, o⟩ >>= pure = _
  rw [orSet_step]
  rfl

theorem yields_two {r₁ r₂ : Range} {p₁ p₂ q : RangePair}
    (hversions₁ : ∀ t ∈ r₁.versions, t.fails = false) (hr₁ : r₁.eval = .ok ⟨[p₁]⟩)
    (hversions₂ : ∀ t ∈ r₂.versions, t.fails = false) (hr₂ : r₂.eval = .ok ⟨[p₂]⟩)
    (hand : p₁.and p₂ = some q) : Yields [r₁, r₂] q := by
  intro o
  have hmeet : (⟨[p₁]⟩ : VersionRange).and ⟨[p₂]⟩ = ⟨[q]⟩ := by
    rw [VersionRange.and, VersionRange.meets]
    simp [hand, VersionRange.orPair, VersionRange.addPair, VersionRange.empty]
  rw [List.flatMap_cons, List.flatMap_cons, List.flatMap_nil, List.append_nil, List.append_assoc,
    List.foldlM_append, foldlM_range hversions₁ hr₁]
  show (r₂.actions ++ [Action.orSet]).foldlM Action.step ⟨none, some ⟨[p₁]⟩, o⟩ = _
  rw [List.foldlM_append, foldlM_range hversions₂ hr₂]
  show Action.orSet.step ⟨none, some ((⟨[p₁]⟩ : VersionRange).and ⟨[p₂]⟩), o⟩ >>= pure = _
  rw [hmeet, orSet_step]
  rfl

/-! ## Comparisons -/

theorem make_eq_ok {v₁ v₂ : Version} {strong₁ strong₂ : Bool} {p : RangePair}
    (h : RangePair.make v₁ strong₁ v₂ strong₂ = .ok p) :
    p.first = ⟨v₁, strong₁⟩ ∧ p.second = ⟨v₂, strong₂⟩ := by
  unfold RangePair.make at h
  split at h
  · cases h
  · split at h
    · cases h
    · cases h
      exact ⟨rfl, rfl⟩

theorem exists_make {v₁ v₂ : Version} {strong₁ strong₂ : Bool}
    (h : ordered v₁ strong₁ v₂ strong₂ = true) :
    ∃ p, RangePair.make v₁ strong₁ v₂ strong₂ = .ok p ∧ p.first = ⟨v₁, strong₁⟩ ∧
      p.second = ⟨v₂, strong₂⟩ := by
  obtain ⟨p, hp⟩ := make_ok_iff.mpr h
  exact ⟨p, hp, make_eq_ok hp⟩

/-- The range of one pair. -/
theorem eval_of_pairs {range : Range} {q : RangePair} (h : range.pairs = .ok [q]) :
    range.eval = .ok ⟨[q]⟩ := by
  rw [Range.eval, h]
  rfl

theorem contains_single (q : RangePair) (w : Version) : (⟨[q]⟩ : VersionRange).contains w = q.contains w :=
  Bool.or_false _

theorem eval_compare {c : Comparison} {t : VersionText} {p : RangePair} (hfails : t.fails = false)
    (hpairs : comparePairs c t.whole = .ok [p]) : (Range.compare c t).eval = .ok ⟨[p]⟩ := by
  refine eval_of_pairs ?_
  rw [Range.pairs, t.value_eq, hfails]
  exact hpairs

/-- `>` or `>=` -/
theorem exists_lower {t : VersionText} (hfails : t.fails = false) (strong : Bool)
    (hmax : t.whole.lt .max = true) :
    ∃ p, (Range.compare (if strong then .gt else .ge) t).eval = .ok ⟨[p]⟩ ∧
      p.first = ⟨t.whole, strong⟩ ∧ p.second = ⟨.max, true⟩ := by
  have hordered : ordered t.whole strong .max true = true :=
    (ordered_strong_right t.whole .max strong).trans hmax
  obtain ⟨p, hp, hfirst, hsecond⟩ := exists_make hordered
  refine ⟨p, eval_compare hfails ?_, hfirst, hsecond⟩
  cases strong with
  | false =>
    show RangePair.make t.whole false .max true >>= _ = _
    rw [hp]
    rfl
  | true =>
    show RangePair.make t.whole true .max true >>= _ = _
    rw [hp]
    rfl

/-- `<` or `<=` -/
theorem exists_upper {t : VersionText} (hfails : t.fails = false) (strong : Bool)
    (hmin : Version.min.lt t.whole = true) :
    ∃ p, (Range.compare (if strong then .lt else .le) t).eval = .ok ⟨[p]⟩ ∧
      p.first = ⟨.min, true⟩ ∧ p.second = ⟨t.whole, strong⟩ := by
  have hordered : ordered .min true t.whole strong = true :=
    (ordered_strong_left .min t.whole strong).trans hmin
  obtain ⟨p, hp, hfirst, hsecond⟩ := exists_make hordered
  refine ⟨p, eval_compare hfails ?_, hfirst, hsecond⟩
  cases strong with
  | false =>
    show RangePair.make .min true t.whole false >>= _ = _
    rw [hp]
    rfl
  | true =>
    show RangePair.make .min true t.whole true >>= _ = _
    rw [hp]
    rfl

/-! ## The text of a pair -/

/-- A character of a version. -/
def isVersionChar (c : Char) : Bool := isWordChar c || c = '.' || c = '-'

theorem mem_intercalate {c : Char} {sep : Str} {l : List Str} (h : c ∈ sep.intercalate l) :
    c ∈ sep ∨ ∃ s ∈ l, c ∈ s := by
  induction l with
  | nil => cases h
  | cons s l ih =>
    cases l with
    | nil =>
      rw [List.intercalate_singleton] at h
      exact .inr ⟨s, List.mem_cons_self, h⟩
    | cons s' l =>
      rw [List.intercalate_cons_cons, List.mem_append, List.mem_append] at h
      rcases h with (h | h) | h
      · exact .inr ⟨s, List.mem_cons_self, h⟩
      · exact .inl h
      · exact (ih h).imp_right fun ⟨x, hx, hc⟩ => ⟨x, List.mem_cons_of_mem s hx, hc⟩

/-- Words with dots between them. -/
theorem isVersionChar_dotted {l : List Str} (hl : ∀ w ∈ l, IsWord w) :
    ∀ c ∈ ['.'].intercalate l, isVersionChar c = true := by
  intro c hc
  rcases mem_intercalate hc with hdot | ⟨w, hw, hcw⟩
  · rw [List.mem_singleton.mp hdot]
    rfl
  · rw [isVersionChar, (hl w hw).isWordChar c hcw]
    rfl

theorem Value.Clean.isWord {x : Value} (h : x.Clean) : IsWord x.print := by
  cases x with
  | string s => exact h.1
  | number n => exact (isWord_toStr h.1).1

theorem isVersionChar_toString {v : Version} (hv : v.Clean) (level : Nat) :
    ∀ c ∈ v.toString level, isVersionChar c = true := by
  rw [v.toString_eq]
  intro c hc
  rcases List.mem_append.mp hc with hc | hc
  · refine isVersionChar_dotted (fun w hw => ?_) c hc
    obtain ⟨n, hn, rfl⟩ := List.mem_map.mp hw
    rcases List.mem_append.mp hn with hn | hn
    · exact (isWord_toStr (hv.numbers n (List.mem_of_mem_take hn)).1).1
    · rw [List.eq_of_mem_replicate hn]
      exact (isWord_toStr le_rfl).1
  · split at hc
    · cases hc
    · rcases List.mem_cons.mp hc with rfl | hc
      · rfl
      · refine isVersionChar_dotted (fun w hw => ?_) c hc
        obtain ⟨x, hx, rfl⟩ := List.mem_map.mp hw
        exact (hv.extra x hx).isWord

theorem not_isBlank_of_isVersionChar {c : Char} (h : isVersionChar c = true) : isBlank c = false := by
  rw [isVersionChar, Bool.or_eq_true, Bool.or_eq_true, decide_eq_true_iff, decide_eq_true_iff] at h
  rcases h with (h | rfl) | rfl
  · exact not_isBlank_of_isWordChar h
  · rfl
  · rfl

/-- What is read is not empty. -/
theorem Reads.ne_nil {w : Str} {ts : List Token} {follow : Str → Prop} (h : Reads w ts follow)
    (hnil : follow []) (hts : ts ≠ []) : w ≠ [] := by
  rintro rfl
  exact hts (h.tokens_eq hnil).symm

theorem VersionTokens.ne_nil {v : VersionText} {ts : List Token} (h : VersionTokens v ts) : ts ≠ [] := by
  obtain ⟨t, us, rfl, -⟩ := h.begins
  exact List.cons_ne_nil _ _

/-- A character that is not stripped. -/
def isSolid (c : Char) : Bool := !isBlank c

/-- A text that nothing is stripped of. -/
structure Solid (s : Str) : Prop where
  begins : Begins isSolid s
  ends : Begins isSolid s.reverse

theorem Solid.append {s m t : Str} (hs : Solid s) (ht : Solid t) : Solid (s ++ (m ++ t)) where
  begins := hs.begins.append
  ends := by
    rw [List.reverse_append, List.reverse_append]
    exact ht.ends.append.append

/-- A symbol, and characters of a version. -/
theorem Solid.of_symbol {c : Char} {s : Str} (hc : isBlank c = false)
    (hs : ∀ d ∈ s, isBlank d = false) : Solid (c :: s) := by
  have hall : ∀ d ∈ c :: s, isSolid d = true := by
    intro d hd
    rw [isSolid, Bool.not_eq_true']
    rcases List.mem_cons.mp hd with rfl | hd
    · exact hc
    · exact hs d hd
  refine ⟨⟨c, s, rfl, hall c List.mem_cons_self⟩, ?_⟩
  cases hrev : (c :: s).reverse with
  | nil => exact absurd (List.reverse_eq_nil_iff.mp hrev) (List.cons_ne_nil _ _)
  | cons d u =>
    refine ⟨d, u, rfl, hall d ?_⟩
    rw [← List.mem_reverse, hrev]
    exact List.mem_cons_self

/-- **A comparison** that is printed. -/
theorem reads_compare {symbol : Str} {tok : Token} {c : Comparison} {v : Version}
    (hsymbol : Reads symbol [tok] (Stops (· = '='))) (htok : prefixRange tok = some (.compare c))
    (hv : v.Clean) (hnonzero : v.Nonzero) (level : Nat) :
    ∃ (t : VersionText) (ts : List Token), RangeTokens (.compare c t) ts ∧
      Reads (symbol ++ v.toString level) ts (Stops isWordChar) ∧ t.fails = false ∧ t.whole.key = v.key := by
  obtain ⟨t, ts, ht, hreads, hfails, hkey⟩ := exists_versionText hv hnonzero level
  refine ⟨t, [tok] ++ ts, .prefixed htok .empty ht, hsymbol.append hreads fun _ => ?_, hfails, hkey⟩
  -- the version does not begin with an equals sign
  obtain ⟨d, w, hw⟩ := List.exists_cons_of_ne_nil (hreads.ne_nil stops_nil ht.ne_nil)
  have hd : isVersionChar d = true := by
    refine isVersionChar_toString hv level d ?_
    rw [hw]
    exact List.mem_cons_self
  rw [hw]
  refine stops_cons (decide_eq_false ?_)
  rintro rfl
  revert hd
  decide

/-! ## Bounds -/

/-- The bounds that are not printed are those that a comparison has. -/
structure RangePair.Prints (p : RangePair) : Prop where
  left : p.first.v.gt .min = true ∨ p.first.v.eq .min = true ∧ p.first.strong = true
  right : p.second.v.lt .max = true ∨ p.second.v.eq .max = true ∧ p.second.strong = true

instance (p : RangePair) : Decidable p.Prints :=
  decidable_of_iff (_ ∧ _) ⟨fun h => ⟨h.1, h.2⟩, fun h => ⟨h.left, h.right⟩⟩

/-- `Version{}` ends below nothing. -/
theorem nonzero_of_min_lt {v : Version} (h : Version.min.key < v.key) : v.Nonzero := by
  rw [Version.Nonzero, Bool.eq_false_iff]
  intro heq
  rw [Version.eq_iff] at heq
  have hle : v.key ≤ (⟨v.numbers, []⟩ : Version).key := by
    rw [Version.key, Version.key, Prod.Lex.toLex_le_toLex]
    exact .inr ⟨rfl, le_top⟩
  rw [heq] at hle
  exact absurd h hle.not_gt

namespace RangePair

variable {p : RangePair}

theorem first_le_second (p : RangePair) : p.first.v.key ≤ p.second.v.key :=
  Side.key_le_of_left_le_right p.valid.le

theorem Prints.first_lt_max (h : p.Prints) : p.first.v.key < Version.max.key := by
  rcases h.right with hlt | ⟨heq, hstrong⟩
  · exact p.first_le_second.trans_lt ((Version.lt_iff _ _).mp hlt)
  · rw [← (Version.eq_iff _ _).mp heq]
    have hvalid := (Side.left_lt_right_iff _ _).mp p.valid
    rw [hstrong] at hvalid
    simpa using hvalid

theorem Prints.min_lt_second (h : p.Prints) : Version.min.key < p.second.v.key := by
  rcases h.left with hgt | ⟨heq, hstrong⟩
  · exact ((Version.gt_iff _ _).mp hgt).trans_le p.first_le_second
  · rw [← (Version.eq_iff _ _).mp heq]
    have hvalid := (Side.left_lt_right_iff _ _).mp p.valid
    rw [hstrong] at hvalid
    simpa using hvalid

theorem eq_iff (p q : RangePair) :
    p.eq q = true ↔ p.first.left = q.first.left ∧ p.second.left = q.second.left := by
  rw [eq, Bool.and_eq_true, Side.eq_iff, Side.eq_iff]

end RangePair

theorem left_congr {s : Side} {v : Version} (h : v.key = s.v.key) :
    (⟨v, s.strong⟩ : Side).left = s.left := by
  rw [Side.left, Side.left, h]

/-- A side that is not printed. -/
theorem left_of_eq {s : Side} {v : Version} (h : s.v.eq v = true) (hstrong : s.strong = true) :
    (⟨v, true⟩ : Side).left = s.left := by
  rw [Side.left, Side.left, (Version.eq_iff _ _).mp h, hstrong]

/-! ## One comparison -/

theorem Side.exists_level (s : Side) (t : StringRepresentationType) :
    ∃ level, s.toString t = s.v.toString level := by
  cases t with
  | sameDefaultLevel => exact ⟨_, rfl⟩
  | sameRealLevel => exact ⟨_, rfl⟩
  | individualRealLevel => exact ⟨_, rfl⟩

/-- A symbol, an equals sign if the side is closed, and the version. -/
theorem Side.solid_toString {s : Side} (hs : s.v.Clean) {c : Char} {eq : Str} (hc : isBlank c = false)
    (heq : ∀ d ∈ eq, isBlank d = false) (t : StringRepresentationType) :
    Solid (c :: (eq ++ s.toString t)) := by
  obtain ⟨level, hlevel⟩ := s.exists_level t
  refine Solid.of_symbol hc fun d hd => ?_
  rcases List.mem_append.mp hd with hd | hd
  · exact heq d hd
  · rw [hlevel] at hd
    exact not_isBlank_of_isVersionChar (isVersionChar_toString hs level d hd)

theorem not_isBlank_equals {strong : Bool} : ∀ d ∈ (if strong then [] else ['=']), isBlank d = false := by
  intro d hd
  cases strong with
  | false =>
    rw [List.mem_singleton.mp hd]
    rfl
  | true => cases hd

theorem forall_mem_versions {c : Comparison} {t : VersionText} (h : t.fails = false) :
    ∀ v ∈ (Range.compare c t).versions, v.fails = false := by
  intro v hv
  rw [List.mem_singleton.mp hv]
  exact h

/-- A simple range that is read of a text has one pair. -/
structure ReadsPair (s : Str) (r : Range) (ts : List Token) (q : RangePair) : Prop where
  solid : Solid s
  derives : RangeTokens r ts
  reads : Reads s ts (Stops isWordChar)
  versions : ∀ v ∈ r.versions, v.fails = false
  eval : r.eval = .ok ⟨[q]⟩

/-- What is printed of a left side. -/
theorem exists_readsPair_left {s : Side} (hs : s.v.Clean) (hmin : Version.min.key < s.v.key)
    (hmax : s.v.key < Version.max.key) (t : StringRepresentationType) :
    ∃ r ts q, ReadsPair ('>' :: ((if s.strong then [] else ['=']) ++ s.toString t)) r ts q ∧
      q.first.left = s.left ∧ q.second = ⟨.max, true⟩ := by
  obtain ⟨level, hlevel⟩ := s.exists_level t
  have hcompare : ∃ (v : VersionText) (ts : List Token),
      RangeTokens (.compare (if s.strong then .gt else .ge) v) ts ∧
      Reads ('>' :: ((if s.strong then [] else ['=']) ++ s.v.toString level)) ts (Stops isWordChar) ∧
      v.fails = false ∧ v.whole.key = s.v.key := by
    cases s.strong with
    | false => exact reads_compare (reads_ge.mono fun _ => trivial) rfl hs (nonzero_of_min_lt hmin) level
    | true => exact reads_compare reads_gt rfl hs (nonzero_of_min_lt hmin) level
  obtain ⟨v, ts, hts, hreads, hfails, hkey⟩ := hcompare
  have hlt : v.whole.lt .max = true := by
    rw [Version.lt_iff, hkey]
    exact hmax
  obtain ⟨q, hq, hfirst, hsecond⟩ := exists_lower hfails s.strong hlt
  refine ⟨_, ts, q, ⟨s.solid_toString hs rfl not_isBlank_equals t, hts, ?_, forall_mem_versions hfails, hq⟩,
    ?_, hsecond⟩
  · rw [hlevel]
    exact hreads
  · rw [hfirst]
    exact left_congr hkey

/-- What is printed of a right side. -/
theorem exists_readsPair_right {s : Side} (hs : s.v.Clean) (hmin : Version.min.key < s.v.key)
    (t : StringRepresentationType) :
    ∃ r ts q, ReadsPair ('<' :: ((if s.strong then [] else ['=']) ++ s.toString t)) r ts q ∧
      q.first = ⟨.min, true⟩ ∧ q.second.left = s.left := by
  obtain ⟨level, hlevel⟩ := s.exists_level t
  have hcompare : ∃ (v : VersionText) (ts : List Token),
      RangeTokens (.compare (if s.strong then .lt else .le) v) ts ∧
      Reads ('<' :: ((if s.strong then [] else ['=']) ++ s.v.toString level)) ts (Stops isWordChar) ∧
      v.fails = false ∧ v.whole.key = s.v.key := by
    cases s.strong with
    | false => exact reads_compare (reads_le.mono fun _ => trivial) rfl hs (nonzero_of_min_lt hmin) level
    | true => exact reads_compare reads_lt rfl hs (nonzero_of_min_lt hmin) level
  obtain ⟨v, ts, hts, hreads, hfails, hkey⟩ := hcompare
  have hlt : Version.min.lt v.whole = true := by
    rw [Version.lt_iff, hkey]
    exact hmin
  obtain ⟨q, hq, hfirst, hsecond⟩ := exists_upper hfails s.strong hlt
  refine ⟨_, ts, q, ⟨s.solid_toString hs rfl not_isBlank_equals t, hts, ?_, forall_mem_versions hfails, hq⟩,
    hfirst, ?_⟩
  · rw [hlevel]
    exact hreads
  · rw [hsecond]
    exact left_congr hkey

/-- One version, and both sides closed. -/
theorem exists_readsPair_eq {s : Side} (hs : s.v.Clean) (hmin : Version.min.key < s.v.key)
    (t : StringRepresentationType) :
    ∃ r ts q, ReadsPair ('=' :: s.toString t) r ts q ∧
      q.first.left = (⟨s.v, false⟩ : Side).left ∧ q.second.left = (⟨s.v, false⟩ : Side).left := by
  obtain ⟨level, hlevel⟩ := s.exists_level t
  obtain ⟨v, ts, hts, hreads, hfails, hkey⟩ :=
    reads_compare reads_eq rfl hs (nonzero_of_min_lt hmin) level
  have hordered : ordered v.whole false v.whole false = true := by
    rw [ordered, (Version.eq_iff _ _).mpr rfl]
    exact Bool.or_true _
  obtain ⟨q, hq, hfirst, hsecond⟩ := exists_make hordered
  have heval : comparePairs .eq v.whole = .ok [q] := by
    show RangePair.make v.whole false v.whole false >>= _ = _
    rw [hq]
    rfl
  have hsolid : Solid ('=' :: ([] ++ s.toString t)) :=
    s.solid_toString hs rfl (fun d hd => by cases hd) t
  refine ⟨_, ts, q, ⟨hsolid, hts, ?_, forall_mem_versions hfails, eval_compare hfails heval⟩, ?_, ?_⟩
  · rw [hlevel]
    exact hreads
  · rw [hfirst, Side.left, Side.left, hkey]
  · rw [hsecond, Side.left, Side.left, hkey]

/-! ## The whole pair -/

/-- Both sides, from the comparison of one and the comparison of the other. -/
theorem exists_and {p below above : RangePair} (habove : above.first.left = p.first.left)
    (hmax : above.second = ⟨.max, true⟩) (hmin : below.first = ⟨.min, true⟩)
    (hbelow : below.second.left = p.second.left) (hfirst : Version.min.key < p.first.v.key)
    (hsecond : p.second.v.key < Version.max.key) : ∃ q, above.and below = some q ∧ p.eq q = true := by
  have hf : (stdMax Side.lt above.first below.first).left = p.first.left := by
    rw [Side.left_stdMax, habove, hmin]
    refine max_eq_left (le_of_lt ?_)
    rw [Side.left, Side.left, Prod.Lex.toLex_lt_toLex]
    exact .inl hfirst
  have hs : (stdMin Side.lt above.second below.second).left = p.second.left := by
    rw [Side.left_stdMin, hbelow, hmax]
    refine min_eq_right (le_of_lt ?_)
    rw [Side.left, Side.left, Prod.Lex.toLex_lt_toLex]
    exact .inl hsecond
  have hvalid := p.valid
  rw [← hf, ← Side.right_congr hs] at hvalid
  refine ⟨⟨_, _, hvalid⟩, dif_pos ((Side.left_lt_right_iff _ _).mp hvalid), ?_⟩
  rw [RangePair.eq_iff]
  exact ⟨hf.symm, hs.symm⟩

/-- A text is derived as a set whose actions have the pair. -/
def ReadAs (s : Str) (p : RangePair) : Prop :=
  Solid s ∧ ∃ rs ts q, RangeSetAnd rs ts ∧ Reads s ts (Stops isWordChar) ∧ Yields rs q ∧ p.eq q = true

theorem ReadsPair.readAs {s : Str} {r : Range} {ts : List Token} {p q : RangePair}
    (h : ReadsPair s r ts q) (hpq : p.eq q = true) : ReadAs s p :=
  ⟨h.solid, [r], ts, q, .one h.derives, h.reads, yields_one h.versions h.eval, hpq⟩

/-- Two comparisons, with a space between them. -/
theorem ReadsPair.readAs_two {s s' : Str} {r r' : Range} {ts ts' : List Token} {p q q' w : RangePair}
    (h : ReadsPair s r ts q) (h' : ReadsPair ('<' :: s') r' ts' q') (hand : q.and q' = some w)
    (hpw : p.eq w = true) : ReadAs (s ++ [' '] ++ '<' :: s') p := by
  rw [List.append_assoc]
  refine ⟨h.solid.append h'.solid, [r, r'], ts ++ ([.space] ++ ts'), w,
    .more (.one h.derives) .space h'.derives, ?_,
    yields_two h.versions h.eval h'.versions h'.eval hand, hpw⟩
  refine h.reads.append (reads_space.append h'.reads fun _ => ?_) fun _ => ?_
  · exact stops_cons rfl
  · exact stops_cons rfl

/-- `*` -/
theorem readsPair_star {p : RangePair} (hleft : p.first.v.eq .min = true ∧ p.first.strong = true)
    (hright : p.second.v.eq .max = true ∧ p.second.strong = true) : ReadAs ['*'] p := by
  have hall : ∃ q, RangePair.make .min true .max true = .ok q ∧ q.first = ⟨.min, true⟩ ∧
      q.second = ⟨.max, true⟩ := exists_make (by decide)
  obtain ⟨q, hq, hfirst, hsecond⟩ := hall
  have heval : (Range.version star).eval = .ok ⟨[q]⟩ := by
    show (do return [← RangePair.make .min true .max true]) >>= _ = _
    rw [hq]
    rfl
  have hread : ReadsPair ['*'] (.version star) [.starNumber] q := by
    have hsolid : Solid ['*'] := Solid.of_symbol rfl fun d hd => by cases hd
    refine ⟨hsolid, .version (.basic (.one .star) rfl), reads_star.mono fun _ => trivial, ?_, heval⟩
    intro v hv
    rw [List.mem_singleton.mp hv]
    rfl
  refine hread.readAs ?_
  rw [RangePair.eq_iff, hfirst, hsecond]
  exact ⟨(left_of_eq hleft.1 hleft.2).symm, (left_of_eq hright.1 hright.2).symm⟩

/-- **A pair that is printed** is read again. -/
theorem RangePair.Prints.readAs {p : RangePair} (h : p.Prints) (hfirst : p.first.v.Clean)
    (hsecond : p.second.v.Clean) (t : StringRepresentationType) : ReadAs (p.toString t) p := by
  unfold RangePair.toString
  cases hleft : p.first.v.gt .min with
  | false =>
    have hleft' := h.left.resolve_left (Bool.eq_false_iff.mp hleft)
    cases hright : p.second.v.lt .max with
    | false => exact readsPair_star hleft' (h.right.resolve_left (Bool.eq_false_iff.mp hright))
    | true =>
      obtain ⟨r, ts, q, hread, hq, hq'⟩ := exists_readsPair_right hsecond h.min_lt_second t
      refine hread.readAs ((RangePair.eq_iff _ _).mpr ⟨?_, hq'.symm⟩)
      rw [hq]
      exact (left_of_eq hleft'.1 hleft'.2).symm
  | true =>
    have hmin := (Version.gt_iff _ _).mp hleft
    obtain ⟨r, ts, q, hread, hq, hq'⟩ := exists_readsPair_left hfirst hmin h.first_lt_max t
    cases hright : p.second.v.lt .max with
    | false =>
      have hright' := h.right.resolve_left (Bool.eq_false_iff.mp hright)
      simp only [Bool.and_false, Bool.false_and, if_true, if_false, Bool.false_eq_true, List.append_nil]
      refine hread.readAs ((RangePair.eq_iff _ _).mpr ⟨hq.symm, ?_⟩)
      rw [hq']
      exact (left_of_eq hright'.1 hright'.2).symm
    | true =>
      have hmax := (Version.lt_iff _ _).mp hright
      simp only [Bool.and_self, Bool.true_and, if_true]
      split
      · rename_i heq
        simp only [Bool.and_eq_true, Bool.not_eq_true'] at heq
        obtain ⟨⟨hclosed, hclosed'⟩, heq⟩ := heq
        obtain ⟨r, ts, q, hread, hq, hq'⟩ := exists_readsPair_eq hfirst hmin t
        refine hread.readAs ((RangePair.eq_iff _ _).mpr ⟨?_, ?_⟩)
        · rw [hq, Side.left, Side.left, hclosed]
        · rw [hq', Side.left, Side.left, hclosed', (Version.eq_iff _ _).mp heq]
      · obtain ⟨r', ts', q', hread', hbelow, hbelow'⟩ :=
          exists_readsPair_right hsecond h.min_lt_second t
        obtain ⟨w, hand, hw⟩ := exists_and hq hq' hbelow hbelow' hmin hmax
        exact hread.readAs_two hread' hand hw

end Primitives.Versions
