import Primitives.Versions.Accept
import Primitives.Versions.Parse

/-!
# The two readers of a version

A text that `Version(s)` accepts is read by the grammar of ranges too, behind an equals sign, and the range
is the one version (`construct_equals`). But the grammar has no extra part of a zero version, no blank
behind a hyphen, no number that `std::stoll` does not read, and no text of more than 32 K.
-/

set_option autoImplicit false

namespace Primitives.Versions

open Lib VersionRange

/-! ## Stripped texts -/

section Strip

variable {strip : Str → Str} {s : Str}

theorem rdropWhile_append_blanks {u suf : Str} (hu : Begins isSolid u.reverse)
    (hsuf : ∀ c ∈ suf, isBlank c = true) : (u ++ suf).rdropWhile isBlank = u := by
  obtain ⟨c, t, hc, hsolid⟩ := hu
  have hstop : Stops isBlank u.reverse := by
    rw [hc]
    exact stops_cons ((Bool.not_eq_true' _).mp hsolid)
  have hdrop : (suf.reverse ++ u.reverse).dropWhile isBlank = u.reverse := by
    have htake := takeWhile_of_stops (fun c hc => hsuf c (List.mem_reverse.mp hc)) hstop
    have happend := List.takeWhile_append_dropWhile (p := isBlank) (l := suf.reverse ++ u.reverse)
    rw [htake] at happend
    exact List.append_cancel_left happend
  rw [List.rdropWhile, List.reverse_append, hdrop, List.reverse_reverse]

/-- Blanks at both ends are stripped. -/
theorem Strips.eq_of_solid (h : Strips strip) {u pre suf : Str} (hu : Solid u)
    (hpre : ∀ c ∈ pre, isBlank c = true) (hsuf : ∀ c ∈ suf, isBlank c = true) :
    strip (pre ++ (u ++ suf)) = u := by
  have hdrop : (pre ++ (u ++ suf)).dropWhile isBlank = u ++ suf := by
    obtain ⟨c, t, rfl, hsolid⟩ := hu.begins
    rw [List.dropWhile_append_of_pos hpre]
    exact List.dropWhile_cons_of_neg (Bool.eq_false_iff.mp ((Bool.not_eq_true' _).mp hsolid))
  rw [h, hdrop, rdropWhile_append_blanks hu.ends hsuf]

/-- And nothing else. -/
theorem Strips.exists_blanks (h : Strips strip) (s : Str) : ∃ pre suf, s = pre ++ (strip s ++ suf) ∧
    (∀ c ∈ pre, isBlank c = true) ∧ ∀ c ∈ suf, isBlank c = true := by
  refine ⟨s.takeWhile isBlank, (s.dropWhile isBlank).rtakeWhile isBlank, ?_,
    fun c hc => List.mem_takeWhile_imp hc, fun c hc => List.mem_rtakeWhile_imp hc⟩
  rw [h, List.rdropWhile_append_rtakeWhile, List.takeWhile_append_dropWhile]

theorem Strips.solid (h : Strips strip) (hne : strip s ≠ []) : Solid (strip s) := by
  rw [h] at hne ⊢
  constructor
  · have hpre := List.rdropWhile_prefix isBlank (l := s.dropWhile isBlank)
    cases hd : s.dropWhile isBlank with
    | nil =>
      rw [hd] at hne
      exact absurd rfl hne
    | cons c t =>
      have hc : isBlank c = false := by
        have hhead := List.head?_dropWhile_not isBlank s
        rw [hd] at hhead
        simpa using hhead
      rw [hd] at hne hpre
      obtain ⟨d, u, hu⟩ := List.exists_cons_of_ne_nil hne
      rw [hu, List.cons_prefix_cons] at hpre
      refine ⟨d, u, hu, ?_⟩
      rw [hpre.1, isSolid, hc]
      rfl
  · have hlast := List.rdropWhile_last_not isBlank (s.dropWhile isBlank) hne
    obtain ⟨u, c, hu⟩ := (List.eq_nil_or_concat' _).resolve_left hne
    refine ⟨c, u.reverse, by rw [hu, List.reverse_append]; rfl, ?_⟩
    have hc : isBlank c = false := by
      simpa [hu] using hlast
    rw [isSolid, hc]
    rfl

end Strip

/-! ## Reading the version -/

/-- The numbers, as a list of what the lexer reads. -/
theorem NumbersOf.reads {s : Str} {ws : Strings} {ns : List Int} (h : NumbersOf s ws ns) :
    ∃ (numbers : List Number) (ts : List Token), numbers.filterMap Number.value? = ns ∧
      SepBy NumberText Dot numbers ts ∧ Reads s ts (Stops isWordChar) := by
  obtain ⟨rfl, hmax⟩ := h.eq_map
  obtain ⟨hne, hparts, rfl, -⟩ := h
  lift ws to List {w : Str // IsPart isDigit w ∧ decimal w ≤ int64Max} using
    fun w hw => ⟨hparts w hw, hmax w hw⟩
  let number (w : {w : Str // IsPart isDigit w ∧ decimal w ≤ int64Max}) : Number :=
    .number (decimal w.1) w.2.2
  have hws : ws ≠ [] := by
    rintro rfl
    exact hne rfl
  have hreads : ∃ ts, SepBy NumberText Dot (ws.map number) ts ∧
      Reads (['.'].intercalate (ws.map Subtype.val)) ts (Stops isWordChar) :=
    reads_dotted hws fun w _ => ⟨_, .number w.1 w.2.2, reads_digits w.2.1.ne_nil fun c hc =>
      isDigit_mem (w.2.1.isPart c hc)⟩
  obtain ⟨ts, hts, hreads⟩ := hreads
  refine ⟨ws.map number, ts, ?_, hts, hreads⟩
  have hvalue : Number.value? ∘ number = some ∘ fun w => ((decimal w.1 : ℕ) : Int) := rfl
  rw [List.filterMap_map, hvalue, List.filterMap_eq_map, List.map_map]
  rfl

/-- A word of an extra part. -/
theorem reads_extraValue {w : Str} (hw : IsPart isWordChar w)
    (hdigits : ∀ ds, extraValue w = .string ds → ¬ ∀ c ∈ ds, c ∈ digitChars) :
    ∃ t, ExtraPart (extraValue w) [t] ∧ Reads w [t] (Stops isWordChar) := by
  by_cases hnumber : (w.all isDigit && decide (decimal w ≤ int64Max)) = true
  · have hval : extraValue w = .number (decimal w) := if_pos hnumber
    obtain ⟨hall, hle⟩ := (Bool.and_eq_true _ _).mp hnumber
    rw [hval]
    refine ⟨_, .number w (of_decide_eq_true hle), reads_digits hw.ne_nil fun c hc => ?_⟩
    exact isDigit_mem (List.all_eq_true.mp hall c hc)
  · have hval : extraValue w = .string w := if_neg hnumber
    have hclean : (Value.string w).Clean := ⟨⟨hw.ne_nil, hw.isPart⟩, hdigits w hval⟩
    obtain ⟨t, ht, hreads⟩ := hclean.reads
    rw [hval]
    exact ⟨t, ht, hreads⟩

theorem ExtraOf.reads {s : Str} {us : Strings} {e : Extra} (h : ExtraOf s us e)
    (hdigits : ∀ ds, .string ds ∈ e → ¬ ∀ c ∈ ds, c ∈ digitChars) :
    ∃ ts, SepBy ExtraPart Dot e ts ∧ Reads s ts (Stops isWordChar) := by
  obtain ⟨hne, hparts, rfl, hvalues⟩ := h
  have he : e = us.map extraValue := by
    clear hne hparts hdigits
    induction hvalues with
    | nil => rfl
    | cons hv hvs ih =>
      cases hv
      exact congrArg _ ih
  have hreads : ∃ ts, SepBy ExtraPart Dot (us.map extraValue) ts ∧
      Reads (['.'].intercalate (us.map id)) ts (Stops isWordChar) :=
    reads_dotted hne fun w hw =>
      reads_extraValue (hparts w hw) fun ds hds => hdigits ds (he ▸ hds ▸ List.mem_map_of_mem hw)
  rwa [List.map_id, ← he] at hreads

/-- **A version that was read** is derived by the grammar, if its extra part has no number that is too long
and no blanks before it. -/
theorem VersionOf.reads {strip : Str → Str} {s : Str} {v : Version} (h : VersionOf strip s v)
    (hdigits : ∀ ds, .string ds ∈ v.extra → ¬ ∀ c ∈ ds, c ∈ digitChars)
    (hextra : ∀ text es, s = text ++ '-' :: es → strip es = es) :
    ∃ (t : VersionText) (ts : List Token), VersionTokens t ts ∧ Reads s ts (Stops isWordChar) ∧
      t.whole = v := by
  cases h with
  | numbers hns =>
    obtain ⟨numbers, ts, rfl, hts, hreads⟩ := NumbersOf.reads hns
    exact ⟨⟨numbers, hts.ne_nil, []⟩, ts, .basic hts rfl, hreads, rfl⟩
  | @extra text es ws us ns e hns hlen hne he helen =>
    obtain ⟨numbers, ts, rfl, hts, hreads⟩ := NumbersOf.reads hns
    rw [hextra text es rfl] at he
    obtain ⟨vs, hvs, hreads'⟩ := ExtraOf.reads he hdigits
    refine ⟨⟨numbers, hts.ne_nil, e⟩, ts ++ .hyphen :: vs, .extra hts hvs, ?_, rfl⟩
    exact hreads.append (reads_hyphen.append hreads' fun _ => trivial) fun _ => stops_cons (by decide)

/-- Blanks before a text are one token, or none. -/
theorem reads_spaced {pre : Str} (hpre : ∀ c ∈ pre, isBlank c = true) : ∃ sp, SpaceOrEmpty () sp ∧
    ∀ {w : Str} {ts : List Token} {follow : Str → Prop}, Begins isSolid w → Reads w ts follow →
      Reads (pre ++ w) (sp ++ ts) follow := by
  by_cases hnil : pre = []
  · refine ⟨[], .empty, fun _ h => ?_⟩
    rw [hnil]
    exact h
  · refine ⟨[.space], .space, fun hw h => (reads_blanks hnil hpre).append h fun _ => ?_⟩
    obtain ⟨c, w, rfl, hc⟩ := hw
    exact stops_cons ((Bool.not_eq_true' _).mp hc)

/-! ## The equals sign -/

/-- The range of one version. -/
theorem eval_equals {t : VersionText} (hfails : t.fails = false) :
    ∃ r, (Range.compare .eq t).eval = .ok r ∧ ∀ w, r.contains w = w.eq t.whole := by
  have hordered : ordered t.whole false t.whole false = true := by
    rw [ordered, (Version.eq_iff _ _).mpr rfl]
    exact Bool.or_true _
  obtain ⟨q, hq, hfirst, hsecond⟩ := exists_make hordered
  have hpairs : comparePairs .eq t.whole = .ok [q] := by
    show RangePair.make t.whole false t.whole false >>= _ = _
    rw [hq]
    rfl
  refine ⟨⟨[q]⟩, eval_compare hfails hpairs, fun w => ?_⟩
  rw [contains_single, RangePair.contains, hfirst, hsecond, Bool.eq_iff_iff, Bool.and_eq_true]
  show t.whole.le w = true ∧ t.whole.ge w = true ↔ _
  rw [Version.le_iff, Version.ge_iff, Version.eq_iff, le_antisymm_iff, and_comm]

theorem NumbersOf.begins {s : Str} {ws : Strings} {ns : List Int} (h : NumbersOf s ws ns) :
    Begins isDigit s := by
  obtain ⟨c, t, rfl⟩ := List.exists_cons_of_ne_nil h.ne_empty
  obtain ⟨w, ws, rfl⟩ := List.exists_cons_of_ne_nil h.ne_nil
  have hw := h.parts w List.mem_cons_self
  obtain ⟨d, u, rfl⟩ := List.exists_cons_of_ne_nil hw.ne_nil
  refine ⟨c, t, rfl, ?_⟩
  have hcd : c = d := by
    have htext := h.text
    cases ws with
    | nil =>
      rw [List.intercalate_singleton] at htext
      exact (List.cons.inj htext).1
    | cons w' ws =>
      rw [intercalate_cons_of_ne_nil (List.cons_ne_nil _ _)] at htext
      exact (List.cons.inj htext).1
  rw [hcd]
  exact hw.isPart d List.mem_cons_self

theorem VersionOf.begins {strip : Str → Str} {s : Str} {v : Version} (h : VersionOf strip s v) :
    Begins isDigit s := by
  cases h with
  | numbers h => exact NumbersOf.begins h
  | extra h => exact (NumbersOf.begins h).append

/-- Behind an equals sign the blanks before a text stay. -/
theorem Strips.equals {strip : Str → Str} (h : Strips strip) {s pre suf : Str} (hne : strip s ≠ [])
    (hs : s = pre ++ (strip s ++ suf)) (hsuf : ∀ c ∈ suf, isBlank c = true) :
    strip ('=' :: s) = '=' :: (pre ++ strip s) := by
  have hsolid : Solid ('=' :: (pre ++ strip s)) := by
    refine ⟨⟨_, _, rfl, rfl⟩, ?_⟩
    rw [← List.cons_append, List.reverse_append]
    exact (h.solid hne).ends.append
  have hstrip := h.eq_of_solid hsolid (List.forall_mem_nil _) hsuf
  rw [List.nil_append, List.cons_append, List.append_assoc, ← hs] at hstrip
  exact hstrip

section

variable {o : Outside} {s : Str} {v : Version}

/-- Nothing is stripped of what stands behind a hyphen, if no blank does. -/
theorem Strips.eq_behind {strip : Str → Str} (hstrip : Strips strip) (hne : strip s ≠ [])
    (hblank : ∀ b ∈ blanks, ¬ ['-', b] <:+: s) {text es : Str} (h : strip s = text ++ '-' :: es) :
    strip es = es := by
  obtain ⟨pre, suf, hs, -, -⟩ := hstrip.exists_blanks s
  cases es with
  | nil => exact hstrip.eq_self (List.forall_mem_nil _)
  | cons b es =>
    have hb : isBlank b = false := by
      rw [isBlank, Bool.eq_false_iff]
      intro hmem
      refine hblank b (List.contains_iff_mem.mp hmem) ⟨pre ++ text, es ++ suf, ?_⟩
      rw [hs, h]
      simp
    -- it ends where the text does
    have hends := (hstrip.solid hne).ends
    rw [h, List.append_cons, List.reverse_append] at hends
    have hself : Solid (b :: es) := by
      refine ⟨⟨b, es, rfl, (Bool.not_eq_true' _).mpr hb⟩, ?_⟩
      obtain ⟨d, t, ht⟩ := List.exists_cons_of_ne_nil
        (List.reverse_ne_nil_iff.mpr (List.cons_ne_nil b es))
      rw [ht] at hends ⊢
      obtain ⟨d', t', heq, hd⟩ := hends
      exact ⟨d, t, rfl, (List.cons.inj heq).1 ▸ hd⟩
    have hall := hstrip.eq_of_solid hself (List.forall_mem_nil _) (List.forall_mem_nil _)
    rwa [List.nil_append, List.append_nil] at hall

/-- The text that the grammar reads, and its version. -/
theorem exists_equals_tokens (hstrip : Strips o.strip) (hv : Version.ofString o.strip s = .ok v)
    (hdigits : ∀ ds, .string ds ∈ v.extra → ¬ ∀ c ∈ ds, c ∈ digitChars)
    (hblank : ∀ b ∈ blanks, ¬ ['-', b] <:+: s) :
    ∃ t : VersionText, RangeTokens (.compare .eq t) (tokens (o.strip ('=' :: s))) ∧ t.whole = v := by
  have hread := Version.ofString_iff.mp hv
  have hbegins := hread.begins
  have hne : o.strip s ≠ [] := by
    obtain ⟨c, t, heq, -⟩ := hbegins
    rw [heq]
    exact List.cons_ne_nil _ _
  have hsolid := hstrip.solid hne
  obtain ⟨pre, suf, hs, hpre, hsuf⟩ := hstrip.exists_blanks s
  obtain ⟨t, ts, ht, hreads, rfl⟩ := hread.reads hdigits fun _ _ => hstrip.eq_behind hne hblank
  obtain ⟨sp, hsp, hspaced⟩ := reads_spaced hpre
  have htext : Reads (['='] ++ (pre ++ o.strip s)) ([.eq] ++ (sp ++ ts)) (Stops isWordChar) := by
    refine reads_eq.append (hspaced hsolid.begins hreads) fun _ => ?_
    -- no second equals sign
    cases pre with
    | nil =>
      obtain ⟨c, t, heq, hc⟩ := hbegins
      rw [heq]
      refine stops_cons (decide_eq_false ?_)
      rintro rfl
      cases hc
    | cons c pre =>
      refine stops_cons (decide_eq_false ?_)
      rintro rfl
      cases hpre '=' List.mem_cons_self
  have htokens := htext.tokens_eq stops_nil
  have hderives : RangeTokens (.compare .eq t) (.eq :: (sp ++ ts)) := .prefixed rfl hsp ht
  refine ⟨t, ?_, rfl⟩
  rw [hstrip.equals hne hs hsuf]
  exact htokens ▸ hderives

theorem VersionText.fails_eq_false {t : VersionText} (h : t.whole.Nonzero) : t.fails = false := by
  rw [fails, Bool.and_eq_false_iff]
  exact .inr h

end

/-- **The two readers agree** on a version whose numbers are not all 0, if there is no number in its extra
part that is too long, no blank behind a hyphen and no more than 32 K of text. -/
theorem construct_equals (o : Outside) (h : o.Generated) (hstrip : Strips o.strip) (s : Str) (v : Version)
    (hv : Version.ofString o.strip s = .ok v) (hnonzero : v.Nonzero)
    (hdigits : ∀ ds, .string ds ∈ v.extra → ¬ ∀ c ∈ ds, c ∈ digitChars)
    (hblank : ∀ b ∈ blanks, ¬ ['-', b] <:+: s) (hlen : (o.strip ('=' :: s)).length ≤ 32 * 1024) :
    ∃ r, construct o ('=' :: s) = .ok r ∧ ∀ w, r.contains w = w.eq v := by
  obtain ⟨t, hrange, rfl⟩ := exists_equals_tokens hstrip hv hdigits hblank
  have hfails := VersionText.fails_eq_false hnonzero
  obtain ⟨r, hr, hcontains⟩ := eval_equals hfails
  exact ⟨r, (construct_range_iff h hrange).mpr ⟨hlen, forall_mem_versions hfails, hr⟩, hcontains⟩

/-- ` 01.2-rc` -/
theorem construct_equals_rc :
    ∃ r, construct derivation "= 01.2-rc".toList = .ok r ∧
      ∀ w, r.contains w = w.eq ⟨[1, 2], [.string "rc".toList]⟩ := by
  have hblank : blanks.all (fun b => !decide (['-', b] <:+: " 01.2-rc".toList)) = true := by decide
  refine construct_equals derivation generated_derivation (fun _ => rfl) " 01.2-rc".toList _ rfl rfl
    ?_ (fun b hb => ?_) (by decide)
  · intro ds hds hall
    cases List.mem_singleton.mp hds
    have hno : "rc".toList.all digitChars.contains = false := by decide
    rw [all_contains.mpr hall] at hno
    cases hno
  · have hno := List.all_eq_true.mp hblank b hb
    rw [Bool.not_eq_true', decide_eq_false_iff_not] at hno
    exact hno

/-! ## Where they do not agree -/

/-- The text of an extra part of a version without numbers that are not 0. -/
theorem construct_zero_extra {o : Outside} (h : o.Generated) (hstrip : Strips o.strip) {s : Str} {v : Version}
    (hv : Version.ofString o.strip s = .ok v) (hextra : v.extra ≠ []) (hzero : ¬ v.Nonzero)
    (hdigits : ∀ ds, .string ds ∈ v.extra → ¬ ∀ c ∈ ds, c ∈ digitChars)
    (hblank : ∀ b ∈ blanks, ¬ ['-', b] <:+: s) : ∃ f, construct o ('=' :: s) = .error f := by
  obtain ⟨t, hrange, rfl⟩ := exists_equals_tokens hstrip hv hdigits hblank
  have hfails : t.fails = true := by
    have hne : t.extra.isEmpty = false := List.isEmpty_eq_false_iff.mpr hextra
    rw [VersionText.fails, hne]
    exact Bool.not_eq_false _ ▸ hzero
  refine (construct_error_iff h (.one (.one hrange))).mpr (.inr ?_)
  show (Action.version t :: _).all Action.quiet = false
  rw [List.all_cons, Action.quiet, hfails]
  rfl

/-- A version does not end with a hyphen. -/
theorem not_versionTokens_hyphen {v : VersionText} {digits : Str} :
    ¬ VersionTokens v [.number digits, .hyphen] := by
  intro h
  generalize hts : [Token.number digits, .hyphen] = ts at h
  cases h with
  | basic h =>
    have hno : ∀ t ∈ ts, t ≠ .hyphen := by
      refine h.forall_token (fun hn => ?_) fun hd => ?_
      · cases hn with
        | number => simp
        | x => simp
        | star => simp
      · cases hd
        simp
    exact hno .hyphen (by simp [← hts]) rfl
  | extra h hextra =>
    obtain ⟨t, ts, rfl, -⟩ := h.begins (p := fun _ => true) fun hn => by
      obtain ⟨t, rfl, -⟩ := hn.exists_token
      exact ⟨t, [], rfl, rfl⟩
    obtain ⟨u, us, rfl, -⟩ := hextra.begins (p := fun _ => true) fun he => by
      obtain ⟨t, rfl, -⟩ := he.exists_token
      exact ⟨t, [], rfl, rfl⟩
    have hlen := congrArg List.length hts
    simp only [List.length_append, List.length_cons, List.length_nil] at hlen
    omega

/-- A blank behind a hyphen that has none before it is in no range. -/
theorem not_rangeTokens_blank {r : Range} {digits name : Str} {us rest : List Token} (h : RangeTokens r us)
    (hrest : Stops Token.isVersion rest) :
    us ++ rest ≠ [.eq, .number digits, .hyphen, .space, .string name] := by
  intro heq
  cases h.kind with
  | @prefixed t f v sp ts ht hsp hv =>
    obtain ⟨rfl, htail⟩ := List.cons.inj heq
    cases hsp with
    | empty =>
      have hts := takeWhile_of_stops hv.isVersion hrest
      have htail : ts ++ rest = [.number digits, .hyphen, .space, .string name] := htail
      rw [htail] at hts
      exact not_versionTokens_hyphen (hts ▸ hv)
    | space =>
      have hspace := (List.cons.inj htail).1
      cases hspace
  | interval hb hc hx hy hrange =>
    obtain ⟨rfl, -⟩ := List.cons.inj heq
    cases hb
  | version hv hmore =>
    obtain ⟨t, ts, rfl, ht⟩ := hv.begins
    obtain ⟨rfl, -⟩ := List.cons.inj heq
    cases ht

theorem not_file_of_blank (digits name : Str) :
    ¬ ∃ sets, File sets [.eq, .number digits, .hyphen, .space, .string name] := by
  rintro ⟨sets, hfile⟩
  rcases SepBy.cases_first hfile with ⟨rs, -, hset⟩ | ⟨rs, more, us, vs, ws, -, heq, -, hor, -⟩
  · rcases SepBy.cases_first hset with ⟨r, -, hr⟩ | ⟨r, more, us, vs, ws, -, heq, hr, hand, -⟩
    · exact not_rangeTokens_blank hr stops_nil (List.append_nil _)
    · obtain ⟨t, vs, rfl⟩ := List.exists_cons_of_ne_nil hand.ne_nil
      have ht := hand.isSeparator t List.mem_cons_self
      refine not_rangeTokens_blank hr (stops_cons ?_) heq.symm
      cases t <;> first | rfl | cases ht
  · have hmem : .or ∈ us ++ (vs ++ ws) := List.mem_append_right _ (List.mem_append_left _ hor.mem)
    rw [← heq] at hmem
    simp at hmem

/-- Spaces before a version, and before it behind an equals sign. -/
theorem strip_spaces (n : ℕ) : derivation.strip (List.replicate n ' ' ++ ['1']) = ['1'] ∧
    (derivation.strip ('=' :: (List.replicate n ' ' ++ ['1']))).length = n + 2 := by
  have hstrips : Strips derivation.strip := fun _ => rfl
  have hspaces : ∀ c ∈ List.replicate n ' ', isBlank c = true := by
    intro c hc
    rw [List.eq_of_mem_replicate hc]
    rfl
  have hone : derivation.strip (List.replicate n ' ' ++ (['1'] ++ [])) = ['1'] :=
    hstrips.eq_of_solid ⟨⟨_, _, rfl, rfl⟩, ⟨_, _, rfl, rfl⟩⟩ hspaces (List.forall_mem_nil _)
  rw [List.append_nil] at hone
  have hs : List.replicate n ' ' ++ ['1'] =
      List.replicate n ' ' ++ (derivation.strip (List.replicate n ' ' ++ ['1']) ++ []) := by
    rw [hone, List.append_nil]
  have hne : derivation.strip (List.replicate n ' ' ++ ['1']) ≠ [] := by
    rw [hone]
    exact List.cons_ne_nil _ _
  refine ⟨hone, ?_⟩
  rw [hstrips.equals hne hs (List.forall_mem_nil _), hone, List.length_cons, List.length_append,
    List.length_replicate]
  rfl

/-- An extra part of a zero version, a number that is too long, a blank behind the hyphen, and 32 K of
blanks: `Version(s)` accepts all of them. -/
theorem construct_equals_rejects : ∃ o : Outside, o.Generated ∧ Strips o.strip ∧
    ∀ s ∈ ["0-a".toList, "1-99999999999999999999".toList, "1- a".toList,
        List.replicate (32 * 1024) ' ' ++ ['1']],
      ∃ v, Version.ofString o.strip s = .ok v ∧ v.eq .min = false ∧ ∃ f, construct o ('=' :: s) = .error f := by
  have hstrips : Strips derivation.strip := fun _ => rfl
  refine ⟨derivation, generated_derivation, hstrips, ?_⟩
  have hequals : Reads ['=', '1'] [.eq, .number ['1']] (Stops isWordChar) := reads_numeral reads_eq rfl
  rw [List.forall_mem_cons, List.forall_mem_cons, List.forall_mem_cons, List.forall_mem_singleton]
  refine ⟨⟨⟨[0], [.string ['a']]⟩, rfl, rfl, ?_⟩, ⟨⟨[1], [.string "99999999999999999999".toList]⟩, rfl, rfl, ?_⟩,
    ⟨⟨[1], [.string ['a']]⟩, rfl, rfl, ?_⟩, ⟨⟨[1], []⟩, ?_, rfl, ?_⟩⟩
  · -- the action of `version` refuses an extra part of version 0
    have hblank : blanks.all (fun b => !decide (['-', b] <:+: "0-a".toList)) = true := by decide
    refine construct_zero_extra generated_derivation hstrips (v := ⟨[0], [.string ['a']]⟩) rfl
      (List.cons_ne_nil _ _) (fun h => by cases h) ?_ fun b hb => ?_
    · intro ds hds hall
      cases List.mem_singleton.mp hds
      have hno : ['a'].all digitChars.contains = false := by decide
      rw [all_contains.mpr hall] at hno
      cases hno
    · have hno := List.all_eq_true.mp hblank b hb
      rw [Bool.not_eq_true', decide_eq_false_iff_not] at hno
      exact hno
  · -- `std::stoll` throws on a number that is too long
    refine construct_error_of_not_file generated_derivation (fun h => by cases h) ?_
    rintro ⟨sets, hfile⟩
    have hnumber : Reads "99999999999999999999".toList [.number "99999999999999999999".toList]
        (Stops isWordChar) := reads_digits (by decide) (all_contains.mp (by decide))
    have hreads := hequals.append (reads_hyphen.append hnumber fun _ => trivial) fun _ => stops_cons rfl
    have htokens := hreads.tokens_eq stops_nil
    have hfits := file_fits hfile (.number "99999999999999999999".toList) ?_ _ rfl
    · exact absurd hfits (by decide)
    · show _ ∈ tokens (['=', '1'] ++ (['-'] ++ "99999999999999999999".toList))
      rw [htokens]
      exact List.mem_append_right _ (List.mem_append_right _ (List.mem_singleton_self _))
  · -- the grammar has no blank behind a hyphen
    refine construct_error_of_not_file generated_derivation (fun h => by cases h) ?_
    have hname : Reads ['a'] [.string ['a']] (Stops isWordChar) := by
      have hword : IsWord ['a'] := ⟨List.cons_ne_nil _ _, List.forall_mem_singleton.mpr rfl⟩
      have hinitial : (['a'].head?.any initialChars.contains) = true := rfl
      have hreads := reads_word hword
      rwa [wordRule, if_neg (by simp), if_neg (by decide), if_pos hinitial] at hreads
    have hreads := hequals.append (reads_hyphen.append (reads_space.append hname fun _ => stops_cons rfl)
      fun _ => trivial) fun _ => stops_cons rfl
    have htokens := hreads.tokens_eq stops_nil
    show ¬ ∃ sets, File sets (tokens (['=', '1'] ++ (['-'] ++ ([' '] ++ ['a']))))
    rw [htokens]
    exact not_file_of_blank _ _
  · rw [Version.ofString, (strip_spaces _).1]
    rfl
  · refine construct_error_of_long ?_
    rw [(strip_spaces _).2]
    exact Nat.lt_add_of_pos_right (Nat.zero_lt_succ 1)

end Primitives.Versions
