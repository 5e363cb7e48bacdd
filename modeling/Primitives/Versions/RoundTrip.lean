import Primitives.Versions.Clean
import Primitives.Versions.Sorted
import Primitives.Versions.Hash

/-!
# The round trip of ranges

The pairs of a range are printed one after the other, and united again one after the other. If they are
apart, and in order, that gives them as they were, so a range that was read is read again from what is
printed of it (`toString_parses`). A bound that is closed at `min()` or at `max()` is not printed, and so
it is lost.
-/

set_option autoImplicit false

namespace Primitives.Versions

open Lib VersionRange

/-! ## Printing pairs -/

/-- `||` stands between the pairs. -/
theorem VersionRange.toString_eq (r : VersionRange) (t : StringRepresentationType) :
    r.toString t = " || ".toList.intercalate (r.range.map (·.toString t)) := by
  have hflat : ∀ l : List RangePair, l ≠ [] → (l.flatMap fun p => p.toString t ++ " || ".toList) =
      " || ".toList.intercalate (l.map (·.toString t)) ++ " || ".toList := by
    intro l
    induction l with
    | nil => exact fun h => absurd rfl h
    | cons p l ih =>
      intro _
      cases l with
      | nil => simp
      | cons q l =>
        have htail := ih (List.cons_ne_nil q l)
        rw [List.map_cons] at htail
        rw [List.flatMap_cons, htail, List.map_cons, List.map_cons, List.intercalate_cons_cons,
          List.append_assoc _ _ (" || ".toList)]
  rw [toString]
  by_cases h : r.range = []
  · rw [h]
    rfl
  · rw [hflat _ h, List.length_append]
    exact List.take_left

theorem reads_or_between {ts : List Token} {s : Str} (h : Reads s ts (Stops isWordChar))
    (hs : Begins isSolid s) :
    Reads (" || ".toList ++ s) ([.space, .or, .space] ++ ts) (Stops isWordChar) := by
  obtain ⟨c, w, rfl, hc⟩ := hs
  have hspace : Reads ([' '] ++ c :: w) ([.space] ++ ts) (Stops isWordChar) := by
    refine reads_space.append h fun _ => ?_
    exact stops_cons ((Bool.not_eq_true' _).mp hc)
  exact reads_space.append (reads_or.append hspace fun _ => trivial) fun _ => stops_cons rfl

/-- The sets of a text, and their pairs. -/
theorem exists_file {ps : List RangePair} (hne : ps ≠ []) (text : RangePair → Str)
    (h : ∀ p ∈ ps, ReadAs (text p) p) :
    Solid (" || ".toList.intercalate (ps.map text)) ∧ ∃ sets ts qs, File sets ts ∧
      Reads (" || ".toList.intercalate (ps.map text)) ts (Stops isWordChar) ∧
      List.Forall₂ Yields sets qs ∧ List.Forall₂ (fun p q => p.eq q = true) ps qs := by
  induction ps with
  | nil => exact absurd rfl hne
  | cons p ps ih =>
    obtain ⟨hsolid, rs, ts, q, hderives, hreads, hyields, hpq⟩ := h p List.mem_cons_self
    cases ps with
    | nil =>
      rw [List.map_singleton, List.intercalate_singleton]
      exact ⟨hsolid, [rs], ts, [q], .one hderives, hreads, .cons hyields .nil, .cons hpq .nil⟩
    | cons p' ps =>
      obtain ⟨hsolid', sets, us, qs, hfile, hreads', hyields', heq⟩ :=
        ih (List.cons_ne_nil _ _) fun p hp => h p (List.mem_cons_of_mem _ hp)
      rw [List.map_cons, List.map_cons, List.intercalate_cons_cons, List.append_assoc, ← List.map_cons]
      have hor : Or () [.space, .or, .space] := .or .space .space
      refine ⟨hsolid.append hsolid', rs :: sets, ts ++ ([.space, .or, .space] ++ us), q :: qs,
        hfile.cons hderives hor, ?_, .cons hyields hyields', .cons hpq heq⟩
      refine hreads.append (reads_or_between hreads' hsolid'.begins) fun _ => ?_
      exact stops_cons rfl

/-! ## Uniting pairs -/

/-- The actions of the sets unite their pairs. -/
theorem foldlM_actions {sets : List (List Range)} {qs : List RangePair}
    (h : List.Forall₂ Yields sets qs) (vr : VersionRange) :
    (actions sets).foldlM Action.step ⟨none, none, some vr⟩ =
      .ok ⟨none, none, some (qs.foldl orPair vr)⟩ := by
  induction h generalizing vr with
  | nil => rfl
  | cons hq hqs ih =>
    rw [actions, List.flatMap_cons, List.foldlM_append, hq]
    exact ih _

theorem parseActions_actions {sets : List (List Range)} {qs : List RangePair}
    (h : List.Forall₂ Yields sets qs) (hne : qs ≠ []) :
    parseActions (actions sets) = .ok ⟨none, none, some (qs.foldl orPair .empty)⟩ := by
  cases h with
  | nil => exact absurd rfl hne
  | cons hq hqs =>
    rw [parseActions, actions, List.flatMap_cons, List.foldlM_append, Sets.init, hq]
    exact foldlM_actions hqs _

/-- A pair behind all others is added at the end. -/
theorem addPair_behind {rhs : RangePair} {l : List RangePair} (hl : Apart l)
    (h : ∀ p ∈ l, p.right < rhs.left) : addPair rhs l = l ++ [rhs] := by
  induction l with
  | nil => rfl
  | cons i rest ih =>
    obtain ⟨hi, hrest⟩ := List.pairwise_cons.mp hl
    obtain ⟨hbehind, hbehind'⟩ := List.forall_mem_cons.mp h
    rw [addPair]
    split
    · rw [ih hrest hbehind']
      rfl
    · rename_i hno
      have hle : i.first.v.key ≤ rhs.second.v.key :=
        Side.key_le_of_left_le_right ((i.left_lt_right.trans hbehind).trans rhs.left_lt_right).le
      rw [if_neg ((Version.gt_iff _ _).not.mpr hle.not_gt),
        (RangePair.or_eq_none_iff i rhs).mpr (.inl hbehind)]
      -- between `i` and the pair there is no other one
      cases rest with
      | nil => rfl
      | cons q rest =>
        have hq := RangePair.left_le_of_right_lt hbehind (Bool.eq_false_iff.mpr hno) (hi q List.mem_cons_self)
        exact absurd (q.left_lt_right.trans (hbehind' q List.mem_cons_self)) hq.not_gt

theorem foldl_orPair_apart {l m : List RangePair} (h : Apart (l ++ m)) :
    m.foldl orPair ⟨l⟩ = ⟨l ++ m⟩ := by
  induction m generalizing l with
  | nil => rw [List.foldl_nil, List.append_nil]
  | cons p m ih =>
    obtain ⟨hl, -, hcross⟩ := List.pairwise_append.mp h
    have hbehind : ∀ q ∈ l, q.right < p.left := fun q hq => hcross q hq p List.mem_cons_self
    rw [List.foldl_cons, orPair, addPair_behind hl hbehind, ih, List.append_assoc]
    · rfl
    · rw [List.append_assoc]
      exact h

/-- The cuts of a pair. -/
def RangePair.cuts (p : RangePair) : Cut × Cut := (p.left, p.right)

theorem cuts_of_eq {ps qs : List RangePair} (h : List.Forall₂ (fun p q => p.eq q = true) ps qs) :
    ps.map RangePair.cuts = qs.map RangePair.cuts := by
  induction h with
  | nil => rfl
  | @cons p q ps qs hpq h ih =>
    obtain ⟨hfirst, hsecond⟩ := (RangePair.eq_iff p q).mp hpq
    have hcuts : p.cuts = q.cuts := Prod.ext hfirst (Side.right_congr hsecond)
    rw [List.map_cons, List.map_cons, ih, hcuts]

/-- Equal pairs are apart where the pairs are. -/
theorem apart_of_eq {ps qs : List RangePair} (h : List.Forall₂ (fun p q => p.eq q = true) ps qs)
    (hps : Apart ps) : Apart qs := by
  have hcuts : ∀ l : List RangePair,
      Apart l ↔ (l.map RangePair.cuts).Pairwise fun a b => a.2 < b.1 := by
    intro l
    rw [List.pairwise_map]
    rfl
  rw [hcuts, ← cuts_of_eq h, ← hcuts]
  exact hps

/-! ## Reading a text -/

/-- The numbers that are read change nothing. -/
theorem foldlM_filter {as : List Action}
    (h : ∀ digits, .number digits ∈ as → decimal digits ≤ int64Max) (s : Sets) :
    as.foldlM Action.step s = (as.filter fun a => !a.isNumber).foldlM Action.step s := by
  induction as generalizing s with
  | nil => rfl
  | cons a as ih =>
    have htail := ih fun digits hd => h digits (List.mem_cons_of_mem _ hd)
    cases hnumber : a.isNumber with
    | true =>
      cases a with
      | number digits =>
        have hstep : (Action.number digits).step s = .ok s := if_pos (h digits List.mem_cons_self)
        rw [List.filter_cons_of_neg (by simp [hnumber]), List.foldlM_cons, hstep]
        exact htail s
      | _ => cases hnumber
    | false =>
      rw [List.filter_cons_of_pos (by simp [hnumber]), List.foldlM_cons, List.foldlM_cons]
      exact congrArg _ (funext htail)

section

variable {o : Outside}

theorem parseActions_of_file (h : o.Generated) {s : Str} {sets : List (List Range)}
    (hfile : File sets (tokens s)) :
    parseActions (o.parser s).actions = parseActions (actions sets) := by
  rw [parseActions, foldlM_filter, h.actions_of hfile]
  · rfl
  · exact fun digits hd => file_fits hfile _ (h.mem_tokens hd) digits rfl

/-- What is constructed is the value of the sets of a text. -/
theorem exists_file_of_construct (h : o.Generated) {s : Str} {r : VersionRange}
    (hr : construct o s = .ok r) : ∃ (u : Str) (sets : List (List Range)) (st : Sets),
      File sets (tokens u) ∧ parseActions (actions sets) = .ok st ∧ st.orSet = some r := by
  have hinto : ∀ u, constructStripped o u = .ok r → parseInto o u = .ok (.ok r) := by
    intro u hu
    obtain ⟨x, hx, hu⟩ := of_bind_eq_ok hu
    cases x with
    | error e => cases hu
    | ok vr =>
      cases hu
      exact hx
  have hparse : ∃ u, parseInto o u = .ok (.ok r) := by
    rw [construct] at hr
    split at hr
    · exact ⟨_, hinto _ hr⟩
    · exact ⟨_, hinto _ hr⟩
  obtain ⟨u, hu⟩ := hparse
  rw [parseInto] at hu
  split at hu
  · cases hu
  · obtain ⟨st, hst, hu⟩ := of_bind_eq_ok hu
    cases haccepted : (o.parser u).accepted with
    | false =>
      rw [haccepted] at hu
      cases hu
    | true =>
      obtain ⟨sets, hsets⟩ := (h.accepted_iff u).mp haccepted
      rw [parseActions_of_file h hsets] at hst
      refine ⟨u, sets, st, hsets, hst, ?_⟩
      rw [haccepted] at hu
      cases horSet : st.orSet with
      | none =>
        rw [horSet] at hu
        cases hu
      | some vr =>
        rw [horSet] at hu
        cases hu
        rfl

/-- Nothing is stripped of a text without blanks at its ends. -/
theorem Outside.Generated.strip_eq (h : o.Generated) {s : Str} (hs : Solid s) : o.strip s = s := by
  have hsolid : ∀ {u : Str}, Begins isSolid u → ∀ c ∈ u.head?, c ∉ blanks := by
    rintro u ⟨d, u, rfl, hd⟩ c hc hmem
    cases hc
    rw [isSolid, isBlank, List.contains_iff_mem.mpr hmem] at hd
    cases hd
  refine h.strip_of_solid (hsolid hs.begins) ?_
  rw [← List.head?_reverse]
  exact hsolid hs.ends

/-- A text that is derived is read as what its actions have. -/
theorem construct_of_file (h : o.Generated) {s : Str} (hs : Solid s) {sets : List (List Range)}
    {ts : List Token} (hfile : File sets ts) (hreads : Reads s ts (Stops isWordChar))
    (hlen : s.length ≤ 32 * 1024) {r : VersionRange}
    (hr : parseActions (actions sets) = .ok ⟨none, none, some r⟩) : construct o s = .ok r := by
  rw [← hreads.tokens_eq stops_nil] at hfile
  have hne : s ≠ [] := by
    obtain ⟨d, u, rfl, -⟩ := hs.begins
    exact List.cons_ne_nil _ _
  have hinto : parseInto o s = .ok (.ok r) := by
    rw [parseInto, if_neg (by omega), parseActions_of_file h hfile, hr,
      (h.accepted_iff s).mpr ⟨sets, hfile⟩]
    rfl
  rw [construct, h.strip_eq hs, if_neg hne, constructStripped, hinto]
  rfl

/-- The versions of a range that is read are those that a text can have. -/
theorem clean_of_construct (h : o.Generated) {s : Str} {r : VersionRange} (hr : construct o s = .ok r) :
    ∀ p ∈ r.range, p.first.v.Clean ∧ p.second.v.Clean := by
  obtain ⟨u, sets, st, hfile, hst, horSet⟩ := exists_file_of_construct h hr
  have hclean := File.clean hfile fun tok => clean_of_mem_tokens
  exact parseActions_clean hst hclean r (.inr (.inr horSet))

/-- What holds of the versions that a text can have holds of those of a range that is read. -/
theorem forall_of_construct (h : o.Generated) {P : Version → Prop} (hP : Version.Kept P)
    (hwhole : ∀ t : VersionText, t.whole.Clean → t.fails = false → P t.whole) {s : Str} {r : VersionRange}
    (hr : construct o s = .ok r) : ∀ p ∈ r.range, P p.first.v ∧ P p.second.v := by
  obtain ⟨u, sets, st, hfile, hst, horSet⟩ := exists_file_of_construct h hr
  have hclean := File.clean hfile fun tok => clean_of_mem_tokens
  have hall : st.All P := parseActions_all hP hst fun rs hrs range hrange t ht =>
    hwhole t (hclean rs hrs range hrange t ht)
  exact hall r (.inr (.inr horSet))

end

/-! ## A parser -/

/-- The action of the lexer. -/
def Token.action? : Token → Option Action
  | .number digits => some (.number digits)
  | _ => none

/-- The numbers of a text are read, and the actions of its derivation are done. -/
noncomputable def derivationParser (s : Str) : Parse :=
  open Classical in
  if h : ∃ sets, File sets (tokens s) then
    ⟨(tokens s).filterMap Token.action? ++ actions h.choose, true, []⟩
  else ⟨[], false, "syntax error".toList⟩

noncomputable def derivation : Outside where
  strip s := (s.dropWhile isBlank).rdropWhile isBlank
  parser := derivationParser

theorem derivationParser_of_file {s : Str} {sets : List (List Range)} (h : File sets (tokens s)) :
    derivationParser s = ⟨(tokens s).filterMap Token.action? ++ actions sets, true, []⟩ := by
  have hex : ∃ sets, File sets (tokens s) := ⟨sets, h⟩
  rw [derivationParser, dif_pos hex, file_unique hex.choose_spec h]

theorem derivationParser_of_not {s : Str} (h : ¬ ∃ sets, File sets (tokens s)) :
    derivationParser s = ⟨[], false, "syntax error".toList⟩ := dif_neg h

theorem isNumber_of_mem_actions {sets : List (List Range)} :
    ∀ a ∈ actions sets, a.isNumber = false := by
  intro a ha
  obtain ⟨rs, -, ha⟩ := List.mem_flatMap.mp ha
  rcases List.mem_append.mp ha with ha | ha
  · obtain ⟨r, -, ha⟩ := List.mem_flatMap.mp ha
    rcases List.mem_append.mp ha with ha | ha
    · obtain ⟨t, -, rfl⟩ := List.mem_map.mp ha
      rfl
    · simp only [List.mem_cons, List.not_mem_nil, or_false] at ha
      rcases ha with rfl | rfl <;> rfl
  · rw [List.mem_singleton.mp ha]
    rfl

theorem Token.action?_eq {t : Token} {a : Action} (h : t.action? = some a) :
    ∃ digits, t = .number digits ∧ a = .number digits := by
  cases t with
  | number digits =>
    cases h
    exact ⟨digits, rfl, rfl⟩
  | _ => cases h

theorem generated_derivation : derivation.Generated where
  strip_of_solid {s} hfront hback := by
    have hdrop : s.dropWhile isBlank = s := by
      cases s with
      | nil => rfl
      | cons c s => exact List.dropWhile_cons_of_neg fun h => hfront c rfl (List.contains_iff_mem.mp h)
    show (s.dropWhile isBlank).rdropWhile isBlank = s
    rw [hdrop, List.rdropWhile_eq_self_iff]
    intro hne h
    exact hback _ (List.getLast?_eq_some_getLast hne) (List.contains_iff_mem.mp h)
  accepted_iff s := by
    show (derivationParser s).accepted = true ↔ _
    by_cases h : ∃ sets, File sets (tokens s)
    · obtain ⟨sets, hsets⟩ := h
      rw [derivationParser_of_file hsets]
      exact iff_of_true rfl ⟨sets, hsets⟩
    · rw [derivationParser_of_not h]
      exact iff_of_false (fun h => by cases h) h
  actions_of {s sets} hfile := by
    have hnumbers : ((tokens s).filterMap Token.action?).filter (fun a => !a.isNumber) = [] := by
      rw [List.filter_eq_nil_iff]
      intro a ha
      obtain ⟨t, -, ht⟩ := List.mem_filterMap.mp ha
      obtain ⟨digits, -, rfl⟩ := Token.action?_eq ht
      exact fun h => by cases h
    have hactions : (actions sets).filter (fun a => !a.isNumber) = actions sets := by
      rw [List.filter_eq_self]
      intro a ha
      rw [isNumber_of_mem_actions a ha]
      rfl
    show (derivationParser s).actions.filter _ = _
    rw [derivationParser_of_file hfile, List.filter_append, hnumbers, hactions]
    rfl
  mem_tokens {s digits} hmem := by
    have hmem : .number digits ∈ (derivationParser s).actions := hmem
    by_cases h : ∃ sets, File sets (tokens s)
    · obtain ⟨sets, hsets⟩ := h
      rw [derivationParser_of_file hsets] at hmem
      rcases List.mem_append.mp hmem with hmem | hmem
      · obtain ⟨t, ht, heq⟩ := List.mem_filterMap.mp hmem
        obtain ⟨digits', rfl, hdigits⟩ := Token.action?_eq heq
        cases hdigits
        exact ht
      · cases isNumber_of_mem_actions _ hmem
    · rw [derivationParser_of_not h] at hmem
      cases hmem

/-! ## The round trip -/

/-- **The round trip.** A range that was read, with its pairs in order and apart, is printed as a text
that is read as this range, if there is a pair and none has a bound that is not printed but closed. -/
theorem toString_parses (o : Outside) (h : o.Generated) (s : Str) (r : VersionRange)
    (hr : construct o s = .ok r) (t : StringRepresentationType) (hne : r.range ≠ [])
    (hapart : Apart r.range) (hprints : ∀ p ∈ r.range, p.Prints)
    (hlen : (r.toString t).length ≤ 32 * 1024) :
    ∃ r', construct o (r.toString t) = .ok r' ∧ r'.eq r = true := by
  have hclean := clean_of_construct h hr
  rw [r.toString_eq] at hlen ⊢
  obtain ⟨hsolid, sets, ts, qs, hfile, hreads, hyields, heq⟩ := exists_file hne (·.toString t)
    fun p hp => (hprints p hp).readAs (hclean p hp).1 (hclean p hp).2 t
  have hqs : qs ≠ [] := by
    rintro rfl
    exact hne (List.forall₂_nil_right_iff.mp heq)
  have hfold : qs.foldl orPair .empty = ⟨qs⟩ := foldl_orPair_apart (l := []) (apart_of_eq heq hapart)
  refine ⟨⟨qs⟩, construct_of_file h hsolid hfile hreads hlen ?_, ?_⟩
  · rw [parseActions_actions hyields hqs, hfold]
  · rw [VersionRange.eq, eqPairs_iff]
    refine heq.flip.imp fun p q hpq => ?_
    rw [RangePair.eq_iff] at hpq ⊢
    exact ⟨hpq.1.symm, hpq.2.symm⟩

/-- A version of one number. -/
def numeral (digits : Str) (h : decimal digits ≤ int64Max) : VersionText :=
  ⟨[.number (decimal digits) h], List.cons_ne_nil _ _, []⟩

/-- The pair of two sides with different versions. -/
def pairOf (first second : Side) (h : first.v.lt second.v = true) : RangePair :=
  ⟨first, second, (Side.left_lt_right_iff _ _).mpr (.inl h)⟩

theorem rangeTokens_numeral {tok : Token} {c : Comparison} (htok : prefixRange tok = some (.compare c))
    (digits : Str) (h : decimal digits ≤ int64Max) :
    RangeTokens (.compare c (numeral digits h)) [tok, .number digits] :=
  .prefixed htok .empty (.basic (.one (.number digits h)) rfl)

theorem reads_numeral {symbol digits : Str} {tok : Token} (hsymbol : Reads symbol [tok] (Stops (· = '=')))
    (h : (!digits.isEmpty && digits.all digitChars.contains) = true) :
    Reads (symbol ++ digits) [tok, .number digits] (Stops isWordChar) := by
  rw [Bool.and_eq_true, Bool.not_eq_true', List.isEmpty_eq_false_iff, List.all_eq_true] at h
  have hdigits : ∀ c ∈ digits, c ∈ digitChars := fun c hc => List.contains_iff_mem.mp (h.2 c hc)
  refine hsymbol.append (reads_digits h.1 hdigits) fun _ => ?_
  obtain ⟨c, w, rfl⟩ := List.exists_cons_of_ne_nil h.1
  refine stops_cons (decide_eq_false ?_)
  rintro rfl
  exact absurd (hdigits '=' List.mem_cons_self) (by decide)

theorem construct_star {o : Outside} (h : o.Generated) :
    construct o ['*'] = .ok ⟨[pairOf ⟨.min, true⟩ ⟨.max, true⟩ (by decide)]⟩ := by
  have hfile : File [[.version star]] [.starNumber] := .one (.one (.version (.basic (.one .star) rfl)))
  exact construct_of_file h ⟨⟨_, _, rfl, rfl⟩, ⟨_, _, rfl, rfl⟩⟩ hfile (reads_star.mono fun _ => trivial)
    (by decide) rfl

/-- An empty text is `*`. -/
theorem construct_nil {o : Outside} (h : o.Generated) : construct o [] = construct o ['*'] := by
  have hnil : o.strip [] = [] := h.strip_of_solid (fun c hc => by cases hc) fun c hc => by cases hc
  have hstar : o.strip ['*'] = ['*'] := by
    refine h.strip_of_solid (fun c hc => ?_) fun c hc => ?_
    · cases hc
      decide
    · cases hc
      decide
  rw [construct, if_pos hnil, constructStar, construct, hstar, if_neg (List.cons_ne_nil _ _)]

/-- `<1 || >2` -/
def belowOneOrAboveTwo : VersionRange :=
  ⟨[pairOf ⟨.min, true⟩ ⟨⟨[1], []⟩, true⟩ (by decide),
    pairOf ⟨⟨[2], []⟩, true⟩ ⟨.max, true⟩ (by decide)]⟩

theorem toString_parses_below_one_or_above_two :
    ∃ r', construct derivation "<1.0.0 || >2.0.0".toList = .ok r' ∧
      r'.eq belowOneOrAboveTwo = true := by
  have hbelow : Reads ['<', '1'] [.lt, .number ['1']] (Stops isWordChar) :=
    reads_numeral reads_lt rfl
  have habove : Reads ['>', '2'] [.gt, .number ['2']] (Stops isWordChar) :=
    reads_numeral reads_gt rfl
  have hfile : File [[.compare .lt (numeral ['1'] (by decide))], [.compare .gt (numeral ['2'] (by decide))]]
      ([.lt, .number ['1']] ++ ([.space, .or, .space] ++ [.gt, .number ['2']])) :=
    .more (.one (.one (rangeTokens_numeral rfl _ _))) (.or .space .space)
      (.one (rangeTokens_numeral rfl _ _))
  have hread : construct derivation "<1 || >2".toList = .ok belowOneOrAboveTwo := by
    refine construct_of_file generated_derivation ⟨⟨_, _, rfl, rfl⟩, ⟨_, _, rfl, rfl⟩⟩ hfile ?_ (by decide) rfl
    exact hbelow.append (reads_or_between habove ⟨_, _, rfl, rfl⟩) fun _ => stops_cons rfl
  refine toString_parses derivation generated_derivation _ _ hread .sameDefaultLevel
    (List.cons_ne_nil _ _) ?_ (by decide) (by decide)
  exact List.pairwise_pair.mpr (RangePair.right_lt_left_of_lt (by decide))

/-- A bound that is closed is not printed at `min()` and at `max()`, and a range without pairs is printed
as an empty text. -/
theorem toString_closed_or_empty : ∃ o : Outside, o.Generated ∧
    ∀ s ∈ [">=0".toList, "<=1000000000".toList, "<1 >2".toList], ∃ r, construct o s = .ok r ∧
      ∀ t, ∃ r', construct o (r.toString t) = .ok r' ∧ r'.eq r = false := by
  refine ⟨derivation, generated_derivation, ?_⟩
  rw [List.forall_mem_cons, List.forall_mem_cons, List.forall_mem_singleton]
  refine ⟨⟨⟨[pairOf ⟨⟨[0], []⟩, false⟩ ⟨.max, true⟩ (by decide)]⟩, ?_, fun t => ?_⟩,
    ⟨⟨[pairOf ⟨.min, true⟩ ⟨⟨[1000000000], []⟩, false⟩ (by decide)]⟩, ?_, fun t => ?_⟩,
    ⟨⟨[]⟩, ?_, fun t => ?_⟩⟩
  · exact construct_of_file generated_derivation ⟨⟨_, _, rfl, rfl⟩, ⟨_, _, rfl, rfl⟩⟩
      (.one (.one (rangeTokens_numeral (c := .ge) rfl ['0'] (by decide))))
      (reads_numeral (reads_ge.mono fun _ => trivial) rfl) (by decide) rfl
  · have hprint : (⟨[pairOf ⟨⟨[0], []⟩, false⟩ ⟨.max, true⟩ (by decide)]⟩ : VersionRange).toString t = ['*'] := by
      cases t <;> rfl
    rw [hprint]
    exact ⟨_, construct_star generated_derivation, by decide⟩
  · exact construct_of_file generated_derivation ⟨⟨_, _, rfl, rfl⟩, ⟨_, _, rfl, rfl⟩⟩
      (.one (.one (rangeTokens_numeral (c := .le) rfl "1000000000".toList (by decide))))
      (reads_numeral (reads_le.mono fun _ => trivial) rfl) (by decide) rfl
  · have hprint : (⟨[pairOf ⟨.min, true⟩ ⟨⟨[1000000000], []⟩, false⟩ (by decide)]⟩ :
        VersionRange).toString t = ['*'] := by
      cases t <;> rfl
    rw [hprint]
    exact ⟨_, construct_star generated_derivation, by decide⟩
  · have hbelow : Reads ['<', '1'] [.lt, .number ['1']] (Stops isWordChar) :=
      reads_numeral reads_lt rfl
    have habove : Reads ['>', '2'] [.gt, .number ['2']] (Stops isWordChar) :=
      reads_numeral reads_gt rfl
    have hfile : File [[.compare .lt (numeral ['1'] (by decide)), .compare .gt (numeral ['2'] (by decide))]]
        ([.lt, .number ['1']] ++ ([.space] ++ [.gt, .number ['2']])) :=
      .one (.more (.one (rangeTokens_numeral rfl _ _)) .space (rangeTokens_numeral rfl _ _))
    refine construct_of_file generated_derivation ⟨⟨_, _, rfl, rfl⟩, ⟨_, _, rfl, rfl⟩⟩ hfile ?_ (by decide) rfl
    exact hbelow.append (reads_space.append habove fun _ => stops_cons rfl) fun _ => stops_cons rfl
  · have hprint : (⟨[]⟩ : VersionRange).toString t = [] := rfl
    rw [hprint, construct_nil generated_derivation]
    exact ⟨_, construct_star generated_derivation, by decide⟩

end Primitives.Versions
