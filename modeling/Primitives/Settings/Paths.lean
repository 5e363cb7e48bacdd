import Primitives.Settings.RoundTrip
import Mathlib.Data.Bool.AllAny

/-!
# Setting paths — whole paths

What is printed of a path is read part by part: outside of quotes a part goes up to the point behind
it, and in quotes up to a quote. So a path is read again if and only if none of its parts is empty
and all are safe (`parse_toString_iff`).
-/

set_option autoImplicit false

namespace Primitives.SettingPath

open Lib RegularExpression

/-! ## Outside of quotes -/

def isBlank (c : UInt8) : Bool := c = byte ' ' || c = byte '\t'

theorem mem_space {s : Bytes} (h : s ∈ Rule.space.regex.matches') :
    s ≠ [] ∧ ∀ c ∈ s, isBlank c = true := by
  obtain ⟨a, ha, b, hb, rfl⟩ := mem_comp.mp h
  obtain ⟨c, hc, rfl⟩ := mem_oneOf.mp ha
  have hblank : ∀ d ∈ [byte ' ', byte '\t'], isBlank d = true :=
    List.all_iff_forall_prop.mp (by decide)
  refine ⟨List.cons_ne_nil _ _, List.forall_mem_cons.mpr ⟨hblank c hc, ?_⟩⟩
  exact fun d hd => hblank d (mem_star_oneOf.mp hb d hd)

/-- What the rules outside of quotes match: one character, or blanks, or a bare part. -/
theorem mem_initial {q : Rule} (hq : q ∈ rules .initial) {s : Bytes} (h : s ∈ q.regex.matches') :
    s.length = 1 ∨ (∀ c ∈ s, isBlank c = true) ∨ ∀ c ∈ s, isBare c = true := by
  simp only [rules, List.mem_cons, List.not_mem_nil, or_false] at hq
  rcases hq with rfl | rfl | rfl | rfl | rfl | rfl
  · exact .inr (.inl (mem_space h).2)
  · exact .inl (congrArg List.length (mem_word.mp h)).symm
  · exact .inr (.inr (mem_star_classOf.mp h))
  · exact .inl (congrArg List.length (mem_word.mp h)).symm
  · exact .inl (congrArg List.length (mem_word.mp h)).symm
  · obtain ⟨c, rfl⟩ := mem_any.mp h
    exact .inl rfl

/-- Nothing longer than one character has a point or a quote in it. -/
theorem notMem_initial {w v : Bytes} {c : UInt8} (hw : w ≠ []) (hv : v ≠ []) (hc : c ∈ w ++ v)
    (hmark : c = byte '.' ∨ c = byte '"') {q : Rule} (hq : q ∈ rules .initial) :
    w ++ v ∉ q.regex.matches' := by
  intro h
  have hno : isBlank c = false ∧ isBare c = false := by
    rcases hmark with rfl | rfl <;> decide
  rcases mem_initial hq h with hlen | hall | hall
  · have hw' := List.length_pos_of_ne_nil hw
    have hv' := List.length_pos_of_ne_nil hv
    rw [List.length_append] at hlen
    omega
  · have hblank := hall c hc
    rw [hno.1] at hblank
    cases hblank
  · have hbare := hall c hc
    rw [hno.2] at hbare
    cases hbare

theorem tokens_point (str t : Bytes) :
    lexer.tokens ⟨.initial, str⟩ (byte '.' :: t) = .point :: lexer.tokens ⟨.initial, str⟩ t := by
  have hspace : [byte '.'] ∉ Rule.space.regex.matches' := by
    intro h
    have hblank := (mem_space h).2 _ List.mem_cons_self
    revert hblank
    decide
  have hfirst : firstMatch Rule.regex (rules .initial) [byte '.'] = some .point := by
    rw [rules, firstMatch_cons_of_notMem hspace]
    exact firstMatch_cons_of_mem (mem_word.mpr rfl)
  have hmunch : munch Rule.regex (rules .initial) (byte '.' :: t) = some (.point, [byte '.'], t) :=
    munch_append (List.cons_ne_nil _ _) hfirst fun _ hv _ _ =>
      notMem_initial (List.cons_ne_nil _ _) hv List.mem_cons_self (.inl rfl)
  exact tokens_of_munch hmunch

theorem tokens_startBasic (str t : Bytes) :
    lexer.tokens ⟨.initial, str⟩ (byte '"' :: t) =
      .startBasicString :: lexer.tokens ⟨.basic, []⟩ t := by
  have hspace : [byte '"'] ∉ Rule.space.regex.matches' := by
    intro h
    have hblank := (mem_space h).2 _ List.mem_cons_self
    revert hblank
    decide
  have hpoint : [byte '"'] ∉ Rule.point.regex.matches' := by
    intro h
    have heq := (List.cons.inj (mem_word.mp h)).1
    revert heq
    decide
  have hbare : [byte '"'] ∉ Rule.bare.regex.matches' := by
    intro h
    have hquote := mem_star_classOf.mp h _ List.mem_cons_self
    revert hquote
    decide
  have hfirst : firstMatch Rule.regex (rules .initial) [byte '"'] = some .startBasic := by
    rw [rules, firstMatch_cons_of_notMem hspace, firstMatch_cons_of_notMem hpoint,
      firstMatch_cons_of_notMem hbare]
    exact firstMatch_cons_of_mem (mem_word.mpr rfl)
  have hmunch : munch Rule.regex (rules .initial) (byte '"' :: t) =
      some (.startBasic, [byte '"'], t) :=
    munch_append (List.cons_ne_nil _ _) hfirst fun _ hv _ _ =>
      notMem_initial (List.cons_ne_nil _ _) hv List.mem_cons_self (.inr rfl)
  exact tokens_of_munch hmunch

/-- What is behind a part: nothing, or a point. -/
def EndsPart (t : Bytes) : Prop := t = [] ∨ ∃ t', t = byte '.' :: t'

theorem tokens_bare {q t : Bytes} (hq : q ≠ []) (hbare : ∀ c ∈ q, isBare c = true) (ht : EndsPart t)
    (str : Bytes) :
    lexer.tokens ⟨.initial, str⟩ (q ++ t) = .bareString q :: lexer.tokens ⟨.initial, str⟩ t := by
  have hno : ∀ c, isBlank c = true ∨ c = byte '.' → isBare c = false := by
    intro c hc
    rcases hc with hc | rfl
    · rcases Bool.or_eq_true_iff.mp hc with h | h
      · rw [of_decide_eq_true h]
        decide
      · rw [of_decide_eq_true h]
        decide
    · decide
  obtain ⟨c, q', hcons⟩ := List.exists_cons_of_ne_nil hq
  have hc : isBare c = true := hbare c (hcons ▸ List.mem_cons_self)
  have hspace : q ∉ Rule.space.regex.matches' := by
    intro h
    have hblank := (mem_space h).2 c (hcons ▸ List.mem_cons_self)
    rw [hno c (.inl hblank)] at hc
    cases hc
  have hpoint : q ∉ Rule.point.regex.matches' := by
    intro h
    have heq : [byte '.'] = c :: q' := (mem_word.mp h).trans hcons
    rw [hno c (.inr (List.cons.inj heq).1.symm)] at hc
    cases hc
  have hfirst : firstMatch Rule.regex (rules .initial) q = some .bare := by
    rw [rules, firstMatch_cons_of_notMem hspace, firstMatch_cons_of_notMem hpoint]
    exact firstMatch_cons_of_mem (mem_star_classOf.mpr hbare)
  have hmunch : munch Rule.regex (rules .initial) (q ++ t) = some (.bare, q, t) := by
    refine munch_append hq hfirst fun v hv hpre p hp => ?_
    rcases ht with rfl | ⟨t', rfl⟩
    · exact absurd (List.prefix_nil.mp hpre) hv
    · obtain ⟨d, v', rfl⟩ := List.exists_cons_of_ne_nil hv
      obtain ⟨rfl, -⟩ := List.cons_prefix_cons.mp hpre
      exact notMem_initial hq hv (List.mem_append_right _ List.mem_cons_self) (.inl rfl) hp
  exact tokens_of_munch hmunch

/-! ## One part -/

/-- A part is read from what is printed of it if it is not empty, and safe. -/
theorem part_of_safe {q t : Bytes} (hq : q ≠ []) (hsafe : Safe q) (ht : EndsPart t) (str : Bytes) :
    ∃ str', part (lexer.tokens ⟨.initial, str⟩ (printPart q ++ t)) =
      some (q, lexer.tokens ⟨.initial, str'⟩ t) := by
  rw [printPart]
  split
  · rename_i hbasic
    exact ⟨str, by rw [tokens_bare hq (List.all_eq_true.mp hbasic) ht]; rfl⟩
  · have htext : byte '"' :: (escapeSettingPart q ++ [byte '"']) ++ t = byte '"' :: printed q t := by
      rw [printed, List.cons_append, List.append_assoc]
      rfl
    rw [htext, tokens_startBasic, tokens_content (content_of_safe t hsafe), List.nil_append]
    exact ⟨q, rfl⟩

/-- A string in quotes is all that a part can be there. -/
theorem part_startBasic {ts ts' : List Token} {q : Bytes}
    (h : part (.startBasicString :: ts) = some (q, ts')) : ts = .basicString q :: ts' := by
  rcases ts with - | ⟨tok, ts⟩
  · cases h
  · cases tok with
    | basicString s =>
      cases h
      rfl
    | _ => cases h

theorem safe_of_bare {q : Bytes} (h : ∀ c ∈ q, isBare c = true) : Safe q := by
  induction q with
  | nil => trivial
  | cons c q ih =>
    obtain ⟨hc, hq⟩ := List.forall_mem_cons.mp h
    have hno : ∀ d, isBare d = false → c ≠ d := by
      rintro d hd rfl
      rw [hd] at hc
      cases hc
    exact ⟨hno 0 (by decide), hno _ (by decide), fun hback => absurd hback (hno _ (by decide)), ih hq⟩

/-- **A part is read** from what is printed of it only then. -/
theorem safe_of_part {q t : Bytes} {str : Bytes} {ts : List Token} (ht : EndsPart t)
    (h : part (lexer.tokens ⟨.initial, str⟩ (printPart q ++ t)) = some (q, ts)) :
    q ≠ [] ∧ Safe q ∧ ∃ str', ts = lexer.tokens ⟨.initial, str'⟩ t := by
  rw [printPart] at h
  split at h
  · rename_i hbasic
    have hbare := List.all_eq_true.mp hbasic
    by_cases hq : q = []
    · -- nothing is printed of an empty part
      subst hq
      rcases ht with rfl | ⟨t', rfl⟩
      · cases h
      · rw [List.nil_append, tokens_point] at h
        cases h
    · rw [tokens_bare hq hbare ht] at h
      cases h
      exact ⟨hq, safe_of_bare hbare, str, rfl⟩
  · rename_i hbasic
    have htext : byte '"' :: (escapeSettingPart q ++ [byte '"']) ++ t = byte '"' :: printed q t := by
      rw [printed, List.cons_append, List.append_assoc]
      rfl
    rw [htext, tokens_startBasic] at h
    obtain ⟨v, rest, hcontent, hv, hts⟩ := content_of_tokens (part_startBasic h)
    rw [List.nil_append] at hv
    subst hv
    obtain ⟨hsafe, rfl⟩ := content_printed_iff.mp hcontent
    refine ⟨?_, hsafe, q, hts⟩
    rintro rfl
    exact hbasic rfl

/-! ## The grammar -/

theorem part_length {ts ts' : List Token} {q : Bytes} (h : part ts = some (q, ts')) :
    ts'.length < ts.length := by
  unfold part at h
  split at h
  · cases h
    exact Nat.lt_succ_self _
  · cases h
    rw [List.length_cons, List.length_cons]
    omega
  · cases h
    rw [List.length_cons, List.length_cons]
    omega
  · cases h

/-- Fuel for every token is enough. -/
theorem parts_eq {n : Nat} : ∀ {m : Nat} {ts : List Token}, ts.length ≤ n → ts.length ≤ m →
    parts n ts = parts m ts := by
  induction n with
  | zero =>
    intro m ts hn _
    obtain rfl := List.eq_nil_of_length_eq_zero (Nat.le_zero.mp hn)
    cases m <;> rfl
  | succ n ih =>
    intro m ts hn hm
    cases m with
    | zero =>
      obtain rfl := List.eq_nil_of_length_eq_zero (Nat.le_zero.mp hm)
      rfl
    | succ m =>
      rw [parts, parts]
      cases hpart : part ts with
      | none => rfl
      | some r =>
        obtain ⟨q, ts'⟩ := r
        have hlt := part_length hpart
        rcases ts' with - | ⟨tok, ts'⟩
        · rfl
        · rw [List.length_cons] at hlt
          cases tok with
          | point =>
            dsimp only
            rw [ih (m := m) (by omega) (by omega)]
          | _ => rfl

/-- The parts of all the tokens. -/
def allParts (ts : List Token) : Option (List Bytes) := parts ts.length ts

theorem allParts_last {ts : List Token} {q : Bytes} (h : part ts = some (q, [])) :
    allParts ts = some [q] := by
  rw [allParts, parts_eq (Nat.le_refl _) (Nat.le_succ _), parts, h]

theorem allParts_point {ts ts' : List Token} {q : Bytes} (h : part ts = some (q, .point :: ts')) :
    allParts ts = (allParts ts').map (q :: ·) := by
  have hlt := part_length h
  rw [List.length_cons] at hlt
  rw [allParts, parts_eq (Nat.le_refl _) (Nat.le_succ _), parts, h]
  dsimp only
  rw [parts_eq (Nat.le_of_lt (Nat.lt_of_succ_lt hlt)) (Nat.le_refl _), allParts]

theorem part_of_allParts {ts : List Token} {q : Bytes} {qs : List Bytes}
    (h : allParts ts = some (q :: qs)) : ∃ ts', part ts = some (q, ts') := by
  rw [allParts, parts_eq (Nat.le_refl _) (Nat.le_succ _), parts] at h
  split at h
  · cases h
  · rename_i p hpart
    cases h
    exact ⟨[], hpart⟩
  · rename_i p ts' hpart
    obtain ⟨qs', -, heq⟩ := Option.map_eq_some_iff.mp h
    obtain ⟨rfl, -⟩ := List.cons.inj heq
    exact ⟨_, hpart⟩
  · cases h

theorem file_eq_cons_iff {ts : List Token} {p : Bytes} {ps : List Bytes} :
    file ts = some (p :: ps) ↔ allParts ts = some (p :: ps) := by
  rw [file]
  split
  · rename_i hnil
    subst hnil
    refine iff_of_false ?_ ?_ <;> intro h <;> cases h
  · rfl

/-! ## The path -/

/-- What is printed behind a part. -/
def behind (ps : List Bytes) : Bytes := ps.flatMap fun p => byte '.' :: printPart p

theorem endsPart_behind (ps : List Bytes) : EndsPart (behind ps) := by
  cases ps with
  | nil => exact .inl rfl
  | cons p ps => exact .inr ⟨_, rfl⟩

theorem toString_cons (p : Bytes) (ps : List Bytes) :
    toString (p :: ps) = printPart p ++ behind ps := by
  have hpoint : ∀ (ps : List Bytes) (p : Bytes),
      (p :: ps).flatMap (fun p => printPart p ++ [byte '.']) =
        printPart p ++ behind ps ++ [byte '.'] := by
    intro ps
    induction ps with
    | nil =>
      intro p
      rw [List.flatMap_cons, behind, List.flatMap_nil, List.flatMap_nil, List.append_nil,
        List.append_nil]
    | cons p' ps ih =>
      intro p
      rw [List.flatMap_cons, ih p', behind, behind, List.flatMap_cons]
      simp only [List.append_assoc, List.cons_append, List.nil_append]
  rw [toString, hpoint, List.dropLast_concat]

/-- **The parts are read again** if and only if none is empty and all are safe. -/
theorem allParts_tokens_iff (ps : List Bytes) : ∀ (p str : Bytes),
    allParts (lexer.tokens ⟨.initial, str⟩ (printPart p ++ behind ps)) = some (p :: ps) ↔
      ∀ q ∈ p :: ps, q ≠ [] ∧ Safe q := by
  induction ps with
  | nil =>
    intro p str
    rw [List.forall_mem_singleton]
    constructor
    · intro h
      obtain ⟨ts, hpart⟩ := part_of_allParts h
      obtain ⟨hp, hsafe, -⟩ := safe_of_part (endsPart_behind []) hpart
      exact ⟨hp, hsafe⟩
    · rintro ⟨hp, hsafe⟩
      obtain ⟨str', hpart⟩ := part_of_safe hp hsafe (endsPart_behind []) str
      exact allParts_last hpart
  | cons p' ps ih =>
    intro p str
    have hbehind : ∀ str', lexer.tokens ⟨.initial, str'⟩ (behind (p' :: ps)) =
        .point :: lexer.tokens ⟨.initial, str'⟩ (printPart p' ++ behind ps) := fun str' =>
      tokens_point str' _
    rw [List.forall_mem_cons]
    constructor
    · intro h
      obtain ⟨ts, hpart⟩ := part_of_allParts h
      obtain ⟨hp, hsafe, str', rfl⟩ := safe_of_part (endsPart_behind (p' :: ps)) hpart
      rw [hbehind] at hpart
      rw [allParts_point hpart] at h
      obtain ⟨qs, hqs, heq⟩ := Option.map_eq_some_iff.mp h
      obtain ⟨-, rfl⟩ := List.cons.inj heq
      exact ⟨⟨hp, hsafe⟩, (ih p' str').mp hqs⟩
    · rintro ⟨⟨hp, hsafe⟩, hrest⟩
      obtain ⟨str', hpart⟩ := part_of_safe hp hsafe (endsPart_behind (p' :: ps)) str
      rw [hbehind] at hpart
      rw [allParts_point hpart, (ih p' str').mpr hrest]
      rfl

theorem ne_zero_of_printPart {p : Bytes} : ∀ c ∈ printPart p, c ≠ 0 := by
  have hcntrl : ∀ {c : UInt8}, isCntrl c = false → c ≠ 0 := by
    rintro c hc rfl
    cases hc
  have hescape : ∀ d : UInt8, ∀ c ∈ escapeSettingChar d, c ≠ 0 := by
    intro d c hc
    rw [escapeSettingChar] at hc
    split at hc
    · have hdigits : c = byte '\\' ∨ c = byte 'u' ∨ c ∈ codeDigits d := by
        rw [List.mem_cons, List.mem_cons] at hc
        exact hc
      rcases hdigits with rfl | rfl | h
      · decide
      · decide
      · exact hcntrl (ordinary_of_isXDigit (isXDigit_codeDigits d c h)).1
    · rename_i hd
      rw [List.mem_singleton.mp hc]
      exact hcntrl (Bool.eq_false_iff.mpr hd)
  intro c hc
  rw [printPart] at hc
  split at hc
  · rename_i hbasic
    have hbare := List.all_eq_true.mp hbasic c hc
    rintro rfl
    revert hbare
    decide
  · rcases List.mem_cons.mp hc with rfl | hc
    · decide
    · rcases List.mem_append.mp hc with hc | hc
      · obtain ⟨d, -, hc⟩ := List.mem_flatMap.mp hc
        exact hescape d c hc
      · rw [List.mem_singleton.mp hc]
        decide

/-- No zero is printed, so that all of a path is scanned. -/
theorem takeWhile_toString (ps : List Bytes) : (toString ps).takeWhile (· ≠ 0) = toString ps := by
  refine List.takeWhile_eq_self_iff.mpr fun c hc => decide_eq_true ?_
  obtain ⟨p, -, hc⟩ := List.mem_flatMap.mp (List.dropLast_subset _ hc)
  rcases List.mem_append.mp hc with hc | hc
  · exact ne_zero_of_printPart c hc
  · rw [List.mem_singleton.mp hc]
    decide

/-- **Setting paths round trip** if and only if no part is empty, no part has a zero or a quote in
it, and every backslash begins a code point that has too few digits. -/
theorem parse_toString_iff (ps : List Bytes) :
    parse (toString ps) = .ok ps ↔ ∀ p ∈ ps, p ≠ [] ∧ Safe p := by
  cases ps with
  | nil =>
    refine iff_of_true rfl ?_
    intro p hp
    cases hp
  | cons p ps =>
    rw [← allParts_tokens_iff ps p [], ← toString_cons, ← file_eq_cons_iff, parse,
      takeWhile_toString]
    split
    · rename_i hempty
      rw [hempty]
      refine iff_of_false ?_ ?_ <;> intro h <;> cases h
    · cases file (lexer.tokens ⟨.initial, []⟩ (toString (p :: ps))) with
      | none => refine iff_of_false ?_ ?_ <;> intro h <;> cases h
      | some qs =>
        dsimp only
        rw [Except.ok.injEq, Option.some.injEq]

/-- A backslash and an `n` are read as a line feed. -/
theorem parse_toString_newline :
    toString [[byte '\\', byte 'n']] = [byte '"', byte '\\', byte 'n', byte '"'] ∧
    parse (toString [[byte '\\', byte 'n']]) = .ok [[10]] ∧
    ¬ ∀ ps : List Bytes, parse (toString ps) = .ok ps := by
  have hprint : toString [[byte '\\', byte 'n']] = [byte '"', byte '\\', byte 'n', byte '"'] := by
    decide +kernel
  have hread : parse (toString [[byte '\\', byte 'n']]) = .ok [[10]] := by decide +kernel
  refine ⟨hprint, hread, fun hall => ?_⟩
  have hsame := (hall [[byte '\\', byte 'n']]).symm.trans hread
  revert hsame
  decide

end Primitives.SettingPath
