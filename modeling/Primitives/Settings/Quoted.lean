import Primitives.Settings.Path

/-!
# Setting paths — what the lexer reads in quotes

In quotes, at every point of a text the lexer does one of four things (`Step`): it closes the string
at a quote, adds a few bytes to it and goes on, gives an error, or is at the end of the text. The
bytes are those of a character, of an escape or of a code point, and a backslash stands for itself
before `u` or `U` where the digits of a code point are missing.
-/

set_option autoImplicit false

namespace Primitives.SettingPath

open Lib RegularExpression

/-! ## Bytes -/

/-- What holds of all numbers up to 255 holds of all bytes. -/
theorem forall_byte {p : UInt8 → Prop} (h : ∀ n < 256, p (UInt8.ofNat n)) (c : UInt8) : p c := by
  have hc := h c.toNat c.toNat_lt
  rw [UInt8.ofNat_toNat] at hc
  exact hc

theorem mem_bytes (c : UInt8) : c ∈ bytes :=
  List.mem_map.mpr ⟨c.toNat, List.mem_range.mpr c.toNat_lt, UInt8.ofNat_toNat⟩

theorem mem_filter_bytes {p : UInt8 → Bool} {c : UInt8} : c ∈ bytes.filter p ↔ p c = true := by
  rw [List.mem_filter, and_iff_right (mem_bytes c)]

theorem mem_classOf {p : UInt8 → Bool} {s : Bytes} :
    s ∈ (classOf p).matches' ↔ ∃ c, p c = true ∧ [c] = s := by
  rw [classOf, mem_oneOf]
  simp only [mem_filter_bytes]

theorem mem_star_classOf {p : UInt8 → Bool} {s : Bytes} :
    s ∈ (star (classOf p)).matches' ↔ ∀ c ∈ s, p c = true := by
  rw [classOf, mem_star_oneOf]
  simp only [mem_filter_bytes]

theorem mem_classOf_pow {p : UInt8 → Bool} {s : Bytes} {n : Nat} :
    s ∈ (classOf p ^ n).matches' ↔ s.length = n ∧ ∀ c ∈ s, p c = true := by
  rw [classOf, mem_oneOf_pow]
  simp only [mem_filter_bytes]

/-! ## The rules in quotes -/

/-- How many digits a code point has behind its letter. -/
def codeLength (c : UInt8) : Option Nat :=
  if c = byte 'u' then some 4 else if c = byte 'U' then some 8 else none

/-- The text goes on with `n` hexadecimal digits. -/
def HexRun (n : Nat) (t : Bytes) : Prop :=
  ∃ ds rest, ds.length = n ∧ (∀ d ∈ ds, isXDigit d = true) ∧ t = ds ++ rest

/-- A backslash before this text stands for itself: a code point begins there that has too few
digits. -/
def LoneBackslash (t : Bytes) : Prop :=
  ∃ u n rest, codeLength u = some n ∧ ¬ HexRun n rest ∧ t = u :: rest

theorem codeLength_eq_none {c : UInt8} :
    codeLength c = none ↔ (c ≠ byte 'u' && c ≠ byte 'U') = true := by
  unfold codeLength
  split
  · simp_all
  · split <;> simp_all

theorem mem_basicChar {s : Bytes} : s ∈ Rule.basicChar.regex.matches' ↔
    ∃ c, isCntrl c = false ∧ c ≠ byte '"' ∧ s = [c] := by
  rw [Rule.regex, mem_classOf]
  constructor
  · rintro ⟨c, hc, rfl⟩
    obtain ⟨hcntrl, hquote⟩ := Bool.and_eq_true_iff.mp hc
    exact ⟨c, by simpa using hcntrl, of_decide_eq_true hquote, rfl⟩
  · rintro ⟨c, hcntrl, hquote, rfl⟩
    exact ⟨c, Bool.and_eq_true_iff.mpr ⟨by simpa using hcntrl, decide_eq_true hquote⟩, rfl⟩

theorem mem_escape {s : Bytes} : s ∈ Rule.escape.regex.matches' ↔
    ∃ c, codeLength c = none ∧ s = [byte '\\', c] := by
  rw [Rule.regex, mem_comp]
  simp only [mem_word, mem_classOf, codeLength_eq_none]
  constructor
  · rintro ⟨a, rfl, b, ⟨c, hc, rfl⟩, rfl⟩
    exact ⟨c, hc, rfl⟩
  · rintro ⟨c, hc, rfl⟩
    exact ⟨_, rfl, _, ⟨c, hc, rfl⟩, rfl⟩

/-- The two rules of code points. -/
theorem mem_codePoint {u : UInt8} {n : Nat} {s : Bytes} :
    s ∈ (word [byte '\\', u] * classOf isXDigit ^ n).matches' ↔
      ∃ ds, ds.length = n ∧ (∀ d ∈ ds, isXDigit d = true) ∧ s = byte '\\' :: u :: ds := by
  rw [mem_comp]
  simp only [mem_word, mem_classOf_pow]
  constructor
  · rintro ⟨a, rfl, ds, ⟨hlen, hds⟩, rfl⟩
    exact ⟨ds, hlen, hds, rfl⟩
  · rintro ⟨ds, hlen, hds, rfl⟩
    exact ⟨_, rfl, ds, ⟨hlen, hds⟩, rfl⟩

theorem mem_any {s : Bytes} : s ∈ Rule.any.regex.matches' ↔ ∃ c, s = [c] := by
  rw [Rule.regex, mem_classOf]
  constructor
  · rintro ⟨c, -, rfl⟩
    exact ⟨c, rfl⟩
  · rintro ⟨c, rfl⟩
    exact ⟨c, rfl, rfl⟩

/-- What the rules in quotes match: one character, an escape, or a code point. -/
theorem mem_basic {q : Rule} (hq : q ∈ rules .basic) {s : Bytes} (h : s ∈ q.regex.matches') :
    (∃ c, s = [c]) ∨ (∃ c, codeLength c = none ∧ s = [byte '\\', c]) ∨
      ∃ u n ds, codeLength u = some n ∧ ds.length = n ∧ (∀ d ∈ ds, isXDigit d = true) ∧
        s = byte '\\' :: u :: ds := by
  simp only [rules, List.mem_cons, List.not_mem_nil, or_false] at hq
  rcases hq with rfl | rfl | rfl | rfl | rfl | rfl
  · obtain ⟨c, -, -, rfl⟩ := mem_basicChar.mp h
    exact .inl ⟨c, rfl⟩
  · obtain ⟨c, hc, rfl⟩ := mem_escape.mp h
    exact .inr (.inl ⟨c, hc, rfl⟩)
  · obtain ⟨ds, hlen, hds, rfl⟩ := mem_codePoint.mp h
    exact .inr (.inr ⟨_, 4, ds, rfl, hlen, hds, rfl⟩)
  · obtain ⟨ds, hlen, hds, rfl⟩ := mem_codePoint.mp h
    exact .inr (.inr ⟨_, 8, ds, rfl, hlen, hds, rfl⟩)
  · exact .inl ⟨_, (mem_word.mp h).symm⟩
  · exact .inl (mem_any.mp h)

/-! ## The tokens of a text in quotes -/

/-- Nothing longer than one character begins with a character that is no backslash. -/
theorem one_character {c : UInt8} (hc : c ≠ byte '\\') {v : Bytes} (hv : v ≠ []) {q : Rule}
    (hq : q ∈ rules .basic) : [c] ++ v ∉ q.regex.matches' := by
  intro h
  rcases mem_basic hq h with ⟨d, heq⟩ | ⟨d, -, heq⟩ | ⟨u, n, ds, -, -, -, heq⟩
  · exact hv (List.cons.inj heq).2
  · exact hc (List.cons.inj heq).1
  · exact hc (List.cons.inj heq).1

theorem notMem_escape (c : UInt8) : [c] ∉ Rule.escape.regex.matches' := by
  intro h
  obtain ⟨d, -, heq⟩ := mem_escape.mp h
  cases heq

theorem notMem_codePoint {u : UInt8} {n : Nat} {s : Bytes} (h : s.length < 2) :
    s ∉ (word [byte '\\', u] * classOf isXDigit ^ n).matches' := by
  intro hmem
  obtain ⟨ds, -, -, rfl⟩ := mem_codePoint.mp hmem
  rw [List.length_cons, List.length_cons] at h
  omega

/-- A single character is an ordinary one, the end of the string, or an error. -/
theorem firstMatch_single (c : UInt8) : firstMatch Rule.regex (rules .basic) [c] =
    some (if isCntrl c = true then .any else if c = byte '"' then .endBasic else .basicChar) := by
  by_cases hchar : isCntrl c = false ∧ c ≠ byte '"'
  · rw [if_neg (by rw [hchar.1]; exact Bool.false_ne_true), if_neg hchar.2]
    exact firstMatch_cons_of_mem (mem_basicChar.mpr ⟨c, hchar.1, hchar.2, rfl⟩)
  · have hno : [c] ∉ Rule.basicChar.regex.matches' := by
      intro h
      obtain ⟨d, hcntrl, hquote, heq⟩ := mem_basicChar.mp h
      obtain rfl : c = d := (List.cons.inj heq).1
      exact hchar ⟨hcntrl, hquote⟩
    have hcode : ∀ q : Rule, q = .codePoint4 ∨ q = .codePoint8 → [c] ∉ q.regex.matches' := by
      rintro q (rfl | rfl) <;> exact notMem_codePoint (Nat.lt_succ_self 1)
    rw [rules, firstMatch_cons_of_notMem hno, firstMatch_cons_of_notMem (notMem_escape c),
      firstMatch_cons_of_notMem (hcode _ (.inl rfl)), firstMatch_cons_of_notMem (hcode _ (.inr rfl))]
    by_cases hquote : c = byte '"'
    · subst hquote
      exact firstMatch_cons_of_mem (mem_word.mpr rfl)
    · have hcntrl : isCntrl c = true := by
        by_contra h
        exact hchar ⟨Bool.eq_false_iff.mpr h, hquote⟩
      have hend : [c] ∉ Rule.endBasic.regex.matches' := by
        intro h
        exact hquote (List.cons.inj (mem_word.mp h)).1.symm
      rw [firstMatch_cons_of_notMem hend, if_pos hcntrl]
      exact firstMatch_cons_of_mem (mem_any.mpr ⟨c, rfl⟩)

/-- A character that is no backslash is read by itself. -/
theorem munch_single {c : UInt8} (hc : c ≠ byte '\\') (t : Bytes) :
    munch Rule.regex (rules .basic) (c :: t) = some
      (if isCntrl c = true then .any else if c = byte '"' then .endBasic else .basicChar, [c], t) :=
  munch_append (List.cons_ne_nil c []) (firstMatch_single c) fun _ hv _ _ => one_character hc hv

theorem notMem_basicChar {c d : UInt8} {s : Bytes} :
    c :: d :: s ∉ Rule.basicChar.regex.matches' := by
  intro h
  obtain ⟨e, -, -, heq⟩ := mem_basicChar.mp h
  cases heq

/-- An escape. -/
theorem munch_escape {c : UInt8} (hc : codeLength c = none) (t : Bytes) :
    munch Rule.regex (rules .basic) (byte '\\' :: c :: t) = some (.escape, [byte '\\', c], t) := by
  have hfirst : firstMatch Rule.regex (rules .basic) [byte '\\', c] = some .escape := by
    rw [rules, firstMatch_cons_of_notMem notMem_basicChar]
    exact firstMatch_cons_of_mem (mem_escape.mpr ⟨c, hc, rfl⟩)
  refine munch_append (List.cons_ne_nil _ _) hfirst fun v hv _ q hq h => ?_
  rcases mem_basic hq h with ⟨d, heq⟩ | ⟨d, -, heq⟩ | ⟨u, n, ds, hu, -, -, heq⟩
  · cases heq
  · exact hv (List.cons.inj (List.cons.inj heq).2).2
  · obtain rfl : c = u := (List.cons.inj (List.cons.inj heq).2).1
    rw [hc] at hu
    cases hu

/-- A code point, by one of the two rules. -/
theorem munch_code {u : UInt8} {n : Nat} {ds : Bytes} (hu : codeLength u = some n)
    (hlen : ds.length = n) (hds : ∀ d ∈ ds, isXDigit d = true) (t : Bytes) :
    ∃ r, munch Rule.regex (rules .basic) (byte '\\' :: u :: ds ++ t) =
        some (r, byte '\\' :: u :: ds, t) ∧
      (r = .codePoint4 ∨ r = .codePoint8) := by
  have hescape : byte '\\' :: u :: ds ∉ Rule.escape.regex.matches' := by
    intro h
    obtain ⟨d, hd, heq⟩ := mem_escape.mp h
    obtain rfl : u = d := (List.cons.inj (List.cons.inj heq).2).1
    rw [hu] at hd
    cases hd
  have hfirst : ∃ r, firstMatch Rule.regex (rules .basic) (byte '\\' :: u :: ds) = some r ∧
      (r = .codePoint4 ∨ r = .codePoint8) := by
    rw [rules, firstMatch_cons_of_notMem notMem_basicChar, firstMatch_cons_of_notMem hescape]
    unfold codeLength at hu
    split at hu
    · rename_i hletter
      cases hu
      subst hletter
      exact ⟨_, firstMatch_cons_of_mem (mem_codePoint.mpr ⟨ds, hlen, hds, rfl⟩), .inl rfl⟩
    · rename_i hno
      split at hu
      · rename_i hletter
        cases hu
        subst hletter
        have hshort : byte '\\' :: byte 'U' :: ds ∉ Rule.codePoint4.regex.matches' := by
          intro h
          obtain ⟨ds', -, -, heq⟩ := mem_codePoint.mp h
          exact hno (List.cons.inj (List.cons.inj heq).2).1
        rw [firstMatch_cons_of_notMem hshort]
        exact ⟨_, firstMatch_cons_of_mem (mem_codePoint.mpr ⟨ds, hlen, hds, rfl⟩), .inr rfl⟩
      · cases hu
  obtain ⟨r, hr, hcode⟩ := hfirst
  refine ⟨r, munch_append (List.cons_ne_nil _ _) hr fun v hv _ q hq h => ?_, hcode⟩
  rcases mem_basic hq h with ⟨d, heq⟩ | ⟨d, hd, heq⟩ | ⟨u', n', ds', hu', hlen', -, heq⟩
  · cases heq
  · obtain rfl : u = d := (List.cons.inj (List.cons.inj heq).2).1
    rw [hu] at hd
    cases hd
  · obtain ⟨rfl, hdigits⟩ := List.cons.inj (List.cons.inj heq).2
    rw [hu] at hu'
    cases hu'
    have hlong : (ds ++ v).length = ds'.length := congrArg List.length hdigits
    have hpos := List.length_pos_of_ne_nil hv
    rw [List.length_append] at hlong
    omega

/-- A backslash that begins nothing else is an ordinary character. -/
theorem munch_backslash {t : Bytes} (ht : t = [] ∨ LoneBackslash t) :
    munch Rule.regex (rules .basic) (byte '\\' :: t) = some (.basicChar, [byte '\\'], t) := by
  refine munch_append (List.cons_ne_nil _ _) (firstMatch_single _) fun v hv hpre q hq h => ?_
  rcases ht with rfl | ⟨u, n, rest, hu, hrun, rfl⟩
  · exact hv (List.prefix_nil.mp hpre)
  · rcases mem_basic hq h with ⟨d, heq⟩ | ⟨d, hd, heq⟩ | ⟨u', n', ds, hu', hlen, hds, heq⟩
    · exact hv (List.cons.inj heq).2
    · obtain rfl : v = [d] := (List.cons.inj heq).2
      obtain ⟨rfl, -⟩ := List.cons_prefix_cons.mp hpre
      rw [hu] at hd
      cases hd
    · obtain rfl : v = u' :: ds := (List.cons.inj heq).2
      obtain ⟨rfl, rest', rfl⟩ := List.cons_prefix_cons.mp hpre
      rw [hu] at hu'
      cases hu'
      exact hrun ⟨ds, rest', hlen, hds, rfl⟩

/-! ## Steps -/

/-- **One step** of the lexer in quotes: bytes are added to the string. -/
inductive Step : Bytes → Bytes → Bytes → Prop where
  | char {c : UInt8} {t : Bytes} (hcntrl : isCntrl c = false) (hquote : c ≠ byte '"')
      (hback : c ≠ byte '\\') : Step (c :: t) [c] t
  | escape {c : UInt8} {t : Bytes} (hcode : codeLength c = none) (hc : unescapeSettingChar c ≠ 0) :
      Step (byte '\\' :: c :: t) [unescapeSettingChar c] t
  | code {u : UInt8} {n : Nat} {ds t : Bytes} (hu : codeLength u = some n) (hlen : ds.length = n)
      (hds : ∀ d ∈ ds, isXDigit d = true) :
      Step (byte '\\' :: u :: ds ++ t) (cp2utf8 (scanHex ds)) t
  | backslash {t : Bytes} (ht : LoneBackslash t) : Step (byte '\\' :: t) [byte '\\'] t

theorem tokens_of_munch {cond : Condition} {str s w t : Bytes} {r : Rule}
    (h : munch Rule.regex (rules cond) s = some (r, w, t)) :
    lexer.tokens ⟨cond, str⟩ s =
      (r.action w ⟨cond, str⟩).1.toList ++ lexer.tokens (r.action w ⟨cond, str⟩).2 t :=
  Lexer.tokens_of_munch lexer h

theorem tokens_step {s x t : Bytes} (h : Step s x t) (str : Bytes) :
    lexer.tokens ⟨.basic, str⟩ s = lexer.tokens ⟨.basic, str ++ x⟩ t := by
  cases h with
  | @char c t hcntrl hquote hback =>
    have hmunch := munch_single hback t
    rw [if_neg (by rw [hcntrl]; exact Bool.false_ne_true), if_neg hquote] at hmunch
    exact tokens_of_munch hmunch
  | @escape c t hcode hc =>
    refine (tokens_of_munch (munch_escape hcode t)).trans ?_
    have haction : Rule.escape.action [byte '\\', c] ⟨.basic, str⟩ =
        (none, ⟨.basic, str ++ [unescapeSettingChar c]⟩) := if_neg hc
    rw [haction]
    rfl
  | @code u n ds t hu hlen hds =>
    obtain ⟨r, hmunch, rfl | rfl⟩ := munch_code hu hlen hds t
    · exact tokens_of_munch hmunch
    · exact tokens_of_munch hmunch
  | backslash ht => exact tokens_of_munch (munch_backslash (.inr ht))

/-- At a quote the string is closed. -/
theorem tokens_quote (str t : Bytes) :
    lexer.tokens ⟨.basic, str⟩ (byte '"' :: t) =
      .basicString str :: lexer.tokens ⟨.initial, str⟩ t := by
  have hmunch : munch Rule.regex (rules .basic) (byte '"' :: t) =
      some (.endBasic, [byte '"'], t) := munch_single (by decide) t
  exact tokens_of_munch hmunch

/-- **Every text in quotes** begins with a quote or a step, or no string comes of it. -/
theorem quoted_cases (s : Bytes) : (∃ t, s = byte '"' :: t) ∨ (∃ x t, Step s x t) ∨
    ∀ str w ts, lexer.tokens ⟨.basic, str⟩ s ≠ .basicString w :: ts := by
  rcases s with - | ⟨c, t⟩
  · refine .inr (.inr fun str w ts h => ?_)
    rw [lexer.tokens_nil] at h
    cases h
  by_cases hback : c = byte '\\'
  · subst hback
    rcases t with - | ⟨d, t⟩
    · -- the backslash is the end of the text
      refine .inr (.inr fun str w ts h => ?_)
      rw [tokens_of_munch (munch_backslash (.inl rfl))] at h
      cases h
    · cases hcode : codeLength d with
      | none =>
        by_cases hd : unescapeSettingChar d = 0
        · -- there is no such escape
          refine .inr (.inr fun str w ts h => ?_)
          have haction : Rule.escape.action [byte '\\', d] ⟨.basic, str⟩ =
              (some .errorSymbol, ⟨.basic, str⟩) := if_pos hd
          rw [tokens_of_munch (munch_escape hcode t), haction] at h
          cases h
        · exact .inr (.inl ⟨_, _, .escape hcode hd⟩)
      | some n =>
        by_cases hrun : HexRun n t
        · obtain ⟨ds, rest, hlen, hds, rfl⟩ := hrun
          exact .inr (.inl ⟨_, _, .code hcode hlen hds⟩)
        · exact .inr (.inl ⟨_, _, .backslash ⟨d, n, t, hcode, hrun, rfl⟩⟩)
  · by_cases hquote : c = byte '"'
    · exact .inl ⟨t, hquote ▸ rfl⟩
    · by_cases hcntrl : isCntrl c = true
      · refine .inr (.inr fun str w ts h => ?_)
        have hmunch := munch_single hback t
        rw [if_pos hcntrl] at hmunch
        rw [tokens_of_munch hmunch] at h
        cases h
      · exact .inr (.inl ⟨_, _, .char (Bool.eq_false_iff.mpr hcntrl) hquote hback⟩)

/-! ## Strings -/

/-- A text in quotes, the string that is read of it, and what is behind its closing quote. -/
inductive Content : Bytes → Bytes → Bytes → Prop where
  | close (rest : Bytes) : Content (byte '"' :: rest) [] rest
  | step {s x t v rest : Bytes} (hstep : Step s x t) (hrest : Content t v rest) :
      Content s (x ++ v) rest

theorem tokens_content {s v rest : Bytes} (h : Content s v rest) :
    ∀ str, lexer.tokens ⟨.basic, str⟩ s =
      .basicString (str ++ v) :: lexer.tokens ⟨.initial, str ++ v⟩ rest := by
  induction h with
  | close rest =>
    intro str
    rw [List.append_nil]
    exact tokens_quote str rest
  | @step s x t v rest hstep hrest ih =>
    intro str
    rw [tokens_step hstep, ih, List.append_assoc]

theorem Step.length_lt {s x t : Bytes} (h : Step s x t) : t.length < s.length := by
  cases h with
  | char => exact Nat.lt_succ_self _
  | escape =>
    rw [List.length_cons, List.length_cons]
    omega
  | code =>
    rw [List.length_append, List.length_cons, List.length_cons]
    omega
  | backslash => exact Nat.lt_succ_self _

/-- **A string token** comes of a text in quotes. -/
theorem content_of_tokens : ∀ {s str w : Bytes} {ts : List Token},
    lexer.tokens ⟨.basic, str⟩ s = .basicString w :: ts →
    ∃ v rest, Content s v rest ∧ w = str ++ v ∧ ts = lexer.tokens ⟨.initial, w⟩ rest := by
  intro s
  induction hlen : s.length using Nat.strong_induction_on generalizing s with
  | _ len ih =>
    intro str w ts h
    rcases quoted_cases s with ⟨t, rfl⟩ | ⟨x, t, hstep⟩ | hno
    · rw [tokens_quote] at h
      cases h
      exact ⟨[], t, .close t, (List.append_nil _).symm, rfl⟩
    · rw [tokens_step hstep] at h
      obtain ⟨v, rest, hcontent, hw, hts⟩ := ih t.length (hlen ▸ hstep.length_lt) rfl h
      exact ⟨x ++ v, rest, .step hstep hcontent, by rw [hw, List.append_assoc], hts⟩
    · exact absurd h (hno str w ts)

end Primitives.SettingPath
