import Primitives.Csv.Scan

/-!
# What `parse_line` accepts and what it reads

`parse_line` succeeds on the lines of the language and on no others, and returns the columns the
line denotes (`parseLine_correct`). The grammar there, `Line`, is written with characters; when
the special characters are told apart it is the grammar of tokens the parser goes by
(`line_iff_fields`).

On a line it accepts, `parse` ends with `expect(Token::Eol)`, which steps over the NUL like over
any other expected token and so reads the character after it. On a line it refuses nothing is
read beyond the NUL (`parseLine_reads_iff`).
-/

set_option autoImplicit false

namespace Primitives.Csv

section Run

variable {k : Specials} {line : Str} {around : Int → Char} {n : Nat}

theorem init_scan : Scan (memory line around) k line (Parser.init (memory line around) k) line := by
  refine ⟨Int.le_refl 0, ?_, stands_memory line around, token_of_stands (stands_memory line around), ?_⟩
  · simp [Parser.init, nextsym, nextsym1]
  · intro a ha
    simp only [Parser.init, nextsym, nextsym1, List.nil_append, List.mem_singleton] at ha
    omega

variable (around) in
/-- A line of the language is accepted, and the character after its NUL is read. -/
theorem parseLine_of_fields {cols : Columns} (h : Fields k line cols) (hn : line.length < n) :
    ∃ st, parseLine (memory line around) k n = .ok st ∧ st.cols = cols ∧
      ((line.length : Int) + 1) ∈ st.reads := by
  obtain ⟨st₁, st₂, hrun, hmore, hscan, hcols⟩ := fields_of_fields h init_scan hn hn
  refine ⟨nextsym (memory line around) k st₂, ?_, hcols, ?_⟩
  · rw [parseLine, parse, fields, hrun]
    dsimp only
    rw [hmore]
    dsimp only
    have heol : st₂.sym = .eol := hscan.sym
    rw [expect, accept_of_eq heol]
  · have hp : st₂.p = line.length := by
      have hahead := hscan.ahead
      simpa using hahead
    simp [nextsym, nextsym1, hp]

variable (around) in
/-- A line is of the language, or it is refused with nothing read beyond its NUL. -/
theorem parseLine_total (hs : '\x00' ∉ line) (hn : line.length < n) :
    (∃ cols, Fields k line cols) ∨
    (∃ e, parseLine (memory line around) k n = .error e ∧ Throws (memory line around) k line e) := by
  have hinit : Scan (memory line around) k line (Parser.init (memory line around) k) line :=
    init_scan
  obtain ⟨e, hrun, he⟩ | ⟨st₁, st₂, f, cols, rest, hrun, hmore, hline, hf, hdel, hscan, -⟩ :=
    fields_total hinit hn hn
  · refine .inr ⟨e, ?_, he⟩
    rw [parseLine, parse, fields]
    obtain h | ⟨st₁, h, h'⟩ := hrun
    · rw [h]
    · rw [h]
      dsimp only
      rw [h']
  · by_cases hrest : rest = []
    · subst hrest
      rw [List.append_nil] at hline
      exact .inl ⟨cols, hline ▸ hf⟩
    · obtain ⟨c, t, rfl⟩ := List.exists_cons_of_ne_nil hrest
      have hne : headToken k (c :: t) ≠ .eol := by
        have hc : c ≠ '\x00' := fun h => hs (by rw [hline, h]; simp)
        simp only [headToken, token, hc, if_false]
        split_ifs <;> simp
      obtain ⟨e, herr, he⟩ := expect_of_ne hscan hne
      refine .inr ⟨e, ?_, he⟩
      rw [parseLine, parse, fields, hrun]
      dsimp only
      rw [hmore]
      exact herr

/-- **The parser reads beyond the terminating NUL on the lines it accepts and on no others.** -/
theorem parseLine_reads_iff (hs : '\x00' ∉ line) (hn : line.length < n) :
    (∀ a ∈ finalReads (parseLine (memory line around) k n), 0 ≤ a ∧ a ≤ line.length) ↔
      ¬ ∃ cols, Fields k line cols := by
  constructor
  · rintro hin ⟨cols, h⟩
    obtain ⟨st, hrun, -, hread⟩ := parseLine_of_fields around h hn
    rw [hrun] at hin
    have hle := (hin _ hread).2
    omega
  · intro hno
    obtain h | ⟨e, hrun, he⟩ := parseLine_total around (k := k) hs hn
    · exact absurd h hno
    · rw [hrun]
      exact he.reads

end Run

/-- The line `""`, a lone quote, is refused. -/
theorem parseLine_reads_lone_quote :
    (∀ a ∈ finalReads (parseLine (memory ['"'] fun _ => 'x') ⟨',', '"', '"'⟩ 2),
        0 ≤ a ∧ a ≤ (1 : Nat)) ↔ ¬ ∃ cols, Fields ⟨',', '"', '"'⟩ ['"'] cols :=
  parseLine_reads_iff (by decide) (by decide)

/-- On the line `a` the character after the NUL is read. -/
theorem parseLine_reads_beyond :
    ¬ ∀ a ∈ finalReads (parseLine (memory ['a'] fun _ => 'x') ⟨',', '"', '\\'⟩ 2),
      0 ≤ a ∧ a ≤ (1 : Nat) := by
  decide

/-! ## The grammar of characters -/

section Line

variable (k : Specials)

/-- The items of a quoted field, and the text they denote. -/
inductive Items : Str → Str → Prop
  | nil : Items [] []
  | char {c : Char} {s b : Str} : c ≠ k.quote → c ≠ k.escape → Items s b → Items (c :: s) (c :: b)
  | pair {s b : Str} : Items s b → Items (k.escape :: k.quote :: s) (k.quote :: b)

/-- A field and the column it denotes. -/
inductive LineField : Str → Option Str → Prop
  | unquoted {s : Str} : (∀ c ∈ s, c ≠ k.delimeter ∧ c ≠ k.quote ∧ c ≠ k.escape) →
      LineField s (if s = [] then none else some s)
  | quoted {s b : Str} : Items k s b → LineField (k.quote :: (s ++ [k.quote])) (some b)

/-- A line and the columns it denotes. -/
inductive Line : Str → Columns → Prop
  | last {f : Str} {col : Option Str} : LineField k f col → Line f [col]
  | cons {f s : Str} {col : Option Str} {cols : Columns} :
      LineField k f col → Line s cols → Line (f ++ k.delimeter :: s) (col :: cols)

/-- The special characters are told apart from each other and from NUL. The escape may be the
quote. -/
structure Specials.Distinct : Prop where
  quote : k.delimeter ≠ k.quote
  escape : k.delimeter ≠ k.escape
  delimeter_ne : k.delimeter ≠ '\x00'
  quote_ne : k.quote ≠ '\x00'
  escape_ne : k.escape ≠ '\x00'

variable {k}

theorem token_character {c : Char} :
    token k c = .character ↔ c ≠ '\x00' ∧ c ≠ k.delimeter ∧ c ≠ k.quote ∧ c ≠ k.escape := by
  unfold token
  split_ifs <;> simp_all

namespace Specials.Distinct

theorem token_delimeter (h : k.Distinct) {c : Char} :
    token k c = .delimeter ↔ c = k.delimeter := by
  have h₀ := h.delimeter_ne
  unfold token
  split_ifs <;> grind

theorem token_quote (h : k.Distinct) {c : Char} : token k c = .quote ↔ c = k.quote := by
  have h₀ := h.quote_ne
  have h₁ := h.quote
  unfold token
  split_ifs <;> grind

theorem token_tokEscape (h : k.Distinct) {c : Char} :
    token k c = tokEscape k ↔ c = k.escape := by
  have h₀ := h.escape_ne
  have h₁ := h.escape
  have h₂ := h.quote
  unfold token tokEscape
  split_ifs <;> grind

theorem items_iff (h : k.Distinct) {s b : Str} (hs : '\x00' ∉ s) :
    Items k s b ↔ QuotedBody k s b := by
  constructor
  · intro hi
    induction hi with
    | nil => exact .nil
    | @char c s b hq he _ ih =>
      obtain ⟨hc, hs⟩ := List.ne_and_not_mem_of_not_mem_cons hs
      refine .char ?_ (ih hs)
      by_cases hd : c = k.delimeter
      · exact .inr (h.token_delimeter.mpr hd)
      · exact .inl (token_character.mpr ⟨hc.symm, hd, hq, he⟩)
    | pair _ ih =>
      have hs' := (List.ne_and_not_mem_of_not_mem_cons (List.ne_and_not_mem_of_not_mem_cons hs).2).2
      exact .escaped (h.token_tokEscape.mpr rfl) (h.token_quote.mpr rfl) (ih hs')
  · intro hb
    induction hb with
    | nil => exact .nil
    | char hc _ ih =>
      have hs' := (List.ne_and_not_mem_of_not_mem_cons hs).2
      rcases hc with hc | hc
      · obtain ⟨-, -, hq, he⟩ := token_character.mp hc
        exact .char hq he (ih hs')
      · rw [h.token_delimeter] at hc
        subst hc
        exact .char h.quote h.escape (ih hs')
    | escaped hc hc' _ ih =>
      have hs' := (List.ne_and_not_mem_of_not_mem_cons (List.ne_and_not_mem_of_not_mem_cons hs).2).2
      rw [h.token_tokEscape] at hc
      rw [h.token_quote] at hc'
      subst hc hc'
      exact .pair (ih hs')

theorem lineField_iff (h : k.Distinct) {s : Str} {col : Option Str} (hs : '\x00' ∉ s) :
    LineField k s col ↔ Field k s col := by
  constructor
  · rintro (hc | hb)
    · by_cases hnil : s = []
      · subst hnil
        exact .null
      · rw [if_neg hnil]
        refine .unquoted hnil fun c hm => token_character.mpr ⟨?_, hc c hm⟩
        rintro rfl
        exact hs hm
    · have hs' := fun hm => hs (List.mem_cons_of_mem _ (List.mem_append_left _ hm))
      exact .quoted (h.token_quote.mpr rfl) ((h.items_iff hs').mp hb) (h.token_quote.mpr rfl)
  · intro hf
    cases hf with
    | null => exact .unquoted (s := []) (by simp)
    | unquoted hnil hc =>
      have hline := LineField.unquoted fun c hm => (token_character.mp (hc c hm)).2
      rwa [if_neg hnil] at hline
    | quoted hc hb hc' =>
      have hs' := fun hm => hs (List.mem_cons_of_mem _ (List.mem_append_left _ hm))
      rw [h.token_quote] at hc hc'
      subst hc hc'
      exact .quoted ((h.items_iff hs').mpr hb)

/-- The two grammars agree. -/
theorem line_iff_fields (h : k.Distinct) {s : Str} {cols : Columns} (hs : '\x00' ∉ s) :
    Line k s cols ↔ Fields k s cols := by
  constructor
  · intro hl
    induction hl with
    | last hf => exact .last ((h.lineField_iff hs).mp hf)
    | cons hf _ ih =>
      have hf' := fun hm => hs (List.mem_append_left _ hm)
      have hs' := fun hm => hs (List.mem_append_right _ (List.mem_cons_of_mem _ hm))
      exact .cons ((h.lineField_iff hf').mp hf) (h.token_delimeter.mpr rfl) (ih hs')
  · intro hl
    induction hl with
    | last hf => exact .last ((h.lineField_iff hs).mpr hf)
    | cons hf hc _ ih =>
      have hf' := fun hm => hs (List.mem_append_left _ hm)
      have hs' := fun hm => hs (List.mem_append_right _ (List.mem_cons_of_mem _ hm))
      rw [h.token_delimeter] at hc
      subst hc
      exact .cons ((h.lineField_iff hf').mpr hf) (ih hs')

end Specials.Distinct

end Line

/-- **`parse_line` succeeds on the lines of the language and on no others**, and returns the
columns the line denotes. -/
theorem parseLine_correct {k : Specials} (h : k.Distinct) {s : Str} (hs : '\x00' ∉ s)
    {around : Int → Char} {n : Nat} (hn : s.length < n) :
    (∀ cols, (∃ st, parseLine (memory s around) k n = .ok st ∧ st.cols = cols) ↔ Line k s cols) ∧
      ∀ e, parseLine (memory s around) k n = .error e → e.why ≠ .iterations := by
  refine ⟨fun cols => ⟨?_, fun hl => ?_⟩, ?_⟩
  · rintro ⟨st, hrun, rfl⟩
    obtain ⟨cols, hf⟩ | ⟨e, herr, -⟩ := parseLine_total around (k := k) hs hn
    · obtain ⟨st', hrun', rfl, -⟩ := parseLine_of_fields around hf hn
      cases hrun.symm.trans hrun'
      exact (h.line_iff_fields hs).mpr hf
    · cases hrun.symm.trans herr
  · obtain ⟨st, hrun, hcols, -⟩ :=
      parseLine_of_fields around ((h.line_iff_fields hs).mp hl) hn
    exact ⟨st, hrun, hcols⟩
  · intro e herr
    obtain ⟨cols, hf⟩ | ⟨e', herr', he, -⟩ := parseLine_total around (k := k) hs hn
    · obtain ⟨st, hrun, -⟩ := parseLine_of_fields around hf hn
      cases hrun.symm.trans herr
    · cases herr.symm.trans herr'
      exact he

/-- A quoted empty field, a null one and an escaped quote, the escape being the quote. -/
theorem parseLine_correct_quotes :
    (∀ cols, (∃ st, parseLine (memory "\"\",,\"\"\"\"".toList fun _ => 'x') ⟨',', '"', '"'⟩ 9 = .ok st ∧
        st.cols = cols) ↔ Line ⟨',', '"', '"'⟩ "\"\",,\"\"\"\"".toList cols) ∧
      ∀ e, parseLine (memory "\"\",,\"\"\"\"".toList fun _ => 'x') ⟨',', '"', '"'⟩ 9 = .error e →
        e.why ≠ .iterations :=
  parseLine_correct ⟨by decide, by decide, by decide, by decide, by decide⟩ (by decide) (by decide)

end Primitives.Csv
