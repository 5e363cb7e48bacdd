import Primitives.Csv.Language

/-!
# What the parser does on a line

`Scan line st s` says where a parser is: the part `s` of the line is ahead, `sym` is the token
of its first character, and nothing outside the line and its NUL has been read. Every function
of the parser is given one statement in these terms, about the longest body, field or list of
fields ahead.
-/

set_option autoImplicit false

namespace Primitives.Csv

/-- The string stands in memory at `p`. -/
def Stands (mem : Int → Char) : Int → Str → Prop
  | _, [] => True
  | p, c :: s => mem p = c ∧ Stands mem (p + 1) s

theorem memory_of_lt {s : Str} {around : Int → Char} {n : Nat} {c : Char}
    (h : (s ++ ['\x00'])[n]? = some c) : memory s around n = c := by
  unfold memory
  rw [if_neg (by omega), Int.toNat_natCast, h]
  rfl

theorem stands_memory (s : Str) (around : Int → Char) :
    Stands (memory s around) 0 (s ++ ['\x00']) := by
  have hsuffix : ∀ (pre suf : Str), s ++ ['\x00'] = pre ++ suf →
      Stands (memory s around) pre.length suf := by
    intro pre suf
    induction suf generalizing pre with
    | nil => intro _; trivial
    | cons c suf ih =>
      intro h
      refine ⟨memory_of_lt (by rw [h]; simp), ?_⟩
      have htail := ih (pre ++ [c]) (by simp [h])
      simpa using htail
  exact hsuffix [] _ rfl

section Scan

variable {mem : Int → Char} {k : Specials} {line : Str}

/-- The parser has `s` ahead of it and has read nothing beyond the line's NUL. -/
structure Scan (mem : Int → Char) (k : Specials) (line : Str) (st : Parser) (s : Str) : Prop where
  nonneg : 0 ≤ st.p
  ahead : st.p + s.length = line.length
  stands : Stands mem st.p (s ++ ['\x00'])
  sym : st.sym = headToken k s
  reads : ∀ a ∈ st.reads, 0 ≤ a ∧ a ≤ line.length

/-- What `nextsym` finds is the token of the text that stands there. -/
theorem token_of_stands {p : Int} {s : Str} (h : Stands mem p (s ++ ['\x00'])) :
    token k (mem p) = headToken k s := by
  cases s with
  | nil => rw [h.1]; rfl
  | cons c s => rw [h.1]; rfl

theorem Scan.nextsym {st : Parser} {c : Char} {s : Str} (h : Scan mem k line st (c :: s)) :
    Scan mem k line (nextsym mem k st) s := by
  have hahead := h.ahead
  have hnonneg := h.nonneg
  simp only [List.length_cons] at hahead
  refine ⟨?_, ?_, h.stands.2, token_of_stands h.stands.2, ?_⟩
  · simp only [Csv.nextsym, nextsym1]
    omega
  · simp only [Csv.nextsym, nextsym1]
    omega
  · intro a ha
    simp only [Csv.nextsym, nextsym1, List.mem_append, List.mem_singleton] at ha
    rcases ha with ha | rfl
    · exact h.reads a ha
    · omega

/-- After a character is stepped over, `*(p - 1)` is that character. -/
theorem Scan.previous {st : Parser} {c : Char} {s : Str} (h : Scan mem k line st (c :: s)) :
    (previous mem (Csv.nextsym mem k st)).1 = c ∧
      Scan mem k line (previous mem (Csv.nextsym mem k st)).2 s := by
  have hp : (Csv.nextsym mem k st).p - 1 = st.p := by simp [Csv.nextsym, nextsym1]
  have hn := h.nextsym
  refine ⟨?_, hn.nonneg, hn.ahead, hn.stands, hn.sym, ?_⟩
  · rw [Csv.previous, hp]
    exact h.stands.1
  · intro a ha
    simp only [Csv.previous, hp, List.mem_append, List.mem_singleton] at ha
    rcases ha with ha | rfl
    · exact hn.reads a ha
    · have hahead := h.ahead
      exact ⟨h.nonneg, by omega⟩

theorem accept_of_eq {st : Parser} {t : Token} (h : st.sym = t) :
    accept mem k t st = (true, nextsym mem k st) := if_pos h

theorem accept_of_ne {st : Parser} {t : Token} (h : st.sym ≠ t) :
    accept mem k t st = (false, st) := if_neg h

theorem nextsym_cols (st : Parser) : (nextsym mem k st).cols = st.cols := rfl

theorem previous_cols (st : Parser) : (previous mem st).2.cols = st.cols := rfl

theorem Scan.setCols {st : Parser} {s : Str} (h : Scan mem k line st s) (cols : Columns) :
    Scan mem k line { st with cols := cols } s :=
  ⟨h.nonneg, h.ahead, h.stands, h.sym, h.reads⟩

/-! ## Quoted fields -/

theorem quotedStep_char {st : Parser} {c : Char} {s : Str} (h : Scan mem k line st (c :: s))
    (hc : token k c = .character ∨ token k c = .delimeter) :
    quotedStep mem k st = (true, nextsym mem k st) := by
  have hsym : st.sym = token k c := h.sym
  rcases hc with hc | hc
  · rw [quotedStep, accept_of_eq (hsym.trans hc)]
  · rw [quotedStep, accept_of_ne (by simp [hsym, hc])]
    simp only [accept_of_eq (hsym.trans hc)]

theorem quotedStep_skip {st : Parser} (h₁ : st.sym ≠ .character) (h₂ : st.sym ≠ .delimeter) :
    quotedStep mem k st = acceptQuotedSymbol mem k st := by
  rw [quotedStep, accept_of_ne h₁]
  simp only [accept_of_ne h₂]

theorem tokEscape_ne (k : Specials) :
    tokEscape k ≠ .character ∧ tokEscape k ≠ .delimeter ∧ tokEscape k ≠ .eol := by
  unfold tokEscape
  split <;> simp

/-- The escape and the quote are stepped over together. -/
theorem quotedStep_escaped {st : Parser} {c c' : Char} {s : Str}
    (h : Scan mem k line st (c :: c' :: s)) (hc : token k c = tokEscape k)
    (hc' : token k c' = .quote) :
    ∃ st', quotedStep mem k st = (true, st') ∧ st'.cols = st.cols ∧
      (previous mem st').1 = c' ∧ Scan mem k line (previous mem st').2 s := by
  have hsym : st.sym = tokEscape k := h.sym.trans hc
  have hstep := h.nextsym
  have hquote : (nextsym1 mem k st).1 = .quote := hstep.sym.trans hc'
  obtain ⟨hprev, hscan⟩ := hstep.previous
  refine ⟨nextsym mem k (nextsym mem k st), ?_, rfl, hprev, hscan⟩
  have hpair : nextsym1 mem k st = (.quote, (nextsym1 mem k st).2) := Prod.ext hquote rfl
  rw [quotedStep_skip (hsym ▸ (tokEscape_ne k).1) (hsym ▸ (tokEscape_ne k).2.1),
    acceptQuotedSymbol, ← tokEscape, if_neg (not_not_intro hsym), hpair]
  rfl

/-- Where no item follows, the parser stays, having looked at most one character ahead. -/
theorem quotedStep_none {st : Parser} {s : Str} (h : Scan mem k line st s) (hno : NoItem k s) :
    ∃ st', quotedStep mem k st = (false, st') ∧ st'.cols = st.cols ∧ Scan mem k line st' s := by
  rw [quotedStep_skip (h.sym ▸ hno.notCharacter) (h.sym ▸ hno.notDelimeter), acceptQuotedSymbol,
    ← tokEscape]
  by_cases hsym : st.sym = tokEscape k
  swap
  · rw [if_pos hsym]
    exact ⟨st, rfl, rfl, h⟩
  cases s with
  | nil => exact absurd (hsym.symm.trans h.sym) (tokEscape_ne k).2.2
  | cons c t =>
    have hstep := h.nextsym
    have hnext : (nextsym1 mem k st).1 ≠ .quote := by
      intro hq
      have htok : headToken k t = .quote := hstep.sym.symm.trans hq
      cases t with
      | nil => cases htok
      | cons c' t => exact hno.notEscaped rfl (h.sym.symm.trans hsym) htok
    refine ⟨{ (nextsym1 mem k st).2 with p := (nextsym1 mem k st).2.p - 1 }, ?_, rfl, ?_⟩
    · rw [if_neg (not_not_intro hsym)]
      split
      · rename_i heq
        exact absurd (congrArg Prod.fst heq) hnext
      · rename_i heq
        rw [heq]
    · have hp : (nextsym1 mem k st).2.p - 1 = st.p := by simp [nextsym1]
      exact ⟨by rw [hp]; exact h.nonneg, by rw [hp]; exact h.ahead, by rw [hp]; exact h.stands,
        h.sym, hstep.reads⟩

theorem quotedField_body {body b rest : Str} (hb : QuotedBody k body b) (hno : NoItem k rest) :
    ∀ {n : Nat} (buf : Str) {st : Parser}, Scan mem k line st (body ++ rest) → body.length < n →
      ∃ st', quotedField mem k n buf st = .ok st' ∧ Scan mem k line st' rest ∧
        st'.cols = st.cols ++ [some (buf ++ b)] := by
  induction hb with
  | nil =>
    intro n buf st h hn
    obtain ⟨n, rfl⟩ := Nat.exists_eq_succ_of_ne_zero (Nat.ne_zero_of_lt hn)
    obtain ⟨st', hstep, hcols, hscan⟩ := quotedStep_none h hno
    refine ⟨{ st' with cols := st'.cols ++ [some buf] }, ?_, hscan.setCols _, by simp [hcols]⟩
    rw [quotedField, hstep]
  | @char c s b hc _ ih =>
    intro n buf st h hn
    obtain ⟨n, rfl⟩ := Nat.exists_eq_succ_of_ne_zero (Nat.ne_zero_of_lt hn)
    obtain ⟨hprev, hscan⟩ := h.previous
    obtain ⟨st', hrun, hscan', hcols⟩ := ih (n := n) (buf ++ [c]) hscan (by simpa using hn)
    refine ⟨st', ?_, hscan', ?_⟩
    · rw [quotedField, quotedStep_char h hc]
      dsimp only
      rw [hprev, hrun]
    · rw [hcols, previous_cols, nextsym_cols]
      simp
  | @escaped c c' s b hc hc' _ ih =>
    intro n buf st h hn
    obtain ⟨n, rfl⟩ := Nat.exists_eq_succ_of_ne_zero (Nat.ne_zero_of_lt hn)
    obtain ⟨st₁, hstep, hcols₁, hprev, hscan⟩ := quotedStep_escaped h hc hc'
    obtain ⟨st', hrun, hscan', hcols⟩ := ih (n := n) (buf ++ [c']) hscan (by simp at hn; omega)
    refine ⟨st', ?_, hscan', ?_⟩
    · rw [quotedField, hstep]
      dsimp only
      rw [hprev, hrun]
    · rw [hcols, previous_cols, hcols₁]
      simp

/-! ## Other fields -/

theorem normalField_run {f rest : Str} (hf : ∀ c ∈ f, token k c = .character)
    (hrest : headToken k rest ≠ .character) :
    ∀ {n : Nat} (buf : Str) (hasChars : Bool) {st : Parser}, Scan mem k line st (f ++ rest) →
      f.length < n →
      ∃ st', normalField mem k n buf hasChars st = .ok st' ∧ Scan mem k line st' rest ∧
        st'.cols = st.cols ++ [if hasChars ∨ f ≠ [] then some (buf ++ f) else none] := by
  induction f with
  | nil =>
    intro n buf hasChars st h hn
    obtain ⟨n, rfl⟩ := Nat.exists_eq_succ_of_ne_zero (Nat.ne_zero_of_lt hn)
    refine ⟨{ st with cols := st.cols ++ [if hasChars then some buf else none] }, ?_,
      h.setCols _, by simp⟩
    rw [normalField, accept_of_ne (h.sym ▸ hrest)]
  | cons c f ih =>
    intro n buf hasChars st h hn
    obtain ⟨n, rfl⟩ := Nat.exists_eq_succ_of_ne_zero (Nat.ne_zero_of_lt hn)
    obtain ⟨hc, hf⟩ := List.forall_mem_cons.mp hf
    obtain ⟨hprev, hscan⟩ := h.previous
    obtain ⟨st', hrun, hscan', hcols⟩ := ih hf (buf ++ [c]) true hscan (by simpa using hn)
    refine ⟨st', ?_, hscan', ?_⟩
    · rw [normalField, accept_of_eq (h.sym.trans hc)]
      dsimp only
      rw [hprev, hrun]
    · rw [hcols, previous_cols, nextsym_cols]
      simp

/-- **A longest field is parsed** to the column it denotes. -/
theorem field_then {f rest : Str} {col : Option Str} (hf : FieldThen k f col rest) {n : Nat}
    {st : Parser} (h : Scan mem k line st (f ++ rest)) (hn : f.length < n) :
    ∃ st', field mem k n st = .ok st' ∧ Scan mem k line st' rest ∧
      st'.cols = st.cols ++ [col] := by
  cases hf with
  | null hchar hquote =>
    obtain ⟨st', hrun, hscan, hcols⟩ := normalField_run (by simp) hchar [] false h hn
    refine ⟨st', ?_, hscan, by simpa using hcols⟩
    rw [field, accept_of_ne (h.sym ▸ hquote)]
    exact hrun
  | unquoted hf hc hchar =>
    obtain ⟨st', hrun, hscan, hcols⟩ := normalField_run hc hchar [] false h hn
    refine ⟨st', ?_, hscan, by simpa [hf] using hcols⟩
    have hsym : st.sym ≠ .quote := by
      obtain ⟨c, t, rfl⟩ := List.exists_cons_of_ne_nil hf
      have hchar : st.sym = .character := h.sym.trans (hc c (by simp))
      simp [hchar]
    rw [field, accept_of_ne hsym]
    exact hrun
  | @quoted c c' s b _ hc hb hc' hno =>
    have hahead : c :: (s ++ [c']) ++ rest = c :: (s ++ c' :: rest) := by simp
    rw [hahead] at h
    obtain ⟨st₁, hbody, hscan₁, hcols⟩ :=
      quotedField_body hb hno [] h.nextsym (n := n) (by simp at hn; omega)
    refine ⟨nextsym mem k st₁, ?_, hscan₁.nextsym, ?_⟩
    · rw [field, accept_of_eq (h.sym.trans hc)]
      dsimp only
      rw [hbody]
      dsimp only
      rw [expect, accept_of_eq (hscan₁.sym.trans hc')]
    · rw [nextsym_cols, hcols, nextsym_cols]
      simp

/-- An exception that is not the model's, with nothing read beyond the line's NUL. -/
def Throws (mem : Int → Char) (k : Specials) (line : Str) (t : Thrown) : Prop :=
  t.why ≠ .iterations ∧ ∃ s, Scan mem k line t.parser s

theorem expect_of_ne {st : Parser} {s : Str} {t : Token} (h : Scan mem k line st s)
    (hne : headToken k s ≠ t) : ∃ e, expect mem k t st = .error e ∧ Throws mem k line e := by
  rw [expect, accept_of_ne (h.sym ▸ hne)]
  exact ⟨_, rfl, nofun, s, h⟩

/-- **A quote that is not closed is refused.** -/
theorem field_unclosed {s : Str} (hs : Unclosed k s) {n : Nat} {st : Parser}
    (h : Scan mem k line st s) (hn : s.length < n) :
    ∃ e, field mem k n st = .error e ∧ Throws mem k line e := by
  obtain ⟨c, body, b, rest, rfl, hc, hb, hno, hclose⟩ := hs
  obtain ⟨st₁, hbody, hscan₁, -⟩ :=
    quotedField_body hb hno [] h.nextsym (n := n) (by simp at hn; omega)
  obtain ⟨e, hrun, he⟩ := expect_of_ne hscan₁ hclose
  refine ⟨e, ?_, he⟩
  rw [field, accept_of_eq (h.sym.trans hc)]
  dsimp only
  rw [hbody]
  exact hrun

/-! ## Lists of fields -/

theorem Throws.reads {e : Thrown} (h : Throws mem k line e) :
    ∀ a ∈ e.parser.reads, 0 ≤ a ∧ a ≤ line.length := by
  obtain ⟨-, s, hs⟩ := h
  exact hs.reads

/-- A line of the language is parsed to the columns it denotes. -/
theorem fields_of_fields {s : Str} {cols : Columns} (hs : Fields k s cols) :
    ∀ {n m : Nat} {st : Parser}, Scan mem k line st s → s.length < n → s.length < m →
      ∃ st₁ st', field mem k n st = .ok st₁ ∧ moreFields mem k m st₁ = .ok st' ∧
        Scan mem k line st' [] ∧ st'.cols = st.cols ++ cols := by
  induction hs with
  | @last f col hf =>
    intro n m st h hn hm
    obtain ⟨m, rfl⟩ := Nat.exists_eq_succ_of_ne_zero (Nat.ne_zero_of_lt hm)
    rw [← List.append_nil f] at h
    obtain ⟨st₁, hrun, hscan, hcols⟩ := field_then (hf.fieldThen (.inl rfl)) h hn
    refine ⟨st₁, st₁, hrun, ?_, hscan, hcols⟩
    rw [moreFields, accept_of_ne (by simp [hscan.sym, headToken])]
  | @cons f s c col cols hf hc _ ih =>
    intro n m st h hn hm
    obtain ⟨m, rfl⟩ := Nat.exists_eq_succ_of_ne_zero (Nat.ne_zero_of_lt hm)
    simp only [List.length_append, List.length_cons] at hn hm
    have hrest : headToken k (c :: s) = .delimeter := hc
    obtain ⟨st₁, hrun, hscan, hcols⟩ :=
      field_then (n := n) (hf.fieldThen (.inr hrest)) h (by omega)
    obtain ⟨st₂, st', hrun₂, hmore, hscan', hcols'⟩ :=
      ih (n := m) (m := m) hscan.nextsym (by omega) (by omega)
    refine ⟨st₁, st', hrun, ?_, hscan', ?_⟩
    · rw [moreFields, accept_of_eq (hscan.sym.trans hc)]
      dsimp only
      rw [hrun₂]
      exact hmore
    · rw [hcols', nextsym_cols, hcols]
      simp

/-- What the parser has read of any line when it is done with the fields. -/
theorem fields_total {s : Str} :
    ∀ {n m : Nat} {st : Parser}, Scan mem k line st s → s.length < n → s.length < m →
      (∃ e, (field mem k n st = .error e ∨
        ∃ st₁, field mem k n st = .ok st₁ ∧ moreFields mem k m st₁ = .error e) ∧
        Throws mem k line e) ∨
      (∃ st₁ st' f cols rest, field mem k n st = .ok st₁ ∧ moreFields mem k m st₁ = .ok st' ∧
        s = f ++ rest ∧ Fields k f cols ∧ headToken k rest ≠ .delimeter ∧
        Scan mem k line st' rest ∧ st'.cols = st.cols ++ cols) := by
  induction hlen : s.length using Nat.strong_induction_on generalizing s with
  | _ len ih =>
    subst hlen
    intro n m st h hn hm
    obtain ⟨m, rfl⟩ := Nat.exists_eq_succ_of_ne_zero (Nat.ne_zero_of_lt hm)
    obtain ⟨f, col, rest, rfl, hf⟩ | hun := field_split (k := k) s
    swap
    · obtain ⟨e, hrun, he⟩ := field_unclosed hun h hn
      exact .inl ⟨e, .inl hrun, he⟩
    simp only [List.length_append] at hn hm ih
    obtain ⟨st₁, hrun, hscan, hcols⟩ := field_then (n := n) hf h (by omega)
    by_cases hdel : headToken k rest = .delimeter
    swap
    · refine .inr ⟨st₁, st₁, f, [col], rest, hrun, ?_, rfl, .last hf.field, hdel, hscan, hcols⟩
      rw [moreFields, accept_of_ne (hscan.sym ▸ hdel)]
    cases rest with
    | nil => cases hdel
    | cons c rest =>
      simp only [List.length_cons] at hn hm ih
      obtain ⟨e, hthrow, he⟩ | ⟨st₂, st', f', cols, rest', hrun₂, hmore₂, rfl, hfs, hdel', hscan',
        hcols'⟩ := @ih rest.length (by omega) rest rfl m m (nextsym mem k st₁) hscan.nextsym
          (by omega) (by omega)
      · refine .inl ⟨e, .inr ⟨st₁, hrun, ?_⟩, he⟩
        rw [moreFields, accept_of_eq (hscan.sym.trans hdel)]
        obtain h₂ | ⟨st₂, h₂, h₃⟩ := hthrow
        · simp only [h₂]
        · simp only [h₂]
          exact h₃
      · refine .inr ⟨st₁, st', f ++ c :: f', col :: cols, rest', hrun, ?_, by simp,
          .cons hf.field hdel hfs, hdel', hscan', ?_⟩
        · rw [moreFields, accept_of_eq (hscan.sym.trans hdel)]
          simp only [hrun₂]
          exact hmore₂
        · rw [hcols', nextsym_cols, hcols]
          simp

end Scan

end Primitives.Csv
