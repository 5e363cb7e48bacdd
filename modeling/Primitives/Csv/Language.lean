import Primitives.Csv.Model

/-!
# The language of a line

The grammar that `csv.h` parses, over the tokens of single characters (`token`), for any
delimiter, quote and escape. `Fields s cols` says that the line `s` denotes the columns `cols`.

A parser has no choice but to take the longest quoted body and the longest run of characters.
`FieldThen f col rest` is a field so taken, with the rest of the line after it. Every text
starts with one, or with an opening quote that is never closed (`field_split`), and before a
delimiter or the end of the line a field is always the longest one (`Field.fieldThen`).
-/

set_option autoImplicit false

namespace Primitives.Csv

section Language

variable (k : Specials)

/-- The token that starts an escaped quote. -/
def tokEscape : Token := if k.quote = k.escape then .quote else .escape

/-- The token the parser is at, with this text ahead. -/
def headToken : Str → Token
  | [] => .eol
  | c :: _ => token k c

/-- What stands between the quotes of a quoted field, and the text it denotes. -/
inductive QuotedBody : Str → Str → Prop
  | nil : QuotedBody [] []
  | char {c : Char} {s b : Str} :
      token k c = .character ∨ token k c = .delimeter →
      QuotedBody s b → QuotedBody (c :: s) (c :: b)
  | escaped {c c' : Char} {s b : Str} :
      token k c = tokEscape k →
      token k c' = .quote → QuotedBody s b → QuotedBody (c :: c' :: s) (c' :: b)

/-- A field and the column it denotes. The empty field is a null column. -/
inductive Field : Str → Option Str → Prop
  | null : Field [] none
  | unquoted {s : Str} : s ≠ [] → (∀ c ∈ s, token k c = .character) →
      Field s (some s)
  | quoted {c c' : Char} {s b : Str} : token k c = .quote →
      QuotedBody k s b → token k c' = .quote →
      Field (c :: (s ++ [c'])) (some b)

/-- A line and the columns it denotes: fields with delimiters between them. -/
inductive Fields : Str → Columns → Prop
  | last {f : Str} {col : Option Str} : Field k f col → Fields f [col]
  | cons {f s : Str} {c : Char} {col : Option Str} {cols : Columns} :
      Field k f col → token k c = .delimeter →
      Fields s cols → Fields (f ++ c :: s) (col :: cols)

/-! ## Longest fields -/

/-- The text does not start with another item of a quoted body. -/
structure NoItem (s : Str) : Prop where
  notCharacter : headToken k s ≠ .character
  notDelimeter : headToken k s ≠ .delimeter
  notEscaped : ∀ {c c' : Char} {t : Str}, s = c :: c' :: t →
    token k c = tokEscape k →
    token k c' ≠ .quote

/-- A field that the rest of the line does not continue. -/
inductive FieldThen : Str → Option Str → Str → Prop
  | null {rest : Str} : headToken k rest ≠ .character →
      headToken k rest ≠ .quote → FieldThen [] none rest
  | unquoted {s rest : Str} : s ≠ [] →
      (∀ c ∈ s, token k c = .character) →
      headToken k rest ≠ .character → FieldThen s (some s) rest
  | quoted {c c' : Char} {s b rest : Str} : token k c = .quote →
      QuotedBody k s b → token k c' = .quote →
      NoItem k (c' :: rest) → FieldThen (c :: (s ++ [c'])) (some b) rest

/-- An opening quote, a body and no closing quote. -/
def Unclosed (s : Str) : Prop :=
  ∃ c body b rest, s = c :: (body ++ rest) ∧ token k c = .quote ∧
    QuotedBody k body b ∧ NoItem k rest ∧
    headToken k rest ≠ .quote

variable {k}

theorem FieldThen.field {f rest : Str} {col : Option Str}
    (h : FieldThen k f col rest) : Field k f col := by
  cases h with
  | null _ _ => exact .null
  | unquoted hs hc _ => exact .unquoted hs hc
  | quoted hc hb hc' _ => exact .quoted hc hb hc'

/-- Before a delimiter or the end of the line, a field is as long as it can be. -/
theorem Field.fieldThen {f rest : Str} {col : Option Str}
    (h : Field k f col)
    (hr : headToken k rest = .eol ∨
      headToken k rest = .delimeter) :
    FieldThen k f col rest := by
  have hchar : headToken k rest ≠ .character := by
    rcases hr with h | h <;> simp [h]
  have hquote : headToken k rest ≠ .quote := by
    rcases hr with h | h <;> simp [h]
  cases h with
  | null => exact .null hchar hquote
  | unquoted hs hc => exact .unquoted hs hc hchar
  | quoted hc hb hc' =>
    refine .quoted hc hb hc' ⟨?_, ?_, ?_⟩
    · simp [headToken, hc']
    · simp [headToken, hc']
    · rintro c₁ c₂ t heq - hc₂
      obtain ⟨rfl, rfl⟩ := List.cons.inj heq
      exact hquote hc₂

/-- Every text starts with a longest quoted body. -/
theorem quotedBody_split (s : Str) :
    ∃ body b rest, s = body ++ rest ∧ QuotedBody k body b ∧
      NoItem k rest := by
  induction hn : s.length using Nat.strong_induction_on generalizing s with
  | _ n ih =>
    subst hn
    by_cases hno : NoItem k s
    · exact ⟨[], [], s, rfl, .nil, hno⟩
    match s with
    | [] => exact absurd ⟨nofun, nofun, nofun⟩ hno
    | c :: s =>
      by_cases hc : token k c = .character ∨
          token k c = .delimeter
      · obtain ⟨body, b, rest, rfl, hb, hrest⟩ := ih s.length (by simp) s rfl
        exact ⟨c :: body, c :: b, rest, rfl, .char hc hb, hrest⟩
      rw [not_or] at hc
      by_cases hesc : ∃ c' t, s = c' :: t ∧
          token k c = tokEscape k ∧
          token k c' = .quote
      · obtain ⟨c', t, rfl, he, hq⟩ := hesc
        obtain ⟨body, b, rest, rfl, hb, hrest⟩ := ih t.length (by simp only [List.length_cons]; omega) t rfl
        exact ⟨c :: c' :: body, c' :: b, rest, rfl, .escaped he hq hb, hrest⟩
      · refine absurd ⟨hc.1, hc.2, fun {c₁ c₂ t} heq he hq => ?_⟩ hno
        obtain ⟨rfl, rfl⟩ := List.cons.inj heq
        exact hesc ⟨c₂, t, rfl, he, hq⟩

/-- Every text starts with a longest run of characters. -/
theorem characters_split (s : Str) :
    ∃ f rest, s = f ++ rest ∧ (∀ c ∈ f, token k c = .character) ∧
      headToken k rest ≠ .character := by
  induction s with
  | nil => exact ⟨[], [], rfl, by simp, by simp [headToken]⟩
  | cons c s ih =>
    by_cases hc : token k c = .character
    · obtain ⟨f, rest, rfl, hf, hrest⟩ := ih
      exact ⟨c :: f, rest, rfl, List.forall_mem_cons.mpr ⟨hc, hf⟩, hrest⟩
    · exact ⟨[], c :: s, rfl, by simp, hc⟩

/-- **Every text starts with a longest field, or with a quote that is not closed.** -/
theorem field_split (s : Str) :
    (∃ f col rest, s = f ++ rest ∧ FieldThen k f col rest) ∨
      Unclosed k s := by
  by_cases hq : headToken k s = .quote
  · cases s with
    | nil => cases hq
    | cons c s =>
      obtain ⟨body, b, rest, rfl, hb, hrest⟩ := quotedBody_split (k := k) s
      by_cases hclose : headToken k rest = .quote
      · cases rest with
        | nil => cases hclose
        | cons c' rest =>
          exact .inl ⟨c :: (body ++ [c']), some b, rest, by simp, .quoted hq hb hclose hrest⟩
      · exact .inr ⟨c, body, b, rest, rfl, hq, hb, hrest, hclose⟩
  · obtain ⟨f, rest, rfl, hf, hrest⟩ := characters_split (k := k) s
    by_cases hnil : f = []
    · subst hnil
      exact .inl ⟨[], none, rest, rfl, .null hrest hq⟩
    · exact .inl ⟨f, some f, rest, rfl, .unquoted hnil hf hrest⟩

end Language

end Primitives.Csv
