import Primitives.Settings.Tokens

/-!
# Inline tables, and the entries with dotted keys

An entry `a = {k = "v", …}` of a settings file, with tables in the table to any depth, and the
entries `a.k = "v"` that are to mean the same, one a line. What the lexer reads of both is shown by
induction over the table.

The lexer is still in a value behind the bracket of a table in a table, so the line must end there; a
comma would begin a text. Keys in a table are single bare words. The key of the entry itself can have
parts in quotes, but outside of a key that begins with a bare word there is no point (`KeyText`).
-/

set_option autoImplicit false

namespace Primitives.Settings.Native

open Lib
open SettingPath (byte isCntrl isBare)

/-! ## Texts -/

/-- A part of a key. -/
inductive Part where
  | bare (w : Word)
  | quoted (q : Quoted)

def Part.text : Part → Bytes
  | .bare w => w.text
  | .quoted q => q.text

def Part.value : Part → Bytes
  | .bare w => w.text
  | .quoted q => q.value

/-- The parts of a key behind its first one. -/
def pointed (ps : List Part) : Bytes := ps.flatMap fun p => byte '.' :: p.text

/-- The key of an entry. -/
inductive KeyText where
  | bare (w : Word) (rest : List Part)
  | quoted (q : Quoted)

def KeyText.first : KeyText → Part
  | .bare w _ => .bare w
  | .quoted q => .quoted q

def KeyText.rest : KeyText → List Part
  | .bare _ rest => rest
  | .quoted _ => []

def KeyText.text (k : KeyText) : Bytes := k.first.text ++ pointed k.rest

def KeyText.path (k : KeyText) : Path := (k.first :: k.rest).map Part.value

/-- `" = "` -/
def equals : Bytes := [byte ' ', byte '=', byte ' ']

mutual

inductive InlineValue where
  | string (q : Quoted)
  | table (es : InlineTable)

inductive InlineTable where
  | nil
  | cons (k : Word) (v : InlineValue) (rest : InlineTable)

end

mutual

def InlineValue.text : InlineValue → Bytes
  | .string q => q.text
  | .table es => byte '\x7b' :: (es.text ++ [byte '\x7d', 10])

/-- The entries of a table, with commas between them. -/
def InlineTable.text : InlineTable → Bytes
  | .nil => []
  | .cons k v .nil => k.text ++ (equals ++ v.text)
  | .cons k v rest => k.text ++ (equals ++ (v.text ++ (byte ',' :: byte ' ' :: rest.text)))

end

/-- `a = {…}` -/
def inlineText (a : KeyText) (es : InlineTable) : Bytes :=
  a.text ++ (equals ++ byte '\x7b' :: (es.text ++ [byte '\x7d']))

mutual

def InlineValue.leaves : InlineValue → List (List Word × Quoted)
  | .string q => [([], q)]
  | .table es => es.leaves

/-- The strings in a table with the keys that lead to them. -/
def InlineTable.leaves : InlineTable → List (List Word × Quoted)
  | .nil => []
  | .cons k v rest => v.leaves.map (fun x => (k :: x.1, x.2)) ++ rest.leaves

end

/-- `a.k = "v"` -/
def dottedLine (a : KeyText) (x : List Word × Quoted) : Bytes :=
  a.text ++ (pointed (x.1.map .bare) ++ (equals ++ x.2.text))

/-- The entries that stand for a table, one a line. -/
def dottedText (a : KeyText) (es : InlineTable) : Bytes :=
  [10].intercalate (es.leaves.map (dottedLine a))

/-! ## Tokens -/

def Part.tokens : Part → List Token
  | .bare w => [.bareString w.text]
  | .quoted q => [.startBasicString, .basicString q.value]

def pointedTokens (ps : List Part) : List Token := ps.flatMap fun p => .point :: p.tokens

def KeyText.tokens (k : KeyText) : List Token := k.first.tokens ++ pointedTokens k.rest

mutual

def InlineValue.tokens : InlineValue → List Token
  | .string q => [.startBasicString, .basicString q.value]
  | .table es => .leftCurlyBracket :: (es.tokens ++ [.rightCurlyBracket])

def InlineTable.tokens : InlineTable → List Token
  | .nil => []
  | .cons k v .nil => .bareString k.text :: .kvDelimeter :: v.tokens
  | .cons k v rest =>
    .bareString k.text :: .kvDelimeter :: (v.tokens ++ .comma :: rest.tokens)

end

/-- What the lexer reads with these start conditions. -/
def toks (stack : List Condition) (s : Bytes) : List Token := lexer.tokens ⟨stack, []⟩ s

theorem tokens_eq_toks {stack : List Condition} (h : PlainStack stack) (str s : Bytes) :
    lexer.tokens ⟨stack, str⟩ s = toks stack s := tokens_str h str [] s

/-! ## Keys -/

/-- What can stand behind a part of a key. -/
def EndsPart (t : Bytes) : Prop := StopsAt isBare t ∧ t.head? ≠ some (byte '"')

theorem endsPart_cons {b : UInt8} (hbare : isBare b = false) (hquote : b ≠ byte '"') (t : Bytes) :
    EndsPart (b :: t) := by
  refine ⟨fun c hc => ?_, fun h => ?_⟩
  · rwa [← Option.some.inj hc]
  · exact hquote (Option.some.inj h)

theorem endsPart_point (t : Bytes) : EndsPart (byte '.' :: t) := endsPart_cons (by decide) (by decide) t

theorem endsPart_equals (t : Bytes) : EndsPart (equals ++ t) := endsPart_cons (by decide) (by decide) _

/-- A string in a key. -/
theorem toks_quoted_key (q : Quoted) {stack : List Condition} (hplain : PlainStack stack)
    (hcond : stack.headD .initial = .initial ∨ stack.headD .initial = .key) {t : Bytes}
    (ht : t.head? ≠ some (byte '"')) :
    toks stack (q.text ++ t) = .startBasicString :: .basicString q.value :: toks stack t := by
  have hstring : StringCondition (LexState.cond ⟨stack, []⟩) := by
    rcases hcond with h | h
    · exact .inl h
    · exact .inr (.inl h)
  have hfinish : LexState.finish ⟨.basic :: stack, q.value⟩ = ⟨stack, q.value⟩ := by
    refine if_neg fun h => ?_
    have h' : stack.headD .initial = .value := h
    rw [h'] at hcond
    rcases hcond with h | h <;> cases h
  rw [toks, q.tokens hstring ht, hfinish, tokens_eq_toks hplain]

/-- A part in a key that has begun with a bare word, or in a header. -/
theorem Part.toks_text (p : Part) {stack : List Condition} (hplain : PlainStack stack) {t : Bytes}
    (ht : EndsPart t) : toks (.key :: stack) (p.text ++ t) = p.tokens ++ toks (.key :: stack) t := by
  cases p with
  | bare w =>
    refine (w.tokens (.inr (.inl rfl)) ht.1).trans ?_
    rfl
  | quoted q => exact toks_quoted_key q (hplain.push (by decide)) (.inr rfl) ht.2

/-- Parts behind points. -/
theorem toks_pointed (ps : List Part) {stack : List Condition} (hplain : PlainStack stack)
    {t : Bytes} (ht : EndsPart t) :
    toks (.key :: stack) (pointed ps ++ t) = pointedTokens ps ++ toks (.key :: stack) t := by
  induction ps with
  | nil => rfl
  | cons p ps ih =>
    have hends : EndsPart (pointed ps ++ t) := by
      cases ps with
      | nil => exact ht
      | cons p' ps => exact endsPart_point _
    have hsplit : pointed (p :: ps) ++ t = byte '.' :: (p.text ++ (pointed ps ++ t)) := by
      simp [pointed]
    have hpoint : toks (.key :: stack) (byte '.' :: (p.text ++ (pointed ps ++ t))) =
        .point :: toks (.key :: stack) (p.text ++ (pointed ps ++ t)) := tokens_point rfl _
    rw [hsplit, hpoint, p.toks_text hplain hends, ih]
    simp [pointedTokens]

/-- `=` with blanks around it. -/
theorem toks_equals {stack stack' : List Condition} (hkey : KeyCondition (stack.headD .initial))
    (hstack : (if stack.headD .initial = .key then stack.tail else stack) = stack') {t : Bytes}
    (ht : StopsAt isBlank t) : toks stack (equals ++ t) = .kvDelimeter :: toks (.value :: stack') t := by
  have hcond : KeyCondition (LexState.cond ⟨stack, []⟩) := hkey
  have hblank : toks stack (equals ++ t) = toks stack (byte '=' :: [byte ' '] ++ t) :=
    tokens_blank (.inl hcond) (by decide) _
  have hstate : (if LexState.cond ⟨stack, []⟩ = .key then LexState.pop ⟨stack, []⟩ else ⟨stack, []⟩) =
      (⟨stack', []⟩ : LexState) := by
    rw [← hstack, LexState.cond]
    split <;> rfl
  rw [hblank, toks, tokens_equals hcond (List.forall_mem_singleton.mpr rfl) ht, hstate]
  rfl

/-- **The key of an entry**, and the `=` behind it. -/
theorem KeyText.toks_text (k : KeyText) {t : Bytes} (ht : StopsAt isBlank t) :
    toks [] (k.text ++ (equals ++ t)) = k.tokens ++ .kvDelimeter :: toks [.value] t := by
  cases k with
  | bare w rest =>
    have hends : EndsPart (pointed rest ++ (equals ++ t)) := by
      cases rest with
      | nil => exact endsPart_equals t
      | cons p rest => exact endsPart_point _
    have hword : toks [] (w.text ++ (pointed rest ++ (equals ++ t))) =
        .bareString w.text :: toks [.key] (pointed rest ++ (equals ++ t)) :=
      w.tokens (.inl rfl) hends.1
    have htext : (KeyText.bare w rest).text ++ (equals ++ t) =
        w.text ++ (pointed rest ++ (equals ++ t)) := List.append_assoc ..
    rw [htext, hword, toks_pointed rest .nil (endsPart_equals t),
      toks_equals (.inr (.inl rfl)) rfl ht]
    rfl
  | quoted q =>
    have htext : (KeyText.quoted q).text ++ (equals ++ t) = q.text ++ (equals ++ t) :=
      congrArg (· ++ (equals ++ t)) (List.append_nil q.text)
    rw [htext, toks_quoted_key q .nil (.inl rfl) (endsPart_equals t).2, toks_equals (.inl rfl) rfl ht]
    rfl

/-! ## Values -/

theorem toks_value_string (q : Quoted) {stack : List Condition} (hplain : PlainStack stack)
    {t : Bytes} (ht : t.head? ≠ some (byte '"')) :
    toks (.value :: stack) (q.text ++ t) =
      .startBasicString :: .basicString q.value :: toks stack t := by
  have hfinish : LexState.finish ⟨.basic :: .value :: stack, q.value⟩ = ⟨stack, q.value⟩ := rfl
  have hcond : StringCondition (LexState.cond ⟨.value :: stack, []⟩) := .inr (.inr rfl)
  rw [toks, q.tokens hcond ht, hfinish, tokens_eq_toks hplain]

theorem stopsAt_value (v : InlineValue) (t : Bytes) : StopsAt isBlank (v.text ++ t) := by
  intro c hc
  cases v with
  | string q =>
    rw [← Option.some.inj (show some (byte '"') = some c from hc)]
    decide
  | table es =>
    rw [← Option.some.inj (show some (byte '\x7b') = some c from hc)]
    decide

/-- A key in a table. -/
theorem toks_inline_key (k : Word) {stack : List Condition} {t : Bytes} (ht : StopsAt isBlank t) :
    toks (.inlineTable :: stack) (k.text ++ (equals ++ t)) =
      .bareString k.text :: .kvDelimeter :: toks (.value :: .inlineTable :: stack) t := by
  have hword : toks (.inlineTable :: stack) (k.text ++ (equals ++ t)) =
      .bareString k.text :: toks (.inlineTable :: stack) (equals ++ t) :=
    k.tokens (.inr (.inr rfl)) (endsPart_equals t).1
  have hstack : (if (Condition.inlineTable :: stack).headD .initial = .key then
      (Condition.inlineTable :: stack).tail else .inlineTable :: stack) = .inlineTable :: stack := rfl
  rw [hword, toks_equals (.inr (.inr rfl)) hstack ht]

mutual

/-- **A value**, in front of something that is no quote. -/
theorem InlineValue.toks_text (v : InlineValue) {stack : List Condition} (hplain : PlainStack stack)
    {t : Bytes} (ht : t.head? ≠ some (byte '"')) :
    toks (.value :: stack) (v.text ++ t) = v.tokens ++ toks stack t := by
  match v with
  | .string q => exact toks_value_string q hplain ht
  | .table es =>
    have hsplit : (InlineValue.table es).text ++ t =
        byte '\x7b' :: (es.text ++ (byte '\x7d' :: (10 :: t))) := by
      simp [InlineValue.text]
    have hopen : toks (.value :: stack) (byte '\x7b' :: (es.text ++ (byte '\x7d' :: (10 :: t)))) =
        .leftCurlyBracket ::
          toks (.inlineTable :: .value :: stack) (es.text ++ (byte '\x7d' :: (10 :: t))) :=
      tokens_leftCurly rfl _
    have hclose : toks (.inlineTable :: .value :: stack) (byte '\x7d' :: (10 :: t)) =
        .rightCurlyBracket :: toks (.value :: stack) (10 :: t) := tokens_rightCurly rfl _
    have hline : toks (.value :: stack) (10 :: t) = toks stack t := tokens_value_newline ..
    have hes := es.toks_text (hplain.push (c := .value) (by decide)) (10 :: t)
    rw [hsplit, hopen, hes, hclose, hline]
    simp [InlineValue.tokens]

/-- **The entries of a table**, with the bracket behind them. -/
theorem InlineTable.toks_text (es : InlineTable) {stack : List Condition}
    (hplain : PlainStack stack) (t : Bytes) :
    toks (.inlineTable :: stack) (es.text ++ byte '\x7d' :: t) =
      es.tokens ++ toks (.inlineTable :: stack) (byte '\x7d' :: t) := by
  have hplain' : PlainStack (.inlineTable :: stack) := hplain.push (by decide)
  match es with
  | .nil => rfl
  | .cons k v .nil =>
    have hsplit : (InlineTable.cons k v .nil).text ++ byte '\x7d' :: t =
        k.text ++ (equals ++ (v.text ++ byte '\x7d' :: t)) := by
      simp [InlineTable.text]
    have hquote : (byte '\x7d' :: t).head? ≠ some (byte '"') := fun h =>
      absurd (Option.some.inj h) (by decide)
    rw [hsplit, toks_inline_key k (stopsAt_value v _), v.toks_text hplain' hquote]
    rfl
  | .cons k v (.cons k' v' rest') =>
    have hsplit : (InlineTable.cons k v (.cons k' v' rest')).text ++ byte '\x7d' :: t =
        k.text ++ (equals ++ (v.text ++ (byte ',' :: byte ' ' ::
          ((InlineTable.cons k' v' rest').text ++ byte '\x7d' :: t)))) := by
      simp [InlineTable.text]
    have hquote : ∀ s : Bytes, (byte ',' :: s).head? ≠ some (byte '"') := fun s h =>
      absurd (Option.some.inj h) (by decide)
    have hcomma : ∀ s : Bytes, toks (.inlineTable :: stack) (byte ',' :: s) =
        .comma :: toks (.inlineTable :: stack) s := fun s => tokens_comma rfl s
    have hblank : ∀ s : Bytes, toks (.inlineTable :: stack) (byte ' ' :: s) =
        toks (.inlineTable :: stack) s := fun s =>
      tokens_blank (.inl (.inr (.inr rfl))) (by decide) s
    have hrest := (InlineTable.cons k' v' rest').toks_text hplain t
    rw [hsplit, toks_inline_key k (stopsAt_value v _), v.toks_text hplain' (hquote _), hcomma,
      hblank, hrest]
    simp [InlineTable.tokens]

end

/-! ## Entries -/

/-- **An entry with an inline table**, at the end of a line. -/
theorem toks_inlineText (a : KeyText) (es : InlineTable) {t : Bytes} (ht : LineEnd t) :
    toks [] (inlineText a es ++ t) =
      a.tokens ++ .kvDelimeter :: .leftCurlyBracket :: (es.tokens ++ .rightCurlyBracket ::
        toks [] t) := by
  have hsplit : inlineText a es ++ t =
      a.text ++ (equals ++ (byte '\x7b' :: (es.text ++ byte '\x7d' :: t))) := by
    simp [inlineText]
  have hstop : StopsAt isBlank (byte '\x7b' :: (es.text ++ byte '\x7d' :: t)) := by
    intro c hc
    rw [← Option.some.inj hc]
    decide
  have hopen : toks [.value] (byte '\x7b' :: (es.text ++ byte '\x7d' :: t)) =
      .leftCurlyBracket :: toks [.inlineTable, .value] (es.text ++ byte '\x7d' :: t) :=
    tokens_leftCurly rfl _
  have hclose : toks [.inlineTable, .value] (byte '\x7d' :: t) =
      .rightCurlyBracket :: toks [.value] t := tokens_rightCurly rfl _
  have hplain : PlainStack [.value] := fun c hc => List.mem_singleton.mp hc ▸ by decide
  have hend : toks [.value] t = toks [] t := ht.tokens_value []
  rw [hsplit, a.toks_text hstop, hopen, es.toks_text hplain, hclose, hend]

/-- **An entry with a dotted key**, behind a key that begins with a bare word. -/
theorem toks_dottedLine (w : Word) (rest : List Part) (x : List Word × Quoted) {t : Bytes}
    (ht : t.head? ≠ some (byte '"')) :
    toks [] (dottedLine (.bare w rest) x ++ t) =
      (KeyText.bare w (rest ++ x.1.map .bare)).tokens ++ .kvDelimeter :: .startBasicString ::
        .basicString x.2.value :: toks [] t := by
  have hsplit : dottedLine (.bare w rest) x ++ t =
      (KeyText.bare w (rest ++ x.1.map .bare)).text ++ (equals ++ (x.2.text ++ t)) := by
    simp [dottedLine, KeyText.text, KeyText.first, KeyText.rest, pointed]
  have hstop : StopsAt isBlank (x.2.text ++ t) := stopsAt_value (.string x.2) t
  rw [hsplit, KeyText.toks_text _ hstop, toks_value_string x.2 .nil ht]

/-- **No point** is read behind a string that is the whole key. -/
theorem toks_dottedLine_quoted (q : Quoted) {x : List Word × Quoted} (hx : x.1 ≠ []) (t : Bytes) :
    ∃ ts, toks [] (dottedLine (.quoted q) x ++ t) =
      .startBasicString :: .basicString q.value :: .errorSymbol :: ts := by
  obtain ⟨k, ks, hks⟩ := List.exists_cons_of_ne_nil hx
  have hsplit : dottedLine (.quoted q) x ++ t =
      q.text ++ (byte '.' :: (k.text ++ (pointed (ks.map .bare) ++ (equals ++ (x.2.text ++ t))))) := by
    simp [dottedLine, KeyText.text, KeyText.first, KeyText.rest, pointed, hks, Part.text]
  have hpoint : ∀ s, toks [] (byte '.' :: s) = .errorSymbol :: toks [] s := fun s =>
    tokens_error s (by decide +kernel)
  rw [hsplit, toks_quoted_key q .nil (.inl rfl) (endsPart_point _).2, hpoint]
  exact ⟨_, rfl⟩

end Primitives.Settings.Native
