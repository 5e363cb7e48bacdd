import Primitives.Settings.Entries

/-!
# Inline tables and dotted keys

What a text loads to when an entry with an inline table is written as entries with dotted keys.

With no table in force the two are the same, whatever stands before them and behind them. With the
table `T` in force they are not: the settings of the inline table have `T` in front of their keys when
the table gets its own key, with `T` in front of it as well. So `a = {k = "v"}` under `[t]` is
`t.a.t.k`, and `a.k = "v"` is `t.a.k` (`inline_dotted_iff`). Behind a key in quotes the second form is
not even accepted.
-/

set_option autoImplicit false

namespace Primitives.Settings.Native

open Lib RegularExpression
open SettingPath (byte isBare isCntrl)

/-- A text behind which the table with the key `T` is in force, with the settings `m`. -/
def Before (before : Bytes) (T : Path) (m : Entries) : Prop :=
  ∀ rest, load (before ++ rest) = loadFrom T m rest

theorem loadFrom_nil (T : Path) (m : Entries) : loadFrom T m [] = some m := rfl

/-- **One setting** of a text. -/
theorem loadFrom_setting {kt vt : List Token} {k T T' : Path} (hk : IsKey kt k) {m' : Entries}
    {s rest : Bytes} (htoks : toks [] s = kt ++ .kvDelimeter :: (vt ++ toks [] rest))
    (hset : ∀ n, kt.length ≤ n → vt.length < n →
      setting (n + 1) T (kt ++ .kvDelimeter :: (vt ++ toks [] rest)) = some (m', T', toks [] rest))
    (m : Entries) : loadFrom T m s = loadFrom T' (insert m m'.entries) rest := by
  obtain ⟨t, kt', rfl, -, -⟩ := hk.head
  have hone : setting (toks [] s).length T (toks [] s) = some (m', T', toks [] rest) := by
    rw [htoks]
    refine hset _ ?_ ?_
    · simp
    · simp
      omega
  rw [htoks] at hone
  have hrest := settings_of_setting hone m
  rw [loadFrom, loadFrom]
  change settings (toks [] s).length T m (toks [] s) = _
  rw [htoks]
  exact hrest

/-- **An entry with an inline table.** -/
theorem loadFrom_inlineText (a : KeyText) (es : InlineTable) {after : Bytes} (h : LineEnd after)
    (T : Path) (m : Entries) : loadFrom T m (inlineText a es ++ after) =
      loadFrom T (insert m ((InlineValue.table es).loaded T a.path)) after := by
  have htoks : toks [] (inlineText a es ++ after) =
      a.tokens ++ .kvDelimeter :: ((InlineValue.table es).tokens ++ toks [] after) := by
    rw [toks_inlineText a es h]
    simp [InlineValue.tokens]
  rw [loadFrom_setting a.isKey htoks (fun n hkn hn =>
    (InlineValue.table es).setting_tokens a.isKey hkn hn T (toks [] after)), insert_entries]

/-- The entry that a dotted key stands for. -/
def dottedEntry (T : Path) (a : KeyText) (x : List Word × Quoted) : Path × Setting Value :=
  (T ++ (a.path ++ x.1.map Word.text), assign (.string x.2.value))

/-- **An entry with a dotted key.** -/
theorem loadFrom_dottedLine (w : Word) (rest : List Part) (x : List Word × Quoted) {after : Bytes}
    (h : after.head? ≠ some (byte '"')) (T : Path) (m : Entries) :
    loadFrom T m (dottedLine (.bare w rest) x ++ after) =
      loadFrom T (insert m [dottedEntry T (.bare w rest) x]) after := by
  have hk := (KeyText.bare w (rest ++ x.1.map .bare)).isKey
  have hpath : (KeyText.bare w (rest ++ x.1.map .bare)).path =
      (KeyText.bare w rest).path ++ x.1.map Word.text := by
    simp [KeyText.path, KeyText.first, KeyText.rest, Part.value]
  rw [loadFrom_setting hk (toks_dottedLine w rest x h) (fun n hkn hn =>
    (InlineValue.string x.2).setting_tokens hk hkn hn T (toks [] after)), insert_entries,
    InlineValue.loaded, hpath]
  rfl

/-- A line that has ended. -/
theorem loadFrom_newline (T : Path) (m : Entries) (s : Bytes) :
    loadFrom T m (10 :: s) = loadFrom T m s := by
  rw [loadFrom, loadFrom, tokens_initial_newline]

/-- **Entries with dotted keys**, one a line. -/
theorem loadFrom_dottedLines (w : Word) (rest : List Part) (l : List (List Word × Quoted))
    {after : Bytes} (h : after.head? ≠ some (byte '"')) (T : Path) (m : Entries) :
    loadFrom T m ([10].intercalate (l.map (dottedLine (.bare w rest))) ++ after) =
      loadFrom T (insert m (l.map (dottedEntry T (.bare w rest)))) after := by
  induction l generalizing m with
  | nil => rfl
  | cons x l ih =>
    cases l with
    | nil =>
      have hline : [10].intercalate ([x].map (dottedLine (.bare w rest))) =
          dottedLine (.bare w rest) x := by simp [List.intercalate]
      rw [hline, loadFrom_dottedLine w rest x h]
      rfl
    | cons y l =>
      have hsplit : [10].intercalate ((x :: y :: l).map (dottedLine (.bare w rest))) ++ after =
          dottedLine (.bare w rest) x ++
            (10 :: ([10].intercalate ((y :: l).map (dottedLine (.bare w rest))) ++ after)) := by
        simp [List.intercalate]
      have hquote : (10 :: ([10].intercalate ((y :: l).map (dottedLine (.bare w rest))) ++
          after)).head? ≠ some (byte '"') := fun heq => absurd (Option.some.inj heq) (by decide)
      rw [hsplit, loadFrom_dottedLine w rest x hquote, loadFrom_newline, ih, ← insert_append]
      rfl

/-- **Behind a key in quotes** no point is read, and a text with one is refused. -/
theorem loadFrom_dottedLine_quoted (q : Quoted) {x : List Word × Quoted} (hx : x.1 ≠ [])
    (T : Path) (m : Entries) (after : Bytes) :
    loadFrom T m (dottedLine (.quoted q) x ++ after) = none := by
  obtain ⟨ts, htoks⟩ := toks_dottedLine_quoted q hx after
  rw [loadFrom]
  change settings (toks [] _).length T m (toks [] _) = none
  rw [htoks]
  exact settings_of_setting_none rfl m

/-! ## Headers -/

/-- `[t]`, with the line. -/
def header : List Part → Bytes
  | [] => []
  | p :: ps => byte '[' :: (p.text ++ (pointed ps ++ [byte ']', 10]))

theorem endsPart_bracket (t : Bytes) : EndsPart (byte ']' :: t) := endsPart_cons (by decide) (by decide) t

/-- The end of a header. -/
theorem toks_header_end (s : Bytes) :
    toks [.key, .table] (byte ']' :: 10 :: s) = .rightSquareBracket :: toks [] s := by
  have hbracket : toks [.key, .table] ([byte ']'] ++ 10 :: s) =
      .rightSquareBracket :: toks [.table] (10 :: s) := by
    refine tokens_one _ (w := []) (r := .keyEnd) (by decide +kernel) ?_ fun v hv hpre h => ?_
    · have hempty : [] ∈ (star blank).matches' :=
        mem_star_blank.mpr fun _ hc => absurd hc List.not_mem_nil
      exact mem_comp.mpr ⟨_, mem_word.mpr rfl, [], hempty, rfl⟩
    · obtain ⟨u, hu, b, hb, heq⟩ := mem_comp.mp h
      obtain rfl := mem_word.mp hu
      obtain ⟨-, rfl⟩ := List.cons.inj heq
      obtain ⟨c, v, rfl⟩ := List.exists_cons_of_ne_nil hv
      obtain ⟨rfl, -⟩ := List.cons_prefix_cons.mp hpre
      have hblank := mem_star_blank.mp hb 10 List.mem_cons_self
      exact absurd hblank (by decide)
  have hline : toks [.table] (10 :: s) = toks [] s :=
    tokens_lineEnd ⟨[.table], []⟩ (w := []) (r := .newline) (by decide +kernel) rfl (.inl rfl) s
  exact hbracket.trans (congrArg _ hline)

theorem toks_header (p : Part) (ps : List Part) (s : Bytes) :
    toks [] (header (p :: ps) ++ s) = .leftSquareBracket ::
      (p.tokens ++ (pointedTokens ps ++ .rightSquareBracket :: toks [] s)) := by
  have hplain : PlainStack [.table] := fun c hc => List.mem_singleton.mp hc ▸ by decide
  have hends : EndsPart (pointed ps ++ byte ']' :: 10 :: s) := by
    cases ps with
    | nil => exact endsPart_bracket _
    | cons p' ps => exact endsPart_point _
  have hsplit : header (p :: ps) ++ s =
      byte '[' :: (p.text ++ (pointed ps ++ byte ']' :: 10 :: s)) := by
    simp [header]
  have hopen : ∀ t, toks [] (byte '[' :: t) = .leftSquareBracket :: toks [.key, .table] t := fun t =>
    tokens_word (r := .table) t (by decide +kernel) rfl
  rw [hsplit, hopen, p.toks_text hplain hends, toks_pointed ps hplain (endsPart_bracket _),
    toks_header_end]

/-- **Behind a header** its table is in force. -/
theorem before_header (ps : List Part) :
    Before (header ps) (ps.map Part.value) SortedMap.empty := by
  intro rest
  cases ps with
  | nil => rfl
  | cons p ps =>
    have htoks := toks_header p ps rest
    have hset : setting (toks [] (header (p :: ps) ++ rest)).length []
        (toks [] (header (p :: ps) ++ rest)) =
        some (SortedMap.empty, (p :: ps).map Part.value, toks [] rest) := by
      rw [htoks]
      refine setting_header p ps ?_ [] _
      have hpointed := pointedTokens_length ps
      simp
      omega
    rw [htoks] at hset
    rw [load, loadFrom, loadFrom]
    change settings (toks [] _).length [] _ (toks [] _) = _
    rw [htoks]
    exact settings_of_setting hset _

/-! ## The two forms -/

theorem mem_keys_insert {l : List (Path × Setting Value)} {k : Path} :
    k ∈ (insert SortedMap.empty l).keys ↔ ∃ x ∈ l, x.1 = k := by
  have hlookup := SortedMap.lookup_foldl_emplace (SortedMap.empty : Entries) l k
  rw [← SortedMap.lookup_isSome, insert, hlookup, SortedMap.lookup_empty, Option.none_or,
    Option.isSome_map, List.find?_isSome]
  simp only [decide_eq_true_eq]

mutual

/-- With no table in force a table's settings are those of its dotted keys. -/
theorem InlineValue.loaded_nil (v : InlineValue) (k : Path) :
    v.loaded [] k = v.leaves.map fun x => (k ++ x.1.map Word.text, assign (.string x.2.value)) := by
  match v with
  | .string q => simp [InlineValue.loaded, InlineValue.leaves]
  | .table es =>
    rw [InlineValue.loaded, es.loaded_nil, InlineValue.leaves, List.map_map]
    rfl

theorem InlineTable.loaded_nil (es : InlineTable) :
    es.loaded [] = es.leaves.map fun x => (x.1.map Word.text, assign (.string x.2.value)) := by
  match es with
  | .nil => rfl
  | .cons k v rest =>
    rw [InlineTable.loaded, v.loaded_nil, rest.loaded_nil, InlineTable.leaves, List.map_append,
      List.map_map]
    rfl

end

mutual

/-- With a table in force the keys are longer by its key for each level. -/
theorem InlineValue.length_of_mem_loaded (v : InlineValue) (T k : Path) {y : Path × Setting Value}
    (hy : y ∈ v.loaded T k) : ∃ x ∈ v.leaves, x.1.length + T.length + k.length ≤ y.1.length := by
  match v with
  | .string q =>
    refine ⟨([], q), List.mem_singleton_self _, ?_⟩
    rw [List.mem_singleton.mp hy]
    simp
  | .table es =>
    obtain ⟨z, hz, rfl⟩ := List.mem_map.mp hy
    obtain ⟨x, hx, hlen⟩ := es.length_of_mem_loaded T hz
    refine ⟨x, hx, ?_⟩
    simp only [List.length_append]
    omega

theorem InlineTable.length_of_mem_loaded (es : InlineTable) (T : Path) {y : Path × Setting Value}
    (hy : y ∈ es.loaded T) : ∃ x ∈ es.leaves, x.1.length + T.length ≤ y.1.length := by
  match es with
  | .nil => cases hy
  | .cons k v rest =>
    rcases List.mem_append.mp hy with hy | hy
    · obtain ⟨x, hx, hlen⟩ := v.length_of_mem_loaded T [k.text] hy
      refine ⟨(k :: x.1, x.2), List.mem_append_left _ (List.mem_map_of_mem hx), ?_⟩
      rw [List.length_singleton] at hlen
      rw [List.length_cons]
      omega
    · obtain ⟨x, hx, hlen⟩ := rest.length_of_mem_loaded T hy
      exact ⟨x, List.mem_append_right _ hx, hlen⟩

end

/-- The keys of the strings in a table are not empty. -/
theorem InlineTable.ne_nil_of_mem_leaves (es : InlineTable) {x : List Word × Quoted}
    (hx : x ∈ es.leaves) : x.1 ≠ [] := by
  match es with
  | .nil => cases hx
  | .cons k v rest =>
    rcases List.mem_append.mp hx with hx | hx
    · obtain ⟨y, -, rfl⟩ := List.mem_map.mp hx
      exact List.cons_ne_nil _ _
    · exact rest.ne_nil_of_mem_leaves hx

theorem InlineTable.loaded_eq_nil (es : InlineTable) (h : es.leaves = []) (T : Path) :
    es.loaded T = [] := by
  refine List.eq_nil_iff_forall_not_mem.mpr fun y hy => ?_
  obtain ⟨x, hx, -⟩ := es.length_of_mem_loaded T hy
  rw [h] at hx
  cases hx

theorem dottedText_quoted (q : Quoted) (es : InlineTable) (hes : es.leaves ≠ []) (T : Path)
    (m : Entries) (after : Bytes) : loadFrom T m (dottedText (.quoted q) es ++ after) = none := by
  obtain ⟨x, l, hl⟩ := List.exists_cons_of_ne_nil hes
  have hx : x.1 ≠ [] := es.ne_nil_of_mem_leaves (hl ▸ List.mem_cons_self)
  have hfirst : ∃ t, dottedText (.quoted q) es = dottedLine (.quoted q) x ++ t := by
    rw [dottedText, hl]
    cases l with
    | nil => exact ⟨[], by simp [List.intercalate]⟩
    | cons y l => exact ⟨_, by simp [List.intercalate]; rfl⟩
  obtain ⟨t, ht⟩ := hfirst
  rw [ht, List.append_assoc]
  exact loadFrom_dottedLine_quoted q hx T m (t ++ after)

/-- What the dotted keys load to differs with a table in force: the shortest of them is none of the
keys that the inline table has. -/
theorem insert_loaded_ne (es : InlineTable) (hes : es.leaves ≠ []) {T : Path} (hT : T ≠ [])
    (a : KeyText) : insert SortedMap.empty ((InlineValue.table es).loaded T a.path) ≠
      insert SortedMap.empty (es.leaves.map (dottedEntry T a)) := by
  intro heq
  have hex : ∃ n, ∃ x ∈ es.leaves, x.1.length = n := by
    obtain ⟨x, l, hl⟩ := List.exists_cons_of_ne_nil hes
    exact ⟨x.1.length, x, hl ▸ List.mem_cons_self, rfl⟩
  obtain ⟨x, hx, hlen⟩ := Nat.find_spec hex
  have hmin : ∀ z ∈ es.leaves, x.1.length ≤ z.1.length := fun z hz =>
    hlen ▸ Nat.find_min' hex ⟨z, hz, rfl⟩
  have hkey : (dottedEntry T a x).1 ∈
      (insert SortedMap.empty (es.leaves.map (dottedEntry T a))).keys :=
    mem_keys_insert.mpr ⟨_, List.mem_map_of_mem hx, rfl⟩
  rw [← heq] at hkey
  obtain ⟨y, hy, hkey⟩ := mem_keys_insert.mp hkey
  obtain ⟨u, hu, rfl⟩ := List.mem_map.mp hy
  obtain ⟨z, hz, hle⟩ := es.length_of_mem_loaded T hu
  have hlength := congrArg List.length hkey
  have hpos := List.length_pos_of_ne_nil hT
  have hleast := hmin z hz
  simp only [dottedEntry, List.length_append, List.length_map] at hlength
  omega

/-- **Inline tables** load to the same as dotted keys if no table is in force, for entries whose key
begins with a bare word. -/
theorem inline_dotted_iff (table : List Part) (a : KeyText) (es : InlineTable) :
    (∀ (before : Bytes) (m : Entries) (after : Bytes), Before before (table.map Part.value) m →
      LineEnd after →
        load (before ++ (inlineText a es ++ after)) =
          load (before ++ (dottedText a es ++ after))) ↔
      es.leaves = [] ∨ (table = [] ∧ ∃ w rest, a = .bare w rest) := by
  constructor
  · intro h
    have hload := h _ _ _ (before_header table) .eof
    rw [before_header table, before_header table, loadFrom_inlineText a es .eof, loadFrom_nil] at hload
    by_cases hes : es.leaves = []
    · exact .inl hes
    · refine .inr ?_
      cases a with
      | quoted q =>
        have hnone : loadFrom (table.map Part.value) SortedMap.empty
            (dottedText (.quoted q) es ++ []) = none := dottedText_quoted q es hes _ _ _
        rw [hnone] at hload
        cases hload
      | bare w rest =>
        refine ⟨?_, w, rest, rfl⟩
        by_contra htable
        have hdotted := loadFrom_dottedLines w rest es.leaves LineEnd.eof.head_ne_quote
          (table.map Part.value) SortedMap.empty
        rw [dottedText, hdotted, loadFrom_nil] at hload
        exact insert_loaded_ne es hes (mt List.map_eq_nil_iff.mp htable) _ (Option.some.inj hload)
  · intro h before m after hbefore hafter
    rw [hbefore, hbefore, loadFrom_inlineText a es hafter]
    rcases h with hes | ⟨rfl, w, rest, rfl⟩
    · rw [dottedText, hes, InlineValue.loaded, es.loaded_eq_nil hes]
      rfl
    · have hloaded : (InlineValue.table es).loaded ([] : Path) (KeyText.bare w rest).path =
          es.leaves.map (dottedEntry [] (.bare w rest)) := InlineValue.loaded_nil (.table es) _
      rw [dottedText, loadFrom_dottedLines w rest es.leaves hafter.head_ne_quote, List.map_nil,
        hloaded]

/-- Under `[t]` the key of the table is there twice. -/
theorem inline_not_dotted :
    (load (['[', 't', ']', '\n', 'a', ' ', '=', ' ', '\x7b', 'k', ' ', '=', ' ', '"', 'v', '"',
        '\x7d'].map byte)).map SortedMap.keys =
      some [[[byte 't'], [byte 'a'], [byte 't'], [byte 'k']]] ∧
    (load (['[', 't', ']', '\n', 'a', '.', 'k', ' ', '=', ' ', '"', 'v', '"'].map byte)).map
        SortedMap.keys = some [[[byte 't'], [byte 'a'], [byte 'k']]] := by
  have hword : ∀ c, isBare c = true → ∃ w : Word, w.text = [c] := fun c hc =>
    ⟨⟨[c], List.cons_ne_nil _ _, List.forall_mem_singleton.mpr hc⟩, rfl⟩
  obtain ⟨t, ht⟩ := hword (byte 't') (by decide)
  obtain ⟨a, ha⟩ := hword (byte 'a') (by decide)
  obtain ⟨k, hk⟩ := hword (byte 'k') (by decide)
  obtain ⟨v, hv⟩ : ∃ v : Quoted, v.content = [byte 'v'] :=
    ⟨Quoted.plain [byte 'v'] (List.forall_mem_singleton.mpr (by decide)), rfl⟩
  have hheader : header [.bare t] = [byte '[', byte 't', byte ']', 10] := by
    simp [header, Part.text, pointed, ht]
  constructor
  · have hinline : inlineText (.bare a []) (.cons k (.string v) .nil) = ['a', ' ', '=', ' ', '\x7b',
        'k', ' ', '=', ' ', '"', 'v', '"', '\x7d'].map byte := by
      simp [inlineText, KeyText.text, KeyText.first, KeyText.rest, Part.text, pointed,
        InlineTable.text, InlineValue.text, Quoted.text, equals, ha, hk, hv]
    have hload := before_header [.bare t]
      (inlineText (.bare a []) (.cons k (.string v) .nil) ++ [])
    rw [loadFrom_inlineText _ _ .eof, loadFrom_nil, hheader, hinline] at hload
    refine (congrArg (Option.map SortedMap.keys) hload).trans ?_
    simp [InlineValue.loaded, InlineTable.loaded, KeyText.path, KeyText.first, KeyText.rest,
      Part.value, ht, ha, hk]
    rfl
  · have hdotted : [10].intercalate ([([k], v)].map (dottedLine (.bare a []))) =
        ['a', '.', 'k', ' ', '=', ' ', '"', 'v', '"'].map byte := by
      simp [List.intercalate, dottedLine, KeyText.text, KeyText.first, KeyText.rest, Part.text,
        pointed, Quoted.text, equals, ha, hk, hv]
    have hload := before_header [.bare t]
      ([10].intercalate ([([k], v)].map (dottedLine (.bare a []))) ++ [])
    rw [loadFrom_dottedLines a [] _ LineEnd.eof.head_ne_quote, loadFrom_nil, hheader, hdotted] at hload
    refine (congrArg (Option.map SortedMap.keys) hload).trans ?_
    simp [dottedEntry, KeyText.path, KeyText.first, KeyText.rest, Part.value, ht, ha, hk]
    rfl

end Primitives.Settings.Native
