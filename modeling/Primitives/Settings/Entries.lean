import Primitives.Settings.InlineTable
import Primitives.Settings.Grammar

/-!
# Native settings — what the parser makes of an entry

A rule leaves fewer tokens than it was given (`setting_length`), so a bound by their number is as
good as a larger one (`settings_of_le`). Of the tokens of an inline table the rules make the entries
`InlineTable.loaded`, which have the key of the table in force in front of them once for each level.
-/

set_option autoImplicit false

namespace Primitives.Settings.Native

open Lib

/-! ## The tokens that are left -/

theorem partString_length {ts rest : List Token} {p : Bytes} (h : partString ts = some (p, rest)) :
    rest.length < ts.length := by
  unfold partString at h
  split at h
  case h_4 => cases h
  all_goals
    cases h
    simp only [List.length_cons]
    omega

theorem key_length {n : Nat} {ts rest : List Token} {k : Path} (h : key n ts = some (k, rest)) :
    rest.length < ts.length := by
  induction n generalizing ts k with
  | zero => cases h
  | succ n ih =>
    rw [key] at h
    cases hpart : partString ts with
    | none =>
      rw [hpart] at h
      cases h
    | some x =>
      obtain ⟨p, ts'⟩ := x
      have hlt := partString_length hpart
      rw [hpart] at h
      split at h
      · cases h
      · rename_i heq
        cases heq
        obtain ⟨⟨ps, ts'⟩, hkey, heq⟩ := Option.map_eq_some_iff.mp h
        cases heq
        have hrest := ih hkey
        rw [List.length_cons] at hlt
        omega
      · rename_i heq
        cases heq
        cases h
        exact hlt

theorem value_length (n : Nat) :
    (∀ {ts rest v}, value n ts = some (v, rest) → rest.length < ts.length) ∧
      ∀ {ts rest}, values n ts = some rest → rest.length < ts.length := by
  induction n with
  | zero =>
    refine ⟨fun h => ?_, fun h => ?_⟩
    · cases h
    · cases h
  | succ n ih =>
    obtain ⟨hvalue, hvalues⟩ := ih
    constructor
    · intro ts rest v h
      unfold value at h
      split at h
      case h_10 =>
        obtain ⟨ts', hts, heq⟩ := Option.map_eq_some_iff.mp h
        cases heq
        exact (hvalues hts).trans (Nat.lt_succ_self _)
      case h_11 => cases h
      all_goals
        cases h
        simp only [List.length_cons]
        omega
    · intro ts rest h
      unfold values at h
      split at h
      case h_1 heq =>
        cases h
        have hlt := hvalue heq
        rw [List.length_cons] at hlt
        omega
      case h_2 heq =>
        cases h
        have hlt := hvalue heq
        simp only [List.length_cons] at hlt
        omega
      case h_3 _ heq =>
        have hlt := hvalue heq
        have hrest := hvalues h
        rw [List.length_cons] at hlt
        omega
      case h_4 => cases h

/-- A setting takes a token, if its inline table takes one. -/
theorem setting_length_succ {n : Nat}
    (hinline : ∀ {ts rest T T' m}, inlineTable n T ts = some (m, T', rest) → rest.length < ts.length)
    {ts rest T T' m} (h : setting (n + 1) T ts = some (m, T', rest)) : rest.length < ts.length := by
  by_cases hhead : ts.head? = some .leftSquareBracket
  · obtain ⟨ts, rfl⟩ : ∃ ts', ts = .leftSquareBracket :: ts' := List.head?_eq_some_iff.mp hhead
    rw [setting] at h
    split at h
    case h_1 heq =>
      cases h
      have hlt := key_length heq
      simp only [List.length_cons] at hlt ⊢
      omega
    case h_2 => cases h
  · rw [setting_key hhead] at h
    split at h
    case h_1 heq =>
      have hlt := key_length heq
      split at h
      case h_1 hrest =>
        cases h
        have hlt' := hinline hrest
        simp only [List.length_cons] at hlt
        omega
      case h_2 => cases h
    case h_2 heq =>
      have hlt := key_length heq
      split at h
      case h_1 hrest =>
        cases h
        have hlt' := (value_length n).1 hrest
        rw [List.length_cons] at hlt
        omega
      case h_2 => cases h
    case h_3 => cases h

theorem inlineSettings_length_succ {n : Nat}
    (hsetting : ∀ {ts rest T T' m}, setting n T ts = some (m, T', rest) → rest.length < ts.length)
    (hsettings : ∀ {ts rest T T' m m'}, inlineSettings n T m ts = some (m', T', rest) →
      rest.length < ts.length)
    {ts rest T T' m m'} (h : inlineSettings (n + 1) T m ts = some (m', T', rest)) :
    rest.length < ts.length := by
  unfold inlineSettings at h
  split at h
  case h_1 heq =>
    cases h
    have hlt := hsetting heq
    rw [List.length_cons] at hlt
    omega
  case h_2 heq =>
    cases h
    have hlt := hsetting heq
    simp only [List.length_cons] at hlt
    omega
  case h_3 heq =>
    have hlt := hsetting heq
    have hrest := hsettings h
    rw [List.length_cons] at hlt
    omega
  case h_4 => cases h

theorem setting_length (n : Nat) :
    (∀ {ts rest T T' m}, setting n T ts = some (m, T', rest) → rest.length < ts.length) ∧
      (∀ {ts rest T T' m}, inlineTable n T ts = some (m, T', rest) → rest.length < ts.length) ∧
        ∀ {ts rest T T' m m'}, inlineSettings n T m ts = some (m', T', rest) →
          rest.length < ts.length := by
  induction n with
  | zero =>
    refine ⟨fun h => ?_, fun h => ?_, fun h => ?_⟩
    all_goals cases h
  | succ n ih =>
    obtain ⟨hsetting, hinline, hsettings⟩ := ih
    refine ⟨?_, ?_, ?_⟩
    · exact setting_length_succ hinline
    · intro ts rest T T' m h
      by_cases hhead : ts.head? = some .rightCurlyBracket
      · obtain ⟨ts, rfl⟩ : ∃ ts', ts = .rightCurlyBracket :: ts' := List.head?_eq_some_iff.mp hhead
        rw [inlineTable] at h
        cases h
        exact Nat.lt_succ_self _
      · rw [inlineTable_cons hhead] at h
        exact hsettings h
    · exact inlineSettings_length_succ hsetting hsettings

/-- Bounds that are not smaller than the number of tokens are all the same. -/
theorem settings_bound {n n' : Nat} {ts : List Token} (h : ts.length ≤ n) (h' : ts.length ≤ n')
    (T : Path) (m : Entries) : settings n T m ts = settings n' T m ts := by
  induction n generalizing n' ts T m with
  | zero =>
    obtain rfl := List.eq_nil_of_length_eq_zero (Nat.le_zero.mp h)
    rw [settings, settings]
  | succ n ih =>
    cases ts with
    | nil => rw [settings, settings]
    | cons t ts =>
      obtain ⟨n', rfl⟩ := Nat.exists_eq_succ_of_ne_zero (Nat.ne_zero_of_lt h')
      rw [settings, settings]
      cases hset : setting (t :: ts).length T (t :: ts) with
      | none => rfl
      | some x =>
        obtain ⟨m', T', rest⟩ := x
        have hrest : rest.length ≤ ts.length := Nat.le_of_lt_succ ((setting_length _).1 hset)
        exact ih (hrest.trans (Nat.le_of_succ_le_succ h)) (hrest.trans (Nat.le_of_succ_le_succ h')) ..

/-- **One setting**, and those behind it. -/
theorem settings_of_setting {t : Token} {ts rest : List Token} {T T' : Path} {m' : Entries}
    (h : setting (t :: ts).length T (t :: ts) = some (m', T', rest)) (m : Entries) :
    settings (t :: ts).length T m (t :: ts) = settings rest.length T' (insert m m'.entries) rest := by
  have hrest : rest.length ≤ ts.length := Nat.le_of_lt_succ ((setting_length _).1 h)
  rw [List.length_cons, settings, h]
  exact settings_bound hrest (Nat.le_refl _) ..

theorem settings_of_setting_none {t : Token} {ts : List Token} {T : Path}
    (h : setting (t :: ts).length T (t :: ts) = none) (m : Entries) :
    settings (t :: ts).length T m (t :: ts) = none := by
  rw [List.length_cons, settings, h]

/-! ## Keys -/

theorem Part.partString_tokens (p : Part) (ts : List Token) :
    partString (p.tokens ++ ts) = some (p.value, ts) := by
  cases p with
  | bare w => rfl
  | quoted q => rfl

/-- The parts of a key, in front of something that is no point. -/
theorem key_parts (p : Part) (ps : List Part) {n : Nat} (hn : ps.length < n) {t : Token}
    (ht : t ≠ .point) (ts : List Token) :
    key n (p.tokens ++ (pointedTokens ps ++ t :: ts)) =
      some ((p :: ps).map Part.value, t :: ts) := by
  induction ps generalizing p n with
  | nil =>
    obtain ⟨n, rfl⟩ := Nat.exists_eq_succ_of_ne_zero (Nat.ne_zero_of_lt hn)
    rw [key, p.partString_tokens]
    cases t with
    | point => exact absurd rfl ht
    | _ => rfl
  | cons p' ps ih =>
    obtain ⟨n, rfl⟩ := Nat.exists_eq_succ_of_ne_zero (Nat.ne_zero_of_lt hn)
    have hrest := ih p' (Nat.lt_of_succ_lt_succ hn)
    have hsplit : pointedTokens (p' :: ps) ++ t :: ts =
        .point :: (p'.tokens ++ (pointedTokens ps ++ t :: ts)) := by
      simp [pointedTokens]
    rw [key, p.partString_tokens, hsplit]
    change (key n _).map _ = _
    rw [hrest]
    rfl

/-- **A header.** -/
theorem setting_header (p : Part) (ps : List Part) {n : Nat} (hn : ps.length < n) (T : Path)
    (ts : List Token) :
    setting (n + 1) T
        (.leftSquareBracket :: (p.tokens ++ (pointedTokens ps ++ .rightSquareBracket :: ts))) =
      some (SortedMap.empty, (p :: ps).map Part.value, ts) := by
  rw [setting, key_parts p ps hn (t := .rightSquareBracket) (fun h => by cases h)]

/-- A key that the parser reads in front of `=`. -/
structure IsKey (kt : List Token) (k : Path) : Prop where
  head : ∃ t ts, kt = t :: ts ∧ t ≠ .leftSquareBracket ∧ t ≠ .rightCurlyBracket
  reads : ∀ n, kt.length ≤ n → ∀ ts, key n (kt ++ .kvDelimeter :: ts) = some (k, .kvDelimeter :: ts)

theorem pointedTokens_length (ps : List Part) : ps.length ≤ (pointedTokens ps).length := by
  induction ps with
  | nil => exact Nat.le_refl _
  | cons p ps ih =>
    have hsplit : pointedTokens (p :: ps) = .point :: (p.tokens ++ pointedTokens ps) := rfl
    rw [hsplit, List.length_cons, List.length_cons, List.length_append]
    omega

theorem KeyText.rest_length (k : KeyText) : k.rest.length < k.tokens.length := by
  have hrest := pointedTokens_length k.rest
  have hfirst : 0 < k.first.tokens.length := by
    cases k.first with
    | bare w => exact Nat.one_pos
    | quoted q => exact Nat.two_pos
  rw [KeyText.tokens, List.length_append]
  omega

theorem KeyText.isKey (k : KeyText) : IsKey k.tokens k.path where
  head := by
    cases k with
    | bare w rest => exact ⟨_, _, rfl, fun h => (nomatch h), fun h => (nomatch h)⟩
    | quoted q => exact ⟨_, _, rfl, fun h => (nomatch h), fun h => (nomatch h)⟩
  reads := by
    intro n hn ts
    have hlen : k.rest.length < n := k.rest_length.trans_le hn
    rw [KeyText.tokens, List.append_assoc]
    exact key_parts k.first k.rest hlen (t := .kvDelimeter) (fun h => by cases h) ts

theorem isKey_bare (s : Bytes) : IsKey [.bareString s] [s] where
  head := ⟨_, _, rfl, fun h => (nomatch h), fun h => (nomatch h)⟩
  reads := by
    intro n hn ts
    obtain ⟨n, rfl⟩ := Nat.exists_eq_succ_of_ne_zero (Nat.ne_zero_of_lt hn)
    rfl

/-! ## Inline tables -/

mutual

/-- What a setting with the key `k` makes of a value. -/
def InlineValue.loaded (T k : Path) : InlineValue → List (Path × Setting Value)
  | .string q => [(T ++ k, assign (.string q.value))]
  | .table es => (es.loaded T).map fun x => (T ++ k ++ x.1, x.2)

/-- The entries that the rules make of a table, with the key `T` of the table in force. -/
def InlineTable.loaded (T : Path) : InlineTable → List (Path × Setting Value)
  | .nil => []
  | .cons k v rest => v.loaded T [k.text] ++ rest.loaded T

end

theorem insert_append (m : Entries) (l l' : List (Path × Setting Value)) :
    insert m (l ++ l') = insert (insert m l) l' := List.foldl_append

theorem insert_entries (m : Entries) (l : List (Path × Setting Value)) :
    insert m (insert SortedMap.empty l).entries = insert m l := SortedMap.foldl_emplace_entries m l

theorem insert_entries_key (p : Path) (m : Entries) (l : List (Path × Setting Value)) :
    insert m ((insert SortedMap.empty l).entries.map fun x => (p ++ x.1, x.2)) =
      insert m (l.map fun x => (p ++ x.1, x.2)) :=
  SortedMap.foldl_emplace_entries_map (f := (p ++ ·)) (List.append_right_injective p) m l

theorem InlineTable.tokens_cons (k : Word) (v : InlineValue) (rest : InlineTable) :
    ∃ ts, (InlineTable.cons k v rest).tokens = .bareString k.text :: ts := by
  cases rest with
  | nil => exact ⟨_, rfl⟩
  | cons k' v' rest' => exact ⟨_, rfl⟩

mutual

/-- **A setting** whose value is a string or a table of such ones. -/
theorem InlineValue.setting_tokens (v : InlineValue) {kt : List Token} {k : Path} (hk : IsKey kt k)
    {n : Nat} (hkn : kt.length ≤ n) (hn : v.tokens.length < n) (T : Path) (ts : List Token) :
    setting (n + 1) T (kt ++ .kvDelimeter :: (v.tokens ++ ts)) =
      some (insert SortedMap.empty (v.loaded T k), T, ts) := by
  have hhead : (kt ++ .kvDelimeter :: (v.tokens ++ ts)).head? ≠ some .leftSquareBracket := by
    obtain ⟨t, kt', rfl, ht, -⟩ := hk.head
    exact fun h => ht (Option.some.inj h)
  rw [setting_key hhead, hk.reads n hkn]
  match v with
  | .string q =>
    obtain ⟨n, rfl⟩ := Nat.exists_eq_succ_of_ne_zero (Nat.ne_zero_of_lt hn)
    rfl
  | .table .nil =>
    obtain ⟨n, rfl⟩ := Nat.exists_eq_succ_of_ne_zero (Nat.ne_zero_of_lt hn)
    rfl
  | .table (.cons k' v' rest') =>
    obtain ⟨n, rfl⟩ := Nat.exists_eq_succ_of_ne_zero (Nat.ne_zero_of_lt hn)
    obtain ⟨ts', hcons⟩ := InlineTable.tokens_cons k' v' rest'
    have hlen : (InlineTable.cons k' v' rest').tokens.length < n := by
      rw [InlineValue.tokens, List.length_cons, List.length_append, List.length_singleton] at hn
      omega
    have hsettings := (InlineTable.cons k' v' rest').inlineSettings_tokens (fun h => by cases h)
      hlen T SortedMap.empty ts
    have hclosed : (InlineTable.cons k' v' rest').tokens ++ .rightCurlyBracket :: ts =
        .bareString k'.text :: (ts' ++ .rightCurlyBracket :: ts) := by
      rw [hcons, List.cons_append]
    have htable : inlineTable (n + 1) T
        ((InlineTable.cons k' v' rest').tokens ++ .rightCurlyBracket :: ts) =
        some (insert SortedMap.empty ((InlineTable.cons k' v' rest').loaded T), T, ts) := by
      rw [inlineTable_cons (by rw [hclosed]; exact fun h => by cases h), hsettings]
    have hsplit : (InlineValue.table (.cons k' v' rest')).tokens ++ ts = .leftCurlyBracket ::
        ((InlineTable.cons k' v' rest').tokens ++ .rightCurlyBracket :: ts) := by
      simp [InlineValue.tokens]
    rw [hsplit]
    change (match inlineTable (n + 1) T _ with
      | some (m, T, ts) =>
        some (insert SortedMap.empty (m.entries.map fun x : Path × Setting Value =>
          (T ++ k ++ x.1, x.2)), T, ts)
      | none => none) = _
    rw [htable]
    change some (insert SortedMap.empty _, T, ts) = _
    rw [insert_entries_key (T ++ k)]
    rfl

/-- **The settings of a table**, with the bracket behind them. -/
theorem InlineTable.inlineSettings_tokens (es : InlineTable) (hes : es ≠ .nil) {n : Nat}
    (hn : es.tokens.length < n) (T : Path) (m : Entries) (ts : List Token) :
    inlineSettings n T m (es.tokens ++ .rightCurlyBracket :: ts) =
      some (insert m (es.loaded T), T, ts) := by
  match es with
  | .nil => exact absurd rfl hes
  | .cons k v .nil =>
    have hlen : v.tokens.length + 2 < n := hn
    obtain ⟨n, rfl⟩ : ∃ n', n = n' + 2 := ⟨n - 2, by omega⟩
    have hset := v.setting_tokens (isKey_bare k.text) (n := n) (by rw [List.length_singleton]; omega)
      (by omega) T (.rightCurlyBracket :: ts)
    have hsplit : (InlineTable.cons k v .nil).tokens ++ .rightCurlyBracket :: ts =
        [.bareString k.text] ++ .kvDelimeter :: (v.tokens ++ .rightCurlyBracket :: ts) := rfl
    rw [hsplit, inlineSettings, hset]
    change some (insert m _, T, ts) = _
    rw [insert_entries, InlineTable.loaded, InlineTable.loaded, List.append_nil]
  | .cons k v (.cons k' v' rest') =>
    have hlen : v.tokens.length + (InlineTable.cons k' v' rest').tokens.length + 3 < n := by
      rw [InlineTable.tokens, List.length_cons, List.length_cons, List.length_append,
        List.length_cons] at hn
      · omega
      · exact fun h => by cases h
    obtain ⟨n, rfl⟩ : ∃ n', n = n' + 2 := ⟨n - 2, by omega⟩
    obtain ⟨ts', hcons⟩ := InlineTable.tokens_cons k' v' rest'
    have hset := v.setting_tokens (isKey_bare k.text) (n := n) (by rw [List.length_singleton]; omega)
      (by omega) T (.comma :: ((InlineTable.cons k' v' rest').tokens ++ .rightCurlyBracket :: ts))
    have hrest := (InlineTable.cons k' v' rest').inlineSettings_tokens (fun h => by cases h)
      (n := n + 1) (by omega) T (insert m (v.loaded T [k.text])) ts
    have hsplit : (InlineTable.cons k v (.cons k' v' rest')).tokens ++ .rightCurlyBracket :: ts =
        [.bareString k.text] ++ .kvDelimeter :: (v.tokens ++ .comma ::
          ((InlineTable.cons k' v' rest').tokens ++ .rightCurlyBracket :: ts)) := by
      simp [InlineTable.tokens]
    have hloaded : (InlineTable.cons k v (.cons k' v' rest')).loaded T =
        v.loaded T [k.text] ++ (InlineTable.cons k' v' rest').loaded T := rfl
    rw [hsplit, inlineSettings, hset, hloaded, insert_append, ← hrest, hcons]
    change inlineSettings (n + 1) T (insert m _) _ = _
    rw [insert_entries]
    rfl

end

end Primitives.Settings.Native
