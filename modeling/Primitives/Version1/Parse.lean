import Primitives.Integer
import Primitives.Version1.Pairs
import Primitives.Versions.Agree

/-!
# Two ways to give a version an extra part

`Version(v, e)` reads the text `v-e` with the machine of versions, and `Version(Version(v), e)` reads `e`
alone with the machine of extra parts. The machines have the same parts, and an action each to make a
value of one: the first wants a number that is the whole part, and the second takes one that the part
begins with. So they agree on the parts that do not go on behind a number (`extras_agree_iff`).
-/

set_option autoImplicit false

namespace Primitives.Version1

open Lib
open Versions (Extra Value extraValue isWordChar isBlank parseParts stoll Strips IsPart)

/-! ## The code -/

namespace Version

/-- `ADD_PART` -/
def addPart (numbers : List Int) (i : Nat) (n : Int) : List Int :=
  (if i ≥ numbers.length then numbers ++ [0] else numbers).set i n

/-- The machine `version`, inside of the numbers: `sb` is what was read of a number, and `i` the place
of this number. -/
def parseVersion : Str → List Int → Nat → Str → Except Versions.Failure (Option (List Int × Extra))
  | sb, numbers, i, [] =>
    if sb = [] then .ok none
    else do
      let n ← stoll sb
      return some (addPart numbers i n, [])
  | sb, numbers, i, c :: s =>
    if isDigit c then parseVersion (sb ++ [c]) numbers i s
    else if c = '.' ∧ sb ≠ [] then do
      let n ← stoll sb
      parseVersion [] (addPart numbers i n) (i + 1) s
    else if c = '-' ∧ sb ≠ [] then do
      let n ← stoll sb
      let extra ← parseParts isWordChar (fun w => .ok (extraValue w)) [] s
      return extra.map (addPart numbers i n, ·)
    else .ok none

/-- `setFirstVersion` -/
def setFirstVersion (v : Version) : Version :=
  if v.numbers.all (· = 0) then { v with numbers := v.numbers.set (v.numbers.length - 1) 1 } else v

/-- The first character of a branch is a letter or `_`. -/
def beginsBranch (s : Str) : Bool := s.head?.any fun c => isWordChar c && !isDigit c

/-- `parse`, for a version with the numbers of the constructor. A text that begins with a digit is no
branch, and one that does not is nothing else. -/
def parse (s : Str) : Except Versions.Failure (Option Version) :=
  let numbers : List Int := List.replicate minimumLevel 0
  if s.length > 8192 then .ok none
  else if beginsBranch s then
    if s.all fun c => isWordChar c || c = '-' then .ok (some (setFirstVersion ⟨numbers, [], s⟩))
    else .ok none
  else do
    let res ← parseVersion [] numbers 0 s
    return res.map fun x => setFirstVersion ⟨x.1, x.2, []⟩

/-- `ADD_EXTRA` of `parseExtra`: the number that `std::stoll` finds, or the word where it throws. -/
def stollValue (w : Str) : Value :=
  match parseInt w with
  | some n => if -(int64Max + 1) ≤ n ∧ n ≤ int64Max then .number n else .string w
  | none => .string w

/-- `parseExtra` -/
def parseExtra (v : Version) (s : Str) : Except Versions.Failure (Option Version) :=
  if s.length > 8192 then .ok none
  else do
    let extra ← parseParts isWordChar (fun w => .ok (stollValue w)) [] s
    return extra.map fun e => { v with extra := v.extra ++ e }

section

-- `pystring::strip`, which is `preprocess_input`
variable (strip : Str → Str)

/-- `Version(s)` -/
def ofString (s : Str) : Except Versions.Failure Version := do
  match ← parse (strip s) with
  | some v =>
    if v.isBranch && v.branch.length > 200 then
      .error (.runtimeError ("Invalid version: ".toList ++ s ++ ", branch must have size <= 200".toList))
    else return v
  | none => .error (.runtimeError ("Invalid version: ".toList ++ s))

/-- `Version(v, e)` for two strings. -/
def ofStrings (v e : Str) : Except Versions.Failure Version := ofString strip (v ++ '-' :: e)

/-- `Version(version, extra)` for a version and a string. -/
def ofVersion (version : Version) (extra : Str) : Except Versions.Failure Version := do
  match ← parseExtra version (strip extra) with
  | some v => return v
  | none => .error (.runtimeError ("Invalid version extra: ".toList ++ extra))

end

/-! ## The machine of versions -/

section Machine

variable {sb u s : Str} {numbers ms : List Int} {i : Nat} {x e : Extra}

theorem parts_ne_nil {add : Str → Value} {s : Str}
    (h : parseParts isWordChar (fun w => .ok (add w)) [] s = .ok (some e)) : e ≠ [] := by
  obtain ⟨ws, hws⟩ := Versions.exists_of_parseParts (List.forall_mem_nil _) h
  rintro rfl
  exact hws.ne_nil (List.forall₂_nil_right_iff.mp hws.values)

/-- **A version without an extra part, and one behind it**: the numbers are the same, and the extra part
is read from its own text. -/
theorem parseVersion_append (h : parseVersion sb numbers i u = .ok (some (ms, []))) (es : Str) :
    parseVersion sb numbers i (u ++ '-' :: es) = (do
      let extra ← parseParts isWordChar (fun w => .ok (extraValue w)) [] es
      return extra.map (ms, ·)) := by
  induction u generalizing sb numbers i with
  | nil =>
    rw [parseVersion] at h
    split at h
    · cases h
    · rename_i hne
      obtain ⟨n, hn, h⟩ := of_bind_eq_ok h
      cases h
      rw [List.nil_append, parseVersion, if_neg (by decide), if_neg (fun h => absurd h.1 (by decide)),
        if_pos ⟨rfl, hne⟩, hn]
      rfl
  | cons c u ih =>
    rw [parseVersion] at h
    rw [List.cons_append, parseVersion]
    split at h
    · rename_i hc
      rw [if_pos hc]
      exact ih h
    · rename_i hc
      rw [if_neg hc]
      split at h
      · rename_i hdot
        obtain ⟨n, hn, h⟩ := of_bind_eq_ok h
        rw [if_pos hdot, hn]
        exact ih h
      · -- behind a hyphen there is an extra part
        split at h
        · obtain ⟨n, -, h⟩ := of_bind_eq_ok h
          obtain ⟨extra, hextra, h⟩ := of_bind_eq_ok h
          cases extra with
          | none => cases h
          | some e =>
            cases h
            exact absurd rfl (parts_ne_nil hextra)
        · cases h

/-- No blank is read. -/
theorem not_isBlank_of_parseVersion (h : parseVersion sb numbers i s = .ok (some (ms, x))) :
    ∀ c ∈ s, isBlank c = false := by
  induction s generalizing sb numbers i with
  | nil => exact List.forall_mem_nil _
  | cons c s ih =>
    rw [parseVersion] at h
    rw [List.forall_mem_cons]
    split at h
    · rename_i hc
      have hword : isWordChar c = true :=
        List.contains_iff_mem.mpr (List.mem_append_right _ (Versions.isDigit_mem hc))
      exact ⟨Versions.not_isBlank_of_isWordChar hword, ih h⟩
    · split at h
      · rename_i hdot
        obtain ⟨n, -, h⟩ := of_bind_eq_ok h
        rw [hdot.1]
        exact ⟨rfl, ih h⟩
      · split at h
        · rename_i hhyphen
          obtain ⟨n, -, h⟩ := of_bind_eq_ok h
          obtain ⟨extra, hextra, h⟩ := of_bind_eq_ok h
          cases extra with
          | none => cases h
          | some e =>
            obtain ⟨ws, hws⟩ := Versions.exists_of_parseParts (List.forall_mem_nil _) hextra
            rw [hhyphen.1]
            refine ⟨rfl, fun d hd => ?_⟩
            rcases hws.mem_text d hd with rfl | hword
            · rfl
            · exact Versions.not_isBlank_of_isWordChar hword
        · cases h

end Machine

/-! ## Parts -/

/-- A number that a word begins with, and something behind it. -/
def GoesOn (w : Str) : Prop :=
  w.takeWhile isDigit ≠ [] ∧ w.takeWhile isDigit ≠ w ∧ decimal (w.takeWhile isDigit) ≤ int64Max

instance goesOnDecidable (w : Str) : Decidable (GoesOn w) :=
  inferInstanceAs (Decidable (_ ∧ _ ∧ _))

theorem stollValue_word {w : Str} (hw : ∀ c ∈ w, isWordChar c = true) :
    stollValue w =
      if w.takeWhile isDigit ≠ [] ∧ decimal (w.takeWhile isDigit) ≤ int64Max then
        .number (decimal (w.takeWhile isDigit))
      else .string w := by
  have hchar : ∀ c, isWordChar c = true → isSpace c = false ∧ c ≠ '-' ∧ c ≠ '+' := by
    intro c hc
    have hall : Versions.wordChars.all (fun c => !isSpace c && (c != '-' && c != '+')) = true := by decide
    simpa using List.all_eq_true.mp hall c (List.contains_iff_mem.mp hc)
  have hspace : w.dropWhile isSpace = w := by
    cases w with
    | nil => rfl
    | cons c w =>
      exact List.dropWhile_cons_of_neg (Bool.eq_false_iff.mp (hchar c (hw c List.mem_cons_self)).1)
  have hminus : w.head? ≠ some '-' := fun h => (hchar _ (hw _ (List.mem_of_mem_head? h))).2.1 rfl
  have hplus : w.head? ≠ some '+' := fun h => (hchar _ (hw _ (List.mem_of_mem_head? h))).2.2 rfl
  have hparse : parseInt w = if w.takeWhile isDigit = [] then none
      else some ((decimal (w.takeWhile isDigit) : Int)) := by
    simp [parseInt, hspace, hminus, hplus]
  rw [stollValue, hparse]
  by_cases hnil : w.takeWhile isDigit = []
  · rw [if_pos hnil, if_neg fun h => h.1 hnil]
  · have hrange : (-((int64Max : Int) + 1) ≤ (decimal (w.takeWhile isDigit) : Int) ∧
        (decimal (w.takeWhile isDigit) : Int) ≤ int64Max) ↔ decimal (w.takeWhile isDigit) ≤ int64Max := by
      omega
    rw [if_neg hnil]
    simp only [hrange, ne_eq, hnil, not_false_eq_true, true_and]

/-- **The two actions agree** on a word unless it goes on behind a number. -/
theorem extraValue_eq_iff {w : Str} (hw : IsPart isWordChar w) :
    extraValue w = stollValue w ↔ ¬ GoesOn w := by
  rw [stollValue_word hw.isPart, GoesOn, extraValue]
  by_cases hall : w.takeWhile isDigit = w
  · have hdigits : w.all isDigit = true := List.all_eq_true.mpr (List.takeWhile_eq_self_iff.mp hall)
    rw [hall, hdigits]
    simp [hw.ne_nil]
  · have hdigits : w.all isDigit = false := by
      rw [Bool.eq_false_iff]
      exact fun h => hall (List.takeWhile_eq_self_iff.mpr (List.all_eq_true.mp h))
    rw [hdigits, Bool.false_and, if_neg Bool.false_ne_true]
    simp [hall]

/-! ## The two constructors -/

/-- The extra part does not matter to the numbers. -/
theorem setFirstVersion_extra (v : Version) (e : Extra) :
    setFirstVersion { v with extra := e } = { setFirstVersion v with extra := e } := by
  rw [setFirstVersion, setFirstVersion]
  split
  · rfl
  · rfl

theorem extra_setFirstVersion (v : Version) : (setFirstVersion v).extra = v.extra := by
  rw [setFirstVersion]
  split
  · rfl
  · rfl

theorem branch_setFirstVersion (v : Version) : (setFirstVersion v).branch = v.branch := by
  rw [setFirstVersion]
  split
  · rfl
  · rfl

section

variable {strip : Str → Str}

theorem not_beginsBranch {s : Str} {a : Version} (h : parse s = .ok (some a)) (ha : a.isBranch = false) :
    ¬ beginsBranch s = true := by
  intro hbegins
  rw [parse] at h
  split at h
  · cases h
  · split at h
    · cases h
      have hnil : s = [] := by
        simpa [isBranch, branch_setFirstVersion] using ha
      rw [hnil] at hbegins
      cases hbegins
    · cases h

theorem parse_version {s : Str} {a : Version} (h : parse s = .ok (some a)) (hs : ¬ beginsBranch s = true) :
    ∃ ms x, parseVersion [] (List.replicate minimumLevel 0) 0 s = .ok (some (ms, x)) ∧
      a = setFirstVersion ⟨ms, x, []⟩ := by
  rw [parse] at h
  split at h
  · cases h
  · obtain ⟨res, hres, h⟩ := of_bind_eq_ok h
    cases res with
    | none => cases h
    | some x =>
      cases h
      exact ⟨x.1, x.2, hres, rfl⟩

theorem parse_of_ofString {s : Str} {a : Version} (h : ofString strip s = .ok a) :
    parse (strip s) = .ok (some a) := by
  obtain ⟨x, hx, h⟩ := of_bind_eq_ok h
  cases x with
  | none => cases h
  | some v =>
    dsimp only at h
    split at h
    · cases h
    · cases h
      exact hx

theorem parts_of_ofVersion {a c : Version} {e : Str} (h : ofVersion strip a e = .ok c) :
    ∃ x, parseParts isWordChar (fun w => .ok (stollValue w)) [] (strip e) = .ok (some x) ∧
      c = { a with extra := a.extra ++ x } := by
  obtain ⟨res, hres, h⟩ := of_bind_eq_ok h
  rw [parseExtra] at hres
  split at hres
  · cases hres
    cases h
  · obtain ⟨extra, hextra, hres⟩ := of_bind_eq_ok hres
    cases hres
    cases extra with
    | none => cases h
    | some x =>
      cases h
      exact ⟨x, hextra, rfl⟩

/-- The text of both: blanks are left at the hyphen only. -/
theorem exists_strip_ofStrings (hstrip : Strips strip) {v e : Str} (hv : strip v ≠ [])
    (he : strip e ≠ []) : ∃ suf pre, strip (v ++ '-' :: e) = strip v ++ (suf ++ '-' :: pre ++ strip e) ∧
      (∀ c ∈ suf, isBlank c = true) ∧ ∀ c ∈ pre, isBlank c = true := by
  obtain ⟨pre, suf, hvs, hpre, hsuf⟩ := hstrip.exists_blanks v
  obtain ⟨pre', suf', hes, hpre', hsuf'⟩ := hstrip.exists_blanks e
  have hsolid : Versions.Solid (strip v ++ ((suf ++ '-' :: pre') ++ strip e)) :=
    (hstrip.solid hv).append (hstrip.solid he)
  have htext := hstrip.eq_of_solid hsolid hpre hsuf'
  have hwhole : pre ++ ((strip v ++ ((suf ++ '-' :: pre') ++ strip e)) ++ suf') = v ++ '-' :: e := by
    conv_rhs => rw [hvs, hes]
    simp
  rw [hwhole] at htext
  exact ⟨suf, pre', htext, hsuf, hpre'⟩

/-- There are none if a version is read. -/
theorem eq_of_parseVersion {u w suf pre : Str} {ms numbers : List Int} {x : Extra} {i : Nat}
    (h : parseVersion [] numbers i (u ++ (suf ++ '-' :: pre ++ w)) = .ok (some (ms, x)))
    (hsuf : ∀ c ∈ suf, isBlank c = true) (hpre : ∀ c ∈ pre, isBlank c = true) :
    u ++ (suf ++ '-' :: pre ++ w) = u ++ '-' :: w := by
  have hno := not_isBlank_of_parseVersion h
  have hnil : ∀ l : Str, (∀ c ∈ l, isBlank c = true) →
      (∀ c ∈ l, c ∈ u ++ (suf ++ '-' :: pre ++ w)) → l = [] := by
    intro l hl hmem
    refine List.eq_nil_iff_forall_not_mem.mpr fun c hc => ?_
    exact Bool.false_ne_true ((hno c (hmem c hc)).symm.trans (hl c hc))
  obtain rfl : suf = [] := hnil suf hsuf fun c hc => by simp [hc]
  obtain rfl : pre = [] := hnil pre hpre fun c hc => by simp [hc]
  rfl

theorem values_eq_map {add : Str → Value} {s : Str} {x : Extra}
    (h : parseParts isWordChar (fun w => .ok (add w)) [] s = .ok (some x)) :
    x = (s.splitOn '.').map add ∧ ∀ w ∈ s.splitOn '.', IsPart isWordChar w := by
  obtain ⟨ws, hws⟩ := Versions.exists_of_parseParts (List.forall_mem_nil _) h
  have hdot : ∀ w ∈ ws, '.' ∉ w := fun w hw hmem => by
    have hword := (hws.parts w hw).isPart _ hmem
    cases hword
  have hsplit : s.splitOn '.' = ws := by
    rw [List.nil_append] at hws
    rw [hws.text]
    exact List.splitOn_intercalate '.' hdot hws.ne_nil
  rw [hsplit]
  refine ⟨?_, hws.parts⟩
  have hvalues := hws.values
  clear hws hsplit hdot h
  induction hvalues with
  | nil => rfl
  | cons hv _ ih =>
    cases hv
    rw [List.map_cons, ← ih]

/-- **`v-e`** is read as the numbers of `v`, and then `e` by the machine of the whole. -/
theorem ofStrings_eq (hstrip : Strips strip) {v e : Str} {b : Version} {ms : List Int}
    (hms : parseVersion [] (List.replicate minimumLevel 0) 0 (strip v) = .ok (some (ms, [])))
    (hbegins : ¬ beginsBranch (strip v) = true) (he : strip e ≠ []) (hb : ofStrings strip v e = .ok b) :
    b = setFirstVersion ⟨ms, ((strip e).splitOn '.').map extraValue, []⟩ ∧
      ∀ w ∈ (strip e).splitOn '.', IsPart isWordChar w := by
  have hv : strip v ≠ [] := fun hnil => by
    rw [hnil] at hms
    cases hms
  have hpb := parse_of_ofString hb
  obtain ⟨suf, pre, htext, hsuf, hpre⟩ := exists_strip_ofStrings hstrip hv he
  rw [htext] at hpb
  obtain ⟨ms', z, hz, rfl⟩ := parse_version hpb fun hbegins' => by
    obtain ⟨d, u, hu⟩ := List.exists_cons_of_ne_nil hv
    rw [hu] at hbegins hbegins'
    exact hbegins hbegins'
  rw [eq_of_parseVersion hz hsuf hpre, parseVersion_append hms] at hz
  obtain ⟨extra, hextra, hz⟩ := of_bind_eq_ok hz
  cases extra with
  | none => cases hz
  | some z' =>
    cases hz
    obtain ⟨rfl, hparts⟩ := values_eq_map hextra
    exact ⟨rfl, hparts⟩

/-- **Extra parts.** For a version `v` without an extra part, and any `e` that both take, `Version(v, e)`
and `Version(Version(v), e)` are the same, with the same kinds of values, if and only if no part of `e`
goes on behind a number. -/
theorem extras_agree_iff (hstrip : Strips strip) {v e : Str} {a b c : Version}
    (ha : ofString strip v = .ok a) (hbranch : a.isBranch = false) (hextra : a.extra = [])
    (hb : ofStrings strip v e = .ok b) (hc : ofVersion strip a e = .ok c) :
    (b = c ↔ ∀ w ∈ (strip e).splitOn '.', ¬ GoesOn w) ∧
    (b.eq c = true ↔ ∀ w ∈ (strip e).splitOn '.', ¬ GoesOn w) := by
  have hpa := parse_of_ofString ha
  have hnobranch := not_beginsBranch hpa hbranch
  obtain ⟨ms, x, hms, rfl⟩ := parse_version hpa hnobranch
  obtain ⟨y, hy, rfl⟩ := parts_of_ofVersion hc
  obtain rfl : x = [] := (extra_setFirstVersion _).symm.trans hextra
  have he : strip e ≠ [] := fun hnil => by
    rw [hnil] at hy
    cases hy
  obtain ⟨rfl, hparts⟩ := ofStrings_eq hstrip hms hnobranch he hb
  obtain ⟨rfl, -⟩ := values_eq_map hy
  have hvalues : ((strip e).splitOn '.').map extraValue = ((strip e).splitOn '.').map stollValue ↔
      ∀ w ∈ (strip e).splitOn '.', ¬ GoesOn w := by
    rw [List.map_inj_left]
    exact forall₂_congr fun w hw => extraValue_eq_iff (hparts w hw)
  rw [← hvalues, hextra, List.nil_append]
  -- the two versions differ in their extra parts only
  generalize ((strip e).splitOn '.').map extraValue = y
  generalize ((strip e).splitOn '.').map stollValue = z
  have hy := setFirstVersion_extra ⟨ms, [], []⟩ y
  rw [hy]
  generalize setFirstVersion ⟨ms, [], []⟩ = w at hbranch ⊢
  constructor
  · exact ⟨fun h => congrArg Version.extra h, fun h => h ▸ rfl⟩
  · refine (eq_iff (v := { w with extra := y }) (w := { w with extra := z }) hbranch hbranch).trans ?_
    rw [key, key, base, base, Versions.Version.key, Versions.Version.key, toLex_inj, Prod.mk.injEq,
      and_iff_right rfl, Versions.Extra.key_injective.eq_iff]

end

/-- What `pystring::strip` does. -/
def stripBlanks (s : Str) : Str := (s.dropWhile isBlank).rdropWhile isBlank

/-- Extra parts without a number that goes on. -/
theorem extras_agree_rc : ∃ a b c,
    ofString stripBlanks "1.2.3".toList = .ok a ∧
    ofStrings stripBlanks "1.2.3".toList "rc.7".toList = .ok b ∧
    ofVersion stripBlanks a "rc.7".toList = .ok c ∧ b = c ∧ b.eq c = true := by
  let v : Version := ⟨[1, 2, 3], [.string "rc".toList, .number 7], []⟩
  have h := extras_agree_iff (fun _ => rfl : Strips stripBlanks) (v := "1.2.3".toList) (e := "rc.7".toList)
    (a := ⟨[1, 2, 3], [], []⟩) (b := v) (c := v) rfl rfl rfl rfl rfl
  have hparts : ∀ w ∈ (stripBlanks "rc.7".toList).splitOn '.', ¬ GoesOn w := by
    decide
  exact ⟨_, v, v, rfl, rfl, rfl, h.1.mpr hparts, h.2.mpr hparts⟩

/-- A part that goes on is a string for the one and a number for the other. -/
theorem extras_not_agree : ∃ a b c,
    ofString stripBlanks "1.2.3".toList = .ok a ∧ a.isBranch = false ∧ a.extra = [] ∧
    ofStrings stripBlanks "1.2.3".toList "12ab".toList = .ok b ∧
    ofVersion stripBlanks a "12ab".toList = .ok c ∧
    b.extra = [.string "12ab".toList] ∧ c.extra = [.number 12] ∧ b ≠ c ∧ b.eq c = false :=
  ⟨⟨[1, 2, 3], [], []⟩, ⟨[1, 2, 3], [.string "12ab".toList], []⟩, ⟨[1, 2, 3], [.number 12], []⟩,
    rfl, rfl, rfl, rfl, rfl, rfl, rfl, by decide, by decide⟩

end Version

end Primitives.Version1
