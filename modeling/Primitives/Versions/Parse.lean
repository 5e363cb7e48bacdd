import Primitives.Versions.Pairs

/-!
# Reading a version

`Version::parse` and `Extra::parse` are machines that read parts with dots between them. The constructor
takes a text apart at its first `-`, and gives the part before it to the one and the part behind it to the
other. What is printed of a version that was read is read again as this version (`ofString_toString`).
-/

set_option autoImplicit false

namespace Primitives.Versions

open Lib

/-! ## The code -/

/-- `std::stoll` on a run of digits. -/
def stoll (ds : Str) : Except Failure Int :=
  if decimal ds ≤ int64Max then .ok (decimal ds) else .error (.fault .outOfRange)

/-- `std::from_chars` on the whole of a word, and what `ADD_EXTRA` pushes: the number that it is, or the
word itself. -/
def extraValue (w : Str) : Value :=
  if w.all isDigit && decimal w ≤ int64Max then .number (decimal w) else .string w

section

variable {α : Type}

/-- The machine `part ('.' part)*`, with the characters of a part and the action behind it: `sb` is what
was read of a part. An action is done when its part is left, for a dot or at the end, and a machine that
stops before the end accepts nothing. -/
def parseParts (isPart : Char → Bool) (add : Str → Except Failure α) :
    Str → Str → Except Failure (Option (List α))
  | sb, [] =>
    if sb = [] then .ok none
    else do
      let a ← add sb
      return some [a]
  | sb, c :: s =>
    if isPart c then parseParts isPart add (sb ++ [c]) s
    else if c = '.' ∧ sb ≠ [] then do
      let a ← add sb
      let parts ← parseParts isPart add [] s
      return parts.map (a :: ·)
    else .ok none

end

/-- `Version::parse`: the numbers. -/
def Version.parse (s : Str) : Except Failure (Option (List Int)) :=
  if s.length > 8192 then .ok none else parseParts isDigit stoll [] s

/-- `Extra::parse`: the values. A part has letters, digits and `_`. -/
def Extra.parse (s : Str) : Except Failure (Option Extra) :=
  if s.length > 8192 then .ok none else parseParts isWordChar (fun w => .ok (extraValue w)) [] s

section

-- `pystring::strip`, which is `preprocess_input`
variable (strip : Str → Str)

/-- `Extra(s)` -/
def Extra.ofString (s : Str) : Except Failure Extra :=
  if s = [] then .error (.runtimeError "Empty extra".toList)
  else do
    match ← Extra.parse (strip s) with
    | some e => return e
    | none => .error (.runtimeError ("Invalid version extra: ".toList ++ s))

/-- The extra part behind the first `-` of a text. -/
def extraBehind (ps : Str) : Except Failure Extra :=
  if '-' ∈ ps then Extra.ofString strip ((ps.dropWhile (· ≠ '-')).drop 1) else .ok []

/-- `Version(s)` -/
def Version.ofString (s : Str) : Except Failure Version := do
  let ps := strip s
  let extra ← extraBehind strip ps
  match ← Version.parse (ps.takeWhile (· ≠ '-')) with
  | some numbers => return ⟨numbers, extra⟩
  | none => .error (.runtimeError ("Invalid version: ".toList ++ s))

end

/-! ## Parts -/

section Parts

variable {α : Type} {isPart : Char → Bool} {add : Str → Except Failure α}

/-- A word of the characters. -/
structure IsPart (isPart : Char → Bool) (w : Str) : Prop where
  ne_nil : w ≠ []
  isPart : ∀ c ∈ w, isPart c = true

/-- Words with dots between them, and what the action gives for them. -/
structure Dotted (isPart : Char → Bool) (add : Str → Except Failure α) (s : Str) (ws : Strings)
    (vs : List α) : Prop where
  ne_nil : ws ≠ []
  parts : ∀ w ∈ ws, IsPart isPart w
  text : s = ['.'].intercalate ws
  values : List.Forall₂ (fun w v => add w = .ok v) ws vs

theorem intercalate_cons_of_ne_nil {w : Str} {ws : Strings} (h : ws ≠ []) :
    ['.'].intercalate (w :: ws) = w ++ '.' :: ['.'].intercalate ws := by
  obtain ⟨w', ws, rfl⟩ := List.exists_cons_of_ne_nil h
  rw [List.intercalate_cons_cons, List.append_assoc]
  rfl

/-- What the machine accepts. -/
theorem exists_of_parseParts {s : Str} : ∀ {sb : Str} {vs : List α}, (∀ c ∈ sb, isPart c = true) →
    parseParts isPart add sb s = .ok (some vs) → ∃ ws, Dotted isPart add (sb ++ s) ws vs := by
  induction s with
  | nil =>
    intro sb vs hsb h
    rw [parseParts] at h
    split at h
    · cases h
    · rename_i hne
      obtain ⟨a, ha, h⟩ := of_bind_eq_ok h
      cases h
      refine ⟨[sb], List.cons_ne_nil _ _, List.forall_mem_singleton.mpr ⟨hne, hsb⟩, ?_, .cons ha .nil⟩
      rw [List.append_nil, List.intercalate_singleton]
  | cons c s ih =>
    intro sb vs hsb h
    rw [parseParts] at h
    split at h
    · rename_i hc
      have hsb' : ∀ d ∈ sb ++ [c], isPart d = true := by
        rw [List.forall_mem_append, List.forall_mem_singleton]
        exact ⟨hsb, hc⟩
      obtain ⟨ws, hws⟩ := ih hsb' h
      rw [List.append_assoc] at hws
      exact ⟨ws, hws⟩
    · split at h
      · rename_i hdot
        obtain ⟨rfl, hne⟩ := hdot
        obtain ⟨a, ha, h⟩ := of_bind_eq_ok h
        obtain ⟨parts, hparts, h⟩ := of_bind_eq_ok h
        cases parts with
        | none => cases h
        | some vs' =>
          cases h
          obtain ⟨ws, hws⟩ := ih (List.forall_mem_nil _) hparts
          refine ⟨sb :: ws, List.cons_ne_nil _ _, List.forall_mem_cons.mpr ⟨⟨hne, hsb⟩, hws.parts⟩, ?_,
            .cons ha hws.values⟩
          rw [intercalate_cons_of_ne_nil hws.ne_nil, ← hws.text]
          rfl
      · cases h

/-- A part is read up to its end. -/
theorem parseParts_append {w : Str} (hw : ∀ c ∈ w, isPart c = true) (sb s : Str) :
    parseParts isPart add sb (w ++ s) = parseParts isPart add (sb ++ w) s := by
  induction w generalizing sb with
  | nil => rw [List.nil_append, List.append_nil]
  | cons c w ih =>
    obtain ⟨hc, hw⟩ := List.forall_mem_cons.mp hw
    rw [List.cons_append, parseParts, if_pos hc, ih hw, List.append_assoc]
    rfl

/-- The machine accepts parts with dots between them, unless an action fails. -/
theorem Dotted.parseParts_eq {s : Str} {ws : Strings} {vs : List α} (h : Dotted isPart add s ws vs)
    (hdot : isPart '.' = false) : parseParts isPart add [] s = .ok (some vs) := by
  obtain ⟨hne, hparts, rfl, hvalues⟩ := h
  induction hvalues with
  | nil => exact absurd rfl hne
  | @cons w v ws vs hv hvs ih =>
    obtain ⟨hw, hws⟩ := List.forall_mem_cons.mp hparts
    cases hvs with
    | nil =>
      have hend : parseParts isPart add [] (w ++ []) = parseParts isPart add ([] ++ w) [] :=
        parseParts_append hw.isPart [] []
      rw [List.append_nil, List.nil_append, parseParts, if_neg hw.ne_nil, hv] at hend
      rw [List.intercalate_singleton, hend]
      rfl
    | cons hv' hvs =>
      have ih := ih (List.cons_ne_nil _ _) hws
      rw [intercalate_cons_of_ne_nil (List.cons_ne_nil _ _), parseParts_append hw.isPart,
        List.nil_append, parseParts, if_neg (Bool.eq_false_iff.mp hdot), if_pos ⟨rfl, hw.ne_nil⟩, hv]
      show (do let parts ← parseParts isPart add [] _; return parts.map (v :: ·)) = _
      rw [ih]
      rfl

theorem Dotted.mem_text {s : Str} {ws : Strings} {vs : List α} (h : Dotted isPart add s ws vs) :
    ∀ c ∈ s, c = '.' ∨ isPart c = true := by
  intro c hc
  rw [h.text] at hc
  rcases mem_intercalate hc with hdot | ⟨w, hw, hcw⟩
  · exact .inl (List.mem_singleton.mp hdot)
  · exact .inr ((h.parts w hw).isPart c hcw)

theorem Dotted.ne_empty {s : Str} {ws : Strings} {vs : List α} (h : Dotted isPart add s ws vs) : s ≠ [] := by
  obtain ⟨w, ws, rfl⟩ := List.exists_cons_of_ne_nil h.ne_nil
  have hw := (h.parts w List.mem_cons_self).ne_nil
  rw [h.text]
  cases ws with
  | nil =>
    rw [List.intercalate_singleton]
    exact hw
  | cons w' ws =>
    rw [intercalate_cons_of_ne_nil (List.cons_ne_nil _ _)]
    exact List.append_ne_nil_of_left_ne_nil hw _

end Parts

/-! ## Versions -/

/-- The parts of the numbers of a version. -/
abbrev NumbersOf : Str → Strings → List Int → Prop := Dotted isDigit stoll

/-- The parts of an extra part. -/
abbrev ExtraOf : Str → Strings → Extra → Prop := Dotted isWordChar fun w => .ok (extraValue w)

/-- The version of a text that was stripped. -/
inductive VersionOf (strip : Str → Str) : Str → Version → Prop
  | numbers {s : Str} {ws : Strings} {ns : List Int} (h : NumbersOf s ws ns) (hlen : s.length ≤ 8192) :
    VersionOf strip s ⟨ns, []⟩
  | extra {s es : Str} {ws us : Strings} {ns : List Int} {e : Extra} (h : NumbersOf s ws ns)
      (hlen : s.length ≤ 8192) (hne : es ≠ []) (he : ExtraOf (strip es) us e)
      (helen : (strip es).length ≤ 8192) : VersionOf strip (s ++ '-' :: es) ⟨ns, e⟩

section

variable {strip : Str → Str}

theorem parse_iff {s : Str} {ns : List Int} :
    Version.parse s = .ok (some ns) ↔ (∃ ws, NumbersOf s ws ns) ∧ s.length ≤ 8192 := by
  rw [Version.parse]
  by_cases hlen : s.length > 8192
  · rw [if_pos hlen]
    exact iff_of_false (fun h => by cases h) fun h => absurd h.2 (by omega)
  · rw [if_neg hlen, and_iff_left (Nat.le_of_not_gt hlen)]
    constructor
    · exact fun h => exists_of_parseParts (List.forall_mem_nil _) h
    · rintro ⟨ws, h⟩
      exact h.parseParts_eq (by decide)

theorem Extra.ofString_iff {s : Str} {e : Extra} : Extra.ofString strip s = .ok e ↔
    s ≠ [] ∧ (∃ us, ExtraOf (strip s) us e) ∧ (strip s).length ≤ 8192 := by
  rw [Extra.ofString]
  by_cases hnil : s = []
  · rw [if_pos hnil]
    exact iff_of_false (fun h => by cases h) fun h => h.1 hnil
  · rw [if_neg hnil, and_iff_right hnil, Extra.parse]
    by_cases hlen : (strip s).length > 8192
    · rw [if_pos hlen]
      exact iff_of_false (fun h => by cases h) fun h => absurd h.2 (by omega)
    · rw [if_neg hlen, and_iff_left (Nat.le_of_not_gt hlen)]
      constructor
      · intro h
        obtain ⟨x, hx, h⟩ := of_bind_eq_ok h
        cases x with
        | none => cases h
        | some e' =>
          cases h
          exact exists_of_parseParts (List.forall_mem_nil _) hx
      · rintro ⟨us, h⟩
        rw [h.parseParts_eq (by decide)]
        rfl

theorem NumbersOf.hyphen {s : Str} {ws : Strings} {ns : List Int} (h : NumbersOf s ws ns) :
    ∀ c ∈ s, decide (c ≠ '-') = true := by
  intro c hc
  refine decide_eq_true ?_
  rintro rfl
  rcases h.mem_text _ hc with hdot | hdigit
  · cases hdot
  · cases hdigit

/-- The text behind the first hyphen. -/
theorem dropWhile_of_hyphen {s : Str} (h : '-' ∈ s) :
    s.dropWhile (fun c => decide (c ≠ '-')) = '-' :: (s.dropWhile (fun c => decide (c ≠ '-'))).drop 1 := by
  cases hd : s.dropWhile (fun c => decide (c ≠ '-')) with
  | nil =>
    have hall := List.dropWhile_eq_nil_iff.mp hd '-' h
    exact absurd rfl (of_decide_eq_true hall)
  | cons c t =>
    have hc := List.head?_dropWhile_not (fun c => decide (c ≠ '-')) s
    rw [hd] at hc
    have hc : c = '-' := by simpa using hc
    rw [hc]
    rfl

theorem takeWhile_of_no_hyphen {s : Str} (h : '-' ∉ s) : s.takeWhile (fun c => decide (c ≠ '-')) = s := by
  rw [List.takeWhile_eq_self_iff]
  intro c hc
  refine decide_eq_true ?_
  rintro rfl
  exact h hc

/-- **What the constructor accepts**, and the version of it. -/
theorem Version.ofString_iff {s : Str} {v : Version} :
    Version.ofString strip s = .ok v ↔ VersionOf strip (strip s) v := by
  rw [Version.ofString]
  generalize strip s = ps
  constructor
  · intro h
    obtain ⟨e, he, h⟩ := of_bind_eq_ok h
    obtain ⟨ns, hns, h⟩ := of_bind_eq_ok h
    cases ns with
    | none => cases h
    | some ns =>
      cases h
      obtain ⟨⟨ws, hws⟩, hlen⟩ := parse_iff.mp hns
      rw [extraBehind] at he
      by_cases hmem : '-' ∈ ps
      · rw [if_pos hmem] at he
        obtain ⟨hne, ⟨us, hus⟩, helen⟩ := Extra.ofString_iff.mp he
        have htext := List.takeWhile_append_dropWhile (p := fun c => decide (c ≠ '-')) (l := ps)
        rw [dropWhile_of_hyphen hmem] at htext
        rw [← htext]
        exact .extra hws hlen hne hus helen
      · rw [if_neg hmem] at he
        cases he
        rw [takeWhile_of_no_hyphen hmem] at hws hlen
        exact .numbers hws hlen
  · intro h
    cases h with
    | @numbers _ ws ns hws hlen =>
      have hmem : '-' ∉ ps := fun hc => of_decide_eq_true (NumbersOf.hyphen hws _ hc) rfl
      rw [extraBehind, if_neg hmem, takeWhile_of_no_hyphen hmem, parse_iff.mpr ⟨⟨ws, hws⟩, hlen⟩]
      rfl
    | @extra s es ws us ns e hws hlen hne hus helen =>
      have hmem : '-' ∈ s ++ '-' :: es := List.mem_append_right _ List.mem_cons_self
      have htake : (s ++ '-' :: es).takeWhile (fun c => decide (c ≠ '-')) = s := by
        rw [List.takeWhile_append_of_pos (NumbersOf.hyphen hws), List.takeWhile_cons_of_neg (by decide),
          List.append_nil]
      have hdrop : ((s ++ '-' :: es).dropWhile (fun c => decide (c ≠ '-'))).drop 1 = es := by
        rw [List.dropWhile_append_of_pos (NumbersOf.hyphen hws), List.dropWhile_cons_of_neg (by decide)]
        rfl
      rw [extraBehind, if_pos hmem, htake, hdrop, Extra.ofString_iff.mpr ⟨hne, ⟨us, hus⟩, helen⟩,
        parse_iff.mpr ⟨⟨ws, hws⟩, hlen⟩]
      rfl

/-! ## Words that are printed -/

theorem decimal_lt {ds : Str} (h : ∀ c ∈ ds, isDigit c = true) : decimal ds < 10 ^ ds.length := by
  have hall : ∀ (ds : Str) (init : ℕ), (∀ c ∈ ds, isDigit c = true) →
      Nat.ofDigitChars 10 ds init < 10 ^ ds.length * (init + 1) := by
    intro ds
    induction ds with
    | nil =>
      intro init _
      simp
    | cons c ds ih =>
      intro init h
      obtain ⟨hc, h⟩ := List.forall_mem_cons.mp h
      have hdigit : c.toNat - '0'.toNat ≤ 9 := by
        rw [isDigit, Char.isDigit, Bool.and_eq_true, decide_eq_true_iff, decide_eq_true_iff] at hc
        have hle : c.toNat ≤ 57 := hc.2
        exact Nat.sub_le_of_le_add hle
      have hrest := ih (10 * init + (c.toNat - '0'.toNat)) h
      rw [Nat.ofDigitChars_cons, List.length_cons, Nat.pow_succ]
      calc _ < 10 ^ ds.length * (10 * init + (c.toNat - '0'.toNat) + 1) := hrest
        _ ≤ 10 ^ ds.length * (10 * (init + 1)) := Nat.mul_le_mul_left _ (by omega)
        _ = 10 ^ ds.length * 10 * (init + 1) := (Nat.mul_assoc _ _ _).symm
  have hzero := hall ds 0 h
  rwa [Nat.zero_add, Nat.mul_one] at hzero

/-- A number is printed without the zeros that it was written with. -/
theorem length_toStr_decimal {w : Str} (hne : w ≠ []) (h : ∀ c ∈ w, isDigit c = true) :
    (toStr (decimal w)).length ≤ w.length := by
  rw [toStr_of_nonneg (Int.natCast_nonneg _), Int.toNat_natCast]
  exact (Nat.length_toDigits_le_iff (by omega) (List.length_pos_iff.mpr hne)).mpr (decimal_lt h)

theorem isDigit_of_mem {c : Char} (h : c ∈ digitChars) : isDigit c = true := by
  have hall : digitChars.all isDigit = true := by decide
  exact List.all_eq_true.mp hall c h

theorem isPart_toStr {n : Int} (h : 0 ≤ n) : IsPart isDigit (toStr n) := by
  obtain ⟨hword, hdigits⟩ := isWord_toStr h
  exact ⟨hword.ne_nil, fun c hc => isDigit_of_mem (hdigits c hc)⟩

theorem stoll_toStr {n : Int} (h : 0 ≤ n) (hmax : n ≤ int64Max) : stoll (toStr n) = .ok n := by
  have hn : ((decimal (toStr n) : ℕ) : Int) = n := by rw [decimal_toStr h, Int.toNat_of_nonneg h]
  rw [stoll, if_pos (by omega), hn]

theorem stoll_eq_ok {w : Str} {n : Int} (h : stoll w = .ok n) : n = decimal w ∧ decimal w ≤ int64Max := by
  unfold stoll at h
  split at h
  · rename_i hle
    cases h
    exact ⟨rfl, hle⟩
  · cases h

/-- A value that was read is printed as a word, no longer than it was, that is read as this value. -/
theorem print_extraValue {w : Str} (hw : IsPart isWordChar w) :
    IsPart isWordChar (extraValue w).print ∧ extraValue (extraValue w).print = extraValue w ∧
      (extraValue w).print.length ≤ w.length := by
  by_cases hnumber : (w.all isDigit && decide (decimal w ≤ int64Max)) = true
  · have hval : extraValue w = .number (decimal w) := if_pos hnumber
    obtain ⟨hdigits, hle⟩ := (Bool.and_eq_true _ _).mp hnumber
    have hpart := isPart_toStr (Int.natCast_nonneg (decimal w))
    have hprinted : decimal (toStr (decimal w)) = decimal w := by
      rw [decimal_toStr (Int.natCast_nonneg _), Int.toNat_natCast]
    rw [hval, Value.print]
    refine ⟨⟨hpart.ne_nil, ?_⟩, ?_, length_toStr_decimal hw.ne_nil (List.all_eq_true.mp hdigits)⟩
    · exact (isWord_toStr (Int.natCast_nonneg _)).1.isWordChar
    · rw [extraValue, List.all_eq_true.mpr hpart.isPart, hprinted, hle]
      rfl
  · have hval : extraValue w = .string w := if_neg hnumber
    rw [hval, Value.print]
    exact ⟨hw, hval, Nat.le_refl _⟩

theorem intercalate_length_le {us ws : Strings}
    (h : List.Forall₂ (fun u w : Str => u.length ≤ w.length) us ws) :
    (['.'].intercalate us).length ≤ (['.'].intercalate ws).length := by
  induction h with
  | nil => exact Nat.le_refl _
  | @cons u w us ws hw hws ih =>
    cases hws with
    | nil =>
      rw [List.intercalate_singleton, List.intercalate_singleton]
      exact hw
    | cons hw' hws =>
      rw [intercalate_cons_of_ne_nil (List.cons_ne_nil _ _), intercalate_cons_of_ne_nil (List.cons_ne_nil _ _),
        List.length_append, List.length_append, List.length_cons, List.length_cons]
      omega

/-- The values of an extra part are read again from what is printed of them. -/
theorem ExtraOf.print {s : Str} {us : Strings} {e : Extra} (h : ExtraOf s us e) :
    ExtraOf (['.'].intercalate (e.map Value.print)) (e.map Value.print) e ∧
      (['.'].intercalate (e.map Value.print)).length ≤ s.length := by
  obtain ⟨hne, hparts, rfl, hvalues⟩ := h
  have hall : (∀ w ∈ e.map Value.print, IsPart isWordChar w) ∧
      List.Forall₂ (fun w v => (Except.ok (extraValue w) : Except Failure Value) = .ok v)
        (e.map Value.print) e ∧
      List.Forall₂ (fun u w : Str => u.length ≤ w.length) (e.map Value.print) us := by
    clear hne
    induction hvalues with
    | nil => exact ⟨List.forall_mem_nil _, .nil, .nil⟩
    | @cons w v us e hv hvs ih =>
      cases hv
      obtain ⟨hw, hus⟩ := List.forall_mem_cons.mp hparts
      obtain ⟨hpart, hvalue, hlen⟩ := print_extraValue hw
      obtain ⟨hparts', hvalues', hlens⟩ := ih hus
      exact ⟨List.forall_mem_cons.mpr ⟨hpart, hparts'⟩, .cons (congrArg _ hvalue) hvalues', .cons hlen hlens⟩
  obtain ⟨hparts', hvalues', hlens⟩ := hall
  refine ⟨⟨?_, hparts', rfl, hvalues'⟩, intercalate_length_le hlens⟩
  rintro hnil
  rw [List.map_eq_nil_iff] at hnil
  rw [hnil] at hvalues
  exact hne (List.forall₂_nil_right_iff.mp hvalues)

/-! ## The round trip -/

/-- What `pystring::strip` is for: it takes the blanks off both ends. -/
def Strips (strip : Str → Str) : Prop := ∀ s, strip s = (s.dropWhile isBlank).rdropWhile isBlank

theorem Strips.eq_self (h : Strips strip) {s : Str} (hs : ∀ c ∈ s, isBlank c = false) : strip s = s := by
  have hdrop : s.dropWhile isBlank = s := by
    cases s with
    | nil => rfl
    | cons c s => exact List.dropWhile_cons_of_neg (Bool.eq_false_iff.mp (hs c List.mem_cons_self))
  rw [h, hdrop, List.rdropWhile_eq_self_iff]
  intro hne
  exact Bool.eq_false_iff.mp (hs _ (List.getLast_mem hne))

theorem Version.length_printed (v : Version) (level : ℕ) : level ≤ (v.printed level).length := by
  have hreal : v.getRealLevel ≤ v.numbers.length := (List.rdropWhile_prefix _ _).length_le
  rw [printed, List.length_append, List.length_take, List.length_replicate]
  omega

/-- The numbers of the parts. -/
theorem NumbersOf.eq_map {s : Str} {ws : Strings} {ns : List Int} (h : NumbersOf s ws ns) :
    ns = ws.map (fun w => (decimal w : Int)) ∧ ∀ w ∈ ws, decimal w ≤ int64Max := by
  obtain ⟨-, -, -, hvalues⟩ := h
  induction hvalues with
  | nil => exact ⟨rfl, List.forall_mem_nil _⟩
  | cons hv hvs ih =>
    obtain ⟨rfl, hle⟩ := stoll_eq_ok hv
    exact ⟨congrArg _ ih.1, List.forall_mem_cons.mpr ⟨hle, ih.2⟩⟩

theorem VersionOf.numbers_bounds {s : Str} {v : Version} (h : VersionOf strip s v) :
    ∀ n ∈ v.numbers, 0 ≤ n ∧ n ≤ int64Max := by
  have hall : ∀ {s ws ns}, NumbersOf s ws ns → ∀ n ∈ ns, 0 ≤ n ∧ n ≤ int64Max := by
    intro s ws ns h n hn
    obtain ⟨rfl, hle⟩ := NumbersOf.eq_map h
    obtain ⟨w, hw, rfl⟩ := List.mem_map.mp hn
    have hmax := hle w hw
    omega
  cases h with
  | numbers h => exact hall h
  | extra h => exact hall h

theorem not_isBlank_of_numbers {s : Str} {ws : Strings} {ns : List Int} (h : NumbersOf s ws ns) :
    ∀ c ∈ s, isBlank c = false := by
  intro c hc
  rcases h.mem_text c hc with rfl | hdigit
  · rfl
  · refine not_isBlank_of_isWordChar ?_
    exact List.contains_iff_mem.mpr (List.mem_append_right _ (isDigit_mem hdigit))

theorem not_isBlank_of_extra {s : Str} {us : Strings} {e : Extra} (h : ExtraOf s us e) :
    ∀ c ∈ s, isBlank c = false := by
  intro c hc
  rcases h.mem_text c hc with rfl | hword
  · rfl
  · exact not_isBlank_of_isWordChar hword

/-- The numbers that are printed are read again. -/
theorem VersionOf.printed {s : Str} {v : Version} (h : VersionOf strip s v) {level : ℕ} (hlevel : 1 ≤ level) :
    NumbersOf (['.'].intercalate ((v.printed level).map toStr)) ((v.printed level).map toStr)
      (v.printed level) := by
  have hbounds : ∀ n ∈ v.printed level, 0 ≤ n ∧ n ≤ int64Max := by
    intro n hn
    rcases List.mem_append.mp hn with hn | hn
    · exact h.numbers_bounds n (List.mem_of_mem_take hn)
    · rw [List.eq_of_mem_replicate hn]
      exact ⟨le_rfl, Int.natCast_nonneg _⟩
  refine ⟨?_, ?_, rfl, ?_⟩
  · intro hnil
    have hlen := v.length_printed level
    rw [List.map_eq_nil_iff.mp hnil, List.length_nil] at hlen
    omega
  · intro w hw
    obtain ⟨n, hn, rfl⟩ := List.mem_map.mp hw
    exact isPart_toStr (hbounds n hn).1
  · rw [List.forall₂_map_left_iff, List.forall₂_same]
    exact fun n hn => stoll_toStr (hbounds n hn).1 (hbounds n hn).2

/-- **The round trip** of a version: what is printed of it, at any level from 1 on, is read as this
version. -/
theorem ofString_toString (strip : Str → Str) (hstrip : Strips strip) (s : Str) (v : Version)
    (h : Version.ofString strip s = .ok v) (level : ℕ) (hlevel : 1 ≤ level)
    (hlen : (v.printVersion level).length ≤ 8192) :
    ∃ w, Version.ofString strip (v.toString level) = .ok w ∧ w.eq v = true ∧ w.extra = v.extra := by
  have hread := Version.ofString_iff.mp h
  generalize strip s = ps at hread
  have hnumbers := hread.printed hlevel
  have hprint : v.printVersion level = ['.'].intercalate ((v.printed level).map toStr) := by
    rw [Version.printVersion, Version.printed, List.map_append, List.map_replicate]
  rw [hprint] at hlen
  refine ⟨⟨v.printed level, v.extra⟩, ?_, ?_, rfl⟩
  · rw [Version.ofString_iff, v.toString_eq]
    cases hread with
    | numbers hns =>
      rw [List.isEmpty_nil, if_pos rfl, List.append_nil, hstrip.eq_self (not_isBlank_of_numbers hnumbers)]
      exact .numbers hnumbers hlen
    | @extra _ es _ us ns e hns _ _ hus helen =>
      obtain ⟨hextra, hle⟩ := ExtraOf.print hus
      have hne : e.isEmpty = false := by
        rw [List.isEmpty_eq_false_iff]
        rintro rfl
        exact hextra.ne_nil rfl
      have hself := hstrip.eq_self (not_isBlank_of_extra hextra)
      rw [hne, if_neg Bool.false_ne_true, hstrip.eq_self]
      · refine .extra hnumbers hlen hextra.ne_empty (hself.symm ▸ hextra) ?_
        rw [hself]
        exact hle.trans helen
      · rw [List.forall_mem_append, List.forall_mem_cons]
        exact ⟨not_isBlank_of_numbers hnumbers, rfl, not_isBlank_of_extra hextra⟩
  · rw [Version.eq_iff, Version.key, Version.key, v.sequence_printed]

/-- ` 01.0.0-rc.007` -/
theorem ofString_toString_zeros :
    ∃ w, Version.ofString (fun s => (s.dropWhile isBlank).rdropWhile isBlank)
        ((⟨[1, 0, 0], [.string "rc".toList, .number 7]⟩ : Version).toString 1) = .ok w ∧
      w.eq ⟨[1, 0, 0], [.string "rc".toList, .number 7]⟩ = true ∧ w.extra = [.string "rc".toList, .number 7] :=
  ofString_toString _ (fun _ => rfl) " 01.0.0-rc.007".toList _ rfl 1 (Nat.le_refl _) (by decide)

end

end Primitives.Versions
