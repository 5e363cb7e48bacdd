import Mathlib.Tactic.Lift
import Primitives.Versions.Scan

/-!
# Printing ranges

A version is printed with its numbers up to the last one that is not 0, or with more zeros, and with its
extra part. If there is a number that is not 0 the grammar derives a version from what is printed, with
the same key (`exists_versionText`). A pair is printed as one or two comparisons with its bounds, where a
bound that is `min()`, or not below `max()`, is left out, and is `*` if both are; a range is printed with
`||` between its pairs.
-/

set_option autoImplicit false

namespace Primitives.Versions

open Lib

/-! ## The code -/

/-- `VersionRangePairStringRepresentationType` -/
inductive StringRepresentationType where
  | sameDefaultLevel
  | sameRealLevel
  | individualRealLevel
deriving DecidableEq, Repr

/-- `getDefaultLevel` -/
def Version.defaultLevel : Nat := 3

/-- `Side::toString` -/
def Side.toString (s : Side) : StringRepresentationType → Str
  | .sameDefaultLevel => s.v.toString Version.defaultLevel
  | .sameRealLevel => s.v.toString s.v.getRealLevel
  | .individualRealLevel => s.v.toString s.v.getRealLevel

/-- `RangePair::toString` -/
def RangePair.toString (p : RangePair) (t : StringRepresentationType) : Str :=
  let printLeft := p.first.v.gt .min
  let printRight := p.second.v.lt .max
  if printLeft && printRight && !p.first.strong && !p.second.strong && p.first.v.eq p.second.v then
    '=' :: p.first.toString t
  else
    let left :=
      if printLeft then '>' :: ((if p.first.strong then [] else ['=']) ++ p.first.toString t) else []
    let between := if printLeft && printRight then [' '] else []
    let right :=
      if printRight then '<' :: ((if p.second.strong then [] else ['=']) ++ p.second.toString t) else []
    let s := left ++ between ++ right
    if s = [] then ['*'] else s

/-- `toString(t)`: the last `" || "` is taken off again. -/
def VersionRange.toString (r : VersionRange) (t : StringRepresentationType) : Str :=
  let s := r.range.flatMap fun p => p.toString t ++ " || ".toList
  s.take (s.length - 4)

/-! ## Versions -/

/-- A value of an extra part that a text can have. -/
def Value.Clean : Value → Prop
  | .string s => IsWord s ∧ ¬ ∀ c ∈ s, c ∈ digitChars
  | .number n => 0 ≤ n ∧ n ≤ int64Max

/-- A version that a text can have. -/
structure Version.Clean (v : Version) : Prop where
  numbers : ∀ n ∈ v.numbers, 0 ≤ n ∧ n ≤ int64Max
  extra : ∀ x ∈ v.extra, x.Clean

theorem toStr_of_nonneg {n : Int} (h : 0 ≤ n) : toStr n = decimalStr n.toNat := by
  obtain ⟨m, rfl⟩ := Int.eq_ofNat_of_zero_le h
  show (Nat.repr m).toList = Nat.toDigits 10 m
  rw [Nat.repr, String.toList_ofList]

theorem isDigit_mem {c : Char} (h : isDigit c = true) : c ∈ digitChars := by
  have hall : ∀ n : Nat, 48 ≤ n → n ≤ 57 → Char.ofNat n ∈ digitChars := by
    intro n hlow hhigh
    interval_cases n <;> decide
  rw [isDigit, Char.isDigit, Bool.and_eq_true, decide_eq_true_iff, decide_eq_true_iff] at h
  have hc := hall c.toNat h.1 h.2
  rwa [Char.ofNat_toNat] at hc

theorem isWord_toStr {n : Int} (h : 0 ≤ n) : IsWord (toStr n) ∧ ∀ c ∈ toStr n, c ∈ digitChars := by
  rw [toStr_of_nonneg h]
  have hdigits : ∀ c ∈ decimalStr n.toNat, c ∈ digitChars :=
    fun c hc => isDigit_mem (isDigit_of_mem_decimalStr hc)
  refine ⟨⟨decimalStr_ne_nil _, fun c hc => ?_⟩, hdigits⟩
  exact List.contains_iff_mem.mpr (List.mem_append_right _ (hdigits c hc))

/-- A word of digits is a number, and not an `x`. -/
theorem token_digits {w : Str} (h : ∀ c ∈ w, c ∈ digitChars) : (wordRule w).token w = .number w := by
  have hx : ¬ (w = ['x'] ∨ w = ['X']) := by
    rintro (rfl | rfl)
    · exact absurd (h 'x' List.mem_cons_self) (by decide)
    · exact absurd (h 'X' List.mem_cons_self) (by decide)
  rw [wordRule, if_neg hx, if_pos (all_contains.mpr h)]
  rfl

theorem reads_digits {w : Str} (hne : w ≠ []) (h : ∀ c ∈ w, c ∈ digitChars) :
    Reads w [.number w] (Stops isWordChar) := by
  have hword : IsWord w :=
    ⟨hne, fun c hc => List.contains_iff_mem.mpr (List.mem_append_right _ (h c hc))⟩
  have hreads := reads_word hword
  rwa [token_digits h] at hreads

theorem decimal_toStr {n : Int} (h : 0 ≤ n) : decimal (toStr n) = n.toNat := by
  rw [toStr_of_nonneg h, decimal_decimalStr]

/-- A number of a version, and its token. -/
theorem numberText_toStr {n : Int} (h : 0 ≤ n) (hmax : n.toNat ≤ int64Max) :
    NumberText (.number n.toNat hmax) [.number (toStr n)] := by
  have heq := decimal_toStr h
  have hnumber := NumberText.number (toStr n) (heq.symm ▸ hmax)
  simpa only [heq] using hnumber

/-- What is printed of a value. -/
def Value.print : Value → Str
  | .string s => s
  | .number n => toStr n

theorem Value.Clean.reads {x : Value} (h : x.Clean) :
    ∃ t, ExtraPart x [t] ∧ Reads x.print [t] (Stops isWordChar) := by
  cases x with
  | string s =>
    obtain ⟨hword, hdigits⟩ := h
    refine ⟨(wordRule s).token s, ?_, reads_word hword⟩
    rw [wordRule, if_neg (fun h : s.all digitChars.contains = true => hdigits (all_contains.mp h))]
    split
    · exact .x s
    · split
      · exact .string s
      · exact .extra s
  | number n =>
    obtain ⟨hpos, hmax⟩ := h
    obtain ⟨hword, hdigits⟩ := isWord_toStr hpos
    refine ⟨.number (toStr n), ?_, ?_⟩
    · have heq : ((decimal (toStr n) : Nat) : Int) = n := by
        rw [decimal_toStr hpos, Int.toNat_of_nonneg hpos]
      have hle : decimal (toStr n) ≤ int64Max := by
        rw [decimal_toStr hpos]
        omega
      have hpart := ExtraPart.number (toStr n) hle
      rwa [heq] at hpart
    · exact reads_digits hword.ne_nil hdigits

/-- Words with dots between them. -/
theorem reads_dotted {α β : Type} {item : β → List Token → Prop} {text : α → Str} {value : α → β}
    {as : List α} (hne : as ≠ [])
    (h : ∀ a ∈ as, ∃ t, item (value a) [t] ∧ Reads (text a) [t] (Stops isWordChar)) :
    ∃ ts, SepBy item Dot (as.map value) ts ∧
      Reads (['.'].intercalate (as.map text)) ts (Stops isWordChar) := by
  induction as with
  | nil => exact absurd rfl hne
  | cons a as ih =>
    obtain ⟨t, ht, hreads⟩ := h a List.mem_cons_self
    cases as with
    | nil =>
      refine ⟨[t], .one ht, ?_⟩
      have hone : ['.'].intercalate ([a].map text) = text a := by simp
      rwa [hone]
    | cons b bs =>
      obtain ⟨ts, hts, hreads'⟩ := ih (List.cons_ne_nil _ _) fun a ha => h a (List.mem_cons_of_mem _ ha)
      refine ⟨[t] ++ ([.dot] ++ ts), hts.cons ht .dot, ?_⟩
      have hcons : ['.'].intercalate ((a :: b :: bs).map text) =
          text a ++ (['.'] ++ ['.'].intercalate ((b :: bs).map text)) := by
        simp [List.intercalate]
      rw [hcons]
      refine hreads.append (reads_dot.append hreads' fun _ => trivial) fun _ => ?_
      exact stops_cons (by decide)

/-- There is a number that is not 0. -/
def Version.Nonzero (v : Version) : Prop := (⟨v.numbers, []⟩ : Version).eq .min = false

/-- The numbers that are printed: zeros are left out at the end, and others are added. -/
def Version.printed (v : Version) (level : Nat) : List Int :=
  v.numbers.take v.getRealLevel ++ List.replicate (level - v.getRealLevel) 0

theorem Version.sequence_printed (v : Version) (level : Nat) :
    sequence 0 (v.printed level) = sequence 0 v.numbers := by
  have htake : v.numbers.take v.getRealLevel = v.numbers.rdropWhile (· = 0) :=
    (List.prefix_iff_eq_take.mp (List.rdropWhile_prefix _ _)).symm
  have hzeros : v.numbers.rtakeWhile (· = 0) =
      List.replicate (v.numbers.rtakeWhile (· = 0)).length 0 := by
    refine List.eq_replicate_of_mem fun n hn => ?_
    exact of_decide_eq_true (List.mem_rtakeWhile_imp (p := fun n : Int => decide (n = 0)) hn)
  have hnumbers : v.numbers.rdropWhile (· = 0) ++ v.numbers.rtakeWhile (· = 0) = v.numbers :=
    List.rdropWhile_append_rtakeWhile
  calc sequence 0 (v.printed level)
      = sequence 0 (v.numbers.rdropWhile (· = 0)) := by
        rw [Version.printed, sequence_append_replicate, htake]
    _ = sequence 0 (v.numbers.rdropWhile (· = 0) ++ v.numbers.rtakeWhile (· = 0)) := by
        rw [hzeros, sequence_append_replicate]
    _ = sequence 0 v.numbers := by rw [hnumbers]

theorem Version.toString_eq (v : Version) (level : Nat) : v.toString level =
    ['.'].intercalate ((v.printed level).map toStr) ++
      if v.extra.isEmpty then [] else '-' :: ['.'].intercalate (v.extra.map Value.print) := by
  rw [Version.toString, Version.printVersion, Version.printed, List.map_append, List.map_replicate]
  rfl

theorem Version.Clean.printed {v : Version} (hv : v.Clean) (level : Nat) :
    ∀ n ∈ v.printed level, 0 ≤ n ∧ n.toNat ≤ int64Max := by
  intro n hn
  rcases List.mem_append.mp hn with hn | hn
  · obtain ⟨hpos, hmax⟩ := hv.numbers n (List.mem_of_mem_take hn)
    exact ⟨hpos, by omega⟩
  · rw [List.eq_of_mem_replicate hn]
    exact ⟨le_rfl, Nat.zero_le _⟩

theorem Version.Nonzero.printed_ne_nil {v : Version} (hnonzero : v.Nonzero) (level : Nat) :
    v.printed level ≠ [] := by
  intro hnil
  have hseq := v.sequence_printed level
  rw [hnil] at hseq
  refine Bool.false_ne_true (hnonzero.symm.trans ((Version.eq_iff _ _).mpr ?_))
  rw [Version.key, Version.key, ← hseq]
  have hzero : sequence (0 : Int) [0] = sequence 0 [] := sequence_append_replicate 0 [] 1
  rw [Version.min, hzero]

/-- **A version that is printed** is derived from what is read of it. -/
theorem exists_versionText {v : Version} (hv : v.Clean) (hnonzero : v.Nonzero) (level : Nat) :
    ∃ (t : VersionText) (ts : List Token), VersionTokens t ts ∧
      Reads (v.toString level) ts (Stops isWordChar) ∧ t.fails = false ∧ t.whole.key = v.key := by
  have hclean := hv.printed level
  have hne := hnonzero.printed_ne_nil level
  have hseq := v.sequence_printed level
  have hprint := v.toString_eq level
  generalize v.printed level = ns at hclean hne hseq hprint
  lift ns to List {n : Int // 0 ≤ n ∧ n.toNat ≤ int64Max} using hclean
  have hne : ns ≠ [] := by
    rintro rfl
    exact hne rfl
  let number (n : {n : Int // 0 ≤ n ∧ n.toNat ≤ int64Max}) : Number := .number n.1.toNat n.2.2
  have hreads : ∃ ts, SepBy NumberText Dot (ns.map number) ts ∧
      Reads (['.'].intercalate (ns.map fun n => toStr n.1)) ts (Stops isWordChar) := by
    refine reads_dotted hne fun n _ => ⟨_, numberText_toStr n.2.1 n.2.2, ?_⟩
    obtain ⟨hword, hdigits⟩ := isWord_toStr n.2.1
    exact reads_digits hword.ne_nil hdigits
  obtain ⟨ts, hts, hreads⟩ := hreads
  let t : VersionText := ⟨ns.map number, fun h => hne (List.map_eq_nil_iff.mp h), v.extra⟩
  have hbasic : t.basic.numbers = ns.map Subtype.val := by
    show (ns.map number).filterMap Number.value? = _
    have hvalue : Number.value? ∘ number = some ∘ Subtype.val :=
      funext fun n => congrArg some (Int.toNat_of_nonneg n.2.1)
    rw [List.filterMap_map, hvalue, List.filterMap_eq_map]
  have hfails : t.fails = false := by
    rw [VersionText.fails, Bool.and_eq_false_iff]
    right
    rw [← hnonzero, Bool.eq_iff_iff, Version.eq_iff, Version.eq_iff]
    have hkey : t.basic.key = (⟨v.numbers, []⟩ : Version).key := by
      rw [Version.key, Version.key, hbasic, hseq]
      rfl
    rw [hkey]
  have hkey : t.whole.key = v.key := by
    rw [Version.key, Version.key, ← hseq, ← hbasic]
    rfl
  rw [List.map_map] at hprint
  rw [hprint]
  cases hextra : v.extra with
  | nil =>
    refine ⟨t, ts, .basic hts hextra, ?_, hfails, hkey⟩
    rw [List.isEmpty_nil, if_pos rfl, List.append_nil]
    exact hreads
  | cons x xs =>
    have hparts : ∃ us, SepBy ExtraPart Dot v.extra us ∧
        Reads (['.'].intercalate (v.extra.map Value.print)) us (Stops isWordChar) := by
      have hne : v.extra ≠ [] := by
        rw [hextra]
        exact List.cons_ne_nil _ _
      have hdotted : ∃ us, SepBy ExtraPart Dot (v.extra.map id) us ∧
          Reads (['.'].intercalate (v.extra.map Value.print)) us (Stops isWordChar) :=
        reads_dotted hne fun x hx => (hv.extra x hx).reads
      rwa [List.map_id] at hdotted
    obtain ⟨us, hus, hreads'⟩ := hparts
    refine ⟨t, ts ++ .hyphen :: us, .extra hts hus, ?_, hfails, hkey⟩
    rw [← hextra, hextra, List.isEmpty_cons, if_neg Bool.false_ne_true, ← hextra]
    refine hreads.append (reads_hyphen.append hreads' fun _ => trivial) fun _ => ?_
    exact stops_cons (by decide)

end Primitives.Versions
