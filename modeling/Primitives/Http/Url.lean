import Mathlib.Data.List.Basic

/-!
# URL coding

`url_encode` leaves letters, digits and four marks as they are, makes a plus of a space, and escapes
every other byte by two hex digits. `url_decode` reads that back (`urlDecode_urlEncode`).

The decoder takes a percent for an escape if two hex digits are behind it. To look at both, two
characters have to be behind the percent; it asks for one. So a text that ends in a percent and one digit
is read beyond its end, and every other text is decoded (`urlDecode_iff`).
-/

set_option autoImplicit false

namespace Primitives.Http

/-! ## The code -/

abbrev Bytes := List UInt8

/-- A character literal. -/
def ch (c : Char) : UInt8 := c.toUInt8

/-- A `char` as an `int`. It is signed. -/
def toInt (c : UInt8) : BitVec 32 := c.toBitVec.signExtend 32

/-- An `int` that is stored in a `char`. -/
def toChar (i : BitVec 32) : UInt8 := UInt8.ofBitVec (i.setWidth 8)

def isDigit (c : UInt8) : Bool := ch '0' ≤ c && c ≤ ch '9'

/-- `isalnum`, in the classic locale. -/
def isAlnum (c : UInt8) : Bool :=
  isDigit c || (ch 'A' ≤ c && c ≤ ch 'Z') || (ch 'a' ≤ c && c ≤ ch 'z')

/-- `std::isxdigit`, in the classic locale, where no negative `char` is one. -/
def isXdigit (c : UInt8) : Bool :=
  isDigit c || (ch 'A' ≤ c && c ≤ ch 'F') || (ch 'a' ≤ c && c ≤ ch 'f')

/-- The character for a half of a byte. -/
def hexOfHalf (half : UInt8) : UInt8 :=
  toChar (toInt half + if (9 : BitVec 32).slt (toInt half) then toInt (ch 'A') - 10 else toInt (ch '0'))

def charToHex (c : UInt8) : Bytes :=
  let first := hexOfHalf (toChar ((toInt c &&& 0xF0).sdiv 16))
  let second := hexOfHalf (toChar (toInt c &&& 0x0F))
  [first, second]

/-- What `url_encode` appends for a character. -/
def encodeOne (c : UInt8) : Bytes :=
  if (0 : BitVec 32).slt (toInt c) && (toInt c).slt 128 && isAlnum c then [c]
  else if c = ch ' ' then [ch '+']
  else if c ∈ [ch '-', ch '_', ch '.', ch '~'] then [c]
  else ch '%' :: charToHex c

def urlEncode (src : Bytes) : Bytes := src.flatMap encodeOne

/-- The value of a digit, as `hexToChar` finds it. -/
def digitOf (c : UInt8) : BitVec 32 :=
  if (toInt (ch 'A')).sle (toInt c) then (toInt c &&& 0xDF) - toInt (ch 'A') + 10
  else toInt c - toInt (ch '0')

def hexToChar (first second : UInt8) : UInt8 := toChar (digitOf first * 16 + digitOf second)

/-- What is tested at a percent, for what stands from the iterator on; `none` if the end is looked at. -/
def escapeAhead (iter : Bytes) : Option Bool :=
  -- Don't assume well-formed input
  if 2 ≤ iter.length then do
    if isXdigit (← iter[1]?) then return isXdigit (← iter[2]?)
    else return false
  else return false

/-- The loop of `url_decode`, for what stands from the iterator on; `none` if the end is looked at. -/
def decodeFrom : Bytes → Option Bytes
  | [] => some []
  | c :: iter =>
    if c = ch '+' then (decodeFrom iter).map (ch ' ' :: ·)
    else if c = ch '%' then
      match escapeAhead (c :: iter) with
      | none => none
      | some true =>
        match iter with
        | first :: second :: iter => (decodeFrom iter).map (hexToChar first second :: ·)
        | _ => none
      -- Just pass the % through untouched
      | some false => (decodeFrom iter).map (ch '%' :: ·)
    else (decodeFrom iter).map (c :: ·)

def urlDecode (src : Bytes) : Option Bytes := decodeFrom src

/-! ## What is decoded -/

/-- The value of a hex digit. -/
def digitValue (c : UInt8) : UInt8 :=
  if isDigit c then c - ch '0' else if c ≤ ch 'F' then c - ch 'A' + 10 else c - ch 'a' + 10

/-- The byte that two hex digits denote. -/
def denoted (a b : UInt8) : UInt8 := digitValue a * 16 + digitValue b

/-- What a text is decoded to, from left to right. -/
inductive Decoded : Bytes → Bytes → Prop
  | nil : Decoded [] []
  | plus {s t : Bytes} : Decoded s t → Decoded (ch '+' :: s) (ch ' ' :: t)
  | escape {a b : UInt8} {s t : Bytes} : isXdigit a = true → isXdigit b = true → Decoded s t →
      Decoded (ch '%' :: a :: b :: s) (denoted a b :: t)
  | percent {s t : Bytes} : (∀ a b r, s = a :: b :: r → ¬ (isXdigit a = true ∧ isXdigit b = true)) →
      Decoded s t → Decoded (ch '%' :: s) (ch '%' :: t)
  | other {c : UInt8} {s t : Bytes} : c ≠ ch '+' → c ≠ ch '%' → Decoded s t →
      Decoded (c :: s) (c :: t)

theorem Decoded.unique {s t u : Bytes} (ht : Decoded s t) (hu : Decoded s u) : u = t := by
  induction ht generalizing u with
  | nil =>
    cases hu
    rfl
  | plus _ ih =>
    cases hu with
    | plus h => rw [ih h]
    | other hplus => exact absurd rfl hplus
  | escape ha hb _ ih =>
    cases hu with
    | escape _ _ h => rw [ih h]
    | percent hno => exact absurd ⟨ha, hb⟩ (hno _ _ _ rfl)
    | other _ hpercent => exact absurd rfl hpercent
  | percent hno _ ih =>
    cases hu with
    | escape ha hb => exact absurd ⟨ha, hb⟩ (hno _ _ _ rfl)
    | percent _ h => rw [ih h]
    | other _ hpercent => exact absurd rfl hpercent
  | other hplus hpercent _ ih =>
    cases hu with
    | plus => exact absurd rfl hplus
    | escape => exact absurd rfl hpercent
    | percent => exact absurd rfl hpercent
    | other _ _ h => rw [ih h]

theorem digitOf_eq : ∀ c : Fin 256, isXdigit (UInt8.ofFin c) = true →
    digitOf (UInt8.ofFin c) = (digitValue (UInt8.ofFin c)).toBitVec.setWidth 32 := by
  decide +kernel

theorem hexToChar_eq {a b : UInt8} (ha : isXdigit a = true) (hb : isXdigit b = true) :
    hexToChar a b = denoted a b := by
  have hda := digitOf_eq a.toFin ha
  have hdb := digitOf_eq b.toFin hb
  rw [UInt8.ofFin_toFin] at hda hdb
  rw [hexToChar, hda, hdb, toChar, denoted]
  apply UInt8.toBitVec_inj.mp
  simp [BitVec.setWidth_add, BitVec.setWidth_mul]

/-! ## One character -/

section

variable {c : UInt8} {iter : Bytes}

theorem decodeFrom_cons (c : UInt8) (iter : Bytes) :
    decodeFrom (c :: iter) =
      if c = ch '+' then (decodeFrom iter).map (ch ' ' :: ·)
      else if c = ch '%' then
        match escapeAhead (c :: iter) with
        | none => none
        | some true =>
          match iter with
          | first :: second :: iter => (decodeFrom iter).map (hexToChar first second :: ·)
          | _ => none
        | some false => (decodeFrom iter).map (ch '%' :: ·)
      else (decodeFrom iter).map (c :: ·) := by
  rw [decodeFrom.eq_def]
  rfl

theorem decodeFrom_plus (iter : Bytes) :
    decodeFrom (ch '+' :: iter) = (decodeFrom iter).map (ch ' ' :: ·) := by
  rw [decodeFrom_cons, if_pos rfl]

theorem decodeFrom_other (hplus : c ≠ ch '+') (hpercent : c ≠ ch '%') :
    decodeFrom (c :: iter) = (decodeFrom iter).map (c :: ·) := by
  rw [decodeFrom_cons, if_neg hplus, if_neg hpercent]

/-- The second of the two characters is not looked at if the first is no digit. -/
theorem escapeAhead_one (c a : UInt8) :
    escapeAhead [c, a] = if isXdigit a then none else some false := by
  cases ha : isXdigit a <;> simp [escapeAhead, ha]

theorem escapeAhead_two (c a b : UInt8) (iter : Bytes) :
    escapeAhead (c :: a :: b :: iter) = some (isXdigit a && isXdigit b) := by
  cases ha : isXdigit a <;> simp [escapeAhead, ha]

theorem decodeFrom_percent (h : escapeAhead (ch '%' :: iter) = some false) :
    decodeFrom (ch '%' :: iter) = (decodeFrom iter).map (ch '%' :: ·) := by
  rw [decodeFrom_cons, if_neg (by decide), if_pos rfl, h]

theorem decodeFrom_escape {a b : UInt8} (ha : isXdigit a = true) (hb : isXdigit b = true)
    (iter : Bytes) :
    decodeFrom (ch '%' :: a :: b :: iter) = (decodeFrom iter).map (denoted a b :: ·) := by
  rw [decodeFrom_cons, if_neg (by decide), if_pos rfl, escapeAhead_two, ha, hb, ← hexToChar_eq ha hb]
  rfl

end

/-! ## The round trip -/

/-- `0` to `9` and `A` to `F`. -/
def isUpperXdigit (c : UInt8) : Bool := isDigit c || (ch 'A' ≤ c && c ≤ ch 'F')

/-- The characters that stand for themselves, and the plus. -/
def isPlain (c : UInt8) : Bool := isAlnum c || c ∈ [ch '-', ch '_', ch '.', ch '~', ch '+']

/-- A text of plain characters and of escapes in upper case. -/
inductive Encoded : Bytes → Prop
  | nil : Encoded []
  | plain {c : UInt8} {s : Bytes} : isPlain c = true → Encoded s → Encoded (c :: s)
  | escape {a b : UInt8} {s : Bytes} : isUpperXdigit a = true → isUpperXdigit b = true → Encoded s →
      Encoded (ch '%' :: a :: b :: s)

theorem isXdigit_of_isUpperXdigit {c : UInt8} (h : isUpperXdigit c = true) : isXdigit c = true := by
  rw [isXdigit, ← isUpperXdigit, h, Bool.true_or]

/-- **The digits of a byte** denote it. -/
theorem digits_of_byte : ∀ c : Fin 256,
    isUpperXdigit (hexOfHalf (toChar ((toInt (UInt8.ofFin c) &&& 0xF0).sdiv 16))) = true ∧
      isUpperXdigit (hexOfHalf (toChar (toInt (UInt8.ofFin c) &&& 0x0F))) = true ∧
      denoted (hexOfHalf (toChar ((toInt (UInt8.ofFin c) &&& 0xF0).sdiv 16)))
        (hexOfHalf (toChar (toInt (UInt8.ofFin c) &&& 0x0F))) = UInt8.ofFin c := by
  decide +kernel

/-- What a character is made of. -/
theorem encodeOne_cases (c : UInt8) :
    (isPlain c = true ∧ c ≠ ch '+' ∧ c ≠ ch '%' ∧ encodeOne c = [c]) ∨
      (c = ch ' ' ∧ encodeOne c = [ch '+']) ∨
      ∃ a b, isUpperXdigit a = true ∧ isUpperXdigit b = true ∧ denoted a b = c ∧
        encodeOne c = [ch '%', a, b] := by
  rw [encodeOne]
  split
  · rename_i h
    obtain ⟨-, halnum⟩ := (Bool.and_eq_true _ _).mp h
    refine .inl ⟨by rw [isPlain, halnum, Bool.true_or], ?_, ?_, rfl⟩
    · rintro rfl
      exact absurd halnum (by decide)
    · rintro rfl
      exact absurd halnum (by decide)
  split
  · rename_i hspace
    exact .inr (.inl ⟨hspace, rfl⟩)
  split
  · rename_i hmark
    refine .inl ⟨?_, ?_, ?_, rfl⟩
    · have hmem : c ∈ [ch '-', ch '_', ch '.', ch '~', ch '+'] :=
        List.mem_append_left [ch '+'] hmark
      rw [isPlain, decide_eq_true hmem, Bool.or_true]
    · rintro rfl
      exact absurd hmark (by decide)
    · rintro rfl
      exact absurd hmark (by decide)
  · obtain ⟨ha, hb, hdenoted⟩ := digits_of_byte c.toFin
    exact .inr (.inr ⟨_, _, ha, hb, hdenoted, rfl⟩)

theorem urlEncode_cons (c : UInt8) (s : Bytes) : urlEncode (c :: s) = encodeOne c ++ urlEncode s :=
  List.flatMap_cons

theorem encoded_urlEncode (s : Bytes) : Encoded (urlEncode s) := by
  induction s with
  | nil => exact .nil
  | cons c s ih =>
    rw [urlEncode_cons]
    obtain ⟨hplain, -, -, hone⟩ | ⟨-, hone⟩ | ⟨a, b, ha, hb, -, hone⟩ := encodeOne_cases c
    · rw [hone]
      exact .plain hplain ih
    · rw [hone]
      exact .plain (by decide) ih
    · rw [hone]
      exact .escape ha hb ih

theorem urlDecode_urlEncode (s : Bytes) : urlDecode (urlEncode s) = some s := by
  rw [urlDecode]
  induction s with
  | nil => rfl
  | cons c s ih =>
    rw [urlEncode_cons]
    obtain ⟨-, hplus, hpercent, hone⟩ | ⟨rfl, hone⟩ | ⟨a, b, ha, hb, hdenoted, hone⟩ :=
      encodeOne_cases c
    · rw [hone, List.singleton_append, decodeFrom_other hplus hpercent, ih]
      rfl
    · rw [hone, List.singleton_append, decodeFrom_plus, ih]
      rfl
    · rw [hone, List.cons_append, List.cons_append, List.singleton_append,
        decodeFrom_escape (isXdigit_of_isUpperXdigit ha) (isXdigit_of_isUpperXdigit hb), ih, hdenoted]
      rfl

/-- **URL coding** loses nothing, and what is encoded has only the characters of URLs. -/
theorem url_roundTrip (s : Bytes) : urlDecode (urlEncode s) = some s ∧ Encoded (urlEncode s) :=
  ⟨urlDecode_urlEncode s, encoded_urlEncode s⟩

/-! ## Malformed escapes -/

/-- The text ends in a percent and one hex digit. -/
def Truncated (s : Bytes) : Prop := ∃ r d, s = r ++ [ch '%', d] ∧ isXdigit d = true

theorem not_truncated_nil : ¬ Truncated [] := by
  rintro ⟨r, d, h, -⟩
  exact absurd h.symm (List.append_ne_nil_of_right_ne_nil r (List.cons_ne_nil _ _))

theorem truncated_cons_iff {c : UInt8} {s : Bytes} :
    Truncated (c :: s) ↔ (c = ch '%' ∧ ∃ d, s = [d] ∧ isXdigit d = true) ∨ Truncated s := by
  constructor
  · rintro ⟨r, d, h, hd⟩
    cases r with
    | nil =>
      cases h
      exact .inl ⟨rfl, d, rfl, hd⟩
    | cons x r =>
      cases h
      exact .inr ⟨r, d, rfl, hd⟩
  · rintro (⟨rfl, d, rfl, hd⟩ | ⟨r, d, rfl, hd⟩)
    · exact ⟨[], d, rfl, hd⟩
    · exact ⟨c :: r, d, rfl, hd⟩

theorem truncated_cons_of_ne {c : UInt8} {s : Bytes} (h : c ≠ ch '%') :
    Truncated (c :: s) ↔ Truncated s := by
  rw [truncated_cons_iff]
  exact or_iff_right fun hc => h hc.1

theorem ne_percent_of_isXdigit {c : UInt8} (h : isXdigit c = true) : c ≠ ch '%' := by
  rintro rfl
  exact absurd h (by decide)

/-- The text is decoded, unless it is truncated. -/
def Decodes (s : Bytes) : Prop :=
  (Truncated s ∧ decodeFrom s = none) ∨ (¬ Truncated s ∧ ∃ t, decodeFrom s = some t ∧ Decoded s t)

/-- One character is decoded, or one escape. -/
theorem Decodes.step {s r : Bytes} {c : UInt8} (h : Decodes r) (htruncated : Truncated s ↔ Truncated r)
    (hstep : decodeFrom s = (decodeFrom r).map (c :: ·))
    (hdecoded : ∀ t, Decoded r t → Decoded s (c :: t)) : Decodes s := by
  obtain ⟨ht, hnone⟩ | ⟨ht, t, hsome, hd⟩ := h
  · refine .inl ⟨htruncated.mpr ht, ?_⟩
    rw [hstep, hnone]
    rfl
  · refine .inr ⟨htruncated.not.mpr ht, c :: t, ?_, hdecoded t hd⟩
    rw [hstep, hsome]
    rfl

/-- By one character at a time, or three. -/
theorem decodes : ∀ s : Bytes, Decodes s
  | [] => .inr ⟨not_truncated_nil, [], rfl, .nil⟩
  | c :: iter => by
    by_cases hplus : c = ch '+'
    · subst hplus
      exact (decodes iter).step (truncated_cons_of_ne (by decide)) (decodeFrom_plus iter) fun _ => .plus
    by_cases hpercent : c = ch '%'
    swap
    · exact (decodes iter).step (truncated_cons_of_ne hpercent) (decodeFrom_other hplus hpercent)
        fun _ => .other hplus hpercent
    subst hpercent
    match iter with
    | [] =>
      refine .inr ⟨?_, [ch '%'], rfl, .percent (fun a b r h => by cases h) .nil⟩
      rw [truncated_cons_iff]
      rintro (⟨-, d, h, -⟩ | h)
      · cases h
      · exact not_truncated_nil h
    | [a] =>
      cases ha : isXdigit a with
      | true =>
        refine .inl ⟨⟨[], a, rfl, ha⟩, ?_⟩
        rw [decodeFrom_cons, if_neg (by decide), if_pos rfl, escapeAhead_one, ha]
        rfl
      | false =>
        have hahead : escapeAhead [ch '%', a] = some false := by
          rw [escapeAhead_one, ha]
          rfl
        refine (decodes [a]).step ?_ (decodeFrom_percent hahead)
          fun _ => .percent fun a b r h => by cases h
        rw [truncated_cons_iff]
        refine or_iff_right ?_
        rintro ⟨-, d, h, hd⟩
        cases h
        exact Bool.false_ne_true (ha.symm.trans hd)
    | a :: b :: iter =>
      by_cases hab : isXdigit a = true ∧ isXdigit b = true
      · obtain ⟨ha, hb⟩ := hab
        refine (decodes iter).step ?_ (decodeFrom_escape ha hb iter) fun _ => .escape ha hb
        rw [truncated_cons_iff, truncated_cons_of_ne (ne_percent_of_isXdigit ha),
          truncated_cons_of_ne (ne_percent_of_isXdigit hb)]
        refine or_iff_right ?_
        rintro ⟨-, d, h, -⟩
        cases h
      · have hahead : escapeAhead (ch '%' :: a :: b :: iter) = some false := by
          have hno : (isXdigit a && isXdigit b) = false :=
            Bool.eq_false_iff.mpr fun h => hab ((Bool.and_eq_true _ _).mp h)
          rw [escapeAhead_two, hno]
        refine (decodes (a :: b :: iter)).step ?_ (decodeFrom_percent hahead) fun _ => .percent ?_
        · rw [truncated_cons_iff]
          refine or_iff_right ?_
          rintro ⟨-, d, h, -⟩
          cases h
        · intro a' b' r h
          cases h
          exact hab
termination_by s => s.length

/-- **Malformed escapes.** The end is not looked at, and the result is what the text is decoded to,
exactly if the text does not end in a percent and one hex digit. -/
theorem urlDecode_iff (s : Bytes) :
    (∃ t, urlDecode s = some t ∧ ∀ u, Decoded s u ↔ u = t) ↔ ¬ Truncated s := by
  rw [urlDecode]
  constructor
  · rintro ⟨t, ht, -⟩ htruncated
    obtain ⟨-, hnone⟩ | ⟨hno, -⟩ := decodes s
    · rw [hnone] at ht
      cases ht
    · exact hno htruncated
  · intro hno
    obtain ⟨htruncated, -⟩ | ⟨-, t, ht, hdecoded⟩ := decodes s
    · exact absurd htruncated hno
    · refine ⟨t, ht, fun u => ⟨hdecoded.unique, ?_⟩⟩
      rintro rfl
      exact hdecoded

/-- A percent and one digit. -/
theorem not_decoded : ¬ ∀ s : Bytes, ∃ t, urlDecode s = some t ∧ ∀ u, Decoded s u ↔ u = t := by
  intro hall
  obtain ⟨t, ht, -⟩ := hall [ch '%', ch 'A']
  have hnone : urlDecode [ch '%', ch 'A'] = none := by decide
  rw [hnone] at ht
  cases ht

end Primitives.Http
