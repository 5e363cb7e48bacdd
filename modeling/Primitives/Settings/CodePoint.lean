import Primitives.Settings.Quoted
import Mathlib.Tactic.NormNum

/-!
# Code points in quotes

An escape `\u` with 4 hexadecimal digits, or `\U` with 8, stands for a code point, and its UTF-8 is
to be added to the string. The lexers of paths and of settings files have the same two rules for it.
The digits are read into an `int`, so that a code from 2^31 on is negative, and `cp2utf8` takes
whatever is negative for a character of one byte. That byte is the lowest one of the code, and no
UTF-8 where it is 128 or more. Every other code is treated well (`codePoint_utf8_iff`).
-/

set_option autoImplicit false

namespace Primitives.SettingPath

open Lib RegularExpression

/-- The number that hexadecimal digits write. -/
def hexNumber (ds : Bytes) : Nat := ds.foldl (fun n d => n * 16 + xdigitValue d) 0

/-- The text of an escape, which one of the two rules matches. -/
def IsCodePoint (r : Rule) (w : Bytes) : Prop :=
  (r = .codePoint4 ∨ r = .codePoint8) ∧ w ∈ r.regex.matches'

/-- The code of an escape: the number behind its letter. -/
def codeOf (w : Bytes) : Nat := hexNumber (w.drop 2)

/-- Well-formed UTF-8. -/
def WellFormed (x : Bytes) : Prop := x.toByteArray.IsValidUTF8

/-- What is to be added for a code: its UTF-8 if it is a scalar value other than 0, and nothing
ill-formed in any case. -/
structure Utf8For (n : Nat) (x : Bytes) : Prop where
  scalar : n.isValidChar → n ≠ 0 → x = String.utf8EncodeChar (Char.ofNat n)
  otherwise : ¬ (n.isValidChar ∧ n ≠ 0) → WellFormed x

/-- The code is taken for a byte that is no character. -/
def TakenForByte (n : Nat) : Prop := 2 ^ 31 ≤ n ∧ 128 ≤ n % 256

/-! ## The code as an `int` -/

theorem xdigitValue_lt {c : UInt8} (h : isXDigit c = true) : xdigitValue c < 16 := by
  have hall : ∀ n < 256, isXDigit (UInt8.ofNat n) = true → xdigitValue (UInt8.ofNat n) < 16 := by
    decide +kernel
  exact forall_byte (p := fun c => isXDigit c = true → xdigitValue c < 16) hall c h

theorem hexNumber_lt {ds : Bytes} (h : ∀ d ∈ ds, isXDigit d = true) :
    hexNumber ds < 16 ^ ds.length := by
  induction ds using List.reverseRecOn with
  | nil => simp [hexNumber]
  | append_singleton ds d ih =>
    have hds : hexNumber ds < 16 ^ ds.length := ih fun e he => h e (List.mem_append_left _ he)
    have hd : xdigitValue d < 16 := xdigitValue_lt (h d (by simp))
    have happend : hexNumber (ds ++ [d]) = hexNumber ds * 16 + xdigitValue d := by
      simp [hexNumber]
    rw [happend, List.length_append, List.length_singleton, pow_succ]
    omega

theorem codeOf_lt {r : Rule} {w : Bytes} (h : IsCodePoint r w) : codeOf w < 2 ^ 32 := by
  have hdigits : ∃ ds, (ds.length = 4 ∨ ds.length = 8) ∧ (∀ d ∈ ds, isXDigit d = true) ∧
      w.drop 2 = ds := by
    obtain ⟨rfl | rfl, hw⟩ := h
    · obtain ⟨ds, hlen, hds, rfl⟩ := mem_codePoint.mp hw
      exact ⟨ds, .inl hlen, hds, rfl⟩
    · obtain ⟨ds, hlen, hds, rfl⟩ := mem_codePoint.mp hw
      exact ⟨ds, .inr hlen, hds, rfl⟩
  obtain ⟨ds, hlen, hds, hdrop⟩ := hdigits
  have hlt := hexNumber_lt hds
  rw [codeOf, hdrop]
  rcases hlen with hlen | hlen
  · rw [hlen] at hlt
    omega
  · rw [hlen] at hlt
    omega

theorem scanHex_of_lt {ds : Bytes} (h : hexNumber ds < 2 ^ 31) : scanHex ds = hexNumber ds := by
  change ((hexNumber ds : Nat) : Int).bmod 4294967296 = hexNumber ds
  rw [Int.bmod_def]
  split <;> omega

theorem scanHex_of_ge {ds : Bytes} (h : 2 ^ 31 ≤ hexNumber ds) (hlt : hexNumber ds < 2 ^ 32) :
    scanHex ds = hexNumber ds - 4294967296 := by
  change ((hexNumber ds : Nat) : Int).bmod 4294967296 = hexNumber ds - 4294967296
  rw [Int.bmod_def]
  split <;> omega

/-! ## What is added -/

theorem ofNat_ne_zero {n : Nat} (h : 0 < n) (hlt : n < 256) : UInt8.ofNat n ≠ 0 := by
  intro heq
  have := congrArg UInt8.toNat heq
  rw [UInt8.toNat_ofNat', Nat.mod_eq_of_lt hlt] at this
  exact h.ne' this

/-- Bytes none of which is 0 are all added. -/
theorem takeWhile_ne_zero {l : List Nat} (h : ∀ n ∈ l, 0 < n ∧ n < 256) :
    (l.map UInt8.ofNat).takeWhile (· ≠ 0) = l.map UInt8.ofNat := by
  refine List.takeWhile_eq_self_iff.mpr fun c hc => ?_
  obtain ⟨n, hn, rfl⟩ := List.mem_map.mp hc
  exact decide_eq_true (ofNat_ne_zero (h n hn).1 (h n hn).2)

/-- **A scalar value** gives its UTF-8. -/
theorem cp2utf8_scalar {n : Nat} (h : n.isValidChar) (h0 : n ≠ 0) :
    cp2utf8 n = String.utf8EncodeChar (Char.ofNat n) := by
  have hval : (Char.ofNat n).val.toNat = n := by
    rw [Char.ofNat, dif_pos h]
    rfl
  have hsix : n >>> 6 = n / 64 := Nat.shiftRight_eq_div_pow n 6
  have htwelve : n >>> 12 = n / 4096 := Nat.shiftRight_eq_div_pow n 12
  have height : n >>> 18 = n / 262144 := Nat.shiftRight_eq_div_pow n 18
  have hand (k : Nat) : k &&& 63 = k % 64 := Nat.and_two_pow_sub_one_eq_mod k 6
  have hvalid : n < 0xd800 ∨ 0xdfff < n ∧ n < 0x110000 := h
  rw [String.utf8EncodeChar]
  simp only [hval, cp2utf8, Int.toNat_natCast, hsix, htwelve, height, hand]
  by_cases h1 : n ≤ 0x7f
  · have hone : ((n : Int) % 256).toNat = n := by omega
    rw [if_pos (by omega), if_pos h1, hone]
    exact takeWhile_ne_zero (l := [n]) (by simp; omega)
  · by_cases h2 : n ≤ 0x7ff
    · have hlead : n / 64 % 32 = n / 64 := Nat.mod_eq_of_lt (by omega)
      rw [if_neg (by omega), if_pos (by omega), if_neg h1, if_pos h2, hlead]
      refine takeWhile_ne_zero (l := [n / 64 + 192, n % 64 + 128]) ?_
      simp
      omega
    · by_cases h3 : n ≤ 0xffff
      · have hlead : n / 4096 % 16 = n / 4096 := Nat.mod_eq_of_lt (by omega)
        rw [if_neg (by omega), if_neg (by omega), if_neg (by omega), if_pos (by omega), if_neg h1,
          if_neg h2, if_pos h3, hlead]
        refine takeWhile_ne_zero (l := [n / 4096 + 224, n / 64 % 64 + 128, n % 64 + 128]) ?_
        simp
        omega
      · have hlead : n / 262144 % 8 = n / 262144 := Nat.mod_eq_of_lt (by omega)
        rw [if_neg (by omega), if_neg (by omega), if_neg (by omega), if_neg (by omega),
          if_pos (by omega), if_neg h1, if_neg h2, if_neg h3, hlead]
        refine takeWhile_ne_zero
          (l := [n / 262144 + 240, n / 4096 % 64 + 128, n / 64 % 64 + 128, n % 64 + 128]) ?_
        simp
        omega

/-- Surrogates, what is above the last code point, and 0 add nothing. -/
theorem cp2utf8_no_scalar {n : Nat} (h : ¬ (n.isValidChar ∧ n ≠ 0)) : cp2utf8 n = [] := by
  by_cases h0 : n = 0
  · subst h0
    rfl
  · have hinvalid : ¬ (n < 0xd800 ∨ 0xdfff < n ∧ n < 0x110000) := fun hv => h ⟨hv, h0⟩
    simp only [cp2utf8]
    rw [if_neg (by omega), if_neg (by omega)]
    by_cases hsurrogate : (0xd800 : Int) ≤ n ∧ (n : Int) ≤ 0xdfff
    · rw [if_pos hsurrogate]
      rfl
    · rw [if_neg hsurrogate, if_neg (by omega), if_neg (by omega)]
      rfl

/-- A negative code adds its lowest byte, unless this is 0. -/
theorem cp2utf8_negative {n : Nat} (h : 2 ^ 31 ≤ n) (hlt : n < 2 ^ 32) :
    cp2utf8 (n - 4294967296 : Int) = if n % 256 = 0 then [] else [UInt8.ofNat (n % 256)] := by
  have hbyte : (((n : Int) - 4294967296) % 256).toNat = n % 256 := by omega
  simp only [cp2utf8]
  rw [if_pos (by omega), hbyte]
  split
  · rename_i hzero
    rw [hzero]
    rfl
  · rename_i hne
    exact takeWhile_ne_zero (l := [n % 256]) (by simp; omega)

/-! ## Well-formed bytes -/

theorem wellFormed_iff {x : Bytes} :
    WellFormed x ↔ ∃ cs : List Char, x = cs.flatMap String.utf8EncodeChar := by
  constructor
  · rintro ⟨cs, h⟩
    refine ⟨cs, ?_⟩
    have hlist := congrArg (fun b => b.data.toList) h
    simpa [List.utf8Encode] using hlist
  · rintro ⟨cs, rfl⟩
    exact ⟨cs, rfl⟩

theorem wellFormed_nil : WellFormed [] := wellFormed_iff.mpr ⟨[], rfl⟩

theorem wellFormed_char (c : Char) : WellFormed (String.utf8EncodeChar c) :=
  Char.isValidUTF8_toByteArray_utf8EncodeChar

theorem WellFormed.append {x y : Bytes} (hx : WellFormed x) (hy : WellFormed y) :
    WellFormed (x ++ y) := by
  obtain ⟨cs, rfl⟩ := wellFormed_iff.mp hx
  obtain ⟨ds, rfl⟩ := wellFormed_iff.mp hy
  exact wellFormed_iff.mpr ⟨cs ++ ds, List.flatMap_append.symm⟩

/-- One byte is well-formed exactly where it is a character of ASCII. -/
theorem wellFormed_singleton {n : Nat} (hn : n < 256) : WellFormed [UInt8.ofNat n] ↔ n < 128 := by
  rw [wellFormed_iff]
  constructor
  · rintro ⟨cs, h⟩
    cases cs with
    | nil => cases h
    | cons c cs =>
      rw [List.flatMap_cons, String.utf8EncodeChar] at h
      split at h
      · rename_i hle
        have hbyte := congrArg UInt8.toNat (List.cons.inj h).1
        rw [UInt8.toNat_ofNat', UInt8.toNat_ofNat', Nat.mod_eq_of_lt hn,
          Nat.mod_eq_of_lt (by omega)] at hbyte
        omega
      · repeat' split at h
        all_goals simp at h
  · intro hlt
    refine ⟨[Char.ofNat n], ?_⟩
    have hval : (Char.ofNat n).val.toNat = n := by
      rw [Char.ofNat, dif_pos (.inl (by omega))]
      rfl
    rw [List.flatMap_cons, List.flatMap_nil, List.append_nil, String.utf8EncodeChar]
    simp only [hval]
    rw [if_pos (by omega)]

/-! ## The escapes -/

/-- **What an escape adds** is right exactly where its code is not taken for a byte. -/
theorem cp2utf8_utf8For {ds : Bytes} (hlt : hexNumber ds < 2 ^ 32) :
    Utf8For (hexNumber ds) (cp2utf8 (scanHex ds)) ↔ ¬ TakenForByte (hexNumber ds) := by
  generalize hn : hexNumber ds = n at hlt ⊢
  by_cases hge : 2 ^ 31 ≤ n
  · have hinvalid : ¬ (n.isValidChar ∧ n ≠ 0) := by
      rintro ⟨hvalid, -⟩
      have hvalid : n < 0xd800 ∨ 0xdfff < n ∧ n < 0x110000 := hvalid
      omega
    rw [scanHex_of_ge (hn ▸ hge) (hn ▸ hlt), hn, cp2utf8_negative hge hlt]
    have hwell : WellFormed (if n % 256 = 0 then [] else [UInt8.ofNat (n % 256)]) ↔
        n % 256 < 128 := by
      split
      · exact iff_of_true wellFormed_nil (by omega)
      · exact wellFormed_singleton (Nat.mod_lt _ (by decide))
    constructor
    · intro h htaken
      have := hwell.mp (h.otherwise hinvalid)
      exact absurd htaken.2 (by omega)
    · intro hno
      refine ⟨fun hvalid h0 => absurd ⟨hvalid, h0⟩ hinvalid, fun _ => hwell.mpr ?_⟩
      by_contra hlow
      exact hno ⟨hge, by omega⟩
  · refine iff_of_true ?_ fun htaken => hge htaken.1
    rw [scanHex_of_lt (by omega), hn]
    constructor
    · exact fun hvalid h0 => cp2utf8_scalar hvalid h0
    · intro hno
      rw [cp2utf8_no_scalar hno]
      exact wellFormed_nil

theorem utf8For_wellFormed {n : Nat} {x : Bytes} (h : Utf8For n x) : WellFormed x := by
  by_cases hscalar : n.isValidChar ∧ n ≠ 0
  · rw [h.scalar hscalar.1 hscalar.2]
    exact wellFormed_char _
  · exact h.otherwise hscalar

theorem action_codePoint {r : Rule} {w : Bytes} (h : IsCodePoint r w) (st : LexState) :
    r.action w st = (none, { st with str := st.str ++ cp2utf8 (scanHex (w.drop 2)) }) := by
  obtain ⟨rfl | rfl, -⟩ := h
  · rfl
  · rfl

/-- **Escapes of code points.** An escape adds the UTF-8 of its code point, or nothing ill-formed
where there is none, exactly where its code is not from 2^31 on with a lowest byte of 128 or more.
Where all escapes of a string are so, the bytes that come of them are well-formed. -/
theorem codePoint_utf8_iff (r : Rule) (w : Bytes) (st : LexState) (h : IsCodePoint r w) :
    ((∃ x, r.action w st = (none, { st with str := st.str ++ x }) ∧ Utf8For (codeOf w) x) ↔
      ¬ TakenForByte (codeOf w)) ∧
    ∀ ws : List Bytes, (∀ w ∈ ws, ∃ r, IsCodePoint r w ∧ ¬ TakenForByte (codeOf w)) →
      WellFormed (ws.flatMap fun w => cp2utf8 (scanHex (w.drop 2))) := by
  have hone : ∀ {r : Rule} {w : Bytes}, IsCodePoint r w →
      (Utf8For (codeOf w) (cp2utf8 (scanHex (w.drop 2))) ↔ ¬ TakenForByte (codeOf w)) :=
    fun h => cp2utf8_utf8For (codeOf_lt h)
  constructor
  · rw [← hone h, action_codePoint h]
    constructor
    · rintro ⟨x, hx, hutf8⟩
      obtain rfl : cp2utf8 (scanHex (w.drop 2)) = x := by
        simpa using hx
      exact hutf8
    · exact fun hutf8 => ⟨_, rfl, hutf8⟩
  · intro ws h
    induction ws with
    | nil => exact wellFormed_nil
    | cons w ws ih =>
      obtain ⟨r, hr, hcode⟩ := h w List.mem_cons_self
      rw [List.flatMap_cons]
      exact (utf8For_wellFormed ((hone hr).mpr hcode)).append
        (ih fun w' hw' => h w' (List.mem_cons_of_mem w hw'))

/-- `\u00e9` in quotes. -/
def eAcute : Bytes := "\\u00e9".toList.map byte

theorem isCodePoint_eAcute : IsCodePoint .codePoint4 eAcute :=
  ⟨.inl rfl, mem_codePoint.mpr
    ⟨"00e9".toList.map byte, rfl, List.all_eq_true.mp (by decide), by decide⟩⟩

/-- `\u00e9` adds the two bytes of é. -/
theorem codePoint_utf8_eAcute :
    (∃ x, Rule.codePoint4.action eAcute ⟨.basic, []⟩ = (none, ⟨.basic, x⟩) ∧
      Utf8For (codeOf eAcute) x) ∧
    WellFormed ([eAcute, eAcute].flatMap fun w => cp2utf8 (scanHex (w.drop 2))) := by
  have hcode : ¬ TakenForByte (codeOf eAcute) := by
    intro h
    exact absurd h.1 (by decide)
  have h := codePoint_utf8_iff .codePoint4 eAcute ⟨.basic, []⟩ isCodePoint_eAcute
  refine ⟨h.1.mpr hcode, h.2 [eAcute, eAcute] fun w hw => ?_⟩
  obtain rfl : w = eAcute := by simpa using hw
  exact ⟨_, isCodePoint_eAcute, hcode⟩

/-- `\U80000080` in quotes. -/
def negative : Bytes := "\\U80000080".toList.map byte

/-- `\U80000080` adds the byte 128. -/
theorem codePoint_not_utf8 :
    ∃ (r : Rule) (w : Bytes) (st : LexState), IsCodePoint r w ∧
      ¬ ∃ x, r.action w st = (none, { st with str := st.str ++ x }) ∧ Utf8For (codeOf w) x := by
  have hcode : IsCodePoint .codePoint8 negative :=
    ⟨.inr rfl, mem_codePoint.mpr
      ⟨"80000080".toList.map byte, rfl, List.all_eq_true.mp (by decide), by decide⟩⟩
  refine ⟨.codePoint8, negative, ⟨.basic, []⟩, hcode, ?_⟩
  rintro ⟨x, hx, hutf8⟩
  rw [action_codePoint hcode] at hx
  obtain rfl : cp2utf8 (scanHex (negative.drop 2)) = x := by
    simpa using hx
  exact (cp2utf8_utf8For (codeOf_lt hcode)).mp hutf8 ⟨by decide, by decide⟩

end Primitives.SettingPath
