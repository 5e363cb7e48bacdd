import Primitives.Hash.Strong

/-!
# Bytes in hex

`bytes` is made of a string by two characters for a byte. The value of a character is a difference, from
`a` for those behind `9` and from `0` for the others, and only an odd length is refused. So the bytes of
a string with other characters than lower case digits are of another string (`bytes_iff`).
-/

set_option autoImplicit false

namespace Primitives.Hash

/-! ## The code -/

inductive BytesError where
  /-- `SW_RUNTIME_ERROR("bad bytes string")` -/
  | badBytesString
  /-- The index, an `int`, goes over its maximum: undefined behaviour. -/
  | overflow
deriving DecidableEq, Repr

/-- A `char` as an `int`. It is signed. -/
def toInt (c : Char) : BitVec 32 := (BitVec.ofNat 8 c.toNat).signExtend 32

/-- `get_num` -/
def getNum (v : Char) : BitVec 32 :=
  if (toInt '9').slt (toInt v) then toInt v - toInt 'a' + 10 else toInt v - toInt '0'

/-- `std::byte(hi | lo)` -/
def byteOf (c d : Char) : UInt8 :=
  let hi := getNum c <<< 4
  let lo := getNum d <<< 0
  UInt8.ofBitVec ((hi ||| lo).setWidth 8)

/-- The loop, from the index `i`, for what stands there. No single character is left, as the size is
even. -/
def decodeFrom : Nat → Str → Except BytesError (List UInt8)
  | i, c :: d :: v =>
    if intMax < i + 2 then .error .overflow
    else (decodeFrom (i + 2) v).map (byteOf c d :: ·)
  | _, _ => .ok []

/-- `bytes(const std::string &)` -/
def bytesOfString (v : Str) : Except BytesError (List UInt8) :=
  if v.length % 2 ≠ 0 then .error .badBytesString else decodeFrom 0 v

/-! ## Bytes -/

theorem decodeFrom_cons {i : Nat} (h : i + 2 ≤ intMax) (c d : Char) (v : Str) :
    decodeFrom i (c :: d :: v) = (decodeFrom (i + 2) v).map (byteOf c d :: ·) := by
  rw [decodeFrom, if_neg (Nat.not_lt.mpr h)]

/-- **A byte** is read back from its digits. -/
theorem byteOf_digits : ∀ b : Fin 256,
    byteOf (alnum.getD ((UInt8.ofFin b &&& 0xF0) >>> (4 : UInt8)).toNat '0')
      (alnum.getD (UInt8.ofFin b &&& 0x0F).toNat '0') = UInt8.ofFin b := by
  decide +kernel

theorem length_bytesToString (b : List UInt8) : (bytesToString b).length = 2 * b.length := by
  induction b with
  | nil => rfl
  | cons x b ih =>
    rw [bytesToString, List.flatMap_cons, List.length_append, ← bytesToString, ih,
      List.length_cons (a := x), Nat.mul_succ, Nat.add_comm]
    rfl

theorem decodeFrom_bytesToString {b : List UInt8} {i : Nat} (h : i + 2 * b.length ≤ intMax) :
    decodeFrom i (bytesToString b) = .ok b := by
  induction b generalizing i with
  | nil => rfl
  | cons x b ih =>
    rw [List.length_cons, Nat.mul_succ] at h
    have hbyte := byteOf_digits x.toFin
    rw [UInt8.ofFin_toFin] at hbyte
    rw [bytesToString, List.flatMap_cons, ← bytesToString, List.cons_append, List.singleton_append,
      decodeFrom_cons (by omega), ih (by omega), hbyte]
    rfl

/-! ## Strings -/

/-- The digits that a byte is written with. -/
def hexDigits : Str := alnum.take 16

theorem mem_hexDigits_iff {c : Char} : c ∈ hexDigits ↔ ∃ i : Fin 16, alnum.getD i '0' = c := by
  have hget : ∀ i : Fin 16, hexDigits[i.val]? = some (alnum.getD i '0') := by
    intro i
    have hlt : i.val < alnum.length := i.isLt.trans (by decide)
    rw [hexDigits, List.getElem?_take_of_lt i.isLt, List.getD_eq_getElem _ _ hlt,
      List.getElem?_eq_getElem hlt]
  rw [List.mem_iff_getElem?]
  constructor
  · rintro ⟨i, hi⟩
    obtain ⟨hlt, -⟩ := List.getElem?_eq_some_iff.mp hi
    refine ⟨⟨i, hlt⟩, ?_⟩
    rw [hget ⟨i, hlt⟩] at hi
    exact Option.some.inj hi
  · rintro ⟨i, rfl⟩
    exact ⟨i, hget i⟩

/-- **Two digits** are the digits of their byte. -/
theorem bytesToString_byteOf : ∀ i j : Fin 16,
    bytesToString [byteOf (alnum.getD i '0') (alnum.getD j '0')] =
      [alnum.getD i '0', alnum.getD j '0'] := by
  decide +kernel

/-- Nothing is refused but an odd length. -/
theorem exists_decodeFrom : ∀ (v : Str) (i : Nat), i + v.length ≤ intMax → ∃ b, decodeFrom i v = .ok b
  | [], _, _ => ⟨[], rfl⟩
  | [_], _, _ => ⟨[], rfl⟩
  | c :: d :: v, i, hlen => by
    rw [List.length_cons, List.length_cons] at hlen
    obtain ⟨b, hb⟩ := exists_decodeFrom v (i + 2) (by omega)
    refine ⟨byteOf c d :: b, ?_⟩
    rw [decodeFrom_cons (by omega), hb]
    rfl

/-- A string of digits is that of its bytes. -/
theorem decodeFrom_digits : ∀ (v : Str) (i : Nat), v.length % 2 = 0 → i + v.length ≤ intMax →
    (∀ c ∈ v, c ∈ hexDigits) → ∃ b, decodeFrom i v = .ok b ∧ bytesToString b = v
  | [], _, _, _, _ => ⟨[], rfl, rfl⟩
  | [_], _, heven, _, _ => absurd heven Nat.one_ne_zero
  | c :: d :: v, i, heven, hlen, hdigits => by
    rw [List.length_cons, List.length_cons] at heven hlen
    obtain ⟨hc, hrest⟩ := List.forall_mem_cons.mp hdigits
    obtain ⟨hd, hv⟩ := List.forall_mem_cons.mp hrest
    obtain ⟨j, rfl⟩ := mem_hexDigits_iff.mp hc
    obtain ⟨k, rfl⟩ := mem_hexDigits_iff.mp hd
    obtain ⟨b, hb, htext⟩ := decodeFrom_digits v (i + 2) (by omega) (by omega) hv
    refine ⟨byteOf (alnum.getD j '0') (alnum.getD k '0') :: b, ?_, ?_⟩
    · rw [decodeFrom_cons (by omega), hb]
      rfl
    · have hbyte := bytesToString_byteOf j k
      rw [bytesToString, List.flatMap_singleton] at hbyte
      rw [bytesToString, List.flatMap_cons, hbyte, ← bytesToString, htext]
      rfl

/-- A string of bytes has nothing but digits. -/
theorem mem_hexDigits_of_mem {b : List UInt8} {c : Char} (h : c ∈ bytesToString b) : c ∈ hexDigits := by
  by_contra hno
  exact notMem_bytesToString (fun i hi heq => hno (mem_hexDigits_iff.mpr ⟨⟨i, hi⟩, heq⟩)) b h

/-- The string is refused, or is that of its bytes. -/
def RoundTrips (s : Str) : Prop :=
  bytesOfString s = .error .badBytesString ∨
    ∃ b, bytesOfString s = .ok b ∧ bytesToString b = s

/-- **Bytes and strings.** The bytes of the string of bytes are these bytes. A string that is not refused
is that of its bytes exactly if it has nothing but lower case digits. -/
theorem bytes_iff {b : List UInt8} {s : Str} (hb : b.length < 2 ^ 30) (hs : s.length < 2 ^ 31) :
    bytesOfString (bytesToString b) = .ok b ∧
      (RoundTrips s ↔ s.length % 2 = 1 ∨ ∀ c ∈ s, c ∈ hexDigits) := by
  have hmax : intMax = 2 ^ 31 - 1 := rfl
  constructor
  · have heven : (bytesToString b).length % 2 = 0 := by
      rw [length_bytesToString, Nat.mul_mod_right]
    rw [bytesOfString, if_neg (not_not.mpr heven)]
    exact decodeFrom_bytesToString (by omega)
  · rcases Nat.mod_two_eq_zero_or_one s.length with heven | hodd
    · have hok : bytesOfString s = decodeFrom 0 s := if_neg (not_not.mpr heven)
      have hno : ¬ s.length % 2 = 1 := by omega
      obtain ⟨b', hb'⟩ := exists_decodeFrom s 0 (by omega)
      rw [RoundTrips, hok, or_iff_right hno, hb']
      constructor
      · rintro (herr | ⟨b, hb, rfl⟩)
        · cases herr
        · exact fun c hc => mem_hexDigits_of_mem hc
      · intro hdigits
        obtain ⟨b, hb, htext⟩ := decodeFrom_digits s 0 heven (by omega) hdigits
        exact .inr ⟨b, hb'.symm.trans hb, htext⟩
    · refine iff_of_true (.inl ?_) (.inl hodd)
      rw [bytesOfString, if_pos (by omega)]

/-- A byte, and its string. -/
theorem bytes_iff_one : bytesOfString (bytesToString [0x1F]) = .ok [0x1F] ∧ RoundTrips ['1', 'f'] := by
  obtain ⟨hbytes, hstring⟩ := bytes_iff (b := [0x1F]) (s := ['1', 'f']) (by decide) (by decide)
  refine ⟨hbytes, hstring.mpr (.inr ?_)⟩
  intro c hc
  rcases List.mem_cons.mp hc with rfl | hc
  · exact mem_hexDigits_iff.mpr ⟨1, rfl⟩
  · exact mem_hexDigits_iff.mpr ⟨15, (List.mem_singleton.mp hc).symm⟩

/-- An upper case digit is taken for another one. -/
theorem not_roundTrips : ¬ ∀ (b : List UInt8) (s : Str), b.length < 2 ^ 30 → s.length < 2 ^ 31 →
    bytesOfString (bytesToString b) = .ok b ∧ RoundTrips s := by
  intro hall
  have hbytes : bytesOfString ['0', 'A'] = .ok [0xEA] := by decide
  rcases (hall [] ['0', 'A'] (by decide) (by decide)).2 with herr | ⟨b, hb, htext⟩
  · rw [hbytes] at herr
    cases herr
  · rw [hbytes] at hb
    cases hb
    exact absurd htext (by decide)

end Primitives.Hash
