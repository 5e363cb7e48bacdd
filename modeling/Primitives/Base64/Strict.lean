import Primitives.Base64.RoundTrip

/-!
# Base 64 — what decoding refuses

Only the length of a text is checked before it is decoded (`decode_strict_iff`). A text of whole
blocks is an encoding if its characters are of the alphabet, with padding at its end only and no
bits set that are not decoded (`Canonical`). Of other texts, one is refused by accident, when
padding has taken the pointer before the string that is decoded to (`PaddedAway`); all others are
decoded to something else, or read or store outside an array.
-/

set_option autoImplicit false

namespace Primitives.Base64

open Lib

/-- An exception is thrown. -/
def Throws {α : Type} (r : Except Failure α) : Prop := ∃ f, r = .error f ∧ f ≠ .outOfBounds

/-- A text is refused, or it is the encoding of what it is decoded to. A read outside the decoding
array is neither. -/
def Strict (s : List UInt8) : Prop :=
  Throws (base64.decode false s) ∨
    ∃ x e, base64.decode false s = .ok x ∧ base64.encode x = .ok e ∧ e.out = s

/-- The encodings: blocks of four characters, and at the end one with padding, if any, whose last
character has no bits that are not decoded. -/
inductive Canonical : List UInt8 → Prop where
  | nil : Canonical []
  | oneByte {u v : Nat} (hu : u < 64) (hv : v < 64) (hbits : v % 16 = 0) :
      Canonical [base64.char u, base64.char v, base64.padding, base64.padding]
  | twoBytes {u v w : Nat} (hu : u < 64) (hv : v < 64) (hw : w < 64) (hbits : w % 4 = 0) :
      Canonical [base64.char u, base64.char v, base64.char w, base64.padding]
  | block {t u v w : Nat} {s : List UInt8} (ht : t < 64) (hu : u < 64) (hv : v < 64) (hw : w < 64)
      (hs : Canonical s) :
      Canonical (base64.char t :: base64.char u :: base64.char v :: base64.char w :: s)

/-- More than three of four characters are padding, but not in what any block has before it. -/
structure PaddedAway (s : List UInt8) : Prop where
  ascii : ∀ c ∈ s, c.toNat < 128
  more : 3 * s.length < 4 * s.count base64.padding
  before : ∀ k, 4 * k < s.length → 4 * (s.take (4 * k)).count base64.padding ≤ 3 * (4 * k)

/-! ## The sizes -/

theorem base64_nBits : base64.nBits = 6 := rfl

theorem base64_nchars : base64.nchars = 64 := rfl

theorem base64_decodedBlockSize : base64.decodedBlockSize = 3 := by
  rw [BaseRaw.decodedBlockSize, base64_nBits]
  rfl

theorem base64_encodedBlockSize : base64.encodedBlockSize = 4 := by
  rw [BaseRaw.encodedBlockSize, base64_nBits]
  rfl

theorem base64_aligned : ∀ r < base64.decodedBlockSize, base64.Aligned r := by decide +kernel

/-! ## Texts -/

/-- A group in one byte. -/
theorem getBits_within {data : List UInt8} {i o : Nat} {a : UInt8} (ha : data[i]? = some a)
    (ho : o ≤ 2) : getBits 6 data (8 * i + o) = a.toNat / 2 ^ (2 - o) % 64 := by
  have hfirst : (8 * i + o) / 8 = i := by omega
  have hlast : (8 * i + o + 6 - 1) / 8 = i := by omega
  have hoffset : 8 - (8 * i + o) % 8 - 6 = 2 - o := by omega
  unfold getBits
  simp only [hfirst, hlast, if_true, hoffset, ha, Option.getD_some]
  rw [Nat.and_two_pow_sub_one_eq_mod, Nat.shiftRight_eq_div_pow]

/-- A group in two bytes. -/
theorem getBits_across {data : List UInt8} {i o : Nat} {a c : UInt8} (ha : data[i]? = some a)
    (hc : data[i + 1]?.getD 0 = c) (ho : 2 < o) (ho8 : o < 8) :
    getBits 6 data (8 * i + o) = a.toNat % 2 ^ (8 - o) * 2 ^ (o - 2) + c.toNat / 2 ^ (10 - o) := by
  have hfirst : (8 * i + o) / 8 = i := by omega
  have hlast : (8 * i + o + 6 - 1) / 8 = i + 1 := by omega
  have hbits : 8 - (8 * i + o) % 8 = 8 - o := by omega
  have hrest : 6 - (8 - o) = o - 2 := by omega
  have hshift : 8 - (o - 2) = 10 - o := by omega
  have hne : ¬ i = i + 1 := by omega
  have hlow : c.toNat / 2 ^ (10 - o) < 2 ^ (o - 2) := by
    rw [Nat.div_lt_iff_lt_mul (Nat.two_pow_pos _), ← Nat.pow_add]
    have hsum : o - 2 + (10 - o) = 8 := by omega
    rw [hsum]
    exact c.toNat_lt
  unfold getBits
  simp only [hfirst, hlast, hne, if_false, hbits, hrest, hshift, ha, hc, Option.getD_some]
  rw [Nat.and_two_pow_sub_one_eq_mod, Nat.shiftRight_eq_div_pow, ← Nat.shiftLeft_add_eq_or_of_lt hlow,
    Nat.shiftLeft_eq]

theorem groups_one (a : UInt8) : base64.groups [a] = [a.toNat / 4, a.toNat % 4 * 16] := by
  have hcount : divceil ([a].length * 8) 6 = 2 := by simp [divceil]
  have h0 : getBits 6 [a] 0 = a.toNat / 4 % 64 := getBits_within (i := 0) (o := 0) rfl (by decide)
  have h1 : getBits 6 [a] 6 = a.toNat % 4 * 16 + 0 :=
    getBits_across (i := 0) (o := 6) (c := 0) rfl rfl (by decide) (by decide)
  have ha := a.toNat_lt
  rw [BaseRaw.groups, base64_nBits, hcount]
  simp only [List.range_succ, List.range_zero, List.nil_append, List.cons_append, List.map_cons,
    List.map_nil, Nat.zero_mul, Nat.one_mul, h0, h1]
  rw [Nat.mod_eq_of_lt (by omega), Nat.add_zero]

theorem groups_two (a b : UInt8) :
    base64.groups [a, b] = [a.toNat / 4, a.toNat % 4 * 16 + b.toNat / 16, b.toNat % 16 * 4] := by
  have hcount : divceil ([a, b].length * 8) 6 = 3 := by simp [divceil]
  have h0 : getBits 6 [a, b] 0 = a.toNat / 4 % 64 := getBits_within (i := 0) (o := 0) rfl (by decide)
  have h1 : getBits 6 [a, b] 6 = a.toNat % 4 * 16 + b.toNat / 16 :=
    getBits_across (i := 0) (o := 6) rfl rfl (by decide) (by decide)
  have h2 : getBits 6 [a, b] 12 = b.toNat % 16 * 4 + 0 :=
    getBits_across (i := 1) (o := 4) (c := 0) rfl rfl (by decide) (by decide)
  have ha := a.toNat_lt
  rw [BaseRaw.groups, base64_nBits, hcount]
  simp only [List.range_succ, List.range_zero, List.nil_append, List.cons_append, List.map_cons,
    List.map_nil, Nat.zero_mul, Nat.one_mul, Nat.reduceMul, h0, h1, h2]
  rw [Nat.mod_eq_of_lt (by omega), Nat.add_zero]

theorem groups_three (a b c : UInt8) : base64.groups [a, b, c] =
    [a.toNat / 4, a.toNat % 4 * 16 + b.toNat / 16, b.toNat % 16 * 4 + c.toNat / 64,
      c.toNat % 64] := by
  have hcount : divceil ([a, b, c].length * 8) 6 = 4 := by simp [divceil]
  have h0 : getBits 6 [a, b, c] 0 = a.toNat / 4 % 64 :=
    getBits_within (i := 0) (o := 0) rfl (by decide)
  have h1 : getBits 6 [a, b, c] 6 = a.toNat % 4 * 16 + b.toNat / 16 :=
    getBits_across (i := 0) (o := 6) rfl rfl (by decide) (by decide)
  have h2 : getBits 6 [a, b, c] 12 = b.toNat % 16 * 4 + c.toNat / 64 :=
    getBits_across (i := 1) (o := 4) rfl rfl (by decide) (by decide)
  have h3 : getBits 6 [a, b, c] 18 = c.toNat / 1 % 64 :=
    getBits_within (i := 2) (o := 2) rfl (by decide)
  have ha := a.toNat_lt
  rw [BaseRaw.groups, base64_nBits, hcount]
  simp only [List.range_succ, List.range_zero, List.nil_append, List.cons_append, List.map_cons,
    List.map_nil, Nat.zero_mul, Nat.one_mul, Nat.reduceMul, h0, h1, h2, h3]
  rw [Nat.mod_eq_of_lt (by omega), Nat.div_one]

/-! ## Encodings -/

theorem base64_full : base64.nchars = 2 ^ base64.nBits := by
  rw [base64_nchars, base64_nBits]
  rfl

theorem base64_groups_lt (x : List UInt8) : ∀ v ∈ base64.groups x, v < 64 := by
  intro v hv
  rw [← base64_nchars]
  exact base64.groups_lt base64_full x v hv

theorem text_eq {ys : List UInt8} {vs : List Nat} (h : base64.groups ys = vs) :
    base64.text ys = vs.map base64.char ++ List.replicate (4 - vs.length) base64.padding := by
  rw [BaseRaw.text, BaseRaw.chars, base64_encodedBlockSize, h]

/-- What an encoding ends with. -/
theorem canonical_ending {last : List UInt8} (h : last.length < 3) :
    Canonical (base64.ending last) := by
  match last, h with
  | [], _ => exact .nil
  | [a], _ =>
    have hgroups := base64_groups_lt [a]
    have ha := a.toNat_lt
    rw [groups_one] at hgroups
    have htext : base64.ending [a] = [base64.char (a.toNat / 4), base64.char (a.toNat % 4 * 16),
        base64.padding, base64.padding] := text_eq (groups_one a)
    rw [htext]
    exact .oneByte (hgroups _ (by simp)) (hgroups _ (by simp)) (by omega)
  | [a, b], _ =>
    have hgroups := base64_groups_lt [a, b]
    rw [groups_two] at hgroups
    have htext : base64.ending [a, b] = [base64.char (a.toNat / 4),
        base64.char (a.toNat % 4 * 16 + b.toNat / 16), base64.char (b.toNat % 16 * 4),
        base64.padding] := text_eq (groups_two a b)
    rw [htext]
    exact .twoBytes (hgroups _ (by simp)) (hgroups _ (by simp)) (hgroups _ (by simp)) (by omega)

theorem canonical_texts {blocks : List (List UInt8)} {s : List UInt8}
    (hblocks : ∀ ys ∈ blocks, ys.length = 3) (hs : Canonical s) :
    Canonical (blocks.flatMap base64.text ++ s) := by
  induction blocks with
  | nil => exact hs
  | cons ys blocks ih =>
    obtain ⟨hys, hrest⟩ := List.forall_mem_cons.mp hblocks
    obtain ⟨a, b, c, rfl⟩ := List.length_eq_three.mp hys
    have hgroups := base64_groups_lt [a, b, c]
    rw [groups_three] at hgroups
    rw [List.flatMap_cons, text_eq (groups_three a b c)]
    exact .block (hgroups _ (by simp)) (hgroups _ (by simp)) (hgroups _ (by simp))
      (hgroups _ (by simp)) (ih hrest)

/-- **Encodings are canonical.** -/
theorem canonical_encode {x : List UInt8} {e : Encoder} (h : base64.encode x = .ok e) :
    Canonical e.out := by
  obtain ⟨blocks, last, rfl, hblocks, hlast⟩ := exists_blocks base64.decodedBlockSize_pos x
  obtain ⟨p, hencode⟩ := base64.encode_eq hblocks hlast
    (base64.groups_lt base64_full _)
  rw [h] at hencode
  cases hencode
  rw [base64_decodedBlockSize] at hblocks hlast
  exact canonical_texts hblocks (canonical_ending hlast)

theorem toNat_ofNat_of_lt {n : Nat} (h : n < 256) : (UInt8.ofNat n).toNat = n := by
  rw [UInt8.toNat_ofNat', Nat.mod_eq_of_lt h]

/-- A canonical text is that of some blocks. -/
theorem Canonical.exists_blocks {s : List UInt8} (h : Canonical s) :
    ∃ (blocks : List (List UInt8)) (last : List UInt8), (∀ ys ∈ blocks, ys.length = 3) ∧
      last.length < 3 ∧ s = blocks.flatMap base64.text ++ base64.ending last := by
  induction h with
  | nil => exact ⟨[], [], by simp, by decide, rfl⟩
  | @oneByte u v hu hv hbits =>
    have ha := toNat_ofNat_of_lt (n := u * 4 + v / 16) (by omega)
    refine ⟨[], [UInt8.ofNat (u * 4 + v / 16)], by simp, by simp, ?_⟩
    have hgroups : base64.groups [UInt8.ofNat (u * 4 + v / 16)] = [u, v] := by
      rw [groups_one, ha]
      congr 1
      · omega
      · congr 1
        omega
    exact (text_eq hgroups).symm
  | @twoBytes u v w hu hv hw hbits =>
    have ha := toNat_ofNat_of_lt (n := u * 4 + v / 16) (by omega)
    have hb := toNat_ofNat_of_lt (n := v % 16 * 16 + w / 4) (by omega)
    refine ⟨[], [UInt8.ofNat (u * 4 + v / 16), UInt8.ofNat (v % 16 * 16 + w / 4)], by simp,
      by simp, ?_⟩
    have hgroups : base64.groups
        [UInt8.ofNat (u * 4 + v / 16), UInt8.ofNat (v % 16 * 16 + w / 4)] = [u, v, w] := by
      rw [groups_two, ha, hb]
      simp only [List.cons.injEq, and_true]
      omega
    exact (text_eq hgroups).symm
  | @block t u v w s ht hu hv hw hs ih =>
    obtain ⟨blocks, last, hblocks, hlast, rfl⟩ := ih
    have ha := toNat_ofNat_of_lt (n := t * 4 + u / 16) (by omega)
    have hb := toNat_ofNat_of_lt (n := u % 16 * 16 + v / 4) (by omega)
    have hc := toNat_ofNat_of_lt (n := v % 4 * 64 + w) (by omega)
    refine ⟨[UInt8.ofNat (t * 4 + u / 16), UInt8.ofNat (u % 16 * 16 + v / 4),
      UInt8.ofNat (v % 4 * 64 + w)] :: blocks, last, by simpa using hblocks, hlast, ?_⟩
    have hgroups : base64.groups [UInt8.ofNat (t * 4 + u / 16), UInt8.ofNat (u % 16 * 16 + v / 4),
        UInt8.ofNat (v % 4 * 64 + w)] = [t, u, v, w] := by
      rw [groups_three, ha, hb, hc]
      simp only [List.cons.injEq, and_true]
      omega
    rw [List.flatMap_cons, text_eq hgroups]
    rfl

/-- **Canonical texts are encodings**, and are decoded to what they encode. -/
theorem Canonical.exists_encode {s : List UInt8} (h : Canonical s) :
    ∃ x e, base64.decode false s = .ok x ∧ base64.encode x = .ok e ∧ e.out = s := by
  obtain ⟨blocks, last, hblocks, hlast, rfl⟩ := h.exists_blocks
  rw [← base64_decodedBlockSize] at hblocks hlast
  have hgroups := base64.groups_lt base64_full (blocks.flatten ++ last)
  obtain ⟨p, hencode⟩ := base64.encode_eq hblocks hlast hgroups
  obtain ⟨e, he, -, hdecode⟩ := (base64.roundTrips_iff (blocks.flatten ++ last)).mpr
    ⟨hgroups, base64_aligned _ (Nat.mod_lt _ base64.decodedBlockSize_pos)⟩
  rw [hencode] at he
  cases he
  exact ⟨_, _, hdecode, hencode, rfl⟩

/-! ## One block -/

theorem decodeAlphabet_spec :
    base64.decodeAlphabet.length = 128 ∧ ∀ v ∈ base64.decodeAlphabet, v < 64 := by
  have hlen : base64.decodeAlphabet.length = 128 := rfl
  have hall : base64.decodeAlphabet.all (· < 64) = true := by decide +kernel
  exact ⟨hlen, fun v hv => of_decide_eq_true (List.all_eq_true.mp hall v hv)⟩

/-- A character below 128 has an entry in the array, of 6 bits. -/
theorem decodeChar_ascii {c : UInt8} (h : c.toNat < 128) :
    ∃ v, base64.decodeChar c = .ok v ∧ v < 2 ^ base64.nBits := by
  obtain ⟨hlen, hlt⟩ := decodeAlphabet_spec
  have hc : c.toNat < base64.decodeAlphabet.length := by
    rw [hlen]
    exact h
  refine ⟨base64.decodeAlphabet[c.toNat], ?_, ?_⟩
  · rw [BaseRaw.decodeChar, List.getElem?_eq_getElem hc]
  · rw [base64_nBits]
    exact hlt _ (List.getElem_mem hc)

/-- Any other character is read outside the array. -/
theorem decodeChar_foreign {c : UInt8} (h : ¬ c.toNat < 128) :
    base64.decodeChar c = .error .outOfBounds := by
  have hnone : base64.decodeAlphabet[c.toNat]? = none :=
    List.getElem?_eq_none (by rw [decodeAlphabet_spec.1]; omega)
  rw [BaseRaw.decodeChar, hnone]

theorem orByte_cases (d : Decoder) (i v : Nat) :
    d.orByte i v = .error .outOfBounds ∨ (∃ out, d.orByte i v = .ok { d with out := out }) ∧
      0 ≤ d.p + i := by
  rw [Decoder.orByte]
  split
  · rename_i h
    exact .inr ⟨⟨_, rfl⟩, h.1⟩
  · split
    · rename_i h
      exact .inr ⟨⟨d.out, rfl⟩, by omega⟩
    · exact .inl rfl

theorem setBits_cases (d : Decoder) (n v start : Nat) :
    d.setBits n v start = .error .outOfBounds ∨
      (∃ out, d.setBits n v start = .ok { d with out := out }) ∧ 0 ≤ d.p + (start / 8 : Nat) := by
  rw [Decoder.setBits]
  split
  · exact orByte_cases d _ _
  · rcases orByte_cases d (start / 8) (v >>> (n - (8 - start % 8))) with h | ⟨⟨out, h⟩, hp⟩
    · refine .inl ?_
      dsimp only
      rw [h]
      rfl
    · dsimp only
      rw [h]
      rcases orByte_cases { d with out := out } ((start + n) / 8)
        (v <<< (8 - (n - (8 - start % 8)))) with h' | ⟨⟨out', h'⟩, -⟩
      · exact .inl h'
      · exact .inr ⟨⟨out', h'⟩, hp⟩

/-- Nothing but a read or a store outside an array can go wrong, and nothing is stored before the
string. -/
theorem setAll_cases (cs : List UInt8) : ∀ (start : Nat) (d : Decoder),
    base64.setAll cs start d = .error .outOfBounds ∨
      (∃ out, base64.setAll cs start d = .ok { d with out := out }) ∧
      (∀ c ∈ cs, c.toNat < 128) ∧ (cs ≠ [] → 0 ≤ d.p + (start / 8 : Nat)) := by
  induction cs with
  | nil =>
    intro start d
    exact .inr ⟨⟨d.out, rfl⟩, by simp, fun h => absurd rfl h⟩
  | cons c cs ih =>
    intro start d
    rw [BaseRaw.setAll]
    by_cases hc : c.toNat < 128
    · obtain ⟨v, hv, -⟩ := decodeChar_ascii hc
      rw [hv]
      dsimp only [bind, Except.bind]
      rcases setBits_cases d base64.nBits v start with h | ⟨⟨out, h⟩, hp⟩
      · rw [h]
        exact .inl rfl
      · rw [h]
        rcases ih (start + base64.nBits) { d with out := out } with h' | ⟨h', hascii, -⟩
        · exact .inl h'
        · exact .inr ⟨h', List.forall_mem_cons.mpr ⟨hc, hascii⟩, fun _ => hp⟩
    · rw [decodeChar_foreign hc]
      exact .inl rfl

/-- **A block** of characters below 128 is decoded, if the pointer is in the string. -/
theorem setAll_ascii {cs : List UInt8} (hascii : ∀ c ∈ cs, c.toNat < 128) {d : Decoder} {p : Nat}
    (hp : d.p = p) (hroom : 8 * p + cs.length * 6 ≤ 8 * d.out.length) :
    ∃ out, base64.setAll cs 0 d = .ok { d with out := out } ∧ out.length = d.out.length := by
  have hvalues : ∃ ws : List Nat, ws.length = cs.length ∧ List.Forall₂
      (fun c w => base64.decodeChar c = .ok w ∧ w < 2 ^ base64.nBits) cs ws := by
    clear hroom
    induction cs with
    | nil => exact ⟨[], rfl, .nil⟩
    | cons c cs ih =>
      obtain ⟨hc, hcs⟩ := List.forall_mem_cons.mp hascii
      obtain ⟨v, hv⟩ := decodeChar_ascii hc
      obtain ⟨ws, hlen, hws⟩ := ih hcs
      exact ⟨v :: ws, congrArg Nat.succ hlen, .cons hv hws⟩
  obtain ⟨ws, hcount, hws⟩ := hvalues
  obtain ⟨out, hout, hlen, -⟩ := base64.setAll_spec hws 0 hp (by
    rw [hcount, base64_nBits]
    omega)
  exact ⟨out, hout, hlen⟩

theorem finishDecode_block {cs : List UInt8} (hlen : cs.length = 4) (d : Decoder) :
    base64.finishDecode cs d = (base64.setAll cs 0 d).map fun d' =>
      { d' with p := d'.p + (3 - cs.count base64.padding) } := by
  have hne : cs ≠ [] := List.ne_nil_of_length_pos (by omega)
  rw [BaseRaw.finishDecode, if_neg hne, base64_encodedBlockSize, base64_decodedBlockSize, hlen,
    Nat.sub_self, List.replicate_zero, List.append_nil]
  dsimp only
  cases base64.setAll cs 0 d with
  | error f => rfl
  | ok d' => rfl

/-! ## The blocks of a text -/

/-- The characters of the blocks are below 128, and the pointer, which begins at `p`, is not before
the string when a block is decoded. -/
def Inside : List (List UInt8) → Int → Prop
  | [], _ => True
  | cs :: blocks, p => (∀ c ∈ cs, c.toNat < 128) ∧ 0 ≤ p ∧
    Inside blocks (p + (3 - cs.count base64.padding))

/-- **The blocks are decoded** where nothing is outside the arrays, and the pointer goes on by three
for each, less the padding. -/
theorem foldlM_blocks {blocks : List (List UInt8)} : ∀ (d : Decoder),
    (∀ cs ∈ blocks, cs.length = 4) → d.p + 3 * blocks.length ≤ d.out.length →
    (blocks.foldlM (fun d cs => base64.finishDecode cs d) d = .error .outOfBounds ∧
      ¬ Inside blocks d.p) ∨
    ∃ d', blocks.foldlM (fun d cs => base64.finishDecode cs d) d = .ok d' ∧ Inside blocks d.p ∧
      d'.p = d.p + 3 * blocks.length - blocks.flatten.count base64.padding := by
  induction blocks with
  | nil =>
    intro d _ _
    exact .inr ⟨d, rfl, trivial, by simp⟩
  | cons cs blocks ih =>
    intro d hblocks hroom
    obtain ⟨hlen, hrest⟩ := List.forall_mem_cons.mp hblocks
    rw [List.length_cons] at hroom
    rw [List.foldlM_cons, finishDecode_block hlen]
    by_cases hgood : (∀ c ∈ cs, c.toNat < 128) ∧ 0 ≤ d.p
    · obtain ⟨p, hp⟩ := Int.eq_ofNat_of_zero_le hgood.2
      obtain ⟨out, hset, hout⟩ := setAll_ascii hgood.1 hp (by omega)
      rw [hset]
      rcases ih ⟨out, d.p + (3 - cs.count base64.padding)⟩ hrest (by dsimp only; omega) with
        ⟨hfold, hno⟩ | ⟨d', hfold, hinside, hp'⟩
      · exact .inl ⟨hfold, fun h => hno h.2.2⟩
      · refine .inr ⟨d', hfold, ⟨hgood.1, hgood.2, hinside⟩, ?_⟩
        rw [hp', List.flatten_cons, List.count_append, List.length_cons]
        dsimp only
        omega
    · refine .inl ⟨?_, fun h => hgood ⟨h.1, h.2.1⟩⟩
      rcases setAll_cases cs 0 d with hset | ⟨-, hascii, hp⟩
      · rw [hset]
        rfl
      · have hne : cs ≠ [] := List.ne_nil_of_length_pos (by omega)
        exact absurd ⟨hascii, by simpa using hp hne⟩ hgood

/-- The same, said of the whole text. -/
theorem inside_iff {blocks : List (List UInt8)} : ∀ {p : Int}, (∀ cs ∈ blocks, cs.length = 4) →
    (Inside blocks p ↔ (∀ c ∈ blocks.flatten, c.toNat < 128) ∧
      ∀ k < blocks.length, (blocks.flatten.take (4 * k)).count base64.padding ≤ p + 3 * k) := by
  induction blocks with
  | nil =>
    intro p _
    simp [Inside]
  | cons cs blocks ih =>
    intro p hblocks
    obtain ⟨hlen, hrest⟩ := List.forall_mem_cons.mp hblocks
    have htake : ∀ k, ((cs :: blocks).flatten.take (4 * (k + 1))).count base64.padding =
        cs.count base64.padding + (blocks.flatten.take (4 * k)).count base64.padding := by
      intro k
      have hsum : 4 * (k + 1) = cs.length + 4 * k := by omega
      rw [List.flatten_cons, hsum, List.take_length_add_append, List.count_append]
    rw [Inside, ih hrest, List.flatten_cons, List.forall_mem_append, and_assoc]
    refine and_congr_right fun _ => ?_
    constructor
    · rintro ⟨hp, hascii, hbefore⟩
      refine ⟨hascii, fun k hk => ?_⟩
      cases k with
      | zero => simpa using hp
      | succ k =>
        have hk' := hbefore k (by simpa using hk)
        rw [← List.flatten_cons, htake]
        omega
    · rintro ⟨hascii, hbefore⟩
      refine ⟨by simpa using hbefore 0 (by simp), hascii, fun k hk => ?_⟩
      have hk' := hbefore (k + 1) (by simpa using hk)
      rw [← List.flatten_cons, htake] at hk'
      omega

/-! ## Whole texts -/

/-- A text of a wrong length is refused. -/
theorem decode_length {s : List UInt8} (h : s.length % 4 ≠ 0) :
    Throws (base64.decode false s) := by
  have hguard : s.length % base64.encodedBlockSize ≠ 0 ∧ base64.pad = true ∧ false = false := by
    rw [base64_encodedBlockSize]
    exact ⟨h, rfl, rfl⟩
  refine ⟨.runtimeError ("bad ".toList ++ base64.name ++ ": incorrect length".toList), ?_,
    fun h => by cases h⟩
  rw [BaseRaw.decode, if_pos hguard]

theorem decode_flatten {blocks : List (List UInt8)} (hblocks : ∀ cs ∈ blocks, cs.length = 4)
    (hne : blocks ≠ []) :
    base64.decode false blocks.flatten =
      (blocks.foldlM (fun d cs => base64.finishDecode cs d)
        ⟨List.replicate (3 * blocks.length) 0, 0⟩).bind Decoder.resize := by
  have hlen := BaseRaw.length_flatten_of hblocks
  have hpos := List.length_pos_of_ne_nil hne
  have hguard : ¬ (blocks.flatten.length % base64.encodedBlockSize ≠ 0 ∧ base64.pad = true ∧
      false = false) := by
    rw [base64_encodedBlockSize, hlen]
    simp
  have hnil : blocks.flatten ≠ [] := List.ne_nil_of_length_pos (by omega)
  have hsize : base64.decodedSize blocks.flatten.length = 3 * blocks.length := by
    have hceil := BaseRaw.divceil_blocks (k := 4) (q := blocks.length) (r := 0) (by decide)
    rw [Nat.add_zero, if_pos rfl, Nat.add_zero] at hceil
    rw [BaseRaw.decodedSize, base64_encodedBlockSize, base64_decodedBlockSize, hlen, hceil,
      Nat.mul_comm]
  have hlast : ([] : List UInt8).length < base64.encodedBlockSize := base64.encodedBlockSize_pos
  have hconvert : convert base64.encodedBlockSize base64.finishDecode (blocks.flatten ++ [])
      ⟨List.replicate (3 * blocks.length) 0, 0⟩ = (do
        let d ← blocks.foldlM (fun d cs => base64.finishDecode cs d)
          ⟨List.replicate (3 * blocks.length) 0, 0⟩
        base64.finishDecode [] d) :=
    convert_eq base64.encodedBlockSize_pos (base64_encodedBlockSize ▸ hblocks) hlast
  rw [List.append_nil] at hconvert
  rw [BaseRaw.decode, if_neg hguard, if_neg hnil, hsize]
  dsimp only
  rw [if_neg Bool.false_ne_true, hconvert]
  cases blocks.foldlM (fun d cs => base64.finishDecode cs d)
      ⟨List.replicate (3 * blocks.length) 0, 0⟩ with
  | error f => rfl
  | ok d => rfl

theorem exists_flatten {s : List UInt8} (h : s.length % 4 = 0) :
    ∃ blocks : List (List UInt8), (∀ cs ∈ blocks, cs.length = 4) ∧ s = blocks.flatten := by
  obtain ⟨blocks, last, rfl, hblocks, hlast⟩ := exists_blocks (k := 4) (by decide) s
  rw [BaseRaw.length_rest hblocks hlast] at h
  rw [List.eq_nil_of_length_eq_zero h, List.append_nil]
  exact ⟨blocks, hblocks, rfl⟩

/-- **A text of whole blocks** is refused only where the pointer ends before the string. -/
theorem throws_iff {s : List UInt8} (hlen : s.length % 4 = 0) :
    Throws (base64.decode false s) ↔ PaddedAway s := by
  obtain ⟨blocks, hblocks, rfl⟩ := exists_flatten hlen
  have hcount := BaseRaw.length_flatten_of hblocks
  by_cases hne : blocks = []
  · subst hne
    constructor
    · rintro ⟨f, hf, -⟩
      cases hf
    · intro h
      have hmore := h.more
      simp at hmore
  · rw [decode_flatten hblocks hne]
    have hfold := foldlM_blocks ⟨List.replicate (3 * blocks.length) 0, 0⟩ hblocks (by simp)
    have hpadded : PaddedAway blocks.flatten ↔ Inside blocks 0 ∧
        3 * (blocks.length : Int) < blocks.flatten.count base64.padding := by
      rw [inside_iff hblocks]
      constructor
      · intro h
        have hmore := h.more
        refine ⟨⟨h.ascii, fun k hk => ?_⟩, by omega⟩
        have hk' := h.before k (by omega)
        omega
      · rintro ⟨⟨hascii, hbefore⟩, hmore⟩
        refine ⟨hascii, by omega, fun k hk => ?_⟩
        have hk' := hbefore k (by omega)
        omega
    rw [hpadded]
    rcases hfold with ⟨hfold, hno⟩ | ⟨d, hfold, hinside, hp⟩
    · rw [hfold]
      constructor
      · rintro ⟨f, hf, hthrown⟩
        cases hf
        exact absurd rfl hthrown
      · exact fun h => absurd h.1 hno
    · rw [hfold]
      dsimp only at hp
      change Throws d.resize ↔ _
      rw [Decoder.resize]
      split
      · rename_i hge
        constructor
        · rintro ⟨f, hf, -⟩
          cases hf
        · intro h
          have hmore := h.2
          omega
      · rename_i hlt
        refine iff_of_true ⟨.lengthError, rfl, fun h => by cases h⟩ ⟨hinside, ?_⟩
        omega

/-- **Strict decoding.** A text is refused, or decoded to what it is the encoding of, exactly where
its length is wrong, or it is an encoding, or its padding takes the pointer before the string. -/
theorem decode_strict_iff (s : List UInt8) :
    Strict s ↔ s.length % 4 ≠ 0 ∨ Canonical s ∨ PaddedAway s := by
  constructor
  · rintro (hthrows | ⟨x, e, -, hencode, rfl⟩)
    · by_cases hlen : s.length % 4 = 0
      · exact .inr (.inr ((throws_iff hlen).mp hthrows))
      · exact .inl hlen
    · exact .inr (.inl (canonical_encode hencode))
  · rintro (hlen | hcanonical | hpadded)
    · exact .inl (decode_length hlen)
    · exact .inr hcanonical.exists_encode
    · by_cases hlen : s.length % 4 = 0
      · exact .inl ((throws_iff hlen).mpr hpadded)
      · exact .inl (decode_length hlen)

/-- A text with bits that are not decoded is taken, and a byte above 127 is read outside the
array. -/
theorem decode_not_strict :
    base64.decode false (ascii "QR==") = .ok [65] ∧ ¬ Strict (ascii "QR==") ∧
      base64.decode false [200, 65, 65, 65] = .error .outOfBounds ∧ ¬ Strict [200, 65, 65, 65] := by
  have hbits : base64.decode false (ascii "QR==") = .ok [65] := by decide +kernel
  have hencode : base64.encode [65] = .ok ⟨ascii "QQ==", 2, [16, 16]⟩ := by decide +kernel
  have hforeign : base64.decode false [200, 65, 65, 65] = .error .outOfBounds := by decide +kernel
  refine ⟨hbits, ?_, hforeign, ?_⟩
  · rintro (⟨f, hf, -⟩ | ⟨x, e, hx, he, hs⟩)
    · rw [hbits] at hf
      cases hf
    · rw [hbits] at hx
      cases hx
      rw [hencode] at he
      cases he
      exact absurd hs (by decide)
  · rintro (⟨f, hf, hthrown⟩ | ⟨x, e, hx, -, -⟩)
    · rw [hforeign] at hf
      cases hf
      exact hthrown rfl
    · rw [hforeign] at hx
      cases hx

end Primitives.Base64
