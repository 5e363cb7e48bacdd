import Primitives.Base64.Decode

/-!
# Base encodings — round trips

A string is decoded from its encoding if its groups are indices of characters and its last block is
aligned, and only then (`roundTrips_iff`). With 64 characters both always hold. With 16 characters
too; of 32 characters a last block of 1, 2 or 3 bytes is not aligned; 62 characters are too few for
groups of 6 bits.
-/

set_option autoImplicit false

namespace Primitives.Base64

open Lib

/-- The string is encoded, by characters of the alphabet, and decoded again. -/
def RoundTrips (b : BaseRaw) (x : List UInt8) : Prop :=
  ∃ e, b.encode x = .ok e ∧ (∀ i ∈ e.reads, i < b.nchars) ∧ b.decode false e.out = .ok x

namespace BaseRaw

variable (b : BaseRaw)

/-! ## One string -/

theorem length_rest {blocks : List (List UInt8)} {last : List UInt8} {k : Nat}
    (hblocks : ∀ ys ∈ blocks, ys.length = k) (hlast : last.length < k) :
    (blocks.flatten ++ last).length % k = last.length := by
  rw [List.length_append, length_flatten_of hblocks, Nat.add_comm, Nat.add_mul_mod_self_right,
    Nat.mod_eq_of_lt hlast]

theorem blocks_aligned {blocks : List (List UInt8)}
    (hblocks : ∀ ys ∈ blocks, ys.length = b.decodedBlockSize) :
    ∀ ys ∈ blocks, ys ≠ [] ∧ ys.length ≤ b.decodedBlockSize ∧ b.Aligned ys.length := by
  intro ys hys
  have hpos := b.decodedBlockSize_pos
  have hlen := hblocks ys hys
  exact ⟨List.ne_nil_of_length_pos (by omega), Nat.le_of_eq hlen, hlen ▸ b.aligned_block⟩

/-- **Round trips**: every group is the index of a character, and the last block is aligned. -/
theorem roundTrips_iff (x : List UInt8) :
    RoundTrips b x ↔
      (∀ v ∈ b.groups x, v < b.nchars) ∧ b.Aligned (x.length % b.decodedBlockSize) := by
  obtain ⟨blocks, last, rfl, hblocks, hlast⟩ := exists_blocks b.decodedBlockSize_pos x
  rw [length_rest hblocks hlast]
  -- once the string is encoded, only the alignment of the last block is left
  have key : (∀ v ∈ b.groups (blocks.flatten ++ last), v < b.nchars) →
      ∃ e, b.encode (blocks.flatten ++ last) = .ok e ∧
        e.reads = b.groups (blocks.flatten ++ last) ∧
        (b.decode false e.out = .ok (blocks.flatten ++ last) ↔ b.Aligned last.length) := by
    intro hgroups
    obtain ⟨p, hencode⟩ := b.encode_eq hblocks hlast hgroups
    rw [b.groups_flatten hblocks] at hgroups
    refine ⟨_, hencode, rfl, ?_⟩
    have htexts := b.length_texts fun ys hys => Nat.le_of_eq (hblocks ys hys)
    have hguard : (blocks.flatMap b.text ++ b.ending last).length % b.encodedBlockSize = 0 ∨
        b.pad = false ∨ false = true := by
      cases hpad : b.pad with
      | false => exact .inr (.inl rfl)
      | true =>
        refine .inl ?_
        rw [List.length_append, htexts, Nat.add_comm, Nat.add_mul_mod_self_right, ending, hpad]
        split
        · exact Nat.zero_mod _
        · rw [if_pos rfl, b.length_text (Nat.le_of_lt hlast), Nat.mod_self]
    have hending : last = [] ∧ b.ending last = [] ∨
        last ≠ [] ∧ (b.ending last = b.text last ∨ b.ending last = b.chars last) := by
      rw [ending]
      by_cases hnil : last = []
      · exact .inl ⟨hnil, if_pos hnil⟩
      · rw [if_neg hnil]
        refine .inr ⟨hnil, ?_⟩
        cases b.pad with
        | false => exact .inr rfl
        | true => exact .inl rfl
    obtain ⟨z, hdecode⟩ := b.decode_eq false last _ hguard
      (if_neg Bool.false_ne_true) (b.blocks_aligned hblocks) (Nat.le_of_lt hlast) hending hgroups
    rw [hdecode, Decoder.resize_eq_iff, List.length_append, Aligned]
    omega
  constructor
  · rintro ⟨e, hencode, hreads, hdecode⟩
    rw [b.reads_encode hencode] at hreads
    obtain ⟨e', hencode', -, hiff⟩ := key hreads
    rw [hencode] at hencode'
    cases hencode'
    exact ⟨hreads, hiff.mp hdecode⟩
  · rintro ⟨hgroups, haligned⟩
    obtain ⟨e, hencode, hreads, hiff⟩ := key hgroups
    exact ⟨e, hencode, hreads ▸ hgroups, hiff.mpr haligned⟩

/-- With a full set of characters every group is the index of one. -/
theorem groups_lt (hfull : b.nchars = 2 ^ b.nBits) (x : List UInt8) :
    ∀ v ∈ b.groups x, v < b.nchars := by
  intro v hv
  obtain ⟨hpos, hle, -⟩ := b.nBits_spec
  obtain ⟨i, -, rfl⟩ := List.mem_map.mp hv
  rw [hfull]
  exact getBits_lt hpos hle x _

/-! ## A stream -/

/-- A string is encoded by an encoding that pads as a list of texts. -/
theorem encode_blocks (hpad : b.pad = true) (hfull : b.nchars = 2 ^ b.nBits)
    (haligned : ∀ r < b.decodedBlockSize, b.Aligned r) (x : List UInt8) :
    ∃ (e : Encoder) (blocks : List (List UInt8)), b.encode x = .ok e ∧ x = blocks.flatten ∧ e.out = blocks.flatMap b.text ∧
      ∀ ys ∈ blocks, ys ≠ [] ∧ ys.length ≤ b.decodedBlockSize ∧ b.Aligned ys.length := by
  obtain ⟨blocks, last, rfl, hblocks, hlast⟩ := exists_blocks b.decodedBlockSize_pos x
  obtain ⟨p, hencode⟩ := b.encode_eq hblocks hlast (b.groups_lt hfull _)
  have hwhole := b.blocks_aligned hblocks
  by_cases hnil : last = []
  · refine ⟨_, blocks, hencode, ?_, ?_, hwhole⟩
    · rw [hnil, List.append_nil]
    · show blocks.flatMap b.text ++ b.ending last = blocks.flatMap b.text
      rw [ending, if_pos hnil, List.append_nil]
  · refine ⟨_, blocks ++ [last], hencode, ?_, ?_, ?_⟩
    · rw [List.flatten_append, List.flatten_singleton]
    · show blocks.flatMap b.text ++ b.ending last = (blocks ++ [last]).flatMap b.text
      rw [ending, if_neg hnil, if_pos hpad, List.flatMap_append, List.flatMap_singleton]
    · exact List.forall_mem_append.mpr ⟨hwhole, List.forall_mem_singleton.mpr
        ⟨hnil, Nat.le_of_lt hlast, haligned _ hlast⟩⟩

/-- The encodings of some strings, one behind the other. -/
theorem encode_stream (hpad : b.pad = true) (hfull : b.nchars = 2 ^ b.nBits)
    (haligned : ∀ r < b.decodedBlockSize, b.Aligned r) (xs : List (List UInt8)) :
    ∃ (es : List Encoder) (blocks : List (List UInt8)), xs.mapM b.encode = .ok es ∧ xs.flatten = blocks.flatten ∧
      es.flatMap Encoder.out = blocks.flatMap b.text ∧
      ∀ ys ∈ blocks, ys ≠ [] ∧ ys.length ≤ b.decodedBlockSize ∧ b.Aligned ys.length := by
  induction xs with
  | nil => exact ⟨[], [], rfl, rfl, rfl, by simp⟩
  | cons x xs ih =>
    obtain ⟨e, blocks, hencode, hx, hout, hblocks⟩ := b.encode_blocks hpad hfull haligned x
    obtain ⟨es, rest, hes, hxs, houts, hrest⟩ := ih
    refine ⟨e :: es, blocks ++ rest, ?_, ?_, ?_, List.forall_mem_append.mpr ⟨hblocks, hrest⟩⟩
    · rw [List.mapM_cons, hencode, hes]
      rfl
    · rw [List.flatten_cons, List.flatten_append, hx, hxs]
    · rw [List.flatMap_cons, List.flatMap_append, hout, houts]

/-- Every character of a text is in the alphabet or the padding. -/
theorem mem_text {ys : List UInt8} (hgroups : ∀ v ∈ b.groups ys, v < b.nchars) :
    ∀ c ∈ b.text ys, c ∈ b.alphabet ∨ c = b.padding := by
  intro c hc
  rw [text, List.mem_append] at hc
  rcases hc with hchar | hpad
  · obtain ⟨v, hv, rfl⟩ := List.mem_map.mp hchar
    exact .inl (b.char_mem (hgroups v hv))
  · exact .inr (List.eq_of_mem_replicate hpad)

end BaseRaw

/-- `t` is `s` with characters inserted that are `junk`. -/
inductive Inserted (junk : UInt8 → Prop) : List UInt8 → List UInt8 → Prop where
  | nil : Inserted junk [] []
  | keep (c : UInt8) {s t : List UInt8} : Inserted junk s t → Inserted junk (c :: s) (c :: t)
  | insert {c : UInt8} {s t : List UInt8} : junk c → Inserted junk s t → Inserted junk s (c :: t)

theorem filter_inserted {junk : UInt8 → Prop} {p : UInt8 → Bool} {s t : List UInt8}
    (h : Inserted junk s t) (hjunk : ∀ c, junk c → p c = false) (hs : ∀ c ∈ s, p c = true) :
    t.filter p = s := by
  induction h with
  | nil => rfl
  | keep c _ ih =>
    obtain ⟨hc, hs⟩ := List.forall_mem_cons.mp hs
    rw [List.filter_cons_of_pos hc, ih hs]
  | @insert c s t hc _ ih =>
    rw [List.filter_cons_of_neg (Bool.eq_false_iff.mp (hjunk c hc)), ih hs]

namespace BaseRaw

variable (b : BaseRaw)

/-- The characters that decoding may ignore. -/
def NonAlphabet (c : UInt8) : Prop := c ∉ b.alphabet ∧ c ≠ b.padding

instance (c : UInt8) : Decidable (b.NonAlphabet c) := inferInstanceAs (Decidable (_ ∧ _))

theorem decode_stream (hpad : b.pad = true) (hfull : b.nchars = 2 ^ b.nBits)
    (haligned : ∀ r < b.decodedBlockSize, b.Aligned r) (xs : List (List UInt8)) :
    ∃ es, xs.mapM b.encode = .ok es ∧
      ∀ data, Inserted b.NonAlphabet (es.flatMap Encoder.out) data →
        b.decode true data = .ok xs.flatten := by
  obtain ⟨es, blocks, hes, hxs, houts, hblocks⟩ := b.encode_stream hpad hfull haligned xs
  refine ⟨es, hes, ?_⟩
  intro data hdata
  rw [houts] at hdata
  have hgroups : ∀ v ∈ blocks.flatMap b.groups ++ b.groups [], v < b.nchars := by
    rw [groups_nil, List.append_nil]
    intro v hv
    obtain ⟨ys, -, hv⟩ := List.mem_flatMap.mp hv
    exact b.groups_lt hfull ys v hv
  have hfilter : data.filter (fun c => c ∈ b.alphabet ∨ c = b.padding) = blocks.flatMap b.text := by
    refine filter_inserted hdata ?_ ?_
    · rintro c ⟨hc, hne⟩
      exact decide_eq_false (not_or.mpr ⟨hc, hne⟩)
    · intro c hc
      obtain ⟨ys, -, hc⟩ := List.mem_flatMap.mp hc
      exact decide_eq_true (b.mem_text (b.groups_lt hfull ys) c hc)
  obtain ⟨z, hdecode⟩ := b.decode_eq true [] []
    (.inr (.inr rfl)) (by rw [if_pos rfl, hfilter, List.append_nil]) hblocks (Nat.zero_le _)
    (.inl ⟨rfl, rfl⟩) hgroups
  rw [hdecode, hxs, List.append_nil, Decoder.resize_eq_iff]
  exact Int.add_zero _

end BaseRaw

/-! ## The encodings -/

/-- **64 characters**: decoding takes a stream of padded encodings, whatever is inserted that is not
of the encoding; and without padding every string is decoded from its own. -/
theorem base64_decode_encode :
    (∀ b, b = base64 ∨ b = base64url true → ∀ xs : List (List UInt8),
      ∃ es, xs.mapM b.encode = .ok es ∧
        ∀ data, Inserted b.NonAlphabet (es.flatMap Encoder.out) data →
          b.decode true data = .ok xs.flatten) ∧
    ∀ x, ∃ e, (base64url false).encode x = .ok e ∧ (base64url false).decode false e.out = .ok x := by
  refine ⟨?_, ?_⟩
  · rintro b (rfl | rfl) xs
    · exact base64.decode_stream rfl (by decide +kernel) (by decide +kernel) xs
    · exact (base64url true).decode_stream rfl (by decide +kernel) (by decide +kernel) xs
  · intro x
    have haligned : ∀ r < (base64url false).decodedBlockSize, (base64url false).Aligned r := by
      decide +kernel
    obtain ⟨e, hencode, -, hdecode⟩ := ((base64url false).roundTrips_iff x).mpr
      ⟨(base64url false).groups_lt (by decide +kernel) x,
        haligned _ (Nat.mod_lt _ (base64url false).decodedBlockSize_pos)⟩
    exact ⟨e, hencode, hdecode⟩

theorem base64_decode_encode_two :
    base64.decode true (ascii "TQ==" ++ 10 :: ascii "YWI=") = .ok [77, 97, 98] := by
  obtain ⟨es, hes, hdecode⟩ := base64_decode_encode.1 base64 (.inl rfl) [[77], [97, 98]]
  have houts : es.flatMap Encoder.out = ascii "TQ==" ++ ascii "YWI=" := by
    have heval : [[77], [97, 98]].mapM base64.encode =
        .ok [⟨ascii "TQ==", 2, [19, 16]⟩, ⟨ascii "YWI=", 3, [24, 22, 8]⟩] := by decide +kernel
    rw [hes] at heval
    cases heval
    rfl
  refine hdecode _ ?_
  rw [houts]
  have hback : Inserted base64.NonAlphabet (ascii "YWI=") (ascii "YWI=") :=
    .keep _ (.keep _ (.keep _ (.keep _ .nil)))
  exact .keep _ (.keep _ (.keep _ (.keep _ (.insert (by decide +kernel) hback))))

/-- The groups of 6 bits that are no index of 62 characters begin with five ones. -/
theorem base62_groups_lt (x : List UInt8) :
    (∀ v ∈ base62.groups x, v < base62.nchars) ↔
      ¬ ∃ i, ∀ t < 5, bit x (6 * i + t) = true := by
  have hbits : base62.nBits = 6 := by decide +kernel
  have hchars : base62.nchars = 62 := by decide +kernel
  have hlarge : ∀ v < 2 ^ 6, (v < 62 ↔ ¬ ∀ t < 5, v.testBit (6 - 1 - t) = true) := by decide
  have hgroup : ∀ i, getBits 6 x (6 * i) < 62 ↔ ¬ ∀ t < 5, bit x (6 * i + t) = true := by
    intro i
    rw [hlarge _ (getBits_lt (by decide) (by decide) x _)]
    refine not_congr (forall₂_congr fun t ht => ?_)
    rw [testBit_getBits (by decide) x _ (by omega)]
  rw [hchars]
  constructor
  · rintro hgroups ⟨i, hi⟩
    have hlt : i < divceil (x.length * 8) 6 := by
      -- the first of the bits is in the string
      by_contra hge
      rw [divceil] at hge
      have hfirst := hi 0 (by decide)
      rw [bit_of_le (by omega)] at hfirst
      cases hfirst
    refine (hgroup i).mp (hgroups _ ?_) hi
    rw [BaseRaw.groups, hbits, Nat.mul_comm 6 i]
    exact List.mem_map.mpr ⟨i, List.mem_range.mpr hlt, rfl⟩
  · intro hno v hv
    rw [BaseRaw.groups, hbits] at hv
    obtain ⟨i, -, rfl⟩ := List.mem_map.mp hv
    rw [Nat.mul_comm i 6]
    exact (hgroup i).mpr fun hi => hno ⟨i, hi⟩

/-- **16, 32 and 62 characters**: every string is decoded from its encoding in base 16; in base 32
unless its last block has 1, 2 or 3 bytes; in base 62 unless five ones begin a group. -/
theorem base16_base32_base62_decode_encode (x : List UInt8) :
    RoundTrips base16 x ∧
    (RoundTrips base32 x ↔ x.length % 5 = 0 ∨ x.length % 5 = 4) ∧
    (RoundTrips base32extendedHex x ↔ x.length % 5 = 0 ∨ x.length % 5 = 4) ∧
    (RoundTrips base62 x ↔ ¬ ∃ i, ∀ t < 5, bit x (6 * i + t) = true) := by
  refine ⟨?_, ?_, ?_, ?_⟩
  · have haligned : ∀ r < base16.decodedBlockSize, base16.Aligned r := by decide +kernel
    exact (base16.roundTrips_iff x).mpr ⟨base16.groups_lt (by decide +kernel) x,
      haligned _ (Nat.mod_lt _ base16.decodedBlockSize_pos)⟩
  · have hsize : base32.decodedBlockSize = 5 := by decide +kernel
    have haligned : ∀ r < 5, (base32.Aligned r ↔ r = 0 ∨ r = 4) := by decide +kernel
    rw [base32.roundTrips_iff, hsize, haligned _ (Nat.mod_lt _ (by decide))]
    exact and_iff_right (base32.groups_lt (by decide +kernel) x)
  · have hsize : base32extendedHex.decodedBlockSize = 5 := by decide +kernel
    have haligned : ∀ r < 5, (base32extendedHex.Aligned r ↔ r = 0 ∨ r = 4) := by decide +kernel
    rw [base32extendedHex.roundTrips_iff, hsize, haligned _ (Nat.mod_lt _ (by decide))]
    exact and_iff_right (base32extendedHex.groups_lt (by decide +kernel) x)
  · have haligned : ∀ r < base62.decodedBlockSize, base62.Aligned r := by decide +kernel
    rw [base62.roundTrips_iff, base62_groups_lt]
    exact and_iff_left (haligned _ (Nat.mod_lt _ base62.decodedBlockSize_pos))

/-- A zero byte is no string of base 32: what would be decoded from its encoding has length -1. A
byte whose first five bits are ones is none of base 62: its first group is read as the terminating
zero of the alphabet. -/
theorem base32_base62_not_roundTrips :
    base32.encode [0] = .ok ⟨ascii "AA======", 2, [0, 0]⟩ ∧
    base32.decode false (ascii "AA======") = .error .lengthError ∧
    ¬ RoundTrips base32 [0] ∧
    base62.encode [248] = .ok ⟨0 :: ascii "A==", 2, [62, 0]⟩ ∧ base62.nchars = 62 ∧
    ¬ RoundTrips base62 [248] := by
  have h32 : base32.encode [0] = .ok ⟨ascii "AA======", 2, [0, 0]⟩ := by decide +kernel
  have hdecode : base32.decode false (ascii "AA======") = .error .lengthError := by decide +kernel
  have h62 : base62.encode [248] = .ok ⟨0 :: ascii "A==", 2, [62, 0]⟩ := by decide +kernel
  have hchars : base62.nchars = 62 := by decide +kernel
  refine ⟨h32, hdecode, ?_, h62, hchars, ?_⟩
  · rintro ⟨e, hencode, -, h⟩
    rw [h32] at hencode
    cases hencode
    rw [hdecode] at h
    cases h
  · rintro ⟨e, hencode, hreads, -⟩
    rw [h62] at hencode
    cases hencode
    have hlt := hreads 62 List.mem_cons_self
    rw [hchars] at hlt
    omega

end Primitives.Base64
