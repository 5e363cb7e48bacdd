import Primitives.Base64.Encode

/-!
# Base encodings — what is decoded

The text of a block is decoded to the block: the groups of its characters are or-ed to zeros, the
padding adds zeros, and what is left behind the block is zeros again (`finishDecode_eq`), so that the
next block finds zeros although the pointer has not gone on by a whole block. Where the pointer goes
depends on the padding only: it is behind the block just if the block is `Aligned`.
-/

set_option autoImplicit false

namespace Primitives.Base64

open Lib

/-! ## The decoding array -/

/-- An array into which the elements of a list are stored at their indices. -/
theorem getElem?_stores {l : List UInt8} : ∀ {s : Nat} {t : List Nat} {c : Nat},
    c ∉ l.map UInt8.toNat →
    ((l.zipIdx s).foldl (fun t x => t.set x.1.toNat x.2) t)[c]? = t[c]? := by
  induction l with
  | nil =>
    intro s t c _
    rfl
  | cons a l ih =>
    intro s t c hc
    rw [List.map_cons, List.mem_cons, not_or] at hc
    rw [List.zipIdx_cons, List.foldl_cons, ih hc.2, List.getElem?_set_ne (Ne.symm hc.1)]

theorem getElem?_stores_mem {l : List UInt8} : ∀ {s i : Nat} {t : List Nat} {a : UInt8},
    l.Nodup → l[i]? = some a → a.toNat < t.length →
    ((l.zipIdx s).foldl (fun t x => t.set x.1.toNat x.2) t)[a.toNat]? = some (s + i) := by
  induction l with
  | nil =>
    intro s i t a _ h
    cases h
  | cons x l ih =>
    intro s i t a hnodup h ha
    obtain ⟨hx, hnodup⟩ := List.nodup_cons.mp hnodup
    rw [List.zipIdx_cons, List.foldl_cons]
    cases i with
    | zero =>
      obtain rfl : x = a := Option.some.inj h
      have hno : x.toNat ∉ l.map UInt8.toNat := by
        intro hmem
        obtain ⟨y, hy, heq⟩ := List.mem_map.mp hmem
        exact hx (UInt8.toNat_inj.mp heq ▸ hy)
      rw [getElem?_stores hno, List.getElem?_set_self ha, Nat.add_zero]
    | succ i =>
      have hrest := ih (s := s + 1) (i := i) (t := t.set x.toNat s) hnodup h
        (by rw [List.length_set]; exact ha)
      rw [hrest]
      congr 1
      omega

namespace BaseRaw

variable (b : BaseRaw)

theorem char_mem {v : Nat} (h : v < b.nchars) : b.char v ∈ b.alphabet := by
  rw [char, List.getElem?_eq_getElem h]
  exact List.getElem_mem _

theorem padding_not_mem : b.padding ∉ b.alphabet := (List.nodup_cons.mp b.nodup).1

theorem decodeChar_char {v : Nat} (h : v < b.nchars) : b.decodeChar (b.char v) = .ok v := by
  have hget : b.alphabet[v]? = some (b.char v) := by
    rw [char, List.getElem?_eq_getElem h, Option.getD_some]
  have hlt : (b.char v).toNat < (List.replicate 128 0 : List Nat).length := by
    rw [List.length_replicate]
    exact b.ascii _ (List.mem_cons_of_mem _ (b.char_mem h))
  have hstore := getElem?_stores_mem (s := 0) (List.nodup_cons.mp b.nodup).2 hget hlt
  rw [Nat.zero_add] at hstore
  rw [decodeChar, decodeAlphabet, hstore]

theorem decodeChar_padding : b.decodeChar b.padding = .ok 0 := by
  have hno : b.padding.toNat ∉ b.alphabet.map UInt8.toNat := by
    intro hmem
    obtain ⟨y, hy, heq⟩ := List.mem_map.mp hmem
    exact b.padding_not_mem (UInt8.toNat_inj.mp heq ▸ hy)
  have hlt := b.ascii b.padding List.mem_cons_self
  have hstore := getElem?_stores (s := 0) (t := List.replicate 128 0) hno
  rw [List.getElem?_replicate, if_pos hlt] at hstore
  rw [decodeChar, decodeAlphabet, hstore]

/-! ## One block -/

/-- The groups of a block's characters are or-ed to the string, one after another. -/
theorem setAll_spec {cs : List UInt8} {ws : List Nat}
    (h : List.Forall₂ (fun c w => b.decodeChar c = .ok w ∧ w < 2 ^ b.nBits) cs ws) :
    ∀ {d : Decoder} {p : Nat} (start : Nat), d.p = p →
      8 * p + start + ws.length * b.nBits ≤ 8 * d.out.length →
      ∃ out, b.setAll cs start d = .ok { d with out := out } ∧ out.length = d.out.length ∧
        ∀ j, bit out j = (bit d.out j ||
          (decide (8 * p + start ≤ j ∧ j < 8 * p + start + ws.length * b.nBits) &&
            (ws[(j - (8 * p + start)) / b.nBits]?.getD 0).testBit
              (b.nBits - 1 - (j - (8 * p + start)) % b.nBits))) := by
  obtain ⟨hpos, hle, -⟩ := b.nBits_spec
  induction h with
  | nil =>
    intro d p start _ _
    refine ⟨d.out, rfl, rfl, fun j => ?_⟩
    have hno : ¬ (8 * p + start ≤ j ∧ j < 8 * p + start + ([] : List Nat).length * b.nBits) := by
      rw [List.length_nil]
      omega
    rw [decide_eq_false hno, Bool.false_and, Bool.or_false]
  | @cons c w cs ws hcw hrest ih =>
    intro d p start hp hroom
    obtain ⟨hdecode, hw⟩ := hcw
    have hmul : (w :: ws).length * b.nBits = ws.length * b.nBits + b.nBits := by
      rw [List.length_cons, Nat.succ_mul]
    rw [hmul] at hroom ⊢
    obtain ⟨out₁, hout₁, hlen₁, hbit₁⟩ := setBits_spec hpos hle hp hw start (by omega)
    obtain ⟨out₂, hout₂, hlen₂, hbit₂⟩ :=
      ih (d := { d with out := out₁ }) (p := p) (start + b.nBits) hp (by
        show 8 * p + (start + b.nBits) + ws.length * b.nBits ≤ 8 * out₁.length
        omega)
    refine ⟨out₂, ?_, hlen₂.trans hlen₁, fun j => ?_⟩
    · rw [setAll, hdecode]
      dsimp only [bind, Except.bind]
      rw [hout₁]
      exact hout₂
    · rw [hbit₂, hbit₁, Bool.or_assoc]
      congr 1
      have hshift : 8 * p + (start + b.nBits) = 8 * p + start + b.nBits := by omega
      rw [hshift]
      generalize 8 * p + start = S
      by_cases hbefore : j < S
      · -- before the windows
        rw [decide_eq_false (by omega), decide_eq_false (by omega), decide_eq_false (by omega)]
        rfl
      · obtain ⟨i, rfl⟩ := Nat.exists_eq_add_of_le (Nat.le_of_not_lt hbefore)
        rw [Nat.add_sub_cancel_left]
        by_cases hfirst : i < b.nBits
        · -- in the first window
          rw [decide_eq_true (by omega), decide_eq_false (by omega), decide_eq_true (by omega),
            Nat.div_eq_of_lt hfirst, Nat.mod_eq_of_lt hfirst]
          simp
        · -- in one of the others
          obtain ⟨t, rfl⟩ := Nat.exists_eq_add_of_le (Nat.le_of_not_lt hfirst)
          have hsub : S + (b.nBits + t) - (S + b.nBits) = t := by omega
          have hiff : (S + b.nBits ≤ S + (b.nBits + t) ∧
              S + (b.nBits + t) < S + b.nBits + ws.length * b.nBits) ↔
              (S ≤ S + (b.nBits + t) ∧
              S + (b.nBits + t) < S + (ws.length * b.nBits + b.nBits)) := by omega
          rw [decide_eq_false (p := S ≤ S + (b.nBits + t) ∧ S + (b.nBits + t) < S + b.nBits)
            (by omega), Bool.false_and, Bool.false_or, hsub, Nat.add_div_left t hpos,
            Nat.add_mod_left, List.getElem?_cons_succ, decide_eq_decide.mpr hiff]

theorem count_padding_text {ys : List UInt8} (hgroups : ∀ v ∈ b.groups ys, v < b.nchars) :
    (b.text ys).count b.padding = b.encodedBlockSize - (b.groups ys).length := by
  have hno : b.padding ∉ b.chars ys := by
    intro hmem
    obtain ⟨v, hv, heq⟩ := List.mem_map.mp hmem
    exact b.padding_not_mem (heq ▸ b.char_mem (hgroups v hv))
  rw [text, List.count_append, List.count_eq_zero.mpr hno, Nat.zero_add, List.count_replicate_self]

/-- What `finish` decodes of a text: its groups, and zeros for its padding. -/
theorem decodeChar_text {ys : List UInt8} (hgroups : ∀ v ∈ b.groups ys, v < b.nchars) (n : Nat) :
    List.Forall₂ (fun c w => b.decodeChar c = .ok w ∧ w < 2 ^ b.nBits)
      (b.chars ys ++ List.replicate n b.padding) (b.groups ys ++ List.replicate n 0) := by
  obtain ⟨-, -, hsize⟩ := b.nBits_spec
  have hpad : List.Forall₂ (fun c w => b.decodeChar c = .ok w ∧ w < 2 ^ b.nBits)
      (List.replicate n b.padding) (List.replicate n 0) := by
    induction n with
    | zero => exact .nil
    | succ n ih => exact .cons ⟨b.decodeChar_padding, Nat.two_pow_pos _⟩ ih
  rw [chars]
  generalize b.groups ys = vs at hgroups ⊢
  induction vs with
  | nil => exact hpad
  | cons v vs ih =>
    obtain ⟨hv, hvs⟩ := List.forall_mem_cons.mp hgroups
    exact .cons ⟨b.decodeChar_char hv, Nat.lt_of_lt_of_le hv hsize⟩ (ih hvs)

/-- The groups of a string hold all its bits. -/
theorem bits_le_groups (ys : List UInt8) : 8 * ys.length ≤ (b.groups ys).length * b.nBits := by
  obtain ⟨hpos, -, -⟩ := b.nBits_spec
  have hdiv := Nat.div_add_mod (ys.length * 8 + b.nBits - 1) b.nBits
  have hmod := Nat.mod_lt (ys.length * 8 + b.nBits - 1) hpos
  rw [length_groups, divceil, Nat.mul_comm _ b.nBits]
  omega

theorem groups_ne_nil {ys : List UInt8} (hne : ys ≠ []) : 0 < (b.groups ys).length := by
  have hcover := b.bits_le_groups ys
  have hlen := List.length_pos_of_ne_nil hne
  by_contra hzero
  rw [Nat.eq_zero_of_not_pos hzero, Nat.zero_mul] at hcover
  omega

/-- The bits of the groups are those of the string. -/
theorem testBit_groups (ys : List UInt8) (n i : Nat) :
    ((b.groups ys ++ List.replicate n 0)[i / b.nBits]?.getD 0).testBit (b.nBits - 1 - i % b.nBits) =
      bit ys i := by
  obtain ⟨hpos, hle, -⟩ := b.nBits_spec
  have hmod : i % b.nBits < b.nBits := Nat.mod_lt _ hpos
  have hi : i / b.nBits * b.nBits + i % b.nBits = i := Nat.div_add_mod' i b.nBits
  by_cases hlt : i / b.nBits < (b.groups ys).length
  · have hget : (b.groups ys)[i / b.nBits]? = some (getBits b.nBits ys (i / b.nBits * b.nBits)) := by
      rw [length_groups] at hlt
      rw [groups, List.getElem?_map, List.getElem?_range hlt, Option.map_some]
    rw [List.getElem?_append_left hlt, hget, Option.getD_some, testBit_getBits hle _ _ hmod, hi]
  · -- a string has no bits behind its last group
    have hbits : 8 * ys.length ≤ i := by
      have hmul := Nat.mul_le_mul_right b.nBits (Nat.le_of_not_lt hlt)
      have hcover := b.bits_le_groups ys
      omega
    rw [bit_of_le hbits, List.getElem?_append_right (Nat.le_of_not_lt hlt), List.getElem?_replicate]
    split <;> exact Nat.zero_testBit _

/-- How far `p` goes on for the text of a block: by the size of a block, less the padding. -/
def advance (size : Nat) : Int :=
  if size = 0 then 0
  else b.decodedBlockSize - ((b.encodedBlockSize - divceil (size * 8) b.nBits : Nat) : Int)

/-- `p` goes on by what was decoded. -/
def Aligned (size : Nat) : Prop := b.advance size = size

instance (size : Nat) : Decidable (b.Aligned size) := inferInstanceAs (Decidable (_ = _))

/-- A whole block has no padding. -/
theorem aligned_block : b.Aligned b.decodedBlockSize := by
  have hpos := b.decodedBlockSize_pos
  rw [Aligned, advance, if_neg (by omega), b.divceil_block, Nat.sub_self]
  exact Int.sub_zero _

/-- **A text is decoded** to its block, with zeros behind it. -/
theorem finishDecode_eq {ys pending : List UInt8} {d : Decoder} {front : List UInt8} {z : Nat}
    (hne : ys ≠ []) (hlen : ys.length ≤ b.decodedBlockSize)
    (hgroups : ∀ v ∈ b.groups ys, v < b.nchars)
    (hpending : pending = b.text ys ∨ pending = b.chars ys)
    (hout : d.out = front ++ List.replicate z 0) (hp : d.p = front.length)
    (hroom : b.decodedBlockSize ≤ z) :
    b.finishDecode pending d = .ok
      { out := front ++ (ys ++ List.replicate (z - ys.length) 0)
        p := front.length + b.advance ys.length } := by
  have hcount := b.length_groups_le hlen
  have hgroups_pos := b.groups_ne_nil hne
  have hfill : pending ++ List.replicate (b.encodedBlockSize - pending.length) b.padding =
      b.text ys := by
    rcases hpending with rfl | rfl
    · rw [b.length_text hlen, Nat.sub_self, List.replicate_zero, List.append_nil]
    · rw [text, chars, List.length_map]
  have hpending_ne : pending ≠ [] := by
    have hchars : (b.chars ys).length = (b.groups ys).length := List.length_map _
    refine List.ne_nil_of_length_pos ?_
    rcases hpending with rfl | rfl
    · rw [text, List.length_append]
      omega
    · omega
  have hwhole : (b.groups ys ++
      List.replicate (b.encodedBlockSize - (b.groups ys).length) 0).length * b.nBits =
      b.decodedBlockSize * 8 := by
    rw [List.length_append, List.length_replicate, Nat.add_sub_cancel' hcount, b.block_bits]
  obtain ⟨out, hset, houtlen, hbit⟩ := b.setAll_spec
    (b.decodeChar_text hgroups (b.encodedBlockSize - (b.groups ys).length)) 0 hp (by
      rw [hwhole, hout, List.length_append, List.length_replicate]
      omega)
  have hresult : out = front ++ (ys ++ List.replicate (z - ys.length) 0) := by
    refine ext_bit ?_ fun j _ => ?_
    · rw [houtlen, hout]
      simp only [List.length_append, List.length_replicate]
      omega
    · rw [hbit, hout, hwhole, bit_append, bit_append, bit_append, bit_replicate_zero,
        bit_replicate_zero]
      by_cases hfront : j < 8 * front.length
      · rw [if_pos hfront, if_pos hfront, decide_eq_false (by omega), Bool.false_and, Bool.or_false]
      · obtain ⟨i, rfl⟩ := Nat.exists_eq_add_of_le (Nat.le_of_not_lt hfront)
        rw [if_neg hfront, if_neg hfront, Bool.false_or, Nat.add_zero, Nat.add_sub_cancel_left,
          b.testBit_groups]
        split
        · -- a bit of the block
          rw [decide_eq_true (by omega), Bool.true_and]
        · rename_i hbehind
          rw [bit_of_le (Nat.le_of_not_lt hbehind), Bool.and_false]
  rw [finishDecode, if_neg hpending_ne]
  dsimp only
  rw [hfill, text, hset, ← text]
  dsimp only [bind, Except.bind]
  rw [b.count_padding_text hgroups, hresult, hp, advance,
    if_neg (Nat.ne_of_gt (List.length_pos_of_ne_nil hne)), length_groups]
  rfl

/-! ## The string -/

/-- **Aligned blocks** are decoded one behind the other. -/
theorem foldlM_finishDecode (blocks : List (List UInt8)) :
    ∀ {d : Decoder} (front : List UInt8) {z : Nat},
      (∀ ys ∈ blocks, ys ≠ [] ∧ ys.length ≤ b.decodedBlockSize ∧ b.Aligned ys.length) →
      (∀ v ∈ blocks.flatMap b.groups, v < b.nchars) →
      d.out = front ++ List.replicate z 0 → d.p = front.length →
      blocks.length * b.decodedBlockSize ≤ z →
      (blocks.map b.text).foldlM (fun d cs => b.finishDecode cs d) d = .ok
        { out := front ++ blocks.flatten ++ List.replicate (z - blocks.flatten.length) 0
          p := (front ++ blocks.flatten).length } := by
  induction blocks with
  | nil =>
    intro d front z _ _ hout hp _
    simp only [List.map_nil, List.foldlM_nil, List.flatten_nil, List.append_nil, List.length_nil,
      Nat.sub_zero, ← hout, ← hp]
    rfl
  | cons ys blocks ih =>
    intro d front z hblocks hgroups hout hp hroom
    obtain ⟨⟨hne, hlen, haligned⟩, hblocks⟩ := List.forall_mem_cons.mp hblocks
    rw [List.flatMap_cons, List.forall_mem_append] at hgroups
    rw [List.length_cons, Nat.succ_mul] at hroom
    have hblock := b.finishDecode_eq hne hlen hgroups.1 (.inl rfl) hout hp (by omega)
    rw [haligned] at hblock
    rw [List.map_cons, List.foldlM_cons, hblock]
    refine (ih (d := ⟨front ++ (ys ++ List.replicate (z - ys.length) 0), front.length + ys.length⟩)
      (front ++ ys) (z := z - ys.length) hblocks hgroups.2
      (List.append_assoc ..).symm (by rw [List.length_append]; rfl) (by omega)).trans ?_
    simp only [List.flatten_cons, List.append_assoc, List.length_append, Nat.sub_sub]

end BaseRaw

theorem length_flatten_le {blocks : List (List UInt8)} {k : Nat}
    (h : ∀ ys ∈ blocks, ys.length ≤ k) : blocks.flatten.length ≤ blocks.length * k := by
  induction blocks with
  | nil => exact Nat.zero_le _
  | cons ys blocks ih =>
    obtain ⟨hys, hblocks⟩ := List.forall_mem_cons.mp h
    have hrest := ih hblocks
    rw [List.flatten_cons, List.length_append, List.length_cons, Nat.succ_mul]
    omega

theorem Decoder.resize_eq_iff {x : List UInt8} {z : Nat} {p : Int} :
    Decoder.resize ⟨x ++ List.replicate z 0, p⟩ = .ok x ↔ p = x.length := by
  rw [Decoder.resize]
  constructor
  · intro h
    split at h
    · rename_i hp
      have hlen := congrArg List.length (Except.ok.inj h)
      dsimp only at hp hlen
      simp only [Base64.resize, List.length_append, List.length_take, List.length_replicate] at hlen
      omega
    · cases h
  · rintro rfl
    dsimp only
    rw [if_pos (Int.natCast_nonneg _), Int.toNat_natCast, BaseRaw.resize_append]

namespace BaseRaw

variable (b : BaseRaw)

/-- What stands behind the last full block fits one block, and is there if there is a last block. -/
theorem length_pending {last pending : List UInt8} (hlast : last.length ≤ b.decodedBlockSize)
    (hpending : last = [] ∧ pending = [] ∨
      last ≠ [] ∧ (pending = b.text last ∨ pending = b.chars last)) :
    pending.length ≤ b.encodedBlockSize ∧ (last ≠ [] → 0 < pending.length) := by
  have hchars : (b.chars last).length = (b.groups last).length := List.length_map _
  constructor
  · rcases hpending with ⟨-, rfl⟩ | ⟨-, rfl | rfl⟩
    · exact Nat.zero_le _
    · exact Nat.le_of_eq (b.length_text hlast)
    · exact hchars ▸ b.length_groups_le hlast
  · intro hne
    have hpos := b.groups_ne_nil hne
    rcases hpending with ⟨hnil, -⟩ | ⟨-, rfl | rfl⟩
    · exact absurd hnil hne
    · rw [b.length_text hlast]
      exact b.encodedBlockSize_pos
    · omega

/-- The string has room for the blocks and the last one. -/
theorem room_for_blocks {k n : Nat} {last pending : List UInt8}
    (hlen : k * b.encodedBlockSize + pending.length ≤ n) (hpos : last ≠ [] → 0 < pending.length) :
    k * b.decodedBlockSize + (if last = [] then 0 else b.decodedBlockSize) ≤ b.decodedSize n := by
  have hm := b.encodedBlockSize_pos
  rw [decodedSize, divceil]
  split
  · refine Nat.mul_le_mul_right _ ((Nat.le_div_iff_mul_le hm).mpr ?_)
    omega
  · rename_i hne
    have hpos := hpos hne
    rw [← Nat.succ_mul]
    refine Nat.mul_le_mul_right _ ((Nat.le_div_iff_mul_le hm).mpr ?_)
    rw [Nat.succ_mul]
    omega

/-- **Decoding** a stream of blocks: aligned ones, and whatever is last. -/
theorem decode_eq (ignoreNonAlphabetChars : Bool) {data : List UInt8}
    {blocks : List (List UInt8)} (last pending : List UInt8)
    (hguard : data.length % b.encodedBlockSize = 0 ∨ b.pad = false ∨ ignoreNonAlphabetChars = true)
    (hdata : (if ignoreNonAlphabetChars then data.filter (fun c => c ∈ b.alphabet ∨ c = b.padding)
      else data) = blocks.flatMap b.text ++ pending)
    (hblocks : ∀ ys ∈ blocks, ys ≠ [] ∧ ys.length ≤ b.decodedBlockSize ∧ b.Aligned ys.length)
    (hlast : last.length ≤ b.decodedBlockSize)
    (hpending : last = [] ∧ pending = [] ∨
      last ≠ [] ∧ (pending = b.text last ∨ pending = b.chars last))
    (hgroups : ∀ v ∈ blocks.flatMap b.groups ++ b.groups last, v < b.nchars) :
    ∃ z, b.decode ignoreNonAlphabetChars data = Decoder.resize
      { out := blocks.flatten ++ last ++ List.replicate z 0
        p := blocks.flatten.length + b.advance last.length } := by
  obtain ⟨hgroups₁, hgroups₂⟩ := List.forall_mem_append.mp hgroups
  have hm := b.encodedBlockSize_pos
  have htexts := b.length_texts fun ys hys => (hblocks ys hys).2.1
  obtain ⟨hpending_le, hpending_pos⟩ := b.length_pending hlast hpending
  have hlen : blocks.length * b.encodedBlockSize + pending.length ≤ data.length := by
    rw [← htexts, ← List.length_append, ← hdata]
    split
    · exact List.length_filter_le _ _
    · exact Nat.le_refl _
  have hroom := b.room_for_blocks (k := blocks.length) hlen hpending_pos
  by_cases hnil : data = []
  · subst hnil
    have hflat : blocks.flatMap b.text ++ pending = [] := by
      rw [← hdata]
      split <;> rfl
    obtain ⟨htext, rfl⟩ := List.append_eq_nil_iff.mp hflat
    have hno : blocks = [] := by
      rw [htext, List.length_nil] at htexts
      exact List.eq_nil_of_length_eq_zero
        ((Nat.mul_eq_zero.mp htexts.symm).resolve_right (Nat.ne_of_gt hm))
    have hlast_nil : last = [] := by
      by_contra hne
      exact Nat.lt_irrefl 0 (hpending_pos hne)
    subst hno hlast_nil
    refine ⟨0, ?_⟩
    rw [decode, List.length_nil, Nat.zero_mod, if_neg (fun h => h.1 rfl), if_pos rfl]
    rfl
  · have hguard' : ¬ (data.length % b.encodedBlockSize ≠ 0 ∧ b.pad = true ∧
        ignoreNonAlphabetChars = false) := by
      rintro ⟨h₁, h₂, h₃⟩
      rcases hguard with h | h | h
      · exact h₁ h
      · rw [h] at h₂
        cases h₂
      · rw [h] at h₃
        cases h₃
    have hall : ∀ cs ∈ blocks.map b.text, cs.length = b.encodedBlockSize := by
      intro cs hcs
      obtain ⟨ys, hys, rfl⟩ := List.mem_map.mp hcs
      exact b.length_text (hblocks ys hys).2.1
    have hfold := b.foldlM_finishDecode blocks
      (d := ⟨List.replicate (b.decodedSize data.length) 0, 0⟩) [] hblocks hgroups₁ rfl rfl
      (by omega)
    rw [decode, if_neg hguard', if_neg hnil]
    dsimp only
    rw [hdata, List.flatMap_def, convert_eq_of_le hm (fun _ => if_pos rfl) hall hpending_le, hfold]
    dsimp only [bind, Except.bind]
    rw [List.nil_append]
    rcases hpending with ⟨rfl, rfl⟩ | ⟨hne, hpending⟩
    · refine ⟨b.decodedSize data.length - blocks.flatten.length, ?_⟩
      rw [finishDecode, if_pos rfl, List.append_nil]
      rfl
    · have hflat := length_flatten_le fun ys hys => (hblocks ys hys).2.1
      rw [if_neg hne] at hroom
      refine ⟨b.decodedSize data.length - blocks.flatten.length - last.length, ?_⟩
      rw [b.finishDecode_eq hne hlast hgroups₂ hpending rfl rfl (by omega), List.append_assoc]

end BaseRaw

end Primitives.Base64
