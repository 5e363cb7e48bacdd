import Primitives.Base64.Window

/-!
# Base encodings — what is encoded

A string is cut into blocks (`exists_blocks`), and the converter finishes one block after another
(`convert_eq`). A block becomes its text, one character for each group and padding up to a whole
block of characters, if every group is the index of a character; so does the string, block by block
(`encode_eq`).
-/

set_option autoImplicit false

namespace Primitives.Base64

open Lib

/-! ## Blocks -/

/-- Blocks of one size, and a shorter rest. -/
theorem exists_blocks {k : Nat} (hk : 0 < k) (x : List UInt8) :
    ∃ (blocks : List (List UInt8)) (last : List UInt8), x = blocks.flatten ++ last ∧
      (∀ ys ∈ blocks, ys.length = k) ∧ last.length < k := by
  induction hlen : x.length using Nat.strong_induction_on generalizing x with
  | _ len ih =>
    rcases Nat.lt_or_ge x.length k with hlt | hge
    · exact ⟨[], x, rfl, by simp, hlt⟩
    · obtain ⟨blocks, last, hx, hblocks, hlast⟩ :=
        ih (x.drop k).length (by rw [List.length_drop]; omega) (x.drop k) rfl
      refine ⟨x.take k :: blocks, last, ?_, ?_, hlast⟩
      · rw [List.flatten_cons, List.append_assoc, ← hx, List.take_append_drop]
      · exact List.forall_mem_cons.mpr ⟨List.length_take_of_le hge, hblocks⟩

section

variable {σ : Type} {size : Nat} {finish : List UInt8 → σ → Except Failure σ}

/-- A block that is not full is only collected. -/
theorem foldlM_add_of_lt {cs : List UInt8} :
    ∀ (data : List UInt8) (out : σ), data.length + cs.length < size →
      cs.foldlM (add size finish) (data, out) = .ok (data ++ cs, out) := by
  induction cs with
  | nil =>
    intro data out _
    rw [List.append_nil]
    rfl
  | cons c cs ih =>
    intro data out hlt
    rw [List.length_cons] at hlt
    have hadd : add size finish (data, out) c = .ok (data ++ [c], out) := by
      have hmod : (data ++ [c]).length % size ≠ 0 := by
        rw [List.length_append, List.length_singleton, Nat.mod_eq_of_lt (by omega)]
        exact Nat.succ_ne_zero _
      rw [add, if_neg hmod]
      rfl
    rw [List.foldlM_cons, hadd]
    have hrest := ih (data ++ [c]) out (by
      rw [List.length_append, List.length_singleton]
      omega)
    rw [List.append_assoc] at hrest
    exact hrest

/-- A full block is converted. -/
theorem foldlM_add_block {ys : List UInt8} {out : σ} (hsize : 0 < size) (h : ys.length = size) :
    ys.foldlM (add size finish) ([], out) = (finish ys out).map fun out => ([], out) := by
  obtain ⟨cs, c, rfl⟩ : ∃ cs c, ys = cs ++ [c] := by
    rcases List.eq_nil_or_concat ys with rfl | ⟨cs, c, rfl⟩
    · rw [List.length_nil] at h
      omega
    · exact ⟨cs, c, List.concat_eq_append⟩
  rw [List.length_append, List.length_singleton] at h
  rw [List.foldlM_append, foldlM_add_of_lt [] _ (by rw [List.length_nil]; omega)]
  have hmod : (cs ++ [c]).length % size = 0 := by
    rw [List.length_append, List.length_singleton, h, Nat.mod_self]
  simp only [bind, Except.bind, List.nil_append, List.foldlM_cons, List.foldlM_nil, add, if_pos hmod]
  cases finish (cs ++ [c]) out <;> rfl

/-- **The converter** finishes one block after another, and then the rest. -/
theorem convert_eq {blocks : List (List UInt8)} {last : List UInt8} (hsize : 0 < size)
    (hblocks : ∀ ys ∈ blocks, ys.length = size) (hlast : last.length < size) :
    ∀ {out : σ}, convert size finish (blocks.flatten ++ last) out =
      (do let out ← blocks.foldlM (fun out ys => finish ys out) out
          finish last out) := by
  induction blocks with
  | nil =>
    intro out
    rw [convert, List.flatten_nil, List.nil_append,
      foldlM_add_of_lt [] _ (by rw [List.length_nil]; omega), List.nil_append]
    rfl
  | cons ys blocks ih =>
    intro out
    obtain ⟨hys, hblocks⟩ := List.forall_mem_cons.mp hblocks
    rw [convert, List.flatten_cons, List.append_assoc, List.foldlM_append,
      foldlM_add_block hsize hys, List.foldlM_cons]
    cases hfinish : finish ys out with
    | error e => rfl
    | ok out' => exact ih hblocks

/-- The rest may be a full block too: then nothing is left for the last `finish`. -/
theorem convert_eq_of_le {blocks : List (List UInt8)} {last : List UInt8} (hsize : 0 < size)
    (hnil : ∀ out, finish [] out = .ok out) (hblocks : ∀ ys ∈ blocks, ys.length = size)
    (hlast : last.length ≤ size) {out : σ} :
    convert size finish (blocks.flatten ++ last) out =
      (do let out ← blocks.foldlM (fun out ys => finish ys out) out
          finish last out) := by
  rcases Nat.lt_or_eq_of_le hlast with hlt | heq
  · exact convert_eq hsize hblocks hlt
  · have hall : ∀ ys ∈ blocks ++ [last], ys.length = size :=
      List.forall_mem_append.mpr ⟨hblocks, List.forall_mem_singleton.mpr heq⟩
    have hconvert : convert size finish ((blocks ++ [last]).flatten ++ []) out = _ :=
      convert_eq hsize hall (by rw [List.length_nil]; exact hsize)
    rw [List.flatten_append, List.flatten_singleton, List.append_nil, List.foldlM_append] at hconvert
    rw [hconvert]
    dsimp only [bind, Except.bind]
    cases blocks.foldlM (fun out ys => finish ys out) out with
    | error e => rfl
    | ok out' =>
      have hone : [last].foldlM (fun out ys => finish ys out) out' = finish last out' := by
        rw [List.foldlM_cons]
        cases finish last out' <;> rfl
      dsimp only
      rw [hone]
      cases hfinish : finish last out' with
      | error e => rfl
      | ok out'' => exact hnil out''

end

/-! ## Sizes -/

namespace BaseRaw

variable (b : BaseRaw)

theorem nBits_spec : 0 < b.nBits ∧ b.nBits ≤ 8 ∧ b.nchars ≤ 2 ^ b.nBits := by
  have hsome : ((List.range 9).find? fun n => b.nchars ≤ 2 ^ n).isSome = true := by
    rw [List.find?_isSome]
    refine ⟨8, by simp, decide_eq_true ?_⟩
    have hle := b.size.2
    rw [nchars]
    omega
  obtain ⟨n, hn⟩ := Option.isSome_iff_exists.mp hsome
  have hnBits : b.nBits = n := by rw [nBits, hn, Option.getD_some]
  have hle : b.nchars ≤ 2 ^ n := by
    have h := List.find?_some hn
    exact of_decide_eq_true h
  have hlt : n < 9 := List.mem_range.mp (List.mem_of_find?_eq_some hn)
  have hpos : n ≠ 0 := by
    rintro rfl
    have htwo := b.size.1
    rw [nchars] at hle
    omega
  rw [hnBits]
  exact ⟨Nat.pos_of_ne_zero hpos, Nat.le_of_lt_succ hlt, hle⟩

/-- A block holds a whole number of groups. -/
theorem block_bits : b.decodedBlockSize * 8 = b.encodedBlockSize * b.nBits := by
  rw [decodedBlockSize, encodedBlockSize, Nat.div_mul_cancel (Nat.dvd_lcm_left _ _),
    Nat.div_mul_cancel (Nat.dvd_lcm_right _ _)]

theorem lcm_pos : 0 < Nat.lcm 8 b.nBits := Nat.lcm_pos (by decide) b.nBits_spec.1

theorem decodedBlockSize_pos : 0 < b.decodedBlockSize :=
  Nat.div_pos (Nat.le_of_dvd b.lcm_pos (Nat.dvd_lcm_left _ _)) (by decide)

theorem encodedBlockSize_pos : 0 < b.encodedBlockSize :=
  Nat.div_pos (Nat.le_of_dvd b.lcm_pos (Nat.dvd_lcm_right _ _)) b.nBits_spec.1

/-! ## Groups and texts -/

/-- The groups that a string is read in, the last one filled up with zeros. -/
def groups (x : List UInt8) : List Nat :=
  (List.range (divceil (x.length * 8) b.nBits)).map fun i => getBits b.nBits x (i * b.nBits)

theorem length_groups (x : List UInt8) :
    (b.groups x).length = divceil (x.length * 8) b.nBits := by
  rw [groups, List.length_map, List.length_range]

/-- A block is read in as many groups as it has characters. -/
theorem divceil_block : divceil (b.decodedBlockSize * 8) b.nBits = b.encodedBlockSize := by
  obtain ⟨hpos, -, -⟩ := b.nBits_spec
  rw [divceil, b.block_bits, Nat.mul_comm, Nat.add_sub_assoc hpos, Nat.mul_add_div hpos,
    Nat.div_eq_of_lt (Nat.sub_lt hpos Nat.one_pos), Nat.add_zero]

theorem groups_append {ys : List UInt8} (rest : List UInt8) (h : ys.length = b.decodedBlockSize) :
    b.groups (ys ++ rest) = b.groups ys ++ b.groups rest := by
  obtain ⟨hpos, hle, -⟩ := b.nBits_spec
  have hbits := b.block_bits
  have hcount : divceil ((ys ++ rest).length * 8) b.nBits =
      b.encodedBlockSize + divceil (rest.length * 8) b.nBits := by
    have hlen : (ys ++ rest).length * 8 + b.nBits - 1 =
        b.nBits * b.encodedBlockSize + (rest.length * 8 + b.nBits - 1) := by
      rw [List.length_append, h, Nat.mul_comm b.nBits]
      omega
    rw [divceil, hlen, Nat.mul_add_div hpos]
    rfl
  have hys : divceil (ys.length * 8) b.nBits = b.encodedBlockSize := by
    rw [h, b.divceil_block]
  rw [groups, hcount, List.range_add, List.map_append, groups, hys, groups, List.map_map]
  congr 1
  · refine List.map_congr_left fun i hi => getBits_congr hpos hle fun t ht => ?_
    have hlt : i * b.nBits + t < 8 * ys.length := by
      have hmul := Nat.mul_le_mul_right b.nBits (List.mem_range.mp hi)
      rw [Nat.succ_mul] at hmul
      omega
    rw [bit_append, if_pos hlt]
  · refine List.map_congr_left fun i hi => getBits_congr hpos hle fun t ht => ?_
    have hge : (b.encodedBlockSize + i) * b.nBits + t = 8 * ys.length + (i * b.nBits + t) := by
      rw [Nat.add_mul, ← hbits, h]
      omega
    rw [bit_append, hge, if_neg (by omega), Nat.add_sub_cancel_left]

/-- The character of a group. -/
def char (v : Nat) : UInt8 := b.alphabet[v]?.getD 0

/-- The text of a block, without its padding and with it. -/
def chars (ys : List UInt8) : List UInt8 := (b.groups ys).map b.char

def text (ys : List UInt8) : List UInt8 :=
  b.chars ys ++ List.replicate (b.encodedBlockSize - (b.groups ys).length) b.padding

theorem length_groups_le {ys : List UInt8} (h : ys.length ≤ b.decodedBlockSize) :
    (b.groups ys).length ≤ b.encodedBlockSize := by
  rw [length_groups, ← divceil_block]
  exact Nat.div_le_div_right (by omega)

theorem length_text {ys : List UInt8} (h : ys.length ≤ b.decodedBlockSize) :
    (b.text ys).length = b.encodedBlockSize := by
  have hle := b.length_groups_le h
  rw [text, chars, List.length_append, List.length_map, List.length_replicate]
  omega

/-! ## One block -/

theorem symbol_of_lt {v : Nat} (h : v < b.nchars) : b.symbol v = .ok (b.char v) := by
  have hget : (b.alphabet ++ [0])[v]? = some (b.char v) := by
    rw [List.getElem?_append_left h, char, List.getElem?_eq_getElem h, Option.getD_some]
  rw [symbol, hget]

end BaseRaw

/-- What a run of stores at `p` leaves. -/
def Encoder.stored (e : Encoder) (front back cs : List UInt8) (reads : List Nat) : Encoder :=
  { out := front ++ (cs ++ back.drop cs.length), p := e.p + cs.length, reads := e.reads ++ reads }

theorem put_eq {e : Encoder} {front back : List UInt8} (hout : e.out = front ++ back)
    (hp : e.p = front.length) (hback : back ≠ []) (c : UInt8) :
    e.put c = .ok (e.stored front back [c] []) := by
  obtain ⟨x, back, rfl⟩ := List.exists_cons_of_ne_nil hback
  have hlt : e.p < e.out.length := by
    rw [hout, hp, List.length_append, List.length_cons]
    omega
  rw [Encoder.put, if_pos hlt, Encoder.stored, List.append_nil, hout, hp,
    List.set_append_right _ _ (Nat.le_refl _), Nat.sub_self]
  rfl

/-- One store, and then a run of them. -/
theorem stored_cons {e e' : Encoder} {front back cs : List UInt8} {c : UInt8}
    {reads reads' : List Nat} (he : e' = e.stored front back [c] reads) :
    e'.stored (front ++ [c]) (back.drop 1) cs reads' =
      e.stored front back (c :: cs) (reads ++ reads') := by
  subst he
  simp only [Encoder.stored, List.append_assoc, List.cons_append, List.nil_append, List.length_cons,
    List.length_nil, List.drop_drop, Encoder.mk.injEq, and_true]
  refine ⟨?_, ?_⟩
  · rw [Nat.add_comm (0 + 1), Nat.zero_add]
  · omega

theorem foldlM_put (cs : List UInt8) : ∀ (e : Encoder) (front back : List UInt8),
    e.out = front ++ back → e.p = front.length → cs.length ≤ back.length →
    cs.foldlM Encoder.put e = .ok (e.stored front back cs []) := by
  induction cs with
  | nil =>
    intro e front back hout _ _
    have hstored : e.stored front back [] [] = e := by
      simp [Encoder.stored, ← hout]
    rw [hstored]
    rfl
  | cons c cs ih =>
    intro e front back hout hp hlen
    rw [List.length_cons] at hlen
    have hback : back ≠ [] := List.ne_nil_of_length_pos (by omega)
    rw [List.foldlM_cons, put_eq hout hp hback c]
    have hnext := ih (e.stored front back [c] []) (front ++ [c]) (back.drop 1) (by simp [Encoder.stored]) (by simp [Encoder.stored, hp]) (by rw [List.length_drop]; omega)
    rw [stored_cons rfl] at hnext
    exact hnext

namespace BaseRaw

variable (b : BaseRaw)

theorem foldlM_putSymbol (vs : List Nat) : ∀ (e : Encoder) (front back : List UInt8),
    (∀ v ∈ vs, v < b.nchars) → e.out = front ++ back → e.p = front.length →
    vs.length ≤ back.length →
    vs.foldlM b.putSymbol e = .ok (e.stored front back (vs.map b.char) vs) := by
  induction vs with
  | nil =>
    intro e front back _ hout _ _
    have hstored : e.stored front back [] [] = e := by
      simp [Encoder.stored, ← hout]
    rw [List.map_nil, hstored]
    rfl
  | cons v vs ih =>
    intro e front back hvs hout hp hlen
    obtain ⟨hv, hvs⟩ := List.forall_mem_cons.mp hvs
    rw [List.length_cons] at hlen
    have hback : back ≠ [] := List.ne_nil_of_length_pos (by omega)
    have hput : b.putSymbol e v = .ok (e.stored front back [b.char v] [v]) := by
      rw [putSymbol, b.symbol_of_lt hv]
      refine (put_eq (e := { e with reads := e.reads ++ [v] }) hout hp hback _).trans ?_
      rw [Encoder.stored, Encoder.stored, List.append_nil]
    rw [List.foldlM_cons, hput]
    have hnext := ih (e.stored front back [b.char v] [v]) (front ++ [b.char v]) (back.drop 1) hvs
      (by simp [Encoder.stored]) (by simp [Encoder.stored, hp])
      (by rw [List.length_drop]; omega)
    rw [stored_cons rfl] at hnext
    exact hnext

/-- Zeros behind a block are no new bits. -/
theorem getBits_zeros {ys : List UInt8} {z start : Nat} :
    getBits b.nBits (ys ++ List.replicate z 0) start = getBits b.nBits ys start := by
  obtain ⟨hpos, hle, -⟩ := b.nBits_spec
  refine getBits_congr hpos hle fun i _ => ?_
  rw [bit_append]
  split
  · rfl
  · rw [bit_replicate_zero, bit_of_le (by omega)]

/-- **A block is encoded** as its text, and `p` goes on behind the characters. -/
theorem finishEncode_eq {ys : List UInt8} {e : Encoder} {front back : List UInt8} (hne : ys ≠ [])
    (hlen : ys.length ≤ b.decodedBlockSize) (hgroups : ∀ v ∈ b.groups ys, v < b.nchars)
    (hout : e.out = front ++ back) (hp : e.p = front.length)
    (hroom : b.encodedBlockSize ≤ back.length) :
    b.finishEncode ys e = .ok
      { out := front ++ (b.text ys ++ back.drop b.encodedBlockSize)
        p := e.p + (b.groups ys).length
        reads := e.reads ++ b.groups ys } := by
  have hle := b.length_groups_le hlen
  have hwindows : (List.range (divceil (ys.length * 8) b.nBits)).map (fun i =>
      getBits b.nBits (ys ++ List.replicate (b.decodedBlockSize - ys.length) 0) (i * b.nBits)) =
      b.groups ys := List.map_congr_left fun i _ => b.getBits_zeros
  have hchars := b.foldlM_putSymbol (b.groups ys) e front back hgroups hout hp (by omega)
  have hpads := foldlM_put (List.replicate (b.encodedBlockSize - (b.groups ys).length) b.padding)
    (e.stored front back (b.chars ys) (b.groups ys)) (front ++ b.chars ys)
    (back.drop (b.groups ys).length) (by simp [Encoder.stored, chars])
    (by simp [Encoder.stored, hp, chars]) (by rw [List.length_replicate, List.length_drop]; omega)
  rw [finishEncode, if_neg hne]
  dsimp only
  rw [hwindows, hchars, ← length_groups, ← chars]
  dsimp only [bind, Except.bind]
  rw [hpads]
  simp only [pure, Except.pure, Encoder.stored, text, List.append_assoc, List.drop_drop,
    List.length_replicate, chars, List.length_map, List.append_nil, Nat.add_sub_cancel' hle]

/-! ## The string -/

theorem groups_nil : b.groups [] = [] := by
  obtain ⟨hpos, -, -⟩ := b.nBits_spec
  have hzero : divceil (([] : List UInt8).length * 8) b.nBits = 0 := by
    rw [divceil, List.length_nil, Nat.zero_mul, Nat.zero_add]
    exact Nat.div_eq_of_lt (Nat.sub_lt hpos Nat.one_pos)
  rw [groups, hzero]
  rfl

theorem groups_flatten {blocks : List (List UInt8)} {last : List UInt8}
    (h : ∀ ys ∈ blocks, ys.length = b.decodedBlockSize) :
    b.groups (blocks.flatten ++ last) = blocks.flatMap b.groups ++ b.groups last := by
  induction blocks with
  | nil => rfl
  | cons ys blocks ih =>
    obtain ⟨hys, hblocks⟩ := List.forall_mem_cons.mp h
    rw [List.flatten_cons, List.append_assoc, b.groups_append _ hys, ih hblocks,
      List.flatMap_cons, List.append_assoc]

/-- What is written for the rest of a string: nothing, or its text, padded if the encoding pads. -/
def ending (last : List UInt8) : List UInt8 :=
  if last = [] then [] else if b.pad then b.text last else b.chars last

theorem foldlM_finishEncode (blocks : List (List UInt8)) :
    ∀ (e : Encoder) (front back : List UInt8),
      (∀ ys ∈ blocks, ys.length = b.decodedBlockSize) →
      (∀ v ∈ blocks.flatMap b.groups, v < b.nchars) → e.out = front ++ back →
      e.p = front.length → blocks.length * b.encodedBlockSize ≤ back.length →
      blocks.foldlM (fun e ys => b.finishEncode ys e) e = .ok
        { out := front ++ (blocks.flatMap b.text ++ back.drop (blocks.length * b.encodedBlockSize))
          p := e.p + blocks.length * b.encodedBlockSize
          reads := e.reads ++ blocks.flatMap b.groups } := by
  induction blocks with
  | nil =>
    intro e front back _ _ hout _ _
    simp only [List.foldlM_nil, List.length_nil, Nat.zero_mul, List.drop_zero, List.flatMap_nil,
      List.nil_append, Nat.add_zero, List.append_nil, ← hout]
    rfl
  | cons ys blocks ih =>
    intro e front back hblocks hgroups hout hp hroom
    obtain ⟨hys, hblocks⟩ := List.forall_mem_cons.mp hblocks
    rw [List.flatMap_cons, List.forall_mem_append] at hgroups
    rw [List.length_cons, Nat.succ_mul] at hroom
    have hpos := b.decodedBlockSize_pos
    have hne : ys ≠ [] := List.ne_nil_of_length_pos (by omega)
    have htext := b.length_text (Nat.le_of_eq hys)
    have hcount : (b.groups ys).length = b.encodedBlockSize := by
      rw [length_groups, hys, divceil_block]
    have hblock := b.finishEncode_eq hne (Nat.le_of_eq hys) hgroups.1 hout hp (by omega)
    rw [hcount] at hblock
    have hrest := ih
      { out := front ++ (b.text ys ++ back.drop b.encodedBlockSize)
        p := e.p + b.encodedBlockSize
        reads := e.reads ++ b.groups ys }
      (front ++ b.text ys) (back.drop b.encodedBlockSize) hblocks hgroups.2
      (List.append_assoc ..).symm (by rw [List.length_append, htext, hp])
      (by rw [List.length_drop]; omega)
    rw [List.foldlM_cons, hblock]
    refine hrest.trans ?_
    simp only [List.append_assoc, List.drop_drop, List.flatMap_cons, List.length_cons, Nat.succ_mul,
      Except.ok.injEq, Encoder.mk.injEq, and_true]
    refine ⟨?_, ?_⟩
    · rw [Nat.add_comm b.encodedBlockSize]
    · omega

theorem divceil_blocks {k q r : Nat} (hr : r < k) :
    divceil (q * k + r) k = q + if r = 0 then 0 else 1 := by
  have hk : 0 < k := Nat.lt_of_le_of_lt (Nat.zero_le r) hr
  have hsum : q * k + r + k - 1 = k * q + (r + k - 1) := by
    rw [Nat.mul_comm]
    omega
  rw [divceil, hsum, Nat.mul_add_div hk]
  split
  · rename_i hzero
    rw [hzero, Nat.zero_add, Nat.div_eq_of_lt (Nat.sub_lt hk Nat.one_pos)]
  · rename_i hpos
    have hone : (r + k - 1) / k = 1 := by
      rw [Nat.div_eq_iff hk]
      omega
    rw [hone]

theorem length_flatten_of {blocks : List (List UInt8)} {k : Nat}
    (h : ∀ ys ∈ blocks, ys.length = k) : blocks.flatten.length = blocks.length * k := by
  rw [List.length_flatten, List.map_eq_replicate_iff.mpr h, List.sum_replicate_nat]

theorem length_texts {blocks : List (List UInt8)}
    (h : ∀ ys ∈ blocks, ys.length ≤ b.decodedBlockSize) :
    (blocks.flatMap b.text).length = blocks.length * b.encodedBlockSize := by
  have hall : ∀ t ∈ blocks.map b.text, t.length = b.encodedBlockSize := by
    intro t ht
    obtain ⟨ys, hys, rfl⟩ := List.mem_map.mp ht
    exact b.length_text (h ys hys)
  rw [List.flatMap_def, length_flatten_of hall, List.length_map]

theorem resize_append (xs ys : List UInt8) : resize (xs ++ ys) xs.length = xs := by
  rw [resize, List.take_left, List.length_append, Nat.sub_eq_zero_of_le (Nat.le_add_right _ _),
    List.replicate_zero, List.append_nil]

/-- The converter on a whole string, with room for its text. -/
theorem convert_finishEncode {blocks : List (List UInt8)} {last : List UInt8} {size : Nat}
    (hblocks : ∀ ys ∈ blocks, ys.length = b.decodedBlockSize)
    (hlast : last.length < b.decodedBlockSize)
    (hgroups : ∀ v ∈ blocks.flatMap b.groups ++ b.groups last, v < b.nchars)
    (hsize : size = blocks.length * b.encodedBlockSize +
      if last = [] then 0 else b.encodedBlockSize) :
    convert b.decodedBlockSize b.finishEncode (blocks.flatten ++ last)
        ⟨List.replicate size 0, 0, []⟩ = .ok
      { out := blocks.flatMap b.text ++ if last = [] then [] else b.text last
        p := blocks.length * b.encodedBlockSize + (b.groups last).length
        reads := blocks.flatMap b.groups ++ b.groups last } := by
  obtain ⟨hgroups₁, hgroups₂⟩ := List.forall_mem_append.mp hgroups
  have htexts := b.length_texts fun ys hys => Nat.le_of_eq (hblocks ys hys)
  have hfold := b.foldlM_finishEncode blocks ⟨List.replicate size 0, 0, []⟩ []
    (List.replicate size 0) hblocks hgroups₁ rfl rfl (by rw [List.length_replicate]; omega)
  rw [convert_eq b.decodedBlockSize_pos hblocks hlast, hfold]
  dsimp only [bind, Except.bind]
  rw [List.drop_replicate, hsize, Nat.add_sub_cancel_left, List.nil_append, List.nil_append,
    Nat.zero_add]
  by_cases hend : last = []
  · rw [if_pos hend, if_pos hend, hend, groups_nil, finishEncode, if_pos rfl]
    simp
  · rw [if_neg hend, if_neg hend]
    have hblock := b.finishEncode_eq
      (e := ⟨blocks.flatMap b.text ++ List.replicate b.encodedBlockSize 0,
        blocks.length * b.encodedBlockSize, blocks.flatMap b.groups⟩)
      hend (Nat.le_of_lt hlast) hgroups₂ rfl htexts.symm
      (by rw [List.length_replicate])
    rw [hblock]
    simp

/-- **A string is encoded**, block by block, if all its groups are indices of characters. -/
theorem encode_eq {blocks : List (List UInt8)} {last : List UInt8}
    (hblocks : ∀ ys ∈ blocks, ys.length = b.decodedBlockSize)
    (hlast : last.length < b.decodedBlockSize)
    (hgroups : ∀ v ∈ b.groups (blocks.flatten ++ last), v < b.nchars) :
    ∃ p, b.encode (blocks.flatten ++ last) = .ok
      { out := blocks.flatMap b.text ++ b.ending last
        p := p
        reads := b.groups (blocks.flatten ++ last) } := by
  rw [b.groups_flatten hblocks] at hgroups ⊢
  by_cases hnil : blocks.flatten ++ last = []
  · obtain ⟨hflat, rfl⟩ := List.append_eq_nil_iff.mp hnil
    have hno : blocks = [] := by
      have hlen := length_flatten_of hblocks
      rw [hflat] at hlen
      have hzero := Nat.mul_eq_zero.mp hlen.symm
      exact List.eq_nil_of_length_eq_zero (hzero.resolve_right (Nat.ne_of_gt b.decodedBlockSize_pos))
    subst hno
    refine ⟨0, ?_⟩
    rw [encode, if_pos hnil, ending, if_pos rfl, groups_nil]
    rfl
  · have hsize : b.encodedSize (blocks.flatten ++ last).length =
        blocks.length * b.encodedBlockSize + if last = [] then 0 else b.encodedBlockSize := by
      rw [encodedSize, List.length_append, length_flatten_of hblocks, divceil_blocks hlast,
        Nat.add_mul]
      simp only [List.length_eq_zero_iff]
      split <;> simp
    have htexts := b.length_texts fun ys hys => Nat.le_of_eq (hblocks ys hys)
    have hconvert := b.convert_finishEncode hblocks hlast hgroups hsize
    refine ⟨blocks.length * b.encodedBlockSize + (b.groups last).length, ?_⟩
    rw [encode, if_neg hnil]
    dsimp only [bind, Except.bind]
    rw [hconvert]
    dsimp only
    cases hpad : b.pad with
    | true =>
      rw [if_pos rfl, ending, hpad]
      rfl
    | false =>
      have hcut : resize (blocks.flatMap b.text ++ if last = [] then [] else b.text last)
          (blocks.length * b.encodedBlockSize + (b.groups last).length) =
          blocks.flatMap b.text ++ b.ending last := by
        rw [ending, hpad, ← htexts]
        by_cases hend : last = []
        · rw [if_pos hend, if_pos hend, hend, groups_nil]
          simpa using resize_append (blocks.flatMap b.text) []
        · have hlen : (blocks.flatMap b.text).length + (b.groups last).length =
              (blocks.flatMap b.text ++ b.chars last).length := by
            rw [List.length_append, chars, List.length_map]
          rw [if_neg hend, if_neg hend, if_neg Bool.false_ne_true, text, ← List.append_assoc, hlen]
          exact resize_append _ _
      rw [if_neg Bool.false_ne_true, hcut]
      rfl

/-! ## What is read of the alphabet -/

/-- Steps each of which adds to the record of what was read. -/
theorem reads_foldlM {α : Type} {f : Encoder → α → Except Failure Encoder} {g : α → List Nat}
    (hf : ∀ e x e', f e x = .ok e' → e'.reads = e.reads ++ g x) (xs : List α) :
    ∀ e e', xs.foldlM f e = .ok e' → e'.reads = e.reads ++ xs.flatMap g := by
  induction xs with
  | nil =>
    intro e e' h
    cases h
    exact (List.append_nil _).symm
  | cons x xs ih =>
    intro e e' h
    rw [List.foldlM_cons] at h
    cases hx : f e x with
    | error err =>
      rw [hx] at h
      cases h
    | ok e₁ =>
      rw [hx] at h
      rw [ih e₁ e' h, hf e x e₁ hx, List.append_assoc, List.flatMap_cons]

theorem reads_put {e e' : Encoder} {c : UInt8} (h : e.put c = .ok e') : e'.reads = e.reads := by
  unfold Encoder.put at h
  split at h <;> cases h
  rfl

theorem reads_putSymbol {e e' : Encoder} {v : Nat} (h : b.putSymbol e v = .ok e') :
    e'.reads = e.reads ++ [v] := by
  rw [putSymbol] at h
  cases hc : b.symbol v with
  | error err =>
    rw [hc] at h
    cases h
  | ok c =>
    rw [hc] at h
    exact reads_put h

theorem reads_finishEncode {ys : List UInt8} {e e' : Encoder} (h : b.finishEncode ys e = .ok e') :
    e'.reads = e.reads ++ b.groups ys := by
  rw [finishEncode] at h
  split at h
  · rename_i hnil
    cases h
    rw [hnil, groups_nil, List.append_nil]
  · have hwindows : (List.range (divceil (ys.length * 8) b.nBits)).map (fun i =>
        getBits b.nBits (ys ++ List.replicate (b.decodedBlockSize - ys.length) 0) (i * b.nBits)) =
        b.groups ys := List.map_congr_left fun i _ => b.getBits_zeros
    dsimp only at h
    rw [hwindows] at h
    cases h₁ : (b.groups ys).foldlM b.putSymbol e with
    | error err =>
      rw [h₁] at h
      cases h
    | ok e₁ =>
      rw [h₁] at h
      dsimp only [bind, Except.bind] at h
      split at h
      · cases h
      · rename_i e₂ h₂
        cases h
        have hsymbols := reads_foldlM (f := b.putSymbol) (g := fun v => [v])
          (fun _ _ _ => b.reads_putSymbol) _ e e₁ h₁
        have hpads := reads_foldlM (f := Encoder.put) (g := fun _ => [])
          (fun _ _ _ h => (reads_put h).trans (List.append_nil _).symm) _ e₁ e₂ h₂
        rw [List.flatMap_singleton'] at hsymbols
        rw [hpads, hsymbols]
        simp

/-- **The alphabet is read** at the groups of the string, whatever they are. -/
theorem reads_encode {x : List UInt8} {e : Encoder} (h : b.encode x = .ok e) :
    e.reads = b.groups x := by
  rw [encode] at h
  split at h
  · rename_i hnil
    cases h
    rw [hnil, groups_nil]
  · obtain ⟨blocks, last, rfl, hblocks, hlast⟩ := exists_blocks b.decodedBlockSize_pos x
    rw [b.groups_flatten hblocks]
    dsimp only at h
    rw [convert_eq b.decodedBlockSize_pos hblocks hlast] at h
    dsimp only [bind, Except.bind] at h
    split at h
    · cases h
    · rename_i e₂ hconvert
      split at hconvert
      · cases hconvert
      · rename_i e₁ hfold
        have hblocks := reads_foldlM (f := fun e ys => b.finishEncode ys e) (g := b.groups)
          (fun _ _ _ => b.reads_finishEncode) _ _ e₁ hfold
        rw [List.nil_append] at hblocks
        have hreads : e₂.reads = blocks.flatMap b.groups ++ b.groups last := by
          rw [b.reads_finishEncode hconvert, hblocks]
        split at h <;> cases h <;> exact hreads

end BaseRaw

end Primitives.Base64
