import Primitives.BinaryStream.Model

/-!
# Binary streams — what is written is read

The items that are written to a new stream are read again, in order, after `seek(0)`
(`read_write`). Before the first write a stream has no buffer, and `seek` throws: with no items at
all there is nothing to go back to (`seek_default`).

`Written` is the state of the stream between two writes, `At` the one between two reads.
-/

set_option autoImplicit false

namespace Primitives.BinaryStream

open Lib

/-- What a stream takes: the bytes of a value whose size is not zero, or a text without a zero in
it. -/
inductive Item where
  | typed (bytes : List UInt8) (hne : bytes ≠ [])
  | string (text : List UInt8) (hzero : 0 ∉ text)

namespace Item

/-- The bytes that stand in the buffer. -/
def encode : Item → List UInt8
  | typed bytes _ => bytes
  | string text _ => text ++ [0]

/-- The value that is read: the object's bytes, or the text. -/
def value : Item → List UInt8
  | typed bytes _ => bytes
  | string text _ => text

def write (grow : Nat → Nat → Nat) (h : Heap) (s : Stream) :
    Item → Except Failure (Heap × Stream × Access)
  | typed bytes _ => s.write grow h bytes
  | string text _ => s.writeString grow h text

/-- The read that goes with an item. -/
def read (h : Heap) (s : Stream) : Item → Except Failure (Stream × List UInt8 × Access)
  | typed bytes _ => s.read h bytes.length 0
  | string _ _ => s.readString h

theorem encode_ne_nil (item : Item) : item.encode ≠ [] := by
  cases item with
  | typed bytes hne => exact hne
  | string text hzero => simp [encode]

end Item

def writeAll (grow : Nat → Nat → Nat) :
    Heap → Stream → List Item → Except Failure (Heap × Stream)
  | h, s, [] => .ok (h, s)
  | h, s, item :: items => do
    let (h, s, _) ← item.write grow h s
    writeAll grow h s items

def readAll (h : Heap) : Stream → List Item → Except Failure (Stream × List (List UInt8))
  | s, [] => .ok (s, [])
  | s, item :: items => do
    let (s, value, _) ← item.read h s
    let (s, values) ← readAll h s items
    return (s, value :: values)

/-- The bytes of all items. -/
def encodeAll (items : List Item) : List UInt8 := (items.map Item.encode).flatten

/-! ## Positions -/

theorem toInt_of_lt {n : Nat} (h : n < 2 ^ 31) : toInt n = n := by
  unfold toInt
  rw [Int.bmod_eq_of_le] <;> omega

/-- The stream is the only one on the only buffer, which holds `pre`, and stands at its end. -/
structure Written (h : Heap) (s : Stream) (pre : List UInt8) : Prop where
  heap : ∃ b, h = [b] ∧ b.bytes = pre
  buf : s.buf = some 0
  index : s.index = pre.length
  end_ : s.end_ = pre.length

/-- The stream stands at a byte of the only buffer, and its pointer too. -/
structure At (h : Heap) (s : Stream) (all : List UInt8) (i : Nat) : Prop where
  heap : ∃ b, h = [b] ∧ b.bytes = all ∧ s.ptr = some ⟨b.gen, i⟩
  buf : s.buf = some 0
  index : s.index = i
  end_ : s.end_ = all.length

/-- The stream was moved to `i`, where its pointer is too. -/
structure Moved (b : Buffer) (s : Stream) (i : Nat) (s' : Stream) : Prop where
  buf : s'.buf = s.buf
  index : s'.index = i
  end_ : s'.end_ = s.end_
  ptr : s'.ptr = some ⟨b.gen, i⟩

/-- What a position moves by is taken as an `int`; below `2 ^ 31` it is what it was. -/
theorem skip_of_lt {h : Heap} {s : Stream} {b : Buffer} (hb : s.buffer h = some b) {n : Nat}
    (hn : s.index + n < 2 ^ 31) :
    ∃ s', s.skip h (toInt n) = .ok s' ∧ Moved b s (s.index + n) s' := by
  have hadd : sizeT ((s.index : Int) + n) = s.index + n := sizeT_add (by omega)
  rw [Stream.skip, hb, toInt_of_lt (show n < 2 ^ 31 by omega)]
  exact ⟨_, rfl, rfl, hadd, rfl, by rw [← hadd]⟩

/-! ## Writing -/

/-- A write to a buffer that has room for it. -/
theorem writeAt_eq (grow : Nat → Nat → Nat) {data : List UInt8} {b b' : Buffer} {s s' : Stream}
    (hbuf : s.buf = some 0) (hle : s.index ≤ s.end_) (hlen : s.index + data.length < 2 ^ 31)
    (hextend : s.extend grow [b] 0 (s.index + data.length) = ([b'], s'))
    (hbuf' : s'.buf = some 0) (hindex : s'.index = s.index)
    (hroom : s.index + data.length ≤ b'.bytes.length) :
    ∃ s'' a, s.writeAt grow [b] data =
        .ok ([{ b' with bytes := overwrite b'.bytes s.index data }], s'', a) ∧
      s''.buf = some 0 ∧ s''.index = s.index + data.length ∧ s''.end_ = s'.end_ := by
  have hlast : sizeT ((s.index : Int) + data.length) = s.index + data.length :=
    sizeT_add (by omega)
  have hbuffer : s'.buffer [{ b' with bytes := overwrite b'.bytes s.index data }] =
      some { b' with bytes := overwrite b'.bytes s.index data } := by
    rw [Stream.buffer, hbuf']
    rfl
  obtain ⟨s'', hskip, hmoved⟩ := skip_of_lt hbuffer (by rw [hindex]; exact hlen)
  refine ⟨s'', ⟨s.index, data.length⟩, ?_, hmoved.buf.trans hbuf', ?_, hmoved.end_⟩
  · rw [Stream.writeAt, hbuf]
    simp only [if_neg (not_lt.mpr hle), hlast, hextend, hindex, List.getElem?_cons_zero]
    rw [if_pos (.inr hroom), List.set_cons_zero, hskip]
    rfl
  · rw [hmoved.index, hindex]

/-- The first write gives the stream a buffer. -/
theorem written_first (grow : Nat → Nat → Nat) {data : List UInt8} (hlen : data.length < 2 ^ 31) :
    ∃ h s a, Stream.write grow [] {} data = .ok (h, s, a) ∧ Written h s data := by
  let b : Buffer := ⟨List.replicate data.length 0, data.length, 0⟩
  let s : Stream := { buf := some 0, size := data.length, end_ := data.length }
  have hinit : Stream.init [] {} data.length = ([b], s) := by
    have hsize : sizeT data.length = data.length := sizeT_of_nonneg (by omega)
    show (_, ({ buf := some 0, size := sizeT data.length, end_ := sizeT data.length } : Stream)) = _
    rw [hsize]
    rfl
  have hextend : s.extend grow [b] 0 (s.index + data.length) = ([b], s) := by
    refine if_neg ?_
    show ¬ data.length < 0 + data.length
    omega
  have hroom : s.index + data.length ≤ b.bytes.length := by
    show 0 + data.length ≤ (List.replicate data.length (0 : UInt8)).length
    rw [List.length_replicate]
    omega
  obtain ⟨s', a, hwrite, hbuf, hindex, hend⟩ := writeAt_eq grow rfl (Nat.zero_le _)
    (show 0 + data.length < 2 ^ 31 by omega) hextend rfl rfl hroom
  have hfirst : Stream.write grow [] {} data = s.writeAt grow [b] data := by
    rw [Stream.write, hinit]
  refine ⟨_, s', a, hfirst.trans hwrite, ⟨_, rfl, ?_⟩, hbuf, ?_, hend⟩
  · show [] ++ (data ++ (List.replicate data.length 0).drop (0 + data.length)) = data
    rw [List.drop_eq_nil_of_le (by rw [List.length_replicate]; omega), List.append_nil]
    rfl
  · rw [hindex]
    exact Nat.zero_add _

/-- Every further write extends the buffer. -/
theorem Written.write (grow : Nat → Nat → Nat) {h : Heap} {s : Stream} {pre data : List UInt8}
    (hw : Written h s pre) (hne : data ≠ []) (hlen : (pre ++ data).length < 2 ^ 31) :
    ∃ h' s' a, s.write grow h data = .ok (h', s', a) ∧ Written h' s' (pre ++ data) := by
  obtain ⟨⟨b, rfl, rfl⟩, hbuf, hindex, hend⟩ := hw
  have hpos : 0 < data.length := List.length_pos_of_ne_nil hne
  rw [List.length_append] at hlen
  have hinit : s.init [b] data.length = ([b], s) := by
    rw [Stream.init, Stream.buffer, hbuf]
    rfl
  have hextend : s.extend grow [b] 0 (s.index + data.length) =
      ([b.resize grow (s.index + data.length)],
        { s with size := s.index + data.length, end_ := s.index + data.length }) :=
    if_pos (by omega)
  have hbytes : (b.resize grow (s.index + data.length)).bytes =
      b.bytes ++ List.replicate data.length 0 := by
    show b.bytes.take _ ++ List.replicate _ 0 = _
    rw [hindex, List.take_of_length_le (Nat.le_add_right _ _), Nat.add_sub_cancel_left]
  obtain ⟨s', a, hwrite, hbuf', hindex', hend'⟩ := writeAt_eq grow hbuf (by omega)
    (by omega) hextend hbuf rfl (by rw [hbytes, hindex]; simp)
  have hagain : s.write grow [b] data = s.writeAt grow [b] data := by
    rw [Stream.write, hinit]
  refine ⟨_, s', a, hagain.trans hwrite, ⟨_, rfl, ?_⟩, hbuf', ?_, ?_⟩
  · rw [hbytes, hindex, overwrite_replicate (le_refl data.length)]
    simp
  · rw [hindex', hindex, List.length_append]
  · rw [hend', List.length_append, ← hindex]

theorem encodeAll_cons (item : Item) (items : List Item) :
    encodeAll (item :: items) = item.encode ++ encodeAll items := rfl

theorem Written.writeAll (grow : Nat → Nat → Nat) {items : List Item} {h : Heap} {s : Stream}
    {pre : List UInt8} (hw : Written h s pre) (hlen : (pre ++ encodeAll items).length < 2 ^ 31) :
    ∃ h' s', writeAll grow h s items = .ok (h', s') ∧ Written h' s' (pre ++ encodeAll items) := by
  induction items generalizing h s pre with
  | nil => exact ⟨h, s, rfl, by rwa [encodeAll, List.map_nil, List.flatten_nil, List.append_nil]⟩
  | cons item items ih =>
    rw [encodeAll_cons, ← List.append_assoc] at hlen ⊢
    have hitem : (pre ++ item.encode).length < 2 ^ 31 := by
      rw [List.length_append] at hlen
      omega
    obtain ⟨h', s', a, hwrite, hw'⟩ := hw.write grow item.encode_ne_nil hitem
    obtain ⟨h'', s'', hall, hw''⟩ := ih hw' hlen
    refine ⟨h'', s'', ?_, hw''⟩
    have hitem' : item.write grow h s = .ok (h', s', a) := by
      cases item with
      | typed bytes hne => exact hwrite
      | string text hzero => exact hwrite
    rw [Primitives.BinaryStream.writeAll, hitem']
    exact hall

/-! ## Reading -/

/-- The bytes of an item are read at its first one, and the stream stands behind them. -/
theorem At.read {h : Heap} {s : Stream} {pre post : List UInt8} {item : Item}
    (hat : At h s (pre ++ (item.encode ++ post)) pre.length)
    (hlen : (pre ++ (item.encode ++ post)).length < 2 ^ 31) :
    ∃ s' a, item.read h s = .ok (s', item.value, a) ∧
      At h s' (pre ++ (item.encode ++ post)) (pre.length + item.encode.length) := by
  obtain ⟨⟨b, rfl, hbytes, hptr⟩, hbuf, hindex, hend⟩ := hat
  have hbuffer : s.buffer [b] = some b := by
    rw [Stream.buffer, hbuf]
    rfl
  have hpos : 0 < item.encode.length := List.length_pos_of_ne_nil item.encode_ne_nil
  rw [List.length_append, List.length_append] at hlen
  obtain ⟨s', hskip, hmoved⟩ := skip_of_lt hbuffer (n := item.encode.length)
    (by rw [hindex]; omega)
  refine ⟨s', ⟨pre.length, item.encode.length⟩, ?_, ⟨b, rfl, hbytes, ?_⟩, hmoved.buf.trans hbuf,
    ?_, hmoved.end_.trans hend⟩
  · cases item with
    | typed bytes hne =>
      have hsum : sizeT ((s.index : Int) + (0 : Nat) + bytes.length) = pre.length + bytes.length := by
        rw [Nat.cast_zero, add_zero, hindex]
        exact sizeT_add (by simp only [Item.encode] at hlen; omega)
      have hstart : sizeT ((s.index : Int) + (0 : Nat)) = pre.length := by
        rw [Nat.cast_zero, add_zero, hindex]
        exact sizeT_of_nonneg (by omega)
      have hhas : b.Has ⟨pre.length, bytes.length⟩ := by
        refine .inr ?_
        rw [hbytes]
        simp [Item.encode]
      have hout : ¬ s.end_ ≤ s.index := by
        rw [hend, hindex, List.length_append, List.length_append]
        omega
      have hmuch : ¬ s.end_ < pre.length + bytes.length := by
        rw [hend, List.length_append, List.length_append]
        simp only [Item.encode]
        omega
      rw [Item.read, Stream.read, hbuffer]
      simp only [if_neg hout, hsum, if_neg hmuch, hstart, if_pos hhas, Nat.add_zero]
      simp only [Item.encode] at hskip hbytes
      rw [hskip, hbytes, window_append]
      rfl
    | string text hzero =>
      have hdrop : b.bytes.drop pre.length = text ++ (0 :: post) := by
        rw [hbytes, List.drop_left, Item.encode, List.append_assoc]
        rfl
      have htext : (b.bytes.drop pre.length).takeWhile (· ≠ 0) = text := by
        rw [hdrop, List.takeWhile_append_of_pos fun c hc => ?_]
        · simp
        · exact decide_eq_true (ne_of_mem_of_not_mem hc hzero)
      have hzeroAt : pre.length + text.length < b.bytes.length := by
        rw [hbytes]
        simp only [Item.encode, List.length_append, List.length_singleton]
        omega
      simp only [Item.encode, List.length_append, List.length_singleton] at hskip
      rw [Item.read, Stream.readString, hbuffer, hptr]
      simp only [htext]
      rw [if_pos ⟨trivial, hzeroAt⟩, hskip]
      simp [Item.encode, Item.value, bind, Except.bind, pure, Except.pure]
  · rw [hmoved.ptr, hindex]
  · rw [hmoved.index, hindex]

theorem At.readAll {items : List Item} {h : Heap} {s : Stream} {pre : List UInt8}
    (hat : At h s (pre ++ encodeAll items) pre.length)
    (hlen : (pre ++ encodeAll items).length < 2 ^ 31) :
    ∃ s', readAll h s items = .ok (s', items.map Item.value) ∧
      At h s' (pre ++ encodeAll items) (pre ++ encodeAll items).length := by
  induction items generalizing s pre with
  | nil =>
    have hnil : encodeAll [] = [] := rfl
    rw [hnil, List.append_nil] at hat ⊢
    exact ⟨s, rfl, hat⟩
  | cons item items ih =>
    rw [encodeAll_cons] at hat hlen ⊢
    obtain ⟨s', a, hread, hat'⟩ := hat.read hlen
    rw [← List.append_assoc] at hat' hlen ⊢
    rw [← List.length_append] at hat'
    obtain ⟨s'', hall, hat''⟩ := ih hat' hlen
    refine ⟨s'', ?_, hat''⟩
    rw [Primitives.BinaryStream.readAll, hread]
    show (do
      let (s, values) ← Primitives.BinaryStream.readAll h s' items
      return (s, item.value :: values)) = _
    rw [hall]
    rfl

/-- `seek(0)` -/
theorem Written.seek {h : Heap} {s : Stream} {all : List UInt8} (hw : Written h s all) :
    ∃ s', s.seek h 0 = .ok s' ∧ At h s' all 0 := by
  obtain ⟨⟨b, rfl, rfl⟩, hbuf, -, hend⟩ := hw
  have hbuffer : (s.reset [b]).buffer [b] = some b := by
    rw [Stream.buffer, Stream.reset, hbuf]
    rfl
  obtain ⟨s', hskip, hmoved⟩ := skip_of_lt hbuffer (n := 0)
    (by show 0 + 0 < 2 ^ 31; decide)
  exact ⟨s', hskip, ⟨b, rfl, rfl, hmoved.ptr⟩, hmoved.buf.trans hbuf, hmoved.index,
    hmoved.end_.trans hend⟩

/-- **Round trip.** One or more items that are written to a new stream are read again after
`seek(0)`, and the end is reached then. -/
theorem read_write (grow : Nat → Nat → Nat) (items : List Item) (hne : items ≠ [])
    (hlen : (encodeAll items).length < 2 ^ 31) :
    ∃ h s s₀ s', writeAll grow [] {} items = .ok (h, s) ∧ s.seek h 0 = .ok s₀ ∧
      readAll h s₀ items = .ok (s', items.map Item.value) ∧ s'.eof = true := by
  obtain ⟨item, items, rfl⟩ := List.exists_cons_of_ne_nil hne
  rw [encodeAll_cons] at hlen
  have hitem : item.encode.length < 2 ^ 31 := by
    rw [List.length_append] at hlen
    omega
  obtain ⟨h, s, a, hwrite, hw⟩ := written_first grow hitem
  obtain ⟨h', s', hall, hw'⟩ := hw.writeAll grow hlen
  obtain ⟨s₀, hseek, hat⟩ := hw'.seek
  have hat₀ : At h' s₀ ([] ++ encodeAll (item :: items)) ([] : List UInt8).length := hat
  obtain ⟨s'', hread, hat'⟩ := hat₀.readAll hlen
  refine ⟨h', s', s₀, s'', ?_, hseek, hread, ?_⟩
  · have hitem : item.write grow [] {} = .ok (h, s, a) := by
      cases item with
      | typed bytes hne => exact hwrite
      | string text hzero => exact hwrite
    rw [writeAll, hitem]
    exact hall
  · rw [Stream.eof, hat'.index, hat'.end_]
    exact beq_self_eq_true _

theorem read_write_two :
    ∃ h s s₀ s', writeAll (fun _ n => n) [] {}
        [.typed [1, 0, 0, 0] (by decide), .string [65, 66] (by decide)] = .ok (h, s) ∧
      s.seek h 0 = .ok s₀ ∧
      readAll h s₀ [.typed [1, 0, 0, 0] (by decide), .string [65, 66] (by decide)] =
        .ok (s', [[1, 0, 0, 0], [65, 66]]) ∧ s'.eof = true :=
  read_write (fun _ n => n) [.typed [1, 0, 0, 0] (by decide), .string [65, 66] (by decide)]
    (by simp) (by decide)

/-- Without an item there is no buffer, and `seek` throws. -/
theorem seek_default :
    writeAll (fun _ n => n) [] {} [] = .ok ([], {}) ∧
      Stream.seek [] {} 0 = .error .notInitialized :=
  ⟨rfl, rfl⟩

end Primitives.BinaryStream
