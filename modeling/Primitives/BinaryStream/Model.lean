import Primitives.Basic
import Primitives.Lib.Bytes

/-!
# Binary streams — the code

`BinaryStream` of `emitter.h`: a position in a buffer that it may share with other streams. The
buffers are a heap, and a stream has the number of its buffer in it, so what one stream does to a
buffer the others see.

Next to the position a stream keeps a pointer to the byte there, which is set whenever the position
moves and which the string reader follows. A vector that grows beyond its capacity is allocated anew,
and a pointer into an older allocation points to nothing; `gen` counts the allocations. `grow` is the
capacity that the library chooses then.

A `size_t` is a `Nat` here whose arithmetic is `sizeT`. What accesses memory outside of a buffer's
bytes is undefined.
-/

set_option autoImplicit false

namespace Primitives.BinaryStream

open Lib

/-- What an operation can do instead of returning. -/
inductive Failure where
  /-- `"not initialized"` -/
  | notInitialized
  /-- `"out of range"` -/
  | outOfRange
  /-- `"too much data"` -/
  | tooMuchData
  /-- No exception: undefined behaviour. -/
  | undefined
deriving DecidableEq, Repr

/-- A `std::vector<uint8_t>`. -/
structure Buffer where
  bytes : List UInt8
  capacity : Nat
  gen : Nat := 0
deriving DecidableEq, Repr

abbrev Heap := List Buffer

/-- A pointer to the byte at `pos` of one of the allocations of a buffer. -/
structure Ptr where
  gen : Nat
  pos : Nat
deriving DecidableEq, Repr

structure Stream where
  buf : Option Nat := none
  index : Nat := 0
  ptr : Option Ptr := none
  dataOffset : Nat := 0
  size : Nat := 0
  end_ : Nat := 0
deriving DecidableEq, Repr

/-- The bytes that an operation reads or writes in the buffer of its stream. -/
structure Access where
  start : Nat
  size : Nat
deriving DecidableEq, Repr

/-- The cast `(int)n`, at 32 bits. -/
def toInt (n : Nat) : Int := (n : Int).bmod (2 ^ 32)

/-- `resize(n)` -/
def Buffer.resize (grow : Nat → Nat → Nat) (b : Buffer) (n : Nat) : Buffer where
  bytes := b.bytes.take n ++ List.replicate (n - b.bytes.length) 0
  capacity := if n ≤ b.capacity then b.capacity else max n (grow b.capacity n)
  gen := if n ≤ b.capacity then b.gen else b.gen + 1

/-- Memory of the buffer is accessed by `memcpy`. -/
def Buffer.Has (b : Buffer) (a : Access) : Prop := a.size = 0 ∨ a.start + a.size ≤ b.bytes.length

instance decidableHas (b : Buffer) (a : Access) : Decidable (b.Has a) :=
  inferInstanceAs (Decidable (_ ∨ _))

namespace Stream

/-- `*buf_` -/
def buffer (h : Heap) (s : Stream) : Option Buffer := s.buf.bind fun i => h[i]?

def skip (h : Heap) (s : Stream) (n : Int) : Except Failure Stream :=
  match s.buffer h with
  | none => .error .notInitialized
  | some b =>
    .ok { s with
      index := sizeT (s.index + n)
      dataOffset := sizeT (s.dataOffset + n)
      ptr := some ⟨b.gen, sizeT (s.index + n)⟩ }

def reset (h : Heap) (s : Stream) : Stream :=
  { s with
    index := 0
    dataOffset := 0
    ptr := (s.buffer h).map fun b => ⟨b.gen, 0⟩ }

def seek (h : Heap) (s : Stream) (size : Nat) : Except Failure Stream :=
  (s.reset h).skip h (toInt size)

def eof (s : Stream) : Bool := s.index == s.end_

/-! ## Constructors -/

/-- `BinaryStream(size_t size)`: the buffer is empty. -/
def reserve (h : Heap) (size : Nat) : Heap × Stream :=
  (h ++ [⟨[], size, 0⟩], { buf := some h.length, ptr := some ⟨0, 0⟩ })

/-- The constructors from a `std::string` and from a `std::vector<uint8_t>`. -/
def ofBytes (h : Heap) (data : List UInt8) (dataOffset : Nat) : Heap × Stream :=
  (h ++ [⟨data, data.length, 0⟩],
    { buf := some h.length
      ptr := some ⟨0, 0⟩
      dataOffset := dataOffset
      size := sizeT data.length
      end_ := sizeT data.length })

/-- `BinaryStream(rhs, size)`, which moves `rhs`: the new stream, and `rhs`. -/
def sub (h : Heap) (rhs : Stream) (size : Nat) : Except Failure (Stream × Stream) := do
  let rhs' ← rhs.skip h (toInt size)
  return ({ rhs with size := size, end_ := sizeT (rhs.index + size) }, rhs')

/-- `BinaryStream(rhs, size, offset)` -/
def subAt (h : Heap) (rhs : Stream) (size offset : Nat) : Except Failure Stream :=
  match rhs.buffer h with
  | none => .error .undefined
  | some b =>
    .ok
      { buf := rhs.buf
        index := offset
        ptr := some ⟨b.gen, offset⟩
        dataOffset := offset
        size := size
        end_ := sizeT (offset + size) }

/-! ## Reading and writing -/

/-- `_read`, with the bytes that `memcpy` copies. -/
def read (h : Heap) (s : Stream) (size offset : Nat) :
    Except Failure (Stream × List UInt8 × Access) :=
  match s.buffer h with
  | none => .error .notInitialized
  | some b =>
    if s.end_ ≤ s.index then .error .outOfRange
    else if s.end_ < sizeT (s.index + offset + size) then .error .tooMuchData
    else
      let a : Access := ⟨sizeT (s.index + offset), size⟩
      if b.Has a then do
        let s ← s.skip h (toInt (size + offset))
        return (s, window b.bytes a.start a.size, a)
      else .error .undefined

/-- `read(std::string &)`: the bytes from `ptr` on up to a zero. -/
def readString (h : Heap) (s : Stream) : Except Failure (Stream × List UInt8 × Access) :=
  match s.buffer h, s.ptr with
  | some b, some p =>
    let text := (b.bytes.drop p.pos).takeWhile (· ≠ 0)
    if p.gen = b.gen ∧ p.pos + text.length < b.bytes.length then do
      let s ← s.skip h (toInt (text.length + 1))
      return (s, text, ⟨p.pos, text.length + 1⟩)
    else .error .undefined
  | _, _ => .error .undefined

/-- A stream without a buffer is given one of `n` bytes. -/
def init (h : Heap) (s : Stream) (n : Nat) : Heap × Stream :=
  match s.buffer h with
  | some _ => (h, s)
  | none =>
    (h ++ [⟨List.replicate n 0, n, 0⟩],
      { s with buf := some h.length, size := sizeT n, end_ := sizeT n })

/-- The buffer is resized for the bytes up to `last`, if they are behind the end. -/
def extend (grow : Nat → Nat → Nat) (h : Heap) (s : Stream) (i last : Nat) : Heap × Stream :=
  if s.end_ < last then (h.modify i (·.resize grow last), { s with size := last, end_ := last })
  else (h, s)

/-- The rest of `_write`, in a buffer. -/
def writeAt (grow : Nat → Nat → Nat) (h : Heap) (s : Stream) (data : List UInt8) :
    Except Failure (Heap × Stream × Access) :=
  match s.buf with
  | none => .error .undefined
  | some i =>
    if s.end_ < s.index then .error .outOfRange
    else
      let (h, s) := s.extend grow h i (sizeT (s.index + data.length))
      let a : Access := ⟨s.index, data.length⟩
      match h[i]? with
      | none => .error .undefined
      | some b =>
        if b.Has a then do
          let h := h.set i { b with bytes := overwrite b.bytes s.index data }
          let s ← s.skip h (toInt data.length)
          return (h, s, a)
        else .error .undefined

/-- `_write` -/
def write (grow : Nat → Nat → Nat) (h : Heap) (s : Stream) (data : List UInt8) :
    Except Failure (Heap × Stream × Access) :=
  let (h, s) := s.init h data.length
  s.writeAt grow h data

/-- `write(const std::string &)`: the text and a zero. -/
def writeString (grow : Nat → Nat → Nat) (h : Heap) (s : Stream) (text : List UInt8) :
    Except Failure (Heap × Stream × Access) :=
  s.write grow h (text ++ [0])

end Stream

end Primitives.BinaryStream
