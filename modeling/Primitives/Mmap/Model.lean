import Primitives.Lib.Bytes

/-!
# Mapped files — the code

`mmap_file<uint8_t>` and its `stream` of `mmap2.h`: a file that is mapped whole, and a position in
it from which length-prefixed records are written and read. A `size_type` is a `uint64_t`, and is a
`Nat` here whose arithmetic is taken modulo `2 ^ 64` where the code computes it.

The mapping is the file's content: what is stored through `p` is in the file, and stays when the
file grows and is mapped again. A file that `fs::resize_file` extends is filled with zeros. `limit` is
the largest size that the file system, and the mapping, take; beyond it they throw. A store or a load
outside the mapping is undefined, and the model goes no further.
-/

set_option autoImplicit false

namespace Primitives.Mmap

open Lib

/-- What the operations can do instead of returning. -/
inductive Failure where
  /-- The file cannot be resized or mapped. -/
  | resize
  /-- `operator>>` throws `"no more data"`. -/
  | noMoreData
  /-- Memory outside the mapping is accessed. -/
  | outOfBounds
deriving DecidableEq, Repr

/-- `uint64_t` arithmetic. -/
def wrap (n : Nat) : Nat := n % 2 ^ 64

/-- `sizeof(size_type)`. -/
def headerSize : Nat := 8

structure MmapFile where
  bytes : List UInt8
deriving DecidableEq, Repr

namespace MmapFile

/-- The member `sz`. -/
def sz (f : MmapFile) : Nat := f.bytes.length

/-- A file that is created when it is first resized. -/
def empty : MmapFile := ⟨[]⟩

def eof (f : MmapFile) (pos : Nat) : Bool := f.sz ≤ pos

/-- `fs::resize_file(fn, size)`, and the file is mapped again. -/
def resize (f : MmapFile) (limit size : Nat) : Except Failure MmapFile :=
  if size ≤ limit then .ok ⟨f.bytes.take size ++ List.replicate (size - f.sz) 0⟩
  else .error .resize

/-- The size that a file of `oldsz` bytes is given to make room for `n` more. -/
def allocSize (oldsz n : Nat) : Nat := wrap (if oldsz ≠ 0 then oldsz * 2 + n else n * 2)

def alloc (f : MmapFile) (limit n : Nat) : Except Failure MmapFile :=
  f.resize limit (allocSize f.sz n)

/-- The bytes are stored at `p + offset`. -/
def store (f : MmapFile) (offset : Nat) (data : List UInt8) : Except Failure MmapFile :=
  if offset + data.length ≤ f.sz then .ok ⟨overwrite f.bytes offset data⟩
  else .error .outOfBounds

/-- `n` bytes are loaded from `p + offset`. -/
def load (f : MmapFile) (offset n : Nat) : Except Failure (List UInt8) :=
  if offset + n ≤ f.sz then .ok (window f.bytes offset n) else .error .outOfBounds

end MmapFile

/-- `mmap_file::stream`, without the pointer to its file. -/
structure Stream where
  offset : Nat := 0
  ok : Bool := true
deriving DecidableEq, Repr

namespace Stream

/-- `(size_type)-1`. -/
def npos : Nat := 2 ^ 64 - 1

/-- The stream that `read_record` returns when there is no record. -/
def invalid : Stream := { offset := npos }

def hasRoom (s : Stream) (f : MmapFile) (n : Nat) : Bool := wrap (s.offset + n) ≤ f.sz

/-- `explicit operator bool`. -/
def isValid (s : Stream) (f : MmapFile) : Bool := s.ok && s.offset ≠ npos && !f.eof s.offset

/-- `offset += n`. -/
def advance (s : Stream) (n : Nat) : Stream := { s with offset := wrap (s.offset + n) }

/-- The file, grown if `n` bytes more do not fit. -/
def makeRoom (s : Stream) (f : MmapFile) (limit n : Nat) : Except Failure MmapFile :=
  if s.hasRoom f n then .ok f else f.alloc limit n

/-- `operator<<` of a `size_type`. -/
def put (s : Stream) (f : MmapFile) (limit v : Nat) : Except Failure (MmapFile × Stream) := do
  let f ← s.makeRoom f limit headerSize
  let f ← f.store s.offset (encodeLE headerSize v)
  return (f, s.advance headerSize)

/-- `operator>>` of a `size_type`. -/
def get (s : Stream) (f : MmapFile) : Except Failure (Nat × Stream) :=
  if s.hasRoom f headerSize then do
    let bytes ← f.load s.offset headerSize
    return (decodeLE bytes, s.advance headerSize)
  else .error .noMoreData

/-- What `write_record` leaves: the file, the stream after the record, and the record's stream. -/
structure Written where
  file : MmapFile
  stream : Stream
  record : Stream
deriving DecidableEq, Repr

def writeRecord (s : Stream) (f : MmapFile) (limit n : Nat) : Except Failure Written := do
  let f ← s.makeRoom f limit n
  let (f, s) ← s.put f limit n
  return ⟨f, s.advance n, { offset := s.offset }⟩

/-- The stream after the record, and the record's stream. A length that finds no room leaves the
stream behind its header. -/
def readRecord (s : Stream) (f : MmapFile) : Except Failure (Stream × Stream) :=
  if s.hasRoom f headerSize then do
    let (n, s) ← s.get f
    if n = 0 then return ({ s with offset := wrap (s.offset + 2 ^ 64 - headerSize) }, invalid)
    else if s.hasRoom f n then return (s.advance n, { offset := s.offset })
    else return (s, invalid)
  else return (s, invalid)

end Stream

end Primitives.Mmap
