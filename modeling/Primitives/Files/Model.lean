import Mathlib.Data.List.Basic

/-!
# Files — reading several at a time

A `FileIterator` reads files of one size in step, a buffer of each at a time, and gives the buffers to a
function until it says to stop. It stops itself when a file is at its end, which a read finds out that
does not fill its buffer. The buffers are used again: behind what was read last a buffer has what was
read before.

A file is the list of its bytes, of any type. `fread` fills the buffer unless the file ends before.
-/

set_option autoImplicit false

namespace Primitives.Files

variable {α σ : Type}

/-! ## Streams -/

/-- A `FILE` that is open for reading. -/
structure Stream (α : Type) where
  content : List α
  pos : Nat
  eof : Bool

/-- What `fread` reads, at most `n` bytes. -/
def Stream.next (s : Stream α) (n : Nat) : List α := (s.content.drop s.pos).take n

/-- The stream behind it. A read that comes short sets the end-of-file flag. -/
def Stream.skip (s : Stream α) (n : Nat) : Stream α :=
  { s with pos := s.pos + (s.next n).length, eof := s.eof || (s.next n).length < n }

/-! ## `FileIterator` -/

structure File (α : Type) where
  ifile : Stream α
  size : Nat
  buf : List α
  read : Nat

/-- `buffer_size`. -/
def bufferSize : Nat := 8192

/-- `Provide at least one file`. -/
inductive Failure where
  | noFiles
deriving DecidableEq, Repr

/-- A file with its size, opened. -/
def openFile (content : List α) : File α := ⟨⟨content, 0, false⟩, content.length, [], 0⟩

/-- The constructor. -/
def fileIterator (contents : List (List α)) : Except Failure (List (File α)) :=
  if contents = [] then .error .noFiles else .ok (contents.map openFile)

/-- The size of the first file. -/
def frontSize (files : List (File α)) : Nat := (files.head?.map File.size).getD 0

/-- What was read from the first file. -/
def frontRead (files : List (File α)) : Nat := (files.head?.map File.read).getD 0

/-- `is_same_size`. -/
def isSameSize (files : List (File α)) : Bool := files.all fun f => f.size = frontSize files

/-- `is_same_read_size`. -/
def isSameReadSize (files : List (File α)) : Bool := files.all fun f => f.read = frontRead files

/-- One read of a file, over what its buffer has. -/
def File.fill (f : File α) : File α :=
  let data := f.ifile.next bufferSize
  { f with ifile := f.ifile.skip bufferSize, buf := data ++ f.buf.drop data.length, read := data.length }

/-- The function that `iterate` calls: it is given the buffers and how much was read, and says whether
to go on. It may change a state. -/
abbrev Callback (σ α : Type) := σ → List (List α) → Nat → σ × Bool

/-- The loop of `iterate`, for at most so many rounds. -/
def loop (f : Callback σ α) : Nat → List (File α) → σ → Option (σ × Bool)
  | 0, _, _ => none
  | rounds + 1, files, s =>
    if files.any fun f => f.ifile.eof then some (s, true)
    else
      let files := files.map File.fill
      if isSameReadSize files = false then some (s, false)
      else
        let r := f s (files.map File.buf) (frontRead files)
        if r.2 then loop f rounds files r.1 else some (r.1, false)

/-- `buf.resize(buffer_size)` of each file: the new bytes are `zero`. -/
def resizeAll (zero : α) (files : List (File α)) : List (File α) :=
  files.map fun f =>
    { f with buf := f.buf.take bufferSize ++ List.replicate (bufferSize - f.buf.length) zero }

/-- `iterate`. A file has no more rounds than bytes, and two. -/
def iterate (zero : α) (f : Callback σ α) (files : List (File α)) (s : σ) : Option (σ × Bool) :=
  if isSameSize files = false then some (s, false)
  else loop f (frontSize files + 2) (resizeAll zero files) s

/-- `memcmp(buf₁, buf₂, sz) == 0`. -/
def sameBytes [DecidableEq α] (sz : Nat) (buf₁ buf₂ : List α) : Bool := buf₁.take sz = buf₂.take sz

/-- `compare_files`: what was read is compared in each round. -/
def compareFiles [DecidableEq α] (zero : α) (content₁ content₂ : List α) :
    Except Failure (Option Bool) := do
  let files ← fileIterator [content₁, content₂]
  return (iterate zero (fun _ bufs sz => ((), sameBytes sz (bufs.getD 0 []) (bufs.getD 1 []))) files
    ()).map Prod.snd

end Primitives.Files
