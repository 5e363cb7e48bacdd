import Primitives.Lib.Stdio

/-!
# Storage — the code

`physical_file_storage_single_file` of `storage.h`: the contents of all files that are added stand in
one file, one behind the other, and a second file, the index, has a record for each. Both are
appended to, and the position in the first is where the next contents will stand. `file_storage` adds
what it has no record of.

Iterators, and what `*i` gives, look things up in the files through the position and take it back to
the end. In between others may add. A step (`Event`) is one such operation, and what an iterator or
an object is about is recorded beside it: `taken` and `index` and `State.added` are read by nothing.

What a record's bytes are is left to `Layout`. Files are opened, read and written without an error.
-/

set_option autoImplicit false

namespace Primitives.Storage

open Lib

abbrev Bytes := List UInt8

structure Record (H : Type) where
  hash : H
  pos : UInt64
  size : UInt64
deriving DecidableEq, Repr

/-- The memory of a record: `size` is `sizeof(record)`. -/
structure Layout (H : Type) where
  size : Nat
  write : Record H → Bytes
  read : Bytes → Record H
  size_pos : 0 < size
  length_write : ∀ r, (write r).length = size
  read_write : ∀ r, read (write r) = r

/-- `physical_file_storage_single_file` -/
structure SingleFile where
  f : AppendFile
  fi : AppendFile
deriving DecidableEq, Repr

namespace SingleFile

variable {H : Type} (layout : Layout H)

def empty : SingleFile := ⟨.empty, .empty⟩

/-- `add`, for a file with this hash and these contents. -/
def add (ps : SingleFile) (hash : H) (s : Bytes) : SingleFile :=
  let r : Record H := ⟨hash, UInt64.ofNat ps.f.tell, UInt64.ofNat s.length⟩
  ⟨ps.f.write s, ps.fi.write (layout.write r)⟩

/-- `i == end()` -/
def atEnd (ps : SingleFile) (offset : Nat) : Bool := offset = ps.fi.tell

/-- `++i`: the offset is an `unsigned`. -/
def next (offset : Nat) : Nat := (offset + layout.size) % 2 ^ 32

/-- `*i` -/
def deref (ps : SingleFile) (offset : Nat) : Record H × SingleFile :=
  let (bytes, fi) := (ps.fi.seekSet offset).read layout.size
  (layout.read bytes, { ps with fi := fi.seekEnd })

/-- `copy`, and what is written to the new file. -/
def copy (ps : SingleFile) (r : Record H) : Bytes × SingleFile :=
  let (buffer, f) := (ps.f.seekSet r.pos.toNat).read r.size.toNat
  (buffer, { ps with f := f.seekEnd })

/-- A loop `for (auto &&o : storage)` with at most `fuel` records, and those that it goes through. -/
def iterateFrom : Nat → Nat → SingleFile → Option (List (Record H) × SingleFile)
  | 0, _, _ => none
  | fuel + 1, offset, ps =>
    if ps.atEnd offset then some ([], ps)
    else
      let (r, ps) := ps.deref layout offset
      match iterateFrom fuel (next layout offset) ps with
      | none => none
      | some (rs, ps) => some (r :: rs, ps)

/-- The loop from `begin()`; without a result where it never ends. -/
def iterate (ps : SingleFile) : Option (List (Record H) × SingleFile) :=
  iterateFrom layout (ps.fi.content.length + 1) 0 ps

/-- The loop of `contains`, for at most `fuel` records. -/
def containsFrom [DecidableEq H] (hash : H) : Nat → Nat → SingleFile → Option (Bool × SingleFile)
  | 0, _, _ => none
  | fuel + 1, offset, ps =>
    if ps.atEnd offset then some (false, ps)
    else
      let (r, ps) := ps.deref layout offset
      if hash = r.hash then some (true, ps)
      else containsFrom hash fuel (next layout offset) ps

/-- `contains`; without a result where it never returns. -/
def contains [DecidableEq H] (ps : SingleFile) (hash : H) : Option (Bool × SingleFile) :=
  containsFrom layout hash (ps.fi.content.length + 1) 0 ps

end SingleFile

/-- An iterator, and how often it has been incremented. -/
structure Iterator where
  offset : Nat
  taken : Nat
deriving DecidableEq, Repr

/-- What `*i` gave, and the increments of `i` before. -/
structure Obj (H : Type) where
  r : Record H
  index : Nat
deriving DecidableEq, Repr

structure State (H : Type) where
  ps : SingleFile
  iterators : List Iterator
  objs : List (Obj H)
  /-- What was copied, each with the index of the object. -/
  copies : List (Nat × Bytes)
  /-- The hashes and the contents that were appended. -/
  added : List (H × Bytes)

inductive Event (H : Type) where
  /-- `ps.add` -/
  | add (hash : H) (s : Bytes)
  /-- `add` of `file_storage` -/
  | fileAdd (hash : H) (s : Bytes)
  | begin
  /-- `++i`, where `i` is not at the end -/
  | next (i : Nat)
  /-- `*i`, where `i` is not at the end -/
  | deref (i : Nat)
  | copy (j : Nat)
deriving DecidableEq, Repr

section

variable {H : Type}

def State.init : State H := ⟨.empty, [], [], [], []⟩

variable [DecidableEq H] (layout : Layout H)

def State.add (st : State H) (hash : H) (s : Bytes) : State H :=
  { st with ps := st.ps.add layout hash s, added := st.added ++ [(hash, s)] }

def step (st : State H) : Event H → Option (State H)
  | .add hash s => some (st.add layout hash s)
  | .fileAdd hash s =>
    match st.ps.contains layout hash with
    | none => none
    | some (true, ps) => some { st with ps }
    | some (false, ps) => some ({ st with ps }.add layout hash s)
  | .begin => some { st with iterators := st.iterators ++ [⟨0, 0⟩] }
  | .next i =>
    match st.iterators[i]? with
    | none => none
    | some it =>
      if st.ps.atEnd it.offset then none
      else some { st with
        iterators := st.iterators.set i ⟨SingleFile.next layout it.offset, it.taken + 1⟩ }
  | .deref i =>
    match st.iterators[i]? with
    | none => none
    | some it =>
      if st.ps.atEnd it.offset then none
      else
        let (r, ps) := st.ps.deref layout it.offset
        some { st with ps, objs := st.objs ++ [⟨r, it.taken⟩] }
  | .copy j =>
    match st.objs[j]? with
    | none => none
    | some o =>
      let (bytes, ps) := st.ps.copy o.r
      some { st with ps, copies := st.copies ++ [(o.index, bytes)] }

end

end Primitives.Storage
