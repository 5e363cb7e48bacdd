import Primitives.Lib.Bytes

/-!
# Files that are appended to

A file that `fopen` opened with `a+`: what is written goes to its end, wherever the position is, and
takes the position there, and what is read is read at the position. A file that is only ever left
with its position at the end (`AtEnd`) is as it was after one has looked something up in it and gone
back (`AtEnd.restore`).

No operation fails, and a run of bytes that is read is in the file.
-/

set_option autoImplicit false

namespace Primitives.Lib

structure AppendFile where
  content : List UInt8
  pos : Nat
deriving DecidableEq, Repr

namespace AppendFile

def empty : AppendFile := ⟨[], 0⟩

/-- `ftell` -/
def tell (f : AppendFile) : Nat := f.pos

/-- `fseek(f, pos, SEEK_SET)` -/
def seekSet (f : AppendFile) (pos : Nat) : AppendFile := { f with pos }

/-- `fseek(f, 0, SEEK_END)` -/
def seekEnd (f : AppendFile) : AppendFile := { f with pos := f.content.length }

/-- `fwrite(data, size, 1, f)`, and `fflush`. Nothing is done for no bytes. -/
def write (f : AppendFile) (data : List UInt8) : AppendFile :=
  if data = [] then f else ⟨f.content ++ data, f.content.length + data.length⟩

/-- `fread(data, n, 1, f)` -/
def read (f : AppendFile) (n : Nat) : List UInt8 × AppendFile :=
  (window f.content f.pos n, { f with pos := f.pos + (window f.content f.pos n).length })

def AtEnd (f : AppendFile) : Prop := f.pos = f.content.length

theorem AtEnd.empty : AtEnd empty := rfl

theorem write_content (f : AppendFile) (data : List UInt8) :
    (f.write data).content = f.content ++ data := by
  rw [write]
  split
  · rename_i hnil
    rw [hnil, List.append_nil]
  · rfl

theorem AtEnd.write {f : AppendFile} (h : f.AtEnd) (data : List UInt8) : (f.write data).AtEnd := by
  rw [AppendFile.write]
  split
  · exact h
  · exact List.length_append.symm

/-- What is looked up. -/
theorem read_seekSet (f : AppendFile) (pos n : Nat) :
    ((f.seekSet pos).read n).1 = window f.content pos n := rfl

/-- A file is as it was when one has read of it and gone back. -/
theorem AtEnd.restore {f : AppendFile} (h : f.AtEnd) (pos n : Nat) :
    ((f.seekSet pos).read n).2.seekEnd = f := by
  obtain ⟨content, p⟩ := f
  obtain rfl : p = content.length := h
  rfl

end AppendFile

/-- A run stays where it is when a list grows. -/
theorem window_append_left {α : Type} {xs run : List α} {i : Nat} (ys : List α)
    (h : window xs i run.length = run) : window (xs ++ ys) i run.length = run := by
  cases run with
  | nil => rfl
  | cons y run =>
    have hlen := congrArg List.length h
    rw [window, List.length_take, List.length_drop, List.length_cons] at hlen
    have hi : i + (y :: run).length ≤ xs.length := by
      rw [List.length_cons]
      omega
    have htake : (y :: run).length ≤ (xs.drop i).length := by
      rw [List.length_drop]
      omega
    rw [window, List.drop_append_of_le_length (by omega), List.take_append_of_le_length htake]
    exact h

/-- A run in a list of runs of one length. -/
theorem window_flatten {α : Type} {blocks : List (List α)} {n k : Nat} {b : List α}
    (hblocks : ∀ ys ∈ blocks, ys.length = n) (hk : blocks[k]? = some b) :
    window blocks.flatten (k * n) n = b := by
  induction blocks generalizing k with
  | nil => cases hk
  | cons ys blocks ih =>
    obtain ⟨hys, hrest⟩ := List.forall_mem_cons.mp hblocks
    rw [List.flatten_cons]
    cases k with
    | zero =>
      cases hk
      have h := window_append [] b blocks.flatten
      rw [List.nil_append, List.length_nil, hys] at h
      rw [Nat.zero_mul]
      exact h
    | succ k =>
      have hdrop : (ys ++ blocks.flatten).drop ((k + 1) * n) = blocks.flatten.drop (k * n) := by
        rw [Nat.succ_mul, Nat.add_comm, ← hys, List.drop_length_add_append]
      rw [window, hdrop]
      exact ih hrest hk

end Primitives.Lib
