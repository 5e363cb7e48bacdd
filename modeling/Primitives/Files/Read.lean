import Primitives.Basic
import Primitives.Files.Model

/-!
# Reading a part of a file

`read_file` makes a string as long as it is asked for, and reads into it. It does not look at how much
is read, so the string is right where all of it can be read, and has zeros at its end where the file
ends before (`readFile_iff`). Where the rest of a file is asked for from behind its end, the length of
the rest is a difference of unsigned numbers and wraps around.
-/

set_option autoImplicit false

namespace Primitives.Files

/-! ## The code -/

/-- What a file holds. Its size is an `off_t`. -/
structure Content where
  bytes : List UInt8
  size_le : bytes.length ≤ int64Max

/-- `UINTMAX_MAX` -/
def uintmaxMax : UInt64 := 18446744073709551615

/-- `std::length_error`, for a size over the `max_size` of a string, which is `PTRDIFF_MAX`. -/
inductive LengthError where
  | tooLong
deriving DecidableEq, Repr

/-- `ScopedFile::seek`. `fseek` takes a signed offset; a negative one is an error that is not looked at,
and leaves the position as it is. -/
def Stream.seek {α : Type} (s : Stream α) (offset : UInt64) : Stream α :=
  if offset.toNat ≤ int64Max then { s with pos := offset.toNat, eof := false } else s

/-- How many bytes `read_file` asks for. -/
def requested (size : Nat) (offset count : UInt64) : UInt64 :=
  if count = uintmaxMax then UInt64.ofNat size - offset else count

/-- `read_file` -/
def readFile (content : List UInt8) (offset count : UInt64) : Except LengthError (List UInt8) :=
  let count := requested content.length offset count
  if int64Max < count.toNat then .error .tooLong
  else
    let f := List.replicate count.toNat 0
    let ifile := (Stream.mk content 0 false).seek offset
    let data := ifile.next count.toNat
    .ok (data ++ f.drop data.length)

/-! ## The part that is asked for -/

variable {c : List UInt8} {offset count : UInt64}

/-- The bytes of the content from the offset on, as many as are asked for or up to its end. -/
def part (c : List UInt8) (offset count : UInt64) : List UInt8 :=
  let last := if count = uintmaxMax then c.length else min (offset.toNat + count.toNat) c.length
  (c.take last).drop (min offset.toNat c.length)

/-- The part is in the file: nothing of it, all from a place in the file, or no more than there is. -/
def Inside (size : Nat) (offset count : UInt64) : Prop :=
  if count = uintmaxMax then offset.toNat ≤ size
  else count = 0 ∨ offset.toNat + count.toNat ≤ size

/-- What is read is as long as it was asked for. -/
theorem length_of_readFile {f : List UInt8} (h : readFile c offset count = .ok f) :
    f.length = (requested c.length offset count).toNat := by
  unfold readFile at h
  dsimp only at h
  split at h
  · cases h
  · rw [← Except.ok.inj h, List.length_append, List.length_drop, List.length_replicate, Stream.next,
      List.length_take]
    omega

/-- **What is in the file** is read. -/
theorem readFile_of_le (hsize : c.length ≤ int64Max)
    (h : offset.toNat + (requested c.length offset count).toNat ≤ c.length) :
    readFile c offset count =
      .ok ((c.drop offset.toNat).take (requested c.length offset count).toNat) := by
  have hseek : ((Stream.mk c 0 false).seek offset).next (requested c.length offset count).toNat =
      (c.drop offset.toNat).take (requested c.length offset count).toNat := by
    rw [Stream.seek, if_pos (by omega)]
    rfl
  have hlen : ((c.drop offset.toNat).take (requested c.length offset count).toNat).length =
      (requested c.length offset count).toNat := by
    rw [List.length_take, List.length_drop]
    omega
  unfold readFile
  dsimp only
  rw [if_neg (by omega), hseek, hlen, List.drop_replicate, Nat.sub_self, List.replicate_zero,
    List.append_nil]

/-- The rest of a file, if the offset is in the file. -/
theorem toNat_requested_rest (hsize : c.length ≤ int64Max) (h : offset.toNat ≤ c.length) :
    (requested c.length offset uintmaxMax).toNat = c.length - offset.toNat := by
  unfold int64Max at hsize
  rw [requested, if_pos rfl, UInt64.toNat_sub_of_le, UInt64.toNat_ofNat_of_lt']
  · exact lt_of_le_of_lt hsize (by decide)
  · rw [UInt64.le_iff_toNat_le, UInt64.toNat_ofNat_of_lt' (lt_of_le_of_lt hsize (by decide))]
    exact h

/-- Behind the end of a file the rest is not empty. -/
theorem requested_rest_pos (hsize : c.length ≤ int64Max) (h : c.length < offset.toNat) :
    0 < (requested c.length offset uintmaxMax).toNat := by
  unfold int64Max at hsize
  have hoffset := offset.toNat_lt
  rw [requested, if_pos rfl, UInt64.toNat_sub,
    UInt64.toNat_ofNat_of_lt' (lt_of_le_of_lt hsize (by decide))]
  omega

/-- A part that is in the file is read. -/
theorem readFile_of_inside (hsize : c.length ≤ int64Max) (h : Inside c.length offset count) :
    readFile c offset count = .ok (part c offset count) := by
  unfold Inside at h
  by_cases hrest : count = uintmaxMax
  · subst hrest
    rw [if_pos rfl] at h
    have hcount := toNat_requested_rest hsize h
    rw [part, if_pos rfl, List.take_length, readFile_of_le hsize (by omega), hcount,
      Nat.min_eq_left h, List.take_of_length_le (by rw [List.length_drop])]
  · have hcount : requested c.length offset count = count := if_neg hrest
    rw [if_neg hrest] at h
    rw [part, if_neg hrest]
    rcases h with rfl | h
    · have hempty : readFile c offset 0 = .ok [] := by
        unfold readFile
        dsimp only
        rw [hcount]
        exact congrArg Except.ok (List.append_nil _)
      rw [hempty, UInt64.toNat_zero, Nat.add_zero,
        List.drop_eq_nil_of_le (by rw [List.length_take]; omega)]
    · rw [readFile_of_le hsize (by rw [hcount]; exact h), hcount, Nat.min_eq_left h,
        Nat.min_eq_left (by omega), List.drop_take, Nat.add_sub_cancel_left]

/-- What is read is no longer than the part only if that is in the file. -/
theorem inside_of_length (hsize : c.length ≤ int64Max)
    (h : (part c offset count).length = (requested c.length offset count).toNat) :
    Inside c.length offset count := by
  unfold Inside
  by_cases hrest : count = uintmaxMax
  · subst hrest
    rw [part, if_pos rfl, List.take_length, List.length_drop] at h
    rw [if_pos rfl]
    by_contra hle
    have hpos := requested_rest_pos hsize (Nat.lt_of_not_le hle)
    omega
  · have hcount : requested c.length offset count = count := if_neg hrest
    rw [part, if_neg hrest, hcount, List.length_drop, List.length_take] at h
    rw [if_neg hrest, ← UInt64.toNat_inj, UInt64.toNat_zero]
    omega

/-- **Reading a part** of a file gives it exactly if it is in the file. -/
theorem readFile_iff (c : Content) (offset count : UInt64) :
    readFile c.bytes offset count = .ok (part c.bytes offset count) ↔
      Inside c.bytes.length offset count := by
  constructor
  · intro h
    exact inside_of_length c.size_le (length_of_readFile h)
  · intro h
    exact readFile_of_inside c.size_le h

/-- A file of one byte, of which two are asked for. -/
theorem readFile_pads : ¬ ∀ (c : Content) (offset count : UInt64),
    readFile c.bytes offset count = .ok (part c.bytes offset count) := by
  intro hall
  exact absurd (hall ⟨[1], by decide⟩ 0 2) (by decide)

end Primitives.Files
