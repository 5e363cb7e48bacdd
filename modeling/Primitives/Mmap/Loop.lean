import Primitives.Mmap.Model
import Primitives.Lib.Run

/-!
# Reading all records

The loop that calls `read_record` until it returns an invalid stream (`readAll`), over a file of any
content. A length is read from the file and checked by `offset + length <= size`, modulo `2 ^ 64`: a
length near `2 ^ 64` passes, and the loop goes back in the file, where it may read for ever. The loop
ends, goes forward, and returns records inside the file only, exactly where it meets no such length
(`readAll_safe_iff`).
-/

set_option autoImplicit false

namespace Primitives.Mmap

open Lib

/-- The run of a file behind a header, as the loop finds it: where the record's stream starts, and
where the next header is. -/
structure Extent where
  start : Nat
  stop : Nat
deriving DecidableEq, Repr

namespace Stream

/-- `while (auto r = s.read_record())`, for at most `fuel` records: what it finds, when it ends. -/
def readAll (f : MmapFile) : Nat → Stream → Option (List Extent)
  | 0, _ => none
  | fuel + 1, s =>
    match s.readRecord f with
    | .error _ => none
    | .ok (s', r) =>
      if r.isValid f then (readAll f fuel s').map (⟨r.offset, s'.offset⟩ :: ·) else some []

/-- One turn of the loop. -/
def readStep (f : MmapFile) (s : Stream) (_ : Unit) : Option Stream :=
  match s.readRecord f with
  | .error _ => none
  | .ok (s', r) => if r.isValid f then some s' else none

end Stream

/-- The length in the header at the offset. -/
def MmapFile.lengthAt (f : MmapFile) (offset : Nat) : Nat :=
  decodeLE (window f.bytes offset headerSize)

/-! ## One record -/

theorem MmapFile.lengthAt_lt {f : MmapFile} {offset : Nat} (h : offset + headerSize ≤ f.sz) :
    f.lengthAt offset < 2 ^ 64 := by
  have hlt := decodeLE_lt (window f.bytes offset headerSize)
  rw [length_window h] at hlt
  exact hlt

namespace Stream

variable {f : MmapFile} {s : Stream}

/-- The header that `operator>>` reads. -/
theorem get_eq (hsz : f.sz < 2 ^ 63) (hroom : s.offset + headerSize ≤ f.sz) :
    s.get f = .ok (f.lengthAt s.offset, { s with offset := s.offset + headerSize }) := by
  have hwrap : wrap (s.offset + headerSize) = s.offset + headerSize :=
    Nat.mod_eq_of_lt (by omega)
  have hload : f.load s.offset headerSize = .ok (window f.bytes s.offset headerSize) :=
    if_pos hroom
  rw [get, if_pos (by rw [hasRoom, hwrap]; exact decide_eq_true hroom), hload]
  simp only [bind, Except.bind, pure, Except.pure, advance, hwrap]
  rfl

/-- What `read_record` does where there is no room for a header, at a header of zeros, at a header
whose length fails the check, and at one whose length passes it. -/
theorem readRecord_of_lt (hoff : s.offset ≤ f.sz) (hsz : f.sz < 2 ^ 63)
    (hroom : f.sz < s.offset + headerSize) : s.readRecord f = .ok (s, invalid) := by
  have hwrap : wrap (s.offset + headerSize) = s.offset + headerSize :=
    Nat.mod_eq_of_lt (by simp only [headerSize]; omega)
  have hfull : s.hasRoom f headerSize = false := by
    rw [hasRoom, hwrap]
    exact decide_eq_false (Nat.not_le.mpr hroom)
  rw [readRecord, hfull]
  rfl

theorem readRecord_of_le (hsz : f.sz < 2 ^ 63) (hroom : s.offset + headerSize ≤ f.sz) :
    s.readRecord f =
      if f.lengthAt s.offset = 0 then .ok (s, invalid)
      else if wrap (s.offset + headerSize + f.lengthAt s.offset) ≤ f.sz then
        .ok ({ s with offset := wrap (s.offset + headerSize + f.lengthAt s.offset) },
          { offset := s.offset + headerSize })
      else .ok ({ s with offset := s.offset + headerSize }, invalid) := by
  have hwrap : wrap (s.offset + headerSize) = s.offset + headerSize :=
    Nat.mod_eq_of_lt (by omega)
  have hback : wrap (s.offset + headerSize + 2 ^ 64 - headerSize) = s.offset := by
    simp only [wrap, headerSize] at *
    omega
  have hheader : s.hasRoom f headerSize = true := by
    rw [hasRoom, hwrap]
    exact decide_eq_true hroom
  rw [readRecord, if_pos hheader, get_eq hsz hroom]
  simp only [bind, Except.bind, pure, Except.pure, hback, hasRoom, advance, decide_eq_true_eq]

/-- A stream in the file is valid before the file's end. -/
theorem isValid_iff (hsz : f.sz < 2 ^ 63) (offset : Nat) :
    ({ offset := offset } : Stream).isValid f = true ↔ offset < f.sz := by
  have hnpos : offset < f.sz → offset ≠ npos := by
    simp only [npos]
    omega
  have heof : f.eof offset = !decide (offset < f.sz) := by
    rw [MmapFile.eof, ← decide_not, decide_eq_decide, Nat.not_lt]
  rw [isValid, heof, Bool.true_and, Bool.not_not, Bool.and_eq_true, decide_eq_true_eq,
    decide_eq_true_eq, and_iff_right_iff_imp]
  exact hnpos

/-- **What a record is.** It starts behind a header in the file whose length is not zero, and passed
the check. -/
theorem readRecord_valid {s' r : Stream} (hoff : s.offset ≤ f.sz) (hsz : f.sz < 2 ^ 63)
    (h : s.readRecord f = .ok (s', r)) (hvalid : r.isValid f = true) :
    s.offset + headerSize < f.sz ∧ f.lengthAt s.offset ≠ 0 ∧ r.offset = s.offset + headerSize ∧
      s'.offset = wrap (s.offset + headerSize + f.lengthAt s.offset) ∧ s'.offset ≤ f.sz := by
  rcases Nat.lt_or_ge f.sz (s.offset + headerSize) with hroom | hroom
  · rw [readRecord_of_lt hoff hsz hroom] at h
    cases h
    cases hvalid
  · rw [readRecord_of_le hsz hroom] at h
    split at h
    · cases h
      cases hvalid
    · rename_i hzero
      split at h
      · rename_i hcheck
        cases h
        exact ⟨(isValid_iff hsz _).mp hvalid, hzero, rfl, rfl, hcheck⟩
      · cases h
        cases hvalid

/-- A length in the file, or one that the check finds too long. -/
theorem exists_readRecord (hoff : s.offset ≤ f.sz) (hsz : f.sz < 2 ^ 63) :
    ∃ s' r, s.readRecord f = .ok (s', r) := by
  rcases Nat.lt_or_ge f.sz (s.offset + headerSize) with hroom | hroom
  · exact ⟨_, _, readRecord_of_lt hoff hsz hroom⟩
  · rw [readRecord_of_le hsz hroom]
    repeat' split
    all_goals exact ⟨_, _, rfl⟩

end Stream

/-! ## The loop -/

/-- The length in the next header, added to where its record starts, stays within 64 bits. A record
that would start at the file's end is none. -/
def Bounded (f : MmapFile) (s : Stream) : Prop :=
  s.offset + headerSize < f.sz → s.offset + headerSize + f.lengthAt s.offset < 2 ^ 64

instance (f : MmapFile) (s : Stream) : Decidable (Bounded f s) := by
  unfold Bounded
  infer_instance

/-- The record that is read next, if any, takes the stream forward and is inside the file. -/
def Sound (f : MmapFile) (s : Stream) : Prop :=
  ∀ s' r, s.readRecord f = .ok (s', r) → r.isValid f = true →
    s.offset < s'.offset ∧ r.offset + f.lengthAt s.offset ≤ f.sz

theorem sound_iff {f : MmapFile} {s : Stream} (hoff : s.offset ≤ f.sz) (hsz : f.sz < 2 ^ 63) :
    Sound f s ↔ Bounded f s := by
  constructor
  · intro hsound hstart
    have hroom : s.offset + headerSize ≤ f.sz := Nat.le_of_lt hstart
    have hlen := MmapFile.lengthAt_lt hroom
    by_contra hlong
    -- the sum comes out before the record, and so passes the check
    have hback : wrap (s.offset + headerSize + f.lengthAt s.offset) + 2 ^ 64 =
        s.offset + headerSize + f.lengthAt s.offset := by
      rw [wrap]
      omega
    have hread := Stream.readRecord_of_le hsz hroom
    rw [if_neg (by omega), if_pos (by omega)] at hread
    have hin := (hsound _ _ hread ((Stream.isValid_iff hsz _).mpr hstart)).2
    dsimp only at hin
    omega
  · intro hbounded s' r hread hvalid
    obtain ⟨hstart, hzero, hr, hs', hle⟩ := Stream.readRecord_valid hoff hsz hread hvalid
    have hlt := hbounded hstart
    rw [wrap, Nat.mod_eq_of_lt hlt] at hs'
    omega

theorem readStep_eq_some {f : MmapFile} {s s' : Stream} {a : Unit} :
    Stream.readStep f s a = some s' ↔ ∃ r, s.readRecord f = .ok (s', r) ∧ r.isValid f = true := by
  unfold Stream.readStep
  cases hread : s.readRecord f with
  | error e => simp
  | ok x =>
    obtain ⟨t, r⟩ := x
    by_cases hvalid : r.isValid f = true
    · simp [hvalid]
    · simp only [hvalid, Bool.false_eq_true, ↓reduceIte, reduceCtorEq, false_iff]
      rintro ⟨r', heq, hvalid'⟩
      cases heq
      exact hvalid hvalid'

/-- The loop stays in the file. -/
theorem offset_le_of_reachable {f : MmapFile} {s t : Stream} (hoff : s.offset ≤ f.sz)
    (hsz : f.sz < 2 ^ 63) (h : Reachable (Stream.readStep f) s t) : t.offset ≤ f.sz := by
  induction h with
  | refl => exact hoff
  | tail _ _ hs ih =>
    obtain ⟨r, hread, hvalid⟩ := readStep_eq_some.mp hs
    exact (Stream.readRecord_valid ih hsz hread hvalid).2.2.2.2

/-- A loop that goes forward ends: it takes at least one byte of the file with each record. -/
theorem readAll_isSome {f : MmapFile} (hsz : f.sz < 2 ^ 63) {fuel : Nat} :
    ∀ {s : Stream}, s.offset ≤ f.sz →
      (∀ t, Reachable (Stream.readStep f) s t → Sound f t) → f.sz - s.offset < fuel →
      (Stream.readAll f fuel s).isSome = true := by
  induction fuel with
  | zero =>
    intro s _ _ hfuel
    exact absurd hfuel (Nat.not_lt_zero _)
  | succ fuel ih =>
    intro s hoff hsound hfuel
    obtain ⟨s', r, hread⟩ := Stream.exists_readRecord hoff hsz
    rw [Stream.readAll, hread]
    dsimp only
    by_cases hvalid : r.isValid f = true
    · have hstep : Stream.readStep f s () = some s' := readStep_eq_some.mpr ⟨r, hread, hvalid⟩
      have hforward := (hsound s .refl s' r hread hvalid).1
      have hle : s'.offset ≤ f.sz := offset_le_of_reachable hoff hsz (.tail .refl trivial hstep)
      rw [if_pos hvalid, Option.isSome_map]
      exact ih hle (fun t ht => hsound t (ht.head trivial hstep)) (by omega)
    · rw [if_neg hvalid]
      rfl

/-- **Reading a file of any content.** From every offset in it, the loop ends, goes forward with
every record, and returns records inside the file only, exactly when no length that it reads, added
to where the record starts, leaves 64 bits. -/
theorem readAll_safe_iff {f : MmapFile} {s : Stream} (hoff : s.offset ≤ f.sz)
    (hsz : f.sz < 2 ^ 63) :
    ((∃ fuel, (Stream.readAll f fuel s).isSome = true) ∧
        ∀ t, Reachable (Stream.readStep f) s t → Sound f t) ↔
      ∀ t, Reachable (Stream.readStep f) s t → Bounded f t := by
  have hiff : ∀ t, Reachable (Stream.readStep f) s t → (Sound f t ↔ Bounded f t) := by
    intro t ht
    exact sound_iff (offset_le_of_reachable hoff hsz ht) hsz
  constructor
  · rintro ⟨-, hsound⟩ t ht
    exact (hiff t ht).mp (hsound t ht)
  · intro hbounded
    have hsound : ∀ t, Reachable (Stream.readStep f) s t → Sound f t := by
      intro t ht
      exact (hiff t ht).mpr (hbounded t ht)
    exact ⟨⟨_, readAll_isSome hsz hoff hsound (Nat.lt_succ_self _)⟩, hsound⟩

/-- A file with one record of one byte, and zeros. -/
theorem readAll_safe_one :
    ∃ f : MmapFile, f.bytes = encodeLE headerSize 1 ++ [7, 0, 0, 0, 0, 0, 0, 0, 0] ∧
      (∃ fuel, (Stream.readAll f fuel {}).isSome = true) ∧
      ∀ t, Reachable (Stream.readStep f) {} t → Sound f t := by
  refine ⟨⟨_⟩, rfl, (readAll_safe_iff (by decide) (by decide)).mpr fun t ht => ?_⟩
  have hreach : t = {} ∨ t = { offset := 9 } := by
    induction ht with
    | refl => exact .inl rfl
    | tail _ _ hs ih =>
      rcases ih with rfl | rfl
      · exact .inr (Option.some.inj hs).symm
      · cases hs
  rcases hreach with rfl | rfl <;> decide

/-- **A file that is read for ever.** The length `2 ^ 64 - 8` takes the stream back to where it
was. -/
theorem readAll_for_ever :
    ∃ f : MmapFile, f.bytes = encodeLE headerSize (2 ^ 64 - 8) ++ [7, 7, 7, 7, 7, 7, 7, 7] ∧
      Stream.readStep f {} () = some {} ∧ ∀ fuel, Stream.readAll f fuel {} = none := by
  refine ⟨⟨_⟩, rfl, rfl, fun fuel => ?_⟩
  induction fuel with
  | zero => rfl
  | succ fuel ih =>
    rw [Stream.readAll]
    exact congrArg (Option.map _) ih

end Primitives.Mmap
