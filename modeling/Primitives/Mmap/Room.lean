import Primitives.Mmap.Model

/-!
# The room that a record is given

`write_record` asks whether the payload fits and grows the file for the payload alone. The header is
written next, where the payload was to go, and grows the file only if the header itself does not fit.
So the payload can end outside the file; `Fits` says exactly when it does not
(`writeRecord_inside_iff`).

The two checks only look at sizes, so the sizes are followed first (`roomSize`), and the operations
on files are shown to have them.
-/

set_option autoImplicit false

namespace Primitives.Mmap

open Lib

/-! ## Sizes -/

theorem wrap_of_lt {n : Nat} (h : n < 2 ^ 64) : wrap n = n := Nat.mod_eq_of_lt h

/-- The size of a file of `sz` bytes after room was made for `n` bytes at `offset`. -/
def roomSize (sz offset n : Nat) : Nat :=
  if wrap (offset + n) ≤ sz then sz else MmapFile.allocSize sz n

theorem roomSize_of_le {sz offset n : Nat} (h : offset + n < 2 ^ 64) (hle : offset + n ≤ sz) :
    roomSize sz offset n = sz := by
  rw [roomSize, wrap_of_lt h, if_pos hle]

theorem roomSize_of_lt {sz offset n : Nat} (h : offset + n < 2 ^ 64) (hlt : sz < offset + n) :
    roomSize sz offset n = MmapFile.allocSize sz n := by
  rw [roomSize, wrap_of_lt h, if_neg (Nat.not_le.mpr hlt)]

/-- A file that is not empty doubles; where that leaves 64 bits, it shrinks. -/
theorem allocSize_cases {sz : Nat} (n : Nat) (hpos : sz ≠ 0) (hsz : sz < 2 ^ 63)
    (hn : n < 2 ^ 64) :
    sz * 2 + n < 2 ^ 64 ∧ MmapFile.allocSize sz n = sz * 2 + n ∨
    2 ^ 64 ≤ sz * 2 + n ∧ MmapFile.allocSize sz n + 2 ^ 64 = sz * 2 + n := by
  rw [MmapFile.allocSize, if_pos hpos, wrap]
  omega

theorem allocSize_zero {n : Nat} (hn : n < 2 ^ 64) :
    n * 2 < 2 ^ 64 ∧ MmapFile.allocSize 0 n = n * 2 ∨
    2 ^ 64 ≤ n * 2 ∧ MmapFile.allocSize 0 n + 2 ^ 64 = n * 2 := by
  rw [MmapFile.allocSize, if_neg (by decide), wrap]
  omega

/-- **When a record fits** in a file of `sz` bytes at `offset`: header and payload fit as the file is;
or the payload does, but no header, and the file doubles for it; or the payload does not, and the
file, grown for it, is one that has room for the header too or has no room for even that. -/
def Fits (sz offset n : Nat) : Prop :=
  offset + headerSize + n ≤ sz ∨
  (offset + n ≤ sz ∧ sz < offset + headerSize ∧ sz * 2 + headerSize < 2 ^ 64) ∨
  (sz < offset + n ∧ sz ≠ 0 ∧ sz * 2 + n < 2 ^ 64 ∧
    (offset + headerSize ≤ sz * 2 ∨ sz * 2 + n < offset + headerSize)) ∨
  (sz < offset + n ∧ sz = 0 ∧ n * 2 < 2 ^ 64 ∧ (headerSize ≤ n ∨ n * 2 < headerSize))

instance (sz offset n : Nat) : Decidable (Fits sz offset n) := by
  unfold Fits
  infer_instance

/-- What the file's size is after each of the two checks, where no check leaves 64 bits. -/
structure Sizes (limit sz offset n sz' sz'' : Nat) : Prop where
  limit_lt : limit < 2 ^ 63
  offset_le : offset ≤ sz
  end_lt : offset + headerSize + n < 2 ^ 64
  le : sz ≤ limit
  payload : sz' = roomSize sz offset n
  payload_le : sz' ≤ limit
  header : sz'' = roomSize sz' offset headerSize
  header_le : sz'' ≤ limit

/-- The first check: the file is left as it is, doubles, or shrinks. -/
theorem Sizes.payload_cases {limit sz offset n sz' sz'' : Nat}
    (h : Sizes limit sz offset n sz' sz'') :
    offset + n ≤ sz ∧ sz' = sz ∨
      sz < offset + n ∧
        (sz = 0 ∧ (n * 2 < 2 ^ 64 ∧ sz' = n * 2 ∨ 2 ^ 64 ≤ n * 2 ∧ sz' + 2 ^ 64 = n * 2) ∨
          sz ≠ 0 ∧ (sz * 2 + n < 2 ^ 64 ∧ sz' = sz * 2 + n ∨
            2 ^ 64 ≤ sz * 2 + n ∧ sz' + 2 ^ 64 = sz * 2 + n)) := by
  obtain ⟨hlimit, hoff, hn, hsz, rfl, -, -, -⟩ := h
  rcases Nat.lt_or_ge sz (offset + n) with hlt | hle
  · rw [roomSize_of_lt (by omega) hlt]
    refine .inr ⟨hlt, ?_⟩
    by_cases hpos : sz = 0
    · rw [hpos]
      exact .inl ⟨rfl, allocSize_zero (by omega)⟩
    · exact .inr ⟨hpos, allocSize_cases n hpos (by omega) (by omega)⟩
  · exact .inl ⟨hle, roomSize_of_le (by omega) hle⟩

/-- The second check. -/
theorem Sizes.header_cases {limit sz offset n sz' sz'' : Nat}
    (h : Sizes limit sz offset n sz' sz'') :
    offset + headerSize ≤ sz' ∧ sz'' = sz' ∨
      sz' < offset + headerSize ∧
        (sz' = 0 ∧ sz'' = 16 ∨
          sz' ≠ 0 ∧ (sz' * 2 + headerSize < 2 ^ 64 ∧ sz'' = sz' * 2 + headerSize ∨
            2 ^ 64 ≤ sz' * 2 + headerSize ∧ sz'' + 2 ^ 64 = sz' * 2 + headerSize)) := by
  obtain ⟨hlimit, hoff, hn, hsz, -, hle', rfl, -⟩ := h
  rcases Nat.lt_or_ge sz' (offset + headerSize) with hlt | hle
  · rw [roomSize_of_lt (by omega) hlt]
    refine .inr ⟨hlt, ?_⟩
    by_cases hpos : sz' = 0
    · rw [hpos]
      exact .inl ⟨rfl, rfl⟩
    · exact .inr ⟨hpos, allocSize_cases headerSize hpos (by omega) (by decide)⟩
  · exact .inl ⟨hle, roomSize_of_le (by omega) hle⟩

theorem Sizes.le_iff_fits {limit sz offset n sz' sz'' : Nat}
    (h : Sizes limit sz offset n sz' sz'') :
    offset + headerSize + n ≤ sz'' ↔ Fits sz offset n := by
  have hpayload := h.payload_cases
  have hheader := h.header_cases
  obtain ⟨hlimit, hoff, hn, hsz, -, hle', -, hle''⟩ := h
  unfold Fits
  simp only [headerSize] at *
  rcases hpayload with ⟨hroom, rfl⟩ | ⟨hroom, hpayload⟩
  · rcases hheader with ⟨hroom', rfl⟩ | ⟨hroom', hheader⟩ <;> omega
  · rcases hheader with ⟨hroom', rfl⟩ | ⟨hroom', hheader⟩ <;> omega

/-- The file of a record that fits never shrinks. -/
theorem Sizes.mono_of_fits {limit sz offset n sz' sz'' : Nat}
    (h : Sizes limit sz offset n sz' sz'') (hfits : Fits sz offset n) : sz ≤ sz' ∧ sz' ≤ sz'' := by
  have hpayload := h.payload_cases
  have hheader := h.header_cases
  obtain ⟨hlimit, hoff, hn, hsz, -, hle', -, hle''⟩ := h
  unfold Fits at hfits
  simp only [headerSize] at *
  rcases hpayload with ⟨hroom, rfl⟩ | ⟨hroom, hpayload⟩
  · rcases hheader with ⟨hroom', rfl⟩ | ⟨hroom', hheader⟩ <;> omega
  · rcases hheader with ⟨hroom', rfl⟩ | ⟨hroom', hheader⟩ <;> omega

/-! ## Files -/

namespace MmapFile

/-- A file has the size it is given, and is as it was but for zeros at its end unless it shrinks. -/
theorem resize_ok {f f' : MmapFile} {limit size : Nat} (h : f.resize limit size = .ok f') :
    f'.sz = size ∧ size ≤ limit ∧
      (f.sz ≤ size → f'.bytes = f.bytes ++ List.replicate (size - f.sz) 0) := by
  unfold resize at h
  split at h
  · cases h
    refine ⟨?_, ‹_›, fun hgrow => ?_⟩
    · simp only [sz, List.length_append, List.length_take, List.length_replicate]
      omega
    · have htake : f.bytes.take size = f.bytes := List.take_of_length_le hgrow
      rw [htake]
  · cases h

theorem resize_error {f : MmapFile} {limit size : Nat} {e : Failure}
    (h : f.resize limit size = .error e) : e = .resize := by
  unfold resize at h
  split at h <;> cases h
  rfl

/-- A store is inside the file or undefined. -/
theorem store_cases (f : MmapFile) (offset : Nat) (data : List UInt8) :
    offset + data.length ≤ f.sz ∧ f.store offset data = .ok ⟨overwrite f.bytes offset data⟩ ∨
      f.sz < offset + data.length ∧ f.store offset data = .error .outOfBounds := by
  unfold store
  by_cases hle : offset + data.length ≤ f.sz
  · exact .inl ⟨hle, if_pos hle⟩
  · exact .inr ⟨Nat.lt_of_not_le hle, if_neg hle⟩

theorem sz_overwrite {f : MmapFile} {offset : Nat} {data : List UInt8}
    (h : offset + data.length ≤ f.sz) : (mk (overwrite f.bytes offset data)).sz = f.sz :=
  length_overwrite h

end MmapFile

namespace Stream

/-- The file that has room for `n` bytes is as it was but for zeros at its end unless it shrank. -/
theorem makeRoom_ok {s : Stream} {f f' : MmapFile} {limit n : Nat} (hsz : f.sz ≤ limit)
    (h : s.makeRoom f limit n = .ok f') :
    f'.sz = roomSize f.sz s.offset n ∧ f'.sz ≤ limit ∧
      (f.sz ≤ f'.sz → f'.bytes = f.bytes ++ List.replicate (f'.sz - f.sz) 0) := by
  unfold makeRoom hasRoom at h
  unfold roomSize
  split at h
  · rename_i hroom
    cases h
    rw [if_pos (of_decide_eq_true hroom), Nat.sub_self, List.replicate_zero, List.append_nil]
    exact ⟨rfl, hsz, fun _ => rfl⟩
  · rename_i hroom
    rw [decide_eq_true_eq] at hroom
    rw [if_neg hroom]
    obtain ⟨hsize, hle, hbytes⟩ := MmapFile.resize_ok h
    rw [hsize]
    exact ⟨rfl, hle, hbytes⟩

theorem makeRoom_error {s : Stream} {f : MmapFile} {limit n : Nat} {e : Failure}
    (h : s.makeRoom f limit n = .error e) : e = .resize := by
  unfold makeRoom at h
  split at h
  · cases h
  · exact MmapFile.resize_error h

/-- **What `write_record` does.** A resize throws; or room is made twice, and then the header is
stored and the stream left behind the payload, or the header is outside the file. -/
theorem writeRecord_cases (s : Stream) (f : MmapFile) (limit n : Nat) :
    s.writeRecord f limit n = .error .resize ∨
      ∃ f' f'', s.makeRoom f limit n = .ok f' ∧ s.makeRoom f' limit headerSize = .ok f'' ∧
        (s.offset + headerSize ≤ f''.sz ∧
            s.writeRecord f limit n =
              .ok ⟨⟨overwrite f''.bytes s.offset (encodeLE headerSize n)⟩,
                (s.advance headerSize).advance n, { offset := wrap (s.offset + headerSize) }⟩ ∨
          f''.sz < s.offset + headerSize ∧ s.writeRecord f limit n = .error .outOfBounds) := by
  unfold writeRecord put
  cases hf' : s.makeRoom f limit n with
  | error e =>
    rw [makeRoom_error hf']
    exact .inl rfl
  | ok f' =>
    simp only [bind, Except.bind]
    cases hf'' : s.makeRoom f' limit headerSize with
    | error e =>
      rw [makeRoom_error hf'']
      exact .inl rfl
    | ok f'' =>
      refine .inr ⟨f', f'', rfl, hf'', ?_⟩
      dsimp only
      rcases f''.store_cases s.offset (encodeLE headerSize n) with ⟨hle, hst⟩ | ⟨hlt, hst⟩
      · rw [length_encodeLE] at hle
        rw [hst]
        exact .inl ⟨hle, rfl⟩
      · rw [length_encodeLE] at hlt
        rw [hst]
        exact .inr ⟨hlt, rfl⟩

end Stream

/-- The header in front of the record's stream and the `n` bytes that the stream starts at are in
the file. -/
def Stream.Written.Inside (w : Stream.Written) (n : Nat) : Prop :=
  headerSize ≤ w.record.offset ∧ w.record.offset + n ≤ w.file.sz

instance (w : Stream.Written) (n : Nat) : Decidable (w.Inside n) := by
  unfold Stream.Written.Inside
  infer_instance

/-- **A record is inside the file exactly when it fits.** For every size that a file can have, every
offset in it and every length, unless the file cannot be resized. -/
theorem writeRecord_inside_iff {limit n : Nat} {f : MmapFile} {s : Stream} (hlimit : limit < 2 ^ 63)
    (hsz : f.sz ≤ limit) (hoff : s.offset ≤ f.sz) (hn : s.offset + headerSize + n < 2 ^ 64)
    (hresize : s.writeRecord f limit n ≠ .error .resize) :
    (∃ w, s.writeRecord f limit n = .ok w ∧ w.Inside n) ↔ Fits f.sz s.offset n := by
  rcases s.writeRecord_cases f limit n with herr | ⟨f', f'', hf', hf'', hwrite⟩
  · exact absurd herr hresize
  · obtain ⟨hsz', hle', -⟩ := Stream.makeRoom_ok hsz hf'
    obtain ⟨hsz'', hle'', -⟩ := Stream.makeRoom_ok hle' hf''
    have hsizes : Sizes limit f.sz s.offset n f'.sz f''.sz :=
      ⟨hlimit, hoff, hn, hsz, hsz', hle', hsz'', hle''⟩
    rw [← hsizes.le_iff_fits]
    have hrecord : wrap (s.offset + headerSize) = s.offset + headerSize := wrap_of_lt (by omega)
    constructor
    · rintro ⟨w, hw, -, hin⟩
      rcases hwrite with ⟨hheader, hok⟩ | ⟨-, hundef⟩
      · rw [hok] at hw
        cases hw
        rw [MmapFile.sz_overwrite (by rw [length_encodeLE]; exact hheader), hrecord] at hin
        exact hin
      · rw [hundef] at hw
        cases hw
    · intro hin
      rcases hwrite with ⟨hheader, hok⟩ | ⟨hheader, -⟩
      · refine ⟨_, hok, ?_, ?_⟩
        · rw [hrecord]
          exact Nat.le_add_left _ _
        · rw [MmapFile.sz_overwrite (by rw [length_encodeLE]; exact hheader), hrecord]
          exact hin
      · omega

/-- A record that the file doubles for: the file of 16 bytes is full, and its payload of 20 bytes
fits behind the header. -/
theorem writeRecord_inside_grown :
    ∃ w, ({ offset := 16 } : Stream).writeRecord ⟨List.replicate 16 7⟩ 4096 20 = .ok w ∧
      w.Inside 20 := by
  refine (writeRecord_inside_iff (by decide) (by decide) (by decide) (by decide) ?_).mpr
    (by decide)
  decide

/-- **A record that ends outside the file.** A payload of 10 bytes fits at offset 10 of a file of 20
bytes, so the file does not grow, and neither does it for the header: of the payload, 8 bytes are
outside. -/
theorem writeRecord_outside :
    ∃ w, ({ offset := 10 } : Stream).writeRecord ⟨List.replicate 20 7⟩ 4096 10 = .ok w ∧
      w.record.offset = 18 ∧ w.file.sz = 20 ∧ ¬ w.Inside 10 := by
  refine ⟨_, rfl, ?_⟩
  decide

end Primitives.Mmap
