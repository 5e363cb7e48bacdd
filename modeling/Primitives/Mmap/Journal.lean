import Primitives.Mmap.Room
import Primitives.Mmap.Loop

/-!
# A journal is read back

Records are written one after another to a new file, each payload inside the file. The file is then
the records, header and payload in turn, and zeros (`Journal`), since it never shrinks, grows by
zeros, and no store reaches what was stored before. A fresh stream reads the records and stops at
the zeros, or where no header has room (`read_back`).
-/

set_option autoImplicit false

namespace Primitives.Mmap

open Lib

/-- `write_record` and the payload into the stream that it returns, for one payload after another. -/
def writeAll (limit : Nat) : MmapFile → Stream → List (List UInt8) →
    Except Failure (MmapFile × Stream)
  | f, s, [] => .ok (f, s)
  | f, s, p :: ps => do
    let w ← s.writeRecord f limit p.length
    let f ← w.file.store w.record.offset p
    writeAll limit f w.stream ps

/-- A payload behind its header. -/
def record (p : List UInt8) : List UInt8 := encodeLE headerSize p.length ++ p

def records (ps : List (List UInt8)) : List UInt8 := ps.flatMap record

theorem length_record (p : List UInt8) : (record p).length = headerSize + p.length := by
  rw [record, List.length_append, length_encodeLE]

theorem records_append_singleton (ps : List (List UInt8)) (p : List UInt8) :
    records (ps ++ [p]) = records ps ++ record p := by
  rw [records, List.flatMap_append, List.flatMap_singleton]
  rfl

/-- The file holds the records, and zeros behind them, where the stream is. -/
structure Journal (limit : Nat) (f : MmapFile) (s : Stream) (ps : List (List UInt8)) : Prop where
  zeros : ∃ k, f.bytes = records ps ++ List.replicate k 0
  offset : s.offset = (records ps).length
  size : f.sz ≤ limit

theorem Journal.empty (limit : Nat) : Journal limit .empty {} [] :=
  ⟨⟨0, rfl⟩, rfl, Nat.zero_le _⟩

theorem Journal.offset_le {limit : Nat} {f : MmapFile} {s : Stream} {ps : List (List UInt8)}
    (h : Journal limit f s ps) : s.offset ≤ f.sz := by
  obtain ⟨k, hbytes⟩ := h.zeros
  rw [h.offset, MmapFile.sz, hbytes, List.length_append]
  exact Nat.le_add_right _ _

/-- Zeros are added to zeros. -/
theorem grown_trans {xs ys zs : List UInt8} (h : ∃ k, ys = xs ++ List.replicate k 0)
    (h' : ∃ k, zs = ys ++ List.replicate k 0) : ∃ k, zs = xs ++ List.replicate k 0 := by
  obtain ⟨k, rfl⟩ := h
  obtain ⟨l, rfl⟩ := h'
  exact ⟨k + l, by rw [List.append_assoc, List.replicate_append_replicate]⟩

/-- **A record inside the file.** The file is as it was but for zeros at its end, and for the header
that stands where the stream was. -/
theorem writeRecord_inside {limit n : Nat} {f : MmapFile} {s : Stream} {w : Stream.Written}
    (hlimit : limit < 2 ^ 63) (hsz : f.sz ≤ limit) (hoff : s.offset ≤ f.sz)
    (hwrite : s.writeRecord f limit n = .ok w) (hin : w.record.offset + n ≤ w.file.sz) :
    w.record.offset = s.offset + headerSize ∧ w.stream.offset = s.offset + headerSize + n ∧
      w.file.sz ≤ limit ∧ ∃ bytes, (∃ k, bytes = f.bytes ++ List.replicate k 0) ∧
        s.offset + headerSize + n ≤ bytes.length ∧
        w.file.bytes = overwrite bytes s.offset (encodeLE headerSize n) := by
  rcases s.writeRecord_cases f limit n with herr | ⟨f₁, f₂, hf₁, hf₂, ⟨hheader, hok⟩ | ⟨-, hundef⟩⟩
  · rw [herr] at hwrite
    cases hwrite
  · rw [hok] at hwrite
    cases hwrite
    obtain ⟨hsz₁, hle₁, hgrown₁⟩ := Stream.makeRoom_ok hsz hf₁
    obtain ⟨hsz₂, hle₂, hgrown₂⟩ := Stream.makeRoom_ok hle₁ hf₂
    have hfile : (MmapFile.mk (overwrite f₂.bytes s.offset (encodeLE headerSize n))).sz = f₂.sz :=
      MmapFile.sz_overwrite (by rw [length_encodeLE]; exact hheader)
    have hstart : wrap (s.offset + headerSize) = s.offset + headerSize := wrap_of_lt (by omega)
    rw [hfile] at hin ⊢
    dsimp only [Stream.advance] at hin ⊢
    rw [hstart] at hin ⊢
    -- the payload is inside, so it fits, and the file has not shrunk
    have hsizes : Sizes limit f.sz s.offset n f₁.sz f₂.sz :=
      ⟨hlimit, hoff, by omega, hsz, hsz₁, hle₁, hsz₂, hle₂⟩
    obtain ⟨hmono₁, hmono₂⟩ := hsizes.mono_of_fits (hsizes.le_iff_fits.mp hin)
    refine ⟨rfl, wrap_of_lt (by omega), hle₂, f₂.bytes, ?_, hin, rfl⟩
    exact grown_trans ⟨_, hgrown₁ hmono₁⟩ ⟨_, hgrown₂ hmono₂⟩
  · rw [hundef] at hwrite
    cases hwrite

/-- Zeros that a header and its payload are stored over. -/
theorem overwrite_record {xs : List UInt8} {k : Nat} {p : List UInt8}
    (h : headerSize + p.length ≤ k) :
    overwrite (overwrite (xs ++ List.replicate k 0) xs.length (encodeLE headerSize p.length))
        (xs.length + headerSize) p =
      xs ++ record p ++ List.replicate (k - headerSize - p.length) 0 := by
  have hlen : xs.length + headerSize = (xs ++ encodeLE headerSize p.length).length := by
    rw [List.length_append, length_encodeLE]
  rw [overwrite_replicate (by rw [length_encodeLE]; omega), length_encodeLE, ← List.append_assoc,
    hlen, overwrite_replicate (by omega), record, ← List.append_assoc, ← List.append_assoc]

/-- **One record.** The zeros where it is written become its header and its payload. -/
theorem Journal.write {limit : Nat} {f f' : MmapFile} {s : Stream} {w : Stream.Written}
    {p : List UInt8} {ps : List (List UInt8)} (hlimit : limit < 2 ^ 63) (h : Journal limit f s ps)
    (hwrite : s.writeRecord f limit p.length = .ok w)
    (hstore : w.file.store w.record.offset p = .ok f') : Journal limit f' w.stream (ps ++ [p]) := by
  rcases w.file.store_cases w.record.offset p with ⟨hin, hok⟩ | ⟨-, hundef⟩
  · rw [hok] at hstore
    cases hstore
    obtain ⟨hrecord, hstream, hle, bytes, hgrown, hroom, hfile⟩ :=
      writeRecord_inside hlimit h.size h.offset_le hwrite hin
    obtain ⟨k, rfl⟩ := grown_trans h.zeros hgrown
    have hfits : headerSize + p.length ≤ k := by
      rw [List.length_append, List.length_replicate, h.offset] at hroom
      omega
    refine ⟨⟨k - headerSize - p.length, ?_⟩, ?_, ?_⟩
    · rw [hfile, hrecord, h.offset, overwrite_record hfits, records_append_singleton]
    · rw [hstream, h.offset, records_append_singleton, List.length_append, length_record,
        Nat.add_assoc]
    · rw [MmapFile.sz_overwrite hin]
      exact hle
  · rw [hundef] at hstore
    cases hstore

/-- Every run of writes leaves a journal. -/
theorem journal_of_writeAll {limit : Nat} (hlimit : limit < 2 ^ 63) {ps : List (List UInt8)} :
    ∀ {f f' : MmapFile} {s s' : Stream} {qs : List (List UInt8)}, Journal limit f s qs →
      writeAll limit f s ps = .ok (f', s') → Journal limit f' s' (qs ++ ps) := by
  induction ps with
  | nil =>
    intro f f' s s' qs h hwrite
    cases hwrite
    rw [List.append_nil]
    exact h
  | cons p ps ih =>
    intro f f' s s' qs h hwrite
    rw [writeAll] at hwrite
    cases hw : s.writeRecord f limit p.length with
    | error e =>
      rw [hw] at hwrite
      cases hwrite
    | ok w =>
      cases hstore : w.file.store w.record.offset p with
      | error e =>
        simp only [hw, hstore, bind, Except.bind] at hwrite
        cases hwrite
      | ok g =>
        simp only [hw, hstore, bind, Except.bind] at hwrite
        have hnext := ih (h.write hlimit hw hstore) hwrite
        rw [List.append_assoc] at hnext
        exact hnext

/-! ## Reading -/

/-- The payload of an extent. -/
def MmapFile.payload (f : MmapFile) (e : Extent) : List UInt8 :=
  window f.bytes e.start (e.stop - e.start)

/-- The length in front of a payload. -/
theorem lengthAt_record {f : MmapFile} {xs zs p : List UInt8}
    (hbytes : f.bytes = xs ++ (record p ++ zs)) (hlt : p.length < 2 ^ 64) :
    f.lengthAt xs.length = p.length := by
  have hwindow : window f.bytes xs.length headerSize = encodeLE headerSize p.length := by
    have h := window_append xs (encodeLE headerSize p.length) (p ++ zs)
    rw [length_encodeLE] at h
    rw [hbytes, record, List.append_assoc]
    exact h
  rw [MmapFile.lengthAt, hwindow, decodeLE_encodeLE hlt]

theorem payload_record {f : MmapFile} {xs zs p : List UInt8}
    (hbytes : f.bytes = xs ++ (record p ++ zs)) :
    f.payload ⟨xs.length + headerSize, xs.length + headerSize + p.length⟩ = p := by
  have h := window_append (xs ++ encodeLE headerSize p.length) p zs
  rw [List.length_append, length_encodeLE, List.append_assoc] at h
  rw [MmapFile.payload, hbytes, record, List.append_assoc, Nat.add_sub_cancel_left]
  exact h

/-- A record is read, and the stream is behind it. -/
theorem readRecord_record {f : MmapFile} {s : Stream} {xs zs p : List UInt8}
    (hsz : f.sz < 2 ^ 63) (hbytes : f.bytes = xs ++ (record p ++ zs)) (hne : p ≠ [])
    (hoff : s.offset = xs.length) :
    s.readRecord f = .ok ({ s with offset := xs.length + headerSize + p.length },
      { offset := xs.length + headerSize }) := by
  have hlen : f.sz = xs.length + (headerSize + p.length + zs.length) := by
    rw [MmapFile.sz, hbytes, List.length_append, List.length_append, length_record]
  have hlength : f.lengthAt s.offset = p.length := by
    rw [hoff]
    exact lengthAt_record hbytes (by omega)
  have hwrap : wrap (s.offset + headerSize + p.length) = xs.length + headerSize + p.length := by
    rw [hoff]
    exact wrap_of_lt (by omega)
  rw [Stream.readRecord_of_le hsz (by omega), hlength, if_neg (by simp [hne]), hwrap,
    if_pos (by omega), hoff]

/-- The zeros end the journal, as does the file's end. -/
theorem readRecord_zeros {f : MmapFile} {s : Stream} {xs : List UInt8} {k : Nat}
    (hsz : f.sz < 2 ^ 63) (hbytes : f.bytes = xs ++ List.replicate k 0)
    (hoff : s.offset = xs.length) : s.readRecord f = .ok (s, Stream.invalid) := by
  have hlen : f.sz = xs.length + k := by
    rw [MmapFile.sz, hbytes, List.length_append, List.length_replicate]
  rcases Nat.lt_or_ge f.sz (s.offset + headerSize) with hroom | hroom
  · exact Stream.readRecord_of_lt (by omega) hsz hroom
  · have hzero : f.lengthAt s.offset = 0 := by
      rw [MmapFile.lengthAt, hoff, hbytes, window, List.drop_left, List.take_replicate,
        decodeLE_replicate_zero]
    rw [Stream.readRecord_of_le hsz hroom, if_pos hzero]

theorem readAll_records {f : MmapFile} {k : Nat} (hsz : f.sz < 2 ^ 63) {ps : List (List UInt8)} :
    ∀ {s : Stream} {xs : List UInt8} {fuel : Nat},
      f.bytes = xs ++ (records ps ++ List.replicate k 0) → s.offset = xs.length →
      (∀ p ∈ ps, p ≠ []) → ps.length < fuel →
      ∃ es, Stream.readAll f fuel s = some es ∧ es.map f.payload = ps := by
  induction ps with
  | nil =>
    intro s xs fuel hbytes hoff _ hfuel
    cases fuel with
    | zero => cases hfuel
    | succ fuel =>
      refine ⟨[], ?_, rfl⟩
      rw [Stream.readAll, readRecord_zeros hsz hbytes hoff]
      rfl
  | cons p ps ih =>
    intro s xs fuel hbytes hoff hne hfuel
    cases fuel with
    | zero => cases hfuel
    | succ fuel =>
      have hcons : f.bytes = xs ++ (record p ++ (records ps ++ List.replicate k 0)) := by
        rw [hbytes, records, List.flatMap_cons, List.append_assoc]
        rfl
      have hp : p ≠ [] := hne p List.mem_cons_self
      have hstop : xs.length + headerSize + p.length = (xs ++ record p).length := by
        rw [List.length_append, length_record, Nat.add_assoc]
      have hread := readRecord_record hsz hcons hp hoff
      have hvalid : ({ offset := xs.length + headerSize } : Stream).isValid f = true := by
        refine (Stream.isValid_iff hsz _).mpr ?_
        have hpos := List.length_pos_of_ne_nil hp
        rw [MmapFile.sz, hcons, List.length_append, List.length_append, length_record]
        omega
      have hrest : f.bytes = (xs ++ record p) ++ (records ps ++ List.replicate k 0) := by
        rw [hcons, List.append_assoc]
      obtain ⟨es, hes, hpayloads⟩ := ih hrest (s := { s with offset := _ }) hstop
        (fun q hq => hne q (List.mem_cons_of_mem p hq)) (Nat.lt_of_succ_lt_succ hfuel)
      refine ⟨⟨xs.length + headerSize, xs.length + headerSize + p.length⟩ :: es, ?_, ?_⟩
      · rw [Stream.readAll, hread]
        dsimp only
        rw [if_pos hvalid, hes]
        rfl
      · rw [List.map_cons, hpayloads, payload_record hcons]

/-- **The journal is read back.** However many records are written to a new file, none of them empty
and each with its payload inside the file, the loop then finds those payloads, in order, and no
more. -/
theorem read_back {limit : Nat} {ps : List (List UInt8)} {f : MmapFile} {s : Stream} {fuel : Nat}
    (hlimit : limit < 2 ^ 63) (hne : ∀ p ∈ ps, p ≠ [])
    (hwrite : writeAll limit .empty {} ps = .ok (f, s)) (hfuel : ps.length < fuel) :
    ∃ es, Stream.readAll f fuel {} = some es ∧ es.map f.payload = ps := by
  have hjournal : Journal limit f s ps := journal_of_writeAll hlimit (.empty limit) hwrite
  obtain ⟨k, hbytes⟩ := hjournal.zeros
  have hstart : f.bytes = [] ++ (records ps ++ List.replicate k 0) := hbytes
  exact readAll_records (Nat.lt_of_le_of_lt hjournal.size hlimit) hstart rfl hne hfuel

/-- Two records: the file is made twice as long as the first payload, and grows for the second. -/
theorem read_back_two :
    ∃ f s, writeAll 4096 .empty {} [List.replicate 9 1, [2, 3]] = .ok (f, s) ∧ f.sz = 38 ∧
      ∃ es, Stream.readAll f 3 {} = some es ∧
        es.map f.payload = [List.replicate 9 1, [2, 3]] := by
  have hwrite : ∃ x, writeAll 4096 .empty {} [List.replicate 9 1, [2, 3]] = .ok x ∧
      x.1.sz = 38 := ⟨_, rfl, by decide⟩
  obtain ⟨⟨f, s⟩, hwrite, hsz⟩ := hwrite
  exact ⟨f, s, hwrite, hsz, read_back (by decide) (by decide) hwrite (by decide)⟩

end Primitives.Mmap
