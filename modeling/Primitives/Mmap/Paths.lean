import Primitives.Mmap.Journal

/-!
# Paths in a stream

`stream << path` writes the length of a path and its bytes, and makes room for both at once, so that
every path is written inside the file (`Journal.putPath`). `stream >> path` takes a length of zero
for the zeros behind the last path. An empty path is written with that length: reading stops at it
(`readPaths_back`), and goes through exactly where no path is empty.
-/

set_option autoImplicit false

namespace Primitives.Mmap

open Lib

namespace Stream

/-- `operator<<` of a path. -/
def putPath (s : Stream) (f : MmapFile) (limit : Nat) (p : List UInt8) :
    Except Failure (MmapFile × Stream) := do
  let f ← s.makeRoom f limit (wrap (p.length + headerSize))
  let (f, s) ← s.put f limit p.length
  let f ← f.store s.offset p
  return (f, s.advance p.length)

/-- `make_eof`. -/
def makeEof (s : Stream) : List UInt8 × Stream := ([], { s with ok := false })

/-- `operator>>` of a path. -/
def getPath (s : Stream) (f : MmapFile) : Except Failure (List UInt8 × Stream) :=
  if s.hasRoom f headerSize then do
    let (len, s) ← s.get f
    if ¬ s.hasRoom f len ∨ len = 0 then
      return makeEof { s with offset := wrap (s.offset + 2 ^ 64 - headerSize) }
    else
      let p ← f.load s.offset len
      return (p, s.advance len)
  else return s.makeEof

end Stream

/-- The paths are written one after another. -/
def writePaths (limit : Nat) : MmapFile → Stream → List (List UInt8) →
    Except Failure (MmapFile × Stream)
  | f, s, [] => .ok (f, s)
  | f, s, p :: ps => do
    let (f, s) ← s.putPath f limit p
    writePaths limit f s ps

/-- `n` paths are read one after another, each with `ok` as it is then. -/
def readPaths (f : MmapFile) : Nat → Stream → Except Failure (List (List UInt8 × Bool))
  | 0, _ => .ok []
  | n + 1, s => do
    let (p, s) ← s.getPath f
    let ps ← readPaths f n s
    return (p, s.ok) :: ps

/-! ## Writing -/

/-- Room for a length and a path: the file is as it was, with more zeros. -/
theorem makeRoom_path {limit : Nat} {f f' : MmapFile} {s : Stream} {p : List UInt8}
    (hlimit : limit < 2 ^ 62) (hp : p.length < 2 ^ 62) (hsz : f.sz ≤ limit) (hoff : s.offset ≤ f.sz)
    (h : s.makeRoom f limit (wrap (p.length + headerSize)) = .ok f') :
    (∃ k, f'.bytes = f.bytes ++ List.replicate k 0) ∧ f'.sz ≤ limit ∧
      s.offset + headerSize + p.length ≤ f'.sz := by
  have hsize : wrap (p.length + headerSize) = p.length + headerSize := by
    refine wrap_of_lt ?_
    simp only [headerSize]
    omega
  rw [hsize] at h
  obtain ⟨hroom, hle, hbytes⟩ := Stream.makeRoom_ok hsz h
  have hgrown : f.sz ≤ f'.sz ∧ s.offset + headerSize + p.length ≤ f'.sz := by
    rw [hroom]
    simp only [headerSize] at *
    rcases Nat.lt_or_ge f.sz (s.offset + (p.length + 8)) with hlt | hge
    · rw [roomSize_of_lt (by omega) hlt, MmapFile.allocSize]
      split
      · rw [wrap_of_lt (by omega)]
        omega
      · rw [wrap_of_lt (by omega)]
        omega
    · rw [roomSize_of_le (by omega) hge]
      omega
  exact ⟨⟨_, hbytes hgrown.1⟩, hle, hgrown.2⟩

/-- Where there is room for a length, it is stored. -/
theorem put_ok {limit n : Nat} {f : MmapFile} {s : Stream} (hsz : f.sz < 2 ^ 63)
    (hroom : s.offset + headerSize ≤ f.sz) :
    s.put f limit n = .ok (⟨overwrite f.bytes s.offset (encodeLE headerSize n)⟩,
      { s with offset := s.offset + headerSize }) := by
  have hwrap : wrap (s.offset + headerSize) = s.offset + headerSize := wrap_of_lt (by omega)
  have hmake : s.makeRoom f limit headerSize = .ok f := by
    rw [Stream.makeRoom, Stream.hasRoom, hwrap, decide_eq_true hroom, if_pos rfl]
  have hstore : f.store s.offset (encodeLE headerSize n) =
      .ok ⟨overwrite f.bytes s.offset (encodeLE headerSize n)⟩ := by
    rw [MmapFile.store, length_encodeLE, if_pos hroom]
  rw [Stream.put, hmake]
  simp only [bind, Except.bind, hstore, pure, Except.pure, Stream.advance, hwrap]

/-- **A path is written** behind the others, unless the file cannot be resized. -/
theorem Journal.putPath {limit : Nat} {f : MmapFile} {s : Stream} {p : List UInt8}
    {ps : List (List UInt8)} (hlimit : limit < 2 ^ 62) (hp : p.length < 2 ^ 62)
    (h : Journal limit f s ps) :
    s.putPath f limit p = .error .resize ∨
      ∃ f' s', s.putPath f limit p = .ok (f', s') ∧ Journal limit f' s' (ps ++ [p]) := by
  rw [Stream.putPath]
  cases hmake : s.makeRoom f limit (wrap (p.length + headerSize)) with
  | error e =>
    rw [Stream.makeRoom_error hmake]
    exact .inl rfl
  | ok f₁ =>
    obtain ⟨hgrown, hle, hroom⟩ := makeRoom_path hlimit hp h.size h.offset_le hmake
    have hheader : s.offset + headerSize ≤ f₁.sz := by omega
    have hfile : (MmapFile.mk (overwrite f₁.bytes s.offset (encodeLE headerSize p.length))).sz =
        f₁.sz := MmapFile.sz_overwrite (by rw [length_encodeLE]; exact hheader)
    have hin : s.offset + headerSize + p.length ≤
        (MmapFile.mk (overwrite f₁.bytes s.offset (encodeLE headerSize p.length))).sz := by
      rw [hfile]
      exact hroom
    have hwrap : wrap (s.offset + headerSize + p.length) = s.offset + headerSize + p.length :=
      wrap_of_lt (by omega)
    refine .inr ⟨⟨overwrite (overwrite f₁.bytes s.offset (encodeLE headerSize p.length))
      (s.offset + headerSize) p⟩, { s with offset := s.offset + headerSize + p.length }, ?_, ?_⟩
    · simp only [bind, Except.bind, put_ok (by omega) hheader, MmapFile.store, if_pos hin, pure,
        Except.pure, Stream.advance, hwrap]
    · obtain ⟨k, hbytes⟩ := grown_trans h.zeros hgrown
      have hfits : headerSize + p.length ≤ k := by
        rw [MmapFile.sz, hbytes, List.length_append, List.length_replicate, h.offset] at hroom
        omega
      refine ⟨⟨k - headerSize - p.length, ?_⟩, ?_, ?_⟩
      · rw [h.offset, hbytes, overwrite_record hfits, records_append_singleton]
      · dsimp only
        rw [h.offset, records_append_singleton, List.length_append, length_record, Nat.add_assoc]
      · rw [MmapFile.sz_overwrite hin, hfile]
        exact hle

/-- Every run of writes leaves a journal, unless the file cannot be resized. -/
theorem journal_of_writePaths {limit : Nat} (hlimit : limit < 2 ^ 62) {ps : List (List UInt8)} :
    ∀ {f : MmapFile} {s : Stream} {qs : List (List UInt8)}, (∀ p ∈ ps, p.length < 2 ^ 62) →
      Journal limit f s qs →
      writePaths limit f s ps = .error .resize ∨
        ∃ f' s', writePaths limit f s ps = .ok (f', s') ∧ Journal limit f' s' (qs ++ ps) := by
  induction ps with
  | nil =>
    intro f s qs _ h
    exact .inr ⟨f, s, rfl, by rwa [List.append_nil]⟩
  | cons p ps ih =>
    intro f s qs hps h
    obtain ⟨hp, hrest⟩ := List.forall_mem_cons.mp hps
    rw [writePaths]
    rcases h.putPath hlimit hp with herr | ⟨f₁, s₁, hput, h₁⟩
    · rw [herr]
      exact .inl rfl
    · rw [hput]
      have hnext := ih hrest h₁
      rw [List.append_assoc] at hnext
      exact hnext

/-! ## Reading -/

/-- A path that is not empty is read, and the stream is behind it. -/
theorem getPath_record {f : MmapFile} {s : Stream} {xs zs p : List UInt8} (hsz : f.sz < 2 ^ 63)
    (hbytes : f.bytes = xs ++ (record p ++ zs)) (hne : p ≠ []) (hoff : s.offset = xs.length) :
    s.getPath f = .ok (p, { s with offset := (xs ++ record p).length }) := by
  have hlen : f.sz = xs.length + (headerSize + p.length + zs.length) := by
    rw [MmapFile.sz, hbytes, List.length_append, List.length_append, length_record]
  have hlength : f.lengthAt s.offset = p.length := by
    rw [hoff]
    exact lengthAt_record hbytes (by omega)
  have hload : f.load (s.offset + headerSize) p.length = .ok p := by
    have hpayload := payload_record hbytes
    rw [MmapFile.payload, Nat.add_sub_cancel_left] at hpayload
    rw [MmapFile.load, if_pos (by omega), hoff, hpayload]
  have hheader : s.hasRoom f headerSize = true := by
    rw [Stream.hasRoom, wrap_of_lt (by omega)]
    exact decide_eq_true (by omega)
  have hwrap : wrap (s.offset + headerSize + p.length) = s.offset + headerSize + p.length :=
    wrap_of_lt (by omega)
  have hguard : ¬ (¬ Stream.hasRoom { s with offset := s.offset + headerSize } f p.length = true ∨
      p.length = 0) := by
    rintro (hfull | hzero)
    · refine hfull ?_
      rw [Stream.hasRoom, hwrap]
      exact decide_eq_true (by omega)
    · exact hne (List.eq_nil_of_length_eq_zero hzero)
  have hstop : s.offset + headerSize + p.length = (xs ++ record p).length := by
    rw [List.length_append, length_record, hoff, Nat.add_assoc]
  rw [Stream.getPath, if_pos hheader, Stream.get_eq hsz (by omega), hlength]
  simp only [bind, Except.bind]
  rw [if_neg hguard, hload]
  simp only [pure, Except.pure, Stream.advance]
  rw [hwrap, hstop]

/-- Zeros are no path, and neither is the end of the file. -/
theorem getPath_zeros {f : MmapFile} {s : Stream} {xs zs : List UInt8} (hsz : f.sz < 2 ^ 63)
    (hbytes : f.bytes = xs ++ zs) (hzeros : zs.take headerSize = List.replicate headerSize 0 ∨
      zs.length < headerSize) (hoff : s.offset = xs.length) :
    ∃ s', s.getPath f = .ok ([], s') ∧ s'.ok = false := by
  have hlen : f.sz = xs.length + zs.length := by
    rw [MmapFile.sz, hbytes, List.length_append]
  rcases Nat.lt_or_ge f.sz (s.offset + headerSize) with hroom | hroom
  · have hfull : s.hasRoom f headerSize = false := by
      rw [Stream.hasRoom, wrap_of_lt (by simp only [headerSize]; omega)]
      exact decide_eq_false (Nat.not_le.mpr hroom)
    refine ⟨{ s with ok := false }, ?_, rfl⟩
    rw [Stream.getPath, hfull]
    rfl
  · have hheader : s.hasRoom f headerSize = true := by
      rw [Stream.hasRoom, wrap_of_lt (by omega)]
      exact decide_eq_true hroom
    have hzero : f.lengthAt s.offset = 0 := by
      rcases hzeros with hzeros | hshort
      · rw [MmapFile.lengthAt, hoff, hbytes, window, List.drop_left, hzeros,
          decodeLE_replicate_zero]
      · omega
    refine ⟨{ offset := wrap (s.offset + headerSize + 2 ^ 64 - headerSize), ok := false }, ?_, rfl⟩
    rw [Stream.getPath, if_pos hheader, Stream.get_eq hsz hroom, hzero]
    simp only [bind, Except.bind, or_true, if_true, pure, Except.pure, Stream.makeEof]

/-- Paths that are not empty are read up to what is no path. -/
theorem readPaths_records {f : MmapFile} (hsz : f.sz < 2 ^ 63) {zs : List UInt8}
    (hzeros : zs.take headerSize = List.replicate headerSize 0 ∨ zs.length < headerSize)
    {ps : List (List UInt8)} : ∀ {s : Stream} {xs : List UInt8},
      f.bytes = xs ++ (records ps ++ zs) → s.offset = xs.length → s.ok = true →
      (∀ p ∈ ps, p ≠ []) →
      readPaths f (ps.length + 1) s = .ok (ps.map (·, true) ++ [([], false)]) := by
  induction ps with
  | nil =>
    intro s xs hbytes hoff _ _
    obtain ⟨s', hget, hok⟩ := getPath_zeros hsz hbytes hzeros hoff
    rw [List.length_nil, readPaths, hget]
    simp only [bind, Except.bind, readPaths, pure, Except.pure, hok, List.map_nil, List.nil_append]
  | cons p ps ih =>
    intro s xs hbytes hoff hok hne
    obtain ⟨hp, hrest⟩ := List.forall_mem_cons.mp hne
    have hcons : f.bytes = xs ++ (record p ++ (records ps ++ zs)) := by
      rw [hbytes, records, List.flatMap_cons, List.append_assoc]
      rfl
    have hbehind : f.bytes = (xs ++ record p) ++ (records ps ++ zs) := by
      rw [hcons, List.append_assoc]
    have hnext := ih (s := { s with offset := (xs ++ record p).length }) hbehind rfl hok hrest
    rw [List.length_cons, readPaths, getPath_record hsz hcons hp hoff]
    simp only [bind, Except.bind]
    rw [hnext]
    simp only [pure, Except.pure, hok, List.map_cons, List.cons_append]

/-- What stands behind the paths before the first empty one begins with zeros, or is too short for a
length. -/
theorem records_behind (ps : List (List UInt8)) (k : Nat) :
    ∃ zs, records ps ++ List.replicate k 0 = records (ps.takeWhile (· ≠ [])) ++ zs ∧
      (zs.take headerSize = List.replicate headerSize 0 ∨ zs.length < headerSize) := by
  induction ps with
  | nil =>
    refine ⟨List.replicate k 0, rfl, ?_⟩
    by_cases hk : headerSize ≤ k
    · rw [List.take_replicate, Nat.min_eq_left hk]
      exact .inl rfl
    · rw [List.length_replicate]
      exact .inr (Nat.not_le.mp hk)
  | cons p ps ih =>
    by_cases hp : p = []
    · subst hp
      exact ⟨records ([] :: ps) ++ List.replicate k 0, rfl, .inl rfl⟩
    · obtain ⟨zs, hzs, hzeros⟩ := ih
      have htake : (p :: ps).takeWhile (· ≠ []) = p :: ps.takeWhile (· ≠ []) :=
        List.takeWhile_cons_of_pos (by simpa using hp)
      refine ⟨zs, ?_, hzeros⟩
      rw [htake, records, records, List.flatMap_cons, List.flatMap_cons, List.append_assoc,
        List.append_assoc]
      exact congrArg (record p ++ ·) hzs

/-- **Paths are read back** up to the first one that is empty: those before it, with `ok` staying
true, and the next read sets `ok` to false. -/
theorem readPaths_back {limit : Nat} {ps : List (List UInt8)} (hlimit : limit < 2 ^ 62)
    (hps : ∀ p ∈ ps, p.length < 2 ^ 62) :
    writePaths limit .empty {} ps = .error .resize ∨
      ∃ f s, writePaths limit .empty {} ps = .ok (f, s) ∧
        readPaths f ((ps.takeWhile (· ≠ [])).length + 1) {} =
          .ok ((ps.takeWhile (· ≠ [])).map (·, true) ++ [([], false)]) := by
  rcases journal_of_writePaths hlimit hps (.empty limit) with herr | ⟨f, s, hwrite, hjournal⟩
  · exact .inl herr
  · obtain ⟨k, hbytes⟩ := hjournal.zeros
    obtain ⟨zs, hbehind, hzeros⟩ := records_behind ps k
    have hfile : f.bytes = [] ++ (records (ps.takeWhile (· ≠ [])) ++ zs) := by
      rw [hbytes, List.nil_append, List.nil_append, hbehind]
    have hsz := hjournal.size
    refine .inr ⟨f, s, hwrite, readPaths_records (by omega) hzeros hfile rfl rfl fun p hp => ?_⟩
    exact of_decide_eq_true (List.all_eq_true.mp List.all_takeWhile p hp)

/-- Two paths, an empty one, and one behind it. -/
theorem readPaths_back_two :
    ∃ f s, writePaths 4096 .empty {} [[47, 97], [98], [], [99]] = .ok (f, s) ∧
      readPaths f 3 {} = .ok [([47, 97], true), ([98], true), ([], false)] := by
  have hpaths : ∀ p ∈ [[47, 97], [98], [], [99]], List.length (α := UInt8) p < 2 ^ 62 := by decide
  have hlimit : 4096 < 2 ^ 62 := by decide
  rcases readPaths_back hlimit hpaths with herr | hback
  · have hwrite : ∃ x, writePaths 4096 .empty {} [[47, 97], [98], [], [99]] = .ok x := ⟨_, rfl⟩
    obtain ⟨x, hwrite⟩ := hwrite
    rw [hwrite] at herr
    cases herr
  · exact hback

/-- An empty path is written, and not read. -/
theorem readPaths_empty :
    ∃ f s, writePaths 4096 .empty {} [[]] = .ok (f, s) ∧
      readPaths f 1 {} = .ok [([], false)] ∧ readPaths f 2 {} ≠ .ok [([], true), ([], false)] := by
  refine ⟨_, _, rfl, by decide, by decide⟩

end Primitives.Mmap
