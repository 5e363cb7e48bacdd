import Primitives.BinaryStream.Model
import Primitives.Lib.Run

/-!
# Binary streams — what the operations access

Streams that share buffers, and every sequence of operations on them. An operation is `Safe` if it
throws or if what it accesses lies in the buffer and, for a sub-stream, in its window. The code checks
a read against the end of the stream, and nothing else: not the end of a sub-stream against the
buffer, not a sum that wraps around, not the bytes of a string, and a write of a sub-stream cuts the
buffer of the others. `Meets` says of an operation that nothing of this happens, and then all are safe
(`safe_of_run`).

A window is kept with a sub-stream here; the code only has its end.
-/

set_option autoImplicit false

namespace Primitives.BinaryStream

open Lib

/-! ## Systems of streams -/

/-- The window of a sub-stream: from `first` to before `last`. -/
structure Window where
  first : Nat
  last : Nat
deriving DecidableEq, Repr

structure View where
  stream : Stream := {}
  window : Option Window := none
deriving DecidableEq, Repr

structure System where
  heap : Heap := []
  views : List View := []
deriving DecidableEq, Repr

inductive Op where
  | new
  | reserve (size : Nat)
  | ofBytes (data : List UInt8) (dataOffset : Nat)
  | copy (i : Nat)
  | sub (i size : Nat)
  | subAt (i size offset : Nat)
  | read (i size offset : Nat)
  | readString (i : Nat)
  | skip (i : Nat) (n : Int)
  | seek (i size : Nat)
  | reset (i : Nat)
  | write (i : Nat) (data : List UInt8)
deriving DecidableEq, Repr

namespace System

def push (σ : System) (h : Heap) (v : View) : System := ⟨h, σ.views ++ [v]⟩

/-- The stream of view `i` is as an operation left it. -/
def put (σ : System) (h : Heap) (i : Nat) (v : View) (s : Stream) : System :=
  ⟨h, σ.views.set i { v with stream := s }⟩

/-- An operation on the stream of view `i`. -/
def onView (σ : System) (i : Nat)
    (f : View → Except Failure (System × Option (Nat × Access))) :
    Except Failure (System × Option (Nat × Access)) :=
  match σ.views[i]? with
  | none => .ok (σ, none)
  | some v => f v

/-- The system after an operation, and what it accesses through which view. -/
def step (grow : Nat → Nat → Nat) (σ : System) :
    Op → Except Failure (System × Option (Nat × Access))
  | .new => .ok (σ.push σ.heap {}, none)
  | .reserve size =>
    let (h, s) := Stream.reserve σ.heap size
    .ok (σ.push h { stream := s }, none)
  | .ofBytes data dataOffset =>
    let (h, s) := Stream.ofBytes σ.heap data dataOffset
    .ok (σ.push h { stream := s }, none)
  | .copy i => σ.onView i fun v => .ok (σ.push σ.heap v, none)
  | .sub i size => σ.onView i fun v => do
    let (s, rhs) ← v.stream.sub σ.heap size
    return ((σ.put σ.heap i v rhs).push σ.heap
      ⟨s, some ⟨v.stream.index, v.stream.index + size⟩⟩, none)
  | .subAt i size offset => σ.onView i fun v => do
    let s ← v.stream.subAt σ.heap size offset
    return (σ.push σ.heap ⟨s, some ⟨offset, offset + size⟩⟩, none)
  | .read i size offset => σ.onView i fun v => do
    let (s, _, a) ← v.stream.read σ.heap size offset
    return (σ.put σ.heap i v s, some (i, a))
  | .readString i => σ.onView i fun v => do
    let (s, _, a) ← v.stream.readString σ.heap
    return (σ.put σ.heap i v s, some (i, a))
  | .skip i n => σ.onView i fun v => do
    let s ← v.stream.skip σ.heap n
    return (σ.put σ.heap i v s, none)
  | .seek i size => σ.onView i fun v => do
    let s ← v.stream.seek σ.heap size
    return (σ.put σ.heap i v s, none)
  | .reset i => σ.onView i fun v => .ok (σ.put σ.heap i v (v.stream.reset σ.heap), none)
  | .write i data => σ.onView i fun v => do
    let (h, s, a) ← v.stream.write grow σ.heap data
    return (σ.put h i v s, some (i, a))

/-- An operation that throws leaves everything as it was. -/
def next (grow : Nat → Nat → Nat) (σ : System) (op : Op) : System :=
  match σ.step grow op with
  | .ok (σ', _) => σ'
  | .error _ => σ

end System

/-! ## Safety -/

/-- The bytes are in the buffer of the stream, and in its window. -/
def View.Inside (v : View) (h : Heap) (a : Access) : Prop :=
  (∃ b, v.stream.buffer h = some b ∧ b.Has a) ∧
    ∀ w ∈ v.window, a.size = 0 ∨ w.first ≤ a.start ∧ a.start + a.size ≤ w.last

/-- The operation throws, or accesses nothing outside. -/
def Safe (grow : Nat → Nat → Nat) (σ : System) (op : Op) : Prop :=
  match σ.step grow op with
  | .ok (σ', some (i, a)) => ∃ v, σ'.views[i]? = some v ∧ v.Inside σ'.heap a
  | .ok (_, none) => True
  | .error e => e ≠ .undefined

/-! ## When the operations are safe -/

/-- The first position of the window. -/
def View.first (v : View) : Nat :=
  match v.window with
  | none => 0
  | some w => w.first

/-- The position that the stream of a buffer is moved to is not before its window. -/
def View.Stays (v : View) (i : Int) : Prop := v.first ≤ sizeT i

/-- A sub-stream has its window in the buffer. -/
def View.SubMeets (v : View) (h : Heap) (size : Nat) : Prop :=
  ∀ b, v.stream.buffer h = some b →
    v.stream.index + size ≤ b.bytes.length ∧ v.Stays (v.stream.index + toInt size)

/-- A read that passes the checks passes them without a sum that wraps around. -/
def View.ReadMeets (v : View) (h : Heap) (size offset : Nat) : Prop :=
  v.stream.buffer h ≠ none → v.stream.index < v.stream.end_ →
    sizeT (v.stream.index + offset + size) ≤ v.stream.end_ →
    (size = 0 ∨ v.stream.index + offset + size < 2 ^ 64) ∧
      v.Stays (v.stream.index + toInt (size + offset))

/-- The string at the position ends, in the buffer and in the window, and the stream's pointer is not
one into an older allocation. -/
def View.StringMeets (v : View) (h : Heap) : Prop :=
  ∃ b n, v.stream.buffer h = some b ∧ v.stream.ptr = some ⟨b.gen, v.stream.index⟩ ∧
    (∀ k < n, b.bytes[v.stream.index + k]? ≠ some 0) ∧ b.bytes[v.stream.index + n]? = some 0 ∧
    (∀ w ∈ v.window, v.stream.index + n < w.last) ∧ v.Stays (v.stream.index + toInt (n + 1))

/-- A write stays in the window, and if it resizes the buffer no other stream ends behind it. -/
def View.WriteMeets (v : View) (σ : System) (i n : Nat) : Prop :=
  v.stream.buffer σ.heap ≠ none → v.stream.index ≤ v.stream.end_ →
    v.stream.index + n < 2 ^ 64 ∧ (∀ w ∈ v.window, n = 0 ∨ v.stream.index + n ≤ w.last) ∧
    (v.stream.end_ < v.stream.index + n → ∀ j u, σ.views[j]? = some u → j ≠ i →
      u.stream.buf = v.stream.buf → u.stream.end_ ≤ v.stream.index + n) ∧
    v.Stays (v.stream.index + toInt n)

/-- **The operations that are safe.** -/
def Meets (σ : System) : Op → Prop
  | .new | .reserve _ | .ofBytes _ _ | .copy _ => True
  | .sub i size => ∀ v, σ.views[i]? = some v → v.SubMeets σ.heap size
  | .subAt i size offset => ∀ v, σ.views[i]? = some v →
    ∃ b, v.stream.buffer σ.heap = some b ∧ offset + size ≤ b.bytes.length
  | .read i size offset => ∀ v, σ.views[i]? = some v → v.ReadMeets σ.heap size offset
  | .readString i => ∀ v, σ.views[i]? = some v → v.StringMeets σ.heap
  | .skip i n => ∀ v, σ.views[i]? = some v → v.Stays (v.stream.index + n)
  | .seek i size => ∀ v, σ.views[i]? = some v → v.Stays (toInt size)
  | .reset i => ∀ v, σ.views[i]? = some v → v.Stays 0
  | .write i data => ∀ v, σ.views[i]? = some v → v.WriteMeets σ i data.length

/-! ## The invariant -/

/-- A stream ends in its buffer, and stands behind the first position of its window. -/
structure View.Fits (v : View) (h : Heap) : Prop where
  buf : ∀ i, v.stream.buf = some i → i < h.length
  end_ : ∀ b, v.stream.buffer h = some b → v.stream.end_ ≤ b.bytes.length
  first : v.first ≤ v.stream.index
  last : ∀ w ∈ v.window, v.stream.end_ ≤ w.last
  ptr : ∀ p, v.stream.ptr = some p → p.pos = v.stream.index
  start : v.stream.buf = none → v.stream.index = 0
  sub : v.window.isSome → v.stream.buf.isSome

/-- All views fit. -/
def AllFit (σ : System) : Prop := ∀ v ∈ σ.views, v.Fits σ.heap

/-- What an operation comes to: it throws, or all views fit and what is accessed is inside. -/
def Good (r : Except Failure (System × Option (Nat × Access))) : Prop :=
  match r with
  | .ok (σ, o) => AllFit σ ∧ ∀ i a, o = some (i, a) → ∃ v, σ.views[i]? = some v ∧ v.Inside σ.heap a
  | .error e => e ≠ .undefined

theorem AllFit.push {σ : System} {h : Heap} {v : View} (hσ : ∀ u ∈ σ.views, u.Fits h)
    (hv : v.Fits h) : AllFit (σ.push h v) := by
  intro u hu
  rcases List.mem_append.mp hu with hu | hu
  · exact hσ u hu
  · rw [List.mem_singleton.mp hu]
    exact hv

theorem AllFit.put {σ : System} {h : Heap} {i : Nat} {v : View} {s : Stream}
    (hσ : ∀ j u, σ.views[j]? = some u → j ≠ i → u.Fits h) (hv : View.Fits { v with stream := s } h) :
    AllFit (σ.put h i v s) := by
  intro u hu
  obtain ⟨j, hj⟩ := List.getElem?_of_mem hu
  rw [System.put, List.getElem?_set] at hj
  split at hj
  · split at hj
    · cases hj
      exact hv
    · cases hj
  · exact hσ j u hj (Ne.symm ‹_›)

/-- The other views fit if the heap is the same. -/
theorem AllFit.put_same {σ : System} {i : Nat} {v : View} {s : Stream} (hσ : AllFit σ)
    (hv : View.Fits { v with stream := s } σ.heap) : AllFit (σ.put σ.heap i v s) :=
  .put (fun _ _ hu _ => hσ _ (List.mem_of_getElem? hu)) hv

theorem System.put_getElem? {σ : System} {h : Heap} {i : Nat} {v u : View} {s : Stream}
    (hu : σ.views[i]? = some u) : (σ.put h i v s).views[i]? = some { v with stream := s } := by
  have hi := (List.getElem?_eq_some_iff.mp hu).1
  rw [put, List.getElem?_set_self hi]

theorem Good.onView {σ : System} (hσ : AllFit σ) {i : Nat}
    {f : View → Except Failure (System × Option (Nat × Access))}
    (h : ∀ v, σ.views[i]? = some v → v.Fits σ.heap → Good (f v)) : Good (σ.onView i f) := by
  rw [System.onView]
  cases hv : σ.views[i]? with
  | none => exact ⟨hσ, fun i a ho => by cases ho⟩
  | some v => exact h v hv (hσ v (List.mem_of_getElem? hv))

/-! ## Positions -/

theorem skip_cases (h : Heap) (s : Stream) (n : Int) :
    s.buffer h = none ∧ s.skip h n = .error .notInitialized ∨
    ∃ b s', s.buffer h = some b ∧ s.skip h n = .ok s' ∧ s'.buf = s.buf ∧ s'.end_ = s.end_ ∧
      s'.index = sizeT (s.index + n) ∧ s'.ptr = some ⟨b.gen, sizeT (s.index + n)⟩ := by
  cases hb : s.buffer h with
  | none => exact .inl ⟨rfl, by rw [Stream.skip, hb]⟩
  | some b =>
    refine .inr ⟨b, { s with
      index := sizeT (s.index + n)
      dataOffset := sizeT (s.dataOffset + n)
      ptr := some ⟨b.gen, sizeT (s.index + n)⟩ }, rfl, ?_, rfl, rfl, rfl, rfl⟩
    rw [Stream.skip, hb]

theorem buffer_congr {s s' : Stream} {h : Heap} (hbuf : s.buf = s'.buf) :
    s.buffer h = s'.buffer h := by
  rw [Stream.buffer, hbuf, Stream.buffer]

/-- A stream that was moved, and not before its window, fits. -/
theorem View.Fits.moved {v : View} {h : Heap} (hv : v.Fits h) {b : Buffer} {s : Stream} {i : Nat}
    (hb : v.stream.buffer h = some b) (hbuf : s.buf = v.stream.buf)
    (hend : s.end_ = v.stream.end_) (hindex : s.index = i) (hptr : ∀ p, s.ptr = some p → p.pos = i)
    (hi : v.first ≤ i) : View.Fits { v with stream := s } h where
  buf j hj := hv.buf j (hbuf ▸ hj)
  end_ b hb := hend ▸ hv.end_ b ((buffer_congr hbuf).symm.trans hb)
  first := by
    show v.first ≤ s.index
    rw [hindex]
    exact hi
  last w hw := hend ▸ hv.last w hw
  ptr p hp := (hptr p hp).trans hindex.symm
  start hno := by
    rw [Stream.buffer, ← hbuf, show s.buf = none from hno] at hb
    cases hb
  sub hw := by
    show s.buf.isSome = true
    rw [hbuf]
    exact hv.sub hw

theorem View.Fits.skip {v : View} {h : Heap} (hv : v.Fits h) {n : Int} {s : Stream}
    (hs : v.stream.skip h n = .ok s) (hstays : v.Stays (v.stream.index + n)) :
    View.Fits { v with stream := s } h := by
  rcases skip_cases h v.stream n with ⟨-, hno⟩ | ⟨b, s', hb, hs', hbuf, hend, hindex, hptr⟩
  · rw [hno] at hs
    cases hs
  · rw [hs'] at hs
    cases hs
    refine hv.moved hb hbuf hend hindex (fun p hp => ?_) hstays
    rw [hptr] at hp
    cases hp
    rfl

/-- `skip`, or the end of `seek`. -/
theorem good_skip {σ : System} (hσ : AllFit σ) {i : Nat} {n : Int} {v : View} {s₀ : Stream}
    (hv : v.Fits σ.heap) (hbuf : s₀.buf = v.stream.buf) (hend : s₀.end_ = v.stream.end_)
    (hstays : v.Stays (s₀.index + n)) :
    Good (do
      let s ← s₀.skip σ.heap n
      return (σ.put σ.heap i v s, none)) := by
  rcases skip_cases σ.heap s₀ n with ⟨-, hno⟩ | ⟨b, s, hb, hs, hbuf', hend', hindex, hptr⟩
  · rw [hno]
    exact Failure.noConfusion
  · rw [hs]
    refine ⟨hσ.put_same (hv.moved ((buffer_congr hbuf).symm.trans hb) (hbuf'.trans hbuf)
      (hend'.trans hend) hindex (fun p hp => ?_) hstays), fun j a ha => by cases ha⟩
    rw [← Option.some.inj (hptr.symm.trans hp)]

theorem View.Fits.reset {v : View} {h : Heap} (hv : v.Fits h) (hstays : v.Stays 0) :
    View.Fits { v with stream := v.stream.reset h } h := by
  refine ⟨hv.buf, hv.end_, hstays, hv.last, fun p hp => ?_, fun _ => rfl, hv.sub⟩
  obtain ⟨b, -, rfl⟩ := Option.map_eq_some_iff.mp hp
  rfl

/-! ## The constructors -/

theorem View.Fits.new (h : Heap) : View.Fits {} h where
  buf i hi := by cases hi
  end_ b hb := by cases hb
  first := Nat.zero_le _
  last w hw := by cases hw
  ptr p hp := by cases hp
  start _ := rfl
  sub hw := by cases hw

/-- A new buffer is no other stream's. -/
theorem View.Fits.append {v : View} {h : Heap} (hv : v.Fits h) (b : Buffer) :
    v.Fits (h ++ [b]) := by
  refine ⟨fun i hi => ?_, fun b' hb' => hv.end_ b' ?_, hv.first, hv.last, hv.ptr, hv.start, hv.sub⟩
  · rw [List.length_append]
    exact Nat.lt_add_right _ (hv.buf i hi)
  · rw [← hb', Stream.buffer, Stream.buffer]
    cases hbuf : v.stream.buf with
    | none => rfl
    | some i => exact (List.getElem?_append_left (hv.buf i hbuf)).symm

theorem sizeT_le (n : Nat) : sizeT n ≤ n := by
  unfold sizeT
  omega

/-- A stream that begins a new buffer. -/
theorem View.Fits.first_of_buffer {h : Heap} {b : Buffer} {s : Stream} (hbuf : s.buf = some h.length)
    (hend : s.end_ ≤ b.bytes.length) (hindex : s.index = 0) (hptr : s.ptr = some ⟨0, 0⟩) :
    View.Fits { stream := s } (h ++ [b]) where
  buf i hi := by
    rw [show s.buf = some i from hi] at hbuf
    cases hbuf
    simp
  end_ b' hb' := by
    rw [Stream.buffer, hbuf] at hb'
    simp only [Option.bind_some, List.getElem?_concat_length, Option.some.injEq] at hb'
    rw [← hb']
    exact hend
  first := Nat.zero_le _
  last w hw := by cases hw
  ptr p hp := by
    rw [show s.ptr = some p from hp] at hptr
    cases hptr
    exact hindex.symm
  start hno := hindex
  sub hw := by cases hw

theorem Good.push {σ : System} {h : Heap} {v : View} (hσ : ∀ u ∈ σ.views, u.Fits h)
    (hv : v.Fits h) : Good (.ok (σ.push h v, none)) :=
  ⟨AllFit.push hσ hv, fun i a ho => by cases ho⟩

theorem good_sub {σ : System} (hσ : AllFit σ) {i size : Nat} {v : View}
    (hv : v.Fits σ.heap) (hmeets : v.SubMeets σ.heap size) :
    Good (do
      let (s, rhs) ← v.stream.sub σ.heap size
      return ((σ.put σ.heap i v rhs).push σ.heap
        ⟨s, some ⟨v.stream.index, v.stream.index + size⟩⟩, none)) := by
  rcases skip_cases σ.heap v.stream (toInt size) with ⟨-, hno⟩ | ⟨b, rhs, hb, hrhs, -⟩
  · rw [Stream.sub, hno]
    exact Failure.noConfusion
  · obtain ⟨hroom, hstays⟩ := hmeets b hb
    have hend : sizeT (v.stream.index + size) ≤ v.stream.index + size :=
      mod_cast sizeT_le (v.stream.index + size)
    rw [Stream.sub, hrhs]
    have hput : AllFit (σ.put σ.heap i v rhs) := hσ.put_same (hv.skip hrhs hstays)
    refine Good.push hput ⟨hv.buf, fun b' hb' => ?_, le_refl _, fun w hw => ?_, hv.ptr, hv.start, fun _ => ?_⟩
    · rw [show v.stream.buffer σ.heap = some b' from hb'] at hb
      cases hb
      exact hend.trans hroom
    · cases hw
      exact hend
    · rw [Stream.buffer] at hb
      obtain ⟨j, hj, -⟩ := Option.bind_eq_some_iff.mp hb
      exact Option.isSome_of_eq_some hj

theorem good_subAt {σ : System} (hσ : AllFit σ) {size offset : Nat} {v : View} (hv : v.Fits σ.heap)
    (hmeets : ∃ b, v.stream.buffer σ.heap = some b ∧ offset + size ≤ b.bytes.length) :
    Good (do
      let s ← v.stream.subAt σ.heap size offset
      return (σ.push σ.heap ⟨s, some ⟨offset, offset + size⟩⟩, none)) := by
  obtain ⟨b, hb, hroom⟩ := hmeets
  have hend : sizeT (offset + size) ≤ offset + size := mod_cast sizeT_le (offset + size)
  rw [Stream.subAt, hb]
  refine Good.push hσ ⟨hv.buf, fun b' hb' => ?_, le_refl _, fun w hw => ?_, fun p hp => ?_,
    fun hno => ?_, fun _ => ?_⟩
  · rw [show v.stream.buffer σ.heap = some b' from hb'] at hb
    cases hb
    exact hend.trans hroom
  · cases hw
    exact hend
  · cases hp
    rfl
  · rw [Stream.buffer, show v.stream.buf = none from hno] at hb
    cases hb
  · obtain ⟨j, hj, -⟩ := Option.bind_eq_some_iff.mp hb
    exact Option.isSome_of_eq_some hj

/-! ## Reading -/

theorem good_read {σ : System} (hσ : AllFit σ) {i size offset : Nat} {v : View}
    (hget : σ.views[i]? = some v) (hv : v.Fits σ.heap)
    (hmeets : v.ReadMeets σ.heap size offset) :
    Good (do
      let (s, _, a) ← v.stream.read σ.heap size offset
      return (σ.put σ.heap i v s, some (i, a))) := by
  rw [Stream.read]
  rcases skip_cases σ.heap v.stream (toInt (size + offset)) with ⟨hb, -⟩ | ⟨b, s, hb, hs, hbuf, -⟩
  · rw [hb]
    exact Failure.noConfusion
  · rw [hb]
    by_cases hindex : v.stream.end_ ≤ v.stream.index
    · simp only [if_pos hindex]
      exact Failure.noConfusion
    by_cases hlast : v.stream.end_ < sizeT (v.stream.index + offset + size)
    · simp only [if_neg hindex, if_pos hlast]
      exact Failure.noConfusion
    obtain ⟨hwrap, hstays⟩ := hmeets (by rw [hb]; exact Option.some_ne_none b) (not_le.mp hindex)
      (not_lt.mp hlast)
    -- The sums did not wrap around, unless no bytes are read.
    have hplace : size = 0 ∨ sizeT (v.stream.index + offset) = v.stream.index + offset ∧
        v.stream.index + offset + size ≤ v.stream.end_ := by
      refine hwrap.imp_right fun hlt => ?_
      have hstart : sizeT (v.stream.index + offset) = v.stream.index + offset := by
        unfold sizeT
        omega
      have hsum : sizeT (v.stream.index + offset + size) = v.stream.index + offset + size := by
        unfold sizeT
        omega
      rw [hsum] at hlast
      exact ⟨hstart, not_lt.mp hlast⟩
    have hhas : b.Has ⟨sizeT (v.stream.index + offset), size⟩ := by
      refine hplace.imp_right fun ⟨hstart, hle⟩ => ?_
      dsimp only
      rw [hstart]
      exact hle.trans (hv.end_ b hb)
    simp only [if_neg hindex, if_neg hlast, if_pos hhas, hs]
    refine ⟨hσ.put_same (hv.skip hs hstays), fun j a ha => ?_⟩
    cases ha
    refine ⟨_, System.put_getElem? hget, ⟨b, (buffer_congr hbuf).trans hb, hhas⟩, fun w hw => ?_⟩
    refine hplace.imp_right fun ⟨hstart, hle⟩ => ?_
    have hfirst := hv.first
    rw [View.first, show v.window = some w from hw] at hfirst
    dsimp only
    rw [hstart]
    exact ⟨hfirst.trans (Nat.le_add_right _ _), hle.trans (hv.last w hw)⟩

/-- A string is read up to its first zero. -/
theorem takeWhile_length {bs : List UInt8} {n : Nat} (hbefore : ∀ k < n, bs[k]? ≠ some 0)
    (hzero : bs[n]? = some 0) : (bs.takeWhile (· ≠ 0)).length = n := by
  induction bs generalizing n with
  | nil => cases hzero
  | cons c bs ih =>
    cases n with
    | zero =>
      cases hzero
      rfl
    | succ n =>
      have hc : c ≠ 0 := by
        intro hc
        exact hbefore 0 (Nat.succ_pos n) (by rw [hc]; rfl)
      have htake : (c :: bs).takeWhile (· ≠ 0) = c :: bs.takeWhile (· ≠ 0) :=
        List.takeWhile_cons_of_pos (by simpa using hc)
      rw [htake, List.length_cons, ih (fun k hk => hbefore (k + 1) (Nat.succ_lt_succ hk)) hzero]

theorem good_readString {σ : System} (hσ : AllFit σ) {i : Nat} {v : View}
    (hget : σ.views[i]? = some v) (hv : v.Fits σ.heap) (hmeets : v.StringMeets σ.heap) :
    Good (do
      let (s, _, a) ← v.stream.readString σ.heap
      return (σ.put σ.heap i v s, some (i, a))) := by
  obtain ⟨b, n, hb, hptr, hbefore, hzero, hwindow, hstays⟩ := hmeets
  have hlength : ((b.bytes.drop v.stream.index).takeWhile (· ≠ 0)).length = n := by
    refine takeWhile_length (fun k hk => ?_) ?_
    · rw [List.getElem?_drop]
      exact hbefore k hk
    · rw [List.getElem?_drop]
      exact hzero
  have hlt : v.stream.index + n < b.bytes.length := (List.getElem?_eq_some_iff.mp hzero).1
  rw [Stream.readString, hb, hptr]
  simp only [hlength]
  rw [if_pos ⟨trivial, hlt⟩]
  rcases skip_cases σ.heap v.stream (toInt (n + 1)) with ⟨hno, -⟩ | ⟨b', s, hb', hs, hbuf, -⟩
  · rw [hb] at hno
    cases hno
  · rw [hs]
    refine ⟨hσ.put_same (hv.skip hs hstays), fun j a ha => ?_⟩
    cases ha
    refine ⟨_, System.put_getElem? hget, ⟨b, (buffer_congr hbuf).trans hb, .inr hlt⟩, fun w hw => ?_⟩
    have hfirst := hv.first
    rw [View.first, show v.window = some w from hw] at hfirst
    exact .inr ⟨hfirst, hwindow w hw⟩

/-! ## Writing -/

/-- The bytes are put where the stream stands. -/
theorem writeAt_of_extend (grow : Nat → Nat → Nat) {h h₁ : Heap} {s s₁ : Stream}
    {data : List UInt8} {i : Nat} {b₁ : Buffer} (hbuf : s.buf = some i) (hle : s.index ≤ s.end_)
    (hext : s.extend grow h i (sizeT (s.index + data.length)) = (h₁, s₁)) (hb₁ : h₁[i]? = some b₁)
    (hbuf₁ : s₁.buf = some i) (hindex₁ : s₁.index = s.index)
    (hroom : s.index + data.length ≤ b₁.bytes.length) :
    ∃ b' s', s.writeAt grow h data = .ok (h₁.set i b', s', ⟨s.index, data.length⟩) ∧
      b'.bytes.length = b₁.bytes.length ∧ s'.buf = some i ∧ s'.end_ = s₁.end_ ∧
      s'.index = sizeT (s.index + toInt data.length) ∧
      ∀ p, s'.ptr = some p → p.pos = sizeT (s.index + toInt data.length) := by
  have hi : i < h₁.length := (List.getElem?_eq_some_iff.mp hb₁).1
  obtain ⟨b', hdef⟩ : ∃ b' : Buffer, b' = { b₁ with bytes := overwrite b₁.bytes s.index data } :=
    ⟨_, rfl⟩
  have hlength : b'.bytes.length = b₁.bytes.length := by
    rw [hdef]
    exact length_overwrite hroom
  have hb' : s₁.buffer (h₁.set i b') = some b' := by
    rw [Stream.buffer, hbuf₁, Option.bind_some, List.getElem?_set_self hi]
  rcases skip_cases (h₁.set i b') s₁ (toInt data.length) with ⟨hno, -⟩ |
    ⟨b'', s', hb'', hs', hbuf', hend', hindex', hptr'⟩
  · rw [hno] at hb'
    cases hb'
  · rw [hindex₁] at hindex' hptr'
    refine ⟨b', s', ?_, hlength, hbuf'.trans hbuf₁, hend', hindex', fun p hp => ?_⟩
    · have hhas : b₁.Has ⟨s.index, data.length⟩ := .inr hroom
      rw [Stream.writeAt, hbuf]
      simp only [if_neg (not_lt.mpr hle), hext, hb₁, hindex₁, if_pos hhas]
      rw [← hdef, hs']
      rfl
    · rw [← Option.some.inj (hptr'.symm.trans hp)]

theorem set_modify {α : Type} (xs : List α) (i : Nat) (f : α → α) (x : α) :
    (xs.modify i f).set i x = xs.set i x := by
  refine List.ext_getElem? fun j => ?_
  simp only [List.getElem?_set, List.getElem?_modify, List.length_modify]
  split
  · rfl
  · simp

/-- A write that is inside resizes the buffer to its last byte, or leaves its size. -/
theorem writeAt_ok (grow : Nat → Nat → Nat) {h : Heap} {s : Stream} {data : List UInt8} {i : Nat}
    {b : Buffer} (hbuf : s.buf = some i) (hb : h[i]? = some b) (hle : s.index ≤ s.end_)
    (hgrow : s.end_ < sizeT (s.index + data.length) →
      sizeT (s.index + data.length) = s.index + data.length)
    (hroom : ¬ s.end_ < sizeT (s.index + data.length) → s.index + data.length ≤ b.bytes.length) :
    ∃ b' s', s.writeAt grow h data = .ok (h.set i b', s', ⟨s.index, data.length⟩) ∧
      s.index + data.length ≤ b'.bytes.length ∧ s'.buf = some i ∧
      s'.index = sizeT (s.index + toInt data.length) ∧
      (∀ p, s'.ptr = some p → p.pos = sizeT (s.index + toInt data.length)) ∧
      (s.end_ < sizeT (s.index + data.length) ∧ b'.bytes.length = s.index + data.length ∧
          s'.end_ = s.index + data.length ∨
        b'.bytes.length = b.bytes.length ∧ s'.end_ = s.end_) := by
  have hi : i < h.length := (List.getElem?_eq_some_iff.mp hb).1
  by_cases hext : s.end_ < sizeT (s.index + data.length)
  · have hlast := hgrow hext
    have hresize : (b.resize grow (s.index + data.length)).bytes.length =
        s.index + data.length := by
      simp only [Buffer.resize, List.length_append, List.length_take, List.length_replicate]
      omega
    have hget : (h.modify i (·.resize grow (s.index + data.length)))[i]? =
        some (b.resize grow (s.index + data.length)) := by
      rw [List.getElem?_modify_eq, hb]
      rfl
    have hextend : s.extend grow h i (sizeT (s.index + data.length)) =
        (h.modify i (·.resize grow (s.index + data.length)),
          { s with size := s.index + data.length, end_ := s.index + data.length }) := by
      rw [Stream.extend, if_pos hext, hlast]
    obtain ⟨b', s', hwrite, hlength, hbuf', hend, hindex, hptr⟩ := writeAt_of_extend grow hbuf hle
      hextend hget hbuf rfl hresize.ge
    refine ⟨b', s', ?_, (hlength.trans hresize).ge, hbuf', hindex, hptr,
      .inl ⟨hext, hlength.trans hresize, hend⟩⟩
    rw [hwrite, set_modify]
  · obtain ⟨b', s', hwrite, hlength, hbuf', hend, hindex, hptr⟩ := writeAt_of_extend grow hbuf hle
      (if_neg hext) hb hbuf rfl (hroom hext)
    exact ⟨b', s', hwrite, (hroom hext).trans hlength.ge, hbuf', hindex, hptr, .inr ⟨hlength, hend⟩⟩

/-- A view whose stream has another buffer, or whose end is not behind that of the new one. -/
theorem View.Fits.set {v : View} {h : Heap} (hv : v.Fits h) {i : Nat} {b : Buffer}
    (hb : v.stream.buf = some i → v.stream.end_ ≤ b.bytes.length) : v.Fits (h.set i b) := by
  refine ⟨fun j hj => ?_, fun b' hb' => ?_, hv.first, hv.last, hv.ptr, hv.start, hv.sub⟩
  · rw [List.length_set]
    exact hv.buf j hj
  · obtain ⟨j, hj, hget⟩ := Option.bind_eq_some_iff.mp hb'
    rw [List.getElem?_set] at hget
    split at hget
    · rename_i hij
      subst hij
      rw [if_pos (hv.buf i hj)] at hget
      cases hget
      exact hb hj
    · refine hv.end_ b' ?_
      rw [Stream.buffer, hj, Option.bind_some, hget]

theorem buffer_set {h : Heap} {s : Stream} {k : Nat} {b : Buffer} (hk : k < h.length)
    (hbuf : s.buf = some k) : s.buffer (h.set k b) = some b := by
  rw [Stream.buffer, hbuf, Option.bind_some, List.getElem?_set_self hk]

/-- The stream that has written. -/
theorem View.Fits.written {v : View} {h : Heap} {k : Nat} {b : Buffer} {s : Stream}
    (hk : k < h.length) (hbuf : s.buf = some k) (hend : s.end_ ≤ b.bytes.length)
    (hfirst : v.first ≤ s.index) (hlast : ∀ w ∈ v.window, s.end_ ≤ w.last)
    (hptr : ∀ p, s.ptr = some p → p.pos = s.index) :
    View.Fits { v with stream := s } (h.set k b) := by
  refine ⟨fun j hj => ?_, fun b' hb' => ?_, hfirst, hlast, hptr, fun hno => ?_, fun _ => ?_⟩
  · rw [show s.buf = some j from hj] at hbuf
    cases hbuf
    rw [List.length_set]
    exact hk
  · have hsame : some b = some b' := (buffer_set hk hbuf).symm.trans hb'
    cases hsame
    exact hend
  · rw [show s.buf = none from hno] at hbuf
    cases hbuf
  · exact Option.isSome_of_eq_some hbuf

theorem good_write_buffer (grow : Nat → Nat → Nat) {σ : System} (hσ : AllFit σ) {i : Nat}
    {data : List UInt8} {v : View} (hget : σ.views[i]? = some v) (hv : v.Fits σ.heap)
    (hmeets : v.WriteMeets σ i data.length) {b : Buffer} (hb : v.stream.buffer σ.heap = some b) :
    Good (do
      let (h, s, a) ← v.stream.write grow σ.heap data
      return (σ.put h i v s, some (i, a))) := by
  obtain ⟨k, hk, hbk⟩ := Option.bind_eq_some_iff.mp hb
  have hklt : k < σ.heap.length := hv.buf k hk
  have hinit : v.stream.init σ.heap data.length = (σ.heap, v.stream) := by
    rw [Stream.init, hb]
  rw [Stream.write, hinit]
  by_cases hle : v.stream.index ≤ v.stream.end_
  · obtain ⟨hwrap, hwindow, hothers, hstays⟩ := hmeets (by rw [hb]; exact Option.some_ne_none b) hle
    have hlast : sizeT (v.stream.index + data.length) = v.stream.index + data.length :=
      mod_cast sizeT_of_nonneg hwrap
    have hend := hv.end_ b hb
    obtain ⟨b', s', hwrite, hroom, hbuf, hindex, hptr, hcases⟩ := writeAt_ok grow hk hbk hle
      (fun _ => hlast) (fun hno => by rw [hlast] at hno; omega)
    rw [hlast] at hcases
    have hself : View.Fits { v with stream := s' } (σ.heap.set k b') := by
      refine .written hklt hbuf ?_ (by rw [hindex]; exact hstays) (fun w hw => ?_)
        (by rw [hindex]; exact hptr)
      · rcases hcases with ⟨-, hlength, hend'⟩ | ⟨hlength, hend'⟩
        · rw [hlength, hend']
        · rw [hlength, hend']
          exact hend
      · rcases hcases with ⟨hext, -, hend'⟩ | ⟨-, hend'⟩
        · rcases hwindow w hw with hzero | hwle
          · omega
          · rw [hend']
            exact hwle
        · rw [hend']
          exact hv.last w hw
    have hrest : ∀ j u, σ.views[j]? = some u → j ≠ i → u.Fits (σ.heap.set k b') := by
      intro j u hu hj
      have hfits := hσ u (List.mem_of_getElem? hu)
      refine hfits.set fun hbufu => ?_
      rcases hcases with ⟨hext, hlength, -⟩ | ⟨hlength, -⟩
      · rw [hlength]
        exact hothers hext j u hu hj (hbufu.trans hk.symm)
      · rw [hlength]
        exact hfits.end_ b (by rw [Stream.buffer, hbufu, Option.bind_some, hbk])
    show Good (do
      let (h, s, a) ← v.stream.writeAt grow σ.heap data
      return (σ.put h i v s, some (i, a)))
    rw [hwrite]
    refine ⟨.put hrest hself, fun j a ha => ?_⟩
    cases ha
    refine ⟨_, System.put_getElem? hget, ⟨b', buffer_set hklt hbuf, .inr hroom⟩, fun w hw => ?_⟩
    have hfirst := hv.first
    rw [View.first, show v.window = some w from hw] at hfirst
    exact (hwindow w hw).imp_right fun h => ⟨hfirst, h⟩
  · show Good (do
      let (h, s, a) ← v.stream.writeAt grow σ.heap data
      return (σ.put h i v s, some (i, a)))
    rw [Stream.writeAt, hk]
    simp only [if_pos (not_le.mp hle)]
    exact Failure.noConfusion

/-- The first write of a stream without a buffer. -/
theorem good_write_new (grow : Nat → Nat → Nat) {σ : System} (hσ : AllFit σ) {i : Nat}
    {data : List UInt8} {v : View} (hget : σ.views[i]? = some v) (hv : v.Fits σ.heap)
    (hb : v.stream.buffer σ.heap = none) :
    Good (do
      let (h, s, a) ← v.stream.write grow σ.heap data
      return (σ.put h i v s, some (i, a))) := by
  have hbuf : v.stream.buf = none := by
    cases hbuf : v.stream.buf with
    | none => rfl
    | some k =>
      rw [Stream.buffer, hbuf, Option.bind_some, List.getElem?_eq_getElem (hv.buf k hbuf)] at hb
      cases hb
  have hwindow : v.window = none := by
    by_contra hno
    have hsome := hv.sub (Option.isSome_iff_ne_none.mpr hno)
    rw [hbuf] at hsome
    cases hsome
  have hindex := hv.start hbuf
  have hfirst : v.first = 0 := by
    rw [View.first, hwindow]
  obtain ⟨b, hbdef⟩ : ∃ b : Buffer, b = ⟨List.replicate data.length 0, data.length, 0⟩ := ⟨_, rfl⟩
  obtain ⟨s, hsdef⟩ : ∃ s : Stream, s = { v.stream with
    buf := some σ.heap.length, size := sizeT data.length, end_ := sizeT data.length } := ⟨_, rfl⟩
  have hinit : v.stream.init σ.heap data.length = (σ.heap ++ [b], s) := by
    rw [Stream.init, hb, hbdef, hsdef]
  have hblength : b.bytes.length = data.length := by
    rw [hbdef]
    exact List.length_replicate ..
  have hsindex : s.index = 0 := by
    rw [hsdef]
    exact hindex
  have hsend : s.end_ = sizeT data.length := by
    rw [hsdef]
  have hlast : sizeT (s.index + data.length) = s.end_ := by
    rw [hsindex, hsend, Nat.cast_zero, zero_add]
  have hsbuf : s.buf = some σ.heap.length := by
    rw [hsdef]
  have hk : σ.heap.length < (σ.heap ++ [b]).length := by simp
  have hget' : (σ.heap ++ [b])[σ.heap.length]? = some b := List.getElem?_concat_length
  have hroom : s.index + data.length ≤ b.bytes.length := by omega
  obtain ⟨b', s', hwrite, hroom, hbuf', hindex', hptr, hcases⟩ := writeAt_ok grow hsbuf hget'
    (by omega) (fun hlt => by rw [hlast] at hlt; omega) fun _ => hroom
  have hend' : s'.end_ ≤ b'.bytes.length := by
    rcases hcases with ⟨hlt, -⟩ | ⟨hlength, hend'⟩
    · rw [hlast] at hlt
      omega
    · rw [hlength, hend', hsend, hblength]
      exact sizeT_le _
  rw [Stream.write, hinit]
  show Good (do
    let (h, s, a) ← s.writeAt grow (σ.heap ++ [b]) data
    return (σ.put h i v s, some (i, a)))
  rw [hwrite]
  refine ⟨.put (fun j u hu hj => ?_) (.written hk hbuf' hend' ?_ ?_ ?_), fun j a ha => ?_⟩
  · have hfits := hσ u (List.mem_of_getElem? hu)
    refine (hfits.append b).set fun hbufu => ?_
    exact absurd (hfits.buf _ hbufu) (lt_irrefl _)
  · rw [hfirst]
    exact Nat.zero_le _
  · intro w hw
    rw [hwindow] at hw
    cases hw
  · rw [hindex']
    exact hptr
  · cases ha
    refine ⟨_, System.put_getElem? hget, ⟨b', buffer_set hk hbuf', .inr hroom⟩, fun w hw => ?_⟩
    rw [show v.window = some w from hw] at hwindow
    cases hwindow

/-! ## Runs -/

/-- **One operation** that meets the condition, where all views fit. -/
theorem good_step (grow : Nat → Nat → Nat) {σ : System} (hσ : AllFit σ) {op : Op}
    (hop : Meets σ op) : Good (σ.step grow op) := by
  cases op with
  | new => exact .push hσ (.new _)
  | reserve size =>
    exact .push (fun u hu => (hσ u hu).append _) (.first_of_buffer rfl (Nat.zero_le _) rfl rfl)
  | ofBytes data dataOffset =>
    exact .push (fun u hu => (hσ u hu).append _) (.first_of_buffer rfl (sizeT_le _) rfl rfl)
  | copy i => exact .onView hσ fun v _ hv => .push hσ hv
  | sub i size => exact .onView hσ fun v hget hv => good_sub hσ hv (hop v hget)
  | subAt i size offset => exact .onView hσ fun v hget hv => good_subAt hσ hv (hop v hget)
  | read i size offset => exact .onView hσ fun v hget hv => good_read hσ hget hv (hop v hget)
  | readString i => exact .onView hσ fun v hget hv => good_readString hσ hget hv (hop v hget)
  | skip i n => exact .onView hσ fun v hget hv => good_skip hσ hv rfl rfl (hop v hget)
  | seek i size =>
    refine .onView hσ fun v hget hv => good_skip hσ hv rfl rfl ?_
    show v.Stays ((0 : Nat) + toInt size)
    rw [Nat.cast_zero, zero_add]
    exact hop v hget
  | reset i =>
    exact .onView hσ fun v hget hv =>
      ⟨hσ.put_same (hv.reset (hop v hget)), fun j a ha => by cases ha⟩
  | write i data =>
    refine .onView hσ fun v hget hv => ?_
    cases hb : v.stream.buffer σ.heap with
    | none => exact good_write_new grow hσ hget hv hb
    | some b => exact good_write_buffer grow hσ hget hv (hop v hget) hb

theorem Good.safe {grow : Nat → Nat → Nat} {σ : System} {op : Op} (h : Good (σ.step grow op)) :
    Safe grow σ op := by
  rw [Safe]
  cases hstep : σ.step grow op with
  | error e =>
    rw [hstep] at h
    exact h
  | ok r =>
    rw [hstep] at h
    obtain ⟨σ', _ | ⟨i, a⟩⟩ := r
    · trivial
    · exact h.2 i a rfl

theorem Good.next {grow : Nat → Nat → Nat} {σ : System} {op : Op} (hσ : AllFit σ)
    (h : Good (σ.step grow op)) : AllFit (σ.next grow op) := by
  rw [System.next]
  cases hstep : σ.step grow op with
  | error e => exact hσ
  | ok r =>
    rw [hstep] at h
    exact h.1

theorem allFit_of_run {grow : Nat → Nat → Nat} {σ : System}
    (h : Run (fun σ op => some (σ.next grow op)) Meets {} σ) : AllFit σ := by
  refine h.invariant (fun v hv => by cases hv) fun hσ hop hstep => ?_
  cases hstep
  exact (good_step grow hσ hop).next hσ

/-- **Runs.** If every operation of a run meets the condition, every one accesses bytes inside the
buffer of its stream, and inside its window, or throws. -/
theorem safe_of_run (grow : Nat → Nat → Nat) {σ : System} {op : Op}
    (h : Run (fun σ op => some (σ.next grow op)) Meets {} σ) (hop : Meets σ op) :
    Safe grow σ op :=
  (good_step grow (allFit_of_run h) hop).safe

/-- Two of four bytes are read. -/
theorem safe_of_run_two :
    Safe (fun _ n => n) (System.next (fun _ n => n) {} (.ofBytes [1, 2, 3, 4] 0)) (.read 0 2 1) := by
  have hmeets : Meets {} (.ofBytes [1, 2, 3, 4] 0) := trivial
  refine safe_of_run (fun _ n => n) (.tail .refl hmeets rfl) ?_
  intro v hv _ _ _
  cases hv
  exact ⟨.inr (by decide), Nat.zero_le _⟩

/-- The system after operations, where no vector takes more memory than it needs. -/
def after (ops : List Op) : System := ops.foldl (System.next fun _ n => n) {}

/-- A string that does not end in the buffer is read beyond it; a sub-stream has a window that the
buffer has not; and a stream whose end is not the buffer's cuts the buffer as it writes, and another
one reads beyond it. -/
theorem not_safe_string :
    ¬ Safe (fun _ n => n) (after [.ofBytes [1] 0]) (.readString 0) ∧
    ¬ Safe (fun _ n => n) (after [.ofBytes [1] 0, .subAt 0 4 0]) (.read 1 4 0) ∧
    ¬ Safe (fun _ n => n) (after [.ofBytes [1, 2] 0, .copy 0, .seek 0 2, .write 0 [3, 4, 5],
      .seek 1 2, .write 1 [6], .seek 0 0]) (.read 0 5 0) :=
  ⟨fun h => h rfl, fun h => h rfl, fun h => h rfl⟩

end Primitives.BinaryStream
