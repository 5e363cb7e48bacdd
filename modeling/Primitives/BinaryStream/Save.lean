import Primitives.BinaryStream.Model
import Primitives.Lib.Fallible
import Primitives.Lib.Run

/-!
# Streams in files

`save` writes as many bytes of the buffer as `data_offset` says, and `load` makes a stream of what is in
a file. `data_offset` moves with the position, so the whole buffer is saved by a stream that stands at its
end, and by no other (`save_load_iff`).
-/

set_option autoImplicit false

namespace Primitives.BinaryStream

open Lib

/-! ## The code -/

namespace Stream

/-- `save`: the bytes of the file. -/
def save (h : Heap) (s : Stream) : Except Failure (List UInt8) :=
  match s.buffer h with
  | none => .error .undefined
  | some b =>
    let a : Access := ⟨0, s.dataOffset⟩
    if b.Has a then .ok (window b.bytes a.start a.size) else .error .undefined

/-- `load`, for a file with these bytes: what the stream had before is dropped. -/
def load (h : Heap) (_ : Stream) (file : List UInt8) : Heap × Stream := ofBytes h file 0

end Stream

/-! ## Runs of one stream -/

/-- How a stream begins. -/
inductive Start where
  | new
  | reserve (size : Nat)
  | ofString (s : List UInt8)
  | ofVector (buf : List UInt8) (dataOffset : Nat)
deriving DecidableEq, Repr

def Start.dataOffset : Start → Nat
  | .ofVector _ dataOffset => dataOffset
  | _ => 0

/-- The buffers, and the stream. -/
structure Context where
  heap : Heap := []
  stream : Stream := {}
deriving DecidableEq, Repr

def Start.context : Start → Context
  | .new => {}
  | .reserve size => ⟨(Stream.reserve [] size).1, (Stream.reserve [] size).2⟩
  | .ofString s => ⟨(Stream.ofBytes [] s 0).1, (Stream.ofBytes [] s 0).2⟩
  | .ofVector buf dataOffset =>
    ⟨(Stream.ofBytes [] buf dataOffset).1, (Stream.ofBytes [] buf dataOffset).2⟩

inductive Action where
  | write (data : List UInt8)
  | writeString (text : List UInt8)
  | read (size offset : Nat)
  | readString
  | seek (size : Nat)
  | skip (n : Int)
  | reset
deriving DecidableEq, Repr

/-- The action, if it returns. -/
def Action.run (grow : Nat → Nat → Nat) (c : Context) : Action → Except Failure Context
  | .write data => do
    let (h, s, _) ← c.stream.write grow c.heap data
    return ⟨h, s⟩
  | .writeString text => do
    let (h, s, _) ← c.stream.writeString grow c.heap text
    return ⟨h, s⟩
  | .read size offset => do
    let (s, _, _) ← c.stream.read c.heap size offset
    return { c with stream := s }
  | .readString => do
    let (s, _, _) ← c.stream.readString c.heap
    return { c with stream := s }
  | .seek size => do
    let s ← c.stream.seek c.heap size
    return { c with stream := s }
  | .skip n => do
    let s ← c.stream.skip c.heap n
    return { c with stream := s }
  | .reset => .ok { c with stream := c.stream.reset c.heap }

/-- An action that throws leaves everything as it was, and one that is undefined leads nowhere. -/
def step (grow : Nat → Nat → Nat) (c : Context) (a : Action) : Option Context :=
  match a.run grow c with
  | .ok c => some c
  | .error .undefined => none
  | .error _ => some c

/-! ## The offset -/

/-- The offset is the position. -/
def Stream.InStep (s : Stream) : Prop := s.dataOffset = s.index

theorem Stream.InStep.skip {h : Heap} {s s' : Stream} {n : Int} (hs : s.InStep)
    (hskip : s.skip h n = .ok s') : s'.InStep := by
  rw [Stream.skip] at hskip
  split at hskip
  · cases hskip
  · cases hskip
    rw [InStep] at hs
    simp only [InStep, hs]

theorem Stream.InStep.writeAt {grow : Nat → Nat → Nat} {h h' : Heap} {s s' : Stream} {data : List UInt8}
    {a : Access} (hs : s.InStep) (hwrite : s.writeAt grow h data = .ok (h', s', a)) : s'.InStep := by
  rw [Stream.writeAt] at hwrite
  split at hwrite
  · cases hwrite
  · split at hwrite
    · cases hwrite
    · rename_i i _ _
      have hextend : (s.extend grow h i (sizeT (s.index + data.length))).2.InStep := by
        rw [Stream.extend]
        split
        · exact hs
        · exact hs
      dsimp only at hwrite
      split at hwrite
      · cases hwrite
      · split at hwrite
        · obtain ⟨t, ht, hwrite⟩ := of_bind_eq_ok hwrite
          cases hwrite
          exact hextend.skip ht
        · cases hwrite

theorem Stream.InStep.write {grow : Nat → Nat → Nat} {h h' : Heap} {s s' : Stream} {data : List UInt8}
    {a : Access} (hs : s.InStep) (hwrite : s.write grow h data = .ok (h', s', a)) : s'.InStep := by
  have hinit : (s.init h data.length).2.InStep := by
    rw [Stream.init]
    split
    · exact hs
    · exact hs
  exact hinit.writeAt hwrite

theorem Stream.InStep.reset (h : Heap) (s : Stream) : (s.reset h).InStep := rfl

theorem Stream.InStep.read {h : Heap} {s s' : Stream} {size offset : Nat} {bytes : List UInt8}
    {x : Access} (hs : s.InStep) (hread : s.read h size offset = .ok (s', bytes, x)) : s'.InStep := by
  rw [Stream.read] at hread
  split at hread
  · cases hread
  · split at hread
    · cases hread
    · split at hread
      · cases hread
      · dsimp only at hread
        split at hread
        · obtain ⟨t, ht, hread⟩ := of_bind_eq_ok hread
          cases hread
          exact hs.skip ht
        · cases hread

theorem Stream.InStep.readString {h : Heap} {s s' : Stream} {bytes : List UInt8} {x : Access}
    (hs : s.InStep) (hread : s.readString h = .ok (s', bytes, x)) : s'.InStep := by
  rw [Stream.readString] at hread
  split at hread
  · dsimp only at hread
    split at hread
    · obtain ⟨t, ht, hread⟩ := of_bind_eq_ok hread
      cases hread
      exact hs.skip ht
    · cases hread
  · cases hread

def Context.InStep (c : Context) : Prop := c.stream.InStep

/-- **Every action keeps the offset at the position.** -/
theorem Context.InStep.run {grow : Nat → Nat → Nat} {c c' : Context} {a : Action} (hc : c.InStep)
    (ha : a.run grow c = .ok c') : c'.InStep := by
  cases a with
  | write data =>
    obtain ⟨⟨h, s, x⟩, hwrite, ha⟩ := of_bind_eq_ok ha
    cases ha
    exact Stream.InStep.write hc hwrite
  | writeString text =>
    obtain ⟨⟨h, s, x⟩, hwrite, ha⟩ := of_bind_eq_ok ha
    cases ha
    exact Stream.InStep.write hc hwrite
  | read size offset =>
    obtain ⟨⟨s, bytes, x⟩, hread, ha⟩ := of_bind_eq_ok ha
    cases ha
    exact Stream.InStep.read hc hread
  | readString =>
    obtain ⟨⟨s, bytes, x⟩, hread, ha⟩ := of_bind_eq_ok ha
    cases ha
    exact Stream.InStep.readString hc hread
  | seek size =>
    obtain ⟨s, hseek, ha⟩ := of_bind_eq_ok ha
    cases ha
    exact (Stream.InStep.reset c.heap c.stream).skip hseek
  | skip n =>
    obtain ⟨s, hskip, ha⟩ := of_bind_eq_ok ha
    cases ha
    exact Stream.InStep.skip hc hskip
  | reset =>
    cases ha
    exact Stream.InStep.reset c.heap c.stream

/-- In a run of a stream that was given no offset it is the position all the time. -/
theorem inStep_of_run {grow : Nat → Nat → Nat} {start : Start} {c : Context}
    (hrun : Reachable (step grow) start.context c) (hstart : start.dataOffset = 0) : c.InStep := by
  have hinit : start.context.InStep := by
    cases start with
    | ofVector buf dataOffset => exact hstart
    | _ => rfl
  refine hrun.invariant hinit fun {t u a} ht _ hstep => ?_
  rw [step] at hstep
  split at hstep
  · rename_i hok
    cases hstep
    exact ht.run hok
  · cases hstep
  · cases hstep
    exact ht

/-! ## Saving and loading -/

/-- What is saved, and loaded into another stream, is the whole buffer. -/
def Persists (c : Context) : Prop :=
  ∃ b file, c.stream.buffer c.heap = some b ∧ c.stream.save c.heap = .ok file ∧
    ∀ other : Stream, ∃ b', (other.load c.heap file).2.buffer (other.load c.heap file).1 = some b' ∧
      b'.bytes = b.bytes

theorem buffer_load (h : Heap) (s : Stream) (file : List UInt8) :
    (s.load h file).2.buffer (s.load h file).1 = some ⟨file, file.length, 0⟩ := by
  simp [Stream.load, Stream.ofBytes, Stream.buffer]

theorem persists_iff_dataOffset (c : Context) :
    Persists c ↔ ∃ b, c.stream.buffer c.heap = some b ∧ c.stream.dataOffset = b.bytes.length := by
  constructor
  · rintro ⟨b, file, hb, hsave, hload⟩
    obtain ⟨b', hb', hbytes⟩ := hload {}
    rw [buffer_load] at hb'
    cases hb'
    refine ⟨b, hb, ?_⟩
    rw [Stream.save, hb] at hsave
    dsimp only at hsave
    split at hsave
    · rename_i hhas
      cases hsave
      have hlen := congrArg List.length hbytes
      rw [window, List.drop_zero, List.length_take] at hlen
      have hle : c.stream.dataOffset = 0 ∨ c.stream.dataOffset ≤ b.bytes.length := by
        simpa [Buffer.Has] using hhas
      omega
    · cases hsave
  · rintro ⟨b, hb, hoffset⟩
    refine ⟨b, b.bytes, hb, ?_, fun other => ⟨_, buffer_load c.heap other b.bytes, rfl⟩⟩
    rw [Stream.save, hb, hoffset]
    dsimp only
    rw [if_pos (.inr (Nat.zero_add _).le), window, List.drop_zero, List.take_length]

/-- **Persistence.** After any writes, reads and moves, a stream is loaded as it was saved if and only if
it has a buffer and its offset is the size of the buffer. Unless it was begun with an offset, this means
that it stands at the end of the buffer. -/
theorem save_load_iff (grow : Nat → Nat → Nat) {start : Start} {c : Context}
    (hrun : Reachable (step grow) start.context c) :
    (Persists c ↔ ∃ b, c.stream.buffer c.heap = some b ∧ c.stream.dataOffset = b.bytes.length) ∧
    (start.dataOffset = 0 →
      (Persists c ↔ ∃ b, c.stream.buffer c.heap = some b ∧ c.stream.index = b.bytes.length)) := by
  refine ⟨persists_iff_dataOffset c, fun hstart => ?_⟩
  have hstep : c.stream.dataOffset = c.stream.index := inStep_of_run hrun hstart
  rw [persists_iff_dataOffset, hstep]

/-- Two bytes, and the position at the end. -/
theorem save_load_two : ∃ c, Reachable (step fun _ n => n) Start.new.context c ∧ Persists c := by
  have hrun : Reachable (step fun _ n => n) Start.new.context
      ⟨[⟨[1, 2], 2, 0⟩], { buf := some 0, index := 2, ptr := some ⟨0, 2⟩, dataOffset := 2, size := 2, end_ := 2 }⟩ :=
    .tail (a := .write [1, 2]) .refl trivial (by decide)
  exact ⟨_, hrun, (save_load_iff _ hrun).1.mpr ⟨_, rfl, rfl⟩⟩

/-- Two bytes, and the position at the start again: nothing is saved. -/
theorem save_load_not : ∃ c, Reachable (step fun _ n => n) Start.new.context c ∧
    c.stream.save c.heap = .ok [] ∧ ¬ Persists c := by
  have hrun : Reachable (step fun _ n => n) Start.new.context
      ⟨[⟨[1, 2], 2, 0⟩], { buf := some 0, index := 0, ptr := some ⟨0, 0⟩, dataOffset := 0, size := 2, end_ := 2 }⟩ :=
    .tail (a := .seek 0) (.tail (a := .write [1, 2]) .refl trivial rfl) trivial (by decide)
  refine ⟨_, hrun, by decide, fun h => ?_⟩
  obtain ⟨b, hb, hoffset⟩ := (persists_iff_dataOffset _).mp h
  cases hb
  cases hoffset

end Primitives.BinaryStream
