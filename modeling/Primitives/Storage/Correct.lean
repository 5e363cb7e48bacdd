import Mathlib.Data.List.Forall2
import Mathlib.Data.List.Nodup
import Primitives.Lib.Run
import Primitives.Storage.Model

/-!
# Storage — what is added is found again

The position in both files is at the end between any two operations, so a record tells where its
contents were appended, and they stay there (`Describes`). In every run, however iterators, copies and
additions are mixed, an iterator that was incremented `k` times gives the record of the `k`th file
that was added and is at the end when there are no more, and an object is copied as the contents that
its file had when it was added (`storage_sound`).

The offset of an iterator has 32 bits, and `ftell` gives 63.
-/

set_option autoImplicit false

namespace Primitives.Storage

open Lib

variable {H : Type}

/-! ## A record and its contents -/

/-- What a record says of a file that was added. -/
structure Describes (content : Bytes) (r : Record H) (e : H × Bytes) : Prop where
  hash : r.hash = e.1
  size : r.size.toNat = e.2.length
  contents : window content r.pos.toNat e.2.length = e.2

theorem Describes.grow {content : Bytes} {r : Record H} {e : H × Bytes}
    (h : Describes content r e) (s : Bytes) : Describes (content ++ s) r e :=
  ⟨h.hash, h.size, window_append_left s h.contents⟩

/-- The record that is made of the position at the end. -/
theorem Describes.last {content s : Bytes} (hash : H) (hlen : (content ++ s).length < 2 ^ 63) :
    Describes (content ++ s) ⟨hash, UInt64.ofNat content.length, UInt64.ofNat s.length⟩
      (hash, s) := by
  rw [List.length_append] at hlen
  have hpos : (UInt64.ofNat content.length).toNat = content.length :=
    UInt64.toNat_ofNat_of_lt' (by change content.length < 2 ^ 64; omega)
  have hsize : (UInt64.ofNat s.length).toNat = s.length :=
    UInt64.toNat_ofNat_of_lt' (by change s.length < 2 ^ 64; omega)
  refine ⟨rfl, hsize, ?_⟩
  have h := window_append content s []
  rw [List.append_nil] at h
  rw [hpos]
  exact h

/-- **The contents are copied, and the storage stays as it was.** -/
theorem Describes.copy {ps : SingleFile} {r : Record H} {e : H × Bytes}
    (h : Describes ps.f.content r e) (hend : ps.f.AtEnd) : ps.copy r = (e.2, ps) := by
  have hread : ((ps.f.seekSet r.pos.toNat).read r.size.toNat).1 = e.2 := by
    rw [AppendFile.read_seekSet, h.size]
    exact h.contents
  have hback := hend.restore r.pos.toNat r.size.toNat
  unfold SingleFile.copy
  rw [← hread]
  exact congrArg (fun f => (_, { ps with f })) hback

/-- A record tells the hash and the size of a file, and is copied as its contents. -/
structure Yields (ps : SingleFile) (r : Record H) (e : H × Bytes) : Prop where
  hash : r.hash = e.1
  size : r.size.toNat = e.2.length
  copy : ps.copy r = (e.2, ps)

theorem Describes.yields {ps : SingleFile} {r : Record H} {e : H × Bytes}
    (h : Describes ps.f.content r e) (hend : ps.f.AtEnd) : Yields ps r e :=
  ⟨h.hash, h.size, h.copy hend⟩

/-! ## The index -/

/-- Both files are at their end, and the index has a record for each file that was added. -/
structure Indexed (layout : Layout H) (ps : SingleFile) (added : List (H × Bytes)) : Prop where
  f_end : ps.f.AtEnd
  fi_end : ps.fi.AtEnd
  index : ∃ records : List (Record H), ps.fi.content = (records.map layout.write).flatten ∧
    List.Forall₂ (Describes ps.f.content) records added

namespace Indexed

variable {layout : Layout H} {ps : SingleFile} {added : List (H × Bytes)}

theorem empty : Indexed layout .empty [] := ⟨rfl, rfl, [], rfl, .nil⟩

theorem length (h : Indexed layout ps added) :
    ps.fi.content.length = added.length * layout.size := by
  obtain ⟨records, hcontent, hrecords⟩ := h.index
  rw [hcontent, ← hrecords.length_eq]
  clear hcontent hrecords
  induction records with
  | nil => simp
  | cons r records ih =>
    rw [List.map_cons, List.flatten_cons, List.length_append, layout.length_write, ih,
      List.length_cons, Nat.succ_mul, Nat.add_comm]

theorem atEnd (h : Indexed layout ps added) (k : Nat) :
    ps.atEnd (k * layout.size) = true ↔ k = added.length := by
  have htell : ps.fi.tell = added.length * layout.size := h.fi_end.trans h.length
  rw [SingleFile.atEnd, decide_eq_true_iff, htell]
  exact Nat.mul_left_inj (Nat.ne_of_gt layout.size_pos)

theorem deref (h : Indexed layout ps added) {k : Nat} {e : H × Bytes} (hk : added[k]? = some e) :
    ∃ r, ps.deref layout (k * layout.size) = (r, ps) ∧ Describes ps.f.content r e := by
  obtain ⟨records, hcontent, hrecords⟩ := h.index
  obtain ⟨hlt, rfl⟩ := List.getElem?_eq_some_iff.mp hk
  have hlt' : k < records.length := hrecords.length_eq ▸ hlt
  refine ⟨records[k], ?_, hrecords.get hlt' hlt⟩
  have hblocks : ∀ b ∈ records.map layout.write, b.length = layout.size := by
    intro b hb
    obtain ⟨r, _, rfl⟩ := List.mem_map.mp hb
    exact layout.length_write r
  have hblock : (records.map layout.write)[k]? = some (layout.write records[k]) := by
    rw [List.getElem?_map, List.getElem?_eq_getElem hlt']
    rfl
  have hread : layout.read ((ps.fi.seekSet (k * layout.size)).read layout.size).1 =
      records[k] := by
    rw [AppendFile.read_seekSet, hcontent, window_flatten hblocks hblock, layout.read_write]
  have hback := h.fi_end.restore (k * layout.size) layout.size
  unfold SingleFile.deref
  rw [← hread]
  exact congrArg (fun fi => (_, { ps with fi })) hback

/-- What is appended is described by the record that is appended with it. -/
theorem add (h : Indexed layout ps added) (hash : H) (s : Bytes)
    (hlen : (ps.add layout hash s).f.content.length < 2 ^ 63) :
    Indexed layout (ps.add layout hash s) (added ++ [(hash, s)]) := by
  obtain ⟨records, hcontent, hrecords⟩ := h.index
  have hf : (ps.add layout hash s).f.content = ps.f.content ++ s := AppendFile.write_content ..
  have htell : ps.f.tell = ps.f.content.length := h.f_end
  rw [hf] at hlen
  refine ⟨h.f_end.write s, h.fi_end.write _,
    records ++ [⟨hash, UInt64.ofNat ps.f.tell, UInt64.ofNat s.length⟩], ?_, ?_⟩
  · have hfi := AppendFile.write_content ps.fi
      (layout.write ⟨hash, UInt64.ofNat ps.f.tell, UInt64.ofNat s.length⟩)
    rw [List.map_append, List.flatten_append, ← hcontent]
    simp only [List.map_cons, List.map_nil, List.flatten_cons, List.flatten_nil, List.append_nil]
    exact hfi
  · rw [hf, htell]
    refine List.rel_append (hrecords.imp fun r e hre => hre.grow s) ?_
    exact .cons (Describes.last hash hlen) .nil

/-- An increment, where the offset has room for it. -/
theorem next (h : Indexed layout ps added) (hsmall : ps.fi.content.length < 2 ^ 32) {k : Nat}
    (hk : k < added.length) :
    SingleFile.next layout (k * layout.size) = (k + 1) * layout.size := by
  have hle : (k + 1) * layout.size ≤ added.length * layout.size := Nat.mul_le_mul_right _ hk
  rw [SingleFile.next, ← Nat.succ_mul]
  exact Nat.mod_eq_of_lt (Nat.lt_of_le_of_lt hle (h.length ▸ hsmall))

/-- As much fuel as the loops have is enough. -/
theorem length_lt (h : Indexed layout ps added) : added.length < ps.fi.content.length + 1 + 0 := by
  have hle : added.length ≤ added.length * layout.size :=
    Nat.le_mul_of_pos_right _ layout.size_pos
  have hlen := h.length
  omega

/-- A loop goes through what was added from `k` on. -/
theorem iterateFrom (h : Indexed layout ps added) (hsmall : ps.fi.content.length < 2 ^ 32)
    {fuel k : Nat} (hk : k ≤ added.length) (hfuel : added.length < fuel + k) :
    ∃ rs, SingleFile.iterateFrom layout fuel (k * layout.size) ps = some (rs, ps) ∧
      List.Forall₂ (Describes ps.f.content) rs (added.drop k) := by
  induction fuel generalizing k with
  | zero => omega
  | succ fuel ih =>
    rw [SingleFile.iterateFrom]
    split
    · rename_i hend
      rw [(h.atEnd k).mp hend, List.drop_length]
      exact ⟨[], rfl, .nil⟩
    · rename_i hend
      have hlt : k < added.length :=
        Nat.lt_of_le_of_ne hk fun heq => hend ((h.atEnd k).mpr heq)
      obtain ⟨r, hderef, hr⟩ := h.deref (List.getElem?_eq_getElem hlt)
      obtain ⟨rs, hrest, hrs⟩ := ih hlt (by omega)
      simp only [hderef, h.next hsmall hlt, hrest]
      rw [List.drop_eq_getElem_cons hlt]
      exact ⟨r :: rs, rfl, .cons hr hrs⟩

theorem iterate (h : Indexed layout ps added) (hsmall : ps.fi.content.length < 2 ^ 32) :
    ∃ rs, ps.iterate layout = some (rs, ps) ∧
      List.Forall₂ (Describes ps.f.content) rs added := by
  have hfrom := h.iterateFrom hsmall (Nat.zero_le _) h.length_lt
  rw [Nat.zero_mul] at hfrom
  exact hfrom

/-- `contains` looks through what was added from `k` on. -/
theorem containsFrom [DecidableEq H] (h : Indexed layout ps added)
    (hsmall : ps.fi.content.length < 2 ^ 32) (hash : H) {fuel k : Nat} (hk : k ≤ added.length)
    (hfuel : added.length < fuel + k) :
    SingleFile.containsFrom layout hash fuel (k * layout.size) ps =
      some (decide (hash ∈ (added.drop k).map Prod.fst), ps) := by
  induction fuel generalizing k with
  | zero => omega
  | succ fuel ih =>
    rw [SingleFile.containsFrom]
    split
    · rename_i hend
      rw [(h.atEnd k).mp hend, List.drop_length]
      rfl
    · rename_i hend
      have hlt : k < added.length :=
        Nat.lt_of_le_of_ne hk fun heq => hend ((h.atEnd k).mpr heq)
      obtain ⟨r, hderef, hr⟩ := h.deref (List.getElem?_eq_getElem hlt)
      simp only [hderef, h.next hsmall hlt]
      rw [List.drop_eq_getElem_cons hlt, List.map_cons, hr.hash]
      split
      · rename_i heq
        rw [decide_eq_true (List.mem_cons.mpr (.inl heq))]
      · rename_i hne
        rw [ih hlt (by omega)]
        simp only [List.mem_cons, hne, false_or]

theorem contains [DecidableEq H] (h : Indexed layout ps added)
    (hsmall : ps.fi.content.length < 2 ^ 32) (hash : H) :
    ps.contains layout hash = some (decide (hash ∈ added.map Prod.fst), ps) := by
  have hfrom := h.containsFrom hsmall hash (Nat.zero_le _) h.length_lt
  rw [Nat.zero_mul] at hfrom
  exact hfrom

end Indexed

/-! ## Runs -/

/-- What the types of the code have room for. -/
def Small (ps : SingleFile) : Prop :=
  ps.fi.content.length < 2 ^ 32 ∧ ps.f.content.length < 2 ^ 63

instance (ps : SingleFile) : Decidable (Small ps) := inferInstanceAs (Decidable (_ ∧ _))

/-- The files, the iterators, the objects and the copies are those of what was added. -/
structure Inv (layout : Layout H) (st : State H) : Prop where
  indexed : Indexed layout st.ps st.added
  small : Small st.ps
  iterators : ∀ it ∈ st.iterators,
    it.offset = it.taken * layout.size ∧ it.taken ≤ st.added.length
  objs : ∀ o ∈ st.objs, ∃ e, st.added[o.index]? = some e ∧ Describes st.ps.f.content o.r e
  copies : ∀ c ∈ st.copies, ∃ hash, st.added[c.1]? = some (hash, c.2)

namespace Inv

variable {layout : Layout H} {st : State H}

theorem init : Inv layout (State.init : State H) where
  indexed := .empty
  small := ⟨Nat.two_pow_pos 32, Nat.two_pow_pos 63⟩
  iterators := fun _ hit => absurd hit List.not_mem_nil
  objs := fun _ ho => absurd ho List.not_mem_nil
  copies := fun _ hc => absurd hc List.not_mem_nil

theorem add (h : Inv layout st) (hash : H) (s : Bytes)
    (hsmall : Small (st.add layout hash s).ps) : Inv layout (st.add layout hash s) where
  indexed := h.indexed.add hash s hsmall.2
  small := hsmall
  iterators := by
    intro it hit
    obtain ⟨hoffset, htaken⟩ := h.iterators it hit
    refine ⟨hoffset, ?_⟩
    change it.taken ≤ (st.added ++ [(hash, s)]).length
    rw [List.length_append]
    exact Nat.le_add_right_of_le htaken
  objs := by
    intro o ho
    obtain ⟨e, he, hdescribes⟩ := h.objs o ho
    have hf : (st.ps.add layout hash s).f.content = st.ps.f.content ++ s :=
      AppendFile.write_content ..
    refine ⟨e, ?_, ?_⟩
    · exact (List.getElem?_append_left (List.getElem?_eq_some_iff.mp he).1).trans he
    · change Describes (st.ps.add layout hash s).f.content o.r e
      rw [hf]
      exact hdescribes.grow s
  copies := by
    intro c hc
    obtain ⟨hash', he⟩ := h.copies c hc
    exact ⟨hash', (List.getElem?_append_left (List.getElem?_eq_some_iff.mp he).1).trans he⟩

theorem lt_of_not_atEnd (h : Inv layout st) {i : Nat} {it : Iterator}
    (hi : st.iterators[i]? = some it) (hend : ¬ st.ps.atEnd it.offset = true) :
    it.offset = it.taken * layout.size ∧ it.taken < st.added.length := by
  obtain ⟨hoffset, htaken⟩ := h.iterators it (List.mem_of_getElem? hi)
  refine ⟨hoffset, Nat.lt_of_le_of_ne htaken fun heq => hend ?_⟩
  rw [hoffset]
  exact (h.indexed.atEnd it.taken).mpr heq

theorem next (h : Inv layout st) {i : Nat} {it : Iterator} (hi : st.iterators[i]? = some it)
    (hend : ¬ st.ps.atEnd it.offset = true) :
    Inv layout { st with
      iterators := st.iterators.set i ⟨SingleFile.next layout it.offset, it.taken + 1⟩ } where
  indexed := h.indexed
  small := h.small
  iterators := by
    intro it' hit'
    rcases List.mem_or_eq_of_mem_set hit' with hit' | rfl
    · exact h.iterators it' hit'
    · obtain ⟨hoffset, hlt⟩ := h.lt_of_not_atEnd hi hend
      refine ⟨?_, hlt⟩
      change SingleFile.next layout it.offset = (it.taken + 1) * layout.size
      rw [hoffset]
      exact h.indexed.next h.small.1 hlt
  objs := h.objs
  copies := h.copies

end Inv

variable [DecidableEq H]

/-- The files stay small. -/
def Within (layout : Layout H) (st : State H) (a : Event H) : Prop :=
  ∀ st', step layout st a = some st' → Small st'.ps

namespace Inv

variable {layout : Layout H} {st : State H}

theorem contains (h : Inv layout st) (hash : H) :
    st.ps.contains layout hash = some (decide (hash ∈ st.added.map Prod.fst), st.ps) :=
  h.indexed.contains h.small.1 hash

/-- `file_storage` adds a file whose hash is new. -/
theorem step_fileAdd (h : Inv layout st) (hash : H) (s : Bytes) :
    Storage.step layout st (.fileAdd hash s) = some
      (if hash ∈ st.added.map Prod.fst then st else st.add layout hash s) := by
  by_cases hmem : hash ∈ st.added.map Prod.fst
  · rw [Storage.step, h.contains hash, decide_eq_true hmem, if_pos hmem]
  · rw [Storage.step, h.contains hash, decide_eq_false hmem, if_neg hmem]

theorem step (h : Inv layout st) {a : Event H} {st' : State H} (hok : Within layout st a)
    (hs : Storage.step layout st a = some st') : Inv layout st' := by
  have hsmall := hok st' hs
  cases a with
  | add hash s =>
    cases hs
    exact h.add hash s hsmall
  | fileAdd hash s =>
    rw [h.step_fileAdd hash s] at hs
    split at hs
    · cases hs
      exact h
    · cases hs
      exact h.add hash s hsmall
  | begin =>
    cases hs
    refine { h with iterators := fun it hit => ?_ }
    rcases List.mem_append.mp hit with hit | hit
    · exact h.iterators it hit
    · rw [List.mem_singleton.mp hit]
      exact ⟨(Nat.zero_mul _).symm, Nat.zero_le _⟩
  | next i =>
    rw [Storage.step] at hs
    split at hs
    · cases hs
    · rename_i it hi
      split at hs
      · cases hs
      · cases hs
        exact h.next hi ‹_›
  | deref i =>
    rw [Storage.step] at hs
    split at hs
    · cases hs
    · rename_i it hi
      split at hs
      · cases hs
      · rename_i hend
        obtain ⟨hoffset, hlt⟩ := h.lt_of_not_atEnd hi hend
        obtain ⟨r, hderef, hr⟩ := h.indexed.deref (List.getElem?_eq_getElem hlt)
        rw [hoffset] at hs
        simp only [hderef] at hs
        cases hs
        refine { h with objs := fun o ho => ?_ }
        rcases List.mem_append.mp ho with ho | ho
        · exact h.objs o ho
        · rw [List.mem_singleton.mp ho]
          exact ⟨_, List.getElem?_eq_getElem hlt, hr⟩
  | copy j =>
    rw [Storage.step] at hs
    split at hs
    · cases hs
    · rename_i o hj
      obtain ⟨e, he, hdescribes⟩ := h.objs o (List.mem_of_getElem? hj)
      simp only [hdescribes.copy h.indexed.f_end] at hs
      cases hs
      refine { h with copies := fun c hc => ?_ }
      rcases List.mem_append.mp hc with hc | hc
      · exact h.copies c hc
      · rw [List.mem_singleton.mp hc]
        exact ⟨e.1, he⟩

end Inv

theorem inv_of_run {layout : Layout H} {st : State H}
    (h : Run (step layout) (Within layout) State.init st) : Inv layout st :=
  h.invariant .init fun hinv hok hs => hinv.step hok hs

/-! ## What is found -/

/-- What is found in the storage is what was added, in this order. -/
structure Faithful (layout : Layout H) (st : State H) : Prop where
  iterate : ∃ rs, st.ps.iterate layout = some (rs, st.ps) ∧
    List.Forall₂ (Yields st.ps) rs st.added
  atEnd : ∀ it ∈ st.iterators, it.taken ≤ st.added.length ∧
    (st.ps.atEnd it.offset = true ↔ it.taken = st.added.length)
  deref : ∀ it ∈ st.iterators, ∀ e, st.added[it.taken]? = some e →
    ∃ r, st.ps.deref layout it.offset = (r, st.ps) ∧ Yields st.ps r e
  objs : ∀ o ∈ st.objs, ∃ e, st.added[o.index]? = some e ∧ Yields st.ps o.r e
  copies : ∀ c ∈ st.copies, ∃ hash, st.added[c.1]? = some (hash, c.2)
  contains : ∀ hash,
    st.ps.contains layout hash = some (decide (hash ∈ st.added.map Prod.fst), st.ps)

theorem Inv.faithful {layout : Layout H} {st : State H} (h : Inv layout st) :
    Faithful layout st where
  iterate := by
    obtain ⟨rs, hiterate, hrs⟩ := h.indexed.iterate h.small.1
    exact ⟨rs, hiterate, hrs.imp fun r e hre => hre.yields h.indexed.f_end⟩
  atEnd := by
    intro it hit
    obtain ⟨hoffset, htaken⟩ := h.iterators it hit
    rw [hoffset]
    exact ⟨htaken, h.indexed.atEnd it.taken⟩
  deref := by
    intro it hit e he
    obtain ⟨r, hderef, hr⟩ := h.indexed.deref he
    rw [(h.iterators it hit).1]
    exact ⟨r, hderef, hr.yields h.indexed.f_end⟩
  objs := by
    intro o ho
    obtain ⟨e, he, hdescribes⟩ := h.objs o ho
    exact ⟨e, he, hdescribes.yields h.indexed.f_end⟩
  copies := h.copies
  contains := h.contains

/-- Files are added by `file_storage`. -/
def ByStorage (layout : Layout H) (st : State H) (a : Event H) : Prop :=
  Within layout st a ∧ ∀ hash s, a ≠ .add hash s

theorem nodup_step {layout : Layout H} {st st' : State H} {a : Event H} (h : Inv layout st)
    (hnodup : (st.added.map Prod.fst).Nodup) (hok : ByStorage layout st a)
    (hs : step layout st a = some st') : (st'.added.map Prod.fst).Nodup := by
  cases a with
  | add hash s => exact absurd rfl (hok.2 hash s)
  | fileAdd hash s =>
    rw [h.step_fileAdd hash s] at hs
    split at hs
    · cases hs
      exact hnodup
    · rename_i hnew
      cases hs
      change ((st.added ++ [(hash, s)]).map Prod.fst).Nodup
      rw [List.map_append]
      refine List.nodup_append.mpr ⟨hnodup, List.nodup_singleton hash, ?_⟩
      intro x hx y hy hxy
      rw [hxy, List.mem_singleton.mp hy] at hx
      exact hnew hx
  | begin =>
    cases hs
    exact hnodup
  | next i =>
    rw [step] at hs
    split at hs
    · cases hs
    · split at hs <;> cases hs
      exact hnodup
  | deref i =>
    rw [step] at hs
    split at hs
    · cases hs
    · split at hs <;> cases hs
      exact hnodup
  | copy j =>
    rw [step] at hs
    split at hs <;> cases hs
    exact hnodup

theorem nodup_of_run {layout : Layout H} {st : State H}
    (h : Run (step layout) (ByStorage layout) State.init st) :
    (st.added.map Prod.fst).Nodup := by
  induction h with
  | refl => exact List.nodup_nil
  | tail hrun hok hs ih => exact nodup_step (inv_of_run (hrun.mono And.left)) ih hok hs

/-- **In every run the storage gives what was added, in this order, and `file_storage` adds no two
files with one hash.** -/
theorem storage_sound {layout : Layout H} {st : State H}
    (h : Run (step layout) (Within layout) State.init st) :
    Faithful layout st ∧ (Run (step layout) (ByStorage layout) State.init st →
      (st.added.map Prod.fst).Nodup) :=
  ⟨(inv_of_run h).faithful, nodup_of_run⟩

/-- Records of three numbers with 64 bits. -/
def words : Layout UInt64 where
  size := 24
  write r := encodeLE 8 r.hash.toNat ++ (encodeLE 8 r.pos.toNat ++ encodeLE 8 r.size.toNat)
  read bs := ⟨UInt64.ofNat (decodeLE (window bs 0 8)), UInt64.ofNat (decodeLE (window bs 8 8)),
    UInt64.ofNat (decodeLE (window bs 16 8))⟩
  size_pos := by decide
  length_write r := by simp only [List.length_append, length_encodeLE]
  read_write r := by
    have hnum : ∀ n : UInt64, UInt64.ofNat (decodeLE (encodeLE 8 n.toNat)) = n := by
      intro n
      rw [decodeLE_encodeLE n.toNat_lt, UInt64.ofNat_toNat]
    have hhash := window_append [] (encodeLE 8 r.hash.toNat)
      (encodeLE 8 r.pos.toNat ++ encodeLE 8 r.size.toNat)
    have hpos := window_append (encodeLE 8 r.hash.toNat) (encodeLE 8 r.pos.toNat)
      (encodeLE 8 r.size.toNat)
    have hsize := window_append (encodeLE 8 r.hash.toNat ++ encodeLE 8 r.pos.toNat)
      (encodeLE 8 r.size.toNat) []
    simp only [List.length_append, length_encodeLE, List.append_assoc, List.append_nil,
      List.nil_append, List.length_nil] at hhash hpos hsize
    simp only [hhash, hpos, hsize, hnum]

/-- A file, an empty one in the middle of an iteration, and the first once more. -/
theorem storage_sound_two : ∃ st : State UInt64,
    Run (step words) (Within words) State.init st ∧
      (st.copies = [(0, [1, 2])] ∧ st.added = [(7, [1, 2]), (8, [])]) ∧ Faithful words st ∧
      (Run (step words) (ByStorage words) State.init st → (st.added.map Prod.fst).Nodup) := by
  obtain ⟨st, hrun, hst⟩ := exists_run_of_exec (step words)
    (fun st a => (step words st a).all fun st' => decide (Small st'.ps)) State.init
    [.fileAdd 7 [1, 2], .begin, .deref 0, .fileAdd 8 [], .next 0, .copy 0, .fileAdd 7 [1, 2]]
    (fun st => st.copies = [(0, [1, 2])] ∧ st.added = [(7, [1, 2]), (8, [])]) (by decide +kernel)
  have hrun' : Run (step words) (Within words) State.init st := hrun.mono fun hok st' hs => by
    rw [hs] at hok
    exact of_decide_eq_true hok
  exact ⟨st, hrun', of_decide_eq_true hst, storage_sound hrun'⟩

end Primitives.Storage
