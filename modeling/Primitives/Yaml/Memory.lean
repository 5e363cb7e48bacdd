import Primitives.Yaml.Nodes

/-!
# A memory of YAML nodes

Numbered nodes are a library as it is documented (`Memory.documented`). A node refers to data by a number,
and data has the children of the node. To copy a node the whole memory is copied: behind it there is each
node once more, with each number moved.
-/

set_option autoImplicit false

namespace Primitives.Yaml

/-- The nodes below `size`, and the data below `size`. -/
structure Memory where
  size : Nat
  ref : Nat → Nat
  data : Nat → Data Nat

/-- The children are moved by `k`. -/
def Data.shift (k : Nat) : Data Nat → Data Nat
  | .undefined => .undefined
  | .null => .null
  | .scalar s => .scalar s
  | .sequence ns => .sequence (ns.map (k + ·))
  | .map es => .map (es.map fun e => (e.1, k + e.2))

namespace Memory

def live (m : Memory) (n : Nat) : Prop := n < m.size ∧ m.ref n < m.size

def view (m : Memory) (n : Nat) : Data Nat := m.data (m.ref n)

/-- The data at `r` is `d`. -/
def setData (m : Memory) (r : Nat) (d : Data Nat) : Memory :=
  { m with data := fun r' => if r' = r then d else m.data r' }

/-- A new node with data of its own. -/
def add (m : Memory) : Memory where
  size := m.size + 1
  ref n := if n = m.size then m.size else m.ref n
  data r := if r = m.size then .null else m.data r

def pushBack (m : Memory) (n c : Nat) : Memory :=
  match m.view n with
  | .sequence ns => m.setData (m.ref n) (.sequence (ns ++ [c]))
  | _ => m.setData (m.ref n) (.sequence [c])

def subscript (m : Memory) (n : Nat) (k : Str) : Option (Nat × Memory) :=
  match m.view n with
  | .map es =>
    match es.lookup k with
    | some c => some (c, m)
    | none => some (m.size, m.add.setData (m.ref n) (.map (es ++ [(k, m.size)])))
  | .undefined => some (m.size, m.add.setData (m.ref n) (.map [(k, m.size)]))
  | .null => some (m.size, m.add.setData (m.ref n) (.map [(k, m.size)]))
  | _ => none

def assign (m : Memory) (n c : Nat) : Memory :=
  { m with ref := fun n' => if n' = n then m.ref c else m.ref n' }

/-- The memory, and behind it the memory. -/
def double (m : Memory) : Memory where
  size := m.size + m.size
  ref n := if n < m.size then m.ref n else m.size + m.ref (n - m.size)
  data r := if r < m.size then m.data r else (m.data (r - m.size)).shift m.size

def lib : NodeLib Memory Nat Nat where
  live := live
  ref := ref
  data := data
  create m := (m.size, m.add)
  pushBack := pushBack
  subscript := subscript
  assign := assign
  clone m n := (m.size + n, m.double)

/-! ## Data -/

section

variable {m : Memory} {n r : Nat} {d : Data Nat}

theorem not_liveRef (h : m.size ≤ r) : ¬ lib.LiveRef m r := by
  rintro ⟨n, hn, rfl⟩
  exact Nat.not_lt_of_le h hn.2

theorem view_setData (m : Memory) (n : Nat) (d : Data Nat) :
    lib.view (m.setData (m.ref n) d) n = d :=
  if_pos rfl

theorem changes_setData (m : Memory) (n : Nat) (d : Data Nat) :
    lib.Changes [m.ref n] m (m.setData (m.ref n) d) := by
  refine ⟨fun h => h, fun _ _ => rfl, fun _ hout => ?_⟩
  exact if_neg fun heq => hout (List.mem_singleton.mpr heq)

theorem changes_add (m : Memory) : lib.Changes [] m m.add := by
  have href {n : Nat} (hn : n < m.size) : m.add.ref n = m.ref n := if_neg (Nat.ne_of_lt hn)
  refine ⟨fun hn => ⟨Nat.lt_succ_of_lt hn.1, ?_⟩, fun hn _ => href hn.1, fun hn _ => ?_⟩
  · rw [href hn.1]
    exact Nat.lt_succ_of_lt hn.2
  · exact if_neg (Nat.ne_of_lt hn.2)

theorem ref_add (m : Memory) : m.add.ref m.size = m.size := if_pos rfl

theorem live_add (m : Memory) : lib.live m.add m.size := by
  refine ⟨Nat.lt_succ_self _, ?_⟩
  rw [ref_add]
  exact Nat.lt_succ_self _

/-! ## Copies -/

theorem changes_double (m : Memory) : lib.Changes [] m m.double := by
  have href {n : Nat} (hn : n < m.size) : m.double.ref n = m.ref n := if_pos hn
  refine ⟨fun hn => ⟨?_, ?_⟩, fun hn _ => href hn.1, fun hn _ => if_pos hn.2⟩
  · exact Nat.lt_add_right _ hn.1
  · rw [href hn.1]
    exact Nat.lt_add_right _ hn.2

theorem ref_double (m : Memory) (n : Nat) :
    lib.ref m.double (m.size + n) = m.size + lib.ref m n := by
  have hout : ¬ m.size + n < m.size := Nat.not_lt_of_le (Nat.le_add_right _ _)
  show (if m.size + n < m.size then m.ref (m.size + n) else m.size + m.ref (m.size + n - m.size)) = _
  rw [if_neg hout, Nat.add_sub_cancel_left]
  rfl

theorem live_double (h : lib.live m n) : lib.live m.double (m.size + n) := by
  refine ⟨Nat.add_lt_add_left h.1 _, ?_⟩
  show lib.ref m.double (m.size + n) < m.size + m.size
  rw [ref_double]
  exact Nat.add_lt_add_left h.2 _

theorem view_double (m : Memory) (n : Nat) :
    lib.view m.double (m.size + n) = (lib.view m n).shift m.size := by
  have hout : ¬ m.size + m.ref n < m.size := Nat.not_lt_of_le (Nat.le_add_right _ _)
  rw [NodeLib.view, ref_double]
  show (if m.size + m.ref n < m.size then _ else (m.data (m.size + m.ref n - m.size)).shift m.size) = _
  rw [if_neg hout, Nat.add_sub_cancel_left]
  rfl

/-- The copy of a node holds what the node holds. -/
theorem holds_double {v : Value} {C : List Nat} (h : lib.Holds m n v C) :
    lib.Holds m.double (m.size + n) v (C.map (m.size + ·)) := by
  induction h with
  | @scalar n s hlive hview =>
    have hview' : lib.view m.double (m.size + n) = .scalar s := by
      rw [view_double, hview]
      rfl
    have hholds := NodeLib.Holds.scalar (live_double hlive) hview'
    rw [ref_double] at hholds
    exact hholds
  | @sequence n kids hlive hview _ ih =>
    have hview' : lib.view m.double (m.size + n) = .sequence ((kids.map fun k =>
        (⟨m.size + k.node, k.value, k.refs.map (m.size + ·)⟩ : Kid Nat Nat)).map Kid.node) := by
      rw [view_double, hview, Data.shift, List.map_map, List.map_map]
      rfl
    have hholds := NodeLib.Holds.sequence (live_double hlive) hview' fun k hk => by
      obtain ⟨k', hk', rfl⟩ := List.mem_map.mp hk
      exact ih k' hk'
    rw [ref_double, List.map_map,
      List.flatMap_map] at hholds
    rw [List.map_cons, List.map_flatMap]
    exact hholds
  | @map n kids hlive hview _ ih =>
    have hview' : lib.view m.double (m.size + n) = .map ((kids.map fun k =>
        (k.1, (⟨m.size + k.2.node, k.2.value, k.2.refs.map (m.size + ·)⟩ : Kid Nat Nat))).map
          keyNode) := by
      rw [view_double, hview, Data.shift, List.map_map, List.map_map]
      rfl
    have hholds := NodeLib.Holds.map (live_double hlive) hview' fun k hk => by
      obtain ⟨k', hk', rfl⟩ := List.mem_map.mp hk
      exact ih k' hk'
    rw [ref_double, List.map_map,
      List.flatMap_map] at hholds
    rw [List.map_cons, List.map_flatMap]
    exact hholds
  | @loop n ns hlive hview hself =>
    have hview' : lib.view m.double (m.size + n) = .sequence (ns.map (m.size + ·)) := by
      rw [view_double, hview]
      rfl
    have hholds := NodeLib.Holds.loop (live_double hlive) hview' (List.mem_map_of_mem hself)
    rw [ref_double] at hholds
    exact hholds

end

theorem documented : lib.Documented where
  create := by
    intro m
    refine ⟨changes_add m, live_add m, ?_, ?_⟩
    · show ¬ lib.LiveRef m (m.add.ref m.size)
      rw [ref_add]
      exact not_liveRef (Nat.le_refl _)
    · show m.add.data (m.add.ref m.size) = .null
      rw [ref_add]
      exact if_pos rfl
  pushBack := by
    intro m n c ns _ _ hview
    have hpush : m.pushBack n c = m.setData (m.ref n) (.sequence (ns ++ [c])) := by
      obtain ⟨hnull, rfl⟩ | hseq := hview
      · rw [pushBack, show m.view n = .null from hnull]
        rfl
      · rw [pushBack, show m.view n = .sequence ns from hseq]
    show lib.Changes [m.ref n] m (m.pushBack n c) ∧ (m.pushBack n c).ref n = m.ref n ∧
      lib.view (m.pushBack n c) n = _
    rw [hpush]
    exact ⟨changes_setData m n _, rfl, view_setData m n _⟩
  subscript_child := by
    intro m n c es k _ hview hk
    show m.subscript n k = some (c, m)
    rw [subscript, show m.view n = .map es from hview]
    dsimp only
    rw [hk]
  subscript_new := by
    intro m n es k hn hview hk
    have href : m.add.ref n = m.ref n := (changes_add m).ref hn List.not_mem_nil
    have hset := changes_setData m.add n (.map (es ++ [(k, m.size)]))
    have hseen := view_setData m.add n (.map (es ++ [(k, m.size)]))
    rw [href] at hset hseen
    refine ⟨m.size, m.add.setData (m.ref n) (.map (es ++ [(k, m.size)])), ?_, ?_, href, hseen, ?_, ?_⟩
    · show m.subscript n k = _
      rw [subscript, show m.view n = .map es from hview]
      dsimp only
      rw [hk]
    · exact ((changes_add m).mono (List.nil_subset _)).trans hset fun r hr => .inl hr
    · exact hset.live (live_add m)
    · show ¬ lib.LiveRef m (m.add.ref m.size)
      rw [ref_add]
      exact not_liveRef (Nat.le_refl _)
  assign := by
    intro m n c hn hc
    refine ⟨⟨?_, ?_, fun _ _ => rfl⟩, if_pos rfl⟩
    · intro n' hn'
      refine ⟨hn'.1, ?_⟩
      show (if n' = n then m.ref c else m.ref n') < m.size
      split
      · exact hc.2
      · exact hn'.2
    · intro n' _ hout
      refine if_neg fun heq => hout ?_
      rw [heq]
      exact List.mem_singleton_self _
  clone := by
    intro m n v C h _ hC
    refine ⟨changes_double m, C.map (m.size + ·), holds_double h, ?_, ?_⟩
    · exact hC.map fun a b hab => Nat.add_left_cancel hab
    · intro r hr
      obtain ⟨r', -, rfl⟩ := List.mem_map.mp hr
      exact not_liveRef (Nat.le_add_right _ _)

end Memory

end Primitives.Yaml
