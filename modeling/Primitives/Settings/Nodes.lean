import Primitives.Settings.Model

/-!
# The nodes of a YAML library

The settings are dumped into nodes of a library that is not part of the repository. It is a parameter
here (`NodeLib`), with what is documented of it as hypotheses (`Documented`). Nodes are aliases of
each other if they have one `ref`. Whether an assignment moves the other aliases of a node along with
it is left open.

A memory of numbered nodes (`Memory`) is such a library. It keeps them as `yaml-cpp` does, and
changes one node only.
-/

set_option autoImplicit false

namespace Primitives.Settings

inductive Data (Node : Type) where
  | null
  | scalar (s : Bytes)
  | map (es : List (Bytes × Node))

/-- The nodes of a YAML library. -/
structure NodeLib (Store Node Ref : Type) where
  live : Store → Node → Prop
  /-- What the node refers to. -/
  ref : Store → Node → Ref
  data : Store → Ref → Data Node
  /-- `node[k]`, if it does not throw. -/
  subscript : Store → Node → Bytes → Option (Node × Store)
  /-- `node = rhs` for a handle that refers to a node. -/
  assign : Store → Node → Node → Store
  /-- `node = s` for a string. -/
  assignString : Store → Node → Bytes → Store

namespace NodeLib

variable {Store Node Ref : Type} (lib : NodeLib Store Node Ref)

/-- `node[k]` has created the child `c` in the map of the node, whose entries were `es`. -/
structure Created (st : Store) (n : Node) (k : Bytes) (es : List (Bytes × Node)) (c : Node)
    (st' : Store) : Prop where
  new : ¬ lib.live st c
  live : lib.live st' c
  kept : ∀ m, lib.live st m → lib.live st' m ∧ lib.ref st' m = lib.ref st m
  own : ∀ m, lib.live st m → lib.ref st m ≠ lib.ref st' c
  null : lib.data st' (lib.ref st' c) = .null
  entry : lib.data st' (lib.ref st n) = .map (es ++ [(k, c)])
  others : ∀ r, r ≠ lib.ref st n → r ≠ lib.ref st' c → lib.data st' r = lib.data st r

/-- What is documented of the library. -/
structure Documented : Prop where
  /-- The children of a node are nodes. -/
  children : ∀ {st n es k c}, lib.live st n → lib.data st (lib.ref st n) = .map es → (k, c) ∈ es →
    lib.live st c
  /-- `node[k]` on a map is the child, -/
  subscript_child : ∀ {st n es k c}, lib.live st n → lib.data st (lib.ref st n) = .map es →
    es.find? (fun x => x.1 = k) = some (k, c) → lib.subscript st n k = some (c, st)
  /-- which is created if there is none; so it is on a null node. -/
  subscript_new : ∀ {st n es k}, lib.live st n →
    (lib.data st (lib.ref st n) = .null ∧ es = [] ∨ lib.data st (lib.ref st n) = .map es) →
    es.find? (fun x => x.1 = k) = none →
    ∃ c st', lib.subscript st n k = some (c, st') ∧ lib.Created st n k es c st'
  /-- On a scalar it throws `BadSubscript`. -/
  subscript_scalar : ∀ {st n s k}, lib.live st n → lib.data st (lib.ref st n) = .scalar s →
    lib.subscript st n k = none
  /-- Assigning a node makes the node that the handle referred to an alias of it. Only aliases of
  the node may follow. -/
  assign_ref : ∀ {st n c}, lib.live st n → lib.live st c →
    lib.ref (lib.assign st n c) n = lib.ref st c ∧
    ∀ m, lib.live st m → lib.ref (lib.assign st n c) m = lib.ref st m ∨
      lib.ref st m = lib.ref st n ∧ lib.ref (lib.assign st n c) m = lib.ref st c
  assign_live : ∀ {st n c m}, lib.live (lib.assign st n c) m ↔ lib.live st m
  assign_data : ∀ {st n c}, lib.data (lib.assign st n c) = lib.data st
  /-- Assigning a string makes the node that scalar. -/
  assignString_data : ∀ {st n s}, lib.live st n →
    lib.data (lib.assignString st n s) (lib.ref st n) = .scalar s ∧
    ∀ r, r ≠ lib.ref st n → lib.data (lib.assignString st n s) r = lib.data st r
  assignString_live : ∀ {st n s m}, lib.live (lib.assignString st n s) m ↔ lib.live st m
  assignString_ref : ∀ {st n s}, lib.ref (lib.assignString st n s) = lib.ref st

end NodeLib

/-! ## A memory of nodes -/

/-- Nodes are numbered, and have a reference each to data. A new node refers to data of its own. -/
structure Memory where
  nodes : Nat
  ref : Nat → Nat
  data : Nat → Data Nat
  ref_lt : ∀ n < nodes, ref n < nodes
  child_lt : ∀ r es, data r = .map es → ∀ x ∈ es, x.2 < nodes

namespace Memory

/-- One null node. -/
def single : Memory where
  nodes := 1
  ref _ := 0
  data _ := .null
  ref_lt _ _ := Nat.one_pos
  child_lt _ _ h := by cases h

def create (st : Memory) (n : Nat) (k : Bytes) (es : List (Bytes × Nat))
    (hes : ∀ x ∈ es, x.2 < st.nodes) : Memory where
  nodes := st.nodes + 1
  ref := Function.update st.ref st.nodes st.nodes
  data := Function.update (Function.update st.data (st.ref n) (.map (es ++ [(k, st.nodes)])))
    st.nodes .null
  ref_lt m hm := by
    by_cases heq : m = st.nodes
    · rw [heq, Function.update_self]
      exact Nat.lt_succ_self _
    · rw [Function.update_of_ne heq]
      exact Nat.lt_succ_of_lt (st.ref_lt m (by omega))
  child_lt r es' hes' x hx := by
    by_cases hr : r = st.nodes
    · rw [hr, Function.update_self] at hes'
      cases hes'
    · rw [Function.update_of_ne hr] at hes'
      by_cases hrn : r = st.ref n
      · rw [hrn, Function.update_self] at hes'
        cases hes'
        rcases List.mem_append.mp hx with hx | hx
        · exact Nat.lt_succ_of_lt (hes x hx)
        · rw [List.mem_singleton.mp hx]
          exact Nat.lt_succ_self _
      · rw [Function.update_of_ne hrn] at hes'
        exact Nat.lt_succ_of_lt (st.child_lt r es' hes' x hx)

def subscript (st : Memory) (n : Nat) (k : Bytes) : Option (Nat × Memory) :=
  match hdata : st.data (st.ref n) with
  | .scalar _ => none
  | .null => some (st.nodes, st.create n k [] fun _ h => by cases h)
  | .map es =>
    match es.find? fun x => x.1 = k with
    | some x => some (x.2, st)
    | none => some (st.nodes, st.create n k es (st.child_lt _ es hdata))

/-- The node refers to what the other one refers to. No other node is changed. -/
def assign (st : Memory) (n c : Nat) : Memory where
  nodes := st.nodes
  ref := if c < st.nodes then Function.update st.ref n (st.ref c) else st.ref
  data := st.data
  ref_lt m hm := by
    split
    · rename_i hc
      by_cases heq : m = n
      · rw [heq, Function.update_self]
        exact st.ref_lt c hc
      · rw [Function.update_of_ne heq]
        exact st.ref_lt m hm
    · exact st.ref_lt m hm
  child_lt := st.child_lt

def assignString (st : Memory) (n : Nat) (s : Bytes) : Memory where
  nodes := st.nodes
  ref := st.ref
  data := Function.update st.data (st.ref n) (.scalar s)
  ref_lt := st.ref_lt
  child_lt r es hes := by
    by_cases hr : r = st.ref n
    · rw [hr, Function.update_self] at hes
      cases hes
    · rw [Function.update_of_ne hr] at hes
      exact st.child_lt r es hes

/-- Nodes as `yaml-cpp` keeps them. -/
def lib : NodeLib Memory Nat Nat where
  live st n := n < st.nodes
  ref := Memory.ref
  data := Memory.data
  subscript := Memory.subscript
  assign := Memory.assign
  assignString := Memory.assignString

/-- A child is created in the same way on a null node and in a map. -/
theorem created {st : Memory} {n : Nat} {k : Bytes} {es : List (Bytes × Nat)} (hn : n < st.nodes)
    (hes : ∀ x ∈ es, x.2 < st.nodes) : lib.Created st n k es st.nodes (st.create n k es hes) := by
  have href : st.ref n ≠ st.nodes := Nat.ne_of_lt (st.ref_lt n hn)
  have hnew : (st.create n k es hes).ref st.nodes = st.nodes := Function.update_self ..
  refine ⟨Nat.lt_irrefl _, Nat.lt_succ_self _, ?_, ?_, ?_, ?_, ?_⟩
  · intro m hm
    exact ⟨Nat.lt_succ_of_lt hm, Function.update_of_ne (Nat.ne_of_lt hm) ..⟩
  · intro m hm
    show st.ref m ≠ (st.create n k es hes).ref st.nodes
    rw [hnew]
    exact Nat.ne_of_lt (st.ref_lt m hm)
  · show (st.create n k es hes).data ((st.create n k es hes).ref st.nodes) = .null
    rw [hnew]
    exact Function.update_self ..
  · exact (Function.update_of_ne href ..).trans (Function.update_self ..)
  · intro r hr hr'
    have hfresh : r ≠ st.nodes := fun h => hr' (h.trans hnew.symm)
    exact (Function.update_of_ne hfresh ..).trans (Function.update_of_ne hr ..)

theorem documented : lib.Documented where
  children := by
    intro st n es k c _ hdata hmem
    exact st.child_lt _ es hdata (k, c) hmem
  subscript_child := by
    intro st n es k c _ hdata hfind
    show st.subscript n k = some (c, st)
    unfold subscript
    split
    · rename_i h
      cases h.symm.trans hdata
    · rename_i h
      cases h.symm.trans hdata
    · rename_i es' h
      cases h.symm.trans hdata
      rw [hfind]
  subscript_new := by
    intro st n es k hn hdata hfind
    show ∃ c st', st.subscript n k = some (c, st') ∧ lib.Created st n k es c st'
    unfold subscript
    split
    · rename_i s h
      rcases hdata with ⟨hnull, -⟩ | hmap
      · cases h.symm.trans hnull
      · cases h.symm.trans hmap
    · rename_i h
      rcases hdata with ⟨-, rfl⟩ | hmap
      · exact ⟨_, _, rfl, created hn _⟩
      · cases h.symm.trans hmap
    · rename_i es' h
      rcases hdata with ⟨hnull, -⟩ | hmap
      · cases h.symm.trans hnull
      · cases h.symm.trans hmap
        rw [hfind]
        exact ⟨_, _, rfl, created hn _⟩
  subscript_scalar := by
    intro st n s k _ hdata
    show st.subscript n k = none
    unfold subscript
    split
    · rfl
    · rename_i h
      cases h.symm.trans hdata
    · rename_i es h
      cases h.symm.trans hdata
  assign_ref := by
    intro st n c _ hc
    have hassign : (st.assign n c).ref = Function.update st.ref n (st.ref c) := if_pos hc
    show (st.assign n c).ref n = st.ref c ∧ ∀ m, m < st.nodes →
      (st.assign n c).ref m = st.ref m ∨ st.ref m = st.ref n ∧ (st.assign n c).ref m = st.ref c
    rw [hassign]
    refine ⟨Function.update_self .., fun m _ => ?_⟩
    by_cases hm : m = n
    · rw [hm, Function.update_self]
      exact .inr ⟨rfl, rfl⟩
    · exact .inl (Function.update_of_ne hm ..)
  assign_live := Iff.rfl
  assign_data := rfl
  assignString_data := by
    intro st n s _
    exact ⟨Function.update_self .., fun r hr => Function.update_of_ne hr ..⟩
  assignString_live := Iff.rfl
  assignString_ref := rfl

end Memory

end Primitives.Settings
