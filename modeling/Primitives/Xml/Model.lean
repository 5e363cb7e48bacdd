import Mathlib.Data.List.Nodup
import Mathlib.Data.List.Perm.Basic
import Primitives.Basic

/-!
# XML trees — the code

The search for an element and the removal of elements in `xml.h`. The trees are those of a library that
is not part of the repository. It is a parameter here (`Libxml`): a memory whose nodes can be read, and two
operations on it, with what is documented of them as hypotheses (`Documented`). A node that is freed is
read no more (`Failure.freed`).

What a pointer leads to is a forest (`Forest`): a node, its children, and the nodes next to it. A memory
holds a forest if each of its nodes is read as the forest says (`Libxml.Holds`).
-/

set_option autoImplicit false

namespace Primitives.Xml

/-! ## The code -/

inductive Failure where
  /-- A node is read that was freed, or never made: undefined behaviour. -/
  | freed
  /-- `SW_RUNTIME_ERROR("nullptr")` -/
  | nullptr
  /-- More steps than there were to be. -/
  | fuel
deriving DecidableEq, Repr

/-- `xmlElementType`: `XML_ELEMENT_NODE`, or another number. -/
inductive ElementType where
  | element
  | other (n : Nat)
deriving DecidableEq, Repr

/-- `xmlNode` -/
structure XmlNode (Addr : Type) where
  type : ElementType
  name : Option Str
  children : Option Addr
  next : Option Addr
deriving DecidableEq, Repr

structure Libxml (Memory Addr : Type) where
  read : Memory → Addr → Option (XmlNode Addr)
  xmlUnlinkNode : Memory → Addr → Memory
  xmlFreeNode : Memory → Addr → Memory

def checkNullptr {α : Type} : Option α → Except Failure α
  | some a => .ok a
  | none => .error .nullptr

section

variable {Memory Addr : Type} (lib : Libxml Memory Addr)

/-- `*p` -/
def deref (m : Memory) (p : Addr) : Except Failure (XmlNode Addr) :=
  match lib.read m p with
  | some x => .ok x
  | none => .error .freed

def getName (m : Memory) (from' : Option Addr) : Except Failure Str := do
  let p ← checkNullptr from'
  let x ← deref lib m p
  checkNullptr x.name

/-- The test of a node in `getNextRaw`. -/
def isNamed (m : Memory) (name : Str) (curNode : Addr) (x : XmlNode Addr) : Except Failure Bool :=
  if x.type = .element then do
    let s ← getName lib m (some curNode)
    .ok (decide (s = name))
  else .ok false

/-- `getNextRaw`. The loop goes on to the next node as the function does to the first child. -/
def getNextRaw (m : Memory) (name : Str) : Nat → Option Addr → Except Failure (Option Addr)
  | 0, _ => .error .fuel
  | _ + 1, none => .ok none
  | n + 1, some curNode => do
    let x ← deref lib m curNode
    if ← isNamed lib m name curNode x then .ok (some curNode)
    else
      match ← getNextRaw m name n x.children with
      | some p => .ok (some p)
      | none => getNextRaw m name n x.next

def removeNode (m : Memory) (n : Addr) : Memory := lib.xmlFreeNode (lib.xmlUnlinkNode m n) n

def removeTags (from' : Option Addr) (tag : Str) : Nat → Memory → Except Failure Memory
  | 0, _ => .error .fuel
  | n + 1, m => do
    match ← getNextRaw lib m tag (n + 1) from' with
    | none => .ok m
    | some p => removeTags from' tag n (removeNode lib m p)

end

/-! ## Forests -/

/-- What a node is. An element has a name. -/
inductive Label where
  | element (name : Str)
  | other (n : Nat) (name : Option Str)
deriving DecidableEq, Repr

namespace Label

def type : Label → ElementType
  | element _ => .element
  | other n _ => .other n

def name : Label → Option Str
  | element s => some s
  | other _ name => name

/-- An element with this name. -/
def hasTag (tag : Str) : Label → Bool
  | element s => decide (s = tag)
  | other _ _ => false

end Label

inductive Forest (Addr : Type) where
  | nil
  | node (addr : Addr) (label : Label) (children next : Forest Addr)

namespace Forest

variable {Addr : Type}

/-- The pointer to the first node. -/
def head : Forest Addr → Option Addr
  | nil => none
  | node a _ _ _ => some a

def addrs : Forest Addr → List Addr
  | nil => []
  | node a _ ch nx => a :: (ch.addrs ++ nx.addrs)

/-- The first node is an element with this name. -/
def startsWith (tag : Str) : Forest Addr → Bool
  | nil => false
  | node _ l _ _ => l.hasTag tag

/-- The first element with this name. -/
def first (tag : Str) : Forest Addr → Option Addr
  | nil => none
  | node a l ch nx => if l.hasTag tag then some a else (ch.first tag).or (nx.first tag)

/-- The forest without the elements of this name and what is below them. -/
def without (tag : Str) : Forest Addr → Forest Addr
  | nil => nil
  | node a l ch nx =>
    if l.hasTag tag then nx.without tag else node a l (ch.without tag) (nx.without tag)

variable [DecidableEq Addr]

/-- The forest without the node at `n` and what is below it. -/
def remove (n : Addr) : Forest Addr → Forest Addr
  | nil => nil
  | node a l ch nx => if a = n then nx else node a l (ch.remove n) (nx.remove n)

/-- The node at `n`, with what is below it and nothing next to it. -/
def tree (n : Addr) : Forest Addr → Forest Addr
  | nil => nil
  | node a l ch nx =>
    if a = n then node a l ch nil else if n ∈ ch.addrs then ch.tree n else nx.tree n

end Forest

/-! ## The library -/

namespace Libxml

variable {Memory Addr : Type} (lib : Libxml Memory Addr)

/-- Each node of the forest is in the memory, with its pointers. -/
def Holds (m : Memory) : Forest Addr → Prop
  | .nil => True
  | .node a l ch nx =>
    lib.read m a = some ⟨l.type, l.name, ch.head, nx.head⟩ ∧ Holds m ch ∧ Holds m nx

/-- What is documented of the library. -/
structure Documented [DecidableEq Addr] : Prop where
  /-- A node is unlinked from where it stands, with all that is below it, -/
  unlink : ∀ {m : Memory} {F : Forest Addr} {n : Addr}, lib.Holds m F → F.addrs.Nodup → n ∈ F.addrs →
    lib.Holds (lib.xmlUnlinkNode m n) (F.remove n) ∧ lib.Holds (lib.xmlUnlinkNode m n) (F.tree n)
  /-- and is not freed by this. -/
  unlink_read : ∀ {m : Memory} {n a : Addr}, lib.read m a = none →
    lib.read (lib.xmlUnlinkNode m n) a = none
  /-- A node that stands alone is freed with all that is below it. -/
  free : ∀ {m : Memory} {n : Addr} {l : Label} {ch : Forest Addr}, lib.Holds m (.node n l ch .nil) →
    (Forest.node n l ch .nil).addrs.Nodup →
    (∀ a ∈ (Forest.node n l ch .nil).addrs, lib.read (lib.xmlFreeNode m n) a = none) ∧
    ∀ a, a ∉ (Forest.node n l ch .nil).addrs → lib.read (lib.xmlFreeNode m n) a = lib.read m a

variable {lib} in
/-- What is held does not depend on other nodes. -/
theorem Holds.congr {m m' : Memory} {F : Forest Addr} (hF : lib.Holds m F)
    (heq : ∀ a ∈ F.addrs, lib.read m' a = lib.read m a) : lib.Holds m' F := by
  induction F with
  | nil => trivial
  | node a l ch nx ihch ihnx =>
    obtain ⟨hread, hch, hnx⟩ := hF
    refine ⟨?_, ihch hch fun b hb => heq b ?_, ihnx hnx fun b hb => heq b ?_⟩
    · exact (heq a List.mem_cons_self).trans hread
    · exact List.mem_cons_of_mem _ (List.mem_append_left _ hb)
    · exact List.mem_cons_of_mem _ (List.mem_append_right _ hb)

end Libxml

/-! ## What is removed from a forest -/

namespace Forest

variable {Addr : Type} {F : Forest Addr} {n : Addr} {tag : Str}

theorem first_mem (h : F.first tag = some n) : n ∈ F.addrs := by
  induction F with
  | nil => cases h
  | node a l ch nx ihch ihnx =>
    rw [first] at h
    rw [addrs, List.mem_cons, List.mem_append]
    split at h
    · exact .inl (Option.some.inj h).symm
    · rw [Option.or_eq_some_iff] at h
      obtain hin | ⟨-, hin⟩ := h
      · exact .inr (.inl (ihch hin))
      · exact .inr (.inr (ihnx hin))

theorem without_of_first_none (h : F.first tag = none) : F.without tag = F := by
  induction F with
  | nil => rfl
  | node a l ch nx ihch ihnx =>
    rw [first] at h
    split at h
    · cases h
    · rename_i hl
      rw [Option.or_eq_none_iff] at h
      rw [without, if_neg hl, ihch h.1, ihnx h.2]

variable [DecidableEq Addr]

theorem remove_of_not_mem (h : n ∉ F.addrs) : F.remove n = F := by
  induction F with
  | nil => rfl
  | node a l ch nx ihch ihnx =>
    rw [addrs, List.mem_cons, List.mem_append, not_or, not_or] at h
    rw [remove, if_neg (Ne.symm h.1), ihch h.2.1, ihnx h.2.2]

theorem tree_eq (h : n ∈ F.addrs) : ∃ l ch, F.tree n = node n l ch nil := by
  induction F with
  | nil => cases h
  | node a l ch nx ihch ihnx =>
    rw [tree]
    split
    · rename_i heq
      exact ⟨l, ch, by rw [heq]⟩
    · rename_i hne
      split
      · rename_i hin
        exact ihch hin
      · rename_i hout
        rw [addrs, List.mem_cons, List.mem_append] at h
        obtain rfl | hin | hin := h
        · exact absurd rfl hne
        · exact absurd hin hout
        · exact ihnx hin

/-- The nodes of a forest are those of the tree that is removed, and of what is left. -/
theorem perm_tree_remove (hd : F.addrs.Nodup) (h : n ∈ F.addrs) :
    F.addrs.Perm ((F.tree n).addrs ++ (F.remove n).addrs) := by
  induction F with
  | nil => cases h
  | node a l ch nx ihch ihnx =>
    rw [addrs, List.nodup_cons, List.nodup_append'] at hd
    obtain ⟨ha, hch, hnx, hdisj⟩ := hd
    rw [tree, remove]
    by_cases heq : a = n
    · rw [if_pos heq, if_pos heq, addrs, addrs, addrs, List.append_nil]
      exact List.Perm.refl _
    · rw [if_neg heq, if_neg heq]
      rw [addrs, List.mem_cons, List.mem_append] at h
      have hmem := h.resolve_left (Ne.symm heq)
      by_cases hin : n ∈ ch.addrs
      · rw [if_pos hin, addrs, addrs, remove_of_not_mem (hdisj hin)]
        have hperm := ((ihch hch hin).append_right nx.addrs).cons a
        rw [List.append_assoc] at hperm
        exact hperm.trans List.perm_middle.symm
      · rw [if_neg hin, addrs, addrs, remove_of_not_mem hin]
        have hperm := ((ihnx hnx (hmem.resolve_left hin)).append_left ch.addrs).cons a
        refine hperm.trans ?_
        have hswap : (ch.addrs ++ ((nx.tree n).addrs ++ (nx.remove n).addrs)).Perm
            ((nx.tree n).addrs ++ (ch.addrs ++ (nx.remove n).addrs)) := by
          rw [← List.append_assoc, ← List.append_assoc]
          exact List.perm_append_comm.append_right _
        exact (hswap.cons a).trans List.perm_middle.symm

theorem nodup_remove (hd : F.addrs.Nodup) (h : n ∈ F.addrs) : (F.remove n).addrs.Nodup :=
  (List.nodup_append'.mp ((perm_tree_remove hd h).nodup_iff.mp hd)).2.1

theorem length_remove_lt (hd : F.addrs.Nodup) (h : n ∈ F.addrs) :
    (F.remove n).addrs.length < F.addrs.length := by
  have hsum := (perm_tree_remove hd h).length_eq
  obtain ⟨l, ch, heq⟩ := tree_eq h
  rw [List.length_append, heq, addrs, List.length_cons] at hsum
  omega

/-- The first element is removed, and the others are as before. -/
theorem without_remove (hd : F.addrs.Nodup) (h : F.first tag = some n) :
    (F.remove n).without tag = F.without tag := by
  induction F with
  | nil => cases h
  | node a l ch nx ihch ihnx =>
    rw [addrs, List.nodup_cons, List.nodup_append', List.mem_append, not_or] at hd
    obtain ⟨⟨hach, hanx⟩, hch, hnx, hdisj⟩ := hd
    rw [first] at h
    split at h
    · rename_i hl
      rw [remove, if_pos (Option.some.inj h), without, if_pos hl]
    · rename_i hl
      rw [Option.or_eq_some_iff] at h
      obtain hin | ⟨hnone, hin⟩ := h
      · have hmem := first_mem hin
        have hne : a ≠ n := fun heq => hach (heq ▸ hmem)
        rw [remove, if_neg hne, without, if_neg hl, without, if_neg hl, ihch hch hin,
          remove_of_not_mem (hdisj hmem)]
      · have hmem := first_mem hin
        have hne : a ≠ n := fun heq => hanx (heq ▸ hmem)
        have hout : n ∉ ch.addrs := fun hin' => hdisj hin' hmem
        rw [remove, if_neg hne, without, if_neg hl, without, if_neg hl, ihnx hnx hin,
          remove_of_not_mem hout]

/-- The start of the search stays if it is not what is found. -/
theorem remove_first (hd : F.addrs.Nodup) (hs : F.startsWith tag = false) (h : F.first tag = some n) :
    (F.remove n).head = F.head ∧ (F.remove n).startsWith tag = false := by
  cases F with
  | nil => cases h
  | node a l ch nx =>
    have hl : l.hasTag tag = false := hs
    rw [addrs, List.nodup_cons, List.mem_append, not_or] at hd
    rw [first, hl, if_neg Bool.false_ne_true, Option.or_eq_some_iff] at h
    have hne : a ≠ n := by
      rintro rfl
      obtain hin | ⟨-, hin⟩ := h
      · exact hd.1.1 (first_mem hin)
      · exact hd.1.2 (first_mem hin)
    rw [remove, if_neg hne]
    exact ⟨rfl, hl⟩

end Forest

end Primitives.Xml
