import Mathlib.Data.List.Range
import Primitives.Xml.Model

/-!
# The removal of elements

A heap of numbered nodes is a library as it is documented (`Heap.documented`). To unlink a node is to set
every pointer to it to the node next to it. To free it is to follow its pointers, which needs no more steps
than there are places in the heap.

`removeTags` searches from one pointer again and again, and removes what it finds (`removeTags_run`). The
pointer is its own: when the node at it is an element to be removed, the next search begins at a node that
is freed. So the function removes the elements exactly if the first node is none of them
(`removeTags_iff`).
-/

set_option autoImplicit false

namespace Primitives.Xml

/-! ## A memory of nodes -/

/-- `size` places, of which those with a node are in use. -/
structure Heap where
  size : Nat
  node : Nat → Option (XmlNode Nat)

namespace Heap

def read (h : Heap) (a : Nat) : Option (XmlNode Nat) := if a < h.size then h.node a else none

def erase (h : Heap) (a : Nat) : Heap := { h with node := fun b => if b = a then none else h.node b }

/-- A pointer, with the one to `n` set to `next`. -/
def redirect (n : Nat) (next p : Option Nat) : Option Nat := if p = some n then next else p

def unlink (h : Heap) (n : Nat) : Heap :=
  let next := (h.read n).bind XmlNode.next
  { h with
    node := fun a => (h.node a).map fun x =>
      { x with
        children := redirect n next x.children
        next := if a = n then none else redirect n next x.next } }

/-- `xmlFreeNodeList` -/
def freeList : Nat → Option Nat → Heap → Heap
  | 0, _, h => h
  | _ + 1, none, h => h
  | k + 1, some a, h =>
    match h.read a with
    | none => h
    | some x => freeList k x.next (freeList k x.children (h.erase a))

def free (h : Heap) (n : Nat) : Heap :=
  match h.read n with
  | none => h
  | some x => freeList h.size x.children (h.erase n)

def libxml : Libxml Heap Nat := ⟨read, unlink, free⟩

/-! ### Free -/

section

variable {h : Heap} {F : Forest Nat} {n a : Nat}

theorem read_erase (h : Heap) (a b : Nat) : (h.erase a).read b = if b = a then none else h.read b := by
  unfold read erase
  dsimp only
  split
  · rfl
  · exact (ite_self none).symm

theorem freeList_read {k : Nat} (hF : libxml.Holds h F) (hd : F.addrs.Nodup) (hk : F.addrs.length ≤ k)
    (b : Nat) : (freeList k F.head h).read b = if b ∈ F.addrs then none else h.read b := by
  induction F generalizing h k b with
  | nil =>
    rw [Forest.head, Forest.addrs, if_neg List.not_mem_nil]
    cases k <;> rfl
  | node a l ch nx ihch ihnx =>
    rw [Forest.addrs, List.length_cons, List.length_append] at hk
    obtain ⟨k, rfl⟩ := Nat.exists_eq_succ_of_ne_zero (show k ≠ 0 by omega)
    rw [Forest.addrs, List.nodup_cons, List.mem_append, not_or, List.nodup_append'] at hd
    obtain ⟨⟨hach, hanx⟩, hdch, hdnx, hdisj⟩ := hd
    obtain ⟨hread, hch, hnx⟩ := hF
    have hread' : h.read a = some ⟨l.type, l.name, ch.head, nx.head⟩ := hread
    have hch' : libxml.Holds (h.erase a) ch := by
      refine hch.congr fun c hc => ?_
      have hne : c ≠ a := fun heq => hach (heq ▸ hc)
      show (h.erase a).read c = h.read c
      rw [read_erase, if_neg hne]
    have hmid (c : Nat) := ihch (k := k) hch' hdch (by omega) c
    have hnx' : libxml.Holds (freeList k ch.head (h.erase a)) nx := by
      refine hnx.congr fun c hc => ?_
      have hne : c ≠ a := fun heq => hanx (heq ▸ hc)
      have hout : c ∉ ch.addrs := fun hin => hdisj hin hc
      show (freeList k ch.head (h.erase a)).read c = h.read c
      rw [hmid, if_neg hout, read_erase, if_neg hne]
    rw [Forest.head, freeList, hread']
    dsimp only
    rw [ihnx hnx' hdnx (by omega), hmid, read_erase, Forest.addrs]
    simp only [List.mem_cons, List.mem_append]
    by_cases hb : b ∈ nx.addrs
    · simp [hb]
    · by_cases hb' : b ∈ ch.addrs
      · simp [hb']
      · simp [hb, hb']

/-- There are no more nodes than places. -/
theorem length_le_size (hF : libxml.Holds h F) (hd : F.addrs.Nodup) : F.addrs.length ≤ h.size := by
  have hlt : ∀ F : Forest Nat, libxml.Holds h F → ∀ a ∈ F.addrs, a < h.size := by
    intro F hF
    induction F with
    | nil => exact fun a ha => absurd ha List.not_mem_nil
    | node b l ch nx ihch ihnx =>
      obtain ⟨hread, hch, hnx⟩ := hF
      intro a ha
      rw [Forest.addrs, List.mem_cons, List.mem_append] at ha
      obtain rfl | ha | ha := ha
      · by_contra hge
        have hnone : h.read a = none := if_neg hge
        have hsome : h.read a = some _ := hread
        rw [hnone] at hsome
        cases hsome
      · exact ihch hch a ha
      · exact ihnx hnx a ha
  have hsub : F.addrs ⊆ List.range h.size := fun a ha => List.mem_range.mpr (hlt F hF a ha)
  have hlen := (List.subperm_of_subset hd hsub).length_le
  rw [List.length_range] at hlen
  exact hlen

theorem free_read {l : Label} {ch : Forest Nat} (hF : libxml.Holds h (.node n l ch .nil))
    (hd : (Forest.node n l ch .nil).addrs.Nodup) (b : Nat) :
    (h.free n).read b = if b ∈ (Forest.node n l ch .nil).addrs then none else h.read b := by
  have hsize := length_le_size hF hd
  rw [Forest.addrs, Forest.addrs, List.append_nil] at hd hsize ⊢
  obtain ⟨hread, hch, -⟩ := hF
  have hread' : h.read n = some ⟨l.type, l.name, ch.head, none⟩ := hread
  have hch' : libxml.Holds (h.erase n) ch := by
    refine hch.congr fun c hc => ?_
    have hne : c ≠ n := fun heq => (List.nodup_cons.mp hd).1 (heq ▸ hc)
    show (h.erase n).read c = h.read c
    rw [read_erase, if_neg hne]
  rw [free, hread']
  dsimp only
  rw [freeList_read hch' (List.nodup_cons.mp hd).2 (Nat.le_of_succ_le hsize), read_erase]
  simp only [List.mem_cons]
  by_cases hb : b ∈ ch.addrs
  · simp [hb]
  · simp [hb]

/-! ### Unlink -/

theorem read_unlink (h : Heap) (n a : Nat) :
    (h.unlink n).read a = (h.read a).map fun x =>
      { x with
        children := redirect n ((h.read n).bind XmlNode.next) x.children
        next := if a = n then none else redirect n ((h.read n).bind XmlNode.next) x.next } := by
  unfold read unlink
  dsimp only
  split <;> rfl

theorem redirect_head {next : Option Nat} (hn : n ∉ F.addrs) : redirect n next F.head = F.head := by
  refine if_neg fun heq => hn ?_
  cases F with
  | nil => cases heq
  | node a l ch nx =>
    cases heq
    exact List.mem_cons_self

/-- The pointer to a forest is the one to what is left of it. -/
theorem redirect_remove (hF : libxml.Holds h F) :
    redirect n ((h.read n).bind XmlNode.next) F.head = (F.remove n).head := by
  cases F with
  | nil => rfl
  | node a l ch nx =>
    rw [Forest.head, Forest.remove, redirect]
    by_cases heq : a = n
    · subst heq
      have hread : h.read a = some ⟨l.type, l.name, ch.head, nx.head⟩ := hF.1
      rw [if_pos rfl, if_pos rfl, hread]
      rfl
    · rw [if_neg fun hsome => heq (Option.some.inj hsome), if_neg heq]
      rfl

theorem unlink_of_not_mem (hF : libxml.Holds h F) (hn : n ∉ F.addrs) :
    libxml.Holds (h.unlink n) F := by
  induction F with
  | nil => trivial
  | node a l ch nx ihch ihnx =>
    obtain ⟨hread, hch, hnx⟩ := hF
    rw [Forest.addrs, List.mem_cons, List.mem_append, not_or, not_or] at hn
    obtain ⟨hna, hnch, hnnx⟩ := hn
    have hread' : h.read a = some ⟨l.type, l.name, ch.head, nx.head⟩ := hread
    refine ⟨?_, ihch hch hnch, ihnx hnx hnnx⟩
    show (h.unlink n).read a = _
    rw [read_unlink, hread', Option.map_some]
    dsimp only
    rw [redirect_head hnch, redirect_head hnnx, if_neg (Ne.symm hna)]

theorem unlink_remove (hF : libxml.Holds h F) (hd : F.addrs.Nodup) :
    libxml.Holds (h.unlink n) (F.remove n) := by
  induction F with
  | nil => trivial
  | node a l ch nx ihch ihnx =>
    rw [Forest.addrs, List.nodup_cons, List.mem_append, not_or, List.nodup_append'] at hd
    obtain ⟨⟨-, hanx⟩, hdch, hdnx, -⟩ := hd
    obtain ⟨hread, hch, hnx⟩ := hF
    have hread' : h.read a = some ⟨l.type, l.name, ch.head, nx.head⟩ := hread
    rw [Forest.remove]
    split
    · rename_i heq
      exact unlink_of_not_mem hnx (heq ▸ hanx)
    · rename_i hne
      refine ⟨?_, ihch hch hdch, ihnx hnx hdnx⟩
      show (h.unlink n).read a = _
      rw [read_unlink, hread', Option.map_some]
      dsimp only
      rw [redirect_remove hch, redirect_remove hnx, if_neg hne]

theorem unlink_tree (hF : libxml.Holds h F) (hd : F.addrs.Nodup) (hn : n ∈ F.addrs) :
    libxml.Holds (h.unlink n) (F.tree n) := by
  induction F with
  | nil => cases hn
  | node a l ch nx ihch ihnx =>
    rw [Forest.addrs, List.nodup_cons, List.mem_append, not_or, List.nodup_append'] at hd
    obtain ⟨⟨hach, -⟩, hdch, hdnx, -⟩ := hd
    obtain ⟨hread, hch, hnx⟩ := hF
    have hread' : h.read a = some ⟨l.type, l.name, ch.head, nx.head⟩ := hread
    rw [Forest.tree]
    split
    · rename_i heq
      subst heq
      refine ⟨?_, unlink_of_not_mem hch hach, trivial⟩
      show (h.unlink a).read a = _
      rw [read_unlink, hread', Option.map_some]
      dsimp only
      rw [redirect_head hach, if_pos rfl]
      rfl
    · rename_i hne
      split
      · rename_i hin
        exact ihch hch hdch hin
      · rename_i hout
        rw [Forest.addrs, List.mem_cons, List.mem_append] at hn
        exact ihnx hnx hdnx ((hn.resolve_left (Ne.symm hne)).resolve_left hout)

end

theorem documented : libxml.Documented where
  unlink hF hd hn := ⟨unlink_remove hF hd, unlink_tree hF hd hn⟩
  unlink_read := by
    intro h n a hnone
    have hnone' : h.read a = none := hnone
    show (h.unlink n).read a = none
    rw [read_unlink, hnone', Option.map_none]
  free := by
    intro h n l ch hF hd
    constructor
    · intro a ha
      exact (free_read hF hd a).trans (if_pos ha)
    · intro a ha
      exact (free_read hF hd a).trans (if_neg ha)

end Heap

/-! ## The search -/

variable {Memory Addr : Type} {lib : Libxml Memory Addr} {m : Memory} {F : Forest Addr} {tag : Str}

theorem isNamed_eq {a : Addr} {l : Label} {children next : Option Addr}
    (hread : lib.read m a = some ⟨l.type, l.name, children, next⟩) :
    isNamed lib m tag a ⟨l.type, l.name, children, next⟩ = .ok (l.hasTag tag) := by
  cases l with
  | element s =>
    have hname : getName lib m (some a) = .ok s := by
      show (deref lib m a).bind _ = _
      rw [deref, hread]
      rfl
    show (getName lib m (some a)).bind _ = _
    rw [hname]
    rfl
  | other n name => rfl

/-- One step of the search. -/
theorem getNextRaw_succ {a : Addr} {l : Label} {children next : Option Addr}
    (hread : lib.read m a = some ⟨l.type, l.name, children, next⟩) (n : Nat) :
    getNextRaw lib m tag (n + 1) (some a) =
      if l.hasTag tag then .ok (some a)
      else (getNextRaw lib m tag n children).bind fun found =>
        match found with
        | some p => .ok (some p)
        | none => getNextRaw lib m tag n next := by
  have hderef : deref lib m a = .ok ⟨l.type, l.name, children, next⟩ := by rw [deref, hread]
  rw [getNextRaw, hderef]
  show ((isNamed lib m tag a ⟨l.type, l.name, children, next⟩).bind _) = _
  rw [isNamed_eq hread]
  rfl

/-- **The search** finds the first element of the forest. -/
theorem getNextRaw_eq (hF : lib.Holds m F) {n : Nat} (hn : F.addrs.length < n) :
    getNextRaw lib m tag n F.head = .ok (F.first tag) := by
  induction F generalizing n with
  | nil =>
    obtain ⟨n, rfl⟩ := Nat.exists_eq_succ_of_ne_zero (Nat.ne_of_gt hn)
    rfl
  | node a l ch nx ihch ihnx =>
    rw [Forest.addrs, List.length_cons, List.length_append] at hn
    obtain ⟨n, rfl⟩ := Nat.exists_eq_succ_of_ne_zero (show n ≠ 0 by omega)
    obtain ⟨hread, hch, hnx⟩ := hF
    rw [Forest.head, getNextRaw_succ hread, Forest.first]
    split
    · rfl
    · rw [ihch (n := n) hch (by omega)]
      cases ch.first tag with
      | none => exact ihnx hnx (by omega)
      | some p => rfl

/-! ## The removal -/

/-- A round that finds nothing is the last one. -/
theorem removeTags_of_none (hF : lib.Holds m F) (hfirst : F.first tag = none) {n : Nat}
    (hn : F.addrs.length < n + 1) : removeTags lib F.head tag (n + 1) m = .ok m := by
  rw [removeTags, getNextRaw_eq hF hn, hfirst]
  rfl

theorem removeTags_of_some {p : Addr} (hF : lib.Holds m F) (hfirst : F.first tag = some p) {n : Nat}
    (hn : F.addrs.length < n + 1) :
    removeTags lib F.head tag (n + 1) m = removeTags lib F.head tag n (removeNode lib m p) := by
  rw [removeTags, getNextRaw_eq hF hn, hfirst]
  rfl

variable [DecidableEq Addr]

/-- One node is removed, with what is below it. -/
theorem removeNode_holds (hdoc : lib.Documented) (hF : lib.Holds m F) (hd : F.addrs.Nodup) {n : Addr}
    (hn : n ∈ F.addrs) :
    lib.Holds (removeNode lib m n) (F.remove n) ∧
      (∀ a ∈ F.addrs, a ∉ (F.remove n).addrs → lib.read (removeNode lib m n) a = none) ∧
      ∀ a, lib.read m a = none → lib.read (removeNode lib m n) a = none := by
  obtain ⟨hrest, htree⟩ := hdoc.unlink hF hd hn
  have hperm := Forest.perm_tree_remove hd hn
  have hdd := hperm.nodup_iff.mp hd
  rw [List.nodup_append'] at hdd
  obtain ⟨l, ch, heq⟩ := Forest.tree_eq hn
  obtain ⟨hgone, hkept⟩ := hdoc.free (heq ▸ htree) (heq ▸ hdd.1)
  rw [← heq] at hgone hkept
  refine ⟨?_, ?_, ?_⟩
  · exact hrest.congr fun a ha => hkept a fun hin => hdd.2.2 hin ha
  · intro a ha hout
    exact hgone a ((List.mem_append.mp (hperm.mem_iff.mp ha)).resolve_right hout)
  · intro a hnone
    by_cases ha : a ∈ (F.tree n).addrs
    · exact hgone a ha
    · exact (hkept a ha).trans (hdoc.unlink_read hnone)

/-- What is left at last: the forest without the elements, and nothing of them. -/
structure Removed (lib : Libxml Memory Addr) (m : Memory) (F : Forest Addr) (tag : Str) : Prop where
  head : (F.without tag).head = F.head
  holds : lib.Holds m (F.without tag)
  gone : ∀ a ∈ F.addrs, a ∉ (F.without tag).addrs → lib.read m a = none

/-- **The run**, from a node that stays. -/
theorem removeTags_run (hdoc : lib.Documented) (hF : lib.Holds m F) (hd : F.addrs.Nodup)
    (hs : F.startsWith tag = false) :
    ∃ m', (∀ n, F.addrs.length < n → removeTags lib F.head tag n m = .ok m') ∧ Removed lib m' F tag ∧
      ∀ a, lib.read m a = none → lib.read m' a = none := by
  induction hlen : F.addrs.length using Nat.strongRecOn generalizing F m with
  | ind k ih =>
    subst hlen
    cases hfirst : F.first tag with
    | none =>
      have hw := Forest.without_of_first_none hfirst
      refine ⟨m, ?_, ⟨by rw [hw], by rw [hw]; exact hF, ?_⟩, fun _ h => h⟩
      · intro n hn
        obtain ⟨n, rfl⟩ := Nat.exists_eq_succ_of_ne_zero (Nat.ne_of_gt (Nat.zero_lt_of_lt hn))
        exact removeTags_of_none hF hfirst hn
      · intro a ha hout
        rw [hw] at hout
        exact absurd ha hout
    | some p =>
      have hp := Forest.first_mem hfirst
      obtain ⟨hhead, hs'⟩ := Forest.remove_first hd hs hfirst
      obtain ⟨hholds, hgone, hkeep⟩ := removeNode_holds hdoc hF hd hp
      have hlt := Forest.length_remove_lt hd hp
      obtain ⟨m', hrun, hremoved, hkeep'⟩ := ih _ hlt hholds (Forest.nodup_remove hd hp) hs' rfl
      have hw := Forest.without_remove hd hfirst
      refine ⟨m', ?_, ⟨?_, ?_, ?_⟩, fun a ha => hkeep' a (hkeep a ha)⟩
      · intro n hn
        obtain ⟨n, rfl⟩ := Nat.exists_eq_succ_of_ne_zero (Nat.ne_of_gt (Nat.zero_lt_of_lt hn))
        have hrun' := hrun n (by omega)
        rw [hhead] at hrun'
        rw [removeTags_of_some hF hfirst hn]
        exact hrun'
      · rw [← hw, hremoved.head, hhead]
      · rw [← hw]
        exact hremoved.holds
      · intro a ha hout
        by_cases hin : a ∈ (F.remove p).addrs
        · exact hremoved.gone a hin (hw ▸ hout)
        · exact hkeep' a (hgone a ha hin)

/-- From a node that is removed, the next search reads it. -/
theorem removeTags_startsWith (hdoc : lib.Documented) (hF : lib.Holds m F) (hd : F.addrs.Nodup)
    (hs : F.startsWith tag = true) {n : Nat} (hn : F.addrs.length < n) :
    removeTags lib F.head tag n m = .error .freed := by
  cases F with
  | nil => cases hs
  | node a l ch nx =>
    have hl : l.hasTag tag = true := hs
    have hfirst : (Forest.node a l ch nx).first tag = some a := if_pos hl
    obtain ⟨-, hgone, -⟩ := removeNode_holds hdoc hF hd (n := a) List.mem_cons_self
    have hout : a ∉ ((Forest.node a l ch nx).remove a).addrs := by
      rw [Forest.remove, if_pos rfl]
      exact fun hin => (List.nodup_cons.mp hd).1 (List.mem_append_right _ hin)
    have hnone := hgone a List.mem_cons_self hout
    have hpos : 0 < (Forest.node a l ch nx).addrs.length := List.length_pos_of_mem List.mem_cons_self
    obtain ⟨n, rfl⟩ : ∃ k, n = k + 2 := ⟨n - 2, by omega⟩
    have hfreed : deref lib (removeNode lib m a) a = .error .freed := by rw [deref, hnone]
    rw [removeTags_of_some hF hfirst hn, Forest.head, removeTags, getNextRaw, hfreed]
    rfl

/-- **`removeTags`** removes the elements, and reads none that it has removed, exactly if it does not
begin at one of them. -/
theorem removeTags_iff (hdoc : lib.Documented) (hF : lib.Holds m F) (hd : F.addrs.Nodup) :
    (∃ m', (∀ n, F.addrs.length < n → removeTags lib F.head tag n m = .ok m') ∧
      Removed lib m' F tag) ↔
      F.startsWith tag = false := by
  constructor
  · rintro ⟨m', hrun, -⟩
    by_contra hs
    have hfreed := removeTags_startsWith hdoc hF hd (Bool.not_eq_false _ ▸ hs) (Nat.lt_succ_self _)
    rw [hrun _ (Nat.lt_succ_self _)] at hfreed
    cases hfreed
  · intro hs
    obtain ⟨m', hrun, hremoved, -⟩ := removeTags_run hdoc hF hd hs
    exact ⟨m', hrun, hremoved⟩

/-- A text between two elements of one name, the first of which has another one in it. -/
def sampleForest : Forest Nat :=
  .node 0 (.element ['r'])
    (.node 1 (.element ['a']) (.node 2 (.element ['a']) .nil .nil)
      (.node 3 (.other 3 none) .nil (.node 4 (.element ['a']) .nil .nil)))
    .nil

def sampleHeap : Heap where
  size := 5
  node
    | 0 => some ⟨.element, some ['r'], some 1, none⟩
    | 1 => some ⟨.element, some ['a'], some 2, some 3⟩
    | 2 => some ⟨.element, some ['a'], none, none⟩
    | 3 => some ⟨.other 3, none, none, some 4⟩
    | _ => some ⟨.element, some ['a'], none, none⟩

theorem removeTags_sample :
    ∃ m', (∀ n, 5 < n → removeTags Heap.libxml (some 0) ['a'] n sampleHeap = .ok m') ∧
      Removed Heap.libxml m' sampleForest ['a'] :=
  (removeTags_iff (F := sampleForest) (m := sampleHeap) Heap.documented
    ⟨rfl, ⟨rfl, ⟨rfl, trivial, trivial⟩, ⟨rfl, trivial, ⟨rfl, trivial, trivial⟩⟩⟩, trivial⟩
    (by decide)).mpr rfl

/-- An element that is to be removed itself. -/
theorem removeTags_self :
    Heap.libxml.Holds ⟨1, fun _ => some ⟨.element, some ['a'], none, none⟩⟩
        (.node 0 (.element ['a']) .nil .nil) ∧
      removeTags Heap.libxml (some 0) ['a'] 2 ⟨1, fun _ => some ⟨.element, some ['a'], none, none⟩⟩ =
        .error .freed :=
  ⟨⟨rfl, trivial, trivial⟩, rfl⟩

end Primitives.Xml
