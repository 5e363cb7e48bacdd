import Mathlib.Data.List.Nodup
import Primitives.Yaml.Values

/-!
# The nodes of a YAML library

What is documented of the library, as hypotheses (`NodeLib.Documented`). A node holds a value if it is read
so, through the refs of the nodes below it (`NodeLib.Holds`). An operation changes what it says and nothing
else (`NodeLib.Changes`), so that a value stays where none of its refs is changed (`Holds.changes`).

A node that holds a loop holds no tree (`Holds.not_tree`).
-/

set_option autoImplicit false

namespace Primitives.Yaml

/-- A child of a node: what it holds, and through which refs. -/
structure Kid (Node Ref : Type) where
  node : Node
  value : Value
  refs : List Ref

/-- The entry of a map for the child at a key. -/
def keyNode {Node Ref : Type} (e : Str × Kid Node Ref) : Str × Node := (e.1, e.2.node)

/-- The entry of a value for the child at a key. -/
def keyValue {Node Ref : Type} (e : Str × Kid Node Ref) : Str × Value := (e.1, e.2.value)

def keyRefs {Node Ref : Type} (e : Str × Kid Node Ref) : List Ref := e.2.refs

section

variable {Node Ref : Type} (l : List (Str × Kid Node Ref))

theorem keys_keyNode : (l.map keyNode).map Prod.fst = l.map Prod.fst := by
  rw [List.map_map]
  rfl

theorem keys_keyValue : (l.map keyValue).map Prod.fst = l.map Prod.fst := by
  rw [List.map_map]
  rfl

end

namespace NodeLib

variable {Store Node Ref : Type} (lib : NodeLib Store Node Ref)

/-- Some node refers to it. -/
def LiveRef (st : Store) (r : Ref) : Prop := ∃ n, lib.live st n ∧ lib.ref st n = r

/-- Of what there was, only nodes that referred to `W` are changed. -/
structure Changes (W : List Ref) (st st' : Store) : Prop where
  live : ∀ {n}, lib.live st n → lib.live st' n
  ref : ∀ {n}, lib.live st n → lib.ref st n ∉ W → lib.ref st' n = lib.ref st n
  data : ∀ {n}, lib.live st n → lib.ref st n ∉ W →
    lib.data st' (lib.ref st n) = lib.data st (lib.ref st n)

/-- The node holds the value, through these refs. -/
inductive Holds (st : Store) : Node → Value → List Ref → Prop
  | scalar {n : Node} {s : Str} (hlive : lib.live st n) (hview : lib.view st n = .scalar s) :
    Holds st n (.scalar s) [lib.ref st n]
  | sequence {n : Node} {kids : List (Kid Node Ref)} (hlive : lib.live st n)
    (hview : lib.view st n = .sequence (kids.map Kid.node))
    (hkids : ∀ k ∈ kids, Holds st k.node k.value k.refs) :
    Holds st n (.sequence (kids.map Kid.value)) (lib.ref st n :: kids.flatMap Kid.refs)
  | map {n : Node} {kids : List (Str × Kid Node Ref)} (hlive : lib.live st n)
    (hview : lib.view st n = .map (kids.map keyNode))
    (hkids : ∀ k ∈ kids, Holds st k.2.node k.2.value k.2.refs) :
    Holds st n (.map (kids.map keyValue))
      (lib.ref st n :: kids.flatMap keyRefs)
  | loop {n : Node} {ns : List Node} (hlive : lib.live st n) (hview : lib.view st n = .sequence ns)
    (hself : n ∈ ns) : Holds st n .loop [lib.ref st n]

/-- What is documented of the library. -/
structure Documented : Prop where
  /-- A new node is null, and shares its data with no other one. -/
  create : ∀ (st : Store), lib.Changes [] st (lib.create st).2 ∧
    lib.live (lib.create st).2 (lib.create st).1 ∧
    ¬ lib.LiveRef st (lib.ref (lib.create st).2 (lib.create st).1) ∧
    lib.view (lib.create st).2 (lib.create st).1 = .null
  /-- `push_back` makes a sequence of a null node, and stores the node itself. -/
  pushBack : ∀ {st : Store} {n c : Node} {ns : List Node}, lib.live st n → lib.live st c →
    (lib.view st n = .null ∧ ns = [] ∨ lib.view st n = .sequence ns) →
    lib.Changes [lib.ref st n] st (lib.pushBack st n c) ∧
    lib.ref (lib.pushBack st n c) n = lib.ref st n ∧
    lib.view (lib.pushBack st n c) n = .sequence (ns ++ [c])
  /-- `node[k]` on a map is the child, -/
  subscript_child : ∀ {st : Store} {n c : Node} {es : List (Str × Node)} {k : Str}, lib.live st n →
    lib.view st n = .map es → es.lookup k = some c → lib.subscript st n k = some (c, st)
  /-- which is created if there is none. -/
  subscript_new : ∀ {st : Store} {n : Node} {es : List (Str × Node)} {k : Str}, lib.live st n →
    lib.view st n = .map es → es.lookup k = none →
    ∃ c st', lib.subscript st n k = some (c, st') ∧ lib.Changes [lib.ref st n] st st' ∧
      lib.ref st' n = lib.ref st n ∧ lib.view st' n = .map (es ++ [(k, c)]) ∧ lib.live st' c ∧
      ¬ lib.LiveRef st (lib.ref st' c)
  /-- A node that is assigned to shares the data of the other one. -/
  assign : ∀ {st : Store} {n c : Node}, lib.live st n → lib.live st c →
    lib.Changes [lib.ref st n] st (lib.assign st n c) ∧
    lib.ref (lib.assign st n c) n = lib.ref st c
  /-- `Clone` copies deeply. -/
  clone : ∀ {st : Store} {n : Node} {v : Value} {C : List Ref}, lib.Holds st n v C → v.WellFormed →
    C.Nodup →
    lib.Changes [] st (lib.clone st n).2 ∧
    ∃ C', lib.Holds (lib.clone st n).2 (lib.clone st n).1 v C' ∧ C'.Nodup ∧
      ∀ r ∈ C', ¬ lib.LiveRef st r

end NodeLib

/-! ## What is changed -/

namespace NodeLib

variable {Store Node Ref : Type} {lib : NodeLib Store Node Ref} {st st' st'' : Store} {W W' C : List Ref}
  {n : Node} {r : Ref} {v : Value}

theorem Changes.view (h : lib.Changes W st st') (hn : lib.live st n) (hW : lib.ref st n ∉ W) :
    lib.view st' n = lib.view st n := by
  rw [NodeLib.view, h.ref hn hW, h.data hn hW]
  rfl

theorem Changes.mono (h : lib.Changes W st st') (hW : W ⊆ W') : lib.Changes W' st st' :=
  ⟨h.live, fun hn hout => h.ref hn fun hin => hout (hW hin),
    fun hn hout => h.data hn fun hin => hout (hW hin)⟩

theorem Changes.of_mem (h : lib.Changes [r] st st') (hr : r ∈ W) : lib.Changes W st st' :=
  h.mono (List.cons_subset.mpr ⟨hr, List.nil_subset W⟩)

/-- Two steps, the second of which may change what is new. -/
theorem Changes.trans (h : lib.Changes W st st') (h' : lib.Changes W' st' st'')
    (hW : ∀ r ∈ W', r ∈ W ∨ ¬ lib.LiveRef st r) : lib.Changes W st st'' := by
  have hout {n : Node} (hn : lib.live st n) (hr : lib.ref st n ∉ W) : lib.ref st' n ∉ W' := by
    rw [h.ref hn hr]
    intro hin
    exact (hW _ hin).elim hr fun hdead => hdead ⟨n, hn, rfl⟩
  refine ⟨fun hn => h'.live (h.live hn), fun hn hr => ?_, fun hn hr => ?_⟩
  · rw [h'.ref (h.live hn) (hout hn hr), h.ref hn hr]
  · have hdata := h'.data (h.live hn) (hout hn hr)
    rw [h.ref hn hr, h.data hn hr] at hdata
    exact hdata

/-- What is new after a step was new before it, or is what was changed. -/
theorem Changes.new (h : lib.Changes W st st') (hr : ¬ lib.LiveRef st' r) :
    r ∈ W ∨ ¬ lib.LiveRef st r := by
  by_cases hin : r ∈ W
  · exact .inl hin
  · refine .inr ?_
    rintro ⟨n, hn, rfl⟩
    exact hr ⟨n, h.live hn, h.ref hn hin⟩

theorem Changes.liveRef (h : lib.Changes W st st') (hr : lib.LiveRef st r) (hW : r ∉ W) :
    lib.LiveRef st' r := by
  obtain ⟨n, hn, rfl⟩ := hr
  exact ⟨n, h.live hn, h.ref hn hW⟩

/-! ## What is held -/

theorem Holds.live (h : lib.Holds st n v C) : lib.live st n := by
  cases h with
  | scalar hlive _ => exact hlive
  | sequence hlive _ _ => exact hlive
  | map hlive _ _ => exact hlive
  | loop hlive _ _ => exact hlive

theorem Holds.ref_mem (h : lib.Holds st n v C) : lib.ref st n ∈ C := by
  cases h <;> exact List.mem_cons_self

theorem Holds.liveRef (h : lib.Holds st n v C) (hr : r ∈ C) : lib.LiveRef st r := by
  induction h with
  | scalar hlive _ => exact ⟨_, hlive, (List.mem_singleton.mp hr).symm⟩
  | sequence hlive _ _ ih =>
    obtain rfl | hr := List.mem_cons.mp hr
    · exact ⟨_, hlive, rfl⟩
    · obtain ⟨k, hk, hr⟩ := List.mem_flatMap.mp hr
      exact ih k hk hr
  | map hlive _ _ ih =>
    obtain rfl | hr := List.mem_cons.mp hr
    · exact ⟨_, hlive, rfl⟩
    · obtain ⟨k, hk, hr⟩ := List.mem_flatMap.mp hr
      exact ih k hk hr
  | loop hlive _ _ => exact ⟨_, hlive, (List.mem_singleton.mp hr).symm⟩

/-- **Frame**: a value is held as long as none of its refs is changed. -/
theorem Holds.changes (h : lib.Holds st n v C) (hst : lib.Changes W st st') (hW : ∀ r ∈ C, r ∉ W) :
    lib.Holds st' n v C := by
  induction h with
  | scalar hlive hview =>
    have hout := hW _ List.mem_cons_self
    rw [← hst.ref hlive hout]
    exact .scalar (hst.live hlive) ((hst.view hlive hout).trans hview)
  | sequence hlive hview _ ih =>
    have hout := hW _ List.mem_cons_self
    rw [← hst.ref hlive hout]
    refine .sequence (hst.live hlive) ((hst.view hlive hout).trans hview) fun k hk => ?_
    exact ih k hk fun r hr => hW r (List.mem_cons_of_mem _ (List.mem_flatMap.mpr ⟨k, hk, hr⟩))
  | map hlive hview _ ih =>
    have hout := hW _ List.mem_cons_self
    rw [← hst.ref hlive hout]
    refine .map (hst.live hlive) ((hst.view hlive hout).trans hview) fun k hk => ?_
    exact ih k hk fun r hr => hW r (List.mem_cons_of_mem _ (List.mem_flatMap.mpr ⟨k, hk, hr⟩))
  | loop hlive hview hself =>
    have hout := hW _ List.mem_cons_self
    rw [← hst.ref hlive hout]
    exact .loop (hst.live hlive) ((hst.view hlive hout).trans hview) hself

/-- A node that shares the data of another one holds the same tree. -/
theorem Holds.of_ref_eq {m : Node} (h : lib.Holds st n v C) (hv : v.WellFormed) (hm : lib.live st m)
    (href : lib.ref st m = lib.ref st n) : lib.Holds st m v C := by
  have hview : lib.view st m = lib.view st n := by
    rw [NodeLib.view, href]
    rfl
  cases h with
  | scalar _ h =>
    rw [← href]
    exact .scalar hm (hview.trans h)
  | sequence _ h hkids =>
    rw [← href]
    exact .sequence hm (hview.trans h) hkids
  | map _ h hkids =>
    rw [← href]
    exact .map hm (hview.trans h) hkids
  | loop _ _ _ => cases hv

/-! ## Loops -/

/-- A sequence that has itself as an element is no tree. -/
theorem Holds.not_self {ns : List Node} (h : lib.Holds st n v C) (hv : v.WellFormed)
    (hview : lib.view st n = .sequence ns) (hself : n ∈ ns) : False := by
  induction h generalizing ns with
  | scalar _ h =>
    rw [h] at hview
    cases hview
  | @sequence n kids _ h _ ih =>
    have hview' := hview
    rw [h] at hview
    cases hview
    obtain ⟨k, hk, heq⟩ := List.mem_map.mp hself
    cases hv with
    | sequence hts =>
      refine ih k hk (hts _ (List.mem_map_of_mem hk)) (heq ▸ hview') ?_
      rw [heq]
      exact hself
  | map _ h _ _ =>
    rw [h] at hview
    cases hview
  | loop _ _ _ => cases hv

/-- **A loop below some keys is in no tree.** -/
theorem Holds.not_tree {t : Value} {C' : List Ref} (h : lib.Holds st n v C) (hv : v.Loops)
    (ht : t.WellFormed) : ¬ lib.Holds st n t C' := by
  induction hv generalizing n t C C' with
  | loop =>
    cases h with
    | loop _ hview hself => exact fun h' => h'.not_self ht hview hself
  | map he _ ih =>
    cases h with
    | @map _ kids _ hview hkids =>
    obtain ⟨k, hk, rfl⟩ := List.mem_map.mp he
    intro h'
    cases h' with
    | scalar _ hview' =>
      rw [hview] at hview'
      cases hview'
    | sequence _ hview' _ =>
      rw [hview] at hview'
      cases hview'
    | loop _ _ _ => cases ht
    | @map _ kids' _ hview' hkids' =>
      rw [hview] at hview'
      have hentries := Data.map.inj hview'
      have hmem : (k.1, k.2.node) ∈ kids'.map keyNode := by
        rw [← hentries]
        exact List.mem_map_of_mem hk
      obtain ⟨k', hk', heq⟩ := List.mem_map.mp hmem
      have hnode : k'.2.node = k.2.node := (Prod.mk.inj heq).2
      cases ht with
      | map hes _ =>
        have hkid := hkids' k' hk'
        rw [hnode] at hkid
        exact ih (hkids k hk) (hes _ (List.mem_map_of_mem hk')) hkid

end NodeLib

end Primitives.Yaml
