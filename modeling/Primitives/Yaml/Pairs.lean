import Primitives.Yaml.Nodes

/-!
# One key of two YAML maps

What becomes of a node is what becomes of its value (`Becomes`). For a key that both maps have, this is what
`mergeValue` says (`mergePair_becomes`): a scalar of `dst` is stored in a new sequence, and the sequence is
assigned to the node of the scalar, so that the node is an element of itself (`becomes_loop`).
-/

set_option autoImplicit false

namespace Primitives.Yaml

open Lib NodeLib

variable {Store Node Ref : Type} {lib : NodeLib Store Node Ref}

/-- What a merge into the node `n` is to do, that may change the refs `C`: what is to become of the value
of the node becomes of the node. -/
def Becomes (lib : NodeLib Store Node Ref) (st : Store) (n : Node) (C : List Ref)
    (res : Except Failure Store) : Except Failure Value → Prop
  | .error e => res = .error e
  | .ok r =>
    ∃ st' C', res = .ok st' ∧ lib.Changes C st st' ∧ lib.Holds st' n r C' ∧ C'.Nodup ∧
      ∀ x ∈ C', x ∈ C ∨ ¬ lib.LiveRef st x

theorem Becomes.mono {st : Store} {n : Node} {C C' : List Ref} {res : Except Failure Store}
    {v : Except Failure Value} (h : Becomes lib st n C res v) (hC : C ⊆ C') : Becomes lib st n C' res v := by
  cases v with
  | error e => exact h
  | ok r =>
    obtain ⟨st', D, hres, hch, hholds, hD, hin⟩ := h
    exact ⟨st', D, hres, hch.mono hC, hholds, hD, fun x hx => (hin x hx).imp (fun h => hC h) id⟩

/-- A merge of nodes does what a merge of values does. -/
def Refines (lib : NodeLib Store Node Ref) (merge : Store → Node → Node → Except Failure Store)
    (mergeMaps : List (Str × Value) → List (Str × Value) → Except Failure (List (Str × Value))) : Prop :=
  ∀ {st dst src ts fs C D}, lib.Holds st dst (.map ts) C → lib.Holds st src (.map fs) D →
    (C ++ D).Nodup → (Value.map ts).WellFormed → (Value.map fs).WellFormed →
    Becomes lib st dst (C ++ D) (merge st dst src) ((mergeMaps ts fs).map .map)

/-! ## New sequences -/

section

variable {st s : Store} {dst t nn c : Node} {es : List (Str × Node)} {ns : List Node} {k : Str}
  {C D : List Ref}

/-- A node goes into a sequence that is new since `st`. -/
theorem push_new (hdoc : lib.Documented) (hs : lib.Changes [] st s) (hnn : lib.live s nn)
    (hnew : ¬ lib.LiveRef st (lib.ref s nn))
    (hview : lib.view s nn = .null ∧ ns = [] ∨ lib.view s nn = .sequence ns) (hc : lib.live st c) :
    lib.Changes [] st (lib.pushBack s nn c) ∧ lib.live (lib.pushBack s nn c) nn ∧
      ¬ lib.LiveRef st (lib.ref (lib.pushBack s nn c) nn) ∧
      lib.view (lib.pushBack s nn c) nn = .sequence (ns ++ [c]) := by
  obtain ⟨hpush, href, hview'⟩ := hdoc.pushBack hnn (hs.live hc) hview
  refine ⟨hs.trans hpush fun r hr => .inr ?_, hpush.live hnn, ?_, hview'⟩
  · rw [List.mem_singleton.mp hr]
    exact hnew
  · rw [href]
    exact hnew

/-- A new sequence with the child `t` in it is assigned to that child. -/
theorem becomes_loop (hdoc : lib.Documented) (hdst : lib.live st dst) (hview : lib.view st dst = .map es)
    (hk : es.lookup k = some t) (ht : lib.live st t) (hC : lib.ref st t ∈ C)
    (hs : lib.Changes [] st s) (hnn : lib.live s nn) (hnew : ¬ lib.LiveRef st (lib.ref s nn))
    (hseq : lib.view s nn = .sequence ns) (hmem : t ∈ ns) :
    Becomes lib st t C (assignAt lib s dst k nn) (.ok .loop) := by
  have hviews : lib.view s dst = .map es := (hs.view hdst List.not_mem_nil).trans hview
  have hsub := hdoc.subscript_child (hs.live hdst) hviews hk
  have hrefs : lib.ref s t = lib.ref st t := hs.ref ht List.not_mem_nil
  obtain ⟨hassign, href⟩ := hdoc.assign (hs.live ht) hnn
  have hne : lib.ref s nn ∉ [lib.ref s t] := by
    intro hin
    rw [List.mem_singleton.mp hin, hrefs] at hnew
    exact hnew ⟨t, ht, rfl⟩
  have hviewt : lib.view (lib.assign s t nn) t = .sequence ns := by
    rw [NodeLib.view, href, hassign.data hnn hne]
    exact hseq
  refine ⟨lib.assign s t nn, _, ?_, ?_, .loop (hassign.live (hs.live ht)) hviewt hmem,
    List.nodup_singleton _, ?_⟩
  · rw [assignAt, subscript, hsub]
    rfl
  · refine (hs.mono (List.nil_subset C)).trans hassign fun r hr => .inl ?_
    rw [List.mem_singleton.mp hr, hrefs]
    exact hC
  · intro x hx
    rw [List.mem_singleton.mp hx, href]
    exact .inr hnew

/-! ## Sequences that are there -/

theorem push_holds (hdoc : lib.Documented) {ts : List Value} {v : Value}
    (ht : lib.Holds st t (.sequence ts) C) (hc : lib.Holds st c v D) (hd : (C ++ D).Nodup) :
    lib.Changes [lib.ref st t] st (lib.pushBack st t c) ∧
      lib.ref (lib.pushBack st t c) t = lib.ref st t ∧
      lib.Holds (lib.pushBack st t c) t (.sequence (ts ++ [v])) (C ++ D) := by
  cases ht with
  | @sequence _ kids hlive hview hkids =>
    obtain ⟨hpush, href, hview'⟩ := hdoc.pushBack hlive hc.live (.inr hview)
    refine ⟨hpush, href, ?_⟩
    rw [List.nodup_append', List.nodup_cons] at hd
    have hkept {m : Node} {v : Value} {E : List Ref} (hm : lib.Holds st m v E)
        (hE : lib.ref st t ∉ E) : lib.Holds (lib.pushBack st t c) m v E := by
      refine hm.changes hpush fun r hr hin => hE ?_
      rw [← List.mem_singleton.mp hin]
      exact hr
    have hall : ∀ kid ∈ kids ++ [⟨c, v, D⟩], lib.Holds (lib.pushBack st t c) kid.node kid.value
        kid.refs := by
      intro kid hkid
      obtain hkid | hkid := List.mem_append.mp hkid
      · exact hkept (hkids kid hkid) fun hin => hd.1.1 (List.mem_flatMap.mpr ⟨kid, hkid, hin⟩)
      · rw [List.mem_singleton.mp hkid]
        exact hkept hc fun hin => hd.2.2 List.mem_cons_self hin
    have hholds := Holds.sequence (hpush.live hlive)
      (hview'.trans (by rw [List.map_append]; rfl)) hall
    rw [href, List.map_append, List.flatMap_append, List.flatMap_singleton] at hholds
    exact hholds

/-- The copies of all elements of a sequence go to the end of another one. -/
theorem pushClones_holds (hdoc : lib.Documented) {fs : List (Kid Node Ref)} {ts : List Value}
    (ht : lib.Holds st t (.sequence ts) C) (hC : C.Nodup)
    (hfs : ∀ k ∈ fs, lib.Holds st k.node k.value k.refs ∧ k.value.WellFormed ∧ k.refs.Nodup ∧
      lib.ref st t ∉ k.refs) :
    ∃ C', lib.Changes [lib.ref st t] st (pushClones lib t (fs.map Kid.node) st) ∧
      lib.Holds (pushClones lib t (fs.map Kid.node) st) t (.sequence (ts ++ fs.map Kid.value)) C' ∧
      C'.Nodup ∧ ∀ x ∈ C', x ∈ C ∨ ¬ lib.LiveRef st x := by
  induction fs generalizing st C ts with
  | nil =>
    refine ⟨C, ⟨fun h => h, fun _ _ => rfl, fun _ _ => rfl⟩, ?_, hC, fun x hx => .inl hx⟩
    rw [List.map_nil, List.map_nil, List.append_nil]
    exact ht
  | cons f fs ih =>
    obtain ⟨⟨hf, hwf, hfd, -⟩, hrest⟩ := List.forall_mem_cons.mp hfs
    obtain ⟨hclone, D, hcopy, hD, hnew⟩ := hdoc.clone hf hwf hfd
    have ht' := ht.changes hclone fun _ _ => List.not_mem_nil
    have href' : lib.ref (lib.clone st f.node).2 t = lib.ref st t :=
      hclone.ref ht.live List.not_mem_nil
    have hCD : (C ++ D).Nodup :=
      List.nodup_append'.mpr ⟨hC, hD, fun x hx hxD => hnew x hxD (ht.liveRef hx)⟩
    obtain ⟨hpush, href, hholds⟩ := push_holds hdoc ht' hcopy hCD
    rw [href'] at hpush href
    have hstep : lib.Changes [lib.ref st t] st _ :=
      (hclone.mono (List.nil_subset _)).trans hpush fun r hr => .inl hr
    obtain ⟨C', hch, hend, hC', hin⟩ := ih hholds hCD fun k hk => by
      obtain ⟨hk, hwk, hkd, hout⟩ := hrest k hk
      refine ⟨hk.changes hstep fun r hr hmem => hout ?_, hwk, hkd, ?_⟩
      · rw [← List.mem_singleton.mp hmem]
        exact hr
      · rw [href]
        exact hout
    rw [href] at hch
    refine ⟨C', hstep.trans hch fun r hr => .inl hr, ?_, hC', ?_⟩
    · rw [List.append_assoc] at hend
      exact hend
    · intro x hx
      obtain hx | hx := hin x hx
      · exact (List.mem_append.mp hx).imp id (hnew x)
      · refine (hstep.new hx).imp (fun hmem => ?_) id
        rw [List.mem_singleton.mp hmem]
        exact ht.ref_mem

end

/-! ## One pair -/

section

variable {st : Store} {dst src : Node} {es : List (Str × Node)} {k : Str} {f t : Node} {fv tv : Value}
  {C D : List Ref} {merge : Store → Node → Node → Except Failure Store}
  {mergeMaps : List (Str × Value) → List (Str × Value) → Except Failure (List (Str × Value))}

/-- The children of a node that holds a tree hold trees, through other refs. -/
theorem kid_of_sequence {kids : List (Kid Node Ref)} (hwf : (Value.sequence (kids.map Kid.value)).WellFormed)
    (hkids : ∀ k ∈ kids, lib.Holds st k.node k.value k.refs) (hd : (kids.flatMap Kid.refs).Nodup) :
    ∀ k ∈ kids, lib.Holds st k.node k.value k.refs ∧ k.value.WellFormed ∧ k.refs.Nodup := by
  intro k hk
  cases hwf with
  | sequence hts =>
    refine ⟨hkids k hk, hts _ (List.mem_map_of_mem hk), ?_⟩
    exact (List.nodup_flatMap.mp hd).1 k hk

/-- **The value of a common key.** -/
theorem mergePair_becomes (hdoc : lib.Documented) (hmerge : Refines lib merge mergeMaps)
    (hdst : lib.live st dst) (hview : lib.view st dst = .map es) (hk : es.lookup k = some t)
    (ht : lib.Holds st t tv C) (hf : lib.Holds st f fv D) (hd : (C ++ D).Nodup) (htw : tv.WellFormed)
    (hfw : fv.WellFormed) :
    Becomes lib st t (C ++ D) (mergePair lib {} merge dst src (k, f) (k, t) st)
      (mergeValue mergeMaps k fv tv) := by
  have hrefC : lib.ref st t ∈ C ++ D := List.mem_append_left _ ht.ref_mem
  obtain ⟨hcreate, hlive, hnew, hnull⟩ := hdoc.create st
  have hpush := push_new hdoc hcreate hlive hnew (.inl ⟨hnull, rfl⟩) ht.live
  cases hf with
  | loop _ _ _ => cases hfw
  | scalar hflive hfview =>
    cases ht with
    | loop _ _ _ => cases htw
    | scalar htlive htview =>
      obtain ⟨hch, hlive', hnew', hseq⟩ := hpush
      obtain ⟨hch', hlive'', hnew'', hseq'⟩ := push_new hdoc hch hlive' hnew' (.inr hseq) hflive
      rw [mergePair, hfview, htview]
      exact becomes_loop hdoc hdst hview hk htlive hrefC hch' hlive'' hnew'' hseq'
        (List.mem_append_left _ (List.mem_append_right _ List.mem_cons_self))
    | sequence htlive htview htkids =>
      have ht' := Holds.sequence htlive htview htkids
      obtain ⟨hch, -, hholds⟩ := push_holds hdoc ht' (.scalar hflive hfview) hd
      rw [mergePair, hfview, htview]
      exact ⟨_, _, rfl, hch.of_mem hrefC, hholds, hd, fun x hx => .inl hx⟩
    | map htlive htview htkids =>
      rw [mergePair, hfview, htview]
      rfl
  | @sequence _ fkids hflive hfview hfkids =>
    cases ht with
    | loop _ _ _ => cases htw
    | scalar htlive htview =>
      obtain ⟨hch, hlive', hnew', hseq⟩ := hpush
      rw [mergePair, hfview, htview]
      exact becomes_loop hdoc hdst hview hk htlive hrefC hch hlive' hnew' hseq
        (List.mem_append_right _ List.mem_cons_self)
    | sequence htlive htview htkids =>
      have ht' := Holds.sequence htlive htview htkids
      obtain ⟨hdC, hdD, hdisj⟩ := List.nodup_append'.mp hd
      obtain ⟨C', hch, hholds, hC', hin⟩ := pushClones_holds hdoc ht' hdC fun k (hk : k ∈ fkids) => by
        obtain ⟨hkid, hkw, hkd⟩ := kid_of_sequence hfw hfkids (List.nodup_cons.mp hdD).2 k hk
        refine ⟨hkid, hkw, hkd, fun hmem => hdisj ht'.ref_mem ?_⟩
        exact List.mem_cons_of_mem _ (List.mem_flatMap.mpr ⟨k, hk, hmem⟩)
      rw [mergePair, hfview, htview]
      refine ⟨_, C', rfl, hch.of_mem hrefC, hholds, hC', fun x hx => ?_⟩
      exact (hin x hx).imp (List.mem_append_left _) id
    | map htlive htview htkids =>
      rw [mergePair, hfview, htview]
      rfl
  | map hflive hfview hfkids =>
    cases ht with
    | loop _ _ _ => cases htw
    | scalar htlive htview =>
      rw [mergePair, hfview, htview]
      rfl
    | sequence htlive htview htkids =>
      rw [mergePair, hfview, htview]
      rfl
    | map htlive htview htkids =>
      rw [mergePair, hfview, htview]
      exact hmerge (.map htlive htview htkids) (.map hflive hfview hfkids) hd htw hfw

end

end Primitives.Yaml
