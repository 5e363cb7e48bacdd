import Primitives.Yaml.Memory
import Primitives.Yaml.Pairs

/-!
# The merge of YAML nodes

With the flags that are the default, `merge` does to the nodes what `mergeMaps` does to their values
(`merge_becomes`). For a scalar of `dst` whose path is one of `src` that is a loop, and the scalar is lost. So
`merge` is right exactly if there is a mismatch, or no scalar of `dst` has a path that `src` has too
(`merge_iff`).
-/

set_option autoImplicit false

namespace Primitives.Yaml

open Lib NodeLib

variable {Store Node Ref : Type} {lib : NodeLib Store Node Ref}

/-! ## The loops -/

section

variable {merge : Store → Node → Node → Except Failure Store} {dst src : Node} {f : Str × Node}

theorem innerLoop_append {l₁ : List (Str × Node)} (h : f.1 ∉ l₁.map Prod.fst) (l₂ : List (Str × Node))
    (found : Bool) (st : Store) :
    innerLoop lib {} merge dst src f (l₁ ++ l₂) found st =
      innerLoop lib {} merge dst src f l₂ found st := by
  induction l₁ with
  | nil => rfl
  | cons t l₁ ih =>
    rw [List.map_cons, List.mem_cons, not_or] at h
    rw [List.cons_append, innerLoop, if_pos h.1, ih h.2]

theorem innerLoop_none {ts : List (Str × Node)} (h : f.1 ∉ ts.map Prod.fst) (found : Bool)
    (st : Store) : innerLoop lib {} merge dst src f ts found st = .ok (found, st) := by
  have happend : innerLoop lib {} merge dst src f (ts ++ []) found st =
      innerLoop lib {} merge dst src f [] found st := innerLoop_append h [] found st
  rw [List.append_nil] at happend
  exact happend

/-- The one pair with the key. -/
theorem innerLoop_one {l₁ l₂ : List (Str × Node)} {t : Node} (h₁ : f.1 ∉ l₁.map Prod.fst)
    (h₂ : f.1 ∉ l₂.map Prod.fst) (st : Store) :
    innerLoop lib {} merge dst src f (l₁ ++ (f.1, t) :: l₂) false st =
      (mergePair lib {} merge dst src f (f.1, t) st).map fun st => (true, st) := by
  rw [innerLoop_append h₁, innerLoop, if_neg fun hne => hne rfl]
  cases mergePair lib {} merge dst src f (f.1, t) st with
  | error e => rfl
  | ok st' => exact innerLoop_none h₂ true st'

/-- What the outer loop does with one pair. -/
def outerStep (lib : NodeLib Store Node Ref) (merge : Store → Node → Node → Except Failure Store)
    (dst src : Node) (f : Str × Node) (st : Store) : Except Failure Store := do
  let ts ← pairs lib st dst
  let (found, st) ← innerLoop lib {} merge dst src f ts false st
  if found then .ok st
  else
    let (c, st) := lib.clone st f.2
    assignAt lib st dst f.1 c

theorem outerLoop_cons (f : Str × Node) (fs : List (Str × Node)) (st : Store) :
    outerLoop lib {} merge dst src (f :: fs) st =
      (outerStep lib merge dst src f st).bind (outerLoop lib {} merge dst src fs) := by
  rw [outerLoop, outerStep]
  cases pairs lib st dst with
  | error e => rfl
  | ok ts =>
    show (innerLoop lib {} merge dst src f ts false st).bind _ =
      ((innerLoop lib {} merge dst src f ts false st).bind _).bind _
    cases innerLoop lib {} merge dst src f ts false st with
    | error e => rfl
    | ok r =>
      obtain ⟨found, st'⟩ := r
      cases found with
      | true => rfl
      | false => rfl

variable {st : Store} {k : Str} {es l₁ l₂ : List (Str × Node)} {n t : Node}

/-- A key that `dst` has not. -/
theorem outerStep_of_not_mem (hview : lib.view st dst = .map es) (hk : k ∉ es.map Prod.fst) :
    outerStep lib merge dst src (k, n) st = assignAt lib (lib.clone st n).2 dst k (lib.clone st n).1 := by
  have hpairs : pairs lib st dst = .ok es := by rw [pairs, hview]
  have hinner : innerLoop lib {} merge dst src (k, n) es false st = .ok (false, st) :=
    innerLoop_none hk false st
  rw [outerStep, hpairs]
  show (innerLoop lib {} merge dst src (k, n) es false st).bind _ = _
  rw [hinner]
  rfl

/-- A key that `dst` has once. -/
theorem outerStep_of_mem (hview : lib.view st dst = .map (l₁ ++ (k, t) :: l₂))
    (h₁ : k ∉ l₁.map Prod.fst) (h₂ : k ∉ l₂.map Prod.fst) :
    outerStep lib merge dst src (k, n) st = mergePair lib {} merge dst src (k, n) (k, t) st := by
  have hpairs : pairs lib st dst = .ok (l₁ ++ (k, t) :: l₂) := by rw [pairs, hview]
  have hinner : innerLoop lib {} merge dst src (k, n) (l₁ ++ (k, t) :: l₂) false st =
      (mergePair lib {} merge dst src (k, n) (k, t) st).map fun st => (true, st) :=
    innerLoop_one h₁ h₂ st
  rw [outerStep, hpairs]
  show (innerLoop lib {} merge dst src (k, n) _ false st).bind _ = _
  rw [hinner]
  cases mergePair lib {} merge dst src (k, n) (k, t) st with
  | error e => rfl
  | ok st' => rfl

end

/-! ## One key -/

/-- The middle of a list goes to the front. -/
theorem perm_middle {α : Type} (R : α) (A K B : List α) :
    (R :: (A ++ (K ++ B))).Perm (K ++ (R :: (A ++ B))) := by
  classical
  rw [List.perm_iff_count]
  intro a
  simp only [List.count_append, List.count_cons]
  omega

theorem apart_of_nodup {α : Type} {R : α} {A K B F : List α}
    (hd : ((R :: (A ++ (K ++ B))) ++ F).Nodup) :
    (K ++ F).Nodup ∧ (R :: (A ++ B)).Nodup ∧ ∀ x ∈ R :: (A ++ B), x ∉ K ++ F := by
  have hperm : ((R :: (A ++ (K ++ B))) ++ F).Perm ((K ++ F) ++ (R :: (A ++ B))) := by
    rw [List.append_assoc]
    refine ((perm_middle R A K B).append_right F).trans ?_
    rw [List.append_assoc]
    exact List.perm_append_comm.append_left K
  rw [hperm.nodup_iff, List.nodup_append'] at hd
  exact ⟨hd.1, hd.2.1, fun x hx hin => hd.2.2 hin hx⟩

theorem nodup_of_apart {α : Type} {R : α} {A K B : List α} (hd : (R :: (A ++ B)).Nodup) (hK : K.Nodup)
    (h : ∀ x ∈ R :: (A ++ B), x ∉ K) : (R :: (A ++ (K ++ B))).Nodup := by
  rw [(perm_middle R A K B).nodup_iff, List.nodup_append']
  exact ⟨hK, hd, fun x hx hin => h x hin hx⟩

section

variable {st st' : Store} {dst src : Node} {k : Str} {f t : Kid Node Ref} {ts : List (Str × Value)}
  {l₁ l₂ : List (Str × Kid Node Ref)} {C W K : List Ref} {r : Value}
  {merge : Store → Node → Node → Except Failure Store}
  {mergeMaps : List (Str × Value) → List (Str × Value) → Except Failure (List (Str × Value))}

/-- `dst[k] = YAML::Clone(f)` for a new key: a child that shares nothing. -/
theorem assignAt_new (hdoc : lib.Documented) {es : List (Str × Node)} (hlive : lib.live st dst)
    (hview : lib.view st dst = .map es) (hk : es.lookup k = none)
    (hf : lib.Holds st f.node f.value f.refs) (hfw : f.value.WellFormed) (hfd : f.refs.Nodup) :
    ∃ c st' D, assignAt lib (lib.clone st f.node).2 dst k (lib.clone st f.node).1 = .ok st' ∧
      lib.Changes [lib.ref st dst] st st' ∧ lib.ref st' dst = lib.ref st dst ∧
      lib.view st' dst = .map (es ++ [(k, c)]) ∧ lib.Holds st' c f.value D ∧ D.Nodup ∧
      ∀ r ∈ D, ¬ lib.LiveRef st r := by
  obtain ⟨hclone, D, hcopy, hD, hnew⟩ := hdoc.clone hf hfw hfd
  have hview₁ := (hclone.view hlive List.not_mem_nil).trans hview
  have href₁ : lib.ref (lib.clone st f.node).2 dst = lib.ref st dst :=
    hclone.ref hlive List.not_mem_nil
  obtain ⟨c, st₂, hsub, hch₂, href₂, hview₂, hclive, hcnew⟩ :=
    hdoc.subscript_new (hclone.live hlive) hview₁ hk
  rw [href₁] at hch₂ href₂
  -- the copy is not touched by the new child
  have hcopy₂ : lib.Holds st₂ (lib.clone st f.node).1 f.value D := by
    refine hcopy.changes hch₂ fun r hr hin => hnew r hr ?_
    rw [List.mem_singleton.mp hin]
    exact ⟨dst, hlive, rfl⟩
  obtain ⟨hch₃, href₃⟩ := hdoc.assign hclive hcopy₂.live
  have hout : ∀ r ∈ D, r ∉ [lib.ref st₂ c] := by
    intro r hr hin
    refine hcnew ?_
    rw [← List.mem_singleton.mp hin]
    exact hcopy.liveRef hr
  have hchild : lib.Holds (lib.assign st₂ c (lib.clone st f.node).1) c f.value D := by
    refine (hcopy₂.changes hch₃ hout).of_ref_eq hfw (hch₃.live hclive) ?_
    rw [href₃, hch₃.ref hcopy₂.live (hout _ hcopy₂.ref_mem)]
  have hcst : ¬ lib.LiveRef st (lib.ref st₂ c) :=
    (hclone.new hcnew).resolve_left List.not_mem_nil
  have hdst₃ : lib.ref st₂ dst ∉ [lib.ref st₂ c] := by
    rw [href₂]
    intro hin
    exact hcst ⟨dst, hlive, List.mem_singleton.mp hin⟩
  have hlive₂ := hch₂.live (hclone.live hlive)
  refine ⟨c, lib.assign st₂ c (lib.clone st f.node).1, D, ?_, ?_, ?_, ?_, hchild, hD, hnew⟩
  · rw [assignAt, subscript, hsub]
    rfl
  · have hch := (hclone.mono (List.nil_subset _)).trans hch₂ fun r hr => .inl hr
    refine hch.trans hch₃ fun r hr => .inr ?_
    rw [List.mem_singleton.mp hr]
    exact hcst
  · rw [hch₃.ref hlive₂ hdst₃, href₂]
  · rw [hch₃.view hlive₂ hdst₃, hview₂]

/-- A key that `dst` has not. -/
theorem outerStep_new (hdoc : lib.Documented) (hdst : lib.Holds st dst (.map ts) C) (hC : C.Nodup)
    (hk : k ∉ ts.map Prod.fst) (hf : lib.Holds st f.node f.value f.refs) (hfw : f.value.WellFormed)
    (hfd : f.refs.Nodup) :
    Becomes lib st dst C (outerStep lib merge dst src (k, f.node) st)
      (.ok (.map (ts ++ [(k, f.value)]))) := by
  have hdst' := hdst
  cases hdst with
  | @map _ kids hlive hview hkids =>
  rw [keys_keyValue, ← keys_keyNode] at hk
  obtain ⟨c, st', D, hres, hch, href, hview', hchild, hD, hnew⟩ :=
    assignAt_new hdoc hlive hview (lookup_of_not_mem hk) hf hfw hfd
  have hviewdst : lib.view st' dst =
      .map ((kids ++ [(k, (⟨c, f.value, D⟩ : Kid Node Ref))]).map keyNode) := by
    rw [hview', List.map_append]
    rfl
  have hall : ∀ e ∈ kids ++ [(k, (⟨c, f.value, D⟩ : Kid Node Ref))],
      lib.Holds st' e.2.node e.2.value e.2.refs := by
    intro e he
    obtain he | he := List.mem_append.mp he
    · refine (hkids e he).changes hch fun r hr hin => (List.nodup_cons.mp hC).1 ?_
      rw [← List.mem_singleton.mp hin]
      exact List.mem_flatMap.mpr ⟨e, he, hr⟩
    · rw [List.mem_singleton.mp he]
      exact hchild
  have hholds := Holds.map (hch.live hlive) hviewdst hall
  rw [href, List.map_append, List.flatMap_append, List.flatMap_singleton, ← List.cons_append] at hholds
  refine ⟨st', _, ?_, hch.of_mem List.mem_cons_self, hholds, ?_, ?_⟩
  · rw [outerStep_of_not_mem hview hk, hres]
  · exact List.nodup_append'.mpr ⟨hC, hD, fun x hx hxD => hnew x hxD (hdst'.liveRef hx)⟩
  · intro x hx
    exact (List.mem_append.mp hx).imp id (hnew x)

/-- A map of which one child is changed, and neither the map itself nor another child. -/
theorem holds_replace (hlive : lib.live st dst)
    (hview : lib.view st dst = .map ((l₁ ++ (k, t) :: l₂).map keyNode))
    (hkids : ∀ e ∈ l₁ ++ (k, t) :: l₂, lib.Holds st e.2.node e.2.value e.2.refs)
    (hch : lib.Changes W st st')
    (hW : ∀ x ∈ lib.ref st dst :: (l₁.flatMap keyRefs ++ l₂.flatMap keyRefs), x ∉ W)
    (ht : lib.Holds st' t.node r K) :
    lib.Holds st' dst (.map (l₁.map keyValue ++ (k, r) :: l₂.map keyValue))
      (lib.ref st dst :: (l₁.flatMap keyRefs ++ (K ++ l₂.flatMap keyRefs))) := by
  have hout := hW _ List.mem_cons_self
  have hview' : lib.view st' dst =
      .map ((l₁ ++ (k, (⟨t.node, r, K⟩ : Kid Node Ref)) :: l₂).map keyNode) := by
    rw [hch.view hlive hout, hview, List.map_append, List.map_append]
    rfl
  have hall : ∀ e ∈ l₁ ++ (k, (⟨t.node, r, K⟩ : Kid Node Ref)) :: l₂,
      lib.Holds st' e.2.node e.2.value e.2.refs := by
    intro e he
    rw [List.mem_append, List.mem_cons] at he
    obtain he | rfl | he := he
    · refine (hkids e (List.mem_append_left _ he)).changes hch fun x hx => hW x ?_
      exact List.mem_cons_of_mem _ (List.mem_append_left _ (List.mem_flatMap.mpr ⟨e, he, hx⟩))
    · exact ht
    · refine (hkids e (List.mem_append_right _ (List.mem_cons_of_mem _ he))).changes hch
        fun x hx => hW x ?_
      exact List.mem_cons_of_mem _ (List.mem_append_right _ (List.mem_flatMap.mpr ⟨e, he, hx⟩))
  have hholds := Holds.map (hch.live hlive) hview' hall
  rw [hch.ref hlive hout, List.map_append, List.map_cons, List.flatMap_append, List.flatMap_cons]
    at hholds
  exact hholds

/-- A key that both have. -/
theorem outerStep_common (hdoc : lib.Documented) (hmerge : Refines lib merge mergeMaps)
    (hdst : lib.Holds st dst (.map ts) C) (hkeys : (ts.map Prod.fst).Nodup) (hk : k ∈ ts.map Prod.fst)
    (hf : lib.Holds st f.node f.value f.refs) (hfw : f.value.WellFormed)
    (htw : ∀ t, ts.lookup k = some t → t.WellFormed) (hd : (C ++ f.refs).Nodup) :
    Becomes lib st dst (C ++ f.refs) (outerStep lib merge dst src (k, f.node) st)
      ((upsert (mergeValue mergeMaps) (k, f.value) ts).map .map) := by
  have hdst' := hdst
  cases hdst with
  | @map _ kids hlive hview hkids =>
  rw [keys_keyValue] at hk hkeys
  obtain ⟨⟨k, t⟩, hkid, rfl⟩ := List.mem_map.mp hk
  obtain ⟨l₁, l₂, rfl⟩ := List.append_of_mem hkid
  rw [List.map_append, List.map_cons, List.nodup_append', List.nodup_cons] at hkeys
  obtain ⟨-, ⟨hk₂, -⟩, hdisj⟩ := hkeys
  have hk₁ : k ∉ l₁.map Prod.fst := fun hin => hdisj hin List.mem_cons_self
  have hview' : lib.view st dst = .map (l₁.map keyNode ++ (k, t.node) :: l₂.map keyNode) := by
    rw [hview, List.map_append]
    rfl
  have hmid {β : Type} {g : Str × Kid Node Ref → Str × β} (hg : (l₁.map g).map Prod.fst = l₁.map Prod.fst)
      (v : β) : (l₁.map g ++ (k, v) :: l₂.map g).lookup k = some v := by
    rw [List.lookup_append, lookup_of_not_mem (hg ▸ hk₁), Option.none_or]
    exact List.lookup_cons_self
  rw [List.map_append, List.map_cons] at htw ⊢
  rw [List.flatMap_append, List.flatMap_cons] at hd hdst' ⊢
  obtain ⟨hdk, hdrest, hapart⟩ := apart_of_nodup hd
  have hpair : Becomes lib st t.node (t.refs ++ f.refs)
      (mergePair lib {} merge dst src (k, f.node) (k, t.node) st)
      (mergeValue mergeMaps k f.value t.value) :=
    mergePair_becomes hdoc hmerge hlive hview' (hmid (keys_keyNode l₁) t.node) (hkids (k, t) hkid) hf hdk
      (htw _ (hmid (keys_keyValue l₁) t.value)) hfw
  have hstep : outerStep lib merge dst src (k, f.node) st =
      mergePair lib {} merge dst src (k, f.node) (k, t.node) st :=
    outerStep_of_mem hview' ((keys_keyNode l₁).symm ▸ hk₁) ((keys_keyNode l₂).symm ▸ hk₂)
  have hupsert : upsert (mergeValue mergeMaps) (k, f.value)
        (l₁.map keyValue ++ (k, t.value) :: l₂.map keyValue) =
      (mergeValue mergeMaps k f.value t.value).map fun r =>
        l₁.map keyValue ++ (k, r) :: l₂.map keyValue :=
    upsert_append ((keys_keyValue l₁).symm ▸ hk₁)
  rw [hstep, show keyValue (k, t) = (k, t.value) from rfl, hupsert]
  cases hvalue : mergeValue mergeMaps k f.value t.value with
  | error e =>
    rw [hvalue] at hpair
    exact hpair
  | ok r =>
    rw [hvalue] at hpair
    obtain ⟨st', K, hres, hch, hheld, hK, hin⟩ := hpair
    have hnotK : ∀ x ∈ lib.ref st dst :: (l₁.flatMap keyRefs ++ l₂.flatMap keyRefs), x ∉ K := by
      intro x hx hxK
      obtain hx' | hdead := hin x hxK
      · exact hapart x hx hx'
      · refine hdead (hdst'.liveRef ?_)
        rw [List.mem_cons, List.mem_append] at hx ⊢
        exact hx.imp_right (Or.imp_right (List.mem_append_right _))
    refine ⟨st', _, hres, hch.mono ?_, holds_replace hlive hview hkids hch hapart hheld,
      nodup_of_apart hdrest hK hnotK, ?_⟩
    · intro x hx
      simp only [List.mem_append, List.mem_cons] at hx ⊢
      exact hx.imp (fun h => .inr (.inr (.inl h))) id
    · intro x hx
      simp only [List.mem_append, List.mem_cons] at hx hin ⊢
      obtain h | h | h | h := hx
      · exact .inl (.inl (.inl h))
      · exact .inl (.inl (.inr (.inl h)))
      · exact (hin x h).imp (Or.imp (fun h => .inr (.inr (.inl h))) id) id
      · exact .inl (.inl (.inr (.inr (.inr h))))

variable {e : Str × Kid Node Ref}

/-- **One key of `src`.** -/
theorem outerStep_becomes (hdoc : lib.Documented) (hmerge : Refines lib merge mergeMaps)
    (hdst : lib.Holds st dst (.map ts) C) (hkeys : (ts.map Prod.fst).Nodup)
    (he : lib.Holds st e.2.node e.2.value e.2.refs) (hew : e.2.value.WellFormed)
    (htw : ∀ t, ts.lookup e.1 = some t → t.WellFormed) (hd : (C ++ keyRefs e).Nodup) :
    Becomes lib st dst (C ++ keyRefs e) (outerStep lib merge dst src (keyNode e) st)
      ((upsert (mergeValue mergeMaps) (keyValue e) ts).map .map) := by
  by_cases hk : e.1 ∈ ts.map Prod.fst
  · exact outerStep_common hdoc hmerge hdst hkeys hk he hew htw hd
  · obtain ⟨hC, hed, -⟩ := List.nodup_append'.mp hd
    have hupsert : upsert (mergeValue mergeMaps) (keyValue e) ts = .ok (ts ++ [keyValue e]) :=
      upsert_of_not_mem hk
    rw [hupsert]
    exact (outerStep_new hdoc hdst hC hk he hew hed).mono (List.subset_append_left _ _)

/-- A step, and what follows it. -/
theorem Becomes.after {C' D : List Ref} {res : Except Failure Store} {v : Except Failure Value}
    (h : Becomes lib st' dst (C' ++ D) res v) (hch : lib.Changes C st st')
    (hin : ∀ x ∈ C', x ∈ C ∨ ¬ lib.LiveRef st x) : Becomes lib st dst (C ++ D) res v := by
  cases v with
  | error e => exact h
  | ok r =>
    obtain ⟨st'', E, hres, hch', hholds, hE, hin'⟩ := h
    have hback : ∀ x ∈ C' ++ D, x ∈ C ++ D ∨ ¬ lib.LiveRef st x := by
      intro x hx
      obtain hx | hx := List.mem_append.mp hx
      · exact (hin x hx).imp (List.mem_append_left _) id
      · exact .inl (List.mem_append_right _ hx)
    refine ⟨st'', E, hres, ?_, hholds, hE, fun x hx => ?_⟩
    · exact (hch.mono (List.subset_append_left _ _)).trans hch' hback
    · obtain hx | hdead := hin' x hx
      · exact hback x hx
      · exact (hch.new hdead).imp (List.mem_append_left _) id

/-- **All keys of `src`.** -/
theorem outerLoop_becomes (hdoc : lib.Documented) (hmerge : Refines lib merge mergeMaps)
    {fs : List (Str × Kid Node Ref)} (hdst : lib.Holds st dst (.map ts) C)
    (hkeys : (ts.map Prod.fst).Nodup)
    (hfs : ∀ f ∈ fs, lib.Holds st f.2.node f.2.value f.2.refs ∧ f.2.value.WellFormed ∧
      ∀ t, ts.lookup f.1 = some t → t.WellFormed)
    (hfkeys : (fs.map Prod.fst).Nodup) (hd : (C ++ fs.flatMap keyRefs).Nodup) :
    Becomes lib st dst (C ++ fs.flatMap keyRefs)
      (outerLoop lib {} merge dst src (fs.map keyNode) st)
      ((upsertAll (mergeValue mergeMaps) (fs.map keyValue) ts).map .map) := by
  induction fs generalizing st ts C with
  | nil =>
    refine ⟨st, C, rfl, ⟨fun h => h, fun _ _ => rfl, fun _ _ => rfl⟩, hdst, ?_, fun x hx => .inl ?_⟩
    · exact (List.nodup_append'.mp hd).1
    · exact List.mem_append_left _ hx
  | cons f fs ih =>
    obtain ⟨⟨hf, hfw, htw⟩, hrest⟩ := List.forall_mem_cons.mp hfs
    rw [List.map_cons, List.nodup_cons] at hfkeys
    rw [List.flatMap_cons, ← List.append_assoc] at hd ⊢
    obtain ⟨hd₁, hd₂, hdisj⟩ := List.nodup_append'.mp hd
    have hstep : Becomes lib st dst (C ++ keyRefs f) (outerStep lib merge dst src (keyNode f) st)
        ((upsert (mergeValue mergeMaps) (keyValue f) ts).map .map) :=
      outerStep_becomes hdoc hmerge hdst hkeys hf hfw htw hd₁
    rw [List.map_cons, List.map_cons, outerLoop_cons, upsertAll]
    obtain ⟨ts', hupsert, hone⟩ | ⟨e, t, hupsert, -, -⟩ :=
      upsert_spec (mergeValue mergeMaps) (keyValue f) ts
    · rw [hupsert] at hstep ⊢
      obtain ⟨st', C', hres, hch, hholds, hC', hin⟩ := hstep
      rw [hres]
      -- the pairs that are left are those of other keys, and are not changed
      have hrest' : ∀ g ∈ fs, lib.Holds st' g.2.node g.2.value g.2.refs ∧ g.2.value.WellFormed ∧
          ∀ t, ts'.lookup g.1 = some t → t.WellFormed := by
        intro g hg
        obtain ⟨hgh, hgw, hgt⟩ := hrest g hg
        have hne : g.1 ≠ f.1 := fun heq => hfkeys.1 (heq ▸ List.mem_map_of_mem hg)
        refine ⟨hgh.changes hch fun x hx hxC => hdisj hxC (List.mem_flatMap.mpr ⟨g, hg, hx⟩), hgw, ?_⟩
        intro t ht
        rw [hone.others g.1 hne] at ht
        exact hgt t ht
      have hnodup : (C' ++ fs.flatMap keyRefs).Nodup := by
        refine List.nodup_append'.mpr ⟨hC', hd₂, fun x hx hxD => ?_⟩
        obtain hxC | hdead := hin x hx
        · exact hdisj hxC hxD
        · obtain ⟨g, hg, hxg⟩ := List.mem_flatMap.mp hxD
          exact hdead ((hrest g hg).1.liveRef hxg)
      exact (ih hholds (hone.keys hkeys) hrest' hfkeys.2 hnodup).after hch hin
    · rw [hupsert] at hstep ⊢
      have herror : outerStep lib merge dst src (keyNode f) st = .error e := hstep
      rw [herror]
      rfl

end

/-! ## The whole merge -/

/-- **`merge` does to nodes what `mergeMaps` does to values.** -/
theorem merge_becomes (hdoc : lib.Documented) (n : Nat) :
    Refines lib (merge lib {} n) (mergeMaps n) := by
  induction n with
  | zero =>
    intro st dst src ts fs C D _ _ _ _ _
    rfl
  | succ n ih =>
    intro st dst src ts fs C D hdst hsrc hd htw hfw
    have hdst' := hdst
    cases hsrc with
    | @map _ kids hlive hview hkids =>
    cases hdst with
    | @map _ tkids htlive htview htkids =>
    cases htw with
    | map htes htkeys =>
    cases hfw with
    | map hfes hfkeys =>
    have hpairs : pairs lib st src = .ok (kids.map keyNode) := by
      rw [pairs, hview]
    have hmerge : merge lib {} (n + 1) st dst src =
        outerLoop lib {} (merge lib {} n) dst src (kids.map keyNode) st := by
      rw [merge, hview, htview]
      show (pairs lib st src).bind _ = _
      rw [hpairs]
      rfl
    rw [keys_keyValue] at hfkeys
    have hdk : ((lib.ref st dst :: tkids.flatMap keyRefs) ++
        kids.flatMap keyRefs).Nodup := by
      refine hd.sublist (List.Sublist.append_left ?_ _)
      exact List.sublist_cons_self _ _
    have hall : ∀ f ∈ kids, lib.Holds st f.2.node f.2.value f.2.refs ∧ f.2.value.WellFormed ∧
        ∀ t, (tkids.map keyValue).lookup f.1 = some t → t.WellFormed := by
      intro f hf
      refine ⟨hkids f hf, hfes _ (List.mem_map_of_mem hf), fun t ht => ?_⟩
      exact htes _ (mem_of_lookup ht)
    rw [hmerge, mergeMaps]
    refine (outerLoop_becomes hdoc ih hdst' htkeys hall hfkeys hdk).mono fun x hx => ?_
    rw [List.mem_append] at hx ⊢
    exact hx.imp_right (List.mem_cons_of_mem _)

/-- `merge` of `src` into `dst` is right: it throws only at a mismatch, and else leaves the merged tree. -/
def MergesRight (lib : NodeLib Store Node Ref) (st : Store) (dst src : Node) (d s : Value) : Prop :=
  ∃ N, ∀ n, N ≤ n →
    match merge lib {} n st dst src with
    | .error _ => Mismatch d s
    | .ok st' => ¬ Mismatch d s → ∃ r C, lib.Holds st' dst r C ∧ r.WellFormed ∧ Merged d s r

/-- A scalar of `dst` at a path of `src` is lost. -/
theorem not_mergesRight {st : Store} {dst src : Node} {ds ss : List (Str × Value)} {C D : List Ref}
    (hdoc : lib.Documented) (hdst : lib.Holds st dst (.map ds) C) (hsrc : lib.Holds st src (.map ss) D)
    (hd : (C ++ D).Nodup) (hdw : (Value.map ds).WellFormed) (hsw : (Value.map ss).WellFormed)
    (hno : ¬ Mismatch (.map ds) (.map ss)) (hcommon : CommonScalar (.map ds) (.map ss)) :
    ¬ MergesRight lib st dst src (.map ds) (.map ss) := by
  rintro ⟨M, hM⟩
  obtain ⟨N, hN⟩ := mergeMaps_outcome hsw
  have hout := hN (max N M) (Nat.le_max_left N M) ds ss rfl hdw
  have hbecomes := merge_becomes hdoc (max N M) hdst hsrc hd hdw hsw
  have hright := hM (max N M) (Nat.le_max_right N M)
  cases hres : (mergeMaps (max N M) ds ss).map Value.map with
  | error e =>
    rw [hres] at hout
    exact hno hout
  | ok r =>
    rw [hres] at hout hbecomes
    obtain ⟨st', C', hok, -, hholds, -⟩ := hbecomes
    rw [hok] at hright
    obtain ⟨t, E, htree, ht, -⟩ := hright hno
    exact hholds.not_tree (hout.2.1 hcommon) ht htree

/-- **`merge` is right** exactly if there is a mismatch, or no scalar of `dst` has a path of `src`. -/
theorem merge_iff {st : Store} {dst src : Node} {ds ss : List (Str × Value)} {C D : List Ref}
    (hdoc : lib.Documented) (hdst : lib.Holds st dst (.map ds) C) (hsrc : lib.Holds st src (.map ss) D)
    (hd : (C ++ D).Nodup) (hdw : (Value.map ds).WellFormed) (hsw : (Value.map ss).WellFormed) :
    MergesRight lib st dst src (.map ds) (.map ss) ↔
      Mismatch (.map ds) (.map ss) ∨ ¬ CommonScalar (.map ds) (.map ss) := by
  constructor
  · intro hright
    rw [or_iff_not_imp_left]
    exact fun hno hcommon => not_mergesRight hdoc hdst hsrc hd hdw hsw hno hcommon hright
  · intro hcond
    obtain ⟨N, hN⟩ := mergeMaps_outcome hsw
    refine ⟨N, fun n hn => ?_⟩
    have hout := hN n hn ds ss rfl hdw
    have hbecomes := merge_becomes hdoc n hdst hsrc hd hdw hsw
    cases hres : (mergeMaps n ds ss).map Value.map with
    | error e =>
      rw [hres] at hout hbecomes
      have herror : merge lib {} n st dst src = .error e := hbecomes
      rw [herror]
      exact hout
    | ok r =>
      rw [hres] at hout hbecomes
      obtain ⟨st', C', hok, -, hholds, -⟩ := hbecomes
      rw [hok]
      intro hno
      obtain ⟨hwf, hmerged⟩ := hout.2.2 (hcond.resolve_left hno)
      exact ⟨r, C', hholds, hwf, hmerged⟩

/-! ## A sequence, and a scalar -/

/-- `a: [1]` at 0 and `a: 2` at 3. -/
def sequenceMemory : Memory where
  size := 5
  ref n := n
  data
    | 0 => .map [(['a'], 1)]
    | 1 => .sequence [2]
    | 2 => .scalar ['1']
    | 3 => .map [(['a'], 4)]
    | _ => .scalar ['2']

/-- `a: 1` at 0 and `a: 2` at 2. -/
def scalarMemory : Memory where
  size := 4
  ref n := n
  data
    | 0 => .map [(['a'], 1)]
    | 1 => .scalar ['1']
    | 2 => .map [(['a'], 3)]
    | _ => .scalar ['2']

/-- A map with one key. -/
theorem holds_single {m : Memory} {n c : Nat} {v : Value} {C : List Nat} (hn : Memory.lib.live m n)
    (hview : Memory.lib.view m n = .map [(['a'], c)]) (hc : Memory.lib.Holds m c v C) :
    Memory.lib.Holds m n (.map [(['a'], v)]) (m.ref n :: C) := by
  have hkids : ∀ k ∈ [(['a'], (⟨c, v, C⟩ : Kid Nat Nat))],
      Memory.lib.Holds m k.2.node k.2.value k.2.refs := by
    intro k hk
    rw [List.mem_singleton.mp hk]
    exact hc
  have hviews : Memory.lib.view m n = .map ([(['a'], (⟨c, v, C⟩ : Kid Nat Nat))].map keyNode) := hview
  have hholds := Holds.map hn hviews hkids
  rw [List.flatMap_singleton] at hholds
  exact hholds

theorem wellFormed_single {v : Value} (hv : v.WellFormed) : (Value.map [(['a'], v)]).WellFormed := by
  refine .map (fun e he => ?_) (List.nodup_singleton _)
  rw [List.mem_singleton.mp he]
  exact hv

/-- An element is put to the sequence that is there. -/
theorem merge_sequence :
    MergesRight Memory.lib sequenceMemory 0 3 (.map [(['a'], .sequence [.scalar ['1']])])
      (.map [(['a'], .scalar ['2'])]) := by
  have hone : Memory.lib.Holds sequenceMemory 2 (.scalar ['1']) [2] :=
    .scalar ⟨by decide, by decide⟩ rfl
  have hlive : Memory.lib.live sequenceMemory 1 := ⟨by decide, by decide⟩
  have hview : Memory.lib.view sequenceMemory 1 =
      .sequence ([(⟨2, .scalar ['1'], [2]⟩ : Kid Nat Nat)].map Kid.node) := rfl
  have hseq : Memory.lib.Holds sequenceMemory 1 (.sequence [.scalar ['1']]) [1, 2] :=
    .sequence hlive hview fun k hk => by
      rw [List.mem_singleton.mp hk]
      exact hone
  have htwo : Memory.lib.Holds sequenceMemory 4 (.scalar ['2']) [4] :=
    .scalar ⟨by decide, by decide⟩ rfl
  have hwf : (Value.sequence [.scalar ['1']]).WellFormed := .sequence fun t ht => by
    rw [List.mem_singleton.mp ht]
    exact .scalar ['1']
  refine (merge_iff Memory.documented (holds_single ⟨by decide, by decide⟩ rfl hseq)
    (holds_single ⟨by decide, by decide⟩ rfl htwo) (by decide) (wellFormed_single hwf)
    (wellFormed_single (.scalar ['2']))).mpr (.inr ?_)
  rw [commonScalar_map]
  rintro ⟨k, x, y, hx, -, hcommon⟩
  obtain rfl := (Prod.mk.inj (List.mem_singleton.mp (mem_of_lookup hx))).2
  exact not_commonScalar_sequence _ y hcommon

/-- Two scalars are both lost. -/
theorem merge_scalars :
    Memory.lib.Holds scalarMemory 0 (.map [(['a'], .scalar ['1'])]) [0, 1] ∧
      Memory.lib.Holds scalarMemory 2 (.map [(['a'], .scalar ['2'])]) [2, 3] ∧
      ¬ MergesRight Memory.lib scalarMemory 0 2 (.map [(['a'], .scalar ['1'])])
        (.map [(['a'], .scalar ['2'])]) := by
  have hdst : Memory.lib.Holds scalarMemory 0 (.map [(['a'], .scalar ['1'])]) [0, 1] :=
    holds_single ⟨by decide, by decide⟩ rfl (.scalar (n := 1) ⟨by decide, by decide⟩ rfl)
  have hsrc : Memory.lib.Holds scalarMemory 2 (.map [(['a'], .scalar ['2'])]) [2, 3] :=
    holds_single ⟨by decide, by decide⟩ rfl (.scalar (n := 3) ⟨by decide, by decide⟩ rfl)
  refine ⟨hdst, hsrc, not_mergesRight Memory.documented hdst hsrc (by decide)
    (wellFormed_single (.scalar ['1'])) (wellFormed_single (.scalar ['2'])) ?_ ?_⟩
  · rw [mismatch_map]
    rintro ⟨k, x, y, hx, hy, hmismatch⟩
    obtain rfl := (Prod.mk.inj (List.mem_singleton.mp (mem_of_lookup hx))).2
    obtain rfl := (Prod.mk.inj (List.mem_singleton.mp (mem_of_lookup hy))).2
    exact not_mismatch_of_not_map rfl rfl hmismatch
  · exact commonScalar_map.mpr ⟨['a'], .scalar ['1'], .scalar ['2'], rfl, rfl, commonScalar_scalar _ _⟩

end Primitives.Yaml
