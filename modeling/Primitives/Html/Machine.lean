import Primitives.Html.Model

/-!
# HTML — the tree builder as a machine

`make_tree` calls itself for the children of a begin tag and returns at an end tag. `walk` does the same
with a stack, and lists the nodes in the order of the document, each with its depth, instead of
building them (`makeTree_walk`). A forest is determined by that list (`depths_injective`), so two trees
are compared by comparing two lists.

All tags here are plain: `<name>`, and a node without attributes is made of them.
-/

set_option autoImplicit false

namespace Primitives.Html

open Lib

/-! ## Forests in document order -/

/-- A node of a forest: its depth, `d` and `attributes`. -/
abbrev Entry := Nat × Str × SortedMap Str Str

mutual

def HtmlNode.depths (k : Nat) : HtmlNode → List Entry
  | .mk d attributes children => (k, d, attributes) :: depths (k + 1) children

def depths (k : Nat) : List HtmlNode → List Entry
  | [] => []
  | node :: nodes => node.depths k ++ depths k nodes

end

mutual

theorem HtmlNode.le_of_mem_depths {k : Nat} {e : Entry} :
    ∀ node : HtmlNode, e ∈ node.depths k → k ≤ e.1
  | .mk d attributes children, h => by
    rw [HtmlNode.depths, List.mem_cons] at h
    rcases h with rfl | h
    · exact le_refl k
    · exact Nat.le_of_succ_le (le_of_mem_depths children h)

theorem le_of_mem_depths {k : Nat} {e : Entry} :
    ∀ nodes : List HtmlNode, e ∈ depths k nodes → k ≤ e.1
  | [], h => by cases h
  | node :: nodes, h => by
    rw [depths, List.mem_append] at h
    rcases h with h | h
    · exact HtmlNode.le_of_mem_depths node h
    · exact le_of_mem_depths nodes h

end

/-- A forest begins with a node of its own depth. -/
theorem depths_takeWhile (k : Nat) (nodes : List HtmlNode) :
    (depths k nodes).takeWhile (fun e => k < e.1) = [] := by
  cases nodes with
  | nil => rfl
  | cons node nodes =>
    obtain ⟨d, attributes, children⟩ := node
    rw [depths, HtmlNode.depths, List.cons_append, List.takeWhile_cons_of_neg]
    simp

/-- The children of a node are the entries behind it that are deeper. -/
theorem depths_append_takeWhile (k : Nat) (children nodes : List HtmlNode) :
    (depths (k + 1) children ++ depths k nodes).takeWhile (fun e => k < e.1) =
      depths (k + 1) children := by
  rw [List.takeWhile_append_of_pos, depths_takeWhile, List.append_nil]
  intro e he
  exact decide_eq_true (le_of_mem_depths children he)

/-- **A forest is determined** by its nodes in the order of the document, with their depths. -/
theorem depths_injective {k : Nat} {f g : List HtmlNode} (h : depths k f = depths k g) : f = g := by
  induction hn : (depths k f).length using Nat.strongRecOn generalizing k f g with
  | ind n ih =>
    cases f with
    | nil =>
      cases g with
      | nil => rfl
      | cons node g =>
        obtain ⟨d, attributes, children⟩ := node
        cases h
    | cons node f =>
      obtain ⟨d, attributes, children⟩ := node
      cases g with
      | nil => cases h
      | cons node' g =>
        obtain ⟨d', attributes', children'⟩ := node'
        rw [depths, HtmlNode.depths, List.cons_append, depths, HtmlNode.depths, List.cons_append,
          List.cons.injEq] at h
        obtain ⟨hhead, htail⟩ := h
        obtain ⟨rfl, rfl⟩ : d = d' ∧ attributes = attributes' := by
          simp only [Prod.mk.injEq] at hhead
          exact hhead.2
        have hchildren : depths (k + 1) children = depths (k + 1) children' := by
          rw [← depths_append_takeWhile k children f, htail, depths_append_takeWhile]
        have hnodes : depths k f = depths k g := by
          rw [hchildren] at htail
          exact List.append_cancel_left htail
        rw [depths, HtmlNode.depths, List.cons_append, List.length_cons, List.length_append] at hn
        rw [ih _ (by omega) hchildren rfl, ih _ (by omega) hnodes rfl]

/-! ## The machine -/

/-- A name, from its tag; other tokens are texts. -/
def Token.label (t : Token) : Str :=
  match t.t with
  | .beginTag | .completeTag => t.d.tail.dropLast
  | _ => t.d

def Token.entry (t : Token) (k : Nat) : Entry := (k, t.label, .empty)

/-- A tag of which a node without attributes is made. -/
def Token.Plain (t : Token) : Prop :=
  t.t = .beginTag ∨ t.t = .completeTag →
    ∀ n, 0 < n → HtmlNode.ofTag n t.d = .ok (.mk t.label .empty [])

/-- A token that `make_tree` passes over. -/
def Token.Skipped (t : Token) (keepWhitespace : Bool) : Prop :=
  (doctype <+: t.d ∨ t.t = .comment) ∨ keepWhitespace = false ∧ t.d.all isSpace = true

instance decidableSkipped (t : Token) (keepWhitespace : Bool) :
    Decidable (t.Skipped keepWhitespace) :=
  inferInstanceAs (Decidable (_ ∨ _))

/-- The nodes that are made of tokens. The stack has the `keep_whitespace` of every call of
`make_tree` that has not returned. -/
def walk : List Bool → List Token → List Entry
  | [], _ => []
  | _ :: _, [] => []
  | k :: ks, t :: ts =>
    if t.Skipped k then walk (k :: ks) ts
    else
      match t.t with
      | .endTag => walk ks ts
      | .beginTag => t.entry ks.length :: walk ((k || preserveSpace t.d) :: k :: ks) ts
      | _ => t.entry ks.length :: walk (k :: ks) ts

theorem walk_nil_left (ts : List Token) : walk [] ts = [] := by
  cases ts with
  | nil => rfl
  | cons t ts => rfl

theorem walk_nil_right (ks : List Bool) : walk ks [] = [] := by
  cases ks with
  | nil => rfl
  | cons k ks => rfl

/-- A text or a tag that is complete stays with the call. -/
theorem walk_leaf {k : Bool} {t : Token} (hskip : ¬ t.Skipped k) (hend : t.t ≠ .endTag)
    (hbegin : t.t ≠ .beginTag) (ks : List Bool) (ts : List Token) :
    walk (k :: ks) (t :: ts) = t.entry ks.length :: walk (k :: ks) ts := by
  rw [walk, if_neg hskip]
  split
  · exact absurd ‹_› hend
  · exact absurd ‹_› hbegin
  · rfl

/-- **`make_tree` is the machine**: what it builds, and what the calls that have not returned make of
the tokens that it leaves. -/
theorem makeTree_walk {n : Nat} {k : Bool} {ts : List Token} (hn : ts.length < n)
    (hplain : ∀ t ∈ ts, t.Plain) :
    ∃ tags rest, makeTree n k ts = .ok (tags, rest) ∧ rest <:+ ts ∧
      ∀ ks, walk (k :: ks) ts = depths ks.length tags ++ walk ks rest := by
  induction n generalizing k ts with
  | zero => exact absurd hn (Nat.not_lt_zero _)
  | succ n ih =>
    cases ts with
    | nil => exact ⟨[], [], rfl, List.suffix_refl _, fun ks => (walk_nil_right ks).symm⟩
    | cons t ts =>
      rw [List.length_cons, Nat.succ_lt_succ_iff] at hn
      have hplain' : ∀ t ∈ ts, t.Plain := fun t' ht' => hplain t' (List.mem_cons_of_mem t ht')
      obtain ⟨tags, rest, htree, hsuffix, hwalk⟩ := ih (k := k) hn hplain'
      have hsuffix' : rest <:+ t :: ts := hsuffix.trans (List.suffix_cons t ts)
      rw [makeTree]
      by_cases hdoctype : doctype <+: t.d ∨ t.t = .comment
      · rw [if_pos hdoctype]
        refine ⟨tags, rest, htree, hsuffix', fun ks => ?_⟩
        rw [walk, if_pos (.inl hdoctype), hwalk]
      by_cases hblank : k = false ∧ t.d.all isSpace = true
      · rw [if_neg hdoctype, if_pos hblank]
        refine ⟨tags, rest, htree, hsuffix', fun ks => ?_⟩
        rw [walk, if_pos (.inr hblank), hwalk]
      rw [if_neg hdoctype, if_neg hblank]
      have hskip : ¬ t.Skipped k := not_or.mpr ⟨hdoctype, hblank⟩
      cases ht : t.t with
      | text | cdata =>
        have hlabel : t.label = t.d := by rw [Token.label, ht]
        refine ⟨.ofText t.d :: tags, rest, ?_, hsuffix', fun ks => ?_⟩
        · simp only [htree, bind, Except.bind]
          rfl
        · rw [walk_leaf hskip (by rw [ht]; exact TokenType.noConfusion)
            (by rw [ht]; exact TokenType.noConfusion), hwalk, Token.entry, hlabel]
          rfl
      | comment => exact absurd (.inr ht) hdoctype
      | completeTag =>
        have hnode := hplain t List.mem_cons_self (.inr ht) n (Nat.zero_lt_of_lt hn)
        refine ⟨.mk t.label .empty [] :: tags, rest, ?_, hsuffix', fun ks => ?_⟩
        · simp only [hnode, htree, bind, Except.bind]
          rfl
        · rw [walk_leaf hskip (by rw [ht]; exact TokenType.noConfusion)
            (by rw [ht]; exact TokenType.noConfusion), hwalk]
          rfl
      | beginTag =>
        have hnode := hplain t List.mem_cons_self (.inl ht) n (Nat.zero_lt_of_lt hn)
        obtain ⟨children, rest₁, hchildren, hsuffix₁, hwalk₁⟩ :=
          ih (k := k || preserveSpace t.d) hn hplain'
        obtain ⟨tags₂, rest₂, htree₂, hsuffix₂, hwalk₂⟩ :=
          ih (k := k) (hsuffix₁.length_le.trans_lt hn) fun t' ht' => hplain' t' (hsuffix₁.subset ht')
        refine ⟨.mk t.label .empty children :: tags₂, rest₂, ?_,
          hsuffix₂.trans (hsuffix₁.trans (List.suffix_cons t ts)), fun ks => ?_⟩
        · simp only [hnode, hchildren, htree₂, bind, Except.bind]
          rfl
        · rw [walk, if_neg hskip]
          simp only [ht]
          rw [hwalk₁, List.length_cons, hwalk₂, depths, HtmlNode.depths, List.cons_append,
            List.cons_append, List.append_assoc]
          rfl
      | endTag =>
        refine ⟨[], ts, rfl, List.suffix_cons t ts, fun ks => ?_⟩
        rw [walk, if_neg hskip]
        simp only [ht]
        rfl

/-! ## Tokens that are not passed over -/

/-- A token that is never passed over. -/
structure Token.Solid (t : Token) : Prop where
  doctype : ¬ doctype <+: t.d
  comment : t.t ≠ .comment
  notBlank : t.d.all isSpace = false

theorem Token.Solid.not_skipped {t : Token} (h : t.Solid) (k : Bool) : ¬ t.Skipped k := by
  rintro ((hdoctype | hcomment) | ⟨-, hblank⟩)
  · exact h.doctype hdoctype
  · exact h.comment hcomment
  · rw [h.notBlank] at hblank
    cases hblank

/-- The machine for such tokens: the stack is as good as its height. -/
def levels : Nat → List Token → List Entry
  | 0, _ => []
  | _ + 1, [] => []
  | k + 1, t :: ts =>
    match t.t with
    | .endTag => levels k ts
    | .beginTag => t.entry k :: levels (k + 2) ts
    | _ => t.entry k :: levels (k + 1) ts

/-- The height of the stack behind the tokens; 0 if the machine has returned. -/
def heightAfter : Nat → List Token → Nat
  | 0, _ => 0
  | k + 1, [] => k + 1
  | k + 1, t :: ts =>
    match t.t with
    | .endTag => heightAfter k ts
    | .beginTag => heightAfter (k + 2) ts
    | _ => heightAfter (k + 1) ts

theorem levels_zero (ts : List Token) : levels 0 ts = [] := by
  cases ts with
  | nil => rfl
  | cons t ts => rfl

theorem heightAfter_zero (ts : List Token) : heightAfter 0 ts = 0 := by
  cases ts with
  | nil => rfl
  | cons t ts => rfl

/-- What is at the bottom of the stack stays there. -/
theorem walk_solid {ts : List Token} (us : List Token) (hsolid : ∀ t ∈ ts, t.Solid)
    (ks : List Bool) :
    ∃ ks', walk ks (ts ++ us) = levels ks.length ts ++ walk ks' us ∧
      ks'.length = heightAfter ks.length ts ∧ (ks' = [] ∨ ks'.getLast? = ks.getLast?) := by
  induction ts generalizing ks with
  | nil =>
    cases ks with
    | nil =>
      refine ⟨[], ?_, rfl, .inl rfl⟩
      rw [walk_nil_left, walk_nil_left]
      rfl
    | cons k ks => exact ⟨k :: ks, rfl, rfl, .inr rfl⟩
  | cons t ts ih =>
    have hsolid' : ∀ t ∈ ts, t.Solid := fun t' ht' => hsolid t' (List.mem_cons_of_mem t ht')
    cases ks with
    | nil =>
      refine ⟨[], ?_, rfl, .inl rfl⟩
      rw [walk_nil_left, walk_nil_left]
      rfl
    | cons k ks =>
      have hskip := (hsolid t List.mem_cons_self).not_skipped k
      rw [List.cons_append, walk, if_neg hskip, List.length_cons, levels, heightAfter]
      split
      · obtain ⟨ks', hwalk, hheight, hlast⟩ := ih hsolid' ks
        refine ⟨ks', hwalk, hheight, ?_⟩
        cases ks with
        | nil =>
          refine .inl (List.length_eq_zero_iff.mp ?_)
          rw [hheight]
          exact heightAfter_zero ts
        | cons k' ks =>
          rw [List.getLast?_cons_cons]
          exact hlast
      · obtain ⟨ks', hwalk, hheight, hlast⟩ := ih hsolid' ((k || preserveSpace t.d) :: k :: ks)
        rw [List.getLast?_cons_cons] at hlast
        refine ⟨ks', ?_, hheight, hlast⟩
        rw [hwalk]
        rfl
      · obtain ⟨ks', hwalk, hheight, hlast⟩ := ih hsolid' (k :: ks)
        refine ⟨ks', ?_, hheight, hlast⟩
        rw [hwalk]
        rfl

/-! ## Begin tags that are taken for complete ones -/

/-- The number of nodes that tokens have. -/
def nodeCount (ts : List Token) : Nat := ts.countP fun t => t.t ≠ .endTag

/-- A token and what the tokenizer makes of it: a begin tag may be taken for a complete one. -/
def Misread (t t' : Token) : Prop :=
  t.t = .beginTag ∧ t'.t = .completeTag ∧ t'.d = t.d

def Read (t t' : Token) : Prop := t' = t ∨ Misread t t'

theorem nodeCount_cons (t : Token) (ts : List Token) :
    nodeCount (t :: ts) = nodeCount ts + if t.t = .endTag then 0 else 1 := by
  rw [nodeCount, List.countP_cons, nodeCount]
  by_cases h : t.t = .endTag
  · simp [h]
  · simp [h]

theorem length_levels_le (k : Nat) (ts : List Token) : (levels k ts).length ≤ nodeCount ts := by
  induction ts generalizing k with
  | nil =>
    cases k with
    | zero => exact le_refl 0
    | succ k => exact le_refl 0
  | cons t ts ih =>
    rw [nodeCount_cons]
    cases k with
    | zero => exact Nat.zero_le _
    | succ k =>
      rw [levels]
      split
      · rename_i hend
        rw [if_pos hend]
        exact ih k
      · rename_i hbegin
        rw [hbegin, if_neg TokenType.noConfusion, List.length_cons]
        exact Nat.succ_le_succ (ih (k + 2))
      · rename_i hend _
        rw [if_neg hend, List.length_cons]
        exact Nat.succ_le_succ (ih (k + 1))

/-- A tag that is taken for a complete one makes the stack lower. -/
theorem heightAfter_le {ts us : List Token} (h : List.Forall₂ Read ts us) {j k : Nat}
    (hle : j ≤ k) : heightAfter j us ≤ heightAfter k ts := by
  induction h generalizing j k with
  | nil =>
    cases j with
    | zero => exact Nat.zero_le _
    | succ j =>
      cases k with
      | zero => exact absurd hle (Nat.not_succ_le_zero j)
      | succ k => exact hle
  | @cons t u ts us hread _ ih =>
    cases j with
    | zero =>
      rw [heightAfter_zero]
      exact Nat.zero_le _
    | succ j =>
      cases k with
      | zero => exact absurd hle (Nat.not_succ_le_zero j)
      | succ k =>
        rcases hread with rfl | ⟨hbegin, hcomplete, -⟩
        · rw [heightAfter, heightAfter]
          split
          · exact ih (Nat.le_of_succ_le_succ hle)
          · exact ih (Nat.succ_le_succ hle)
          · exact ih hle
        · rw [heightAfter, heightAfter]
          simp only [hbegin, hcomplete]
          exact ih (Nat.le_succ_of_le hle)

theorem Read.eq_of_endTag {t u : Token} (h : Read t u) (hend : t.t = .endTag) : u = t := by
  rcases h with rfl | ⟨hbegin, -, -⟩
  · rfl
  · rw [hbegin] at hend
    cases hend

theorem Read.ne_endTag {t u : Token} (h : Read t u) (hend : t.t ≠ .endTag) : u.t ≠ .endTag := by
  rcases h with rfl | ⟨-, hcomplete, -⟩
  · exact hend
  · rw [hcomplete]
    exact TokenType.noConfusion

theorem levels_endTag {t : Token} (h : t.t = .endTag) {k : Nat} {ts : List Token} :
    levels (k + 1) (t :: ts) = levels k ts := by
  rw [levels, h]

theorem levels_of_ne {t : Token} (h : t.t ≠ .endTag) (k : Nat) (ts : List Token) :
    ∃ rest, levels (k + 1) (t :: ts) = t.entry k :: rest := by
  rw [levels]
  split
  · exact absurd ‹_› h
  · exact ⟨_, rfl⟩
  · exact ⟨_, rfl⟩

/-- One level too low, no node comes out as it should. -/
theorem levels_eq_succ_iff {ts us : List Token} (h : List.Forall₂ Read ts us) {k : Nat}
    (hfull : (levels (k + 1) ts).length = nodeCount ts) :
    levels k us = levels (k + 1) ts ↔ nodeCount ts = 0 := by
  induction h generalizing k with
  | nil =>
    cases k with
    | zero => exact iff_of_true rfl rfl
    | succ k => exact iff_of_true rfl rfl
  | @cons t u ts us hread _ ih =>
    by_cases hend : t.t = .endTag
    · obtain rfl := hread.eq_of_endTag hend
      rw [nodeCount_cons, if_pos hend, Nat.add_zero, levels_endTag hend] at *
      cases k with
      | zero =>
        rw [levels_zero] at hfull
        rw [levels_zero, levels_zero]
        exact iff_of_true rfl hfull.symm
      | succ k =>
        rw [levels_endTag hend]
        exact ih hfull
    · rw [nodeCount_cons, if_neg hend]
      refine iff_of_false ?_ (Nat.succ_ne_zero _)
      obtain ⟨rest, hrest⟩ := levels_of_ne hend k ts
      rw [hrest]
      cases k with
      | zero =>
        rw [levels_zero]
        exact (List.cons_ne_nil _ _).symm
      | succ k =>
        obtain ⟨rest', hrest'⟩ := levels_of_ne (hread.ne_endTag hend) k us
        rw [hrest']
        intro h
        have hlevel : k = k + 1 := congrArg Prod.fst (List.cons.inj h).1
        omega

/-- The begin tags that are taken for complete ones have no node behind them. -/
def MisreadLast : List Token → List Token → Prop
  | t :: ts, t' :: ts' => (Misread t t' → nodeCount ts = 0) ∧ MisreadLast ts ts'
  | _, _ => True

theorem misreadLast_of_nodeCount {ts us : List Token} (h : nodeCount ts = 0) :
    MisreadLast ts us := by
  induction ts generalizing us with
  | nil => trivial
  | cons t ts ih =>
    cases us with
    | nil => trivial
    | cons u us =>
      rw [nodeCount_cons, Nat.add_eq_zero_iff] at h
      exact ⟨fun _ => h.1, ih h.1⟩

/-- **The same nodes**, if and only if what is misread is the last one. -/
theorem levels_eq_iff {ts us : List Token} (h : List.Forall₂ Read ts us) {k : Nat}
    (hfull : (levels k ts).length = nodeCount ts) :
    levels k us = levels k ts ↔ MisreadLast ts us := by
  induction h generalizing k with
  | nil => exact iff_of_true rfl trivial
  | @cons t u ts us hread hrest ih =>
    cases k with
    | zero =>
      rw [levels_zero] at hfull
      rw [levels_zero, levels_zero]
      exact iff_of_true rfl (misreadLast_of_nodeCount hfull.symm)
    | succ k =>
      rw [nodeCount_cons] at hfull
      rw [MisreadLast]
      rcases hread with rfl | hmisread
      · have hno : ¬ Misread u u := by
          rintro ⟨hbegin, hcomplete, -⟩
          rw [hbegin] at hcomplete
          cases hcomplete
        rw [and_iff_right fun h => absurd h hno]
        rw [levels] at hfull
        rw [levels, levels]
        split at hfull
        · rename_i hend
          rw [if_pos hend] at hfull
          exact ih hfull
        · rename_i hbegin
          rw [hbegin, if_neg TokenType.noConfusion, List.length_cons, Nat.succ_inj] at hfull
          simp only [List.cons.injEq, true_and]
          exact ih hfull
        · rename_i hend hbegin
          rw [if_neg hend, List.length_cons, Nat.succ_inj] at hfull
          simp only [List.cons.injEq, true_and]
          exact ih hfull
      · obtain ⟨hbegin, hcomplete, hd⟩ := hmisread
        rw [levels, levels]
        simp only [hbegin, hcomplete]
        rw [levels, hbegin] at hfull
        have hentry : u.entry k = t.entry k := by
          rw [Token.entry, Token.label, hcomplete, hd, Token.entry, Token.label, hbegin]
        have hfull' : (levels (k + 2) ts).length = nodeCount ts := by
          rw [if_neg TokenType.noConfusion, List.length_cons, Nat.succ_inj] at hfull
          exact hfull
        rw [hentry, List.cons.injEq, eq_self, true_and, levels_eq_succ_iff hrest hfull']
        constructor
        · intro hcount
          exact ⟨fun _ => hcount, misreadLast_of_nodeCount hcount⟩
        · intro hlast
          exact hlast.1 ⟨hbegin, hcomplete, hd⟩

end Primitives.Html
