import Primitives.Settings.Nodes
import Mathlib.Data.List.MinMax

/-!
# Dumping settings into YAML

`dump` walks along the parts of a key with `node = node[e]`. That assigns a node to a handle which
refers to a node, and so does not move the handle only: the node it referred to becomes an alias of
its own child. The root of the tree is the first such node. So after every key the root shows what
is below a child of what it showed, and the longest key is never in it (`dump_load_iff`).
-/

set_option autoImplicit false

namespace Primitives.Settings

open Lib

/-! ## The code -/

section

variable {Store Node Ref V : Type} (lib : NodeLib Store Node Ref) (print : V → Bytes)

/-- `for (auto &e : k) node = node[e];` -/
def dumpKey : Path → Node → Store → Option (Node × Store)
  | [], node, st => some (node, st)
  | e :: k, node, st => do
    let (child, st) ← lib.subscript st node e
    dumpKey k child (lib.assign st node child)

/-- `Settings::dump(root)`. -/
def dump : List (Path × Setting V) → Node → Store → Except Failure Store
  | [], _, st => .ok st
  | (k, v) :: rest, root, st =>
    if v.saveable = false then dump rest root st
    else
      match dumpKey lib k root st with
      | none => .error .badSubscript
      | some (node, st) => do
        let s ← v.toString print
        dump rest root (lib.assignString st node s)

mutual

/-- The tree that is seen from a node. -/
inductive Shows (st : Store) : Node → Yaml → Prop where
  | null {n : Node} (h : lib.data st (lib.ref st n) = .null) : Shows st n .null
  | scalar {n : Node} {s : Bytes} (h : lib.data st (lib.ref st n) = .scalar s) :
      Shows st n (.scalar s)
  | map {n : Node} {es : List (Bytes × Node)} {ys : Entries}
      (h : lib.data st (lib.ref st n) = .map es) (hes : ShowsEntries st es ys) :
      Shows st n (.map ys)

inductive ShowsEntries (st : Store) : List (Bytes × Node) → Entries → Prop where
  | nil : ShowsEntries st [] .nil
  | cons {k : Bytes} {c : Node} {y : Yaml} {es : List (Bytes × Node)} {ys : Entries}
      (hc : Shows st c y) (hes : ShowsEntries st es ys) :
      ShowsEntries st ((k, c) :: es) (.cons k y ys)

end

/-- The settings are dumped into the root, and loaded from what it shows with the same keys and
texts. -/
def RoundTrips (root : Node) (st : Store) (m : SettingsMap V) : Prop :=
  ∃ (st' : Store) (y : Yaml) (loaded : SettingsMap V),
    dump lib print m.entries root st = .ok st' ∧ Shows lib st' root y ∧
    load y [] SortedMap.empty = .ok loaded ∧ loaded.keys = m.keys ∧
    ∀ k s, m.lookup k = some s →
      ∃ t, s.toString print = .ok t ∧ (loaded.lookup k).map Setting.representation = some t

end

/-! ## Depths -/

section

variable {Store Node Ref V : Type} {lib : NodeLib Store Node Ref} {root : Node}

/-- The node is a child of what is referred to. -/
def Entry (lib : NodeLib Store Node Ref) (st : Store) (r : Ref) (c : Node) : Prop :=
  ∃ es k, lib.data st r = .map es ∧ (k, c) ∈ es

/-- What is found below the root, and at which depth. -/
inductive At (lib : NodeLib Store Node Ref) (root : Node) (st : Store) : Ref → Nat → Prop where
  | top : At lib root st (lib.ref st root) 0
  | child {r : Ref} {d : Nat} {c : Node} : At lib root st r d → Entry lib st r c →
      At lib root st (lib.ref st c) (d + 1)

theorem At.inversion {st : Store} {r : Ref} {d : Nat} (h : At lib root st r d) :
    (r = lib.ref st root ∧ d = 0) ∨
      ∃ r' d' c, At lib root st r' d' ∧ Entry lib st r' c ∧ r = lib.ref st c ∧ d = d' + 1 := by
  cases h with
  | top => exact .inl ⟨rfl, rfl⟩
  | child hr hc => exact .inr ⟨_, _, _, hr, hc, rfl, rfl⟩

/-- What is below the root is a tree, and not deeper than the bound. -/
structure Tree (lib : NodeLib Store Node Ref) (root : Node) (bound : Nat) (st : Store) : Prop where
  live : lib.live st root
  bounded : ∀ {r d}, At lib root st r d → d ≤ bound
  /-- No two children are aliases. -/
  apart : ∀ {r r' d d' c c'}, At lib root st r d → Entry lib st r c → At lib root st r' d' →
    Entry lib st r' c' → lib.ref st c = lib.ref st c' → r = r' ∧ c = c'
  /-- No child is an alias of the root. -/
  above : ∀ {r d c}, At lib root st r d → Entry lib st r c → lib.ref st c ≠ lib.ref st root

theorem Tree.mono {b b' : Nat} {st : Store} (h : Tree lib root b st) (hle : b ≤ b') :
    Tree lib root b' st :=
  { h with bounded := fun hr => Nat.le_trans (h.bounded hr) hle }

/-- In a tree there is one way to every place. -/
theorem Tree.depth_unique {b : Nat} {st : Store} (h : Tree lib root b st) {r : Ref} {d : Nat}
    (hr : At lib root st r d) : ∀ {d'}, At lib root st r d' → d = d' := by
  induction hr with
  | top =>
    intro d' hr'
    generalize heq : lib.ref st root = r at hr'
    cases hr' with
    | top => rfl
    | child hr' hc => exact absurd heq.symm (h.above hr' hc)
  | @child r d c hr hc ih =>
    intro d' hr'
    generalize heq : lib.ref st c = s at hr'
    cases hr' with
    | top => exact absurd heq (h.above hr hc)
    | @child r' d' c' hr' hc' =>
      obtain ⟨rfl, -⟩ := h.apart hr hc hr' hc' heq
      rw [ih hr']

theorem NodeLib.Documented.live_of_at (hdoc : lib.Documented) {b : Nat} {st : Store}
    (h : Tree lib root b st) {r : Ref} {d : Nat} (hr : At lib root st r d) :
    ∃ n, lib.live st n ∧ lib.ref st n = r := by
  induction hr with
  | top => exact ⟨root, h.live, rfl⟩
  | @child r d c hr hc ih =>
    obtain ⟨n, hn, rfl⟩ := ih
    obtain ⟨es, k, hes, hmem⟩ := hc
    exact ⟨c, hdoc.children hn hes hmem, rfl⟩

theorem NodeLib.Documented.live_of_entry (hdoc : lib.Documented) {b : Nat} {st : Store}
    (h : Tree lib root b st) {r : Ref} {d : Nat} {c : Node} (hr : At lib root st r d)
    (hc : Entry lib st r c) : lib.live st c := by
  obtain ⟨n, hn, rfl⟩ := hdoc.live_of_at h hr
  obtain ⟨es, k, hes, hmem⟩ := hc
  exact hdoc.children hn hes hmem

/-! ## A new child -/

namespace NodeLib.Created

variable {b d : Nat} {st st' : Store} {n c : Node} {k : Bytes} {es : List (Bytes × Node)}

theorem ne_fresh (hdoc : lib.Documented) (hcr : lib.Created st n k es c st')
    (ht : Tree lib root b st) {r : Ref} {d' : Nat} (hr : At lib root st r d') :
    r ≠ lib.ref st' c := by
  obtain ⟨m, hm, rfl⟩ := hdoc.live_of_at ht hr
  exact hcr.own m hm

/-- The children are those from before, and the new one. -/
theorem entry_cases (hcr : lib.Created st n k es c st')
    (hdata : lib.data st (lib.ref st n) = .null ∧ es = [] ∨ lib.data st (lib.ref st n) = .map es)
    {r : Ref} {c' : Node} (h : Entry lib st' r c') :
    Entry lib st r c' ∨ r = lib.ref st n ∧ c' = c := by
  obtain ⟨es', k', hes', hmem⟩ := h
  by_cases hfresh : r = lib.ref st' c
  · rw [hfresh, hcr.null] at hes'
    cases hes'
  · by_cases hr : r = lib.ref st n
    · subst hr
      rw [hcr.entry] at hes'
      cases hes'
      rcases List.mem_append.mp hmem with hmem | hmem
      · rcases hdata with ⟨-, rfl⟩ | hmap
        · cases hmem
        · exact .inl ⟨es, k', hmap, hmem⟩
      · rw [List.mem_singleton, Prod.mk.injEq] at hmem
        exact .inr ⟨rfl, hmem.2⟩
    · rw [hcr.others r hr hfresh] at hes'
      exact .inl ⟨es', k', hes', hmem⟩

theorem entry_kept (hcr : lib.Created st n k es c st')
    (hdata : lib.data st (lib.ref st n) = .null ∧ es = [] ∨ lib.data st (lib.ref st n) = .map es)
    {r : Ref} {c' : Node} (hr : r ≠ lib.ref st' c) (h : Entry lib st r c') : Entry lib st' r c' := by
  obtain ⟨es', k', hes', hmem⟩ := h
  by_cases hrn : r = lib.ref st n
  · subst hrn
    rcases hdata with ⟨hnull, -⟩ | hmap
    · rw [hnull] at hes'
      cases hes'
    · rw [hmap] at hes'
      cases hes'
      exact ⟨_, k', hcr.entry, List.mem_append_left _ hmem⟩
  · exact ⟨es', k', (hcr.others r hrn hr).trans hes', hmem⟩

theorem at_kept (hdoc : lib.Documented) (hcr : lib.Created st n k es c st')
    (ht : Tree lib root b st)
    (hdata : lib.data st (lib.ref st n) = .null ∧ es = [] ∨ lib.data st (lib.ref st n) = .map es)
    {r : Ref} {d' : Nat} (hr : At lib root st r d') : At lib root st' r d' := by
  induction hr with
  | top =>
    rw [← (hcr.kept root ht.live).2]
    exact .top
  | @child r d' c' hr hc' ih =>
    rw [← (hcr.kept c' (hdoc.live_of_entry ht hr hc')).2]
    exact .child ih (hcr.entry_kept hdata (hcr.ne_fresh hdoc ht hr) hc')

theorem at_cases (hdoc : lib.Documented) (hcr : lib.Created st n k es c st')
    (ht : Tree lib root b st) (hn : At lib root st (lib.ref st n) d)
    (hdata : lib.data st (lib.ref st n) = .null ∧ es = [] ∨ lib.data st (lib.ref st n) = .map es)
    {r : Ref} {d' : Nat} (hr : At lib root st' r d') :
    At lib root st r d' ∨ r = lib.ref st' c ∧ d' = d + 1 := by
  induction hr with
  | top =>
    rw [(hcr.kept root ht.live).2]
    exact .inl .top
  | @child r d' c' hr hc' ih =>
    rcases hcr.entry_cases hdata hc' with hold | ⟨rfl, rfl⟩
    · rcases ih with hold' | ⟨rfl, -⟩
      · rw [(hcr.kept c' (hdoc.live_of_entry ht hold' hold)).2]
        exact .inl (.child hold' hold)
      · obtain ⟨es', k', hes', -⟩ := hc'
        rw [hcr.null] at hes'
        cases hes'
    · rcases ih with hold' | ⟨hfresh, -⟩
      · exact .inr ⟨rfl, by rw [ht.depth_unique hold' hn]⟩
      · exact absurd hfresh (hcr.ne_fresh hdoc ht hn)

/-- A tree has one place more. -/
theorem tree (hdoc : lib.Documented) (hcr : lib.Created st n k es c st') (ht : Tree lib root b st)
    (hn : At lib root st (lib.ref st n) d)
    (hdata : lib.data st (lib.ref st n) = .null ∧ es = [] ∨ lib.data st (lib.ref st n) = .map es)
    {b' : Nat} (hb : b ≤ b') (hd : d + 1 ≤ b') : Tree lib root b' st' where
  live := (hcr.kept root ht.live).1
  bounded := by
    intro r d' hr
    rcases hcr.at_cases hdoc ht hn hdata hr with hold | ⟨-, rfl⟩
    · exact Nat.le_trans (ht.bounded hold) hb
    · exact hd
  apart := by
    intro r r' d₁ d₂ c₁ c₂ hr hc₁ hr' hc₂ heq
    -- a child of a place is one from before, or the new one
    have hcases : ∀ {r d' c'}, At lib root st' r d' → Entry lib st' r c' →
        (At lib root st r d' ∧ Entry lib st r c' ∧ lib.ref st' c' = lib.ref st c' ∧
          lib.ref st c' ≠ lib.ref st' c) ∨ r = lib.ref st n ∧ c' = c := by
      intro r d' c' hr hc'
      rcases hcr.entry_cases hdata hc' with hold | hnew
      · rcases hcr.at_cases hdoc ht hn hdata hr with hold' | ⟨rfl, -⟩
        · have hlive := hdoc.live_of_entry ht hold' hold
          exact .inl ⟨hold', hold, (hcr.kept c' hlive).2, hcr.own c' hlive⟩
        · obtain ⟨es', k', hes', -⟩ := hc'
          rw [hcr.null] at hes'
          cases hes'
      · exact .inr hnew
    rcases hcases hr hc₁ with ⟨hr, hc₁, href₁, hne₁⟩ | ⟨rfl, rfl⟩
    · rcases hcases hr' hc₂ with ⟨hr', hc₂, href₂, -⟩ | ⟨-, rfl⟩
      · exact ht.apart hr hc₁ hr' hc₂ (href₁.symm.trans (heq.trans href₂))
      · exact absurd (href₁.symm.trans heq) hne₁
    · rcases hcases hr' hc₂ with ⟨-, -, href₂, hne₂⟩ | ⟨rfl, rfl⟩
      · exact absurd (href₂.symm.trans heq.symm) hne₂
      · exact ⟨rfl, rfl⟩
  above := by
    intro r d' c' hr hc'
    rw [(hcr.kept root ht.live).2]
    rcases hcr.entry_cases hdata hc' with hold | ⟨-, rfl⟩
    · rcases hcr.at_cases hdoc ht hn hdata hr with hold' | ⟨rfl, -⟩
      · rw [(hcr.kept c' (hdoc.live_of_entry ht hold' hold)).2]
        exact ht.above hold' hold
      · obtain ⟨es', k', hes', -⟩ := hc'
        rw [hcr.null] at hes'
        cases hes'
    · exact (hcr.own root ht.live).symm

end NodeLib.Created

/-! ## An alias -/

section

variable {b d : Nat} {st : Store} {n c : Node}

theorem NodeLib.Documented.entry_assign (hdoc : lib.Documented) {r : Ref} {c' : Node} :
    Entry lib (lib.assign st n c) r c' ↔ Entry lib st r c' := by
  rw [Entry, Entry, hdoc.assign_data]

/-- A child is no alias of the node that it is a child of. -/
theorem Tree.child_ne (ht : Tree lib root b st) (hn : At lib root st (lib.ref st n) d)
    (hc : Entry lib st (lib.ref st n) c) : lib.ref st c ≠ lib.ref st n := by
  intro heq
  have hdeep := At.child hn hc
  rw [heq] at hdeep
  exact Nat.succ_ne_self d (ht.depth_unique hdeep hn)

/-- The places that are left come up, and none is new. -/
theorem NodeLib.Documented.at_of_assign (hdoc : lib.Documented) (ht : Tree lib root b st)
    (hlive : lib.live st n) (hn : At lib root st (lib.ref st n) d)
    (hc : Entry lib st (lib.ref st n) c) {r : Ref} {d' : Nat}
    (hr : At lib root (lib.assign st n c) r d') : ∃ d'' ≥ d', At lib root st r d'' := by
  have hrefs := (hdoc.assign_ref hlive (hdoc.live_of_entry ht hn hc)).2
  induction hr with
  | top =>
    rcases hrefs root ht.live with href | ⟨hroot, href⟩
    · rw [href]
      exact ⟨0, Nat.le_refl _, .top⟩
    · rw [href]
      exact ⟨d + 1, Nat.zero_le _, .child hn hc⟩
  | @child r d' c' hr hc' ih =>
    obtain ⟨d'', hle, hold⟩ := ih
    have hc' := hdoc.entry_assign.mp hc'
    rcases hrefs c' (hdoc.live_of_entry ht hold hc') with href | ⟨hmoved, href⟩
    · rw [href]
      exact ⟨d'' + 1, Nat.succ_le_succ hle, .child hold hc'⟩
    · -- the child was an alias of the node, and has followed
      have hdeep := At.child hold hc'
      rw [hmoved] at hdeep
      rw [href]
      exact ⟨d'' + 1 + 1, by omega, .child hdeep hc⟩

/-- Where the root or a child has moved away from, nothing is left. -/
theorem NodeLib.Documented.left_behind (hdoc : lib.Documented) (ht : Tree lib root b st)
    (hlive : lib.live st n) (hn : At lib root st (lib.ref st n) d)
    (hc : Entry lib st (lib.ref st n) c) {m : Node}
    (hm : m = root ∨ ∃ r d, At lib root st r d ∧ Entry lib st r m)
    (href : lib.ref st m = lib.ref st n)
    (hmoved : lib.ref (lib.assign st n c) m = lib.ref st c) {d' : Nat} :
    ¬ At lib root (lib.assign st n c) (lib.ref st n) d' := by
  have hrefs := (hdoc.assign_ref hlive (hdoc.live_of_entry ht hn hc)).2
  have hne := ht.child_ne hn hc
  intro h
  generalize heq : lib.ref st n = s at h
  cases h with
  | top =>
    rcases hrefs root ht.live with hsame | ⟨-, hgone⟩
    · rw [hsame] at heq
      rcases hm with rfl | ⟨r, d₁, hr, hentry⟩
      · exact hne (hmoved.symm.trans (hsame.trans heq.symm))
      · exact ht.above hr hentry (href.trans heq)
    · exact hne (hgone.symm.trans heq.symm)
  | @child r₁ d₁ c₁ hr₁ hc₁ =>
    obtain ⟨d₂, -, hr₁⟩ := hdoc.at_of_assign ht hlive hn hc hr₁
    have hc₁ := hdoc.entry_assign.mp hc₁
    rcases hrefs c₁ (hdoc.live_of_entry ht hr₁ hc₁) with hsame | ⟨-, hgone⟩
    · rw [hsame] at heq
      rcases hm with rfl | ⟨r, d₃, hr, hentry⟩
      · exact ht.above hr₁ hc₁ (heq.symm.trans href.symm)
      · obtain ⟨-, rfl⟩ := ht.apart hr hentry hr₁ hc₁ (href.trans heq)
        exact hne (hmoved.symm.trans (hsame.trans heq.symm))
    · exact hne (hgone.symm.trans heq.symm)

/-- **An alias of a child** leaves a tree. -/
theorem Tree.assign (hdoc : lib.Documented) (ht : Tree lib root b st) (hlive : lib.live st n)
    (hn : At lib root st (lib.ref st n) d) (hc : Entry lib st (lib.ref st n) c) :
    Tree lib root b (lib.assign st n c) := by
  have hrefs := (hdoc.assign_ref hlive (hdoc.live_of_entry ht hn hc)).2
  have hback : ∀ {r d'}, At lib root (lib.assign st n c) r d' → ∃ d'' ≥ d', At lib root st r d'' :=
    fun hr => hdoc.at_of_assign ht hlive hn hc hr
  -- one child that has followed, and one that has not
  have hmixed : ∀ {r r' d₁ d₂ c₁ c₂}, At lib root st r d₁ → Entry lib st r c₁ →
      lib.ref st c₁ = lib.ref st n → lib.ref (lib.assign st n c) c₁ = lib.ref st c →
      At lib root (lib.assign st n c) r' d₂ → Entry lib st r' c₂ →
      lib.ref st c₂ = lib.ref st c → False := by
    intro r r' d₁ d₂ c₁ c₂ hr hc₁ href hmoved hr' hc₂ heq
    obtain ⟨d₃, -, hold⟩ := hback hr'
    obtain ⟨rfl, rfl⟩ := ht.apart hold hc₂ hn hc heq
    exact hdoc.left_behind ht hlive hn hc (.inr ⟨r, d₁, hr, hc₁⟩) href hmoved hr'
  refine ⟨hdoc.assign_live.mpr ht.live, ?_, ?_, ?_⟩
  · intro r d' hr
    obtain ⟨d'', hle, hold⟩ := hback hr
    exact Nat.le_trans hle (ht.bounded hold)
  · intro r r' d₁ d₂ c₁ c₂ hr hc₁ hr' hc₂ heq
    obtain ⟨d₃, -, hold⟩ := hback hr
    obtain ⟨d₄, -, hold'⟩ := hback hr'
    have hc₁ := hdoc.entry_assign.mp hc₁
    have hc₂ := hdoc.entry_assign.mp hc₂
    rcases hrefs c₁ (hdoc.live_of_entry ht hold hc₁) with hsame₁ | ⟨hat₁, hmoved₁⟩
    · rcases hrefs c₂ (hdoc.live_of_entry ht hold' hc₂) with hsame₂ | ⟨hat₂, hmoved₂⟩
      · rw [hsame₁, hsame₂] at heq
        exact ht.apart hold hc₁ hold' hc₂ heq
      · rw [hsame₁, hmoved₂] at heq
        exact (hmixed hold' hc₂ hat₂ hmoved₂ hr hc₁ heq).elim
    · rcases hrefs c₂ (hdoc.live_of_entry ht hold' hc₂) with hsame₂ | ⟨hat₂, hmoved₂⟩
      · rw [hmoved₁, hsame₂] at heq
        exact (hmixed hold hc₁ hat₁ hmoved₁ hr' hc₂ heq.symm).elim
      · exact ht.apart hold hc₁ hold' hc₂ (hat₁.trans hat₂.symm)
  · intro r d₁ c₁ hr hc₁ heq
    obtain ⟨d₃, -, hold⟩ := hback hr
    have hc₁ := hdoc.entry_assign.mp hc₁
    rcases hrefs c₁ (hdoc.live_of_entry ht hold hc₁) with hsame | ⟨hat, hmoved⟩
    · rcases hrefs root ht.live with hroot | ⟨hatRoot, hroot⟩
      · rw [hsame, hroot] at heq
        exact ht.above hold hc₁ heq
      · rw [hsame, hroot] at heq
        obtain ⟨rfl, -⟩ := ht.apart hold hc₁ hn hc heq
        exact hdoc.left_behind ht hlive hn hc (.inl rfl) hatRoot hroot hr
    · rcases hrefs root ht.live with hroot | ⟨hatRoot, hroot⟩
      · rw [hmoved, hroot] at heq
        exact ht.above hn hc heq
      · exact ht.above hold hc₁ (hat.trans hatRoot.symm)

/-- What is above the node stays where it is. -/
theorem NodeLib.Documented.at_assign_of_le (hdoc : lib.Documented) (ht : Tree lib root b st)
    (hlive : lib.live st n) (hn : At lib root st (lib.ref st n) d)
    (hc : Entry lib st (lib.ref st n) c) {r : Ref} {d' : Nat} (hr : At lib root st r d') :
    d' ≤ d → r ≠ lib.ref st n → At lib root (lib.assign st n c) r d' := by
  have hrefs := (hdoc.assign_ref hlive (hdoc.live_of_entry ht hn hc)).2
  induction hr with
  | top =>
    intro _ hne
    rcases hrefs root ht.live with href | ⟨hroot, -⟩
    · rw [← href]
      exact .top
    · exact absurd hroot hne
  | @child r d' c' hr hc' ih =>
    intro hle hne
    have hr' : r ≠ lib.ref st n := by
      rintro rfl
      have heq := ht.depth_unique hr hn
      omega
    rcases hrefs c' (hdoc.live_of_entry ht hr hc') with href | ⟨hmoved, -⟩
    · rw [← href]
      exact .child (ih (by omega) hr') (hdoc.entry_assign.mpr hc')
    · exact absurd hmoved hne

/-- The child is still in the tree, no deeper than below the node. -/
theorem NodeLib.Documented.at_assign (hdoc : lib.Documented) (ht : Tree lib root b st)
    (hlive : lib.live st n) (hn : At lib root st (lib.ref st n) d)
    (hc : Entry lib st (lib.ref st n) c) :
    ∃ d' ≤ d + 1, At lib root (lib.assign st n c) (lib.ref (lib.assign st n c) c) d' := by
  have hrefs := (hdoc.assign_ref hlive (hdoc.live_of_entry ht hn hc)).2
  have hne := ht.child_ne hn hc
  have hchild : lib.ref (lib.assign st n c) c = lib.ref st c := by
    rcases hrefs c (hdoc.live_of_entry ht hn hc) with href | ⟨hat, -⟩
    · exact href
    · exact absurd hat hne
  have hkept : ∀ {r d'}, At lib root st r d' → d' ≤ d → r ≠ lib.ref st n →
      At lib root (lib.assign st n c) r d' :=
    fun hr => hdoc.at_assign_of_le ht hlive hn hc hr
  -- the node that leads there has followed, or not
  have hleads : ∀ {m d₀}, lib.live st m → lib.ref st m = lib.ref st n → d₀ = d →
      At lib root (lib.assign st n c) (lib.ref (lib.assign st n c) m) d₀ →
      ∃ d' ≤ d + 1, At lib root (lib.assign st n c) (lib.ref (lib.assign st n c) c) d' := by
    intro m d₀ hm href hd₀ hat
    rw [hchild]
    rcases hrefs m hm with hsame | ⟨-, hmoved⟩
    · rw [hsame, href] at hat
      refine ⟨d₀ + 1, by omega, ?_⟩
      rw [← hchild]
      exact .child hat (hdoc.entry_assign.mpr hc)
    · rw [hmoved] at hat
      exact ⟨d₀, by omega, hat⟩
  rcases hn.inversion with ⟨heq, hd⟩ | ⟨r₁, d₁, c₁, hr₁, hc₁, heq, hd⟩
  · exact hleads ht.live heq.symm hd.symm .top
  · have hr₁' : r₁ ≠ lib.ref st n := by
      rintro rfl
      have hsame := ht.depth_unique hr₁ hn
      omega
    exact hleads (hdoc.live_of_entry ht hr₁ hc₁) heq.symm hd.symm
      (.child (hkept hr₁ (by omega) hr₁') (hdoc.entry_assign.mpr hc₁))

/-- If the root becomes an alias of its child, everything comes up by one. -/
theorem NodeLib.Documented.at_of_assign_root (hdoc : lib.Documented) (ht : Tree lib root b st)
    (hc : Entry lib st (lib.ref st root) c) {r : Ref} {d' : Nat}
    (hr : At lib root (lib.assign st root c) r d') : At lib root st r (d' + 1) := by
  obtain ⟨hroot, hrefs⟩ := hdoc.assign_ref ht.live (hdoc.live_of_entry ht .top hc)
  induction hr with
  | top =>
    rw [hroot]
    exact .child .top hc
  | @child r d' c' hr hc' ih =>
    have hc' := hdoc.entry_assign.mp hc'
    rcases hrefs c' (hdoc.live_of_entry ht ih hc') with href | ⟨hat, -⟩
    · rw [href]
      exact .child ih hc'
    · exact absurd hat (ht.above ih hc')

end

/-! ## A key -/

section

variable {b : Nat}

/-- `node[e]` gives a child, in a tree that is as it was or has one place more. -/
theorem Tree.subscript (hdoc : lib.Documented) {st st' : Store} {n c : Node} {d b' : Nat} {e : Bytes}
    (ht : Tree lib root b st) (hlive : lib.live st n) (hn : At lib root st (lib.ref st n) d)
    (hb : b ≤ b') (hd : d + 1 ≤ b') (h : lib.subscript st n e = some (c, st')) :
    Tree lib root b' st' ∧ lib.live st' n ∧ At lib root st' (lib.ref st' n) d ∧
      Entry lib st' (lib.ref st' n) c := by
  -- a child that is created
  have hnew : ∀ es, lib.data st (lib.ref st n) = .null ∧ es = [] ∨
      lib.data st (lib.ref st n) = .map es → es.find? (fun x => x.1 = e) = none →
      Tree lib root b' st' ∧ lib.live st' n ∧ At lib root st' (lib.ref st' n) d ∧
        Entry lib st' (lib.ref st' n) c := by
    intro es hdata hno
    obtain ⟨c', st'', hsub, hcr⟩ := hdoc.subscript_new hlive hdata hno
    rw [hsub] at h
    cases h
    obtain ⟨hlive', href⟩ := hcr.kept n hlive
    rw [href]
    exact ⟨hcr.tree hdoc ht hn hdata hb hd, hlive', hcr.at_kept hdoc ht hdata hn,
      _, e, hcr.entry, List.mem_append_right _ List.mem_cons_self⟩
  cases hdata : lib.data st (lib.ref st n) with
  | null => exact hnew [] (.inl ⟨hdata, rfl⟩) rfl
  | scalar s =>
    rw [hdoc.subscript_scalar hlive hdata] at h
    cases h
  | map es =>
    cases hfind : es.find? (fun x => x.1 = e) with
    | none => exact hnew es (.inr hdata) hfind
    | some x =>
      obtain ⟨k, c'⟩ := x
      have hk : decide (k = e) = true := List.find?_some (p := fun x : Bytes × Node => decide (x.1 = e)) hfind
      obtain rfl : k = e := of_decide_eq_true hk
      rw [hdoc.subscript_child hlive hdata hfind] at h
      cases h
      exact ⟨ht.mono hb, hlive, hn, es, k, hdata, List.mem_of_find?_eq_some hfind⟩

/-- Along the rest of a key the handle goes down by at most one with every part. -/
theorem Tree.dump_rest (hdoc : lib.Documented) (k : Path) : ∀ {st st' : Store} {n n' : Node} {d : Nat},
    Tree lib root b st → lib.live st n → At lib root st (lib.ref st n) d → d + k.length ≤ b →
    dumpKey lib k n st = some (n', st') → Tree lib root b st' ∧ lib.live st' n' := by
  induction k with
  | nil =>
    intro st st' n n' d ht hlive _ _ h
    cases h
    exact ⟨ht, hlive⟩
  | cons e k ih =>
    intro st st' n n' d ht hlive hn hd h
    rw [List.length_cons] at hd
    rw [dumpKey] at h
    cases hsub : lib.subscript st n e with
    | none =>
      rw [hsub] at h
      cases h
    | some x =>
      obtain ⟨c, st₁⟩ := x
      rw [hsub] at h
      obtain ⟨ht₁, hlive₁, hn₁, hc⟩ := ht.subscript hdoc hlive hn (Nat.le_refl b) (by omega) hsub
      obtain ⟨d', hd', hc'⟩ := hdoc.at_assign ht₁ hlive₁ hn₁ hc
      exact ih (ht₁.assign hdoc hlive₁ hn₁ hc)
        (hdoc.assign_live.mpr (hdoc.live_of_entry ht₁ hn₁ hc)) hc' (by omega) h

/-- **A key** may be longer by one than the tree is deep: its first part moves the root. -/
theorem Tree.dump_key (hdoc : lib.Documented) {k : Path} {st st' : Store} {n : Node}
    (ht : Tree lib root b st) (hk : k.length ≤ b + 1) (h : dumpKey lib k root st = some (n, st')) :
    Tree lib root b st' ∧ lib.live st' n := by
  cases k with
  | nil =>
    cases h
    exact ⟨ht, ht.live⟩
  | cons e k =>
    rw [List.length_cons] at hk
    rw [dumpKey] at h
    cases hsub : lib.subscript st root e with
    | none =>
      rw [hsub] at h
      cases h
    | some x =>
      obtain ⟨c, st₁⟩ := x
      rw [hsub] at h
      obtain ⟨ht₁, hlive₁, hn₁, hc⟩ :=
        ht.subscript hdoc ht.live .top (Nat.le_succ b) (by omega) hsub
      have ht₂ : Tree lib root b (lib.assign st₁ root c) :=
        { ht₁.assign hdoc hlive₁ hn₁ hc with
          bounded := fun hr => Nat.le_of_succ_le_succ (ht₁.bounded
            (hdoc.at_of_assign_root ht₁ hc hr)) }
      obtain ⟨d', -, hat⟩ := hdoc.at_assign ht₁ hlive₁ hn₁ hc
      -- the child is where the root is
      have hchild : lib.ref (lib.assign st₁ root c) c = lib.ref st₁ c := by
        rcases (hdoc.assign_ref hlive₁ (hdoc.live_of_entry ht₁ hn₁ hc)).2 c
          (hdoc.live_of_entry ht₁ hn₁ hc) with href | ⟨heq, -⟩
        · exact href
        · exact absurd heq (ht₁.above hn₁ hc)
      have hdeep := hdoc.at_of_assign_root ht₁ hc hat
      rw [hchild] at hdeep
      have hzero := ht₁.depth_unique hdeep (.child hn₁ hc)
      exact ht₂.dump_rest hdoc k (hdoc.assign_live.mpr (hdoc.live_of_entry ht₁ hn₁ hc)) hat (by omega) h

/-- A string assigned to a node leaves a tree. -/
theorem Tree.assignString (hdoc : lib.Documented) {st : Store} {n : Node} (ht : Tree lib root b st)
    (hlive : lib.live st n) (s : Bytes) : Tree lib root b (lib.assignString st n s) := by
  obtain ⟨hscalar, hothers⟩ := hdoc.assignString_data (s := s) hlive
  have hentry : ∀ {r c}, Entry lib (lib.assignString st n s) r c → Entry lib st r c := by
    rintro r c ⟨es, k, hes, hmem⟩
    by_cases hr : r = lib.ref st n
    · rw [hr, hscalar] at hes
      cases hes
    · rw [hothers r hr] at hes
      exact ⟨es, k, hes, hmem⟩
  have hback : ∀ {r d}, At lib root (lib.assignString st n s) r d → At lib root st r d := by
    intro r d hr
    induction hr with
    | top =>
      rw [hdoc.assignString_ref]
      exact .top
    | child hr hc ih =>
      rw [hdoc.assignString_ref]
      exact .child ih (hentry hc)
  refine ⟨hdoc.assignString_live.mpr ht.live, fun hr => ht.bounded (hback hr), ?_, ?_⟩
  · intro r r' d d' c c' hr hc hr' hc' heq
    rw [hdoc.assignString_ref] at heq
    exact ht.apart (hback hr) (hentry hc) (hback hr') (hentry hc') heq
  · intro r d c hr hc
    rw [hdoc.assignString_ref]
    exact ht.above (hback hr) (hentry hc)

/-- **A whole dump** leaves a tree that is less deep than the longest key. -/
theorem Tree.dump {V : Type} (hdoc : lib.Documented) (print : V → Bytes)
    (entries : List (Path × Setting V)) : ∀ {st st' : Store}, Tree lib root b st →
    (∀ x ∈ entries, x.1.length ≤ b + 1) → dump lib print entries root st = .ok st' →
    Tree lib root b st' := by
  induction entries with
  | nil =>
    intro st st' ht _ h
    cases h
    exact ht
  | cons x entries ih =>
    obtain ⟨k, v⟩ := x
    intro st st' ht hlen h
    obtain ⟨hk, hlen⟩ := List.forall_mem_cons.mp hlen
    rw [Settings.dump] at h
    split at h
    · exact ih ht hlen h
    · split at h
      · cases h
      · rename_i n st₁ hkey
        cases hs : v.toString print with
        | error e =>
          rw [hs] at h
          cases h
        | ok s =>
          rw [hs] at h
          obtain ⟨ht₁, hlive⟩ := ht.dump_key hdoc hk hkey
          exact ih (ht₁.assignString hdoc hlive s) hlen h

end

/-! ## What is loaded -/

section

theorem mem_keys_assign {V : Type} {m : SettingsMap V} {k k' : Path} {s : Bytes} :
    k' ∈ (assign m k s).keys ↔ k' = k ∨ k' ∈ m.keys := by
  rw [← SortedMap.lookup_isSome, ← SortedMap.lookup_isSome, assign, SortedMap.lookup_update]
  split <;> simp [*]

variable {V : Type} {st : Store}

mutual

/-- The keys that are loaded are no longer than the tree is deep. -/
theorem mem_keys_loadValue {n : Node} {d : Nat} (hn : At lib root st (lib.ref st n) d) :
    ∀ {y : Yaml}, Shows lib st n y → ∀ {k : Path} {m m' : SettingsMap V},
      loadValue y k m = .ok m' → ∀ k' ∈ m'.keys, k' ∈ m.keys ∨
        ∃ q r, k' = k ++ q ∧ At lib root st r (d + q.length)
  | .null, _, k, m, m', h, _, _ => by cases h
  | .sequence, _, k, m, m', h, _, _ => by cases h
  | .scalar s, _, k, m, m', h, k', hk' => by
    cases h
    rcases mem_keys_assign.mp hk' with rfl | hold
    · exact .inr ⟨[], _, (List.append_nil _).symm, hn⟩
    · exact .inl hold
  | .map ys, .map hdata hes, k, m, m', h, k', hk' => by
    rcases mem_keys_loadEntries hn hdata (fun _ h => h) hes h k' hk' with hold | ⟨q, r, -, hq, hr⟩
    · exact .inl hold
    · exact .inr ⟨q, r, hq, hr⟩

theorem mem_keys_loadEntries {n : Node} {d : Nat} {es : List (Bytes × Node)}
    (hn : At lib root st (lib.ref st n) d) (hdata : lib.data st (lib.ref st n) = .map es) :
    ∀ {es' : List (Bytes × Node)} {ys : Entries}, (∀ x ∈ es', x ∈ es) → ShowsEntries lib st es' ys →
      ∀ {pre : Path} {m m' : SettingsMap V}, loadEntries ys pre m = .ok m' →
        ∀ k' ∈ m'.keys, k' ∈ m.keys ∨
          ∃ q r, q ≠ [] ∧ k' = pre ++ q ∧ At lib root st r (d + q.length)
  | [], .nil, _, _, pre, m, m', h, k', hk' => by
    cases h
    exact .inl hk'
  | (k, c) :: es', .cons _ y ys, hsub, .cons hc hes, pre, m, m', h, k', hk' => by
    obtain ⟨hmem, hsub⟩ := List.forall_mem_cons.mp hsub
    rw [loadEntries] at h
    cases hy : loadValue y (pre ++ [k]) m with
    | error e =>
      rw [hy] at h
      cases h
    | ok m₁ =>
      rw [hy] at h
      rcases mem_keys_loadEntries hn hdata hsub hes h k' hk' with hold | hnew
      · have hchild := At.child hn ⟨es, k, hdata, hmem⟩
        rcases mem_keys_loadValue hchild hc hy k' hold with hold | ⟨q, r, rfl, hr⟩
        · exact .inl hold
        · refine .inr ⟨k :: q, r, List.cons_ne_nil _ _, ?_, ?_⟩
          · rw [List.append_assoc]
            rfl
          · rw [List.length_cons, Nat.add_comm q.length, ← Nat.add_assoc]
            exact hr
      · exact .inr hnew

end

end

/-- A root that holds nothing is a tree of any depth. -/
theorem Tree.of_null {Store Node Ref : Type} {lib : NodeLib Store Node Ref} {root : Node} {st : Store}
    (hlive : lib.live st root) (hnull : lib.data st (lib.ref st root) = .null) (b : Nat) :
    Tree lib root b st := by
  have hempty : ∀ {r d}, At lib root st r d → r = lib.ref st root ∧ d = 0 := by
    intro r d hr
    induction hr with
    | top => exact ⟨rfl, rfl⟩
    | child hr hc ih =>
      obtain ⟨es, k, hes, -⟩ := hc
      rw [ih.1, hnull] at hes
      cases hes
  have hnone : ∀ {r d c}, At lib root st r d → ¬ Entry lib st r c := by
    rintro r d c hr ⟨es, k, hes, -⟩
    rw [(hempty hr).1, hnull] at hes
    cases hes
  exact
    { live := hlive
      bounded := fun hr => (hempty hr).2 ▸ Nat.zero_le b
      apart := fun hr hc => absurd hc (hnone hr)
      above := fun hr hc => absurd hc (hnone hr) }

/-- **What is loaded of a tree** has no empty key and none that is longer than the tree is deep. -/
theorem Tree.length_of_load {Store Node Ref V : Type} {lib : NodeLib Store Node Ref} {root : Node}
    {st : Store} {b : Nat} {y : Yaml} {loaded : SettingsMap V} (h : Tree lib root b st)
    (hshows : Shows lib st root y) (hload : load y [] SortedMap.empty = .ok loaded) :
    ∀ k ∈ loaded.keys, 0 < k.length ∧ k.length ≤ b := by
  have hno : ∀ k, k ∉ (SortedMap.empty : SettingsMap V).keys := fun _ => List.not_mem_nil
  intro k hmem
  cases hshows with
  | null _ =>
    cases hload
    exact absurd hmem (hno k)
  | scalar _ =>
    cases hload
    exact absurd hmem (hno k)
  | map hdata hes =>
    rcases mem_keys_loadEntries .top hdata (fun _ h => h) hes hload k hmem with
      hold | ⟨q, r, hq, rfl, hr⟩
    · exact absurd hold (hno k)
    · have hbound := h.bounded hr
      rw [Nat.zero_add] at hbound
      exact ⟨List.length_pos_of_ne_nil hq, hbound⟩

/-- **Settings are loaded again from what they are dumped into** only if there are none: all keys
that are loaded are shorter than the longest key that was dumped. -/
theorem dump_load_iff {Store Node Ref V : Type} {lib : NodeLib Store Node Ref}
    (hdoc : lib.Documented) (print : V → Bytes) {root : Node} {st : Store}
    (hlive : lib.live st root) (hnull : lib.data st (lib.ref st root) = .null) (m : SettingsMap V) :
    RoundTrips lib print root st m ↔ m.entries = [] := by
  constructor
  · rintro ⟨st', y, loaded, hdump, hshows, hload, hkeys, -⟩
    by_contra hne
    -- the longest key
    obtain ⟨x, hmax⟩ : ∃ x, m.entries.argmax (fun z => z.1.length) = some x :=
      Option.ne_none_iff_exists'.mp (mt List.argmax_eq_none.mp hne)
    have hx : x ∈ m.entries := List.argmax_mem hmax
    have hlongest : ∀ z ∈ m.entries, z.1.length ≤ x.1.length := fun z hz =>
      List.le_of_mem_argmax (f := fun z : Path × Setting V => z.1.length) hz hmax
    have ht := (Tree.of_null hlive hnull (x.1.length - 1)).dump hdoc print m.entries (fun z hz => by
      have hle := hlongest z hz
      omega) hdump
    have hmem : x.1 ∈ loaded.keys := hkeys ▸ List.mem_map_of_mem hx
    obtain ⟨hpos, hle⟩ := ht.length_of_load hshows hload x.1 hmem
    omega
  · intro hnil
    refine ⟨st, .null, SortedMap.empty, ?_, .null hnull, rfl, ?_, ?_⟩
    · rw [hnil]
      rfl
    · rw [SortedMap.keys, SortedMap.keys, hnil]
      rfl
    · intro k s hs
      rw [SortedMap.lookup, hnil] at hs
      cases hs

end

/-- One setting, and what its only key leads to is the root. -/
def oneSetting : SettingsMap Bytes :=
  SortedMap.empty.update [[97]] {} fun x => { x with value := some [120] }

theorem dump_load_one : ¬ RoundTrips Memory.lib id 0 Memory.single oneSetting := by
  have hlive : Memory.lib.live Memory.single 0 := Nat.one_pos
  have hnull : Memory.lib.data Memory.single (Memory.lib.ref Memory.single 0) = .null := rfl
  intro h
  cases (dump_load_iff Memory.documented id hlive hnull oneSetting).mp h

/-- The root is a scalar then, of which nothing is loaded. -/
theorem dump_one_scalar :
    (∃ st, dump Memory.lib id oneSetting.entries 0 Memory.single = .ok st ∧
      st.data (st.ref 0) = .scalar [120]) ∧
    ¬ RoundTrips Memory.lib id 0 Memory.single oneSetting := by
  have hscalar : ∃ st, dump Memory.lib id oneSetting.entries 0 Memory.single = .ok st ∧
      st.data (st.ref 0) = .scalar [120] := ⟨_, rfl, rfl⟩
  refine ⟨hscalar, ?_⟩
  rintro ⟨st', y, loaded, hdump, hshows, hload, hkeys, -⟩
  obtain ⟨st, hst, hdata⟩ := hscalar
  rw [hst] at hdump
  cases hdump
  cases hshows with
  | null h => cases h.symm.trans hdata
  | scalar h =>
    cases hload
    cases hkeys
  | map h _ => cases h.symm.trans hdata

end Primitives.Settings
