import Primitives.Patch.Correct

/-!
# Hunks with a side of no lines

The header of a hunk gives a side without lines the number of the line before it, and every other side the
number of its first line. `patch` takes one off both. So a hunk with no new lines is never accepted, and
one with no old lines is only applied where the hunk before it has ended (`patch_changes_iff`).
-/

set_option autoImplicit false

namespace Primitives.Patch

open Lib

/-! ## Changes -/

/-- A change of a text: from the line at `start`, counted from 0, there is this body. -/
structure Change where
  start : Nat
  body : List BodyLine
  body_ne_nil : body ≠ []
deriving DecidableEq

namespace Change

def old (c : Change) : Strings := oldLines c.body

def new (c : Change) : Strings := newLines c.body

def edit (c : Change) : Edit Str := ⟨c.start, c.old, c.new⟩

/-- The hunk of the change, the line `b` of the new text being where its new lines begin. -/
def hunk (c : Change) (b : Nat) : Hunk :=
  ⟨if c.old = [] then c.start else c.start + 1, if c.new = [] then b else b + 1, c.body⟩

end Change

/-- A change, the end of the one before it in the old text, and its own start in the new text. -/
structure Place where
  change : Change
  before : Nat
  newStart : Nat

/-- The changes from `p` old lines and `n` new lines on. -/
def places : Nat → Nat → List Change → List Place
  | _, _, [] => []
  | p, n, c :: cs =>
    ⟨c, p, n + (c.start - p)⟩ ::
      places (c.start + c.old.length) (n + (c.start - p) + c.new.length) cs

def Place.hunk (x : Place) : Hunk := x.change.hunk x.newStart

/-- The hunks of the changes, as a diff has them. -/
def hunks (cs : List Change) : List Hunk := (places 0 0 cs).map Place.hunk

/-- The changes are in order, none reaches into the next, and what they change is there. -/
structure Matches (lines : Strings) (cs : List Change) : Prop where
  fits : Fits lines 0 (cs.map Change.edit)
  inside : ∀ c ∈ cs, c.start ≤ lines.length

/-- The numbers of the header fit an `int`, there are new lines, and a change without old lines is made
where the one before it ends. -/
structure Place.Works (x : Place) : Prop where
  inRange : x.hunk.InRange
  new_ne_nil : x.change.new ≠ []
  adjacent : x.change.old = [] → x.change.start = x.before ∧ 0 < x.before

/-! ## The count of new lines -/

/-- The count is exact but for what an `int` cannot hold. -/
theorem advance_emod (k : Nat) (ni : Int) : advance k ni % 2 ^ 32 = (ni + k) % 2 ^ 32 := by
  induction k generalizing ni with
  | zero => rw [advance_zero, Int.natCast_zero, Int.add_zero]
  | succ k ih =>
    have hinc : incInt ni % 2 ^ 32 = (ni + 1) % 2 ^ 32 := Int.bmod_emod
    rw [advance_succ, ih, Int.add_emod, hinc, ← Int.add_emod]
    congr 1
    omega

/-! ## One change -/

theorem BodyLine.old_or_new (x : BodyLine) : x.old ≠ [] ∨ x.new ≠ [] := by
  obtain ⟨m, s⟩ := x
  cases m with
  | context => exact .inl (List.cons_ne_nil _ _)
  | delete => exact .inl (List.cons_ne_nil _ _)
  | insert => exact .inr (List.cons_ne_nil _ _)

theorem Change.new_ne_nil {c : Change} (h : c.old = []) : c.new ≠ [] := by
  obtain ⟨x, b, hb⟩ := List.exists_cons_of_ne_nil c.body_ne_nil
  rw [Change.old, hb, oldLines_cons, List.append_eq_nil_iff] at h
  rw [Change.new, hb, newLines_cons]
  intro hnew
  exact x.old_or_new.elim (fun hx => hx h.1) fun hx => hx (List.append_eq_nil_iff.mp hnew).1

section

variable {lines : Strings} {c : Change} {p n : Nat}

/-- A hunk with old lines is reached at its first one. -/
theorem Change.at_of_old (hp : p ≤ c.start) (hold : c.old ≠ []) {b : Nat} (hr : (c.hunk b).InRange) :
    (c.hunk b).at p = c.start := by
  have hstart : (c.hunk b).oldStart = c.start + 1 := if_neg hold
  have hle := hr.1
  rw [hstart] at hle
  rw [Hunk.at, hstart, firstLine_of_pos (Nat.succ_pos _) hle]
  exact Nat.max_eq_right hp

/-- A hunk without old lines is reached a line too early, unless the one before it ends there. -/
theorem Change.at_of_insert (hold : c.old = []) (hpos : 0 < c.start) {b : Nat}
    (hr : (c.hunk b).InRange) : (c.hunk b).at p = max p (c.start - 1) := by
  have hstart : (c.hunk b).oldStart = c.start := if_pos hold
  have hle := hr.1
  rw [hstart] at hle
  rw [Hunk.at, hstart, firstLine_of_pos hpos hle]

/-- A hunk that works is reached where it is. -/
theorem Place.Works.at_eq (hp : p ≤ c.start) {b : Nat} (h : (⟨c, p, b⟩ : Place).Works) :
    (c.hunk b).at p = c.start := by
  by_cases hold : c.old = []
  · obtain ⟨hstart, hpos⟩ := h.adjacent hold
    have hstart : c.start = p := hstart
    rw [Change.at_of_insert hold (hstart ▸ hpos) h.inRange, hstart]
    exact Nat.max_eq_left (Nat.sub_le _ _)
  · exact Change.at_of_old hp hold h.inRange

/-- The check of the new start lets no other hunk through. -/
theorem Place.works_of_check (hp : p ≤ c.start) (hcount : n + (c.start - p) ≤ intMax)
    (hr : (c.hunk (n + (c.start - p))).InRange)
    (hn : ((c.hunk (n + (c.start - p))).newStart : Int) - 1 =
      advance ((c.hunk (n + (c.start - p))).at p - p) n) :
    (⟨c, p, n + (c.start - p)⟩ : Place).Works := by
  by_cases hold : c.old = []
  · have hnew : (c.hunk (n + (c.start - p))).newStart = n + (c.start - p) + 1 :=
      if_neg (Change.new_ne_nil hold)
    refine ⟨hr, Change.new_ne_nil hold, fun _ => ?_⟩
    show c.start = p ∧ 0 < p
    rw [hnew] at hn
    cases hstart : c.start with
    | zero =>
      -- the old start is cast to the greatest `size_t`
      have hat : (c.hunk (n + (c.start - p))).at p - p = 2 ^ 64 - 1 := by
        have hzero : (c.hunk (n + (c.start - p))).oldStart = 0 := (if_pos hold).trans hstart
        rw [Hunk.at, hzero, firstLine_zero]
        omega
      have hmod := advance_emod (2 ^ 64 - 1) n
      rw [hat] at hn
      rw [← hn] at hmod
      omega
    | succ k =>
      have hpos : 0 < c.start := by omega
      rw [Change.at_of_insert hold hpos hr, advance_of_le (by omega)] at hn
      omega
  · refine ⟨hr, ?_, fun h => absurd h hold⟩
    intro hnil
    have hnew : (c.hunk (n + (c.start - p))).newStart = n + (c.start - p) := if_pos hnil
    rw [hnew, Change.at_of_old hp hold hr, advance_of_le hcount] at hn
    omega

/-- A hunk that works is reached where it is, and the hunks behind it with the right numbers. -/
theorem applies_cons_iff {lines : Strings} (hs : List Hunk) (hp : p ≤ c.start)
    (hlen : c.start ≤ lines.length) (hold : c.old <+: lines.drop c.start)
    (hcount : n + (c.start - p) + c.new.length ≤ intMax) (p' : Nat) (n' : Int) :
    Applies lines p n (c.hunk (n + (c.start - p)) :: hs) p' n' ↔
      (⟨c, p, n + (c.start - p)⟩ : Place).Works ∧
        Applies lines (c.start + c.old.length) (n + (c.start - p) + c.new.length : Nat) hs p' n' := by
  have hnext (hat : (c.hunk (n + (c.start - p))).at p = c.start) :
      advance ((c.hunk (n + (c.start - p))).at p - p + (c.hunk (n + (c.start - p))).new.length) n =
        (n + (c.start - p) + c.new.length : Nat) := by
    have hlength : (c.hunk (n + (c.start - p))).new.length = c.new.length := rfl
    rw [hat, hlength, advance_of_le (by omega), Nat.add_assoc]
  constructor
  · rintro ⟨hr, hat, hn, ho, ht⟩
    have hworks := Place.works_of_check hp (by omega) hr hn
    rw [hnext (hworks.at_eq hp), hworks.at_eq hp] at ht
    exact ⟨hworks, ht⟩
  · rintro ⟨hworks, ht⟩
    have hat := hworks.at_eq hp
    have hnew : (c.hunk (n + (c.start - p))).newStart = n + (c.start - p) + 1 :=
      if_neg hworks.new_ne_nil
    refine .cons hworks.inRange ?_ ?_ ?_ ?_
    · rw [hat]
      omega
    · rw [hat, hnew, advance_of_le (by omega)]
      omega
    · rw [hat]
      exact hold
    · rw [hnext hat, hat]
      exact ht

end

/-! ## All changes -/

/-- **`patch_file` gets through the hunks** if and only if they work, and writes the text with the changes
made. -/
theorem applies_iff_works {lines : Strings} {cs : List Change} {p n : Nat}
    (hfits : Fits lines p (cs.map Change.edit)) (hinside : ∀ c ∈ cs, c.start ≤ lines.length)
    (hcount : ∀ x ∈ places p n cs, x.newStart + x.change.new.length ≤ intMax) :
    ((∃ p' n', Applies lines p n ((places p n cs).map Place.hunk) p' n') ↔
      ∀ x ∈ places p n cs, x.Works) ∧
    ∀ p' n', Applies lines p n ((places p n cs).map Place.hunk) p' n' →
      written lines p ((places p n cs).map Place.hunk) ++ lines.drop p' =
        splice lines p (cs.map Change.edit) := by
  induction cs generalizing p n with
  | nil =>
    refine ⟨iff_of_true ⟨p, n, rfl, rfl⟩ (List.forall_mem_nil _), ?_⟩
    rintro p' n' ⟨rfl, rfl⟩
    rfl
  | cons c cs ih =>
    obtain ⟨hp, hold, hfits⟩ := hfits
    obtain ⟨hlen, hinside⟩ := List.forall_mem_cons.mp hinside
    rw [places] at hcount ⊢
    obtain ⟨hc, hcount⟩ := List.forall_mem_cons.mp hcount
    have hp : p ≤ c.start := hp
    have hold : c.old <+: lines.drop c.start := hold
    have hc : n + (c.start - p) + c.new.length ≤ intMax := hc
    have ih := ih (p := c.start + c.old.length) hfits hinside hcount
    have hstep := applies_cons_iff ((places (c.start + c.old.length)
      (n + (c.start - p) + c.new.length) cs).map Place.hunk) hp hlen hold hc
    refine ⟨?_, fun p' n' h => ?_⟩
    · rw [List.forall_mem_cons, ← ih.1, List.map_cons]
      show (∃ p' n', Applies lines p n (c.hunk _ :: _) p' n') ↔ _
      simp only [hstep, exists_and_left]
    · obtain ⟨hworks, ht⟩ := (hstep p' n').mp h
      have hsplice := ih.2 p' n' ht
      rw [List.map_cons, List.map_cons, splice, written]
      show (lines.drop p).take ((c.hunk (n + (c.start - p))).at p - p) ++ c.new ++
        written lines ((c.hunk (n + (c.start - p))).at p + c.old.length) _ ++ lines.drop p' = _
      rw [hworks.at_eq hp, List.append_assoc, hsplice]
      rfl

/-- **Changes are made** by their diff if and only if all their hunks work, as long as the number of the
last new line of each fits an `int`. -/
theorem patch_changes_iff {split : Str → Strings} {text unidiff : Str} {options : Int}
    {cs : List Change} {rest : Strings} (hrd : Reads (diffLines split unidiff) (hunks cs) rest)
    (he : Ends options rest) (hm : Matches (prepareLines split text) cs)
    (hcount : ∀ x ∈ places 0 0 cs, x.newStart + x.change.new.length ≤ intMax) :
    patch split text unidiff options = .ok (true,
        ['\n'].intercalate (splice (prepareLines split text) 0 (cs.map Change.edit))) ↔
      ∀ x ∈ places 0 0 cs, x.Works := by
  obtain ⟨hworks, hwritten⟩ := applies_iff_works hm.fits hm.inside hcount
  rw [← hworks, patch_eq]
  constructor
  · intro h
    obtain ⟨r, oi, hrun⟩ : ∃ r oi, patchFile (prepareLines split text) options
        (diffLines split unidiff) [] 0 0 = .ok (true, r, oi) := by
      split at h
      · cases h
      · cases h
      · exact ⟨_, _, ‹_›⟩
    obtain ⟨hs, rest', n', hrd', he', ha, -⟩ := patchFile_true (nil_notMem_diffLines split unidiff) hrun
    -- the diff reads in one way
    rw [hrd'.unique he' hrd he] at ha
    exact ⟨oi, n', ha⟩
  · rintro ⟨p', n', ha⟩
    have hsplice := hwritten p' n' ha
    rw [Int.natCast_zero] at ha
    rw [patchFile_reads hrd (nil_notMem_diffLines split unidiff) ha, patchFile_ends he,
      ← joinLines_dropLast, ← hsplice]
    simp [hunks]

/-- `a`, and a line after it. -/
def lineAndInsertion : List Change :=
  [⟨0, [(.context, ['a'])], List.cons_ne_nil _ _⟩, ⟨1, [(.insert, ['b'])], List.cons_ne_nil _ _⟩]

theorem patch_changes_line_and_insertion :
    patch boostSplit ['a'] "@@ -1,1 +1,1 @@\n a\n@@ -1,0 +2,1 @@\n+b".toList 0 =
      .ok (true, "a\nb".toList) := by
  have hds : diffLines boostSplit "@@ -1,1 +1,1 @@\n a\n@@ -1,0 +2,1 @@\n+b".toList =
      ["@@ -1,1 +1,1 @@".toList, [' ', 'a'], "@@ -1,0 +2,1 @@".toList, ['+', 'b']] := by
    decide +kernel
  have hrd : Reads (diffLines boostSplit "@@ -1,1 +1,1 @@\n a\n@@ -1,0 +2,1 @@\n+b".toList)
      (hunks lineAndInsertion) [] := by
    rw [hds]
    exact .hunk (h := ⟨1, 1, [(.context, ['a'])]⟩) (by decide +kernel)
      (.hunk (h := ⟨1, 2, [(.insert, ['b'])]⟩) (by decide +kernel) .done)
  have hm : Matches (prepareLines boostSplit ['a']) lineAndInsertion := by
    refine ⟨⟨Nat.le_refl _, ?_, Nat.le_refl _, List.nil_prefix, trivial⟩, by decide⟩
    exact List.prefix_rfl
  refine (patch_changes_iff hrd (.inl rfl) hm (by decide)).mpr ?_
  rw [lineAndInsertion, places, places, places, List.forall_mem_cons, List.forall_mem_singleton]
  exact ⟨⟨by decide, by decide, by decide⟩, ⟨by decide, by decide, by decide⟩⟩

/-- The diff has the changes, and they match the text. -/
structure Describes (split : Str → Strings) (text unidiff : Str) (cs : List Change) : Prop where
  reads : Reads (diffLines split unidiff) (hunks cs) []
  agrees : Matches (prepareLines split text) cs

/-- A line after the first one, a line before it and the first line itself: `patch` refuses to insert
the one, reads past the end for the other, and refuses to delete. -/
theorem patch_zero_counts :
    (Describes boostSplit ['a'] "@@ -1,0 +2,1 @@\n+b".toList [⟨1, [(.insert, ['b'])], List.cons_ne_nil _ _⟩] ∧
      patch boostSplit ['a'] "@@ -1,0 +2,1 @@\n+b".toList 0 =
        .ok (false, "bad file: nl is wrong: 2".toList)) ∧
    (Describes boostSplit ['a'] "@@ -0,0 +1,1 @@\n+b".toList [⟨0, [(.insert, ['b'])], List.cons_ne_nil _ _⟩] ∧
      patch boostSplit ['a'] "@@ -0,0 +1,1 @@\n+b".toList 0 = .error .outOfBounds) ∧
    Describes boostSplit ['a'] "@@ -1,1 +0,0 @@\n-a".toList [⟨0, [(.delete, ['a'])], List.cons_ne_nil _ _⟩] ∧
      patch boostSplit ['a'] "@@ -1,1 +0,0 @@\n-a".toList 0 =
        .ok (false, "bad file: nl is wrong: 0".toList) := by
  have hafter : diffLines boostSplit "@@ -1,0 +2,1 @@\n+b".toList =
      ["@@ -1,0 +2,1 @@".toList, ['+', 'b']] := by decide +kernel
  have hbefore : diffLines boostSplit "@@ -0,0 +1,1 @@\n+b".toList =
      ["@@ -0,0 +1,1 @@".toList, ['+', 'b']] := by decide +kernel
  have hdelete : diffLines boostSplit "@@ -1,1 +0,0 @@\n-a".toList =
      ["@@ -1,1 +0,0 @@".toList, ['-', 'a']] := by decide +kernel
  refine ⟨⟨⟨?_, ⟨Nat.zero_le _, List.nil_prefix, trivial⟩, by decide⟩, by decide +kernel⟩,
    ⟨⟨?_, ⟨Nat.zero_le _, List.nil_prefix, trivial⟩, by decide⟩, ?_⟩,
    ⟨?_, ⟨Nat.zero_le _, ?_, trivial⟩, by decide⟩, by decide +kernel⟩
  · rw [hafter]
    exact .hunk (h := ⟨1, 2, [(.insert, ['b'])]⟩) (by decide +kernel) .done
  · rw [hbefore]
    exact .hunk (h := ⟨0, 1, [(.insert, ['b'])]⟩) (by decide +kernel) .done
  · have hnum : numbers "@@ -0,0 +1,1 @@".toList = some (0, 0, 1, 1) := by decide +kernel
    have hfault : FaultsAt (prepareLines boostSplit ['a']) "@@ -0,0 +1,1 @@".toList
        [['+', 'b']] 0 0 .outOfBounds := .copy hnum (by decide) (by decide +kernel)
    rw [patch_eq, hbefore, hfault.error (by decide)]
  · rw [hdelete]
    exact .hunk (h := ⟨1, 0, [(.delete, ['a'])]⟩) (by decide +kernel) .done
  · exact List.prefix_rfl

end Primitives.Patch
