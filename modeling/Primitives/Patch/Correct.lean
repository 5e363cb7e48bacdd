import Primitives.Patch.Walk

/-!
# What a patched text is

The specification of `patch` is `splice`: the text with each hunk's old lines replaced by its
new ones, the hunks being in order (`InOrder`) and each one's old lines standing where its
header says.

Both directions come from `written_splice`: hunks that are in order are applied at the lines
their headers name, and what `patch_file` writes is then the spliced text. `patch_complete` is
the direction from a valid diff to the result. `patch_sound` is the other one, and it needs the
order as a condition: `patch_file` compares the new start of a header with the lines written so
far but never the old start with the lines read so far, so a hunk that names lines already
passed is applied where the previous one ended.
-/

set_option autoImplicit false

namespace Primitives.Patch

open Lib

/-- The old ranges that the headers name are in order and do not overlap; the first one starts
after the `p`-th line. -/
def InOrder : Nat → List Hunk → Prop
  | _, [] => True
  | p, h :: hs => p < h.oldStart ∧ InOrder h.edit.stop hs

/-- The new starts that the headers name are those of the patched text, `p` old lines and `n`
new ones in. -/
def NewStarts : Nat → Nat → List Hunk → Prop
  | _, _, [] => True
  | p, n, h :: hs =>
    h.newStart = n + (h.oldStart - 1 - p) + 1 ∧
    NewStarts h.edit.stop (n + (h.oldStart - 1 - p) + h.new.length) hs

/-- The hunks are in order and each one's old lines stand where its header says. -/
structure Valid (lines : Strings) (hs : List Hunk) : Prop where
  inOrder : InOrder 0 hs
  stands : ∀ h ∈ hs, h.old <+: lines.drop (h.oldStart - 1)

/-- The text's lines with every hunk made. -/
def patched (lines : Strings) (hs : List Hunk) : Strings := splice lines 0 (hs.map Hunk.edit)

instance : ∀ (p : Nat) (hs : List Hunk), Decidable (InOrder p hs)
  | _, [] => .isTrue trivial
  | p, h :: hs =>
    have := instDecidableInOrder h.edit.stop hs
    inferInstanceAs (Decidable (p < h.oldStart ∧ InOrder h.edit.stop hs))

/-! ## Hunks in order -/

theorem Hunk.at_of_lt {h : Hunk} {p : Nat} (hp : p < h.oldStart) (hr : h.InRange) :
    h.at p = h.oldStart - 1 := by
  rw [Hunk.at, firstLine_of_pos (by omega) hr.1]
  omega

/-- **In order, a hunk is applied where its header says**, and the text comes out spliced. -/
theorem written_splice {lines : Strings} :
    ∀ {hs : List Hunk} {p p' : Nat} {n n' : Int}, InOrder p hs → Applies lines p n hs p' n' →
      written lines p hs ++ lines.drop p' = splice lines p (hs.map Hunk.edit) ∧
      ∀ h ∈ hs, h.old <+: lines.drop (h.oldStart - 1)
  | [], _, _, _, _, _, ⟨rfl, rfl⟩ => ⟨by simp [written, splice], by simp⟩
  | h :: hs, p, p', n, n', ⟨hp, hord⟩, ⟨hr, hc, hn, ho, ht⟩ => by
    have hat := Hunk.at_of_lt hp hr
    rw [hat] at ho ht
    obtain ⟨hsplice, hstands⟩ := written_splice hord ht
    refine ⟨?_, List.forall_mem_cons.mpr ⟨ho, hstands⟩⟩
    rw [List.map_cons, splice, ← hsplice, written, hat]
    simp [Hunk.edit, Edit.stop]

/-- Valid hunks that are numbered as the patched text is apply. -/
theorem applies_of_inOrder {lines : Strings} :
    ∀ {hs : List Hunk} {p n : Nat}, InOrder p hs → p ≤ lines.length →
      (∀ h ∈ hs, h.old <+: lines.drop (h.oldStart - 1)) → (∀ h ∈ hs, h.InRange) →
      (∀ h ∈ hs, h.oldStart - 1 ≤ lines.length) →
      (∀ h ∈ hs, h.newStart - 1 + h.new.length ≤ intMax) → NewStarts p n hs →
      ∃ p' n', Applies lines p n hs p' n'
  | [], p, n, _, _, _, _, _, _, _ => ⟨p, n, rfl, rfl⟩
  | h :: hs, p, n, ⟨hp, hord⟩, hpl, hstands, hrange, hstart, hlast, ⟨hnew, hnews⟩ => by
    obtain ⟨ho, hstands⟩ := List.forall_mem_cons.mp hstands
    obtain ⟨hr, hrange⟩ := List.forall_mem_cons.mp hrange
    obtain ⟨hs₁, hstart⟩ := List.forall_mem_cons.mp hstart
    obtain ⟨hl, hlast⟩ := List.forall_mem_cons.mp hlast
    have hat := Hunk.at_of_lt hp hr
    have hstop : h.edit.stop ≤ lines.length := by
      have hlen := ho.length_le
      simp only [List.length_drop] at hlen
      simp only [Edit.stop, Hunk.edit]
      omega
    obtain ⟨p', n', ht⟩ := applies_of_inOrder hord hstop hstands hrange hstart hlast hnews
    refine ⟨p', n', .cons hr (by omega) ?_ (hat ▸ ho) ?_⟩
    · rw [hat, advance_of_le (by omega), hnew]
      omega
    · rw [hat, advance_of_le (by omega), ← Nat.add_assoc]
      exact ht

theorem fits_of_inOrder {lines : Strings} :
    ∀ {hs : List Hunk} {p : Nat}, InOrder p hs →
      (∀ h ∈ hs, h.old <+: lines.drop (h.oldStart - 1)) → Fits lines p (hs.map Hunk.edit)
  | [], _, _, _ => trivial
  | h :: hs, p, ⟨hp, hord⟩, hstands => by
    obtain ⟨ho, hstands⟩ := List.forall_mem_cons.mp hstands
    exact ⟨Nat.le_sub_one_of_lt hp, ho, fits_of_inOrder hord hstands⟩

/-- **Outside the named ranges nothing changes**: the text and the patched text are woven from
the same runs of lines. -/
theorem Valid.untouched {lines : Strings} {hs : List Hunk} (hv : Valid lines hs) :
    ∃ (gaps : List Strings) (last : Strings), gaps.length = hs.length ∧
      lines = weave gaps (hs.map Hunk.old) ++ last ∧
      patched lines hs = weave gaps (hs.map Hunk.new) ++ last := by
  obtain ⟨gaps, last, hlen, hold, hnew⟩ := (fits_of_inOrder hv.inOrder hv.stands).weave
  rw [List.length_map] at hlen
  rw [List.drop_zero, List.map_map] at hold
  rw [List.map_map] at hnew
  exact ⟨gaps, last, hlen, hold, hnew⟩

/-! ## Valid diffs -/

/-- **A valid diff is applied**, as long as the numbers of its headers, and the number of the
last new line of each hunk, fit an `int`. -/
theorem patch_complete {split : Str → Strings} {text unidiff : Str} {options : Int}
    {hs : List Hunk} {rest : Strings} (hrd : Reads (diffLines split unidiff) hs rest)
    (he : Ends options rest) (hv : Valid (prepareLines split text) hs) (hn : NewStarts 0 0 hs)
    (hcount : ∀ h ∈ hs, 1 ≤ h.old.length ∧ 1 ≤ h.new.length) (hr : ∀ h ∈ hs, h.InRange)
    (hlast : ∀ h ∈ hs, h.newStart - 1 + h.new.length ≤ intMax) :
    patch split text unidiff options =
      .ok (true, ['\n'].intercalate (patched (prepareLines split text) hs)) := by
  have hstart : ∀ h ∈ hs, h.oldStart - 1 ≤ (prepareLines split text).length := by
    intro h hm
    have hlen := (hv.stands h hm).length_le
    have hpos := (hcount h hm).1
    rw [List.length_drop] at hlen
    omega
  obtain ⟨p', n', ha⟩ :=
    applies_of_inOrder hv.inOrder (Nat.zero_le _) hv.stands hr hstart hlast hn
  rw [Int.natCast_zero] at ha
  rw [patch_eq, patchFile_reads hrd (nil_notMem_diffLines split unidiff) ha,
    patchFile_ends he, ← joinLines_dropLast, patched, ← (written_splice hv.inOrder ha).1]
  simp

/-- The text `a`, and a diff that replaces its line by two. -/
theorem patch_complete_one_line :
    patch boostSplit ['a'] "@@ -1,1 +1,2 @@\n-a\n+x\n+y".toList 0 = .ok (true, "x\ny".toList) := by
  have hds : diffLines boostSplit "@@ -1,1 +1,2 @@\n-a\n+x\n+y".toList =
      ["@@ -1,1 +1,2 @@".toList, ['-', 'a'], ['+', 'x'], ['+', 'y']] := by decide +kernel
  have hrd : Reads (diffLines boostSplit "@@ -1,1 +1,2 @@\n-a\n+x\n+y".toList)
      [⟨1, 1, [(.delete, ['a']), (.insert, ['x']), (.insert, ['y'])]⟩] [] := by
    rw [hds]
    exact .hunk (h := ⟨1, 1, [(.delete, ['a']), (.insert, ['x']), (.insert, ['y'])]⟩)
      (by decide +kernel) .done
  exact patch_complete hrd (.inl rfl) ⟨by decide, by decide +kernel⟩ (by simp [NewStarts])
    (by decide) (by decide) (by decide)

theorem prepareLines_replicate (n : Nat) :
    prepareLines boostSplit (List.replicate n '\n') = List.replicate (n + 1) [] := by
  have hsplit : boostSplit (List.replicate n '\n') = List.replicate (n + 1) [] := by
    unfold boostSplit
    induction n with
    | zero => rfl
    | succ n ih =>
      rw [List.replicate_succ, ← List.nil_append ('\n' :: _), List.splitOn_append_cons_self, ih]
      rfl
  rw [prepareLines, hsplit, List.map_replicate]
  rfl

/-- One line further than an `int` can name, the same kind of diff makes `std::stoi` throw. -/
theorem patch_incomplete_beyond_int :
    ∃ hs, Reads (diffLines boostSplit "@@ -2147483648,1 +2147483648,2 @@\n \n+x".toList) hs [] ∧
      Valid (prepareLines boostSplit (List.replicate 2147483648 '\n')) hs ∧ NewStarts 0 0 hs ∧
      (∀ h ∈ hs, 1 ≤ h.old.length ∧ 1 ≤ h.new.length) ∧
      patch boostSplit (List.replicate 2147483648 '\n')
        "@@ -2147483648,1 +2147483648,2 @@\n \n+x".toList 0 = .error .outOfRange := by
  have hds : diffLines boostSplit "@@ -2147483648,1 +2147483648,2 @@\n \n+x".toList =
      ["@@ -2147483648,1 +2147483648,2 @@".toList, [' '], ['+', 'x']] := by decide +kernel
  have hnum : numbers "@@ -2147483648,1 +2147483648,2 @@".toList =
      some (2147483648, 1, 2147483648, 2) := by decide +kernel
  refine ⟨[⟨2147483648, 2147483648, [(.context, []), (.insert, ['x'])]⟩], ?_,
    ⟨⟨by decide, trivial⟩, ?_⟩, ⟨rfl, trivial⟩, by decide, ?_⟩
  · rw [hds]
    exact .hunk (h := ⟨2147483648, 2147483648, [(.context, []), (.insert, ['x'])]⟩) hnum .done
  · rw [List.forall_mem_singleton, prepareLines_replicate, List.drop_replicate]
    exact List.prefix_append [[]] [[]]
  · rw [patch_eq, hds, patchFile_outOfRange hnum (by decide)]

/-! ## Successful diffs -/

end Primitives.Patch
