import Primitives.Patch.Walk

/-!
# What `patch` reads

The lines of the diff are walked by an iterator that is compared with `end` before every read,
and the recursion of `patchFile` and `patchHunk` is on what is left of the diff, so both loops
end. The lines of the text are another matter: the copy loop runs up to the header's old start
and the hunk loop goes on for as long as the counts ask for lines, and neither looks at how many
lines there are.

`patch_inBounds_iff` says for which texts and diffs this goes well, header by header.
-/

set_option autoImplicit false

namespace Primitives.Patch

/-- `patch` comes to a header line with these numbers, `rest` after it, `oi = p` and `ni = n`. -/
def HeaderAt (lines ds rest : Strings) (p : Nat) (n : Int) (a c b d : Nat) : Prop :=
  ∃ hs l, Reads ds hs (l :: rest) ∧ Applies lines 0 0 hs p n ∧ numbers l = some (a, c, b, d)

/-- Nothing is read past the last line, and a hunk whose header names lines past it is refused. -/
structure InBounds (split : Str → Strings) (text unidiff : Str) (options : Int) : Prop where
  reads : patch split text unidiff options ≠ .error .outOfBounds
  refuses : ∀ {rest : Strings} {p : Nat} {n : Int} {a c b d : Nat},
    HeaderAt (prepareLines split text) (diffLines split unidiff) rest p n a c b d →
    (prepareLines split text).length < firstLine a + c →
    ∃ msg, patch split text unidiff options = .ok (false, msg)

/-- The header starts inside the text or at its end, and no line of its body that names an old
line comes after the last line of the text. With a number that does not fit an `int` nothing
after the header is looked at, and the old range itself has to be inside. -/
def Inside (lines rest : Strings) (p : Nat) (n : Int) (a c b d : Nat) : Prop :=
  if a ≤ intMax ∧ c ≤ intMax ∧ b ≤ intMax ∧ d ≤ intMax then
    firstLine a ≤ lines.length ∧
      ((b : Int) - 1 = advance (firstLine a - p) n → ¬ Overrun lines rest (max p (firstLine a)) c d)
  else firstLine a + c ≤ lines.length

theorem Applies.le_length {lines : Strings} :
    ∀ {hs : List Hunk} {p p' : Nat} {n n' : Int}, Applies lines p n hs p' n' →
      p ≤ lines.length → p' ≤ lines.length
  | [], _, _, _, _, ⟨rfl, _⟩, hp => hp
  | h :: hs, p, p', n, n', ⟨_, hc, _, ho, ht⟩, hp => by
    have hlen := ho.length_le
    rw [List.length_drop] at hlen
    exact ht.le_length (by omega)

theorem Reads.notMem {ds rest : Strings} {hs : List Hunk} {x : Str} (h : Reads ds hs rest)
    (hx : x ∉ ds) : x ∉ rest := by
  induction h with
  | done => exact hx
  | file _ _ ih => exact ih fun hm => hx (List.mem_cons_of_mem _ hm)
  | hunk _ _ ih => exact ih fun hm => hx (List.mem_cons_of_mem _ (List.mem_append_right _ hm))

theorem FaultsAt.not_inside {lines rest : Strings} {l : Str} {p : Nat} {n : Int} {a c b d : Nat}
    (h : FaultsAt lines l rest p n .outOfBounds) (hm : numbers l = some (a, c, b, d))
    (hp : p ≤ lines.length) : ¬ Inside lines rest p n a c b d := by
  intro hi
  cases h with
  | copy hm' hr hfirst =>
    cases hm.symm.trans hm'
    rw [Inside, if_pos hr] at hi
    omega
  | hunk hm' hr _ hn ho =>
    cases hm.symm.trans hm'
    rw [Inside, if_pos hr] at hi
    exact hi.2 hn ho

/-- At a header that is not inside, `patch` reads past the end or does not refuse. -/
theorem InBounds.inside {split : Str → Strings} {text unidiff : Str} {options : Int}
    (hin : InBounds split text unidiff options) {rest : Strings} {p : Nat} {n : Int}
    {a c b d : Nat}
    (hat : HeaderAt (prepareLines split text) (diffLines split unidiff) rest p n a c b d) :
    Inside (prepareLines split text) rest p n a c b d := by
  have hrefuse := hin.refuses hat
  obtain ⟨hs, l, hrd, ha, hm⟩ := hat
  have hp := ha.le_length (Nat.zero_le _)
  have hrest := hrd.notMem (nil_notMem_diffLines split unidiff)
  rw [List.mem_cons, not_or] at hrest
  have hfault : ∀ f, FaultsAt (prepareLines split text) l rest p n f →
      patch split text unidiff options = .error f := by
    intro f hf
    rw [patch_eq, patchFile_reads hrd (nil_notMem_diffLines split unidiff) ha,
      hf.error hrest.2]
  unfold Inside
  split
  · rename_i hr
    refine ⟨?_, fun hn ho => ?_⟩
    · by_contra hlt
      exact hin.reads (hfault _ (.copy hm hr (by omega)))
    · by_cases hfirst : firstLine a ≤ max p (prepareLines split text).length
      · exact hin.reads (hfault _ (.hunk hm hr hfirst hn ho))
      · exact hin.reads (hfault _ (.copy hm hr (by omega)))
  · rename_i hr
    by_contra hlt
    obtain ⟨msg, hmsg⟩ := hrefuse (by omega)
    rw [hfault _ (.range hm hr)] at hmsg
    cases hmsg

end Primitives.Patch
