import Primitives.Versions.Neighbours
import Primitives.Versions.Pairs

/-!
# What simple ranges contain

A pair from a version up to the one after some of its first numbers has the releases from the version on
that begin with these numbers (`contains_upTo`), however far the increment carries.
-/

set_option autoImplicit false

namespace Primitives.Versions

open Lib

namespace Version

theorem Release.firsts_bounds {w : Version} (hw : w.Release) (n : ℕ) :
    ∀ x ∈ firsts 0 n w.numbers, 0 ≤ x ∧ x ≤ maxNumber := by
  intro x hx
  rcases mem_firsts hx with rfl | hx
  · exact ⟨le_rfl, by decide⟩
  · exact hw.numbers x hx

/-- Versions without an extra part are ordered as the sequences of their numbers. -/
theorem lt_iff_sequence {v w : Version} (hv : v.extra = []) (hw : w.extra = []) :
    v.lt w = true ↔ sequence 0 v.numbers < sequence 0 w.numbers := by
  rw [lt_iff, key, key, hv, hw, Prod.Lex.toLex_lt_toLex]
  exact or_iff_left fun h => lt_irrefl _ h.2

/-- A version is not above one without an extra part if its numbers are not. -/
theorem le_iff_sequence {v w : Version} (hw : w.extra = []) :
    v.le w = true ↔ sequence 0 v.numbers ≤ sequence 0 w.numbers := by
  have htop : Extra.key v.extra ≤ Extra.key w.extra := by
    rw [hw]
    exact le_top
  rw [le_iff, key, key, Prod.Lex.toLex_le_toLex, and_iff_left htop]
  exact le_iff_lt_or_eq.symm

/-- **Below the next version** are the releases whose first numbers are not above it. -/
theorem lt_next_iff {p ns : List Int} (h : Next 0 maxNumber p ns) {w : Version} (hw : w.Release) :
    w.lt ⟨ns, []⟩ = true ↔ firsts 0 p.length w.numbers ≤ p := by
  rw [lt_iff_sequence hw.extra rfl, sequence_lt_iff_firsts_lt (fun x hx => (hw.numbers x hx).1) h.length_eq]
  exact h.lt_iff_le' (length_firsts _ _ _) (hw.firsts_bounds _)

/-- A version that is cut off at the components of another one. -/
theorem take_le_iff (ns ms : List Int) :
    (⟨ms.take ns.length, []⟩ : Version).le ⟨ns, []⟩ = true ↔ firsts 0 ns.length ms ≤ ns := by
  have hlt : sequence 0 ns < sequence 0 (firsts 0 ns.length ms) ↔ ns < firsts 0 ns.length ms :=
    sequence_lt_iff 0 (length_firsts _ _ _).symm
  rw [le_iff_sequence rfl]
  show sequence 0 (ms.take ns.length) ≤ sequence 0 ns ↔ _
  rw [sequence_take]
  exact not_lt.symm.trans ((not_congr hlt).trans not_lt)

end Version

/-- The numbers at the beginning. -/
theorem firsts_of_isPrefix {p ns : List Int} (h : p <+: ns) : firsts 0 p.length ns = p := by
  rw [firsts_eq_iff rfl]
  intro i hi
  obtain ⟨rest, rfl⟩ := h
  rw [List.getD_append _ _ _ _ hi]

/-- What `++` gives, unless it stands still at `max()`. -/
theorem exists_next {p : List Int} {v : Version} (hmax : (⟨p, []⟩ : Version).eq .max = false)
    (h : (⟨p, []⟩ : Version).incrementVersion = .ok v) :
    ∃ ns, v = ⟨ns, []⟩ ∧ Next 0 Version.maxNumber p ns := by
  obtain ⟨m, hm, rfl⟩ := (incrementVersion_eq hmax).mp h
  obtain ⟨k, n, rest, hp, rfl⟩ := carry_ok hm
  have hreverse : ∀ n c : Int, (List.replicate k c ++ n :: rest).reverse =
      rest.reverse ++ n :: List.replicate k c := by
    intro n c
    have heq := reverse_append_replicate rest.reverse n c k
    rw [List.reverse_reverse] at heq
    rw [← heq, List.reverse_reverse]
  have hp' : p = rest.reverse ++ n :: List.replicate k Version.maxNumber := by
    rw [← hreverse, ← hp, List.reverse_reverse]
  exact ⟨_, rfl, rest.reverse, n, n + 1, k, Order.covBy_add_one n, hp', hreverse _ _⟩

/-- No release is above `max()`. -/
theorem not_le_firsts {p : List Int} (hp : (⟨p, []⟩ : Version).eq .max = true) {w : Version}
    (hw : w.Release) : ¬ p ≤ firsts 0 p.length w.numbers := by
  have hseq := (Prod.mk.inj (toLex_inj.mp ((Version.eq_iff _ _).mp hp))).1
  have hhead : p.getD 0 0 = Version.maxNumber + 1 := congrFun (toLex_inj.mp hseq) 0
  cases p with
  | nil => cases hhead
  | cons n ns =>
    have hn : n = Version.maxNumber + 1 := hhead
    have hle : w.numbers.headD 0 ≤ Version.maxNumber :=
      (hw.firsts_bounds 1 _ List.mem_cons_self).2
    rw [List.length_cons, firsts, cons_le_cons_iff, hn]
    rintro (hlt | ⟨heq, -⟩)
    · omega
    · omega

/-- **From a version up to the one after some of its numbers** are the releases that agree in these. -/
theorem contains_of_upTo {v : Version} {p : List Int} (hpre : p <+: v.numbers) {ps : List RangePair}
    (h : upTo v p = .ok ps) : ∃ q, ps = [q] ∧ ∀ w : Version, w.Release →
      (q.contains w = true ↔ v.le w = true ∧ firsts 0 p.length w.numbers = p) := by
  obtain ⟨v₂, hv₂, h⟩ := of_bind_eq_ok h
  obtain ⟨q, hq, h⟩ := of_bind_eq_ok h
  obtain ⟨hfirst, hsecond⟩ := make_eq_ok hq
  cases h
  refine ⟨q, rfl, fun w hw => ?_⟩
  have hcontains : q.contains w = true ↔ v.le w = true ∧ w.lt v₂ = true := by
    rw [RangePair.contains, hfirst, hsecond, Bool.and_eq_true]
    show v.le w = true ∧ v₂.gt w = true ↔ _
    rw [Version.gt_iff, ← Version.lt_iff]
  rw [hcontains]
  refine and_congr_right fun hle => ?_
  -- the version is not above the release, and so its first numbers are not
  have hfirsts : p ≤ firsts 0 p.length w.numbers := by
    have hle := firsts_le_of_sequence_le (n := p.length) ((Version.le_iff_sequence hw.extra).mp hle)
    rwa [firsts_of_isPrefix hpre] at hle
  cases hmax : (⟨p, []⟩ : Version).eq .max with
  | true => exact absurd hfirsts (not_le_firsts hmax hw)
  | false =>
    obtain ⟨ns, rfl, hnext⟩ := exists_next hmax hv₂
    rw [Version.lt_next_iff hnext hw]
    exact ⟨fun h => le_antisymm h hfirsts, le_of_eq⟩

/-- Numbers that can be counted up. -/
theorem contains_upTo {v : Version} (hv : v.Release) {p : List Int} (hpre : p <+: v.numbers)
    (hp : ∃ n ∈ p, n ≠ Version.maxNumber) :
    ∃ q, upTo v p = .ok [q] ∧ ∀ w : Version, w.Release →
      (q.contains w = true ↔ v.le w = true ∧ firsts 0 p.length w.numbers = p) := by
  have hrelease : (⟨p, []⟩ : Version).Release := ⟨fun n hn => hv.numbers n (hpre.subset hn), rfl⟩
  obtain ⟨ns, hinc, -, -⟩ := hrelease.incrementVersion_eq hp
  have hlt := lt_incrementVersion hpre hrelease.eq_max hinc
  obtain ⟨q, hq, -, -⟩ := exists_make ((ordered_strong_right v ⟨ns, []⟩ false).trans hlt)
  have hupTo : upTo v p = .ok [q] := by
    rw [upTo, hinc]
    show RangePair.make v false ⟨ns, []⟩ true >>= _ = _
    rw [hq]
    rfl
  obtain ⟨q', hq', hcontains⟩ := contains_of_upTo hpre hupTo
  cases hq'
  exact ⟨q, hupTo, hcontains⟩

/-- Where all numbers have to agree the lower bound says nothing. -/
theorem le_of_firsts_eq {v w : Version} (hw : w.Release)
    (h : firsts 0 v.numbers.length w.numbers = v.numbers) : v.le w = true := by
  rw [Version.le_iff_sequence hw.extra]
  exact le_sequence_of_le_firsts (fun x hx => (hw.numbers x hx).1) rfl h.ge

/-! ## Caret -/

/-- Numbers that are not all 0 are above 0. -/
theorem gt_zero_iff {ns : List Int} (h : ∀ n ∈ ns, 0 ≤ n) :
    (⟨ns, []⟩ : Version).gt ⟨[0], []⟩ = true ↔ ∃ n ∈ ns, n ≠ 0 := by
  have hzero : sequence (0 : Int) [0] = sequence 0 [] := sequence_append_replicate 0 [] 1
  rw [Version.gt_iff, ← Version.lt_iff, Version.lt_iff_sequence rfl rfl, hzero]
  constructor
  · intro hlt
    by_contra hno
    push Not at hno
    have hzeros : sequence 0 ns = sequence 0 [] := by
      rw [List.eq_replicate_iff.mpr ⟨rfl, hno⟩]
      exact sequence_append_replicate 0 [] ns.length
    exact hlt.ne' hzeros
  · rintro ⟨n, hn, hne⟩
    induction ns with
    | nil => cases hn
    | cons m ns ih =>
      obtain ⟨hm, hns⟩ := List.forall_mem_cons.mp h
      rw [sequence_lt_iff_headD]
      rcases hm.lt_or_eq with hpos | rfl
      · exact .inl hpos
      · exact .inr ⟨rfl, ih hns ((List.mem_cons.mp hn).resolve_left hne)⟩

/-- The numbers up to the first that is not 0, or all of them. -/
theorem lt_length_caretNumbers_iff {ns : List Int} (h : ∀ n ∈ ns, 0 ≤ n) {i : ℕ} :
    i < (caretNumbers ns).length ↔ i < ns.length ∧ ∀ j < i, ns.getD j 0 = 0 := by
  unfold caretNumbers
  cases hfind : ns.findIdx? (· ≠ 0) with
  | none =>
    have hzeros : ∀ n ∈ ns, n = 0 := by
      intro n hn
      simpa using List.findIdx?_eq_none_iff.mp hfind n hn
    rw [ite_self]
    refine (and_iff_left fun j _ => ?_).symm
    rw [List.getD_eq_getElem?_getD]
    cases hj : ns[j]? with
    | none => rfl
    | some n => exact hzeros n (List.mem_of_getElem? hj)
  | some k =>
    obtain ⟨hk, hne, hbefore⟩ := List.findIdx?_eq_some_iff_getElem.mp hfind
    have hgt : (⟨ns, []⟩ : Version).gt ⟨[0], []⟩ = true :=
      (gt_zero_iff h).mpr ⟨ns[k], List.getElem_mem hk, by simpa using hne⟩
    rw [if_pos hgt, List.length_take_of_le (Nat.succ_le_of_lt hk)]
    constructor
    · intro hi
      refine ⟨by omega, fun j hj => ?_⟩
      rw [List.getD_eq_getElem _ _ (by omega)]
      simpa using hbefore j (by omega)
    · rintro ⟨-, hzeros⟩
      refine Nat.lt_succ_of_le (not_lt.mp fun hki => ?_)
      -- the number that is not 0 would be one of those before
      have hzero := hzeros k hki
      rw [List.getD_eq_getElem _ _ hk] at hzero
      exact absurd hzero (by simpa using hne)

end Primitives.Versions
