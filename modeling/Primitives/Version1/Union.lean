import Primitives.Version1.Pairs

/-!
# The versions of a union

One version is followed, by its key `x`. A pair is looked for from the front, and the first one that
does not end before `x` decides: if it does not hold `x`, then no pair behind it does (`Settled`).
The vectors need not be sorted for that, and after a pair was put in before another one they are not.

Two pairs with nothing but a gap between the last version of the one and the version after it are
made one, so a version in such a gap is gained. For the others (`Clear`) a union holds what one of
the two ranges holds, and an intersection what both hold.
-/

set_option autoImplicit false

namespace Primitives.Version1

open Lib
open Versions (Key stdMax stdMin)

namespace VersionRange

/-- What the pairs of a list hold. -/
def held (l : List RangePair) : Set Key := {x | ∃ p ∈ l, x ∈ p.keys}

variable {x : Key} {l m : List RangePair} {p i rhs prev : RangePair}

theorem not_mem_held_nil : x ∉ held [] := by
  rintro ⟨p, hp, -⟩
  exact List.not_mem_nil hp

theorem mem_held_cons : x ∈ held (p :: l) ↔ x ∈ p.keys ∨ x ∈ held l := List.exists_mem_cons_iff _ _ _

theorem mem_held_append : x ∈ held (l ++ m) ↔ x ∈ held l ∨ x ∈ held m := by
  constructor
  · rintro ⟨p, hp, hx⟩
    rcases List.mem_append.mp hp with hp | hp
    · exact .inl ⟨p, hp, hx⟩
    · exact .inr ⟨p, hp, hx⟩
  · rintro (⟨p, hp, hx⟩ | ⟨p, hp, hx⟩)
    · exact ⟨p, List.mem_append_left _ hp, hx⟩
    · exact ⟨p, List.mem_append_right _ hp, hx⟩

theorem mem_held_singleton : x ∈ held [p] ↔ x ∈ p.keys := by
  rw [mem_held_cons]
  exact or_iff_left not_mem_held_nil

/-- `x` is not between a version and the one after it, and there is one. -/
def Clear (x : Key) (e : Version) : Prop :=
  ∃ e', e.incrementVersion = .ok e' ∧ ¬ (e.key < x ∧ x < e'.key)

theorem Clear.le_or_le (h : Clear x i.second)
    (hnext : ∃ e, i.second.incrementVersion = .ok e ∧ e.key = rhs.first.key) :
    x ≤ i.second.key ∨ rhs.first.key ≤ x := by
  obtain ⟨e, he, hkey⟩ := hnext
  obtain ⟨e', he', hno⟩ := h
  rw [he, Except.ok.injEq] at he'
  rw [← he', hkey, not_and, not_lt] at hno
  exact (le_or_gt x i.second.key).imp id hno

/-! ## Merging -/

theorem keys_merge (hi : i.Plain) (hr : rhs.Plain) :
    (merge i rhs).keys = Set.Icc (min i.first.key rhs.first.key) (max i.second.key rhs.second.key) := by
  rw [RangePair.keys, merge, Version.key_stdMin hi.first hr.first,
    Version.key_stdMax hi.second hr.second]

/-- Two pairs that touch, as one. -/
theorem mem_keys_merge (hi : i.Plain) (hr : rhs.Plain) (ht : Touches i rhs)
    (hx : Clear x i.second) : x ∈ (merge i rhs).keys ↔ x ∈ i.keys ∨ x ∈ rhs.keys := by
  rw [keys_merge hi hr]
  rcases ht with ⟨hreach, hbelow⟩ | ⟨hlt, hnext⟩
  · rw [← Set.Icc_union_Icc' hreach hbelow]
    rfl
  · rcases hx.le_or_le hnext with hle | hge
    · -- `x` is on the side of `i`
      have hxr : x < rhs.first.key := hle.trans_lt hlt
      constructor
      · rintro ⟨hlow, -⟩
        exact .inl ⟨(min_le_iff.mp hlow).resolve_right (not_le.mpr hxr), hle⟩
      · rintro (⟨hlow, -⟩ | ⟨hlow, -⟩)
        · exact ⟨(min_le_left _ _).trans hlow, hle.trans (le_max_left _ _)⟩
        · exact absurd hlow (not_le.mpr hxr)
    · have hxi : i.second.key < x := hlt.trans_le hge
      constructor
      · rintro ⟨-, hup⟩
        exact .inr ⟨hge, (le_max_iff.mp hup).resolve_left (not_le.mpr hxi)⟩
      · rintro (⟨-, hup⟩ | ⟨-, hup⟩)
        · exact absurd hup (not_le.mpr hxi)
        · exact ⟨(min_le_right _ _).trans hge, hup.trans (le_max_right _ _)⟩

/-- The pair `u` that `prev` becomes, with the pairs that it takes up. -/
structure Grown (prev u : RangePair) (absorbed : List RangePair) : Prop where
  first : u.first = prev.first
  second : ∃ p ∈ prev :: absorbed, u.second = p.second
  keys : u.keys = prev.keys ∪ held absorbed ∩ Set.Ici prev.first.key
  above : ∀ p ∈ prev :: absorbed, p.second.key ≤ u.second.key

theorem exists_grown (hprev : prev.Plain) (hl : ∀ p ∈ l, p.Plain) :
    ∃ absorbed rest u, l = absorbed ++ rest ∧ mergeFollowing prev l = u :: rest ∧
      Grown prev u absorbed ∧ ∀ q ∈ rest.head?, u.second.key < q.first.key := by
  have hself : ∀ prev : RangePair, Grown prev prev [] := by
    intro prev
    refine ⟨rfl, ⟨prev, List.mem_cons_self, rfl⟩, ?_, ?_⟩
    · have hnil : held ([] : List RangePair) = ∅ := Set.eq_empty_iff_forall_notMem.mpr fun x =>
        not_mem_held_nil
      rw [hnil, Set.empty_inter, Set.union_empty]
    · intro p hp
      rw [List.mem_singleton.mp hp]
  induction l generalizing prev with
  | nil => exact ⟨[], [], prev, rfl, rfl, hself prev, fun q hq => by cases hq⟩
  | cons i rest ih =>
    have hi := hl i List.mem_cons_self
    rw [mergeFollowing]
    split
    · rename_i hlt
      refine ⟨[], i :: rest, prev, rfl, rfl, hself prev, ?_⟩
      intro q hq
      cases hq
      exact (Version.lt_iff hprev.second hi.first).mp hlt
    · rename_i hge
      rw [Version.lt_iff hprev.second hi.first, not_lt] at hge
      have hkey := Version.key_stdMax hprev.second hi.second
      have hplain : RangePair.Plain ⟨prev.first, stdMax Version.lt prev.second i.second⟩ :=
        ⟨hprev.first, Version.of_stdMax (p := fun v => v.isBranch = false) hprev.second hi.second⟩
      obtain ⟨absorbed, rest', u, hrest, hu, hgrown, hhead⟩ :=
        ih hplain fun p hp => hl p (List.mem_cons_of_mem _ hp)
      refine ⟨i :: absorbed, rest', u, by rw [hrest]; rfl, hu, ⟨hgrown.first, ?_, ?_, ?_⟩, hhead⟩
      · obtain ⟨p, hp, hsecond⟩ := hgrown.second
        rcases List.mem_cons.mp hp with rfl | hp
        · rcases Versions.stdMax_cases Version.lt prev.second i.second with h | h
          · exact ⟨prev, List.mem_cons_self, hsecond.trans h⟩
          · exact ⟨i, List.mem_cons_of_mem _ List.mem_cons_self, hsecond.trans h⟩
        · exact ⟨p, List.mem_cons_of_mem _ (List.mem_cons_of_mem _ hp), hsecond⟩
      · -- what is above `prev` up to the end of `i` is in `i`
        have hstep : RangePair.keys ⟨prev.first, stdMax Version.lt prev.second i.second⟩ =
            prev.keys ∪ i.keys ∩ Set.Ici prev.first.key := by
          ext x
          show x ∈ Set.Icc _ _ ↔ _
          rw [hkey]
          constructor
          · rintro ⟨hlow, hup⟩
            by_cases hx : x ≤ prev.second.key
            · exact .inl ⟨hlow, hx⟩
            · have hxi : i.first.key ≤ x := hge.trans (not_le.mp hx).le
              exact .inr ⟨⟨hxi, (le_max_iff.mp hup).resolve_left hx⟩, hlow⟩
          · rintro (⟨hlow, hup⟩ | ⟨⟨-, hup⟩, hlow⟩)
            · exact ⟨hlow, hup.trans (le_max_left _ _)⟩
            · exact ⟨hlow, hup.trans (le_max_right _ _)⟩
        have hheld : held (i :: absorbed) = i.keys ∪ held absorbed :=
          Set.ext fun x => mem_held_cons
        rw [hgrown.keys, hstep, hheld, Set.union_inter_distrib_right, Set.union_assoc]
      · intro p hp
        have hmax := hgrown.above _ List.mem_cons_self
        rw [hkey] at hmax
        rcases List.mem_cons.mp hp with rfl | hp
        · exact (le_max_left _ _).trans hmax
        rcases List.mem_cons.mp hp with rfl | hp
        · exact (le_max_right _ _).trans hmax
        · exact hgrown.above p (List.mem_cons_of_mem _ hp)

/-! ## Adding a pair -/

/-- The first pair that does not end before `x` holds it, if any does. -/
def Settled (x : Key) : List RangePair → Prop
  | [] => True
  | p :: l => (p.second.key < x → Settled x l) ∧ (x ≤ p.second.key → x ∈ held l → x ∈ p.keys)

theorem settled_singleton (x : Key) (p : RangePair) : Settled x [p] :=
  ⟨fun _ => trivial, fun _ h => absurd h not_mem_held_nil⟩

theorem Settled.append_of_not_mem (h : Settled x l) (hp : x ∉ p.keys) : Settled x (l ++ [p]) := by
  induction l with
  | nil => exact settled_singleton x p
  | cons q l ih =>
    refine ⟨fun hq => ih (h.1 hq), fun hq hx => h.2 hq ?_⟩
    exact (mem_held_append.mp hx).resolve_right fun hx => hp (mem_held_singleton.mp hx)

theorem Settled.of_append (h : Settled x (l ++ m)) (hl : ∀ p ∈ l, p.second.key < x) :
    Settled x m := by
  induction l with
  | nil => exact h
  | cons p l ih =>
    exact ih (h.1 (hl p List.mem_cons_self)) fun q hq => hl q (List.mem_cons_of_mem _ hq)

/-- What no pair may do: be a branch, or end at a version that `x` is not clear of. -/
structure Sound (x : Key) (p : RangePair) : Prop where
  plain : p.Plain
  clear : Clear x p.second

/-- Where two pairs touch and neither reaches down to `x`, it is not behind the end of the first. -/
theorem le_second_of_lt (hx : Clear x i.second) (ht : Touches i rhs) (h : x < rhs.first.key) :
    x ≤ i.second.key := by
  rcases ht with ⟨hreach, -⟩ | ⟨-, hnext⟩
  · exact (h.trans_le hreach).le
  · exact (hx.le_or_le hnext).resolve_right (not_le.mpr h)

section

variable {l' : List RangePair} (hr : rhs.Plain) (hl : ∀ p ∈ l, Sound x p)

include hr hl

/-- Nothing is gained. -/
theorem Added.held_subset (h : Added rhs l l') (hx : x ∈ held l') : x ∈ held l ∨ x ∈ rhs.keys := by
  cases h with
  | appended above =>
    rcases mem_held_append.mp hx with hx | hx
    · exact .inl hx
    · exact .inr (mem_held_singleton.mp hx)
  | @inserted pre rest i above reach below =>
    rw [mem_held_append, List.cons_append, mem_held_cons, mem_held_append, mem_held_singleton] at hx
    rw [mem_held_append]
    rcases hx with hx | hx | hx | hx
    · exact .inl (.inl hx)
    · exact .inr hx
    · exact .inl (.inr hx)
    · exact .inr hx
  | @merged pre rest i above touch =>
    have hi : Sound x i := hl i (List.mem_append_right _ List.mem_cons_self)
    obtain ⟨absorbed, rest', u, hrest, hu, hgrown, -⟩ := exists_grown (plain_merge hi.plain hr)
      fun p hp => (hl p (List.mem_append_right _ (List.mem_cons_of_mem _ hp))).plain
    rw [hu, mem_held_append, mem_held_cons, hgrown.keys] at hx
    rw [hrest, mem_held_append, mem_held_cons, mem_held_append]
    rcases hx with hx | (hx | hx) | hx
    · exact .inl (.inl hx)
    · rcases (mem_keys_merge hi.plain hr touch hi.clear).mp hx with hx | hx
      · exact .inl (.inr (.inl hx))
      · exact .inr hx
    · exact .inl (.inr (.inr (.inl hx.1)))
    · exact .inl (.inr (.inr (.inr hx)))

omit hl in
/-- A pair that ends below the new one, in front. -/
theorem Added.spec_cons (h : Added rhs l l') (hl : ∀ q ∈ p :: l, Sound x q)
    (hp : p.second.key < rhs.first.key) (hs : Settled x (p :: l))
    (ih : Settled x l → (x ∈ held l' ↔ x ∈ held l ∨ x ∈ rhs.keys) ∧ Settled x l') :
    (x ∈ held (p :: l') ↔ x ∈ held (p :: l) ∨ x ∈ rhs.keys) ∧ Settled x (p :: l') := by
  rw [mem_held_cons, mem_held_cons, or_assoc]
  by_cases hx : p.second.key < x
  · obtain ⟨hheld, hsettled⟩ := ih (hs.1 hx)
    exact ⟨or_congr_right hheld, fun _ => hsettled, fun hle => absurd hx (not_lt.mpr hle)⟩
  · -- `x` is below the new pair, and `p` decides
    have hle := not_lt.mp hx
    have hno : x ∉ rhs.keys := fun h => absurd (hle.trans_lt hp) (not_lt.mpr h.1)
    have hsub : x ∈ held l' → x ∈ p.keys := by
      intro hx'
      have hmem := h.held_subset hr (fun q hq => hl q (List.mem_cons_of_mem _ hq)) hx'
      exact hs.2 hle (hmem.resolve_right hno)
    refine ⟨⟨?_, ?_⟩, fun h => absurd h hx, fun _ => hsub⟩
    · rintro (h | h)
      · exact .inl h
      · exact .inl (hsub h)
    · rintro (h | h | h)
      · exact .inl h
      · exact .inl (hs.2 hle h)
      · exact absurd h hno

omit hr hl in
/-- The new pair in front of one that it ends below. -/
theorem settled_inserted {rest : List RangePair} (hs : Settled x (i :: rest))
    (reach : rhs.first.key ≤ i.second.key) (below : rhs.second.key < i.first.key) :
    (x ∈ held (rhs :: i :: rest ++ [rhs]) ↔ x ∈ held (i :: rest) ∨ x ∈ rhs.keys) ∧
      Settled x (rhs :: i :: rest ++ [rhs]) := by
  refine ⟨?_, ?_⟩
  · rw [List.cons_append, mem_held_cons, mem_held_append, mem_held_singleton]
    tauto
  · by_cases hx : x ∈ rhs.keys
    · exact ⟨fun h => absurd h (not_lt.mpr hx.2), fun _ _ => hx⟩
    · have hrest : Settled x (i :: rest ++ [rhs]) := Settled.append_of_not_mem hs hx
      refine ⟨fun _ => hrest, fun hle hheld => ?_⟩
      -- below both pairs nothing is held
      have hlow : x < rhs.first.key := not_le.mp fun h => hx ⟨h, hle⟩
      rw [List.append_eq, mem_held_append, mem_held_cons, mem_held_singleton] at hheld
      have hi : x ∉ i.keys := fun h => absurd (hle.trans_lt below) (not_lt.mpr h.1)
      rcases hheld with (h | h) | h
      · exact absurd h hi
      · exact absurd (hs.2 (hlow.trans_le reach).le h) hi
      · exact h

omit hl in
/-- The new pair merged with the first one, and with those that follow. -/
theorem settled_merged {rest : List RangePair} (hl : ∀ p ∈ i :: rest, Sound x p)
    (touch : Touches i rhs) (hs : Settled x (i :: rest)) :
    (x ∈ held (mergeFollowing (merge i rhs) rest) ↔ x ∈ held (i :: rest) ∨ x ∈ rhs.keys) ∧
      Settled x (mergeFollowing (merge i rhs) rest) := by
  have hi : Sound x i := hl i List.mem_cons_self
  obtain ⟨absorbed, rest', u, hrest, hu, hgrown, -⟩ := exists_grown (plain_merge hi.plain hr)
    fun p hp => (hl p (List.mem_cons_of_mem _ hp)).plain
  have hmerge := mem_keys_merge hi.plain hr touch hi.clear
  have hfirst : (merge i rhs).first.key = min i.first.key rhs.first.key :=
    Version.key_stdMin hi.plain.first hr.first
  -- what follows holds nothing below the merged pair
  have hlow : x ∈ held rest → (merge i rhs).first.key ≤ x := by
    intro hx
    by_contra hlt
    rw [hfirst, not_le, lt_min_iff] at hlt
    have hkeys := hs.2 (le_second_of_lt hi.clear touch hlt.2) hx
    exact absurd hlt.1 (not_lt.mpr hkeys.1)
  rw [hu]
  refine ⟨⟨fun h => ?_, fun h => ?_⟩, fun hlt => ?_, fun hle hx => ?_⟩
  · exact (Added.merged (List.forall_mem_nil _) touch).held_subset hr hl (hu ▸ h)
  · rw [mem_held_cons, hgrown.keys, Set.mem_union, hmerge]
    rw [mem_held_cons, or_right_comm] at h
    rcases h with h | h
    · exact .inl (.inl h)
    · have hge := hlow h
      rw [hrest, mem_held_append] at h
      exact h.imp (fun h => .inr ⟨h, hge⟩) id
  · have hends : ∀ p ∈ absorbed, p.second.key < x := fun p hp =>
      (hgrown.above p (List.mem_cons_of_mem _ hp)).trans_lt hlt
    have hmax : max i.second.key rhs.second.key ≤ u.second.key := by
      rw [← Version.key_stdMax hi.plain.second hr.second]
      exact hgrown.above _ List.mem_cons_self
    have hrest' := hs.1 (((le_max_left _ _).trans hmax).trans_lt hlt)
    rw [hrest] at hrest'
    exact hrest'.of_append hends
  · have hge := hlow (by rw [hrest]; exact mem_held_append.mpr (.inr hx))
    refine ⟨?_, hle⟩
    rw [hgrown.first]
    exact hge

/-- **A union**: the pairs hold what they held before and what the new one holds, and `x` is settled
again. -/
theorem Added.spec (h : Added rhs l l') (hs : Settled x l) :
    (x ∈ held l' ↔ x ∈ held l ∨ x ∈ rhs.keys) ∧ Settled x l' := by
  cases h with
  | appended above =>
    induction l with
    | nil => exact ⟨mem_held_append.trans (or_congr_right mem_held_singleton), settled_singleton x rhs⟩
    | cons p l ih =>
      obtain ⟨hp, habove⟩ := List.forall_mem_cons.mp above
      refine (Added.appended habove).spec_cons hr hl hp.below hs ?_
      exact fun hs => ih (fun q hq => hl q (List.mem_cons_of_mem _ hq)) hs habove
  | @inserted pre rest i above reach below =>
    induction pre with
    | nil =>
      exact settled_inserted hs reach below
    | cons p pre ih =>
      obtain ⟨hp, habove⟩ := List.forall_mem_cons.mp above
      refine (Added.inserted habove reach below).spec_cons hr hl hp.below hs ?_
      exact ih habove fun q hq => hl q (List.mem_cons_of_mem _ hq)
  | @merged pre rest i above touch =>
    induction pre with
    | nil =>
      exact settled_merged hr hl touch hs
    | cons p pre ih =>
      obtain ⟨hp, habove⟩ := List.forall_mem_cons.mp above
      refine (Added.merged habove touch).spec_cons hr hl hp.below hs ?_
      exact ih habove fun q hq => hl q (List.mem_cons_of_mem _ hq)

omit hl in
/-- A union has no ends but those of its pairs. -/
theorem Added.ends (h : Added rhs l l') (hl : ∀ p ∈ l, p.Plain) {q : Version → Prop}
    (hq : ∀ p ∈ l, q p.second) (hrhs : q rhs.second) : ∀ p ∈ l', p.Plain ∧ q p.second := by
  have hold : ∀ p ∈ l, p.Plain ∧ q p.second := fun p hp => ⟨hl p hp, hq p hp⟩
  cases h with
  | appended above =>
    intro p hp
    rcases List.mem_append.mp hp with hp | hp
    · exact hold p hp
    · rw [List.mem_singleton.mp hp]
      exact ⟨hr, hrhs⟩
  | @inserted pre rest i above reach below =>
    intro p hp
    simp only [List.mem_append, List.mem_cons, List.not_mem_nil, or_false] at hp hold
    rcases hp with hp | (hp | hp) | hp
    · exact hold p (.inl hp)
    · exact hp ▸ ⟨hr, hrhs⟩
    · exact hold p (.inr hp)
    · exact hp ▸ ⟨hr, hrhs⟩
  | @merged pre rest i above touch =>
    have hi := hold i (List.mem_append_right _ List.mem_cons_self)
    have hrest : ∀ p ∈ rest, p.Plain ∧ q p.second := fun p hp =>
      hold p (List.mem_append_right _ (List.mem_cons_of_mem _ hp))
    have hmerge : (merge i rhs).Plain ∧ q (merge i rhs).second :=
      ⟨plain_merge hi.1 hr, Version.of_stdMax hi.2 hrhs⟩
    obtain ⟨absorbed, rest', u, rfl, hu, hgrown, -⟩ :=
      exists_grown hmerge.1 fun p hp => (hrest p hp).1
    intro p hp
    rw [hu] at hp
    rcases List.mem_append.mp hp with hp | hp
    · exact hold p (List.mem_append_left _ hp)
    rcases List.mem_cons.mp hp with rfl | hp
    · obtain ⟨o, ho, hsecond⟩ := hgrown.second
      have ho : o.Plain ∧ q o.second := by
        rcases List.mem_cons.mp ho with rfl | ho
        · exact hmerge
        · exact hrest o (List.mem_append_left _ ho)
      exact ⟨⟨hgrown.first ▸ hmerge.1.first, hsecond ▸ ho.1.second⟩, hsecond ▸ ho.2⟩
    · exact hrest p (List.mem_append_right _ hp)

theorem Added.sound (h : Added rhs l l') (hclear : Clear x rhs.second) : ∀ p ∈ l', Sound x p := by
  intro p hp
  obtain ⟨hplain, hend⟩ :=
    h.ends hr (fun p hp => (hl p hp).plain) (fun p hp => (hl p hp).clear) hclear p hp
  exact ⟨hplain, hend⟩

end

/-! ## The operators -/

/-- A range in whose pairs `x` is settled. -/
structure Good (x : Key) (r : VersionRange) : Prop where
  sound : ∀ p ∈ r.range, Sound x p
  settled : Settled x r.range

theorem good_of_nil {r : VersionRange} (h : r.range = []) : Good x r := by
  refine ⟨?_, ?_⟩
  · rw [h]
    exact fun p hp => absurd hp List.not_mem_nil
  · rw [h]
    trivial

variable {r a b : VersionRange} {ps : List RangePair}

theorem orPair_spec (hb : r.isBranch = false) (hr : Good x r) (hp : Sound x p) :
    ∃ r', r.orPair p = .ok r' ∧ r'.isBranch = false ∧ Good x r' ∧
      (x ∈ held r'.range ↔ x ∈ held r.range ∨ x ∈ p.keys) := by
  have hinc : ∀ q ∈ r.range, ∃ e, q.second.incrementVersion = .ok e := by
    intro q hq
    obtain ⟨e, he, -⟩ := (hr.sound q hq).clear
    exact ⟨e, he⟩
  obtain ⟨l', hl'⟩ := addPair_ok p hinc
  have hadded := added_of_addPair hp.plain (fun q hq => (hr.sound q hq).plain) hl'
  obtain ⟨hheld, hsettled⟩ := hadded.spec hp.plain hr.sound hr.settled
  refine ⟨{ r with range := l' }, ?_, hb, ⟨hadded.sound hp.plain hr.sound hp.clear, hsettled⟩, hheld⟩
  rw [orPair, hb, (p.plain_iff.mp hp.plain), if_neg Bool.false_ne_true, if_neg Bool.false_ne_true,
    hl']
  rfl

theorem foldlM_orPair_spec (hb : r.isBranch = false) (hr : Good x r) (hps : ∀ p ∈ ps, Sound x p) :
    ∃ r', ps.foldlM orPair r = .ok r' ∧ r'.isBranch = false ∧ Good x r' ∧
      (x ∈ held r'.range ↔ x ∈ held r.range ∨ x ∈ held ps) := by
  induction ps generalizing r with
  | nil => exact ⟨r, rfl, hb, hr, (or_iff_left not_mem_held_nil).symm⟩
  | cons p ps ih =>
    obtain ⟨r₁, hr₁, hb₁, hgood₁, hheld₁⟩ := orPair_spec hb hr (hps p List.mem_cons_self)
    obtain ⟨r₂, hr₂, hb₂, hgood₂, hheld₂⟩ :=
      ih hb₁ hgood₁ fun q hq => hps q (List.mem_cons_of_mem _ hq)
    refine ⟨r₂, ?_, hb₂, hgood₂, ?_⟩
    · rw [List.foldlM_cons, hr₁]
      exact hr₂
    · rw [hheld₂, hheld₁, mem_held_cons, or_assoc]

theorem or_spec (ha : a.isBranch = false) (hb : b.isBranch = false) (hga : Good x a)
    (hgb : Good x b) : ∃ r, a.or b = .ok r ∧ r.isBranch = false ∧ Good x r ∧
      (x ∈ held r.range ↔ x ∈ held a.range ∨ x ∈ held b.range) := by
  rw [or, ha, hb, if_neg Bool.false_ne_true, if_neg Bool.false_ne_true]
  exact foldlM_orPair_spec ha hga hgb.sound

theorem mem_meets {o : RangePair} :
    o ∈ meets a b ↔ ∃ p ∈ a.range, ∃ q ∈ b.range, p.and q = some o := by
  rw [meets, List.mem_flatMap]
  exact exists_congr fun p => and_congr_right fun _ => List.mem_filterMap

theorem meets_spec (hga : ∀ p ∈ a.range, Sound x p) (hgb : ∀ p ∈ b.range, Sound x p) :
    (∀ o ∈ meets a b, Sound x o) ∧
      (x ∈ held (meets a b) ↔ x ∈ held a.range ∧ x ∈ held b.range) := by
  refine ⟨fun o ho => ?_, fun h => ?_, fun h => ?_⟩
  · obtain ⟨p, hp, q, hq, ho⟩ := mem_meets.mp ho
    obtain ⟨hplain, -, -, -, hend⟩ := (hga p hp).plain.of_and (hgb q hq).plain ho
    refine ⟨hplain, ?_⟩
    rcases hend with h | h
    · exact h ▸ (hga p hp).clear
    · exact h ▸ (hgb q hq).clear
  · obtain ⟨o, ho, hx⟩ := h
    obtain ⟨p, hp, q, hq, ho⟩ := mem_meets.mp ho
    rw [(hga p hp).plain.keys_and (hgb q hq).plain ho] at hx
    exact ⟨⟨p, hp, hx.1⟩, ⟨q, hq, hx.2⟩⟩
  · obtain ⟨⟨p, hp, hxp⟩, ⟨q, hq, hxq⟩⟩ := h
    rcases (hga p hp).plain.and_cases (hgb q hq).plain with ⟨-, hlt⟩ | ⟨o, ho, -⟩
    · exact absurd ((max_le hxp.1 hxq.1).trans (le_min hxp.2 hxq.2)) (not_le.mpr hlt)
    · refine ⟨o, mem_meets.mpr ⟨p, hp, q, hq, ho⟩, ?_⟩
      rw [(hga p hp).plain.keys_and (hgb q hq).plain ho]
      exact ⟨hxp, hxq⟩

theorem and_spec (ha : a.isBranch = false) (hb : b.isBranch = false) (hga : Good x a)
    (hgb : Good x b) : ∃ r, a.and b = .ok r ∧ r.isBranch = false ∧ Good x r ∧
      (x ∈ held r.range ↔ x ∈ held a.range ∧ x ∈ held b.range) := by
  obtain ⟨hsound, hheld⟩ := meets_spec hga.sound hgb.sound
  obtain ⟨r, hr, hbr, hgr, hmem⟩ := foldlM_orPair_spec (r := empty) rfl (good_of_nil rfl) hsound
  refine ⟨r, ?_, hbr, hgr, ?_⟩
  · rw [and, ha, hb, if_neg Bool.false_ne_true, if_neg Bool.false_ne_true]
    exact hr
  · rw [hmem, hheld]
    exact or_iff_right not_mem_held_nil

/-- What a range that is no branch has. -/
theorem hasVersion_iff {v : Version} (hr : r.isBranch = false) (hv : v.isBranch = false)
    (h : ∀ p ∈ r.range, p.Plain) : r.hasVersion v = true ↔ v.key ∈ held r.range := by
  rw [hasVersion, hr, hv, Bool.and_false, Bool.or_false, if_neg Bool.false_ne_true,
    if_neg Bool.false_ne_true, List.any_eq_true]
  exact exists_congr fun p => and_congr_right fun hp => (h p hp).hasVersion_iff hv

end VersionRange

end Primitives.Version1
