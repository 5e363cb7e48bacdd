import Primitives.Version1.Store

/-!
# The order of the intervals

The vector of a range is to be sorted, and `isOutside` looks at its first and its last pair only. It
stays sorted while every pair that is added touches one of the pairs or is above them all
(`placed`). A pair that is put in before others stands behind them too, and then the last pair is not
the greatest.

An intersection needs no such condition: its pairs come in their order.
-/

set_option autoImplicit false

namespace Primitives.Version1

open Lib
open Versions (Key)

namespace VersionRange

variable {l l' m : List RangePair} {p rhs : RangePair}

/-! ## Sorted vectors -/

structure Upright (p : RangePair) : Prop where
  plain : p.Plain
  le : p.first.key ≤ p.second.key

structure Sorted (l : List RangePair) : Prop where
  upright : ∀ p ∈ l, Upright p
  apart : l.Pairwise fun p q => p.second.key < q.first.key

theorem sorted_nil : Sorted [] := ⟨List.forall_mem_nil _, List.Pairwise.nil⟩

/-- `Touches`, as the code tests it. -/
def touches (i rhs : RangePair) : Bool :=
  if i.second.lt rhs.first then
    match i.second.incrementVersion with
    | .ok v => v.eq rhs.first
    | .error _ => false
  else !i.first.gt rhs.second

/-- The new pair touches one of the pairs, or it is above them all. -/
def placed (rhs : RangePair) (l : List RangePair) : Bool :=
  l.any (touches · rhs) || l.all (·.second.lt rhs.first)

theorem placed_of_below (hr : rhs.Plain) (hl : ∀ p ∈ l, p.Plain)
    (h : ∀ p ∈ l, p.second.key < rhs.first.key) : placed rhs l = true := by
  rw [placed, Bool.or_eq_true, List.all_eq_true]
  exact .inr fun p hp => (Version.lt_iff (hl p hp).second hr.first).mpr (h p hp)

/-- Before a pair that is above it a pair is put in only if it is not placed. -/
theorem placed_inserted {pre rest : List RangePair} {i : RangePair} (hr : rhs.Plain)
    (hl : Sorted (pre ++ i :: rest)) (above : ∀ p ∈ pre, Passes p rhs)
    (reach : rhs.first.key ≤ i.second.key) (below : rhs.second.key < i.first.key) :
    ¬ placed rhs (pre ++ i :: rest) = true := by
  have hplain : ∀ p ∈ pre ++ i :: rest, p.Plain := fun p hp => (hl.upright p hp).plain
  have hafter : ∀ p ∈ i :: rest, rhs.first.key ≤ p.second.key ∧ rhs.second.key < p.first.key := by
    have hi := hl.upright i (List.mem_append_right _ List.mem_cons_self)
    have hrest := (List.pairwise_cons.mp (List.pairwise_append.mp hl.apart).2.1).1
    intro p hp
    rcases List.mem_cons.mp hp with rfl | hp'
    · exact ⟨reach, below⟩
    · have hup := hl.upright p (List.mem_append_right _ hp)
      have hlt : i.second.key < p.first.key := hrest p hp'
      exact ⟨reach.trans (hlt.le.trans hup.le), below.trans (hi.le.trans_lt hlt)⟩
  rw [placed, Bool.or_eq_true, List.any_eq_true, List.all_eq_true]
  rintro (⟨p, hp, htouch⟩ | hall)
  · have hp' := hplain p hp
    rw [touches] at htouch
    rcases List.mem_append.mp hp with hpre | hpost
    · rw [if_pos ((Version.lt_iff hp'.second hr.first).mpr (above p hpre).below)] at htouch
      cases hinc : p.second.incrementVersion with
      | error f =>
        rw [hinc] at htouch
        exact Bool.false_ne_true htouch
      | ok e =>
        have he : e.isBranch = false := (Version.isBranch_incrementVersion hinc).trans hp'.second
        rw [hinc, Version.eq_iff he hr.first] at htouch
        exact (above p hpre).apart e hinc htouch
    · have hnot : ¬ p.second.lt rhs.first = true := by
        rw [Version.lt_iff hp'.second hr.first]
        exact not_lt.mpr (hafter p hpost).1
      rw [if_neg hnot, (Version.gt_iff hp'.first hr.second).mpr (hafter p hpost).2] at htouch
      exact Bool.false_ne_true htouch
  · have hi := List.mem_append_right pre (List.mem_cons_self (a := i) (l := rest))
    have hlt := (Version.lt_iff (hplain i hi).second hr.first).mp (hall i hi)
    exact absurd hlt (not_lt.mpr reach)

/-- **One step**: a pair that is placed keeps the vector sorted. -/
theorem Added.sorted (h : Added rhs l l') (hl : Sorted l) (hr : Upright rhs)
    (hp : placed rhs l = true) : Sorted l' := by
  cases h with
  | appended above =>
    refine ⟨fun p hp => ?_, List.pairwise_append.mpr ⟨hl.apart, List.pairwise_singleton _ _, ?_⟩⟩
    · rcases List.mem_append.mp hp with hp | hp
      · exact hl.upright p hp
      · exact List.mem_singleton.mp hp ▸ hr
    · intro p hp q hq
      rw [List.mem_singleton.mp hq]
      exact (above p hp).below
  | inserted above reach below => exact absurd hp (placed_inserted hr.plain hl above reach below)
  | @merged pre rest i above touch =>
    obtain ⟨hpre, hirest, hcross⟩ := List.pairwise_append.mp hl.apart
    obtain ⟨hi, hrest⟩ := List.pairwise_cons.mp hirest
    have hiup := hl.upright i (List.mem_append_right _ List.mem_cons_self)
    have hrestup : ∀ p ∈ rest, Upright p := fun p hp =>
      hl.upright p (List.mem_append_right _ (List.mem_cons_of_mem _ hp))
    obtain ⟨absorbed, rest', u, rfl, hu, hgrown, hhead⟩ :=
      exists_grown (plain_merge hiup.plain hr.plain) fun p hp => (hrestup p hp).plain
    obtain ⟨-, hrest', -⟩ := List.pairwise_append.mp hrest
    have hfirst : u.first.key = min i.first.key rhs.first.key := by
      rw [hgrown.first]
      exact Version.key_stdMin hiup.plain.first hr.plain.first
    have hsecond : max i.second.key rhs.second.key ≤ u.second.key := by
      rw [← Version.key_stdMax hiup.plain.second hr.plain.second]
      exact hgrown.above _ List.mem_cons_self
    have huplain : u.Plain := by
      have hends := Added.ends hr.plain (Added.merged above touch) (fun p hp => (hl.upright p hp).plain)
        (q := fun _ => True) (fun _ _ => trivial) trivial
      rw [hu] at hends
      exact (hends u (List.mem_append_right _ List.mem_cons_self)).1
    -- the merged pair ends before the first one that is left, and so before all of them
    have hafter : ∀ q ∈ rest', u.second.key < q.first.key := by
      cases rest' with
      | nil => exact fun q hq => absurd hq List.not_mem_nil
      | cons q₀ rest' =>
        have hq₀ := hhead q₀ rfl
        have hup := hrestup q₀ (List.mem_append_right _ List.mem_cons_self)
        intro q hq
        rcases List.mem_cons.mp hq with rfl | hq
        · exact hq₀
        · exact hq₀.trans (hup.le.trans_lt ((List.pairwise_cons.mp hrest').1 q hq))
    rw [hu]
    refine ⟨fun p hp => ?_, List.pairwise_append.mpr ⟨hpre, List.pairwise_cons.mpr ⟨hafter, hrest'⟩, ?_⟩⟩
    · rcases List.mem_append.mp hp with hp | hp
      · exact hl.upright p (List.mem_append_left _ hp)
      rcases List.mem_cons.mp hp with rfl | hp
      · refine ⟨huplain, ?_⟩
        rw [hfirst]
        exact (min_le_left _ _).trans (hiup.le.trans ((le_max_left _ _).trans hsecond))
      · exact hrestup p (List.mem_append_right _ hp)
    · intro p hp q hq
      rcases List.mem_cons.mp hq with rfl | hq
      · rw [hfirst, lt_min_iff]
        exact ⟨hcross p hp i List.mem_cons_self, (above p hp).below⟩
      · exact hcross p hp q (List.mem_cons_of_mem _ (List.mem_append_right _ hq))

/-- **The order summary**: what a sorted vector holds is between its first and its last pair. -/
theorem isOutside_eq_false {r : VersionRange} {v : Version} (hv : v.isBranch = false)
    (hr : Sorted r.range) (h : v.key ∈ held r.range) : r.isOutside v = false := by
  obtain ⟨p, hp, hx⟩ := h
  rw [isOutside, Bool.or_eq_false_iff, ltVersion, gtVersion]
  refine ⟨?_, ?_⟩
  · cases hlast : r.range.getLast? with
    | none => rfl
    | some q =>
      obtain ⟨pre, hpre⟩ := List.getLast?_eq_some_iff.mp hlast
      have hq := hr.upright q (List.mem_of_getLast? hlast)
      have hle : p.second.key ≤ q.second.key := by
        rw [hpre] at hp hr
        rcases List.mem_append.mp hp with hp | hp
        · have hlt := (List.pairwise_append.mp hr.apart).2.2 p hp q List.mem_cons_self
          exact hlt.le.trans hq.le
        · rw [List.mem_singleton.mp hp]
      rw [Bool.eq_false_iff, ne_eq, Version.lt_iff hq.plain.second hv, not_lt]
      exact hx.2.trans hle
  · cases hhead : r.range.head? with
    | none => rfl
    | some q =>
      obtain ⟨rest, hrest⟩ := List.head?_eq_some_iff.mp hhead
      have hq := hr.upright q (List.mem_of_mem_head? hhead)
      have hle : q.first.key ≤ p.first.key := by
        rw [hrest] at hp hr
        rcases List.mem_cons.mp hp with rfl | hp
        · exact le_refl _
        · exact hq.le.trans ((List.pairwise_cons.mp hr.apart).1 p hp).le
      rw [Bool.eq_false_iff, ne_eq, Version.gt_iff hq.plain.first hv, not_lt]
      exact hle.trans hx.1

/-! ## Unions in place -/

/-- The first version of a pair is not above the second one. -/
def inOrder (p : RangePair) : Bool := !p.second.lt p.first

theorem upright_of (hp : p.isBranch = false) (h : inOrder p = true) : Upright p := by
  have hplain := p.plain_iff.mpr hp
  refine ⟨hplain, ?_⟩
  rw [inOrder, Bool.not_eq_true', Bool.eq_false_iff, ne_eq,
    Version.lt_iff hplain.second hplain.first, not_lt] at h
  exact h

/-- All pairs are upright, and each is placed when it is added. -/
def allPlaced : VersionRange → List RangePair → Bool
  | _, [] => true
  | r, p :: ps =>
    (p.isBranch || inOrder p && placed p r.range) &&
      match r.orPair p with
      | .ok r' => allPlaced r' ps
      | .error _ => true

variable {r r' a b : VersionRange} {ps : List RangePair}

theorem Sorted.orPair (hr : Sorted r.range)
    (hp : (p.isBranch || inOrder p && placed p r.range) = true) (h : r.orPair p = .ok r') :
    Sorted r'.range := by
  rw [VersionRange.orPair] at h
  split at h
  · cases h
  split at h
  · split at h
    · cases h
      exact sorted_nil
    · cases h
  · rename_i hb
    have hb := Bool.eq_false_iff.mpr hb
    rw [hb, Bool.false_or, Bool.and_eq_true] at hp
    have hup := upright_of hb hp.1
    obtain ⟨l', hl', h⟩ := of_bind_eq_ok h
    cases h
    have hadded := added_of_addPair hup.plain (fun q hq => (hr.upright q hq).plain) hl'
    exact hadded.sorted hr hup hp.2

theorem Sorted.foldlM (hr : Sorted r.range) (hps : allPlaced r ps = true)
    (h : ps.foldlM VersionRange.orPair r = .ok r') : Sorted r'.range := by
  induction ps generalizing r with
  | nil =>
    cases h
    exact hr
  | cons p ps ih =>
    rw [allPlaced, Bool.and_eq_true] at hps
    rw [List.foldlM_cons] at h
    obtain ⟨r₁, hr₁, h⟩ := of_bind_eq_ok h
    rw [hr₁] at hps
    exact ih (hr.orPair hps.1 hr₁) hps.2 h

/-- Pairs that come in their order, above those that are there, are placed. -/
theorem Sorted.foldlM_of_sorted (hr : Sorted r.range) (hps : Sorted ps)
    (hbelow : ∀ p ∈ r.range, ∀ q ∈ ps, p.second.key < q.first.key)
    (h : ps.foldlM VersionRange.orPair r = .ok r') : Sorted r'.range := by
  induction ps generalizing r with
  | nil =>
    cases h
    exact hr
  | cons p ps ih =>
    obtain ⟨hp, hrest⟩ := List.forall_mem_cons.mp hps.upright
    obtain ⟨hlt, hapart⟩ := List.pairwise_cons.mp hps.apart
    have hplain : ∀ q ∈ r.range, q.Plain := fun q hq => (hr.upright q hq).plain
    have hplaced : placed p r.range = true :=
      placed_of_below hp.plain hplain fun q hq => hbelow q hq p List.mem_cons_self
    have hb := p.plain_iff.mp hp.plain
    rw [List.foldlM_cons] at h
    obtain ⟨r₁, hr₁, h⟩ := of_bind_eq_ok h
    rw [VersionRange.orPair] at hr₁
    split at hr₁
    · cases hr₁
    rw [hb, if_neg Bool.false_ne_true] at hr₁
    obtain ⟨l', hl', hr₁⟩ := of_bind_eq_ok hr₁
    cases hr₁
    have hadded := added_of_addPair hp.plain hplain hl'
    refine ih (hadded.sorted hr hp hplaced) ⟨hrest, hapart⟩ (fun q hq o ho => ?_) h
    have hends := hadded.ends hp.plain hplain (q := fun e => ∀ o ∈ ps, e.key < o.first.key)
      (fun q hq o ho => hbelow q hq o (List.mem_cons_of_mem _ ho)) hlt
    exact (hends q hq).2 o ho

/-- The pairs of an intersection are sorted before they are added. -/
theorem meets_sorted (ha : Sorted a.range) (hb : Sorted b.range) : Sorted (meets a b) := by
  have hand : ∀ p ∈ a.range, ∀ q ∈ b.range, ∀ o, p.and q = some o → Upright o ∧
      o.first.key = max p.first.key q.first.key ∧ o.second.key = min p.second.key q.second.key := by
    intro p hp q hq o ho
    obtain ⟨hplain, hfirst, hsecond, hle, -⟩ :=
      (ha.upright p hp).plain.of_and (hb.upright q hq).plain ho
    exact ⟨⟨hplain, hle⟩, hfirst, hsecond⟩
  refine ⟨fun o ho => ?_, ?_⟩
  · obtain ⟨p, hp, q, hq, ho⟩ := mem_meets.mp ho
    exact (hand p hp q hq o ho).1
  · rw [meets, List.pairwise_flatMap]
    refine ⟨fun p hp => ?_, ?_⟩
    · -- the pairs of one `p` come as those of `b`
      rw [List.pairwise_filterMap]
      refine hb.apart.imp_of_mem fun {q q'} hq hq' hlt o ho o' ho' => ?_
      rw [(hand p hp q hq o ho).2.2, (hand p hp q' hq' o' ho').2.1]
      exact (min_le_right _ _).trans_lt (hlt.trans_le (le_max_right _ _))
    · refine ha.apart.imp_of_mem fun {p p'} hp hp' hlt o ho o' ho' => ?_
      obtain ⟨q, hq, ho⟩ := List.mem_filterMap.mp ho
      obtain ⟨q', hq', ho'⟩ := List.mem_filterMap.mp ho'
      rw [(hand p hp q hq o ho).2.2, (hand p' hp' q' hq' o' ho').2.1]
      exact (min_le_left _ _).trans_lt (hlt.trans_le (le_max_left _ _))

theorem Sorted.or (ha : Sorted a.range) (hb : allPlaced a b.range = true) (h : a.or b = .ok r) :
    Sorted r.range := by
  rw [VersionRange.or] at h
  split at h
  · cases h
  split at h
  · split at h
    · cases h
      exact sorted_nil
    · cases h
  · exact ha.foldlM hb h

/-- A union with the empty range. -/
theorem Sorted.empty_or (ha : Sorted a.range) (h : empty.or a = .ok r) : Sorted r.range := by
  rw [VersionRange.or, if_neg (by decide)] at h
  split at h
  · cases h
    exact sorted_nil
  · exact sorted_nil.foldlM_of_sorted ha (List.forall_mem_nil _) h

theorem Sorted.and (ha : Sorted a.range) (hb : Sorted b.range) (h : a.and b = .ok r) :
    Sorted r.range := by
  rw [VersionRange.and] at h
  split at h
  · cases h
  split at h
  · split at h
    · cases h
      exact sorted_nil
    · cases h
  · exact (sorted_nil : Sorted empty.range).foldlM_of_sorted (meets_sorted ha hb)
      (List.forall_mem_nil _) h

end VersionRange

open VersionRange (Sorted sorted_nil allPlaced)

/-! ## Runs -/

/-- The pairs that an action adds are in order, and placed. -/
def Action.placed (s : Sets) : Action → Bool
  | range r =>
    match r.pairs with
    | .ok ps => allPlaced VersionRange.empty ps
    | .error _ => true
  | andSet => true
  | orSet =>
    match s.andSet, s.orSet with
    | some vrAnd, some vr => allPlaced vr vrAnd.range
    | _, _ => true

def parsePlaced : Sets → List Action → Bool
  | _, [] => true
  | s, a :: as =>
    a.placed s &&
      match a.step s with
      | .ok s' => parsePlaced s' as
      | .error _ => true

def Op.placed (st : Store) : Op → Bool
  | parse _ as => parsePlaced Sets.init as
  | or _ x y => allPlaced (st x) (st y).range
  | all _ | and _ _ _ => true

theorem Range.eval_sorted {r : Range} {s : Sets} (hr : (Action.range r).placed s = true)
    {vr : VersionRange} (h : r.eval = .ok vr) : Sorted vr.range := by
  obtain ⟨ps, hps, hfold⟩ := of_bind_eq_ok h
  rw [Action.placed, hps] at hr
  exact (sorted_nil : Sorted VersionRange.empty.range).foldlM hr hfold

/-- The ranges that a parser has are sorted. -/
structure Sets.Sorted (s : Sets) : Prop where
  range : ∀ r ∈ s.range, VersionRange.Sorted r.range
  andSet : ∀ r ∈ s.andSet, VersionRange.Sorted r.range
  orSet : ∀ r ∈ s.orSet, VersionRange.Sorted r.range

theorem Sets.sorted_init : Sets.init.Sorted where
  range r hr := by cases hr
  andSet r hr := by cases hr
  orSet r hr := by cases hr

theorem Action.step_sorted {s s' : Sets} {a : Action} (hs : s.Sorted) (ha : a.placed s = true)
    (h : a.step s = .ok s') : s'.Sorted := by
  have hnone : ∀ r ∈ (none : Option VersionRange), Sorted r.range := fun r hr => by cases hr
  have hsome : ∀ {vr : VersionRange}, Sorted vr.range → ∀ r ∈ some vr, Sorted r.range :=
    fun h r hr => by cases hr; exact h
  obtain rfl | ⟨r, vr, rfl, hvr, rfl⟩ | ⟨vr, vrAnd, rfl, hrange, -, hand, rfl⟩ |
    ⟨vr, old, vrAnd, rfl, hrange, hset, hand, rfl⟩ | ⟨vrAnd, rfl, hset, -, rfl⟩ |
    ⟨vrAnd, old, vr, rfl, hset, hor, hvr, rfl⟩ := step_cases h
  · exact hs
  · exact { hs with range := hsome (Range.eval_sorted ha hvr) }
  · exact { hs with range := hnone, andSet := hsome ((hs.range vr hrange).empty_or hand) }
  · have hsorted := (hs.andSet old hset).and (hs.range vr hrange) hand
    exact { hs with range := hnone, andSet := hsome hsorted }
  · exact { hs with andSet := hnone, orSet := hsome (hs.andSet vrAnd hset) }
  · rw [Action.placed, hset, hor] at ha
    exact { hs with andSet := hnone, orSet := hsome ((hs.orSet old hor).or ha hvr) }

theorem parse_sorted {as : List Action} {s s' : Sets} (hs : s.Sorted)
    (has : parsePlaced s as = true) (h : as.foldlM Action.step s = .ok s') : s'.Sorted := by
  induction as generalizing s with
  | nil =>
    cases h
    exact hs
  | cons a as ih =>
    rw [parsePlaced, Bool.and_eq_true] at has
    rw [List.foldlM_cons] at h
    obtain ⟨s₁, hs₁, h⟩ := of_bind_eq_ok h
    rw [hs₁] at has
    exact ih (Action.step_sorted hs has.1 hs₁) has.2 h

theorem step_sorted {st st' : Store} {op : Op} (hst : ∀ z, Sorted (st z).range)
    (hop : op.placed st = true) (h : step st op = some st') (z : Nat) : Sorted (st' z).range := by
  refine forall_of_step (P := fun r => Sorted r.range) h hst (fun r hr => ?_) z
  cases op with
  | parse _ as =>
    obtain ⟨s, hs, hr⟩ := of_bind_eq_ok hr
    have hsorted := parse_sorted Sets.sorted_init hop hs
    split at hr
    · cases hr
      exact hsorted.orSet _ rfl
    · cases hr
  | all _ =>
    cases hr
    refine ⟨fun p hp => ?_, List.pairwise_singleton _ _⟩
    rw [List.mem_singleton.mp hp]
    exact VersionRange.upright_of rfl (by decide)
  | or _ x y => exact (hst x).or hop hr
  | and _ x y => exact (hst x).and (hst y) hr

end Primitives.Version1
