import Primitives.Lib.Iterators
import Primitives.Versions.Model

/-!
# The releases of a container

`VersionContainer` and `ReverseVersionContainer`. A `ReleaseIterator` is an iterator of the base container
that skips pre-releases when it is moved, and carries the end with it. It does not skip them when it is
made: that the first one is at a release is the work of `begin_releases`. So a range of the base container
becomes the range of its releases (`Walk.releases`), in both directions (`releases_eq`).

The base container is the list of its elements. Every loop is bounded by their number.
-/

set_option autoImplicit false

namespace Primitives.Versions

open Lib

/-! ## The code -/

namespace Version

def hasExtra (v : Version) : Bool := !v.extra.isEmpty

def isPreRelease (v : Version) : Bool := v.hasExtra

def isRelease (v : Version) : Bool := !v.isPreRelease

end Version

/-- An element of the base container: a version, or a pair with a version in front. -/
class Element (α : Type) where
  version : α → Version

instance : Element Version := ⟨id⟩

instance (β : Type) : Element (Version × β) := ⟨Prod.fst⟩

variable {ι α : Type} [Element α]

def isRelease (e : α) : Bool := (Element.version e).isRelease

/-- `ReleaseIterator`. It is equal to another one if the iterators of the base are. -/
structure ReleaseIterator (ι : Type) where
  base : ι
  endIterator : ι
deriving DecidableEq, Repr

/-- `move_to_next`, with the operations of the base iterator. -/
def moveToNext (its : Iterators ι α) : Nat → ReleaseIterator ι → Option (ReleaseIterator ι)
  | 0, _ => none
  | n + 1, it => do
    let base ← its.next it.base
    if its.equal base it.endIterator then some { it with base }
    else
      let e ← its.get base
      if isRelease e then some { it with base } else moveToNext its n { it with base }

def releaseIterators (its : Iterators ι α) (n : Nat) : Iterators (ReleaseIterator ι) α where
  equal it it' := its.equal it.base it'.base
  get it := its.get it.base
  next := moveToNext its n

section

variable (base : List α)

def beginReleases : Option (ReleaseIterator Nat) := do
  let start ← (forward base).findIf isRelease (base.length + 1) 0 base.length
  some ⟨start, base.length⟩

def endReleases : ReleaseIterator Nat := ⟨base.length, base.length⟩

def emptyReleases : Option Bool := do
  let first ← beginReleases base
  some ((releaseIterators (forward base) (base.length + 1)).equal first (endReleases base))

/-- A `for` over `releases()`. -/
def releases : Option (List α) := do
  let first ← beginReleases base
  (releaseIterators (forward base) (base.length + 1)).collect (base.length + 1) first (endReleases base)

def rbeginReleases : Option (ReleaseIterator Nat) := do
  let start ← (backward base).findIf isRelease (base.length + 1) base.length 0
  some ⟨start, 0⟩

def rendReleases : ReleaseIterator Nat := ⟨0, 0⟩

/-- A `for` from `rbegin_releases()` to `rend_releases()`. -/
def reverseReleases : Option (List α) := do
  let first ← rbeginReleases base
  (releaseIterators (backward base) (base.length + 1)).collect (base.length + 1) first rendReleases

end

/-! ## A range of releases -/

section

variable {its : Iterators ι α} {p last : ι} {l : List α}

/-- A step is one step of the base, and the search for a release from there. -/
theorem moveToNext_eq (its : Iterators ι α) (n : Nat) (p last : ι) :
    moveToNext its n ⟨p, last⟩ =
      (its.next p).bind fun q => (its.findIf isRelease n q last).map fun r => ⟨r, last⟩ := by
  induction n generalizing p with
  | zero =>
    cases its.next p with
    | none => rfl
    | some q => rfl
  | succ n ih =>
    rw [moveToNext]
    cases its.next p with
    | none => rfl
    | some q =>
      show (if its.equal q last = true then some (ReleaseIterator.mk q last) else _) =
        (its.findIf isRelease (n + 1) q last).map fun r => ⟨r, last⟩
      rw [Iterators.findIf]
      split
      · rfl
      · cases its.get q with
        | none => rfl
        | some e =>
          show (if isRelease e = true then _ else moveToNext its n ⟨q, last⟩) =
            (if isRelease e = true then some q else _).map fun r => ReleaseIterator.mk r last
          split
          · rfl
          · rw [ih]
            cases its.next q with
            | none => rfl
            | some r => rfl

/-- **The releases of a range** are a range: from what the search finds, to the end. -/
theorem Walk.releases (h : Walk its last p l) :
    ∃ q, (∀ n, l.length < n → its.findIf isRelease n p last = some q) ∧
      ∀ n, l.length < n →
        Walk (releaseIterators its n) ⟨last, last⟩ ⟨q, last⟩ (l.filter isRelease) := by
  induction h with
  | @nil p hlast =>
    refine ⟨p, fun n hn => ?_, fun n _ => .nil hlast⟩
    obtain ⟨n, rfl⟩ := Nat.exists_eq_succ_of_ne_zero (Nat.ne_of_gt hn)
    exact Iterators.findIf_of_equal hlast
  | @cons p q e l hlast hget hnext _ ih =>
    obtain ⟨r, hfind, hr⟩ := ih
    cases hrel : isRelease e with
    | true =>
      refine ⟨p, fun n hn => ?_, fun n hn => ?_⟩
      · obtain ⟨n, rfl⟩ := Nat.exists_eq_succ_of_ne_zero (Nat.ne_of_gt (Nat.zero_lt_of_lt hn))
        exact Iterators.findIf_of_pos hlast hget hrel
      · have hn' : l.length < n := Nat.lt_of_succ_lt hn
        have hmove : moveToNext its n ⟨p, last⟩ = some ⟨r, last⟩ := by
          rw [moveToNext_eq, hnext, Option.bind_some, hfind n hn', Option.map_some]
        rw [List.filter_cons_of_pos hrel]
        exact .cons hlast hget hmove (hr n hn')
    | false =>
      refine ⟨r, fun n hn => ?_, fun n hn => ?_⟩
      · obtain ⟨n, rfl⟩ := Nat.exists_eq_succ_of_ne_zero (Nat.ne_of_gt (Nat.zero_lt_of_lt hn))
        rw [Iterators.findIf_of_neg hlast hget hrel hnext]
        exact hfind n (Nat.lt_of_succ_lt_succ hn)
      · have hneg : ¬ isRelease e = true := by
          rw [hrel]
          exact Bool.false_ne_true
        rw [List.filter_cons_of_neg hneg]
        exact hr n (Nat.lt_of_succ_lt hn)

end

/-! ## The containers -/

section

variable (base : List α)

theorem beginReleases_walk :
    ∃ first, beginReleases base = some first ∧
      Walk (releaseIterators (forward base) (base.length + 1)) (endReleases base) first
        (base.filter isRelease) := by
  have hbase : Walk (forward base) base.length 0 base := Walk.forward base (Nat.zero_le _)
  obtain ⟨q, hfind, hwalk⟩ := Walk.releases hbase
  refine ⟨⟨q, base.length⟩, ?_, hwalk _ (Nat.lt_succ_self _)⟩
  rw [beginReleases, hfind (base.length + 1) (Nat.lt_succ_self _)]
  rfl

theorem rbeginReleases_walk :
    ∃ first, rbeginReleases base = some first ∧
      Walk (releaseIterators (backward base) (base.length + 1)) rendReleases first
        (base.filter isRelease).reverse := by
  have hbase := Walk.backward base (Nat.le_refl _)
  rw [List.take_length] at hbase
  obtain ⟨q, hfind, hwalk⟩ := Walk.releases hbase
  rw [List.length_reverse] at hfind hwalk
  refine ⟨⟨q, 0⟩, ?_, ?_⟩
  · rw [rbeginReleases, hfind (base.length + 1) (Nat.lt_succ_self _)]
    rfl
  · rw [← List.filter_reverse]
    exact hwalk _ (Nat.lt_succ_self _)

/-- **The releases** in the order of the container and in the other one, and whether there are any. -/
theorem releases_eq :
    releases base = some (base.filter isRelease) ∧
    reverseReleases base = some (base.filter isRelease).reverse ∧
    ∃ b, emptyReleases base = some b ∧ (b = true ↔ ∀ e ∈ base, isRelease e = false) := by
  have hfew : (base.filter isRelease).length < base.length + 1 :=
    Nat.lt_succ_of_le (List.length_filter_le _ _)
  obtain ⟨first, hfirst, hwalk⟩ := beginReleases_walk base
  obtain ⟨rfirst, hrfirst, hrwalk⟩ := rbeginReleases_walk base
  refine ⟨?_, ?_, ?_⟩
  · rw [releases, hfirst]
    exact hwalk.collect hfew
  · rw [reverseReleases, hrfirst]
    refine hrwalk.collect ?_
    rw [List.length_reverse]
    exact hfew
  · refine ⟨_, by rw [emptyReleases, hfirst]; rfl, ?_⟩
    rw [hwalk.equal_iff, List.filter_eq_nil_iff]
    simp only [Bool.not_eq_true]

end

end Primitives.Versions
