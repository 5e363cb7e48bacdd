import Mathlib.Order.Lattice
import Mathlib.Data.List.Perm.Basic

/-!
# Maps with sorted keys

A map is the list of its entries in the order of their keys, no key twice. `emplace` adds an
entry unless its key is there, and says nothing when it is: the entries are then those that were
there (`entries_emplace_of_mem`), and else one more (`entries_emplace`). `update` changes the value
of a key, and puts a default one there first if the key is new; what a map has under every other key
is what it had (`lookup_update`).
-/

set_option autoImplicit false

namespace Primitives.Lib

structure SortedMap (K V : Type) [LinearOrder K] where
  entries : List (K × V)
  sorted : entries.Pairwise fun x y => x.1 < y.1

namespace SortedMap

variable {K V : Type} [LinearOrder K]

def empty : SortedMap K V := ⟨[], .nil⟩

def keys (m : SortedMap K V) : List K := m.entries.map Prod.fst

def values (m : SortedMap K V) : List V := m.entries.map Prod.snd

theorem nodup_keys (m : SortedMap K V) : m.keys.Nodup :=
  List.pairwise_map.mpr (m.sorted.imp fun hlt => hlt.ne)

theorem nodup_entries (m : SortedMap K V) : m.entries.Nodup :=
  m.sorted.imp fun hlt heq => hlt.ne (congrArg Prod.fst heq)

/-- An entry is put at its place, unless its key is there. -/
def emplaceEntry (k : K) (v : V) : List (K × V) → List (K × V)
  | [] => [(k, v)]
  | (k', v') :: rest =>
    if k < k' then (k, v) :: (k', v') :: rest
    else if k' < k then (k', v') :: emplaceEntry k v rest
    else (k', v') :: rest

theorem mem_emplaceEntry {k : K} {v : V} {l : List (K × V)} {x : K × V}
    (h : x ∈ emplaceEntry k v l) : x = (k, v) ∨ x ∈ l := by
  induction l with
  | nil => exact .inl (List.mem_singleton.mp h)
  | cons y rest ih =>
    rw [emplaceEntry] at h
    split at h
    · exact List.mem_cons.mp h
    · split at h
      · rcases List.mem_cons.mp h with rfl | h
        · exact .inr List.mem_cons_self
        · exact (ih h).imp_right (List.mem_cons_of_mem y)
      · exact .inr h

/-- A key below the first one is below all. -/
theorem lt_of_mem_cons {k : K} {y : K × V} {rest : List (K × V)} (hlt : k < y.1)
    (hy : ∀ x ∈ rest, y.1 < x.1) : ∀ x ∈ y :: rest, k < x.1 :=
  List.forall_mem_cons.mpr ⟨hlt, fun x hx => hlt.trans (hy x hx)⟩

theorem sorted_emplaceEntry {k : K} {v : V} {l : List (K × V)}
    (h : l.Pairwise fun x y => x.1 < y.1) :
    (emplaceEntry k v l).Pairwise fun x y => x.1 < y.1 := by
  induction l with
  | nil => exact List.pairwise_singleton _ _
  | cons y rest ih =>
    obtain ⟨hy, hrest⟩ := List.pairwise_cons.mp h
    rw [emplaceEntry]
    split
    · rename_i hlt
      exact List.pairwise_cons.mpr ⟨lt_of_mem_cons hlt hy, h⟩
    · split
      · rename_i hlt
        refine List.pairwise_cons.mpr ⟨fun x hx => ?_, ih hrest⟩
        obtain rfl | hx := mem_emplaceEntry hx
        · exact hlt
        · exact hy x hx
      · exact h

/-- `std::map::emplace`. -/
def emplace (m : SortedMap K V) (k : K) (v : V) : SortedMap K V :=
  ⟨emplaceEntry k v m.entries, sorted_emplaceEntry m.sorted⟩

/-- `std::map::erase` of `begin()`. -/
def eraseBegin (m : SortedMap K V) : SortedMap K V := ⟨m.entries.tail, m.sorted.tail⟩

theorem emplaceEntry_perm {k : K} (v : V) {l : List (K × V)} (h : k ∉ l.map Prod.fst) :
    (emplaceEntry k v l).Perm ((k, v) :: l) := by
  induction l with
  | nil => exact List.Perm.refl _
  | cons y rest ih =>
    rw [List.map_cons, List.mem_cons, not_or] at h
    rw [emplaceEntry]
    split
    · exact List.Perm.refl _
    · split
      · exact ((ih h.2).cons _).trans (List.Perm.swap _ _ _)
      · exact absurd (le_antisymm (not_lt.mp ‹¬ y.1 < k›) (not_lt.mp ‹¬ k < y.1›)) h.1

theorem emplaceEntry_of_mem {k : K} (v : V) {l : List (K × V)}
    (hs : l.Pairwise fun x y => x.1 < y.1) (h : k ∈ l.map Prod.fst) : emplaceEntry k v l = l := by
  induction l with
  | nil => cases h
  | cons y rest ih =>
    obtain ⟨hy, hrest⟩ := List.pairwise_cons.mp hs
    rw [emplaceEntry]
    rw [List.map_cons, List.mem_cons] at h
    have hle : y.1 ≤ k := by
      rcases h with rfl | h
      · exact le_rfl
      · obtain ⟨x, hx, rfl⟩ := List.mem_map.mp h
        exact (hy x hx).le
    rw [if_neg (not_lt.mpr hle)]
    split
    · rename_i hlt
      rw [ih hrest (h.resolve_left hlt.ne')]
    · rfl

theorem emplace_entries_ne_nil (m : SortedMap K V) (k : K) (v : V) : (m.emplace k v).entries ≠ [] := by
  show emplaceEntry k v m.entries ≠ []
  cases m.entries with
  | nil => exact List.cons_ne_nil _ _
  | cons x rest =>
    rw [emplaceEntry]
    split
    · exact List.cons_ne_nil _ _
    · split
      · exact List.cons_ne_nil _ _
      · exact List.cons_ne_nil _ _

/-- An entry with a new key is added. -/
theorem entries_emplace {m : SortedMap K V} {k : K} (v : V) (h : k ∉ m.keys) :
    (m.emplace k v).entries.Perm ((k, v) :: m.entries) := emplaceEntry_perm v h

/-- An entry whose key is there is dropped. -/
theorem entries_emplace_of_mem {m : SortedMap K V} {k : K} (v : V) (h : k ∈ m.keys) :
    (m.emplace k v).entries = m.entries := emplaceEntry_of_mem v m.sorted h

theorem values_emplace {m : SortedMap K V} {k : K} (v : V) (h : k ∉ m.keys) :
    (m.emplace k v).values.Perm (v :: m.values) := (entries_emplace v h).map Prod.snd

theorem values_emplace_of_mem {m : SortedMap K V} {k : K} (v : V) (h : k ∈ m.keys) :
    (m.emplace k v).values = m.values := congrArg (List.map Prod.snd) (entries_emplace_of_mem v h)

/-! ## Values by key -/

/-- The value of a key. -/
def lookup (m : SortedMap K V) (k : K) : Option V :=
  (m.entries.find? fun x => x.1 = k).map Prod.snd

theorem lookup_empty (k : K) : (empty : SortedMap K V).lookup k = none := rfl

theorem lookup_isSome {m : SortedMap K V} {k : K} : (m.lookup k).isSome = true ↔ k ∈ m.keys := by
  rw [lookup, Option.isSome_map, List.find?_isSome]
  simp only [keys, List.mem_map, decide_eq_true_eq]

theorem lookup_isNone {m : SortedMap K V} {k : K} : (m.lookup k).isNone = true ↔ k ∉ m.keys := by
  rw [← lookup_isSome, Option.isNone_iff_eq_none, Option.not_isSome_iff_eq_none]

/-- An entry is changed, or put at its place with a default value that is changed. -/
def updateEntry (k : K) (d : V) (f : V → V) : List (K × V) → List (K × V)
  | [] => [(k, f d)]
  | (k', v') :: rest =>
    if k < k' then (k, f d) :: (k', v') :: rest
    else if k' < k then (k', v') :: updateEntry k d f rest
    else (k', f v') :: rest

theorem mem_keys_updateEntry {k : K} {d : V} {f : V → V} {l : List (K × V)} {x : K × V}
    (h : x ∈ updateEntry k d f l) : x.1 = k ∨ ∃ y ∈ l, y.1 = x.1 := by
  induction l with
  | nil =>
    rw [List.mem_singleton.mp h]
    exact .inl rfl
  | cons y rest ih =>
    rw [updateEntry] at h
    split at h
    · rcases List.mem_cons.mp h with rfl | h
      · exact .inl rfl
      · exact .inr ⟨x, h, rfl⟩
    · split at h
      · rcases List.mem_cons.mp h with rfl | h
        · exact .inr ⟨_, List.mem_cons_self, rfl⟩
        · rcases ih h with hk | ⟨z, hz, hk⟩
          · exact .inl hk
          · exact .inr ⟨z, List.mem_cons_of_mem y hz, hk⟩
      · rcases List.mem_cons.mp h with rfl | h
        · exact .inr ⟨_, List.mem_cons_self, rfl⟩
        · exact .inr ⟨x, List.mem_cons_of_mem y h, rfl⟩

theorem sorted_updateEntry {k : K} {d : V} {f : V → V} {l : List (K × V)}
    (h : l.Pairwise fun x y => x.1 < y.1) :
    (updateEntry k d f l).Pairwise fun x y => x.1 < y.1 := by
  induction l with
  | nil => exact List.pairwise_singleton _ _
  | cons y rest ih =>
    obtain ⟨hy, hrest⟩ := List.pairwise_cons.mp h
    rw [updateEntry]
    split
    · rename_i hlt
      exact List.pairwise_cons.mpr ⟨lt_of_mem_cons hlt hy, h⟩
    · split
      · rename_i hlt
        refine List.pairwise_cons.mpr ⟨fun x hx => ?_, ih hrest⟩
        rcases mem_keys_updateEntry hx with hk | ⟨z, hz, hk⟩
        · exact hk ▸ hlt
        · exact hk ▸ hy z hz
      · exact List.pairwise_cons.mpr ⟨hy, hrest⟩

/-- `m[k]`, which puts a default value there if the key is new, and a change of the value. -/
def update (m : SortedMap K V) (k : K) (d : V) (f : V → V) : SortedMap K V :=
  ⟨updateEntry k d f m.entries, sorted_updateEntry m.sorted⟩

theorem find?_updateEntry (k : K) (d : V) (f : V → V) {l : List (K × V)}
    (hs : l.Pairwise fun x y => x.1 < y.1) (k' : K) :
    ((updateEntry k d f l).find? fun x => x.1 = k').map Prod.snd =
      if k' = k then some (f (((l.find? fun x => x.1 = k).map Prod.snd).getD d))
      else (l.find? fun x => x.1 = k').map Prod.snd := by
  induction l with
  | nil =>
    by_cases hk : k' = k
    · rw [if_pos hk, hk]
      simp [updateEntry]
    · rw [if_neg hk]
      simp [updateEntry, Ne.symm hk]
  | cons y rest ih =>
    obtain ⟨hy, hrest⟩ := List.pairwise_cons.mp hs
    rw [updateEntry]
    split
    · rename_i hlt
      -- no entry has the key: all have larger ones
      have hno : (y :: rest).find? (fun x => x.1 = k) = none := by
        refine List.find?_eq_none.mpr fun x hx => ?_
        have hlt' : k < x.1 := lt_of_mem_cons hlt hy x hx
        exact fun h => hlt'.ne' (of_decide_eq_true h)
      rw [hno]
      by_cases hk : k' = k
      · rw [if_pos hk, hk]
        simp
      · rw [if_neg hk, List.find?_cons_of_neg (by simpa using Ne.symm hk)]
    · split
      · rename_i hlt
        have hne : ¬ decide (y.1 = k) = true := fun h => hlt.ne (of_decide_eq_true h)
        rw [List.find?_cons_of_neg (l := rest) hne]
        by_cases hy' : y.1 = k'
        · have hk : ¬ k' = k := fun h => hlt.ne (hy'.trans h)
          rw [if_neg hk, List.find?_cons_of_pos (by simpa using hy'),
            List.find?_cons_of_pos (by simpa using hy')]
        · rw [List.find?_cons_of_neg (by simpa using hy'), ih hrest,
            List.find?_cons_of_neg (l := rest) (by simpa using hy')]
      · rename_i hge hle
        have heq : y.1 = k := le_antisymm (not_lt.mp hge) (not_lt.mp hle)
        by_cases hk : k' = k
        · rw [if_pos hk, List.find?_cons_of_pos (by simpa using heq.trans hk.symm),
            List.find?_cons_of_pos (by simpa using heq)]
          rfl
        · have hne : ¬ y.1 = k' := fun h => hk (h.symm.trans heq)
          rw [if_neg hk, List.find?_cons_of_neg (by simpa using hne),
            List.find?_cons_of_neg (by simpa using hne)]

/-- **An update** changes the value of its key, and no other. -/
theorem lookup_update (m : SortedMap K V) (k : K) (d : V) (f : V → V) (k' : K) :
    (m.update k d f).lookup k' =
      if k' = k then some (f ((m.lookup k).getD d)) else m.lookup k' :=
  find?_updateEntry k d f m.sorted k'

/-- `m[k] = v`. -/
def insert (m : SortedMap K V) (k : K) (v : V) : SortedMap K V := m.update k v fun _ => v

theorem lookup_insert (m : SortedMap K V) (k : K) (v : V) (k' : K) :
    (m.insert k v).lookup k' = if k' = k then some v else m.lookup k' :=
  lookup_update m k v (fun _ => v) k'

/-- **Entries laid over a map**: what they have stands before what the map has. -/
theorem lookup_foldl_insert (m : SortedMap K V) {l : List (K × V)} (h : (l.map Prod.fst).Nodup) (k : K) :
    (l.foldl (fun m x => m.insert x.1 x.2) m).lookup k =
      ((l.find? fun x => x.1 = k).map Prod.snd).or (m.lookup k) := by
  induction l generalizing m with
  | nil => rfl
  | cons x l ih =>
    obtain ⟨hx, hl⟩ := List.nodup_cons.mp h
    rw [List.foldl_cons, ih _ hl, lookup_insert]
    by_cases hk : x.1 = k
    · -- no other entry of the list has its key
      have hno : l.find? (fun y => y.1 = k) = none := by
        refine List.find?_eq_none.mpr fun y hy heq => hx ?_
        rw [hk, ← of_decide_eq_true heq]
        exact List.mem_map_of_mem hy
      rw [hno, if_pos hk.symm, List.find?_cons_of_pos (by simpa using hk)]
      rfl
    · rw [if_neg (Ne.symm hk), List.find?_cons_of_neg (by simpa using hk)]

/-- **A map laid over a map.** -/
theorem lookup_foldl_insert_entries (m m' : SortedMap K V) (k : K) :
    (m'.entries.foldl (fun m x => m.insert x.1 x.2) m).lookup k = (m'.lookup k).or (m.lookup k) :=
  lookup_foldl_insert m m'.nodup_keys k

/-! ## Maps with the same values -/

theorem find?_of_mem_nodup {l : List (K × V)} (h : (l.map Prod.fst).Nodup) {x : K × V} (hx : x ∈ l) :
    l.find? (fun y => y.1 = x.1) = some x := by
  induction l with
  | nil => cases hx
  | cons y rest ih =>
    obtain ⟨hy, hrest⟩ := List.nodup_cons.mp h
    rcases List.mem_cons.mp hx with rfl | hx
    · exact List.find?_cons_of_pos (decide_eq_true rfl)
    · have hne : ¬ y.1 = x.1 := fun heq => hy (heq ▸ List.mem_map_of_mem hx)
      rw [List.find?_cons_of_neg (by simpa using hne), ih hrest hx]

theorem find?_eq_some_iff_nodup {l : List (K × V)} (h : (l.map Prod.fst).Nodup) {x : K × V} :
    (l.find? fun y => y.1 = x.1).map Prod.snd = some x.2 ↔ x ∈ l := by
  constructor
  · intro hfind
    obtain ⟨y, hfind, hy⟩ := Option.map_eq_some_iff.mp hfind
    have hkey : y.1 = x.1 := by simpa using List.find?_some hfind
    rw [← Prod.ext hkey hy]
    exact List.mem_of_find?_eq_some hfind
  · intro hx
    rw [find?_of_mem_nodup h hx]
    rfl

theorem mem_entries_iff {m : SortedMap K V} {x : K × V} :
    x ∈ m.entries ↔ m.lookup x.1 = some x.2 := (find?_eq_some_iff_nodup m.nodup_keys).symm

/-- **A map is what it has under every key.** -/
theorem ext_lookup {m m' : SortedMap K V} (h : ∀ k, m.lookup k = m'.lookup k) : m = m' := by
  have hperm : m.entries.Perm m'.entries := by
    refine (List.perm_ext_iff_of_nodup m.nodup_entries m'.nodup_entries).mpr fun x => ?_
    rw [mem_entries_iff, mem_entries_iff, h]
  have heq : m.entries = m'.entries :=
    hperm.eq_of_pairwise (fun x y _ _ hxy hyx => absurd hyx hxy.asymm) m.sorted m'.sorted
  cases m
  cases m'
  congr

/-! ## Entries one after the other -/

theorem emplaceEntry_eq_updateEntry (k : K) (v : V) (l : List (K × V)) :
    emplaceEntry k v l = updateEntry k v id l := by
  induction l with
  | nil => rfl
  | cons y rest ih => rw [emplaceEntry, updateEntry, ih, id_eq, id_eq]

/-- `emplace` gives its key a value if it has none. -/
theorem lookup_emplace (m : SortedMap K V) (k : K) (v : V) (k' : K) :
    (m.emplace k v).lookup k' = if k' = k then some ((m.lookup k).getD v) else m.lookup k' := by
  have heq : (m.emplace k v).entries = (m.update k v id).entries :=
    emplaceEntry_eq_updateEntry k v m.entries
  rw [lookup, heq]
  exact lookup_update m k v id k'

/-- **Of a list of entries** a map takes the first ones with keys that it does not have. -/
theorem lookup_foldl_emplace (m : SortedMap K V) (l : List (K × V)) (k : K) :
    (l.foldl (fun m x => m.emplace x.1 x.2) m).lookup k =
      (m.lookup k).or ((l.find? fun x => x.1 = k).map Prod.snd) := by
  induction l generalizing m with
  | nil => exact (Option.or_none).symm
  | cons x l ih =>
    rw [List.foldl_cons, ih, lookup_emplace]
    by_cases hx : x.1 = k
    · rw [if_pos hx.symm, List.find?_cons_of_pos (by simpa using hx), hx]
      cases m.lookup k <;> rfl
    · rw [if_neg (Ne.symm hx), List.find?_cons_of_neg (by simpa using hx)]

/-- Entries with keys of their own are the entries of a map. -/
theorem entries_foldl_emplace {l : List (K × V)} (h : (l.map Prod.fst).Nodup) :
    (l.foldl (fun m x => m.emplace x.1 x.2) (empty : SortedMap K V)).entries.Perm l := by
  have hnodup : l.Nodup := (List.pairwise_map.mp h).imp fun hne heq => hne (congrArg Prod.fst heq)
  refine (List.perm_ext_iff_of_nodup (nodup_entries _) hnodup).mpr fun x => ?_
  rw [mem_entries_iff, lookup_foldl_emplace, lookup_empty, Option.none_or, find?_eq_some_iff_nodup h]

/-- Entries that a map has taken already are the same to another one. -/
theorem foldl_emplace_entries (m : SortedMap K V) (l : List (K × V)) :
    (l.foldl (fun m x => m.emplace x.1 x.2) empty).entries.foldl (fun m x => m.emplace x.1 x.2) m =
      l.foldl (fun m x => m.emplace x.1 x.2) m := by
  refine ext_lookup fun k => ?_
  rw [lookup_foldl_emplace, lookup_foldl_emplace]
  exact congrArg (m.lookup k).or (lookup_foldl_emplace empty l k)

omit [LinearOrder K] in
/-- Two lists with the same keys, each of them once, have their entries at the same places. -/
theorem eq_of_perm_of_keys {l l' : List (K × V)} (h : l.Perm l') (hkeys : l.map Prod.fst = l'.map Prod.fst)
    (hnodup : (l.map Prod.fst).Nodup) : l = l' := by
  induction l generalizing l' with
  | nil => exact h.nil_eq
  | cons x l ih =>
    cases l' with
    | nil => exact absurd h.eq_nil (List.cons_ne_nil x l)
    | cons y l' =>
      obtain ⟨-, htail⟩ := List.cons.inj hkeys
      obtain ⟨hx, hl⟩ := List.nodup_cons.mp hnodup
      obtain rfl : x = y := by
        rcases List.mem_cons.mp (h.subset List.mem_cons_self) with heq | hmem
        · exact heq
        · exact absurd (htail ▸ List.mem_map_of_mem hmem) hx
      rw [ih (List.Perm.cons_inv h) htail hl]

theorem find?_map_key {K' : Type} [DecidableEq K'] {f : K → K'} (hf : Function.Injective f)
    (l : List (K × V)) (k : K) :
    ((l.map fun x => (f x.1, x.2)).find? fun x => x.1 = f k).map Prod.snd =
      (l.find? fun x => x.1 = k).map Prod.snd := by
  induction l with
  | nil => rfl
  | cons x l ih =>
    rw [List.map_cons]
    by_cases hx : x.1 = k
    · rw [List.find?_cons_of_pos (by simpa using congrArg f hx),
        List.find?_cons_of_pos (by simpa using hx)]
      rfl
    · have hne : ¬ f x.1 = f k := fun h => hx (hf h)
      rw [List.find?_cons_of_neg (by simpa using hne), List.find?_cons_of_neg (by simpa using hx), ih]

/-- Nor does it matter whether their keys are changed before or after. -/
theorem foldl_emplace_entries_map {K' : Type} [LinearOrder K'] {f : K → K'}
    (hf : Function.Injective f) (m : SortedMap K' V) (l : List (K × V)) :
    ((l.foldl (fun m x => m.emplace x.1 x.2) empty).entries.map fun x => (f x.1, x.2)).foldl
        (fun m x => m.emplace x.1 x.2) m =
      (l.map fun x => (f x.1, x.2)).foldl (fun m x => m.emplace x.1 x.2) m := by
  refine ext_lookup fun k => ?_
  rw [lookup_foldl_emplace, lookup_foldl_emplace]
  congr 1
  by_cases hk : ∃ k', f k' = k
  · obtain ⟨k', rfl⟩ := hk
    rw [find?_map_key hf, find?_map_key hf]
    exact lookup_foldl_emplace empty l k'
  · have hno : ∀ l : List (K × V), (l.map fun x => (f x.1, x.2)).find? (fun x => x.1 = k) = none := by
      intro l
      refine List.find?_eq_none.mpr fun x hx h => ?_
      obtain ⟨y, -, rfl⟩ := List.mem_map.mp hx
      exact hk ⟨y.1, of_decide_eq_true h⟩
    rw [hno, hno]

/-! ## Going over a map -/

/-- Whether a key stands behind the one that was visited last. -/
def isBehind (last : Option K) (k : K) : Bool := last.all fun l => l < k

/-- The entry a loop over the map comes to after the one with the key `last`, or first of all. -/
def nextEntry (m : SortedMap K V) (last : Option K) : Option (K × V) :=
  m.entries.find? fun x => isBehind last x.1

theorem isBehind_some {l k : K} : isBehind (some l) k = true ↔ l < k := decide_eq_true_iff

theorem isBehind_trans {last : Option K} {l k : K} (hl : isBehind last l = true) (hk : l < k) :
    isBehind last k = true := by
  cases last with
  | none => rfl
  | some l' => exact isBehind_some.mpr ((isBehind_some.mp hl).trans hk)

/-- At the end of the loop the map has nothing behind. -/
theorem lookup_of_nextEntry_none {m : SortedMap K V} {last : Option K} (h : m.nextEntry last = none)
    {k : K} (hk : isBehind last k = true) : m.lookup k = none := by
  rw [lookup, Option.map_eq_none_iff]
  refine List.find?_eq_none.mpr fun x hx hkey => ?_
  rw [← of_decide_eq_true hkey] at hk
  exact List.find?_eq_none.mp h x hx hk

/-- **What the loop comes to** is an entry behind the last one, and the map has nothing between. -/
theorem nextEntry_eq_some {m : SortedMap K V} {last : Option K} {x : K × V}
    (h : m.nextEntry last = some x) :
    isBehind last x.1 = true ∧ m.lookup x.1 = some x.2 ∧
      ∀ k, isBehind last k = true → k < x.1 → m.lookup k = none := by
  obtain ⟨hbehind, before, after, heq, hbefore⟩ := List.find?_eq_some_iff_append.mp h
  refine ⟨hbehind, mem_entries_iff.mp (List.mem_of_find?_eq_some h), fun k hk hlt => ?_⟩
  rw [lookup, Option.map_eq_none_iff]
  refine List.find?_eq_none.mpr fun y hy hkey => ?_
  have hykey : y.1 = k := of_decide_eq_true hkey
  have hsorted := m.sorted
  rw [heq] at hy hsorted
  rcases List.mem_append.mp hy with hy | hy
  · have hno := hbefore y hy
    rw [hykey, hk] at hno
    cases hno
  · rcases List.mem_cons.mp hy with rfl | hy
    · exact hlt.ne hykey.symm
    · have hxy := (List.pairwise_cons.mp (List.pairwise_append.mp hsorted).2.1).1 y hy
      exact (hlt.trans (hykey ▸ hxy)).false

end SortedMap

end Primitives.Lib
