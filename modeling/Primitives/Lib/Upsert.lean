import Mathlib.Data.List.Nodup

/-!
# The union of association lists

The entries of one association list are put into another one, one after the other. An entry whose key is
there already is combined with the one that is there, which may fail; a new one goes to the end. With
distinct keys, what is at a key afterwards depends on what the two lists had there (`upsertAll_ok`), and a
failure is that of a common key (`upsertAll_error`).
-/

set_option autoImplicit false

namespace Primitives.Lib

variable {κ α ε : Type} [BEq κ]

section

variable (combine : κ → α → α → Except ε α)

/-- One entry into the list. -/
def upsert (f : κ × α) : List (κ × α) → Except ε (List (κ × α))
  | [] => .ok [f]
  | t :: ts =>
    if f.1 == t.1 then (combine t.1 f.2 t.2).map fun v => (t.1, v) :: ts
    else (upsert f ts).map (t :: ·)

/-- All entries of the first list into the second one. -/
def upsertAll : List (κ × α) → List (κ × α) → Except ε (List (κ × α))
  | [], ts => .ok ts
  | f :: fs, ts => (upsert combine f ts).bind (upsertAll fs)

end

variable {combine : κ → α → α → Except ε α} {l fs ts rs : List (κ × α)} {f : κ × α} {k : κ} {v : α}

/-! ## What is at the keys -/

/-- What one entry does to the list. -/
structure Upserted (combine : κ → α → α → Except ε α) (f : κ × α) (ts rs : List (κ × α)) : Prop where
  keys : (ts.map Prod.fst).Nodup → (rs.map Prod.fst).Nodup
  others : ∀ k, k ≠ f.1 → rs.lookup k = ts.lookup k
  new : ts.lookup f.1 = none → rs.lookup f.1 = some f.2
  common : ∀ t, ts.lookup f.1 = some t → ∃ r, combine f.1 f.2 t = .ok r ∧ rs.lookup f.1 = some r

/-- What the entries of one list do to the other. -/
structure UpsertedAll (combine : κ → α → α → Except ε α) (fs ts rs : List (κ × α)) : Prop where
  keys : (ts.map Prod.fst).Nodup → (rs.map Prod.fst).Nodup
  left : ∀ k, fs.lookup k = none → rs.lookup k = ts.lookup k
  right : ∀ k v, fs.lookup k = some v → ts.lookup k = none → rs.lookup k = some v
  common : ∀ k v t, fs.lookup k = some v → ts.lookup k = some t →
    ∃ r, combine k v t = .ok r ∧ rs.lookup k = some r

namespace UpsertedAll

/-- Where an entry of the union is from. -/
theorem lookup_cases (h : UpsertedAll combine fs ts rs) (hr : rs.lookup k = some v) :
    fs.lookup k = none ∧ ts.lookup k = some v ∨ ts.lookup k = none ∧ fs.lookup k = some v ∨
      ∃ f t, fs.lookup k = some f ∧ ts.lookup k = some t ∧ combine k f t = .ok v := by
  cases hf : fs.lookup k with
  | none =>
    rw [h.left k hf] at hr
    exact .inl ⟨rfl, hr⟩
  | some f =>
    cases ht : ts.lookup k with
    | none => exact .inr (.inl ⟨rfl, (h.right k f hf ht).symm.trans hr⟩)
    | some t =>
      obtain ⟨r, hcombine, hlookup⟩ := h.common k f t hf ht
      rw [hlookup] at hr
      cases hr
      exact .inr (.inr ⟨f, t, rfl, rfl, hcombine⟩)

theorem isSome_lookup (h : UpsertedAll combine fs ts rs) (k : κ) :
    (rs.lookup k).isSome = ((ts.lookup k).isSome || (fs.lookup k).isSome) := by
  cases hf : fs.lookup k with
  | none => rw [h.left k hf, Option.isSome_none, Bool.or_false]
  | some f =>
    cases ht : ts.lookup k with
    | none =>
      rw [h.right k f hf ht]
      rfl
    | some t =>
      obtain ⟨r, -, hlookup⟩ := h.common k f t hf ht
      rw [hlookup]
      rfl

theorem lookup_of_new (h : UpsertedAll combine fs ts rs) (ht : ts.lookup k = none) :
    rs.lookup k = fs.lookup k := by
  cases hf : fs.lookup k with
  | none => rw [h.left k hf, ht]
  | some f => exact h.right k f hf ht

end UpsertedAll

variable [LawfulBEq κ]

/-! ## Lookup -/

theorem mem_of_lookup (h : l.lookup k = some v) : (k, v) ∈ l := by
  obtain ⟨l₁, l₂, rfl, -⟩ := List.lookup_eq_some_iff.mp h
  exact List.mem_append_right _ List.mem_cons_self

theorem lookup_of_not_mem (h : k ∉ l.map Prod.fst) : l.lookup k = none := by
  rw [List.lookup_eq_none_iff]
  intro p hp
  exact bne_iff_ne.mpr fun heq => h (heq ▸ List.mem_map_of_mem hp)

theorem lookup_cons_of_ne {k' : κ} (h : k ≠ k') : ((k', v) :: l).lookup k = l.lookup k := by
  rw [List.lookup_cons, beq_eq_false_iff_ne.mpr h]

/-- With distinct keys every entry is found. -/
theorem lookup_of_mem (hl : (l.map Prod.fst).Nodup) (h : (k, v) ∈ l) : l.lookup k = some v := by
  induction l with
  | nil => cases h
  | cons e l ih =>
    rw [List.map_cons, List.nodup_cons] at hl
    obtain rfl | h := List.mem_cons.mp h
    · exact List.lookup_cons_self
    · have hne : k ≠ e.1 := fun heq => hl.1 (heq ▸ List.mem_map_of_mem h)
      rw [lookup_cons_of_ne hne]
      exact ih hl.2 h

/-! ## One entry -/

theorem upsert_of_not_mem (h : f.1 ∉ ts.map Prod.fst) : upsert combine f ts = .ok (ts ++ [f]) := by
  induction ts with
  | nil => rfl
  | cons t ts ih =>
    rw [List.map_cons, List.mem_cons, not_or] at h
    have hne : ¬ (f.1 == t.1) = true := fun heq => h.1 (eq_of_beq heq)
    rw [upsert, if_neg hne, ih h.2]
    rfl

/-- The place of a key among distinct ones. -/
theorem upsert_append {l₁ l₂ : List (κ × α)} (h : f.1 ∉ l₁.map Prod.fst) :
    upsert combine f (l₁ ++ (f.1, v) :: l₂) =
      (combine f.1 f.2 v).map fun r => l₁ ++ (f.1, r) :: l₂ := by
  induction l₁ with
  | nil => exact if_pos (beq_self_eq_true f.1)
  | cons t l₁ ih =>
    rw [List.map_cons, List.mem_cons, not_or] at h
    have hne : ¬ (f.1 == t.1) = true := fun heq => h.1 (eq_of_beq heq)
    rw [List.cons_append, upsert, if_neg hne, ih h.2]
    cases combine f.1 f.2 v with
    | error e => rfl
    | ok r => rfl

theorem upsert_spec (combine : κ → α → α → Except ε α) (f : κ × α) (ts : List (κ × α)) :
    (∃ rs, upsert combine f ts = .ok rs ∧ Upserted combine f ts rs) ∨
    ∃ e t, upsert combine f ts = .error e ∧ ts.lookup f.1 = some t ∧ combine f.1 f.2 t = .error e := by
  cases hlookup : ts.lookup f.1 with
  | none =>
    have hout : f.1 ∉ ts.map Prod.fst := by
      intro hin
      obtain ⟨e, he, heq⟩ := List.mem_map.mp hin
      have hne := List.lookup_eq_none_iff.mp hlookup e he
      exact bne_iff_ne.mp hne heq.symm
    refine .inl ⟨ts ++ [f], upsert_of_not_mem hout, ?_, ?_, ?_, ?_⟩
    · intro hts
      rw [List.map_append, List.map_singleton, List.nodup_append]
      refine ⟨hts, List.nodup_singleton _, fun a ha b hb hab => hout ?_⟩
      rw [← List.mem_singleton.mp hb, ← hab]
      exact ha
    · intro k hk
      rw [List.lookup_append, lookup_cons_of_ne hk, List.lookup_nil, Option.or_none]
    · intro _
      rw [List.lookup_append, hlookup, Option.none_or]
      exact List.lookup_cons_self
    · intro t ht
      rw [hlookup] at ht
      cases ht
  | some t =>
    obtain ⟨l₁, l₂, rfl, hbefore⟩ := List.lookup_eq_some_iff.mp hlookup
    have hout : f.1 ∉ l₁.map Prod.fst := by
      intro hin
      obtain ⟨e, he, heq⟩ := List.mem_map.mp hin
      exact bne_iff_ne.mp (hbefore e he) heq.symm
    have hself (r : α) : (l₁ ++ (f.1, r) :: l₂).lookup f.1 = some r := by
      rw [List.lookup_append, lookup_of_not_mem hout, Option.none_or]
      exact List.lookup_cons_self
    cases hcombine : combine f.1 f.2 t with
    | error e =>
      refine .inr ⟨e, t, ?_, rfl, hcombine⟩
      rw [upsert_append hout, hcombine]
      rfl
    | ok r =>
      refine .inl ⟨l₁ ++ (f.1, r) :: l₂, ?_, ?_, ?_, ?_, ?_⟩
      · rw [upsert_append hout, hcombine]
        rfl
      · intro hts
        rw [List.map_append, List.map_cons] at hts ⊢
        exact hts
      · intro k hk
        rw [List.lookup_append, List.lookup_append, lookup_cons_of_ne hk, lookup_cons_of_ne hk]
      · intro hnone
        rw [hself] at hnone
        cases hnone
      · intro t' ht'
        rw [hself] at ht'
        cases ht'
        exact ⟨r, hcombine, hself r⟩

/-! ## All entries -/

/-- One entry, and then those of the other keys. -/
theorem Upserted.cons {ts' : List (κ × α)} (h : Upserted combine f ts ts')
    (hrest : UpsertedAll combine fs ts' rs) (hnone : fs.lookup f.1 = none) :
    UpsertedAll combine (f :: fs) ts rs := by
  have hself : (f :: fs).lookup f.1 = some f.2 := List.lookup_cons_self
  have hkey (k : κ) : k = f.1 ∨ k ≠ f.1 := Classical.em _
  refine ⟨fun hts => hrest.keys (h.keys hts), ?_, ?_, ?_⟩
  · intro k hk
    obtain rfl | hne := hkey k
    · rw [hself] at hk
      cases hk
    · rw [lookup_cons_of_ne hne] at hk
      rw [hrest.left k hk, h.others k hne]
  · intro k v hk ht
    obtain rfl | hne := hkey k
    · rw [hself] at hk
      rw [hrest.left _ hnone, h.new ht, hk]
    · rw [lookup_cons_of_ne hne] at hk
      refine hrest.right k v hk ?_
      rw [h.others k hne, ht]
  · intro k v t hk ht
    obtain rfl | hne := hkey k
    · rw [hself] at hk
      cases hk
      rw [hrest.left _ hnone]
      exact h.common t ht
    · rw [lookup_cons_of_ne hne] at hk
      refine hrest.common k v t hk ?_
      rw [h.others k hne, ht]

theorem upsertAll_spec (combine : κ → α → α → Except ε α) (hfs : (fs.map Prod.fst).Nodup)
    (ts : List (κ × α)) :
    (∃ rs, upsertAll combine fs ts = .ok rs ∧ UpsertedAll combine fs ts rs) ∨
    ∃ e k v t, upsertAll combine fs ts = .error e ∧ fs.lookup k = some v ∧ ts.lookup k = some t ∧
      combine k v t = .error e := by
  induction fs generalizing ts with
  | nil =>
    refine .inl ⟨ts, rfl, fun h => h, fun _ _ => rfl, ?_, ?_⟩
    · intro k v h
      cases h
    · intro k v t h
      cases h
  | cons f fs ih =>
    rw [List.map_cons, List.nodup_cons] at hfs
    have hnone : fs.lookup f.1 = none := lookup_of_not_mem hfs.1
    rw [upsertAll]
    obtain ⟨ts', hupsert, hone⟩ | ⟨e, t, hupsert, ht, hcombine⟩ := upsert_spec combine f ts
    · rw [hupsert]
      obtain ⟨rs, hall, hrest⟩ | ⟨e, k, v, t, hall, hv, ht, hcombine⟩ := ih hfs.2 ts'
      · exact .inl ⟨rs, hall, hone.cons hrest hnone⟩
      · have hne : k ≠ f.1 := by
          rintro rfl
          rw [hnone] at hv
          cases hv
        refine .inr ⟨e, k, v, t, hall, ?_, ?_, hcombine⟩
        · rw [lookup_cons_of_ne hne]
          exact hv
        · rw [← hone.others k hne]
          exact ht
    · refine .inr ⟨e, f.1, f.2, t, ?_, List.lookup_cons_self, ht, hcombine⟩
      rw [hupsert]
      rfl

end Primitives.Lib
