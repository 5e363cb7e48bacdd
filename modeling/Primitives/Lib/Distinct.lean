import Mathlib.Data.List.Induction
import Mathlib.Data.List.Nodup

/-!
# Appending what is new

Lists are appended to one another without the elements that are there already. A list is asked as a
whole, so that an element which it has twice is appended twice if it is new. Exactly where no list has
that (`Fresh`) every element is there once, in the order in which they first appear
(`foldl_appendNew_eq_iff`).
-/

set_option autoImplicit false

namespace Primitives.Lib

variable {α : Type} [DecidableEq α]

/-! ## First appearances -/

/-- Every element once, in the order in which they first appear. -/
def firstAppearances (l : List α) : List α := l.eraseDups

theorem mem_firstAppearances {l : List α} {x : α} : x ∈ firstAppearances l ↔ x ∈ l :=
  List.mem_eraseDups

theorem firstAppearances_concat (l : List α) (x : α) : firstAppearances (l ++ [x]) =
    if x ∈ l then firstAppearances l else firstAppearances l ++ [x] := by
  rw [firstAppearances, firstAppearances, List.eraseDups_append, List.removeAll]
  by_cases hx : x ∈ l <;> simp [hx, List.eraseDups_cons]

theorem nodup_firstAppearances (l : List α) : (firstAppearances l).Nodup := by
  induction l using List.reverseRecOn with
  | nil => exact List.nodup_nil
  | append_singleton l x ih =>
    rw [firstAppearances_concat]
    split
    · exact ih
    · rename_i hx
      refine ih.append (List.nodup_singleton x) ?_
      rw [List.disjoint_singleton, mem_firstAppearances]
      exact hx

theorem firstAppearances_of_nodup {l : List α} (h : l.Nodup) : firstAppearances l = l := by
  induction l using List.reverseRecOn with
  | nil => rfl
  | append_singleton l x ih =>
    obtain ⟨hl, -, hdisjoint⟩ := List.nodup_append'.mp h
    rw [firstAppearances_concat, if_neg (List.disjoint_singleton.mp hdisjoint), ih hl]

/-! ## The new elements of a list -/

/-- The elements of the second list that the first does not have. -/
def newOf (l m : List α) : List α := m.removeAll l

theorem newOf_cons (l : List α) (x : α) (m : List α) :
    newOf l (x :: m) = if x ∈ l then newOf l m else x :: newOf l m := by
  rw [newOf, newOf, List.removeAll, List.removeAll, List.filter_cons]
  by_cases hx : x ∈ l <;> simp [hx]

theorem mem_newOf_iff {l m : List α} {x : α} : x ∈ newOf l m ↔ x ∈ m ∧ x ∉ l := by
  simp [newOf, List.removeAll]

theorem newOf_congr {l l' : List α} (h : ∀ x, x ∈ l ↔ x ∈ l') (m : List α) :
    newOf l m = newOf l' m := by
  refine List.filter_congr fun x _ => ?_
  rw [Bool.eq_iff_iff]
  simp [h x]

/-- What appears first in the second list is what is new of it. -/
theorem firstAppearances_append (l m : List α) :
    firstAppearances (l ++ m) = firstAppearances l ++ firstAppearances (newOf l m) :=
  List.eraseDups_append

/-- The list with the elements of the other behind it that it does not have. -/
def appendNew (l m : List α) : List α := l ++ newOf l m

/-- No list has an element twice that those before it do not have. -/
def Fresh (ls : List (List α)) : Prop :=
  ∀ pre l post, ls = pre ++ l :: post → (newOf pre.flatten l).Nodup

theorem fresh_concat_iff (ls : List (List α)) (l : List α) :
    Fresh (ls ++ [l]) ↔ Fresh ls ∧ (newOf ls.flatten l).Nodup := by
  constructor
  · intro h
    refine ⟨fun pre m post hls => ?_, h ls l [] rfl⟩
    refine h pre m (post ++ [l]) ?_
    rw [hls, List.append_assoc, List.cons_append]
  · rintro ⟨hls, hl⟩ pre m post h
    rcases List.eq_nil_or_concat' post with rfl | ⟨post, n, rfl⟩
    · obtain ⟨rfl, hm⟩ := List.append_inj' h rfl
      rwa [List.cons.inj hm |>.1] at hl
    · rw [← List.cons_append, ← List.append_assoc] at h
      exact hls pre m post (List.append_inj' h rfl).1

theorem mem_foldl_appendNew {ls : List (List α)} {x : α} :
    x ∈ ls.foldl appendNew [] ↔ x ∈ ls.flatten := by
  induction ls using List.reverseRecOn with
  | nil => exact Iff.rfl
  | append_singleton ls l ih =>
    rw [List.foldl_append, List.foldl_cons, List.foldl_nil, appendNew, List.mem_append, ih,
      mem_newOf_iff, ih, List.flatten_append, List.mem_append, List.flatten_singleton]
    exact ⟨fun h => h.imp_right And.left, fun h => (em _).imp_right fun hno =>
      ⟨h.resolve_left hno, hno⟩⟩

theorem foldl_appendNew_concat (ls : List (List α)) (l : List α) :
    (ls ++ [l]).foldl appendNew [] = ls.foldl appendNew [] ++ newOf ls.flatten l := by
  rw [List.foldl_append, List.foldl_cons, List.foldl_nil, appendNew,
    newOf_congr (fun _ => mem_foldl_appendNew)]

/-- What is appended is new, so that only an element which a list has twice can be there twice. -/
theorem nodup_foldl_appendNew_iff (ls : List (List α)) :
    (ls.foldl appendNew []).Nodup ↔ Fresh ls := by
  induction ls using List.reverseRecOn with
  | nil =>
    refine iff_of_true List.nodup_nil fun pre l post h => ?_
    exact absurd h.symm (by simp)
  | append_singleton ls l ih =>
    have hdisjoint : (ls.foldl appendNew []).Disjoint (newOf ls.flatten l) := by
      intro x hx hnew
      exact (mem_newOf_iff.mp hnew).2 (mem_foldl_appendNew.mp hx)
    rw [foldl_appendNew_concat, fresh_concat_iff, List.nodup_append', ih]
    exact and_congr_right fun _ => and_iff_left hdisjoint

/-- **Every element once, in the order of their first appearances**: exactly if no list has an element
twice that is new. -/
theorem foldl_appendNew_eq_iff (ls : List (List α)) :
    ls.foldl appendNew [] = firstAppearances ls.flatten ↔ Fresh ls := by
  constructor
  · intro h
    rw [← nodup_foldl_appendNew_iff, h]
    exact nodup_firstAppearances _
  · intro h
    induction ls using List.reverseRecOn with
    | nil => rfl
    | append_singleton ls l ih =>
      obtain ⟨hls, hl⟩ := (fresh_concat_iff ls l).mp h
      rw [foldl_appendNew_concat, List.flatten_append, List.flatten_singleton,
        firstAppearances_append, ih hls, firstAppearances_of_nodup hl]

end Primitives.Lib
