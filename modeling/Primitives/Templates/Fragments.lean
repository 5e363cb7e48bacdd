import Mathlib.Data.List.Infix
import Primitives.Html.Model

/-!
# Fragments of a text

`find_text_between` looks for `to` from where `from` begins, and not from where it ends. What it finds may
begin inside of `from`, and then the length of the fragment is a difference below zero, which is a number
as large as `npos`: the fragment goes on to the end of the text. So the fragments are those between the
two strings exactly if no `to` begins inside of a `from` (`findTextBetween_iff`).
-/

set_option autoImplicit false

namespace Primitives.Templates

open Lib
open Html (Failure npos findFrom substr)

/-! ## The code -/

/-- The loop of `find_text_between`, at a position where `from` is found, or at `npos`. -/
def betweenFrom (text from' to' : Str) : Nat → Nat → Strings → Except Failure Strings
  | 0, _, _ => .error .fuel
  | n + 1, pos, fragments =>
    if pos = npos then .ok fragments
    else
      let pose := findFrom to' text pos
      if pose = npos then .ok fragments
      else do
        let first := sizeT (pos + from'.length)
        let fragment ← substr text first (sizeT (pose - (pos + from'.length)))
        betweenFrom text from' to' n (findFrom from' text (sizeT (pos + 1))) (fragments ++ [fragment])

/-- `find_text_between`. Every round is at another position. -/
def findTextBetween (text from' to' : Str) : Except Failure Strings :=
  betweenFrom text from' to' (text.length + 1) (findFrom from' text 0) []

/-! ## What is between -/

/-- Where the rest of a text begins with `from`: the text from its end to the next `to`, if there is
one. -/
def fragment (from' to' rest : Str) : Option Str :=
  if from' <+: rest then
    (find to' (rest.drop from'.length)).map (rest.drop from'.length).take
  else none

/-- The fragments of a text, in the order of the positions of `from`. -/
def fragments (text from' to' : Str) : Strings := text.tails.filterMap (fragment from' to')

/-- No `to` begins inside of a `from`. -/
def Apart (text from' to' : Str) : Prop :=
  ∀ p q, from' <+: text.drop p → to' <+: text.drop q → p ≤ q → p + from'.length ≤ q

/-! ## The loop -/

section

variable {text from' to' : Str}

/-- What the code has in the place of a fragment: the search begins where `from` does, and a length below
zero is as good as none. -/
def cut (from' to' rest : Str) : Option Str :=
  if from' <+: rest then
    (find to' rest).map fun k =>
      if from'.length ≤ k then (rest.drop from'.length).take (k - from'.length)
      else rest.drop from'.length
  else none

theorem find_tail_of_none {c : Char} {rest : Str} (h : find to' (c :: rest) = none) :
    find to' rest = none := by
  rw [find] at h
  split at h
  · cases h
  · exact Option.map_eq_none_iff.mp h

/-- Without a `to` there is nothing to be cut. -/
theorem filterMap_cut_of_none {rest : Str} (h : find to' rest = none) :
    rest.tails.filterMap (cut from' to') = [] := by
  induction rest with
  | nil =>
    have hcut : cut from' to' [] = none := by simp [cut, h]
    simp [hcut]
  | cons c rest ih =>
    have hcut : cut from' to' (c :: rest) = none := by simp [cut, h]
    rw [List.tails, List.filterMap_cons_none hcut]
    exact ih (find_tail_of_none h)

/-- The text that is cut, as the code has its length. -/
theorem take_sizeT {rest : Str} {n k : Nat} (h : rest.length + n < 2 ^ 64) (hk : k ≤ rest.length + n) :
    rest.take (sizeT ((k : Int) - n)) = if n ≤ k then rest.take (k - n) else rest := by
  split
  · rename_i hle
    rw [sizeT_sub hle (by omega)]
  · rename_i hlt
    have hsize : rest.length ≤ sizeT ((k : Int) - n) := by
      unfold sizeT
      omega
    exact List.take_of_length_le hsize

variable {p n : Nat} {rest : Str}

/-- One round, at a place where `from` begins. -/
theorem betweenFrom_succ (htext : text.length < 2 ^ 64) (hfrom : from' ≠ []) (hto : to' ≠ [])
    (hdrop : text.drop p = rest) (hlen : p + rest.length = text.length) (hpre : from' <+: rest)
    (acc : Strings) :
    betweenFrom text from' to' (n + 1) p acc =
      match find to' rest with
      | none => .ok acc
      | some k =>
        betweenFrom text from' to' n (findFrom from' text (p + 1))
          (acc ++ [if from'.length ≤ k then (rest.drop from'.length).take (k - from'.length)
            else rest.drop from'.length]) := by
  have hfit := hpre.length_le
  have hpos := List.length_pos_of_ne_nil hfrom
  have hnpos : npos = 2 ^ 64 - 1 := rfl
  have hp : p ≠ npos := by omega
  rw [betweenFrom, if_neg hp, findFrom, hdrop]
  cases hfind : find to' rest with
  | none => exact if_pos rfl
  | some k =>
    obtain ⟨hkrest, hprek, -⟩ := find_eq_some_iff.mp hfind
    have hfitk := hprek.length_le
    have hposk := List.length_pos_of_ne_nil hto
    rw [List.length_drop] at hfitk
    have hpk : p + k ≠ npos := by omega
    have hfirst : sizeT ((p : Int) + from'.length) = p + from'.length := sizeT_add (by omega)
    have hnext : sizeT ((p : Int) + 1) = p + 1 := sizeT_add (n := 1) (by omega)
    have hcount : ((p + k : Nat) : Int) - (p + from'.length) = (k : Int) - from'.length := by omega
    have hin : p + from'.length ≤ text.length := by omega
    have hbehind : (rest.drop from'.length).length + from'.length < 2 ^ 64 := by
      rw [List.length_drop]
      omega
    have hk' : k ≤ (rest.drop from'.length).length + from'.length := by
      rw [List.length_drop]
      omega
    dsimp only
    rw [if_neg hpk, hfirst, hnext, hcount, substr, if_pos hin, ← List.drop_drop, hdrop,
      take_sizeT hbehind hk']
    rfl

/-- **The loop** cuts at every place of the rest of the text. -/
theorem betweenFrom_eq (htext : text.length < 2 ^ 64) (hfrom : from' ≠ []) (hto : to' ≠ [])
    (acc : Strings) (hdrop : text.drop p = rest) (hlen : p + rest.length = text.length)
    (hn : rest.length < n) :
    betweenFrom text from' to' n (findFrom from' text p) acc =
      .ok (acc ++ rest.tails.filterMap (cut from' to')) := by
  induction rest generalizing p n acc with
  | nil =>
    obtain ⟨n, rfl⟩ := Nat.exists_eq_succ_of_ne_zero (Nat.ne_of_gt hn)
    have hno : find from' [] = none := if_neg hfrom
    have hcut : cut from' to' [] = none := if_neg fun h => hfrom (List.prefix_nil.mp h)
    rw [findFrom, hdrop, hno, List.tails, List.filterMap_cons_none hcut, List.filterMap_nil,
      List.append_nil]
    exact if_pos rfl
  | cons c rest ih =>
    have hdrop' : text.drop (p + 1) = rest := by rw [← List.drop_drop, hdrop, List.drop_one, List.tail_cons]
    rw [List.length_cons] at hlen hn
    have hlen' : p + 1 + rest.length = text.length := by omega
    rw [List.tails]
    by_cases hpre : from' <+: c :: rest
    · obtain ⟨n, rfl⟩ := Nat.exists_eq_succ_of_ne_zero (show n ≠ 0 by omega)
      have hzero : findFrom from' text p = p := by rw [findFrom, hdrop, find_eq_zero_iff.mpr hpre]; rfl
      rw [hzero, betweenFrom_succ htext hfrom hto hdrop (by rw [List.length_cons]; omega) hpre]
      cases hfind : find to' (c :: rest) with
      | none =>
        have hcut : (c :: rest).tails.filterMap (cut from' to') = [] := filterMap_cut_of_none hfind
        rw [List.tails] at hcut
        rw [hcut, List.append_nil]
      | some k =>
        dsimp only
        rw [ih _ hdrop' hlen' (by omega), List.filterMap_cons, cut, if_pos hpre, hfind,
          List.append_assoc]
        rfl
    · have hcut : cut from' to' (c :: rest) = none := if_neg hpre
      have hskip : findFrom from' text p = findFrom from' text (p + 1) := by
        rw [findFrom, findFrom, hdrop, hdrop', find, if_neg hpre]
        cases find from' rest with
        | none => rfl
        | some i =>
          show p + (i + 1) = p + 1 + i
          omega
      rw [hskip, ih acc hdrop' hlen' (by omega), List.filterMap_cons_none hcut]

theorem findTextBetween_eq (htext : text.length < 2 ^ 64) (hfrom : from' ≠ []) (hto : to' ≠ []) :
    findTextBetween text from' to' = .ok (text.tails.filterMap (cut from' to')) :=
  betweenFrom_eq htext hfrom hto [] rfl (Nat.zero_add _) (Nat.lt_succ_self _)

end

/-! ## Where the code is right -/

variable {from' to' rest : Str}

/-- With no `to` inside of `from`, the search may begin where `from` ends. -/
theorem find_of_apart {n : Nat} (hn : n ≤ rest.length) (h : ∀ k < n, ¬ to' <+: rest.drop k) :
    find to' rest = (find to' (rest.drop n)).map (n + ·) := by
  cases hfind : find to' (rest.drop n) with
  | none =>
    rw [Option.map_none, find_eq_none_iff]
    intro k hk hpre
    by_cases hkn : k < n
    · exact h k hkn hpre
    · refine find_eq_none_iff.mp hfind (k - n) ?_ ?_
      · rw [List.length_drop]
        omega
      · rw [List.drop_drop, Nat.add_sub_cancel' (Nat.le_of_not_lt hkn)]
        exact hpre
  | some j =>
    obtain ⟨hj, hpre, hfirst⟩ := find_eq_some_iff.mp hfind
    rw [List.length_drop] at hj
    rw [List.drop_drop] at hpre
    rw [Option.map_some, find_eq_some_iff]
    refine ⟨by omega, hpre, ?_⟩
    intro k hk hprek
    by_cases hkn : k < n
    · exact h k hkn hprek
    · refine hfirst (k - n) (by omega) ?_
      rw [List.drop_drop, Nat.add_sub_cancel' (Nat.le_of_not_lt hkn)]
      exact hprek

theorem cut_eq_fragment (h : from' <+: rest → ∀ k < from'.length, ¬ to' <+: rest.drop k) :
    cut from' to' rest = fragment from' to' rest := by
  unfold cut fragment
  split
  · rename_i hpre
    rw [find_of_apart hpre.length_le (h hpre), Option.map_map]
    congr 1
    funext j
    show (if from'.length ≤ from'.length + j then _ else _) = _
    rw [if_pos (Nat.le_add_right _ _), Nat.add_sub_cancel_left]
  · rfl

/-- A `to` inside of `from`: what is cut goes on to the end, and a fragment ends before. -/
theorem cut_ne_fragment {k : Nat} (hto : to' ≠ []) (hpre : from' <+: rest) (hk : k < from'.length)
    (hprek : to' <+: rest.drop k) :
    cut from' to' rest = some (rest.drop from'.length) ∧
      fragment from' to' rest ≠ some (rest.drop from'.length) := by
  have hkrest : k ≤ rest.length := Nat.le_trans (Nat.le_of_lt hk) hpre.length_le
  constructor
  · cases hfind : find to' rest with
    | none => exact absurd hprek (find_eq_none_iff.mp hfind k hkrest)
    | some i =>
      obtain ⟨-, -, hfirst⟩ := find_eq_some_iff.mp hfind
      have hik : i ≤ k := Nat.le_of_not_lt fun hlt => hfirst k hlt hprek
      rw [cut, if_pos hpre, hfind, Option.map_some, if_neg (by omega)]
  · rw [fragment, if_pos hpre]
    intro heq
    obtain ⟨j, hfind, htake⟩ := Option.map_eq_some_iff.mp heq
    obtain ⟨-, hprej, -⟩ := find_eq_some_iff.mp hfind
    have hfit := hprej.length_le
    have hpos := List.length_pos_of_ne_nil hto
    have hlen := congrArg List.length htake
    rw [List.length_drop] at hfit
    rw [List.length_take] at hlen
    omega

/-- Where there is a fragment there is something to be cut. -/
theorem cut_isSome (h : (fragment from' to' rest).isSome) : (cut from' to' rest).isSome := by
  by_cases hpre : from' <+: rest
  · rw [fragment, if_pos hpre, Option.isSome_map] at h
    rw [cut, if_pos hpre, Option.isSome_map]
    obtain ⟨j, hfind⟩ := Option.isSome_iff_exists.mp h
    obtain ⟨hj, hprej, -⟩ := find_eq_some_iff.mp hfind
    have hfit := hpre.length_le
    rw [List.length_drop] at hj
    rw [List.drop_drop] at hprej
    cases hnone : find to' rest with
    | none => exact absurd hprej (find_eq_none_iff.mp hnone _ (by omega))
    | some _ => rfl
  · rw [fragment, if_neg hpre] at h
    cases h

/-- Of two selections, one defined wherever the other is, that make one list. -/
theorem eq_of_filterMap_eq {α β : Type} {f g : α → Option β} {l : List α}
    (hdef : ∀ a ∈ l, (g a).isSome → (f a).isSome) (h : l.filterMap f = l.filterMap g) :
    ∀ a ∈ l, f a = g a := by
  have hle : ∀ l : List α, (∀ a ∈ l, (g a).isSome → (f a).isSome) →
      (l.filterMap g).length ≤ (l.filterMap f).length := by
    intro l hl
    rw [List.length_filterMap_eq_countP, List.length_filterMap_eq_countP]
    exact List.countP_mono_left hl
  induction l with
  | nil => exact fun a ha => absurd ha List.not_mem_nil
  | cons b l ih =>
    obtain ⟨hb, hl⟩ := List.forall_mem_cons.mp hdef
    have hlen := hle l hl
    cases hf : f b with
    | none =>
      cases hg : g b with
      | none =>
        rw [List.filterMap_cons_none hf, List.filterMap_cons_none hg] at h
        exact List.forall_mem_cons.mpr ⟨hf.trans hg.symm, ih hl h⟩
      | some y =>
        have hsome := hb (by rw [hg]; rfl)
        rw [hf] at hsome
        cases hsome
    | some x =>
      rw [List.filterMap_cons_some hf] at h
      cases hg : g b with
      | none =>
        -- one more on the left and at least as many behind
        rw [List.filterMap_cons_none hg] at h
        rw [← h, List.length_cons] at hlen
        omega
      | some y =>
        rw [List.filterMap_cons_some hg, List.cons.injEq] at h
        exact List.forall_mem_cons.mpr ⟨by rw [hf, hg, h.1], ih hl h.2⟩

theorem apart_iff {text : Str} :
    Apart text from' to' ↔
      ∀ rest ∈ text.tails, from' <+: rest → ∀ k < from'.length, ¬ to' <+: rest.drop k := by
  constructor
  · intro h rest hrest hpre k hk hprek
    obtain ⟨p, rfl⟩ : ∃ p, text.drop p = rest :=
      ⟨_, (List.suffix_iff_eq_drop.mp ((List.mem_tails _ _).mp hrest)).symm⟩
    rw [List.drop_drop] at hprek
    have hle := h p (p + k) hpre hprek (Nat.le_add_right _ _)
    omega
  · intro h p q hpre hpreq hpq
    by_contra hlt
    refine h (text.drop p) ((List.mem_tails _ _).mpr (List.drop_suffix p text)) hpre (q - p) (by omega) ?_
    rw [List.drop_drop, Nat.add_sub_cancel' hpq]
    exact hpreq

/-- **`find_text_between`** returns the fragments exactly if no `to` begins inside of a `from`. -/
theorem findTextBetween_iff {text : Str} (htext : text.length < 2 ^ 64) (hfrom : from' ≠ [])
    (hto : to' ≠ []) :
    findTextBetween text from' to' = .ok (fragments text from' to') ↔ Apart text from' to' := by
  rw [findTextBetween_eq htext hfrom hto, Except.ok.injEq, apart_iff, fragments]
  constructor
  · intro h rest hrest hpre k hk hprek
    obtain ⟨hcut, hne⟩ := cut_ne_fragment hto hpre hk hprek
    refine hne ?_
    rw [← hcut]
    exact (eq_of_filterMap_eq (fun _ _ => cut_isSome) h rest hrest).symm
  · exact fun h => List.filterMap_congr fun rest hrest => cut_eq_fragment (h rest hrest)

/-- What stands between two pairs of brackets. -/
theorem findTextBetween_brackets :
    findTextBetween ['[', 'a', ']', '[', ']'] ['['] [']'] =
      .ok (fragments ['[', 'a', ']', '[', ']'] ['['] [']']) :=
  (findTextBetween_iff (by decide) (by decide) (by decide)).mpr
    (apart_iff.mpr (by decide))

/-- One quote for both: the code has the rest of the text, two times. -/
theorem findTextBetween_quote :
    findTextBetween ['a', 'x', 'a'] ['a'] ['a'] = .ok [['x', 'a'], []] ∧
      fragments ['a', 'x', 'a'] ['a'] ['a'] = [['x']] := by
  decide

end Primitives.Templates
