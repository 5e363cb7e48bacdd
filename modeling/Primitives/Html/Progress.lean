import Mathlib.Logic.Relation
import Primitives.Html.Model

/-!
# HTML — the loop of the tokenizer

An iteration that finds the end of its construct goes on behind it. A search that fails returns `npos`,
and what the code adds to it wraps around: an unclosed comment or CDATA section goes on at position 2,
and an unclosed tag at position 0. So every iteration makes progress if and only if all constructs that
are come to are closed, or the only one that is not is a comment or a CDATA section at position 0 or
1 (`progress_iff`).

`Closed` says it of a text without positions.
-/

set_option autoImplicit false

namespace Primitives.Html

open Lib

/-! ## Closed texts -/

/-- The length of what a text with a `<` begins with, if that is text or is closed. -/
def piece (s : Str) : Option Nat :=
  match find ['<'] s with
  | none => none
  | some (b + 1) => some (b + 1)
  | some 0 =>
    if commentBegin <+: s then (find commentEnd s).map (· + commentEnd.length)
    else if cdataBegin <+: s then (find cdataEnd s).map (· + cdataEnd.length)
    else (find ['>'] s).map (· + 1)

/-- Every comment, CDATA section and tag is closed. -/
inductive Closed : Str → Prop
  | text {s : Str} : '<' ∉ s → Closed s
  | piece {s : Str} {n : Nat} : '<' ∈ s → piece s = some n → Closed (s.drop n) → Closed s

/-- The text begins with a comment or a CDATA section that is not closed. -/
def Cut (s : Str) : Prop :=
  commentBegin <+: s ∧ find commentEnd s = none ∨ cdataBegin <+: s ∧ find cdataEnd s = none

/-- What a token was made of. -/
def Token.source (t : Token) : Str :=
  if t.t = .cdata then cdataBegin ++ (t.d ++ cdataEnd) else t.d

/-- The texts with which the tokenizer comes to an end. -/
def Closes (d : Str) : Prop :=
  Closed d ∨ ∃ t s, d = t ++ s ∧ t.length ≤ 1 ∧ '<' ∉ t ∧ Cut s ∧ Closed (d.drop 2)

/-! ## Progress -/

/-- The iteration leaves the loop, or goes on behind its position. -/
def Advances (d : Str) (p : Nat) : Prop :=
  match step d p with
  | .ok (.leave _) => True
  | .ok (.goOn _ q) => p < q
  | .error _ => False

/-- The loop goes on from `p` at `q`. -/
def Next (d : Str) (p q : Nat) : Prop := ∃ t, step d p = .ok (.goOn t q)

def AllAdvance (d : Str) (p : Nat) : Prop := ∀ q, Relation.ReflTransGen (Next d) p q → Advances d q

/-- Every iteration of `make_tokens` advances. -/
def Progress (d : Str) : Prop := AllAdvance d 0

variable {d : Str} {p q : Nat} {t : Token}

theorem allAdvance_of_leave (h : step d p = .ok (.leave t)) : AllAdvance d p := by
  intro q hq
  rcases hq.cases_head with rfl | ⟨r, ⟨t', ht'⟩, -⟩
  · rw [Advances, h]
    trivial
  · rw [h] at ht'
    cases ht'

theorem allAdvance_iff_of_goOn (h : step d p = .ok (.goOn t q)) :
    AllAdvance d p ↔ p < q ∧ AllAdvance d q := by
  constructor
  · intro hall
    have hp := hall p .refl
    rw [Advances, h] at hp
    exact ⟨hp, fun r hr => hall r (.head ⟨t, h⟩ hr)⟩
  · rintro ⟨hlt, hall⟩ r hr
    rcases hr.cases_head with rfl | ⟨q', ⟨t', ht'⟩, hr⟩
    · rw [Advances, h]
      exact hlt
    · rw [h] at ht'
      cases ht'
      exact hall r hr

theorem not_allAdvance_of_error {f : Failure} (h : step d p = .error f) : ¬ AllAdvance d p := by
  intro hall
  have hp := hall p .refl
  rw [Advances, h] at hp
  exact hp

/-! ## Iterations -/

theorem find_singleton_none_iff {c : Char} {s : Str} : find [c] s = none ↔ c ∉ s := by
  induction s with
  | nil => simp [find]
  | cons x s ih =>
    rw [find, List.mem_cons, not_or]
    by_cases hx : c = x
    · rw [if_pos (by rw [hx]; exact ⟨s, rfl⟩)]
      exact iff_of_false (Option.some_ne_none 0) fun h => h.1 hx
    · have hno : ¬ [c] <+: x :: s := by
        intro hpre
        exact hx (List.cons_prefix_cons.mp hpre).1
      rw [if_neg hno, Option.map_eq_none_iff, ih]
      exact (and_iff_right hx).symm

theorem find_singleton_zero {c : Char} {s : Str} (h : find [c] s = some 0) : [c] <+: s :=
  (find_eq_some_iff.mp h).2.1

theorem find_le {pat s : Str} {i : Nat} (h : find pat s = some i) : i + pat.length ≤ s.length := by
  obtain ⟨hle, hpre, -⟩ := find_eq_some_iff.mp h
  have := hpre.length_le
  rw [List.length_drop] at this
  omega

theorem findFrom_of_some {pat : Str} {i : Nat} (h : find pat (d.drop p) = some i) :
    findFrom pat d p = p + i := by
  rw [findFrom, h]

theorem findFrom_of_none {pat : Str} (h : find pat (d.drop p) = none) :
    findFrom pat d p = npos := by
  rw [findFrom, h]

theorem substr_of_le {n : Nat} (hp : p ≤ d.length) : substr d p n = .ok ((d.drop p).take n) :=
  if_pos hp

/-- A place that is found is none that `npos` stands for. -/
theorem findFrom_lt {pat : Str} {i : Nat} (hd : d.length < 2 ^ 64) (hpat : pat ≠ [])
    (h : find pat (d.drop p) = some i) :
    findFrom pat d p = p + i ∧ p + i + pat.length ≤ d.length ∧ p + i ≠ npos := by
  have hle := find_le h
  have hpos := List.length_pos_of_ne_nil hpat
  rw [List.length_drop] at hle
  have hnpos : npos = 2 ^ 64 - 1 := rfl
  exact ⟨findFrom_of_some h, by omega, by omega⟩

theorem step_leave (hd : d.length < 2 ^ 64) (hp : p ≤ d.length) (h : '<' ∉ d.drop p) :
    step d p = .ok (.leave ⟨.text, d.drop p⟩) := by
  have hcount : sizeT (d.length - p) = (d.drop p).length := by
    rw [List.length_drop]
    exact sizeT_sub hp hd
  rw [step]
  simp only [findFrom_of_none (find_singleton_none_iff.mpr h), substr_of_le hp, hcount, List.take_length]
  rfl

/-- Where the rest begins with a `<`. -/
theorem step_of_find_zero (hd : d.length < 2 ^ 64) (h : find ['<'] (d.drop p) = some 0) :
    step d p =
      if commentBegin <+: d.drop p then do
        let e := sizeT (findFrom commentEnd d p + commentEnd.length)
        let t ← substr d p (sizeT (e - p))
        return .goOn ⟨.comment, t⟩ e
      else if cdataBegin <+: d.drop p then do
        let e := findFrom cdataEnd d p
        let b := p + cdataBegin.length
        let t ← substr d b (sizeT (e - b))
        return .goOn ⟨.cdata, t⟩ (sizeT (e + cdataEnd.length))
      else do
        let e := sizeT (findFrom ['>'] d p + 1)
        let t ← substr d p (sizeT (e - p))
        let type ← tagType t
        return .goOn ⟨type, t⟩ e := by
  obtain ⟨hfind, -, hnpos⟩ := findFrom_lt hd (by simp) h
  rw [step]
  simp only [hfind, Nat.add_zero] at hnpos ⊢
  rw [if_neg hnpos, if_neg (not_not_intro rfl)]

theorem tagType_of_ne_nil {t : Str} (h : t ≠ []) : ∃ type, tagType t = .ok type := by
  rw [tagType, if_neg h]
  split
  · exact ⟨_, rfl⟩
  · split
    · exact ⟨_, rfl⟩
    · exact ⟨_, rfl⟩

theorem tagType_ne_cdata {t : Str} {type : TokenType} (h : tagType t = .ok type) : type ≠ .cdata := by
  rw [tagType] at h
  rintro rfl
  split at h
  · cases h
  · split at h
    · cases h
    · split at h
      · cases h
      · split at h <;> cases h

/-- The end of a CDATA section is no part of its beginning. -/
theorem source_cdata {s : Str} {i : Nat} (hpre : cdataBegin <+: s) (hi : find cdataEnd s = some i) :
    cdataBegin.length ≤ i ∧
      Token.source ⟨.cdata, (s.drop cdataBegin.length).take (i - cdataBegin.length)⟩ =
        s.take (i + cdataEnd.length) := by
  obtain ⟨-, hend, -⟩ := find_eq_some_iff.mp hi
  obtain ⟨rest, rfl⟩ := hpre
  have hge : cdataBegin.length ≤ i := by
    by_contra hlt
    have hhead : (cdataBegin ++ rest)[i]? = some ']' := by
      obtain ⟨u, hu⟩ := hend
      rw [← List.head?_drop, ← hu]
      rfl
    rw [List.getElem?_append_left (not_le.mp hlt)] at hhead
    have hno : ']' ∉ cdataBegin := by decide
    exact hno (List.mem_of_getElem? hhead)
  refine ⟨hge, ?_⟩
  rw [Token.source, if_pos rfl, List.take_add, List.drop_left]
  have hcdata : ((cdataBegin ++ rest).drop i).take cdataEnd.length = cdataEnd := by
    obtain ⟨u, hu⟩ := hend
    rw [← hu, List.take_left]
  rw [hcdata, List.take_append, List.take_of_length_le hge, List.append_assoc]

theorem tagType_cases (t : Str) :
    tagType t = .error .undefined ∨ ∃ type, tagType t = .ok type := by
  by_cases h : t = []
  · rw [h]
    exact .inl rfl
  · exact .inr (tagType_of_ne_nil h)

theorem add_length_le_of_isPrefix {pre : Str} (hp : p ≤ d.length) (h : pre <+: d.drop p) :
    p + pre.length ≤ d.length := by
  have := h.length_le
  rw [List.length_drop] at this
  omega

/-- **A construct that is closed** is what the token is made of. -/
theorem step_piece (hd : d.length < 2 ^ 64) (hp : p ≤ d.length) {n : Nat}
    (h : piece (d.drop p) = some n) :
    0 < n ∧ p + n ≤ d.length ∧
      ∃ t, step d p = .ok (.goOn t (p + n)) ∧ t.source = (d.drop p).take n := by
  rw [piece] at h
  split at h
  · cases h
  · rename_i b hfind
    cases h
    obtain ⟨hb, hle, hnpos⟩ := findFrom_lt hd (by simp) hfind
    rw [List.length_singleton] at hle
    refine ⟨Nat.succ_pos b, by omega, ⟨.text, (d.drop p).take (b + 1)⟩, ?_, rfl⟩
    rw [step]
    simp only [hb]
    rw [if_neg hnpos, if_pos (by omega), substr_of_le hp, Nat.add_sub_cancel_left]
    rfl
  · rename_i hfind
    rw [step_of_find_zero hd hfind]
    split at h
    · rename_i hcomment
      obtain ⟨i, hi, rfl⟩ := Option.map_eq_some_iff.mp h
      obtain ⟨he, hle, -⟩ := findFrom_lt hd (by simp [commentEnd]) hi
      have hsize : sizeT ((p + i : Nat) + commentEnd.length) = p + (i + commentEnd.length) :=
        (sizeT_add (by omega)).trans (Nat.add_assoc ..)
      have hcount : sizeT ((p + (i + commentEnd.length) : Nat) - (p : Int)) = i + commentEnd.length :=
        sizeT_add_sub (by omega)
      rw [if_pos hcomment]
      simp only [he, hsize, substr_of_le hp, hcount]
      exact ⟨Nat.add_pos_right _ (by decide), by omega, _, rfl, rfl⟩
    · rename_i hcomment
      rw [if_neg hcomment]
      split at h
      · rename_i hcdata
        obtain ⟨i, hi, rfl⟩ := Option.map_eq_some_iff.mp h
        obtain ⟨he, hle, -⟩ := findFrom_lt hd (by simp [cdataEnd]) hi
        obtain ⟨hge, hsource⟩ := source_cdata hcdata hi
        have hsize : sizeT ((p + i : Nat) + cdataEnd.length) = p + (i + cdataEnd.length) :=
          (sizeT_add (by omega)).trans (Nat.add_assoc ..)
        have hcount : sizeT ((p + i : Nat) - ((p + cdataBegin.length : Nat) : Int)) = i - cdataBegin.length :=
          (sizeT_sub (Nat.add_le_add_left hge p) (by omega)).trans (Nat.add_sub_add_left ..)
        rw [if_pos hcdata]
        simp only [he, hsize, substr_of_le (add_length_le_of_isPrefix hp hcdata), hcount]
        refine ⟨Nat.add_pos_right _ (by decide), by omega, _, rfl, ?_⟩
        rw [← hsource, List.drop_drop]
      · rename_i hcdata
        obtain ⟨i, hi, rfl⟩ := Option.map_eq_some_iff.mp h
        obtain ⟨he, hle, -⟩ := findFrom_lt hd (by simp) hi
        rw [List.length_singleton] at hle
        have hsize : sizeT ((p + i : Nat) + 1) = p + (i + 1) :=
          (sizeT_add (n := 1) (by omega)).trans (Nat.add_assoc ..)
        have hcount : sizeT ((p + (i + 1) : Nat) - (p : Int)) = i + 1 := sizeT_add_sub (by omega)
        have hne : (d.drop p).take (i + 1) ≠ [] := by
          intro hnil
          have := congrArg List.length hnil
          rw [List.length_take, List.length_drop, List.length_nil] at this
          omega
        obtain ⟨type, htype⟩ := tagType_of_ne_nil hne
        rw [if_neg hcdata]
        simp only [he, hsize, substr_of_le hp, hcount]
        refine ⟨Nat.succ_pos i, by omega, ⟨type, (d.drop p).take (i + 1)⟩, ?_,
          if_neg (tagType_ne_cdata htype)⟩
        show (do
          let type ← tagType ((d.drop p).take (i + 1))
          return Step.goOn ⟨type, (d.drop p).take (i + 1)⟩ (p + (i + 1))) = _
        rw [htype]
        rfl

/-- **A construct that is not closed**: the loop goes on at position 2, or at position 0 unless
that is undefined. -/
theorem step_open (hd : d.length < 2 ^ 64) (hp : p ≤ d.length) (hmem : '<' ∈ d.drop p)
    (h : piece (d.drop p) = none) :
    (Cut (d.drop p) ∧ 2 ≤ d.length ∧ ∃ t, step d p = .ok (.goOn t 2)) ∨
    (¬ Cut (d.drop p) ∧ (step d p = .error .undefined ∨ ∃ t, step d p = .ok (.goOn t 0))) := by
  rw [piece] at h
  split at h
  · rename_i hfind
    exact absurd hmem (find_singleton_none_iff.mp hfind)
  · cases h
  · rename_i hfind
    rw [step_of_find_zero hd hfind]
    split at h
    · rename_i hcomment
      have hlen := add_length_le_of_isPrefix hp hcomment
      have hnone : find commentEnd (d.drop p) = none := Option.map_eq_none_iff.mp h
      rw [if_pos hcomment]
      simp only [findFrom_of_none hnone, substr_of_le hp]
      refine .inl ⟨.inl ⟨hcomment, hnone⟩, ?_, _, rfl⟩
      simp only [commentBegin, List.length_cons, List.length_nil] at hlen
      omega
    · rename_i hcomment
      rw [if_neg hcomment]
      split at h
      · rename_i hcdata
        have hlen := add_length_le_of_isPrefix hp hcdata
        have hnone : find cdataEnd (d.drop p) = none := Option.map_eq_none_iff.mp h
        rw [if_pos hcdata]
        simp only [findFrom_of_none hnone, substr_of_le hlen]
        refine .inl ⟨.inr ⟨hcdata, hnone⟩, ?_, _, rfl⟩
        simp only [cdataBegin, List.length_cons, List.length_nil] at hlen
        omega
      · rename_i hcdata
        have hnone : find ['>'] (d.drop p) = none := Option.map_eq_none_iff.mp h
        refine .inr ⟨fun hcut => ?_, ?_⟩
        · rcases hcut with ⟨hpre, -⟩ | ⟨hpre, -⟩
          · exact hcomment hpre
          · exact hcdata hpre
        · rw [if_neg hcdata]
          simp only [findFrom_of_none hnone, substr_of_le hp]
          have hzero : sizeT ((npos : Int) + 1) = 0 := rfl
          rw [hzero]
          rcases tagType_cases ((d.drop p).take (sizeT ((0 : Nat) - (p : Int)))) with
            herror | ⟨type, htype⟩
          · refine .inl ?_
            simp only [bind, Except.bind, herror]
          · refine .inr ⟨⟨type, (d.drop p).take (sizeT ((0 : Nat) - (p : Int)))⟩, ?_⟩
            simp only [bind, Except.bind, htype]
            rfl

/-! ## The loop -/

theorem closed_iff_of_piece {s : Str} {n : Nat} (hmem : '<' ∈ s) (h : piece s = some n) :
    Closed s ↔ Closed (s.drop n) := by
  constructor
  · intro hclosed
    cases hclosed with
    | text hno => exact absurd hmem hno
    | piece _ hn hrest =>
      rw [h] at hn
      cases hn
      exact hrest
  · exact .piece hmem h

theorem find_eq_zero {pat s : Str} (h : pat <+: s) : find pat s = some 0 :=
  find_eq_some_iff.mpr ⟨Nat.zero_le _, h, fun _ hj => absurd hj (Nat.not_lt_zero _)⟩

theorem lt_prefix_of_cut {s : Str} (h : Cut s) : ['<'] <+: s := by
  rcases h with ⟨hpre, -⟩ | ⟨hpre, -⟩
  · exact List.IsPrefix.trans ⟨_, rfl⟩ hpre
  · exact List.IsPrefix.trans ⟨_, rfl⟩ hpre

theorem piece_eq_none_of_cut {s : Str} (h : Cut s) : piece s = none := by
  rw [piece, find_eq_zero (lt_prefix_of_cut h)]
  rcases h with ⟨hcomment, hnone⟩ | ⟨hcdata, hnone⟩
  · simp only [if_pos hcomment, hnone, Option.map_none]
  · have hcomment : ¬ commentBegin <+: s := by
      intro hcomment
      have := List.prefix_of_prefix_length_le hcomment hcdata (by decide)
      exact absurd this (by decide)
    simp only [if_neg hcomment, if_pos hcdata, hnone, Option.map_none]

theorem not_closed_of_open {s : Str} (hmem : '<' ∈ s) (h : piece s = none) : ¬ Closed s := by
  intro hclosed
  cases hclosed with
  | text hno => exact hno hmem
  | piece _ hn _ =>
    rw [h] at hn
    cases hn

/-- From position 2 on, the loop advances if and only if all constructs are closed. -/
theorem allAdvance_iff_closed (hd : d.length < 2 ^ 64) (h2 : 2 ≤ p) (hp : p ≤ d.length) :
    AllAdvance d p ↔ Closed (d.drop p) := by
  induction hk : d.length - p using Nat.strongRecOn generalizing p with
  | ind k ih =>
    by_cases hmem : '<' ∈ d.drop p
    · cases hpiece : piece (d.drop p) with
      | none =>
        refine iff_of_false ?_ (not_closed_of_open hmem hpiece)
        rcases step_open hd hp hmem hpiece with ⟨-, -, t, ht⟩ | ⟨-, herror | ⟨t, ht⟩⟩
        · rw [allAdvance_iff_of_goOn ht]
          exact fun h => not_lt.mpr h2 h.1
        · exact not_allAdvance_of_error herror
        · rw [allAdvance_iff_of_goOn ht]
          exact fun h => Nat.not_lt_zero p h.1
      | some n =>
        obtain ⟨hn, hle, t, ht, -⟩ := step_piece hd hp hpiece
        rw [allAdvance_iff_of_goOn ht, and_iff_right (Nat.lt_add_of_pos_right hn),
          closed_iff_of_piece hmem hpiece, List.drop_drop]
        exact ih (d.length - (p + n)) (by omega) (by omega) hle rfl
    · exact iff_of_true (allAdvance_of_leave (step_leave hd hp hmem)) (.text hmem)

/-- Before position 2, an unclosed comment or CDATA section lets the loop go on. -/
theorem allAdvance_iff_cut (hd : d.length < 2 ^ 64) (h2 : p < 2) (hp : p ≤ d.length)
    (hpiece : ∀ n, piece (d.drop p) = some n → 2 ≤ p + n) :
    AllAdvance d p ↔ Closed (d.drop p) ∨ Cut (d.drop p) ∧ Closed (d.drop 2) := by
  by_cases hmem : '<' ∈ d.drop p
  · cases h : piece (d.drop p) with
    | none =>
      rw [or_iff_right (not_closed_of_open hmem h)]
      rcases step_open hd hp hmem h with ⟨hcut, hlen, t, ht⟩ | ⟨hcut, herror | ⟨t, ht⟩⟩
      · rw [allAdvance_iff_of_goOn ht, and_iff_right h2, and_iff_right hcut]
        exact allAdvance_iff_closed hd (le_refl 2) hlen
      · exact iff_of_false (not_allAdvance_of_error herror) fun h => hcut h.1
      · rw [allAdvance_iff_of_goOn ht]
        exact iff_of_false (fun h => Nat.not_lt_zero p h.1) fun h => hcut h.1
    | some n =>
      obtain ⟨hn, hle, t, ht, -⟩ := step_piece hd hp h
      have hcut : ¬ Cut (d.drop p) := by
        intro hcut
        rw [piece_eq_none_of_cut hcut] at h
        cases h
      rw [allAdvance_iff_of_goOn ht, and_iff_right (Nat.lt_add_of_pos_right hn),
        allAdvance_iff_closed hd (hpiece n h) hle, closed_iff_of_piece hmem h, List.drop_drop,
        or_iff_left fun h => hcut h.1]
  · exact iff_of_true (allAdvance_of_leave (step_leave hd hp hmem)) (.inl (.text hmem))

/-- The loop comes to an end if it always advances. -/
theorem exists_tokens (hd : d.length < 2 ^ 64) (hp : p ≤ d.length) (h : AllAdvance d p) :
    ∃ n ts, tokensFrom d n p = .ok ts := by
  induction hk : d.length - p using Nat.strongRecOn generalizing p with
  | ind k ih =>
    have hgoOn : ∀ t q, step d p = .ok (.goOn t q) → q ≤ d.length →
        ∃ n ts, tokensFrom d n p = .ok ts := by
      intro t q ht hq
      obtain ⟨hlt, hall⟩ := (allAdvance_iff_of_goOn ht).mp h
      obtain ⟨n, ts, hts⟩ := ih (d.length - q) (by omega) hq hall rfl
      refine ⟨n + 1, t :: ts, ?_⟩
      rw [tokensFrom, ht]
      show (do
        let ts ← tokensFrom d n q
        return t :: ts) = _
      rw [hts]
      rfl
    by_cases hmem : '<' ∈ d.drop p
    · cases hpiece : piece (d.drop p) with
      | none =>
        rcases step_open hd hp hmem hpiece with ⟨-, hlen, t, ht⟩ | ⟨-, herror | ⟨t, ht⟩⟩
        · exact hgoOn t 2 ht hlen
        · exact absurd h (not_allAdvance_of_error herror)
        · exact hgoOn t 0 ht (Nat.zero_le _)
      | some n =>
        obtain ⟨-, hle, t, ht, -⟩ := step_piece hd hp hpiece
        exact hgoOn t (p + n) ht hle
    · refine ⟨1, [⟨.text, d.drop p⟩], ?_⟩
      rw [tokensFrom, step_leave hd hp hmem]
      rfl

/-! ## The first two positions -/

theorem piece_cons {c : Char} {s : Str} (hc : c ≠ '<') (hs : ['<'] <+: s) :
    piece (c :: s) = some 1 := by
  have hno : ¬ ['<'] <+: c :: s := by
    intro hpre
    exact hc (List.cons_prefix_cons.mp hpre).1.symm
  have hfind : find ['<'] (c :: s) = some (0 + 1) := by
    rw [find, if_neg hno, find_eq_zero hs]
    rfl
  rw [piece, hfind]

theorem exists_of_piece_eq_one (h : piece d = some 1) : ∃ c s, d = c :: s ∧ c ≠ '<' := by
  rw [piece] at h
  split at h
  · cases h
  · rename_i b hfind
    obtain rfl : b = 0 := by simpa using h
    obtain ⟨hle, -, hfirst⟩ := find_eq_some_iff.mp hfind
    obtain ⟨c, s, rfl⟩ := List.exists_cons_of_length_pos hle
    refine ⟨c, s, rfl, ?_⟩
    rintro rfl
    exact hfirst 0 Nat.one_pos ⟨s, rfl⟩
  · rename_i hfind
    -- The other constructs are longer than one character.
    have hlong : ∀ pat k, (find pat d).map (· + k) = some 1 → k < 2 := by
      intro pat k hmap
      obtain ⟨i, -, hi⟩ := Option.map_eq_some_iff.mp hmap
      omega
    split at h
    · exact absurd (hlong _ _ h) (by decide)
    · split at h
      · exact absurd (hlong _ _ h) (by decide)
      · obtain ⟨i, hi, hone⟩ := Option.map_eq_some_iff.mp h
        obtain rfl : i = 0 := by omega
        have hboth := List.prefix_of_prefix_length_le (find_singleton_zero hfind)
          (find_singleton_zero hi) (le_refl _)
        exact absurd hboth (by decide)

theorem closes_iff : Closes d ↔ Closed d ∨ Cut d ∧ Closed (d.drop 2) ∨
    piece d = some 1 ∧ Cut (d.drop 1) ∧ Closed (d.drop 2) := by
  refine or_congr_right ⟨?_, ?_⟩
  · rintro ⟨t, s, hd, hlen, hno, hcut, hclosed⟩
    match t with
    | [] =>
      rw [List.nil_append] at hd
      rw [hd] at hclosed ⊢
      exact .inl ⟨hcut, hclosed⟩
    | [c] =>
      rw [List.singleton_append] at hd
      rw [hd] at hclosed ⊢
      have hc : c ≠ '<' := fun hc => hno (List.mem_singleton.mpr hc.symm)
      exact .inr ⟨piece_cons hc (lt_prefix_of_cut hcut), hcut, hclosed⟩
    | _ :: _ :: _ =>
      simp only [List.length_cons] at hlen
      omega
  · rintro (⟨hcut, hclosed⟩ | ⟨hpiece, hcut, hclosed⟩)
    · exact ⟨[], d, rfl, Nat.zero_le 1, List.not_mem_nil, hcut, hclosed⟩
    · obtain ⟨c, s, rfl, hc⟩ := exists_of_piece_eq_one hpiece
      refine ⟨[c], s, rfl, le_refl 1, ?_, hcut, hclosed⟩
      intro hmem
      exact hc (List.mem_singleton.mp hmem).symm

theorem progress_iff_closes (hd : d.length < 2 ^ 64) : Progress d ↔ Closes d := by
  rw [Progress, closes_iff]
  by_cases hone : piece d = some 1
  · -- The text goes up to position 1.
    obtain ⟨c, s, rfl, hc⟩ := exists_of_piece_eq_one hone
    obtain ⟨-, hle, t, ht, -⟩ := step_piece hd (Nat.zero_le _) hone
    have hcut : ¬ Cut (c :: s) := by
      intro hcut
      exact hc (List.cons_prefix_cons.mp (lt_prefix_of_cut hcut)).1.symm
    have hmem : '<' ∈ c :: s := by
      by_contra hno
      rw [piece, find_singleton_none_iff.mpr hno] at hone
      cases hone
    rw [allAdvance_iff_of_goOn ht, and_iff_right Nat.one_pos, and_iff_right hone,
      closed_iff_of_piece hmem hone, or_iff_right (a := Cut (c :: s) ∧ _) fun h => hcut h.1]
    refine allAdvance_iff_cut hd (Nat.lt_succ_self 1) hle fun n hn => ?_
    obtain ⟨hpos, -⟩ := step_piece hd hle hn
    omega
  · rw [or_iff_left (a := Cut d ∧ _) fun h => hone h.1]
    refine allAdvance_iff_cut hd Nat.two_pos (Nat.zero_le _) fun n hn => ?_
    obtain ⟨hpos, -⟩ := step_piece hd (Nat.zero_le _) hn
    rw [List.drop_zero] at hn
    have hne : n ≠ 1 := by
      rintro rfl
      exact hone hn
    omega

/-- **The loop of `make_tokens`** comes to an end, and every iteration leaves it or goes on behind
its position, if and only if the text closes. -/
theorem progress_iff (d : Str) (hd : d.length < 2 ^ 64) :
    (∃ n ts, makeTokens n d = .ok ts) ∧ Progress d ↔ Closes d := by
  rw [progress_iff_closes hd]
  refine and_iff_right_of_imp fun h => ?_
  exact exists_tokens hd (Nat.zero_le _) ((progress_iff_closes hd).mpr h)

theorem progress_tag : (∃ n ts, makeTokens n ['a', '<', 'b', '>'] = .ok ts) ∧
    Progress ['a', '<', 'b', '>'] := by
  refine (progress_iff ['a', '<', 'b', '>'] (by decide)).mpr (.inl ?_)
  exact .piece (n := 1) (by decide) rfl (.piece (n := 3) (by decide) rfl (.text (by decide)))

/-- A `<` without a `>` behind it is read again and again, if it is not the first character. -/
theorem not_progress_lt : step [' ', '<'] 1 = .ok (.goOn ⟨.beginTag, ['<']⟩ 0) ∧
    ¬ Progress [' ', '<'] ∧ ∀ n, makeTokens n [' ', '<'] = .error .fuel := by
  refine ⟨rfl, ?_, ?_⟩
  · intro h
    exact Nat.not_lt_zero 1 (h 1 (.single ⟨_, rfl⟩))
  · have hboth : ∀ n, tokensFrom [' ', '<'] n 0 = .error .fuel ∧
        tokensFrom [' ', '<'] n 1 = .error .fuel := by
      intro n
      induction n with
      | zero => exact ⟨rfl, rfl⟩
      | succ n ih =>
        constructor
        · show (do
            let ts ← tokensFrom [' ', '<'] n 1
            return Token.mk .text [' '] :: ts) = _
          rw [ih.2]
          rfl
        · show (do
            let ts ← tokensFrom [' ', '<'] n 0
            return Token.mk .beginTag ['<'] :: ts) = _
          rw [ih.1]
          rfl
    exact fun n => (hboth n).1

/-! ## The text of the tokens

A token has the text that it was made of, and of a CDATA section what is between its delimiters. The
tokens of a text in which every construct is closed are this text again, one after the other
(`makeTokens_lossless`). -/

/-- The tokens, one after the other. -/
def sourceOf (ts : List Token) : Str := ts.flatMap Token.source

theorem tokensFrom_goOn_source {n q : Nat} {t : Token} {ts : List Token} {s : Str}
    (hstep : step d p = .ok (.goOn t q)) (hts : tokensFrom d n q = .ok ts ∧ sourceOf ts = s) :
    ∃ ts', tokensFrom d (n + 1) p = .ok ts' ∧ sourceOf ts' = t.source ++ s := by
  refine ⟨t :: ts, ?_, ?_⟩
  · rw [tokensFrom, hstep]
    show (do
      let ts ← tokensFrom d n q
      return t :: ts) = _
    rw [hts.1]
    rfl
  · rw [sourceOf, List.flatMap_cons, ← hts.2]
    rfl

/-- **From a position on**, by the constructs that are closed: each of them is the source of one token,
and the next one begins where it ends. -/
theorem tokensFrom_lossless (hd : d.length < 2 ^ 64) {s : Str} (h : Closed s) (hp : p ≤ d.length)
    (hdrop : d.drop p = s) :
    ∃ N, ∀ n ≥ N, ∃ ts, tokensFrom d n p = .ok ts ∧ sourceOf ts = s := by
  induction h generalizing p with
  | @text s hno =>
    refine ⟨1, fun n hn => ⟨[⟨.text, d.drop p⟩], ?_, ?_⟩⟩
    · obtain ⟨n, rfl⟩ := Nat.exists_eq_succ_of_ne_zero (Nat.ne_of_gt hn)
      rw [← hdrop] at hno
      rw [tokensFrom, step_leave hd hp hno]
      rfl
    · rw [hdrop]
      simp [sourceOf, Token.source]
  | @piece s k hmem hpiece _ ih =>
    rw [← hdrop] at hpiece
    obtain ⟨-, hle, t, hstep, hsource⟩ := step_piece hd hp hpiece
    have hnext : d.drop (p + k) = s.drop k := by
      rw [← hdrop, List.drop_drop]
    obtain ⟨N, hN⟩ := ih hle hnext
    refine ⟨N + 1, fun n hn => ?_⟩
    obtain ⟨n, rfl⟩ := Nat.exists_eq_succ_of_ne_zero (Nat.ne_of_gt (Nat.lt_of_lt_of_le N.succ_pos hn))
    obtain ⟨ts, hts⟩ := hN n (Nat.le_of_succ_le_succ hn)
    obtain ⟨ts', hts', hwhole⟩ := tokensFrom_goOn_source hstep hts
    refine ⟨ts', hts', hwhole.trans ?_⟩
    rw [hsource, hdrop, List.take_append_drop]

/-- **Nothing is lost.** The tokens of a text in which every comment, every CDATA section and every tag is
closed give the text back, if the delimiters are put back around the CDATA sections. -/
theorem makeTokens_lossless (d : Str) (hd : d.length < 2 ^ 64) (h : Closed d) :
    ∃ N, ∀ n ≥ N, ∃ ts, makeTokens n d = .ok ts ∧
      (ts.flatMap fun t => if t.t = .cdata then cdataBegin ++ (t.d ++ cdataEnd) else t.d) = d :=
  tokensFrom_lossless hd h (Nat.zero_le _) List.drop_zero

/-- `a<b><![CDATA[<]]>` -/
theorem makeTokens_lossless_cdata :
    let d := ['a', '<', 'b', '>'] ++ cdataBegin ++ ['<'] ++ cdataEnd
    ∃ N, ∀ n ≥ N, ∃ ts, makeTokens n d = .ok ts ∧
      (ts.flatMap fun t => if t.t = .cdata then cdataBegin ++ (t.d ++ cdataEnd) else t.d) = d := by
  refine makeTokens_lossless _ (by decide) ?_
  exact .piece (n := 1) (by decide) rfl (.piece (n := 3) (by decide) rfl
    (.piece (n := 13) (by decide) rfl (.text (by decide))))

end Primitives.Html
