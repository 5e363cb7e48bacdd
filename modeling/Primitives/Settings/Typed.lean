import Primitives.Lib.Fallible
import Primitives.Lib.Path
import Primitives.Makefile.Words
import Primitives.Settings.Any

/-!
# Settings of a type — what comes back of a text

The `any` that the parser of a type makes must hold just this type. `std::stoi` returns `int`, so what
is printed as one of the five other types that are parsed with it is never given back, and with
`std::stoll` and `std::stoull` it depends on the platform. A path comes back without a zero in it,
and texts in a vector are set apart by commas, but come back set apart by commas and blanks. `Kept`
says what comes back, type by type, and `as_iff` that it is this and no more.
-/

set_option autoImplicit false

namespace Primitives.Settings.Typed

open Lib
open Makefile (splitString IsPiece Trimmed splitString_terminated_iff)

variable {p : Platform}

/-! ## Numbers -/

theorem sto_intStr {lo hi : Int} (v : Between lo hi) : sto lo hi (intStr v.1) = .ok v := by
  rw [sto, parseInt_intStr]
  exact dif_pos v.2

theorem stoull_intStr (v : Between 0 18446744073709551615) : stoull (intStr v.1) = .ok v := by
  obtain ⟨i, hi⟩ := v
  have hnat : i.natAbs ≤ 18446744073709551615 := by omega
  have hmod : i % 18446744073709551616 = i := by omega
  rw [stoull, parseInt_intStr]
  simp only [hnat, if_true, hmod]

theorem mem_intStr {i : Int} {c : Char} (h : c ∈ intStr i) : c = '-' ∨ isDigit c = true := by
  unfold intStr at h
  split at h
  · rcases List.mem_cons.mp h with h | h
    · exact .inl h
    · exact .inr (isDigit_of_mem_decimalStr h)
  · exact .inr (isDigit_of_mem_decimalStr h)

theorem isPiece_intStr (i : Int) : IsPiece vectorDelims (intStr i) := by
  have hspace : ∀ c ∈ intStr i, Makefile.isSpace c = false := by
    intro c hc
    rcases mem_intStr hc with rfl | hc
    · decide
    · exact not_isSpace_of_isDigit hc
  refine ⟨?_, ⟨?_, ?_⟩, ?_⟩
  · unfold intStr
    split
    · exact List.cons_ne_nil _ _
    · exact decimalStr_ne_nil _
  · exact fun c hc => hspace c (List.mem_of_head? hc)
  · exact fun c hc => hspace c (List.mem_of_getLast? hc)
  · intro c hc hmem
    simp only [vectorDelims, List.mem_cons, List.not_mem_nil, or_false] at hmem
    rcases mem_intStr hc with rfl | hc
    · rcases hmem with h | h <;> exact absurd h (by decide)
    · rcases hmem with rfl | rfl <;> cases hc

/-! ## Vectors -/

/-- The texts of the elements, and what is read of them. -/
theorem fromString_vector {u : Elem} (vs : List ((u.ctype p).Val p))
    (hback : ∀ v : (u.ctype p).Val p, u.fromString (u.toString v) = .ok v)
    (hpieces : ∀ v ∈ vs, IsPiece vectorDelims (u.toString v)) :
    (parserVector u).fromString ((parserVector u).toString vs) =
      .ok ⟨.vector (u.ctype p), vs⟩ := by
  have htext : (parserVector u).toString vs =
      (vs.map u.toString).flatMap fun w => w ++ [','] := by
    rw [List.flatMap_map]
    rfl
  have hsplit : splitString ((parserVector u).toString vs) vectorDelims = vs.map u.toString := by
    rw [htext, splitString_terminated_iff (by decide)]
    intro w hw
    obtain ⟨v, hv, rfl⟩ := List.mem_map.mp hw
    exact hpieces v hv
  change ((splitString _ vectorDelims).mapM u.fromString >>= _) = _
  rw [hsplit, mapM_map_eq_ok hback]
  rfl

/-! ## `as` -/

theorem Any.cast_self (t : CType) (v : t.Val p) : Any.cast t ⟨t, v⟩ = some v := dif_pos rfl

theorem Any.cast_ne {t : CType} {a : Any p} (h : a.type ≠ t) : a.cast t = none := dif_neg h

/-- What a text is read as. -/
def reads (t : Ty) (text : Str) : Except Exception ((t.ctype p).Val p) :=
  match (parser t).fromString text with
  | .error e => .error e
  | .ok a =>
    match a.cast (t.ctype p) with
    | some v => .ok v
    | none => .error (.runtimeError "Bad any_cast".toList)

theorem as_fst {s : Setting p} (hne : s.representation ≠ [])
    (hallowed : s.representation ∉ s.excludedValues) (t : Ty) :
    (s.as t).1 = reads t s.representation := by
  rw [Setting.as, Setting.convert, if_neg hne,
    if_neg fun hin => hallowed (List.contains_iff_mem.mp hin), reads]
  dsimp only
  cases (parser t).fromString s.representation with
  | error e => rfl
  | ok a =>
    dsimp only [Option.bind_some]
    cases a.cast (t.ctype p) <;> rfl

theorem as_prohibited {s : Setting p} (hne : s.representation ≠ [])
    (hprohibited : s.representation ∈ s.excludedValues) (t : Ty) :
    (s.as t).1 = .error (.runtimeError (Setting.prohibited s.representation)) := by
  rw [Setting.as, Setting.convert, if_neg hne, if_pos (List.contains_iff_mem.mpr hprohibited)]

theorem reads_of_eq_ok {t : Ty} {text : Str} {v : (t.ctype p).Val p}
    (h : (parser t).fromString text = .ok ⟨t.ctype p, v⟩) : reads t text = .ok v := by
  rw [reads, h]
  dsimp only
  rw [Any.cast_self]

/-- The `any` holds what the function returns. -/
theorem type_of_parserSpecialization {α : Type} {toInt : α → Int} {c : CType}
    {f : Str → Except Exception (c.Val p)} {text : Str} {a : Any p}
    (h : (parserSpecialization toInt c f).fromString text = .ok a) : a.type = c := by
  obtain ⟨v, -, hv⟩ := of_bind_eq_ok h
  cases hv
  rfl

/-- A value of another type is not given. -/
theorem reads_ne_ok {t : Ty} {c : CType} {f : Str → Except Exception (c.Val p)}
    {toInt : (t.ctype p).Val p → Int}
    (hparser : (parser t : Parser p _) = parserSpecialization toInt c f) (hne : c ≠ t.ctype p)
    (text : Str) (v : (t.ctype p).Val p) : reads t text ≠ .ok v := by
  intro h
  rw [reads] at h
  split at h
  · cases h
  · rename_i a ha
    rw [hparser] at ha
    have htype : a.type ≠ t.ctype p := by
      rw [type_of_parserSpecialization ha]
      exact hne
    rw [Any.cast_ne htype] at h
    cases h

/-! ## What comes back -/

/-- `==`: paths are equal whose names are. -/
def Same : (t : Ty) → (v w : (t.ctype p).Val p) → Prop
  | .path, v, w => Path.ofText v = Path.ofText w
  | _, v, w => v = w

theorem Same.refl (t : Ty) (v : (t.ctype p).Val p) : Same t v v := by
  cases t <;> rfl

/-- The values that come back. -/
def Kept : (t : Ty) → (t.ctype p).Val p → Prop
  | .char, _ => False
  | .unsignedChar, _ => False
  | .short, _ => False
  | .unsignedShort, _ => False
  | .unsignedInt, _ => False
  | .int, _ => True
  | .int64, _ => p.int64 = .longLong
  | .uint64, _ => p.int64 = .longLong
  | .bool, _ => True
  | .string, _ => True
  | .path, v => '\x00' ∉ v
  | .vector .int32, _ => True
  | .vector .int64, _ => True
  | .vector .uint64, _ => True
  | .vector .string, ws => ∀ w ∈ ws, IsPiece vectorDelims w

/-- The value is given back. -/
def Back (t : Ty) (v : (t.ctype p).Val p) : Prop :=
  ∃ w, reads t ((parser t).toString v) = .ok w ∧ Same t w v

theorem back_of_eq_ok {t : Ty} {v : (t.ctype p).Val p}
    (h : (parser t).fromString ((parser t).toString v) = .ok ⟨t.ctype p, v⟩) : Back t v :=
  ⟨v, reads_of_eq_ok h, .refl t v⟩

theorem not_back {t : Ty} {c : CType} {f : Str → Except Exception (c.Val p)}
    {toInt : (t.ctype p).Val p → Int}
    (hparser : (parser t : Parser p _) = parserSpecialization toInt c f) (hne : c ≠ t.ctype p)
    (v : (t.ctype p).Val p) : ¬ Back t v := by
  rintro ⟨w, hw, -⟩
  exact reads_ne_ok hparser hne _ w hw

/-! ## Type by type -/

theorem back_int (v : (Ty.int.ctype p).Val p) : Back .int v := by
  refine back_of_eq_ok ?_
  change (stoi (intStr v.1) >>= _) = _
  rw [stoi, sto_intStr]
  rfl

theorem back_int64 (hp : p.int64 = .longLong) (v : (Ty.int64.ctype p).Val p) : Back .int64 v := by
  obtain ⟨charSigned, int64⟩ := p
  cases hp
  refine back_of_eq_ok ?_
  change (stoll (intStr v.1) >>= _) = _
  rw [stoll, sto_intStr]
  rfl

theorem back_uint64 (hp : p.int64 = .longLong) (v : (Ty.uint64.ctype p).Val p) :
    Back .uint64 v := by
  obtain ⟨charSigned, int64⟩ := p
  cases hp
  refine back_of_eq_ok ?_
  change (stoull (intStr v.1) >>= _) = _
  rw [stoull_intStr]
  rfl

theorem back_bool (v : (Ty.bool.ctype p).Val p) : Back .bool v := by
  refine back_of_eq_ok ?_
  cases v <;> rfl

/-- What is read has no zero, so its names have none. -/
theorem back_path_iff (v : Str) : Back (p := p) .path v ↔ '\x00' ∉ v := by
  have hreads : reads (p := p) .path v = .ok (v.takeWhile (· ≠ '\x00')) := reads_of_eq_ok rfl
  constructor
  · rintro ⟨w, hw, hsame⟩ hmem
    have heq := Except.ok.inj (hreads.symm.trans hw)
    have hnames := (Path.mem_names_ofText (by decide) v).mpr hmem
    rw [← show Path.ofText w = Path.ofText v from hsame, ← heq] at hnames
    have hzero := List.mem_takeWhile_imp ((Path.mem_names_ofText (by decide) _).mp hnames)
    exact absurd hzero (by decide)
  · intro hmem
    refine ⟨v, hreads.trans (congrArg Except.ok ?_), rfl⟩
    refine List.takeWhile_eq_self_iff.mpr fun c hc => decide_eq_true ?_
    rintro rfl
    exact hmem hc

theorem back_vector {u : Elem} (vs : List ((u.ctype p).Val p))
    (hback : ∀ v : (u.ctype p).Val p, u.fromString (u.toString v) = .ok v)
    (hpieces : ∀ v ∈ vs, IsPiece vectorDelims (u.toString v)) : Back (p := p) (.vector u) vs :=
  back_of_eq_ok (fromString_vector vs hback hpieces)

theorem back_strings_iff (ws : List Str) :
    Back (p := p) (.vector .string) ws ↔ ∀ w ∈ ws, IsPiece vectorDelims w := by
  have hreads : reads (p := p) (.vector .string) (ws.flatMap fun w => w ++ [',']) =
      .ok (splitString (ws.flatMap fun w => w ++ [',']) vectorDelims) := by
    refine reads_of_eq_ok ?_
    have hall := mapM_map_eq_ok (f := Elem.string.fromString (p := p)) (g := id) (fun w => rfl)
      (splitString (ws.flatMap fun w => w ++ [',']) vectorDelims)
    rw [List.map_id] at hall
    change ((splitString _ vectorDelims).mapM (Elem.string.fromString (p := p)) >>= _) = _
    rw [hall]
    rfl
  rw [← splitString_terminated_iff (d := ',') (by decide)]
  constructor
  · rintro ⟨vs, hvs, hsame⟩
    exact (Except.ok.inj (hreads.symm.trans hvs)).trans hsame
  · exact fun h => ⟨_, hreads, h⟩

theorem back_iff (t : Ty) (v : (t.ctype p).Val p) : Back t v ↔ Kept t v := by
  cases t with
  | char => exact iff_of_false (not_back rfl CType.noConfusion v) id
  | unsignedChar => exact iff_of_false (not_back rfl CType.noConfusion v) id
  | short => exact iff_of_false (not_back rfl CType.noConfusion v) id
  | unsignedShort => exact iff_of_false (not_back rfl CType.noConfusion v) id
  | unsignedInt => exact iff_of_false (not_back rfl CType.noConfusion v) id
  | int => exact iff_of_true (back_int v) trivial
  | int64 =>
    refine ⟨fun h => ?_, fun hp => back_int64 hp v⟩
    by_contra hp
    exact not_back rfl (fun heq => hp (CType.wide.inj heq).symm) v h
  | uint64 =>
    refine ⟨fun h => ?_, fun hp => back_uint64 hp v⟩
    by_contra hp
    exact not_back rfl (fun heq => hp (CType.unsignedWide.inj heq).symm) v h
  | bool => exact iff_of_true (back_bool v) trivial
  | string => exact iff_of_true (back_of_eq_ok rfl) trivial
  | path => exact back_path_iff v
  | vector u =>
    cases u with
    | int32 => exact iff_of_true (back_vector v sto_intStr fun i _ => isPiece_intStr i.1) trivial
    | int64 => exact iff_of_true (back_vector v sto_intStr fun i _ => isPiece_intStr i.1) trivial
    | uint64 =>
      exact iff_of_true (back_vector v stoull_intStr fun i _ => isPiece_intStr i.1) trivial
    | string => exact back_strings_iff v

/-- **A setting gives back what was printed** if and only if it does not exclude the text and the
value is one that comes back. -/
theorem as_iff {s : Setting p} {t : Ty} {v : (t.ctype p).Val p}
    (htext : s.representation = (parser t).toString v) (hne : s.representation ≠ []) :
    (∃ w, (s.as t).1 = .ok w ∧ Same t w v) ↔
      s.representation ∉ s.excludedValues ∧ Kept t v := by
  by_cases hallowed : s.representation ∈ s.excludedValues
  · rw [as_prohibited hne hallowed]
    refine iff_of_false ?_ fun h => h.1 hallowed
    rintro ⟨w, hw, -⟩
    cases hw
  · rw [as_fst hne hallowed, htext]
    exact (back_iff t v).trans (and_iff_right (htext ▸ hallowed)).symm

/-- Two numbers in a vector. -/
theorem as_iff_numbers :
    ∃ w, ((⟨['1', ',', '2', ','], none, none, []⟩ : Setting ⟨true, .long⟩).as
      (.vector .int32)).1 = .ok w ∧
        Same (p := ⟨true, .long⟩) (.vector .int32) w [⟨1, by decide⟩, ⟨2, by decide⟩] :=
  (as_iff (p := ⟨true, .long⟩) (t := .vector .int32)
    (v := [⟨1, by decide⟩, ⟨2, by decide⟩]) rfl (List.cons_ne_nil _ _)).mpr
    ⟨List.not_mem_nil, trivial⟩

/-- A character is printed as its number, and then an `int` is read. -/
theorem as_char : ¬ ∀ (p : Platform) (s : Setting p) (t : Ty) (v : (t.ctype p).Val p),
    s.representation = (parser t).toString v → s.representation ≠ [] → s.excludedValues = [] →
      ∃ w, (s.as t).1 = .ok w ∧ Same t w v := by
  intro h
  obtain ⟨w, hw, -⟩ := h ⟨true, .long⟩ ⟨['6', '5'], none, none, []⟩ .char ⟨65, by decide⟩ rfl
    (List.cons_ne_nil _ _) rfl
  cases hw

end Primitives.Settings.Typed
