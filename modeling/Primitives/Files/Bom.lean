import Mathlib.Data.List.Find
import Mathlib.Data.List.Infix
import Primitives.Files.Read

/-!
# Byte order marks

`read_file_without_bom` cuts off the first mark of a table that a file begins with. It should be the
longest one: two marks of the table begin with another one that stands before them, and are never found
(`readFileWithoutBom_iff`).

The file is probed for as many bytes as the longest mark has, and for a shorter one there are zeros
behind it. No mark is found in these that is not found before it (`find_probe`).
-/

set_option autoImplicit false

namespace Primitives.Files

/-! ## The code -/

/-- `boms` -/
def boms : List (List UInt8) :=
  [ -- UTF-8
    [0xEF, 0xBB, 0xBF],
    -- UTF-16 BE, LE
    [0xFE, 0xFF],
    [0xFF, 0xFE],
    -- UTF-32 BE, LE
    [0x00, 0x00, 0xFE, 0xFF],
    [0xFF, 0xFE, 0x00, 0x00],
    -- UTF-7
    [0x2B, 0x2F, 0x76, 0x38],
    [0x2B, 0x2F, 0x76, 0x39],
    [0x2B, 0x2F, 0x76, 0x2B],
    [0x2B, 0x2F, 0x76, 0x2F],
    [0x2B, 0x2F, 0x76, 0x38, 0x2D],
    -- UTF-1
    [0xF7, 0x64, 0x4C],
    -- UTF-EBCDIC
    [0xDD, 0x73, 0x66, 0x73],
    -- SCSU
    [0x0E, 0xFE, 0xFF],
    -- BOCU-1
    [0xFB, 0xEE, 0x28],
    -- GB-18030
    [0x84, 0x31, 0x95, 0x33]]

def maxLen : Nat := (boms.map List.length).foldl max 0

/-- `s.size() >= b.size() && memcmp(s.data(), b.data(), b.size()) == 0` -/
def startsWith (s b : List UInt8) : Bool := decide (s.length ≥ b.length) && s.take b.length == b

/-- `read_file_without_bom` -/
def readFileWithoutBom (content : List UInt8) (offsetAfterBom count : UInt64) :
    Except LengthError (List UInt8) := do
  let s ← readFile content 0 (UInt64.ofNat maxLen)
  match boms.find? (startsWith s) with
  | some b => readFile content (UInt64.ofNat b.length + offsetAfterBom) count
  | none => readFile content offsetAfterBom count

/-! ## The probe -/

theorem startsWith_iff {s b : List UInt8} : startsWith s b = true ↔ b <+: s := by
  rw [startsWith, Bool.and_eq_true, decide_eq_true_iff, beq_iff_eq]
  constructor
  · rintro ⟨-, heq⟩
    rw [← heq]
    exact List.take_prefix _ _
  · intro h
    exact ⟨h.length_le, (List.prefix_iff_eq_take.mp h).symm⟩

/-- What is read at the beginning of a file, with zeros behind it if the file is shorter. -/
def probe (c : List UInt8) : List UInt8 := c.take maxLen ++ List.replicate (maxLen - c.length) 0

theorem readFile_probe (c : List UInt8) : readFile c 0 (UInt64.ofNat maxLen) = .ok (probe c) := by
  have hcount : requested c.length 0 (UInt64.ofNat maxLen) = UInt64.ofNat maxLen :=
    if_neg (by decide)
  have hnat : (UInt64.ofNat maxLen).toNat = maxLen := by decide
  unfold readFile
  dsimp only
  rw [hcount, hnat, if_neg (by decide)]
  change Except.ok (c.take maxLen ++ (List.replicate maxLen 0).drop (c.take maxLen).length) = _
  rw [List.drop_replicate, List.length_take, probe]
  congr 3
  omega

theorem length_le_maxLen {b : List UInt8} (h : b ∈ boms) : b.length ≤ maxLen := by
  revert b
  decide

/-- What does not end in a zero is not found in the zeros behind a text. -/
theorem isPrefix_of_isPrefix_append_zeros {b c : List UInt8} {n : Nat} (hlast : b.getLast? ≠ some 0)
    (h : b <+: c ++ List.replicate n 0) : b <+: c := by
  rcases Nat.le_total b.length c.length with hle | hle
  · exact List.prefix_of_prefix_length_le h (List.prefix_append _ _) hle
  · obtain ⟨t, rfl⟩ := List.prefix_of_prefix_length_le (List.prefix_append _ _) h hle
    rw [List.prefix_append_right_inj] at h
    rcases List.eq_nil_or_concat' t with rfl | ⟨t, d, rfl⟩
    · rw [List.append_nil]
    · obtain rfl : d = 0 := List.eq_of_mem_replicate (h.subset (by simp))
      rw [← List.append_assoc, List.getLast?_concat] at hlast
      exact absurd rfl hlast

theorem startsWith_probe_of_isPrefix {b c : List UInt8} (hb : b ∈ boms) (h : b <+: c) :
    startsWith (probe c) b = true :=
  startsWith_iff.mpr ((List.prefix_take_iff.mpr ⟨h, length_le_maxLen hb⟩).trans (List.prefix_append _ _))

theorem startsWith_probe {b c : List UInt8} (hb : b ∈ boms) (hlast : b.getLast? ≠ some 0) :
    startsWith (probe c) b = startsWith c b := by
  rw [Bool.eq_iff_iff, startsWith_iff (s := c)]
  refine ⟨fun h => ?_, startsWith_probe_of_isPrefix hb⟩
  exact (isPrefix_of_isPrefix_append_zeros hlast (startsWith_iff.mp h)).trans (List.take_prefix _ _)

/-- The marks before that of UTF-32 LE, which is the one that ends in zeros, and begins with the last of
those before it. -/
def bomsBefore : List (List UInt8) := boms.take 4

/-- **The probe** finds what the file begins with. -/
theorem find_probe (c : List UInt8) : boms.find? (startsWith (probe c)) = boms.find? (startsWith c) := by
  have hzeros : ∀ b ∈ boms, b.getLast? = some 0 → b = [0xFF, 0xFE, 0x00, 0x00] := by decide
  have hbefore : ∀ b ∈ bomsBefore, b.getLast? ≠ some 0 := by decide
  by_cases hshort : [0xFF, 0xFE] <+: c
  · -- the mark is found before the one with the zeros
    have hsplit : boms = bomsBefore ++ boms.drop 4 := rfl
    have hsame : bomsBefore.find? (startsWith (probe c)) = bomsBefore.find? (startsWith c) := by
      refine List.find?_congr fun b hb => ?_
      exact startsWith_probe (List.mem_of_mem_take hb) (hbefore b hb)
    have hsome : (bomsBefore.find? (startsWith c)).isSome = true :=
      List.find?_isSome.mpr ⟨[0xFF, 0xFE], by decide, startsWith_iff.mpr hshort⟩
    obtain ⟨b, hb⟩ := Option.isSome_iff_exists.mp hsome
    rw [hsplit, List.find?_append, List.find?_append, hsame, hb]
    rfl
  · refine List.find?_congr fun b hb => ?_
    by_cases hlast : b.getLast? = some 0
    · obtain rfl := hzeros b hb hlast
      have hno : ∀ {s : List UInt8}, ¬ [0xFF, 0xFE] <+: s →
          startsWith s [0xFF, 0xFE, 0x00, 0x00] = false := by
        intro s hs
        rw [Bool.eq_false_iff, Ne, startsWith_iff]
        exact fun h => hs ((List.prefix_append _ [0x00, 0x00]).trans h)
      rw [hno hshort, hno]
      intro h
      have hprobe := startsWith_probe (c := c) (b := [0xFF, 0xFE]) (by decide) (by decide)
      rw [startsWith_iff.mpr h] at hprobe
      exact hshort (startsWith_iff.mp hprobe.symm)
    · exact startsWith_probe hb hlast

/-! ## The longest mark -/

/-- What is left of a file without the longest mark that it begins with. -/
def WithoutMark (c t : List UInt8) : Prop :=
  (∃ b ∈ boms, b <+: c ∧ (∀ b' ∈ boms, b' <+: c → b'.length ≤ b.length) ∧ t = c.drop b.length) ∨
    ((∀ b ∈ boms, ¬ b <+: c) ∧ t = c)

/-- `read_file_without_bom(p)` -/
def withoutBom (c : List UInt8) : Except LengthError (List UInt8) := readFileWithoutBom c 0 uintmaxMax

/-- **The first mark** is cut off. -/
theorem withoutBom_eq (c : Content) :
    withoutBom c.bytes = .ok (c.bytes.drop (((boms.find? (startsWith c.bytes)).map List.length).getD 0)) := by
  have hrest : ∀ n ≤ c.bytes.length, readFile c.bytes (UInt64.ofNat n) uintmaxMax =
      .ok (c.bytes.drop n) := by
    intro n hn
    have hnat : (UInt64.ofNat n).toNat = n :=
      UInt64.toNat_ofNat_of_lt' (lt_of_le_of_lt (hn.trans c.size_le) (by decide))
    have hinside : Inside c.bytes.length (UInt64.ofNat n) uintmaxMax := by
      rw [Inside, if_pos rfl, hnat]
      exact hn
    rw [readFile_of_inside c.size_le hinside, part, if_pos rfl, List.take_length, hnat, Nat.min_eq_left hn]
  unfold withoutBom readFileWithoutBom
  rw [readFile_probe]
  change (match boms.find? (startsWith (probe c.bytes)) with
    | some b => readFile c.bytes (UInt64.ofNat b.length + 0) uintmaxMax
    | none => readFile c.bytes 0 uintmaxMax) = _
  rw [find_probe]
  cases hfind : boms.find? (startsWith c.bytes) with
  | none => exact hrest 0 (Nat.zero_le _)
  | some b =>
    have hpre : b <+: c.bytes := startsWith_iff.mp (List.find?_some hfind)
    dsimp only
    rw [UInt64.add_zero]
    exact hrest b.length hpre.length_le

/-- The two marks that begin with another one. -/
def shadowed : List (List UInt8) := [[0xFF, 0xFE, 0x00, 0x00], [0x2B, 0x2F, 0x76, 0x38, 0x2D]]

theorem eq_or_mem_shadowed : ∀ b ∈ boms, ∀ b' ∈ boms, b <+: b' → b = b' ∨ b' ∈ shadowed := by
  decide

theorem mem_boms_of_mem_shadowed : ∀ b ∈ shadowed, b ∈ boms := by decide

/-- A mark that stands behind a beginning of it is not found, but a shorter one. -/
theorem exists_find_of_before {b' c : List UInt8} {l r : List (List UInt8)} (hboms : boms = l ++ r)
    (hbefore : ∃ a ∈ l, a <+: b') (hlen : ∀ b ∈ l, b.length < b'.length) (h : b' <+: c) :
    ∃ b, boms.find? (startsWith c) = some b ∧ b.length < b'.length := by
  obtain ⟨a, ha, hpre⟩ := hbefore
  have hsome : (l.find? (startsWith c)).isSome = true :=
    List.find?_isSome.mpr ⟨a, ha, startsWith_iff.mpr (hpre.trans h)⟩
  obtain ⟨b, hb⟩ := Option.isSome_iff_exists.mp hsome
  refine ⟨b, ?_, hlen b (List.mem_of_find?_eq_some hb)⟩
  rw [hboms, List.find?_append, hb]
  rfl

theorem exists_find_of_shadowed {b' c : List UInt8} (hb' : b' ∈ shadowed) (h : b' <+: c) :
    ∃ b, boms.find? (startsWith c) = some b ∧ b.length < b'.length := by
  rcases List.mem_cons.mp hb' with rfl | hb'
  · exact exists_find_of_before (l := boms.take 3) rfl ⟨[0xFF, 0xFE], by decide, by decide⟩
      (by decide) h
  · obtain rfl := List.mem_singleton.mp hb'
    exact exists_find_of_before (l := boms.take 6) rfl ⟨[0x2B, 0x2F, 0x76, 0x38], by decide, by decide⟩
      (by decide) h

/-- **Reading without a mark** cuts off the longest one exactly if the file does not begin with one of
the two marks that stand behind a beginning of them. -/
theorem readFileWithoutBom_iff (c : Content) :
    (∃ t, withoutBom c.bytes = .ok t ∧ WithoutMark c.bytes t) ↔
      ∀ b ∈ shadowed, ¬ b <+: c.bytes := by
  rw [withoutBom_eq]
  constructor
  · rintro ⟨t, ht, hmark⟩ b' hb' hpre
    obtain ⟨b, hb, hlt⟩ := exists_find_of_shadowed hb' hpre
    rw [hb] at ht
    rcases hmark with ⟨b₀, -, hpre₀, hlongest, heq⟩ | ⟨hno, -⟩
    · have hle := hlongest b' (mem_boms_of_mem_shadowed b' hb') hpre
      have hlen := congrArg List.length ((Except.ok.inj ht).trans heq)
      have hle₀ := hpre₀.length_le
      simp only [Option.map_some, Option.getD_some, List.length_drop] at hlen
      omega
    · exact hno b' (mem_boms_of_mem_shadowed b' hb') hpre
  · intro hno
    refine ⟨_, rfl, ?_⟩
    cases hfind : boms.find? (startsWith c.bytes) with
    | none =>
      refine .inr ⟨fun b hb hpre => ?_, List.drop_zero⟩
      exact List.find?_eq_none.mp hfind b hb (startsWith_iff.mpr hpre)
    | some b =>
      have hb := List.mem_of_find?_eq_some hfind
      have hpre : b <+: c.bytes := startsWith_iff.mp (List.find?_some hfind)
      refine .inl ⟨b, hb, hpre, fun b' hb' hpre' => ?_, rfl⟩
      -- of two beginnings of the file one begins the other
      by_contra hlt
      have hbegins := List.prefix_of_prefix_length_le hpre hpre' (Nat.le_of_not_le hlt)
      rcases eq_or_mem_shadowed b hb b' hb' hbegins with rfl | hshadowed
      · exact hlt (Nat.le_refl _)
      · exact hno b' hshadowed hpre'

/-- A file in UTF-32 LE. -/
theorem withoutBom_utf32 : ¬ ∀ c : Content,
    ∃ t, withoutBom c.bytes = .ok t ∧ WithoutMark c.bytes t := by
  intro hall
  obtain ⟨t, ht, hmark⟩ := hall ⟨[0xFF, 0xFE, 0x00, 0x00], by decide⟩
  have heq : withoutBom [0xFF, 0xFE, 0x00, 0x00] = .ok [0x00, 0x00] := by decide
  rw [heq] at ht
  obtain rfl := Except.ok.inj ht
  rcases hmark with ⟨b, -, -, hlongest, hdrop⟩ | ⟨hno, -⟩
  · have hle := hlongest [0xFF, 0xFE, 0x00, 0x00] (by decide) (List.prefix_refl _)
    have hlen := congrArg List.length hdrop
    rw [List.length_drop] at hlen
    change 4 ≤ b.length at hle
    change 2 = 4 - b.length at hlen
    omega
  · exact hno [0xFF, 0xFE, 0x00, 0x00] (by decide) (List.prefix_refl _)

end Primitives.Files
