import Primitives.Settings.Integer
import Mathlib.Data.Bool.AllAny

/-!
# Integers in settings — what is read

A `Literal` is an integer literal taken apart: sign, prefix, digits with their delimiters, and blanks.
Its value is defined by its digits alone. The texts that a rule matches are the texts of the literals
of its base (`mem_regex_iff`), and the token's value is the literal's except for three kinds of
literals (`Misread`): an octal one with `0o`, without a sign and without delimiters; `00`; and one
with the least value, unless a rule without delimiters reads it at base 10 or 16.
-/

set_option autoImplicit false

namespace Primitives.Settings

open Lib

/-- What stands between sign and digits. -/
inductive Prefix where
  | bin
  | oct (withO : Bool)
  | dec
  | hex (x : Char)
deriving DecidableEq, Repr

def Prefix.base : Prefix → Base
  | .bin => .bin
  | .oct _ => .oct
  | .dec => .dec
  | .hex _ => .hex

def Prefix.text : Prefix → Str
  | .bin => ['0', 'b']
  | .oct withO => if withO then ['0', 'o'] else ['0']
  | .dec => []
  | .hex x => ['0', x]

/-- A digit and the delimiter in front of it, if any. -/
abbrev Digit := Option Char × Char

def Digit.text (d : Digit) : Str := d.1.toList ++ [d.2]

structure Literal where
  sign : Option Char
  pre : Prefix
  head : Char
  tail : List Digit
  blank : Str
  sign_mem : ∀ c ∈ sign, c ∈ signs
  pre_mem : ∀ x, pre = .hex x → x ∈ ['x', 'X']
  head_mem : head ∈ pre.base.digits
  tail_mem : ∀ d ∈ tail, (∀ c ∈ d.1, c ∈ delims) ∧ d.2 ∈ pre.base.digits
  blank_mem : ∀ c ∈ blank, c ∈ blanks

namespace Literal

def digits (l : Literal) : Str := l.head :: l.tail.map Prod.snd

def numberText (l : Literal) : Str := l.head :: l.tail.flatMap Digit.text

def text (l : Literal) : Str := l.sign.toList ++ (l.pre.text ++ (l.numberText ++ l.blank))

/-- Whether there is a delimiter. -/
def hasDelims (l : Literal) : Bool := l.tail.any fun d => d.1.isSome

/-- The rule that is for literals of this base, with or without delimiters as this one is. -/
def rule (l : Literal) : Rule := ⟨l.pre.base, l.hasDelims⟩

/-- **The mathematical value**: that of the digits, with the sign. -/
def value (l : Literal) : Int :=
  if l.sign = some '-' then -(number l.pre.base.radix l.digits) else number l.pre.base.radix l.digits

/-- The octal literals that have no digits left, or a letter in front of them, once the prefix is cut
off. -/
def Unread (l : Literal) : Prop :=
  l.sign = none ∧
    (l.pre = .oct true ∧ l.hasDelims = false ∨ l.pre = .oct false ∧ l.head = '0' ∧ l.tail = [])

/-- The literals that throw instead of being read as their value. -/
def Misread (l : Literal) : Prop :=
  l.Unread ∨ l.value = int64Min ∧ l.rule ≠ ⟨.dec, false⟩ ∧ l.rule ≠ ⟨.hex, false⟩

instance (l : Literal) : Decidable l.Unread := by
  unfold Unread
  infer_instance

instance (l : Literal) : Decidable l.Misread := by
  unfold Misread
  infer_instance

end Literal

/-! ## The texts of the rules -/

theorem mem_sign_iff {s : Str} :
    s ∈ (opt (oneOf signs)).matches' ↔ ∃ o : Option Char, (∀ c ∈ o, c ∈ signs) ∧ o.toList = s := by
  rw [mem_opt, mem_oneOf]
  constructor
  · rintro (rfl | ⟨c, hc, rfl⟩)
    · exact ⟨none, by simp, rfl⟩
    · exact ⟨some c, by simpa using hc, rfl⟩
  · rintro ⟨_ | c, ho, rfl⟩
    · exact .inl rfl
    · exact .inr ⟨c, ho c rfl, rfl⟩

theorem mem_digit_iff {base : Base} {s : Str} :
    s ∈ (opt (oneOf delims) * oneOf base.digits).matches' ↔
      ∃ d : Digit, ((∀ c ∈ d.1, c ∈ delims) ∧ d.2 ∈ base.digits) ∧ d.text = s := by
  rw [mem_comp]
  constructor
  · rintro ⟨a, ha, b, hb, rfl⟩
    obtain ⟨c, hc, rfl⟩ := mem_oneOf.mp hb
    rcases mem_opt.mp ha with rfl | ha
    · exact ⟨(none, c), ⟨by simp, hc⟩, rfl⟩
    · obtain ⟨e, he, rfl⟩ := mem_oneOf.mp ha
      exact ⟨(some e, c), ⟨by simpa using he, hc⟩, rfl⟩
  · rintro ⟨⟨o, c⟩, ⟨ho, hc⟩, rfl⟩
    refine ⟨o.toList, mem_opt.mpr ?_, [c], mem_oneOf.mpr ⟨c, hc, rfl⟩, rfl⟩
    cases o with
    | none => exact .inl rfl
    | some e => exact .inr (mem_oneOf.mpr ⟨e, ho e rfl, rfl⟩)

theorem mem_pre_iff {base : Base} {s : Str} :
    s ∈ base.pre.matches' ↔
      ∃ p : Prefix, p.base = base ∧ (∀ x, p = .hex x → x ∈ ['x', 'X']) ∧ p.text = s := by
  cases base with
  | bin =>
    rw [Base.pre, mem_word]
    constructor
    · rintro rfl
      exact ⟨.bin, rfl, by simp, rfl⟩
    · rintro ⟨p, hp, -, rfl⟩
      cases p <;> cases hp
      rfl
  | oct =>
    rw [Base.pre, mem_comp]
    constructor
    · rintro ⟨a, ha, b, hb, rfl⟩
      rw [mem_word] at ha
      rw [mem_opt, mem_word] at hb
      rcases hb with rfl | rfl
      · exact ⟨.oct false, rfl, by simp, by rw [← ha]; rfl⟩
      · exact ⟨.oct true, rfl, by simp, by rw [← ha]; rfl⟩
    · rintro ⟨p, hp, -, rfl⟩
      cases p <;> cases hp
      rename_i withO
      cases withO with
      | false => exact ⟨['0'], mem_word.mpr rfl, [], mem_opt.mpr (.inl rfl), rfl⟩
      | true => exact ⟨['0'], mem_word.mpr rfl, ['o'], mem_opt.mpr (.inr (mem_word.mpr rfl)), rfl⟩
  | dec =>
    rw [Base.pre, mem_word]
    constructor
    · rintro rfl
      exact ⟨.dec, rfl, by simp, rfl⟩
    · rintro ⟨p, hp, -, rfl⟩
      cases p <;> cases hp
      rfl
  | hex =>
    rw [Base.pre, mem_comp]
    constructor
    · rintro ⟨a, ha, b, hb, rfl⟩
      rw [mem_word] at ha
      obtain ⟨x, hx, rfl⟩ := mem_oneOf.mp hb
      refine ⟨.hex x, rfl, ?_, by rw [← ha]; rfl⟩
      rintro y heq
      cases heq
      exact hx
    · rintro ⟨p, hp, hx, rfl⟩
      cases p <;> cases hp
      exact ⟨['0'], mem_word.mpr rfl, _, mem_oneOf.mpr ⟨_, hx _ rfl, rfl⟩, rfl⟩

theorem flatMap_text_of_plain {ds : List Digit} (h : ds.any (fun d => d.1.isSome) = false) :
    ds.flatMap Digit.text = ds.map Prod.snd := by
  induction ds with
  | nil => rfl
  | cons d ds ih =>
    rw [List.any_cons, Bool.or_eq_false_iff, Option.isSome_eq_false_iff, Option.isNone_iff_eq_none]
      at h
    rw [List.flatMap_cons, ih h.2, Digit.text, h.1]
    rfl

/-- A number without delimiters is one where no digit has a delimiter. -/
theorem mem_number_iff {r : Rule} {s : Str} :
    s ∈ r.number.matches' ↔ ∃ (c : Char) (ds : List Digit), c ∈ r.base.digits ∧
      (∀ d ∈ ds, (∀ c ∈ d.1, c ∈ delims) ∧ d.2 ∈ r.base.digits) ∧
      (r.hasDelims = false → ds.any (fun d => d.1.isSome) = false) ∧
      c :: ds.flatMap Digit.text = s := by
  obtain ⟨base, hasDelims⟩ := r
  cases hasDelims with
  | false =>
    rw [Rule.number, if_neg Bool.false_ne_true, many1, mem_comp]
    constructor
    · rintro ⟨a, ha, b, hb, rfl⟩
      obtain ⟨c, hc, rfl⟩ := mem_oneOf.mp ha
      have hb := mem_star_oneOf.mp hb
      have hplain : (b.map fun d => ((none, d) : Digit)).any (fun d => d.1.isSome) = false := by
        simp [List.any_map]
      refine ⟨c, b.map fun d => (none, d), hc, ?_, fun _ => hplain, ?_⟩
      · intro d hd
        obtain ⟨e, he, rfl⟩ := List.mem_map.mp hd
        exact ⟨by simp, hb e he⟩
      · rw [flatMap_text_of_plain hplain, List.map_map]
        exact congrArg (c :: ·) (List.map_id b)
    · rintro ⟨c, ds, hc, hds, hplain, rfl⟩
      rw [flatMap_text_of_plain (hplain rfl)]
      refine ⟨[c], mem_oneOf.mpr ⟨c, hc, rfl⟩, _, mem_star_oneOf.mpr fun e he => ?_, rfl⟩
      obtain ⟨d, hd, rfl⟩ := List.mem_map.mp he
      exact (hds d hd).2
  | true =>
    rw [Rule.number, if_pos rfl, mem_comp]
    constructor
    · rintro ⟨a, ha, b, hb, rfl⟩
      obtain ⟨c, hc, rfl⟩ := mem_oneOf.mp ha
      obtain ⟨ds, hds, rfl⟩ := (mem_star_of fun w => mem_digit_iff).mp hb
      exact ⟨c, ds, hc, hds, by simp, rfl⟩
    · rintro ⟨c, ds, hc, hds, -, rfl⟩
      exact ⟨[c], mem_oneOf.mpr ⟨c, hc, rfl⟩, _,
        (mem_star_of fun w => mem_digit_iff).mpr ⟨ds, hds, rfl⟩, rfl⟩

/-- **What a rule matches**: the literals of its base, without delimiters if it has none. -/
theorem mem_regex_iff {r : Rule} {s : Str} :
    s ∈ r.regex.matches' ↔ ∃ l : Literal, l.pre.base = r.base ∧
      (r.hasDelims = false → l.hasDelims = false) ∧ l.text = s := by
  rw [Rule.regex, mem_comp]
  constructor
  · rintro ⟨s₁, hs₁, t₁, ht₁, rfl⟩
    obtain ⟨s₂, hs₂, t₂, ht₂, rfl⟩ := mem_comp.mp ht₁
    obtain ⟨s₃, hs₃, blank, hblank, rfl⟩ := mem_comp.mp ht₂
    obtain ⟨sign, hsign, rfl⟩ := mem_sign_iff.mp hs₁
    obtain ⟨pre, hbase, hpre, rfl⟩ := mem_pre_iff.mp hs₂
    obtain ⟨head, tail, hhead, htail, hplain, rfl⟩ := mem_number_iff.mp hs₃
    refine ⟨⟨sign, pre, head, tail, blank, hsign, hpre, ?_, ?_, mem_star_oneOf.mp hblank⟩,
      hbase, hplain, rfl⟩
    · rw [hbase]
      exact hhead
    · rw [hbase]
      exact htail
  · rintro ⟨l, hbase, hplain, rfl⟩
    refine ⟨_, mem_sign_iff.mpr ⟨l.sign, l.sign_mem, rfl⟩, _, ?_, rfl⟩
    refine mem_comp.mpr ⟨_, mem_pre_iff.mpr ⟨l.pre, hbase, l.pre_mem, rfl⟩, _, ?_, rfl⟩
    refine mem_comp.mpr ⟨_, mem_number_iff.mpr ?_, _, mem_star_oneOf.mpr l.blank_mem, rfl⟩
    exact ⟨l.head, l.tail, hbase ▸ l.head_mem, hbase ▸ l.tail_mem, hplain, rfl⟩

/-- A rule with delimiters comes behind the one without. -/
theorem plain_mem_take (base : Base) : ∀ n < rules.length,
    rules[n]? = some ⟨base, true⟩ → ⟨base, false⟩ ∈ rules.take n := by
  cases base <;> decide

/-- The rule of a token is that of a literal with the token's text. -/
theorem exists_literal {s : Str} {r : Rule} (h : tokenRule s = some r) :
    ∃ l : Literal, l.text = s ∧ l.rule = r := by
  obtain ⟨hmem, before, after, hrules, hbefore⟩ := firstMatch_eq_some_iff.mp h
  obtain ⟨l, hbase, hplain, htext⟩ := mem_regex_iff.mp hmem
  refine ⟨l, htext, ?_⟩
  obtain ⟨base, hasDelims⟩ := r
  obtain rfl : l.pre.base = base := hbase
  cases hasDelims with
  | false => exact congrArg (Rule.mk _) (hplain rfl)
  | true =>
    -- the rule without delimiters comes first, and does not match
    have hbehind : (⟨l.pre.base, false⟩ : Rule) ∈ before := by
      have hmem := plain_mem_take l.pre.base before.length (by rw [hrules]; simp)
        (by rw [hrules]; simp)
      rw [hrules, List.take_left] at hmem
      exact hmem
    refine congrArg (Rule.mk _) ?_
    by_contra hno
    rw [Bool.not_eq_true] at hno
    exact hbefore _ hbehind (mem_regex_iff.mpr ⟨l, rfl, fun _ => hno, htext⟩)

/-! ## Characters -/

theorem hex_of_digit {base : Base} {c : Char} (h : c ∈ base.digits) : c ∈ Base.hex.digits := by
  have hall : ∀ c ∈ base.digits, c ∈ Base.hex.digits :=
    List.all_iff_forall_prop.mp (by cases base <;> decide)
  exact hall c h

theorem not_space_of_hex : ∀ c ∈ Base.hex.digits, isSpace c = false :=
  List.all_iff_forall_prop.mp (by decide)

theorem not_space_of_sign : ∀ c ∈ signs, isSpace c = false :=
  List.all_iff_forall_prop.mp (by decide)

theorem not_sign_of_hex : ∀ c ∈ Base.hex.digits, c ∉ signs :=
  List.all_iff_forall_prop.mp (by decide)

theorem not_hex_of_blank : ∀ c ∈ blanks, c ∉ Base.hex.digits :=
  List.all_iff_forall_prop.mp (by decide)

theorem not_hex_of_delim : ∀ c ∈ delims, c ∉ Base.hex.digits :=
  List.all_iff_forall_prop.mp (by decide)

/-- Neither a digit nor a blank is taken for the `x` of a prefix. -/
theorem not_x_of_hex_or_blank : ∀ c ∈ Base.hex.digits ++ blanks, c ∉ ['x', 'X'] :=
  List.all_iff_forall_prop.mp (by decide)

theorem removeDelims_digits {base : Base} {ds : Str} (h : ∀ d ∈ ds, d ∈ base.digits) :
    removeDelims ds = ds :=
  List.filter_eq_self.mpr fun d hd => decide_eq_true (hex_of_digit (h d hd))

theorem removeDelims_blank {b : Str} (h : ∀ c ∈ b, c ∈ blanks) : removeDelims b = [] :=
  List.filter_eq_nil_iff.mpr fun c hc => by simpa using not_hex_of_blank c (h c hc)

theorem removeDelims_text {base : Base} {ds : List Digit}
    (h : ∀ d ∈ ds, (∀ c ∈ d.1, c ∈ delims) ∧ d.2 ∈ base.digits) :
    removeDelims (ds.flatMap Digit.text) = ds.map Prod.snd := by
  induction ds with
  | nil => rfl
  | cons d ds ih =>
    obtain ⟨hd, hds⟩ := List.forall_mem_cons.mp h
    obtain ⟨o, c⟩ := d
    have hc : removeDelims [c] = [c] :=
      removeDelims_digits (List.forall_mem_singleton.mpr hd.2)
    have ho : removeDelims o.toList = [] := by
      cases o with
      | none => rfl
      | some e => simpa [removeDelims] using not_hex_of_delim e (hd.1 e rfl)
    have happ : ∀ s t : Str, removeDelims (s ++ t) = removeDelims s ++ removeDelims t :=
      fun s t => List.filter_append ..
    rw [List.flatMap_cons, Digit.text, happ, happ, ih hds, ho, hc]
    rfl

theorem takeWhile_digits {base : Base} {ds b : Str} (hds : ∀ d ∈ ds, d ∈ base.digits)
    (hb : ∀ c ∈ b, c ∈ blanks) : (ds ++ b).takeWhile (· ∈ base.digits) = ds := by
  rw [List.takeWhile_append_of_pos fun d hd => decide_eq_true (hds d hd)]
  have hnil : b.takeWhile (· ∈ base.digits) = [] := by
    cases b with
    | nil => rfl
    | cons c b =>
      have hc : c ∉ base.digits := fun hmem =>
        not_hex_of_blank c (hb c List.mem_cons_self) (hex_of_digit hmem)
      rw [List.takeWhile_cons_of_neg (by simpa using hc)]
  rw [hnil, List.append_nil]

/-! ## `std::stoll` -/

theorem dropHexPrefix_digits {ds b : Str} (hds : ∀ d ∈ ds, d ∈ Base.hex.digits)
    (hb : ∀ c ∈ b, c ∈ blanks) : dropHexPrefix (ds ++ b) = ds ++ b := by
  have hall : ∀ c ∈ ds ++ b, c ∉ ['x', 'X'] := by
    intro c hc
    refine not_x_of_hex_or_blank c (List.mem_append.mpr ?_)
    exact (List.mem_append.mp hc).imp (hds c) (hb c)
  generalize ds ++ b = s at hall
  unfold dropHexPrefix
  split
  · rename_i x d t
    have hx : x ∉ ['x', 'X'] := hall x (by simp)
    rw [if_neg fun h => hx h.1]
  · rfl

theorem dropHexPrefix_prefix {x d : Char} {s : Str} (hx : x ∈ ['x', 'X'])
    (hd : d ∈ Base.hex.digits) : dropHexPrefix ('0' :: x :: d :: s) = d :: s := by
  rw [dropHexPrefix, if_pos ⟨hx, hd⟩]

/-- The number in front of the blanks, with its sign, if an `int64_t` holds it. -/
theorem stoll_digits {base : Base} {o : Option Char} {s ds b : Str} (ho : ∀ c ∈ o, c ∈ signs)
    (hs : s.head?.any (· ∈ Base.hex.digits) = true)
    (hpre : (if base = .hex then dropHexPrefix s else s) = ds ++ b) (hne : ds ≠ [])
    (hds : ∀ d ∈ ds, d ∈ base.digits) (hb : ∀ c ∈ b, c ∈ blanks) :
    stoll (o.toList ++ s) base =
      let v : Int := if o = some '-' then -(number base.radix ds) else number base.radix ds
      if FitsInt64 v then .ok v else .error .outOfRange := by
  obtain ⟨c, t, rfl⟩ : ∃ c t, s = c :: t := by
    cases s with
    | nil => cases hs
    | cons c t => exact ⟨c, t, rfl⟩
  have hc : c ∈ Base.hex.digits := by simpa using hs
  have htake := takeWhile_digits hds hb
  cases o with
  | none =>
    have hspace : ((none : Option Char).toList ++ c :: t).dropWhile isSpace = c :: t := by
      simp [not_space_of_hex c hc]
    have hsign : some c ∉ signs.map some := by simpa using not_sign_of_hex c hc
    have hminus : c ≠ '-' := by
      rintro rfl
      exact absurd hc (by decide)
    simp only [stoll, hspace, List.head?_cons, if_neg hsign, hpre, htake, if_neg hne]
    simp [hminus]
  | some e =>
    have he : e ∈ signs := ho e rfl
    have hspace : ((some e).toList ++ c :: t).dropWhile isSpace = e :: c :: t := by
      simp [not_space_of_sign e he]
    have hsign : some e ∈ signs.map some := List.mem_map_of_mem he
    simp only [stoll, hspace, List.head?_cons, if_pos hsign, List.tail_cons, hpre, htake,
      if_neg hne]

/-- What `std::stoll` makes of a number that is not negative. -/
def stored (n : Nat) : Except Exception Int :=
  if FitsInt64 n then .ok n else .error .outOfRange

theorem stoll_eq_stored {base : Base} {ds b : Str} (hne : ds ≠ [])
    (hds : ∀ d ∈ ds, d ∈ base.digits) (hb : ∀ c ∈ b, c ∈ blanks) :
    stoll (ds ++ b) base = stored (number base.radix ds) := by
  have hhead : (ds ++ b).head?.any (· ∈ Base.hex.digits) = true := by
    cases ds with
    | nil => exact absurd rfl hne
    | cons d ds => simpa using hex_of_digit (hds d List.mem_cons_self)
  have hpre : (if base = .hex then dropHexPrefix (ds ++ b) else ds ++ b) = ds ++ b := by
    split
    · exact dropHexPrefix_digits (fun d hd => hex_of_digit (hds d hd)) hb
    · rfl
  exact stoll_digits (o := none) (by simp) hhead hpre hne hds hb

/-- There is no number at a blank, or at the end. -/
theorem stoll_blank {base : Base} {b : Str} (hb : ∀ c ∈ b, c ∈ blanks) :
    stoll b base = .error .invalidArgument := by
  have hspace : b.dropWhile isSpace = [] := by
    refine List.dropWhile_eq_nil_iff.mpr fun c hc => ?_
    have hall : ∀ c ∈ blanks, isSpace c = true := List.all_iff_forall_prop.mp (by decide)
    exact hall c (hb c hc)
  cases base <;> simp [stoll, hspace, dropHexPrefix, signs]

/-- There is no number at an `o`. -/
theorem stoll_o (s : Str) : stoll ('o' :: s) .oct = .error .invalidArgument := by
  have hspace : ('o' :: s).dropWhile isSpace = 'o' :: s := rfl
  have htake : ('o' :: s).takeWhile (· ∈ Base.oct.digits) = [] := rfl
  simp [stoll, hspace, htake, signs]

/-! ## The two conversions -/

namespace Literal

theorem digits_mem (l : Literal) : ∀ d ∈ l.digits, d ∈ l.pre.base.digits := by
  refine List.forall_mem_cons.mpr ⟨l.head_mem, fun d hd => ?_⟩
  obtain ⟨e, he, rfl⟩ := List.mem_map.mp hd
  exact (l.tail_mem e he).2

theorem digits_ne_nil (l : Literal) : l.digits ≠ [] := List.cons_ne_nil _ _

/-- The number without its sign. -/
def magnitude (l : Literal) : Nat := number l.pre.base.radix l.digits

/-- The digits and what follows them. -/
def body (l : Literal) : Str := l.numberText ++ l.blank

theorem body_of_plain {l : Literal} (h : l.hasDelims = false) : l.body = l.digits ++ l.blank := by
  rw [body, numberText, flatMap_text_of_plain h]
  rfl

theorem removeDelims_body (l : Literal) : removeDelims l.body = l.digits := by
  have hhead : removeDelims [l.head] = [l.head] :=
    removeDelims_digits (List.forall_mem_singleton.mpr l.head_mem)
  have happ : ∀ s t : Str, removeDelims (s ++ t) = removeDelims s ++ removeDelims t :=
    fun s t => List.filter_append ..
  have hcons : l.numberText = [l.head] ++ l.tail.flatMap Digit.text := rfl
  rw [body, happ, hcons, happ, hhead, removeDelims_text l.tail_mem, removeDelims_blank l.blank_mem,
    List.append_nil]
  rfl

/-- The number is read off the digits, whether the delimiters are removed or there are none. -/
theorem stoll_body (l : Literal) :
    stoll (if l.hasDelims then removeDelims l.body else l.body) l.pre.base = stored l.magnitude := by
  cases hdelims : l.hasDelims with
  | true =>
    have h := stoll_eq_stored (b := []) l.digits_ne_nil l.digits_mem (by simp)
    rw [List.append_nil] at h
    rw [if_pos rfl, l.removeDelims_body, h]
    rfl
  | false =>
    rw [if_neg Bool.false_ne_true, body_of_plain hdelims]
    exact stoll_eq_stored l.digits_ne_nil l.digits_mem l.blank_mem

theorem text_eq (l : Literal) : l.text = l.sign.toList ++ (l.pre.text ++ l.body) := rfl

/-- The text behind the sign begins with a digit. -/
theorem exists_text_cons (l : Literal) :
    ∃ c t, l.pre.text ++ l.body = c :: t ∧ c ∈ Base.hex.digits := by
  have hzero : '0' ∈ Base.hex.digits := by decide
  cases hpre : l.pre with
  | dec => exact ⟨l.head, _, rfl, hex_of_digit l.head_mem⟩
  | bin => exact ⟨'0', _, rfl, hzero⟩
  | oct withO => cases withO <;> exact ⟨'0', _, rfl, hzero⟩
  | hex x => exact ⟨'0', _, rfl, hzero⟩

theorem hasSign_text (l : Literal) : hasSign l.text = l.sign.toList.length := by
  obtain ⟨c, t, htext, hc⟩ := l.exists_text_cons
  rw [text_eq, htext, hasSign]
  cases hsign : l.sign with
  | none =>
    have hno : some c ∉ signs.map some := by simpa using not_sign_of_hex c hc
    exact if_neg hno
  | some e => exact if_pos (List.mem_map_of_mem (l.sign_mem e hsign))

theorem minus_iff (l : Literal) : l.text.head? = some '-' ↔ l.sign = some '-' := by
  obtain ⟨c, t, htext, hc⟩ := l.exists_text_cons
  rw [text_eq, htext]
  cases hsign : l.sign with
  | none =>
    have hne : c ≠ '-' := by
      rintro rfl
      exact absurd hc (by decide)
    simpa using hne
  | some e => rfl

/-- What `substr` leaves behind the sign and a prefix. -/
theorem substr_text {l : Literal} {s t : Str} {k : Nat} (h : l.pre.text ++ l.body = s ++ t)
    (hk : s.length = k) : substr l.text (k + hasSign l.text) = .ok t := by
  have hlen : k + hasSign l.text = (l.sign.toList ++ s).length := by
    rw [hasSign_text, List.length_append, hk, Nat.add_comm]
  have htext : l.text = l.sign.toList ++ s ++ t := by
    rw [text_eq, h, List.append_assoc]
  rw [substr, hlen, htext, if_pos (by simp), List.drop_left]

/-- What `str2int` makes of the number that its switch finds. -/
theorem str2int_of_stored {l : Literal} {base : Base} {hasDelims : Bool}
    (h : str2intSwitch l.text base hasDelims = stored l.magnitude) :
    str2int l.text base hasDelims =
      if FitsInt64 l.magnitude then .ok l.value else .error .outOfRange := by
  have hvalue : (if l.text.head? = some '-' then -(l.magnitude : Int) else l.magnitude) = l.value := by
    rw [value]
    by_cases hminus : l.sign = some '-'
    · rw [if_pos hminus, if_pos (l.minus_iff.mpr hminus), magnitude]
    · rw [if_neg hminus, if_neg fun h => hminus (l.minus_iff.mp h), magnitude]
  rw [str2int, h, stored]
  by_cases hfits : FitsInt64 l.magnitude
  · rw [if_pos hfits, if_pos hfits]
    exact congrArg Except.ok hvalue
  · rw [if_neg hfits, if_neg hfits]
    rfl

theorem str2int_of_error {l : Literal} {base : Base} {hasDelims : Bool} {e : Exception}
    (h : str2intSwitch l.text base hasDelims = .error e) :
    str2int l.text base hasDelims = .error e := by
  rw [str2int, h]
  rfl

theorem switch_bin {l : Literal} (hpre : l.pre = .bin) :
    str2intSwitch l.text .bin l.hasDelims = stored l.magnitude := by
  have hsub : substr l.text (2 + hasSign l.text) = .ok l.body :=
    substr_text (s := ['0', 'b']) (by rw [hpre]; rfl) rfl
  have hbody := l.stoll_body
  rw [hpre] at hbody
  simp only [str2intSwitch, hsub, bind, Except.bind]
  exact hbody

theorem switch_hex {l : Literal} {x : Char} (hpre : l.pre = .hex x) (hdelims : l.hasDelims = true) :
    str2intSwitch l.text .hex true = stored l.magnitude := by
  have hsub : substr l.text (2 + hasSign l.text) = .ok l.body :=
    substr_text (s := ['0', x]) (by rw [hpre]; rfl) rfl
  have hbody := l.stoll_body
  rw [hpre, hdelims] at hbody
  simp only [str2intSwitch, hsub, bind, Except.bind]
  exact hbody

theorem switch_dec {l : Literal} (hpre : l.pre = .dec) (hdelims : l.hasDelims = true) :
    str2intSwitch l.text .dec true = stored l.magnitude := by
  have hsign : removeDelims l.sign.toList = [] := by
    cases hsign : l.sign with
    | none => rfl
    | some e =>
      have hall : ∀ c ∈ signs, c ∉ Base.hex.digits := List.all_iff_forall_prop.mp (by decide)
      simpa [removeDelims] using hall e (l.sign_mem e hsign)
  have htext : removeDelims l.text = removeDelims l.body := by
    have happ : removeDelims (l.sign.toList ++ l.body) =
        removeDelims l.sign.toList ++ removeDelims l.body := List.filter_append ..
    rw [text_eq, hpre]
    exact happ.trans (by rw [hsign]; rfl)
  have hbody := l.stoll_body
  rw [hpre, hdelims] at hbody
  rw [str2intSwitch, htext]
  exact hbody

/-- With a sign, `has_o` says whether there is an `o`. -/
theorem hasO_signed {l : Literal} {e : Char} {withO : Bool} (hsign : l.sign = some e)
    (hpre : l.pre = .oct withO) : hasO l.text = if withO then 1 else 0 := by
  have hone : hasSign l.text = 1 := by
    rw [hasSign_text, hsign]
    rfl
  rw [hasO, if_pos hone, text_eq, hsign, hpre]
  cases withO with
  | true => rfl
  | false =>
    have hhead : l.head ≠ 'o' := by
      intro heq
      have hmem := hex_of_digit l.head_mem
      rw [heq] at hmem
      exact absurd hmem (by decide)
    exact if_neg fun h => hhead (Option.some.inj h)

/-- Without a sign, `has_o` says whether there is a second zero. -/
theorem hasO_unsigned {l : Literal} {withO : Bool} (hsign : l.sign = none)
    (hpre : l.pre = .oct withO) :
    hasO l.text = if withO = false ∧ l.head = '0' then 1 else 0 := by
  have hzero : hasSign l.text = 0 := by
    rw [hasSign_text, hsign]
    rfl
  rw [hasO, if_neg (by rw [hzero]; decide), text_eq, hsign, hpre]
  cases withO with
  | true => rfl
  | false =>
    have hsecond : (([] : Str) ++ (['0'] ++ l.body))[1]? = some l.head := rfl
    have hiff : (([] : Str) ++ (['0'] ++ l.body))[1]? = some '0' ↔ false = false ∧ l.head = '0' := by
      rw [hsecond, Option.some_inj]
      exact (and_iff_right rfl).symm
    exact if_congr hiff rfl rfl

theorem switch_oct {l : Literal} {t : Str}
    (hsub : substr l.text (1 + hasSign l.text + hasO l.text) = .ok t) :
    str2intSwitch l.text .oct l.hasDelims =
      stoll (if l.hasDelims then removeDelims t else t) .oct := by
  simp only [str2intSwitch, hsub, bind, Except.bind]

/-- **Octal literals.** The number is found unless there is an `o` that is taken for a digit, or two
zeros of which the second is taken for an `o`. -/
theorem switch_oct_signed {l : Literal} {e : Char} {withO : Bool} (hsign : l.sign = some e)
    (hpre : l.pre = .oct withO) :
    str2intSwitch l.text .oct l.hasDelims = stored l.magnitude := by
  have hbody := l.stoll_body
  rw [hpre] at hbody
  rw [← hbody]
  refine switch_oct ?_
  rw [hasO_signed hsign hpre, Nat.add_right_comm]
  cases withO with
  | true => exact substr_text (s := ['0', 'o']) (by rw [hpre]; rfl) rfl
  | false => exact substr_text (s := ['0']) (by rw [hpre]; rfl) rfl

theorem switch_oct_o {l : Literal} (hsign : l.sign = none) (hpre : l.pre = .oct true) :
    str2intSwitch l.text .oct l.hasDelims =
      if l.hasDelims then stored l.magnitude else .error .invalidArgument := by
  have hsub : substr l.text (1 + hasSign l.text + hasO l.text) = .ok ('o' :: l.body) := by
    rw [hasO_unsigned hsign hpre, Nat.add_right_comm]
    exact substr_text (s := ['0']) (by rw [hpre]; rfl) rfl
  rw [switch_oct hsub]
  cases hdelims : l.hasDelims with
  | true =>
    have hbody := l.stoll_body
    rw [hpre, hdelims] at hbody
    exact hbody
  | false => exact stoll_o l.body

/-- A zero in front adds nothing. -/
theorem number_zero_cons (radix : Nat) (ds : Str) : number radix ('0' :: ds) = number radix ds := by
  rw [number, List.foldl_cons, Nat.zero_mul]
  rfl

theorem switch_oct_zero {l : Literal} (hsign : l.sign = none) (hpre : l.pre = .oct false)
    (hhead : l.head = '0') :
    str2intSwitch l.text .oct l.hasDelims =
      if l.tail = [] then .error .invalidArgument else stored l.magnitude := by
  have hsub : substr l.text (1 + hasSign l.text + hasO l.text) =
      .ok (l.tail.flatMap Digit.text ++ l.blank) := by
    rw [hasO_unsigned hsign hpre, if_pos ⟨rfl, hhead⟩, Nat.add_right_comm]
    refine substr_text (s := ['0', '0']) ?_ rfl
    rw [hpre, body, numberText, hhead]
    rfl
  have hbase : l.pre.base = .oct := by rw [hpre]; rfl
  have hmem : ∀ d ∈ l.tail.map Prod.snd, d ∈ Base.oct.digits := by
    intro d hd
    rw [← hbase]
    exact l.digits_mem d (List.mem_cons_of_mem _ hd)
  have hnumber : l.magnitude = number Base.oct.radix (l.tail.map Prod.snd) := by
    rw [magnitude, digits, hhead, number_zero_cons, hbase]
  rw [switch_oct hsub, hnumber]
  by_cases htail : l.tail = []
  · have hdelims : l.hasDelims = false := by rw [hasDelims, htail]; rfl
    rw [if_pos htail, hdelims, htail]
    exact stoll_blank l.blank_mem
  · have hne : l.tail.map Prod.snd ≠ [] := by simpa using htail
    rw [if_neg htail]
    cases hdelims : l.hasDelims with
    | true =>
      have happ : removeDelims (l.tail.flatMap Digit.text ++ l.blank) = l.tail.map Prod.snd ++ [] := by
        have h : removeDelims (l.tail.flatMap Digit.text ++ l.blank) =
            removeDelims (l.tail.flatMap Digit.text) ++ removeDelims l.blank := List.filter_append ..
        rw [h, removeDelims_text l.tail_mem, removeDelims_blank l.blank_mem]
      rw [if_pos rfl, happ]
      exact stoll_eq_stored hne hmem (by simp)
    | false =>
      rw [if_neg Bool.false_ne_true, flatMap_text_of_plain hdelims]
      exact stoll_eq_stored hne hmem l.blank_mem

theorem switch_oct_digits {l : Literal} (hsign : l.sign = none) (hpre : l.pre = .oct false)
    (hhead : l.head ≠ '0') :
    str2intSwitch l.text .oct l.hasDelims = stored l.magnitude := by
  have hbody := l.stoll_body
  rw [hpre] at hbody
  rw [← hbody]
  refine switch_oct ?_
  rw [hasO_unsigned hsign hpre, if_neg fun h => hhead h.2, Nat.add_right_comm]
  exact substr_text (s := ['0']) (by rw [hpre]; rfl) rfl

/-- The rules that give their whole text to `std::stoll`. -/
theorem action_dec {l : Literal} (hpre : l.pre = .dec) (hplain : l.hasDelims = false) :
    l.rule.action l.text = if FitsInt64 l.value then .ok l.value else .error .outOfRange := by
  have hrule : l.rule.action l.text = stoll (l.sign.toList ++ (l.digits ++ l.blank)) .dec := by
    rw [rule, hplain, hpre, text_eq, body_of_plain hplain, hpre]
    rfl
  have hhead : (l.digits ++ l.blank).head?.any (· ∈ Base.hex.digits) = true := by
    simpa [digits] using hex_of_digit l.head_mem
  have hdigits : ∀ d ∈ l.digits, d ∈ Base.dec.digits := by
    have h := l.digits_mem
    rw [hpre] at h
    exact h
  rw [hrule, stoll_digits l.sign_mem hhead rfl l.digits_ne_nil hdigits l.blank_mem, value, hpre]
  rfl

theorem action_hex {l : Literal} {x : Char} (hpre : l.pre = .hex x)
    (hplain : l.hasDelims = false) :
    l.rule.action l.text = if FitsInt64 l.value then .ok l.value else .error .outOfRange := by
  have hrule : l.rule.action l.text =
      stoll (l.sign.toList ++ ('0' :: x :: (l.digits ++ l.blank))) .hex := by
    rw [rule, hplain, hpre, text_eq, body_of_plain hplain, hpre]
    rfl
  have hdigits : ∀ d ∈ l.digits, d ∈ Base.hex.digits := by
    have h := l.digits_mem
    rw [hpre] at h
    exact h
  have hprefix : (if Base.hex = .hex then dropHexPrefix ('0' :: x :: (l.digits ++ l.blank))
      else '0' :: x :: (l.digits ++ l.blank)) = l.digits ++ l.blank :=
    dropHexPrefix_prefix (l.pre_mem x hpre) (hdigits l.head List.mem_cons_self)
  rw [hrule, stoll_digits l.sign_mem rfl hprefix l.digits_ne_nil hdigits l.blank_mem, value, hpre]
  rfl

/-- The magnitude of a value that an `int64_t` holds is not one only for the least value. -/
theorem fits_magnitude_iff {l : Literal} (hfits : FitsInt64 l.value) :
    FitsInt64 l.magnitude ↔ l.value ≠ int64Min := by
  unfold FitsInt64 value at *
  rw [magnitude]
  unfold int64Min int64Max at *
  split at hfits <;> split <;> omega

/-- `str2int` gives the value where its switch finds the number, but for the least value. -/
theorem str2int_eq_value_iff {l : Literal} {base : Base} {hasDelims : Bool}
    (h : str2intSwitch l.text base hasDelims = stored l.magnitude) (hfits : FitsInt64 l.value) :
    str2int l.text base hasDelims = .ok l.value ↔ l.value ≠ int64Min := by
  rw [str2int_of_stored h, ← fits_magnitude_iff hfits]
  by_cases hmag : FitsInt64 l.magnitude
  · rw [if_pos hmag]
    exact iff_of_true rfl hmag
  · rw [if_neg hmag]
    exact iff_of_false (by simp) hmag

/-- What the switch finds for the rules that go through it. -/
theorem switch_eq {l : Literal} (hdec : l.rule ≠ ⟨.dec, false⟩) (hhex : l.rule ≠ ⟨.hex, false⟩) :
    str2intSwitch l.text l.pre.base l.hasDelims =
      if l.Unread then .error .invalidArgument else stored l.magnitude := by
  have hdelims : ∀ b, l.pre.base = b → (⟨b, l.hasDelims⟩ : Rule) ≠ ⟨b, false⟩ →
      l.hasDelims = true := by
    intro b _ hne
    cases h : l.hasDelims with
    | true => rfl
    | false =>
      rw [h] at hne
      exact absurd rfl hne
  unfold rule at hdec hhex
  cases hpre : l.pre with
  | bin =>
    rw [if_neg (by simp [Unread, hpre])]
    exact switch_bin hpre
  | dec =>
    rw [hpre] at hdec
    have h := hdelims .dec (by rw [hpre]; rfl) hdec
    rw [if_neg (by simp [Unread, hpre]), h]
    exact switch_dec hpre h
  | hex x =>
    rw [hpre] at hhex
    have h := hdelims .hex (by rw [hpre]; rfl) hhex
    rw [if_neg (by simp [Unread, hpre]), h]
    exact switch_hex hpre h
  | oct withO =>
    cases hsign : l.sign with
    | some e =>
      rw [if_neg (by simp [Unread, hsign])]
      exact switch_oct_signed hsign hpre
    | none =>
      cases withO with
      | true =>
        refine (switch_oct_o hsign hpre).trans ?_
        cases h : l.hasDelims <;> simp [Unread, hsign, hpre, h]
      | false =>
        by_cases hhead : l.head = '0'
        · refine (switch_oct_zero hsign hpre hhead).trans ?_
          simp [Unread, hsign, hpre, hhead]
        · refine (switch_oct_digits hsign hpre hhead).trans ?_
          simp [Unread, hsign, hpre, hhead]

/-- **When a literal is read as its value.** -/
theorem action_eq_value_iff {l : Literal} (hfits : FitsInt64 l.value) :
    l.rule.action l.text = .ok l.value ↔ ¬ l.Misread := by
  by_cases hdec : l.rule = ⟨.dec, false⟩
  · have hpre : l.pre = .dec := by
      have hbase : l.pre.base = .dec := congrArg Rule.base hdec
      cases h : l.pre <;> rw [h] at hbase <;> cases hbase
    rw [action_dec hpre (congrArg Rule.hasDelims hdec), if_pos hfits]
    simp [Misread, Unread, hpre, hdec]
  by_cases hhex : l.rule = ⟨.hex, false⟩
  · obtain ⟨x, hpre⟩ : ∃ x, l.pre = .hex x := by
      have hbase : l.pre.base = .hex := congrArg Rule.base hhex
      cases h : l.pre <;> rw [h] at hbase <;> cases hbase
      exact ⟨_, rfl⟩
    rw [action_hex hpre (congrArg Rule.hasDelims hhex), if_pos hfits]
    simp [Misread, Unread, hpre, hhex]
  have haction : l.rule.action l.text = str2int l.text l.pre.base l.hasDelims := by
    unfold Rule.action
    split
    · exact absurd ‹_› hdec
    · exact absurd ‹_› hhex
    · rename_i heq
      obtain ⟨rfl, rfl⟩ := Rule.mk.inj heq
      rfl
  have hswitch := switch_eq hdec hhex
  rw [haction, Misread, not_or]
  by_cases hunread : l.Unread
  · rw [if_pos hunread] at hswitch
    rw [str2int_of_error hswitch]
    exact iff_of_false (by simp) fun h => h.1 hunread
  · rw [if_neg hunread] at hswitch
    rw [str2int_eq_value_iff hswitch hfits]
    simp [hunread, hdec, hhex]

end Literal

/-- **Integers in settings.** A token that one of the rules matches is a literal, and where an
`int64_t` holds the literal's value, that is the token's value if and only if the literal is not one
of those that throw. -/
theorem integer_token {s : Str} {r : Rule} (h : tokenRule s = some r) :
    (∃ l : Literal, l.text = s ∧ l.rule = r) ∧
      ∀ l : Literal, l.text = s → l.rule = r → FitsInt64 l.value →
        (r.action s = .ok l.value ↔ ¬ l.Misread) := by
  refine ⟨exists_literal h, ?_⟩
  rintro l rfl rfl hfits
  exact Literal.action_eq_value_iff hfits

/-- `-0b1_01` is -5. -/
theorem integer_token_bin :
    ∃ l : Literal, l.text = ['-', '0', 'b', '1', '_', '0', '1', ' '] ∧ l.value = -5 ∧
      tokenRule l.text = some ⟨.bin, true⟩ ∧ (Rule.mk .bin true).action l.text = .ok l.value := by
  let l : Literal := ⟨some '-', .bin, '1', [(some '_', '0'), (none, '1')], [' '],
    by simp [signs], by simp, by decide, by simp [delims, Prefix.base, Base.digits], by simp [blanks]⟩
  have hrule : tokenRule l.text = some ⟨.bin, true⟩ := by decide
  exact ⟨l, rfl, by decide, hrule, ((integer_token hrule).2 l rfl rfl (by decide)).mpr (by decide)⟩

/-- **`0o17` is not read**: what is given to `std::stoll` begins with the `o`. -/
theorem integer_token_octal :
    ∃ l : Literal, l.text = ['0', 'o', '1', '7'] ∧ l.value = 15 ∧
      tokenRule l.text = some ⟨.oct, false⟩ ∧ l.rule = ⟨.oct, false⟩ ∧
      (Rule.mk .oct false).action l.text = .error .invalidArgument := by
  let l : Literal := ⟨none, .oct true, '1', [(none, '7')], [],
    by simp, by simp, by decide, by simp [Prefix.base, Base.digits], by simp⟩
  exact ⟨l, rfl, by decide, by decide, by decide, by decide⟩

end Primitives.Settings
