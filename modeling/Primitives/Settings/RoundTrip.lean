import Primitives.Settings.Quoted

/-!
# Setting paths — round trips

What is printed of a part in quotes is read again as the part if every backslash of the part stands
for itself, and there is no quote and no zero in it (`Safe`). Of any other part something else is
read: either it weighs less than the part, when every character weighs what is printed of it and a
backslash as much as a control character; or the closing quote is taken for an escape, and there is
a quote more (`content_weight`).
-/

set_option autoImplicit false

namespace Primitives.SettingPath

open Lib

/-! ## What is printed -/

/-- A character that is printed as it is, and is read as it is. -/
def Ordinary (c : UInt8) : Prop := isCntrl c = false ∧ c ≠ byte '"' ∧ c ≠ byte '\\'

instance (c : UInt8) : Decidable (Ordinary c) := inferInstanceAs (Decidable (_ ∧ _))

theorem ordinary_of_isXDigit {c : UInt8} : isXDigit c = true → Ordinary c :=
  forall_byte (p := fun c => isXDigit c = true → Ordinary c) (by decide +kernel) c

/-- The four digits that are printed for a control character. -/
def codeDigits (c : UInt8) : Bytes :=
  [byte '0', byte '0', hex ((c.toNat &&& 0xF0) >>> 4), hex (c.toNat &&& 0x0F)]

theorem isXDigit_codeDigits : ∀ c : UInt8, ∀ d ∈ codeDigits c, isXDigit d = true :=
  fun c => List.all_eq_true.mp
    (forall_byte (p := fun c => (codeDigits c).all isXDigit = true) (by decide +kernel) c)

/-- A control character is read from its digits, but zero is not. -/
theorem cp2utf8_codeDigits {c : UInt8} :
    isCntrl c = true → cp2utf8 (scanHex (codeDigits c)) = if c = 0 then [] else [c] :=
  forall_byte (p := fun c => isCntrl c = true → cp2utf8 (scanHex (codeDigits c)) =
    if c = 0 then [] else [c]) (by decide +kernel) c

theorem escapeSettingPart_cntrl {c : UInt8} (hc : isCntrl c = true) (s : Bytes) :
    escapeSettingPart (c :: s) = byte '\\' :: byte 'u' :: codeDigits c ++ escapeSettingPart s := by
  rw [escapeSettingPart, List.flatMap_cons, escapeSettingChar, if_pos hc]
  rfl

theorem escapeSettingPart_cons {c : UInt8} (hc : isCntrl c = false) (s : Bytes) :
    escapeSettingPart (c :: s) = c :: escapeSettingPart s := by
  rw [escapeSettingPart, List.flatMap_cons, escapeSettingChar,
    if_neg (by rw [hc]; exact Bool.false_ne_true)]
  rfl

theorem escapeSettingPart_append {w : Bytes} (hw : ∀ c ∈ w, Ordinary c) (s : Bytes) :
    escapeSettingPart (w ++ s) = w ++ escapeSettingPart s := by
  induction w with
  | nil => rfl
  | cons c w ih =>
    obtain ⟨hc, hw⟩ := List.forall_mem_cons.mp hw
    rw [List.cons_append, escapeSettingPart_cons hc.1, ih hw, List.cons_append]

/-- The rest of a text in quotes, after some of the part is read. -/
def printed (q rest : Bytes) : Bytes := escapeSettingPart q ++ byte '"' :: rest

theorem printed_cntrl {c : UInt8} (hc : isCntrl c = true) (q rest : Bytes) :
    printed (c :: q) rest = byte '\\' :: byte 'u' :: codeDigits c ++ printed q rest := by
  rw [printed, escapeSettingPart_cntrl hc, List.append_assoc]
  rfl

theorem printed_cons {c : UInt8} (hc : isCntrl c = false) (q rest : Bytes) :
    printed (c :: q) rest = c :: printed q rest := by
  rw [printed, escapeSettingPart_cons hc]
  rfl

/-- Ordinary characters at the beginning of what is printed are those of the part. -/
theorem printed_eq_append_iff {w : Bytes} (hw : ∀ c ∈ w, Ordinary c) {q rest t : Bytes} :
    printed q rest = w ++ t ↔ ∃ q', q = w ++ q' ∧ t = printed q' rest := by
  constructor
  · intro h
    induction w generalizing q with
    | nil => exact ⟨q, rfl, h.symm⟩
    | cons c w ih =>
      obtain ⟨hc, hw'⟩ := List.forall_mem_cons.mp hw
      cases q with
      | nil => exact absurd (List.cons.inj h).1.symm hc.2.1
      | cons d q =>
        cases hd : isCntrl d with
        | true =>
          rw [printed_cntrl hd] at h
          exact absurd (List.cons.inj h).1.symm hc.2.2
        | false =>
          rw [printed_cons hd] at h
          obtain ⟨rfl, htail⟩ := List.cons.inj h
          obtain ⟨q', rfl, ht⟩ := ih hw' htail
          exact ⟨q', rfl, ht⟩
  · rintro ⟨q', rfl, rfl⟩
    rw [printed, escapeSettingPart_append hw, List.append_assoc]
    rfl

theorem hexRun_printed {n : Nat} {q rest : Bytes} : HexRun n (printed q rest) ↔ HexRun n q := by
  constructor
  · rintro ⟨ds, t, hlen, hds, heq⟩
    obtain ⟨q', rfl, -⟩ := (printed_eq_append_iff fun d hd => ordinary_of_isXDigit (hds d hd)).mp heq
    exact ⟨ds, q', hlen, hds, rfl⟩
  · rintro ⟨ds, q', hlen, hds, rfl⟩
    exact ⟨ds, printed q' rest, hlen, hds,
      (printed_eq_append_iff fun d hd => ordinary_of_isXDigit (hds d hd)).mpr ⟨q', rfl, rfl⟩⟩

theorem ordinary_of_codeLength {u : UInt8} {n : Nat} (h : codeLength u = some n) : Ordinary u := by
  unfold codeLength at h
  split at h
  · rename_i hu
    subst hu
    decide
  · split at h
    · rename_i hu
      subst hu
      decide
    · cases h

theorem loneBackslash_printed {q rest : Bytes} :
    LoneBackslash (printed q rest) ↔ LoneBackslash q := by
  constructor
  · rintro ⟨u, n, t, hu, hrun, heq⟩
    have hord : ∀ c ∈ [u], Ordinary c := List.forall_mem_singleton.mpr (ordinary_of_codeLength hu)
    obtain ⟨q', rfl, rfl⟩ := (printed_eq_append_iff hord).mp heq
    exact ⟨u, n, q', hu, fun h => hrun (hexRun_printed.mpr h), rfl⟩
  · rintro ⟨u, n, q', hu, hrun, rfl⟩
    refine ⟨u, n, printed q' rest, hu, fun h => hrun (hexRun_printed.mp h), ?_⟩
    exact printed_cons (ordinary_of_codeLength hu).1 q' rest

/-! ## Parts that are read again -/

/-- No zero, no quote, and every backslash stands for itself. -/
def Safe : Bytes → Prop
  | [] => True
  | c :: s => c ≠ 0 ∧ c ≠ byte '"' ∧ (c = byte '\\' → LoneBackslash s) ∧ Safe s

theorem content_of_safe (rest : Bytes) : ∀ {q : Bytes}, Safe q → Content (printed q rest) q rest := by
  intro q
  induction q with
  | nil =>
    intro _
    exact .close rest
  | cons c q ih =>
    rintro ⟨hzero, hquote, hback, hsafe⟩
    cases hcntrl : isCntrl c with
    | true =>
      rw [printed_cntrl hcntrl]
      have hstep := Step.code (u := byte 'u') (t := printed q rest) rfl rfl (isXDigit_codeDigits c)
      rw [cp2utf8_codeDigits hcntrl, if_neg hzero] at hstep
      exact .step hstep (ih hsafe)
    | false =>
      rw [printed_cons hcntrl]
      by_cases hc : c = byte '\\'
      · subst hc
        exact .step (.backslash (loneBackslash_printed.mpr (hback rfl))) (ih hsafe)
      · exact .step (.char hcntrl hquote hc) (ih hsafe)

/-! ## Weights -/

/-- What is printed for the character, and a backslash counts as much as a control character. -/
def charWeight (c : UInt8) : Nat := if isCntrl c = true ∨ c = byte '\\' then 6 else 1

def weight (s : Bytes) : Nat := (s.map charWeight).sum

theorem weight_nil : weight [] = 0 := rfl

theorem weight_cons (c : UInt8) (s : Bytes) : weight (c :: s) = charWeight c + weight s := by
  rw [weight, List.map_cons, List.sum_cons]
  rfl

theorem weight_append (s t : Bytes) : weight (s ++ t) = weight s + weight t := by
  rw [weight, List.map_append, List.sum_append]
  rfl

theorem charWeight_pos (c : UInt8) : 0 < charWeight c := by
  unfold charWeight
  split <;> decide

theorem charWeight_le (c : UInt8) : charWeight c ≤ 6 := by
  unfold charWeight
  split <;> decide

theorem charWeight_cntrl {c : UInt8} (hc : isCntrl c = true) : charWeight c = 6 := if_pos (.inl hc)

theorem charWeight_backslash : charWeight (byte '\\') = 6 := if_pos (.inr rfl)

theorem weight_ordinary {w : Bytes} (hw : ∀ c ∈ w, Ordinary c) : weight w = w.length := by
  induction w with
  | nil => rfl
  | cons c w ih =>
    obtain ⟨⟨hcntrl, -, hback⟩, hw⟩ := List.forall_mem_cons.mp hw
    have hc : charWeight c = 1 := by
      refine if_neg ?_
      rintro (h | h)
      · rw [hcntrl] at h
        cases h
      · exact hback h
    rw [weight_cons, hc, ih hw, List.length_cons, Nat.add_comm]

theorem weight_takeWhile_le (p : UInt8 → Bool) (s : Bytes) :
    weight (s.takeWhile p) ≤ weight s := by
  have h := weight_append (s.takeWhile p) (s.dropWhile p)
  rw [List.takeWhile_append_dropWhile] at h
  omega

/-- The bytes of a code point beyond ASCII are ordinary. -/
theorem ordinary_of_high {m : Nat} (hlow : 128 ≤ m) (hhigh : m < 256) : Ordinary (UInt8.ofNat m) :=
  have h : ∀ n < 256, 128 ≤ n → Ordinary (UInt8.ofNat n) := by decide +kernel
  h m hhigh hlow

/-- A code point weighs no more than a control character. -/
theorem weight_cp2utf8_le (cp : Int) : weight (cp2utf8 cp) ≤ 6 := by
  refine Nat.le_trans (weight_takeWhile_le _ _) ?_
  have hand : ∀ n : Nat, n &&& 63 ≤ 63 := fun n => Nat.and_le_right
  split
  · rw [weight_cons, weight_nil]
    exact charWeight_le _
  · rename_i h₁
    split
    · -- two bytes
      have hn : cp.toNat >>> 6 ≤ 31 := by
        rw [Nat.shiftRight_eq_div_pow]
        omega
      have h₂ := hand cp.toNat
      rw [weight_ordinary (by
        simp only [List.forall_mem_cons]
        exact ⟨ordinary_of_high (by omega) (by omega), ordinary_of_high (by omega) (by omega),
          by simp⟩)]
      exact (by decide : 2 ≤ 6)
    · split
      · decide
      · split
        · -- three bytes
          have hn : cp.toNat >>> 12 ≤ 15 := by
            rw [Nat.shiftRight_eq_div_pow]
            omega
          have h₂ := hand cp.toNat
          have h₃ := hand (cp.toNat >>> 6)
          rw [weight_ordinary (by
            simp only [List.forall_mem_cons]
            exact ⟨ordinary_of_high (by omega) (by omega), ordinary_of_high (by omega) (by omega),
              ordinary_of_high (by omega) (by omega), by simp⟩)]
          exact (by decide : 3 ≤ 6)
        · split
          · -- four bytes
            have hn : cp.toNat >>> 18 ≤ 4 := by
              rw [Nat.shiftRight_eq_div_pow]
              omega
            have h₂ := hand cp.toNat
            have h₃ := hand (cp.toNat >>> 6)
            have h₄ := hand (cp.toNat >>> 12)
            rw [weight_ordinary (by
              simp only [List.forall_mem_cons]
              exact ⟨ordinary_of_high (by omega) (by omega), ordinary_of_high (by omega) (by omega),
                ordinary_of_high (by omega) (by omega), ordinary_of_high (by omega) (by omega),
                by simp⟩)]
            exact (by decide : 4 ≤ 6)
          · decide

/-- What a step makes of the beginning of a part `q`, when `x` is read of it and `q'` is left: the
character itself; or something that weighs less. No quote is lost. -/
structure Progress (q x q' : Bytes) : Prop where
  weighs : (∃ c, q = c :: q' ∧ x = [c] ∧ c ≠ 0 ∧ c ≠ byte '"' ∧ (c = byte '\\' → LoneBackslash q')) ∨
    weight x + weight q' < weight q
  quotes : q.count (byte '"') ≤ x.count (byte '"') + q'.count (byte '"')

theorem count_quote_ordinary {w : Bytes} (hw : ∀ c ∈ w, Ordinary c) : w.count (byte '"') = 0 :=
  List.count_eq_zero.mpr fun h => (hw _ h).2.1 rfl

/-- A step in a character that is printed as a code point. -/
theorem step_cntrl {c : UInt8} (hc : isCntrl c = true) {q x t rest : Bytes}
    (h : Step (byte '\\' :: byte 'u' :: codeDigits c ++ printed q rest) x t) :
    t = printed q rest ∧ Progress (c :: q) x q := by
  have hquote : c ≠ byte '"' := by
    rintro rfl
    revert hc
    decide
  generalize hs : byte '\\' :: byte 'u' :: codeDigits c ++ printed q rest = s at h
  cases h with
  | char _ _ hback => exact absurd (List.cons.inj hs).1.symm hback
  | escape hcode _ =>
    obtain ⟨rfl, -⟩ := List.cons.inj (List.cons.inj hs).2
    cases hcode
  | @code u n ds _ hu hlen _ =>
    obtain ⟨rfl, hdigits⟩ := List.cons.inj (List.cons.inj hs).2
    cases hu
    obtain ⟨rfl, rfl⟩ := List.append_inj hdigits hlen.symm
    refine ⟨rfl, ?_, ?_⟩
    · rw [cp2utf8_codeDigits hc]
      by_cases hzero : c = 0
      · -- a zero is lost
        refine .inr ?_
        rw [if_pos hzero, weight_nil, weight_cons]
        have hpos := charWeight_pos c
        omega
      · rw [if_neg hzero]
        refine .inl ⟨c, rfl, rfl, hzero, hquote, ?_⟩
        rintro rfl
        have hno : isCntrl (byte '\\') = false := by decide
        rw [hno] at hc
        cases hc
    · rw [List.count_cons_of_ne hquote]
      exact Nat.le_add_left _ _
  | backslash ht =>
    obtain ⟨u, n, rest', hu, hrun, heq⟩ := ht
    rw [(List.cons.inj hs).2.symm] at heq
    obtain ⟨rfl, rfl⟩ := List.cons.inj heq
    cases hu
    exact absurd ⟨codeDigits c, printed q rest, rfl, isXDigit_codeDigits c, rfl⟩ hrun

/-- A backslash, and the character behind it. -/
theorem progress_escape {d c : UInt8} {q t rest : Bytes} (heq : printed (d :: q) rest = c :: t) :
    ∃ q', t = printed q' rest ∧ Progress (byte '\\' :: d :: q) [unescapeSettingChar c] q' := by
  have hquote : byte '\\' ≠ byte '"' := by decide
  cases hd : isCntrl d with
  | true =>
    -- the backslash of a code point is taken, and its digits are left
    have hord : ∀ e ∈ byte 'u' :: codeDigits d, Ordinary e :=
      List.forall_mem_cons.mpr ⟨by decide, fun e he => ordinary_of_isXDigit
        (isXDigit_codeDigits d e he)⟩
    rw [printed_cntrl hd] at heq
    obtain ⟨rfl, rfl⟩ := List.cons.inj heq
    refine ⟨byte 'u' :: codeDigits d ++ q, ?_, .inr ?_, ?_⟩
    · exact ((printed_eq_append_iff hord).mpr ⟨q, rfl, rfl⟩).symm
    · have hx := charWeight_le (unescapeSettingChar (byte '\\'))
      rw [weight_append, weight_ordinary hord, weight_cons, weight_cons, weight_cons, weight_nil,
        charWeight_cntrl hd, charWeight_backslash]
      have hlen : (byte 'u' :: codeDigits d).length = 5 := rfl
      omega
    · have hne : d ≠ byte '"' := by
        rintro rfl
        revert hd
        decide
      rw [List.count_append, count_quote_ordinary hord, List.count_cons_of_ne hquote,
        List.count_cons_of_ne hne, Nat.zero_add]
      exact Nat.le_add_left _ _
  | false =>
    rw [printed_cons hd] at heq
    obtain ⟨rfl, rfl⟩ := List.cons.inj heq
    refine ⟨q, rfl, .inr ?_, ?_⟩
    · have hx := charWeight_le (unescapeSettingChar d)
      have hpos := charWeight_pos d
      rw [weight_cons, weight_cons, weight_cons, weight_nil, charWeight_backslash]
      omega
    · rw [List.count_cons_of_ne hquote]
      by_cases hd : d = byte '"'
      · subst hd
        have hx : unescapeSettingChar (byte '"') = byte '"' := by decide
        rw [hx, List.count_cons_self, List.count_cons_self, List.count_nil]
        omega
      · rw [List.count_cons_of_ne hd]
        exact Nat.le_add_left _ _

/-- A step at a backslash of the part: if it is the last character, the closing quote may be read. -/
theorem step_backslash {q x t rest : Bytes} (h : Step (byte '\\' :: printed q rest) x t) :
    (∃ q', t = printed q' rest ∧ Progress (byte '\\' :: q) x q') ∨ q = [] ∧ x = [byte '"'] := by
  have hquote : byte '\\' ≠ byte '"' := by decide
  generalize hs : byte '\\' :: printed q rest = s at h
  cases h with
  | char _ _ hback => exact absurd (List.cons.inj hs).1.symm hback
  | @escape c t hcode hc =>
    have heq : printed q rest = c :: t := (List.cons.inj hs).2
    cases q with
    | nil =>
      obtain ⟨rfl, -⟩ := List.cons.inj heq
      exact .inr ⟨rfl, rfl⟩
    | cons d q =>
      obtain ⟨q', rfl, hprogress⟩ := progress_escape heq
      exact .inl ⟨q', rfl, hprogress⟩
  | @code u n ds t hu hlen hds =>
    have hord : ∀ e ∈ u :: ds, Ordinary e :=
      List.forall_mem_cons.mpr ⟨ordinary_of_codeLength hu, fun e he => ordinary_of_isXDigit
        (hds e he)⟩
    obtain ⟨q', rfl, rfl⟩ := (printed_eq_append_iff hord).mp (List.cons.inj hs).2
    refine .inl ⟨q', rfl, .inr ?_, ?_⟩
    · have hx := weight_cp2utf8_le (scanHex ds)
      rw [weight_cons, charWeight_backslash, weight_append, weight_ordinary hord, List.length_cons]
      omega
    · rw [List.count_cons_of_ne hquote, List.count_append, count_quote_ordinary hord, Nat.zero_add]
      exact Nat.le_add_left _ _
  | backslash ht =>
    obtain rfl := (List.cons.inj hs).2
    refine .inl ⟨q, rfl, .inl ⟨_, rfl, rfl, by decide, hquote, fun _ => ?_⟩, ?_⟩
    · exact loneBackslash_printed.mp ht
    · rw [List.count_cons_of_ne hquote]
      exact Nat.le_add_left _ _

/-- A step in a part: one of those above, or the character itself. -/
theorem step_printed {q s x t rest : Bytes} (hs : s = printed q rest) (h : Step s x t) :
    (∃ q', t = printed q' rest ∧ Progress q x q') ∨ q = [byte '\\'] ∧ x = [byte '"'] := by
  subst hs
  cases q with
  | nil =>
    have hquote : byte '"' ≠ byte '\\' := by decide
    generalize hs : printed [] rest = s at h
    cases h with
    | char _ hno _ => exact absurd (List.cons.inj hs).1.symm hno
    | escape => exact absurd (List.cons.inj hs).1 hquote
    | code => exact absurd (List.cons.inj hs).1 hquote
    | backslash => exact absurd (List.cons.inj hs).1 hquote
  | cons c q =>
    cases hcntrl : isCntrl c with
    | true =>
      rw [printed_cntrl hcntrl] at h
      obtain ⟨ht, hprogress⟩ := step_cntrl hcntrl h
      exact .inl ⟨q, ht, hprogress⟩
    | false =>
      rw [printed_cons hcntrl] at h
      by_cases hback : c = byte '\\'
      · subst hback
        rcases step_backslash h with hprogress | ⟨rfl, hx⟩
        · exact .inl hprogress
        · exact .inr ⟨rfl, hx⟩
      · generalize hs : c :: printed q rest = s at h
        cases h with
        | char _ hquote _ =>
          obtain ⟨rfl, rfl⟩ := List.cons.inj hs
          refine .inl ⟨q, rfl, .inl ⟨c, rfl, rfl, ?_, hquote, fun h => absurd h hback⟩, ?_⟩
          · rintro rfl
            cases hcntrl
          · rw [List.count_cons_of_ne hquote]
            exact Nat.le_add_left _ _
        | escape => exact absurd (List.cons.inj hs).1 hback
        | code => exact absurd (List.cons.inj hs).1 hback
        | backslash => exact absurd (List.cons.inj hs).1 hback

/-- **What is read** of a part in quotes is the part, if the part is safe, and what is behind is left;
or it weighs less, or has a quote more. -/
theorem content_weight {s v rest' : Bytes} (h : Content s v rest') :
    ∀ {q rest : Bytes}, s = printed q rest →
      (Safe q ∧ v = q ∧ rest' = rest) ∨ weight v < weight q ∨
        q.count (byte '"') < v.count (byte '"') := by
  induction h with
  | close rest' =>
    intro q rest hs
    cases q with
    | nil => exact .inl ⟨trivial, rfl, (List.cons.inj hs).2⟩
    | cons c q =>
      refine .inr (.inl ?_)
      rw [weight_nil, weight_cons]
      exact Nat.add_pos_left (charWeight_pos c) _
  | @step s x t v rest' hstep _ ih =>
    intro q rest hs
    rcases step_printed hs hstep with ⟨q', ht, hweighs, hquotes⟩ | ⟨rfl, rfl⟩
    · have hle : weight x + weight q' ≤ weight q := by
        rcases hweighs with ⟨c, rfl, rfl, -⟩ | hlt
        · rw [weight_cons, weight_cons, weight_nil, Nat.add_zero]
        · exact Nat.le_of_lt hlt
      rw [weight_append, List.count_append]
      rcases ih ht with ⟨hsafe, rfl, rfl⟩ | hlt | hmore
      · rcases hweighs with ⟨c, rfl, rfl, hzero, hquote, hback⟩ | hlt
        · exact .inl ⟨⟨hzero, hquote, hback, hsafe⟩, rfl, rfl⟩
        · exact .inr (.inl hlt)
      · exact .inr (.inl (by omega))
      · exact .inr (.inr (by omega))
    · -- the closing quote is taken for an escape
      refine .inr (.inr ?_)
      have hzero : [byte '\\'].count (byte '"') = 0 := by decide
      rw [List.count_append, hzero, List.count_singleton_self]
      omega

/-- A part is read again from quotes just if it is safe. -/
theorem content_printed_iff {q rest rest' : Bytes} :
    Content (printed q rest) q rest' ↔ Safe q ∧ rest' = rest := by
  constructor
  · intro h
    rcases content_weight h rfl with ⟨hsafe, -, hrest⟩ | hlt | hlt
    · exact ⟨hsafe, hrest⟩
    · exact absurd hlt (Nat.lt_irrefl _)
    · exact absurd hlt (Nat.lt_irrefl _)
  · rintro ⟨hsafe, rfl⟩
    exact content_of_safe rest' hsafe

end Primitives.SettingPath
