import Primitives.Versions.Grammar

/-!
# The grammar of ranges is not ambiguous

Every text has at most one derivation (`file_unique`). A version ends at the first token that is none of
its own, and a range where its version ends, unless a hyphen follows behind a space. A space between two
ranges says "and", but not the one before an `||`.
-/

set_option autoImplicit false

namespace Primitives.Versions

open Lib

/-! ## Classes of tokens -/

def Token.isSpace : Token → Bool
  | .space => true
  | _ => false

def Token.isDot : Token → Bool
  | .dot => true
  | _ => false

/-- A token of `number`. -/
def Token.isNumber : Token → Bool
  | .number _ | .xNumber _ | .starNumber => true
  | _ => false

/-- A token of `extra_part`. -/
def Token.isExtraPart : Token → Bool
  | .extra _ | .string _ | .xNumber _ | .number _ => true
  | _ => false

/-- A token of `version`. -/
def Token.isVersion (t : Token) : Bool := t.isNumber || t.isExtraPart || t.isDot || t = .hyphen

/-- A token between the brackets and the comma of an interval. -/
def Token.isSlot (t : Token) : Bool := t.isVersion || t.isSpace

/-- A token of `and` or of `or`. -/
def Token.isSeparator : Token → Bool
  | .space | .and | .comma | .or => true
  | _ => false

/-- The first token of `range`. -/
def Token.isFirst (t : Token) : Bool :=
  (prefixRange t).isSome || t.isNumber || (openBracket t).isSome

/-! ## Versions -/

theorem spaceOrEmpty_definite : Definite SpaceOrEmpty (Stops Token.isSpace) := by
  refine Definite.of_class (fun h => ?_) fun _ _ => rfl
  cases h with
  | empty => exact fun t ht => by cases ht
  | space =>
    intro t ht
    rw [List.mem_singleton.mp ht]
    rfl

theorem dot_definite {follow : List Token → Prop} : Definite Dot follow :=
  (Definite.of_single (fun h => by cases h; exact ⟨_, rfl⟩) fun _ _ => rfl).mono fun _ => trivial

theorem NumberText.exists_token {n : Number} {ts : List Token} (h : NumberText n ts) :
    ∃ t, ts = [t] ∧ t.isNumber = true := by
  cases h with
  | number digits h => exact ⟨_, rfl, rfl⟩
  | x s => exact ⟨_, rfl, rfl⟩
  | star => exact ⟨_, rfl, rfl⟩

theorem NumberText.unique {n n' : Number} {ts : List Token} (h : NumberText n ts)
    (h' : NumberText n' ts) : n = n' := by
  cases h with
  | number digits h =>
    cases h'
    rfl
  | x s =>
    cases h'
    rfl
  | star =>
    cases h'
    rfl

theorem ExtraPart.exists_token {x : Value} {ts : List Token} (h : ExtraPart x ts) :
    ∃ t, ts = [t] ∧ t.isExtraPart = true := by
  cases h with
  | extra s => exact ⟨_, rfl, rfl⟩
  | string s => exact ⟨_, rfl, rfl⟩
  | x s => exact ⟨_, rfl, rfl⟩
  | number digits h => exact ⟨_, rfl, rfl⟩

theorem ExtraPart.unique {x x' : Value} {ts : List Token} (h : ExtraPart x ts) (h' : ExtraPart x' ts) :
    x = x' := by
  cases h with
  | extra s =>
    cases h'
    rfl
  | string s =>
    cases h'
    rfl
  | x s =>
    cases h'
    rfl
  | number digits h =>
    cases h'
    rfl

/-- Single tokens with dots between them end where no dot follows. -/
theorem dotted_definite {α : Type} {item : α → List Token → Prop} {first : Token → Bool}
    (hitem : ∀ {a ts}, item a ts → ∃ t, ts = [t] ∧ first t = true)
    (hone : ∀ {a a' ts}, item a ts → item a' ts → a = a') :
    Definite (SepBy item Dot) (Stops Token.isDot) := by
  have hsingle : Definite item fun _ => True :=
    Definite.of_single (fun h => (hitem h).imp fun _ h => h.1) hone
  refine SepBy.definite first hsingle ?_ dot_definite (fun _ _ => trivial) (fun _ => trivial) ?_
  · intro a us ha
    obtain ⟨t, rfl, ht⟩ := hitem ha
    exact ⟨t, [], rfl, ht⟩
  · rintro us vs ⟨⟩ - hstops
    cases hstops _ _ rfl

theorem numbers_definite : Definite (SepBy NumberText Dot) (Stops Token.isDot) :=
  dotted_definite NumberText.exists_token NumberText.unique

theorem extra_definite : Definite (SepBy ExtraPart Dot) (Stops Token.isDot) :=
  dotted_definite ExtraPart.exists_token ExtraPart.unique

theorem dotted_tokens {α : Type} {item : α → List Token → Prop} {P : Token → Prop} {as : List α}
    {ts : List Token} (h : SepBy item Dot as ts) (hitem : ∀ {a us}, item a us → ∃ t, us = [t] ∧ P t)
    (hdot : P .dot) : ∀ t ∈ ts, P t := by
  refine h.forall_token (fun ha t ht => ?_) fun hs t ht => ?_
  · obtain ⟨t', rfl, ht'⟩ := hitem ha
    rw [List.mem_singleton.mp ht]
    exact ht'
  · cases hs
    rw [List.mem_singleton.mp ht]
    exact hdot

theorem NumberText.isVersion {n : Number} {us : List Token} (h : NumberText n us) :
    ∃ t, us = [t] ∧ t.isVersion = true := by
  obtain ⟨t, ht, hclass⟩ := h.exists_token
  exact ⟨t, ht, by simp [Token.isVersion, hclass]⟩

theorem ExtraPart.isVersion {x : Value} {us : List Token} (h : ExtraPart x us) :
    ∃ t, us = [t] ∧ t.isVersion = true := by
  obtain ⟨t, ht, hclass⟩ := h.exists_token
  exact ⟨t, ht, by simp [Token.isVersion, hclass]⟩

namespace VersionTokens

variable {v v' : VersionText} {ts : List Token}

theorem isVersion (h : VersionTokens v ts) : ∀ t ∈ ts, t.isVersion = true := by
  cases h with
  | basic h hextra => exact dotted_tokens h NumberText.isVersion rfl
  | extra h hextra =>
    intro t ht
    rcases List.mem_append.mp ht with ht | ht
    · exact dotted_tokens h NumberText.isVersion rfl t ht
    · rcases List.mem_cons.mp ht with rfl | ht
      · rfl
      · exact dotted_tokens hextra ExtraPart.isVersion rfl t ht

theorem begins (h : VersionTokens v ts) : Begins Token.isNumber ts := by
  have hnumbers : ∀ {ns us}, SepBy NumberText Dot ns us → Begins Token.isNumber us := by
    intro ns us h
    refine h.begins fun hn => ?_
    obtain ⟨t, rfl, ht⟩ := hn.exists_token
    exact ⟨t, [], rfl, ht⟩
  cases h with
  | basic h hextra => exact hnumbers h
  | extra h hextra =>
    obtain ⟨t, us, rfl, ht⟩ := hnumbers h
    exact ⟨t, _, rfl, ht⟩

theorem unique (h : VersionTokens v ts) (h' : VersionTokens v' ts) : v = v' := by
  have hext : v.numbers = v'.numbers → v.extra = v'.extra → v = v' := by
    cases v
    cases v'
    rintro rfl rfl
    rfl
  have hhyphen : ∀ us, Stops Token.isDot (.hyphen :: us) := fun us => stops_cons rfl
  cases h with
  | basic h hextra =>
    cases h' with
    | basic h' hextra' =>
      exact hext (numbers_definite h h' stops_nil stops_nil rfl).1 (hextra.trans hextra'.symm)
    | extra h' hextra' =>
      have heq := numbers_definite.split h h' stops_nil (hhyphen _) (List.append_nil _)
      cases heq.2
  | @extra us ws h hextra =>
    generalize hts : us ++ .hyphen :: ws = ts at h'
    cases h' with
    | basic h' hextra' =>
      have heq := numbers_definite.split h h' (hhyphen _) stops_nil (hts.trans (List.append_nil _).symm)
      cases heq.2
    | extra h' hextra' =>
      obtain ⟨hnumbers, heq⟩ := numbers_definite.split h h' (hhyphen _) (hhyphen _) hts
      cases heq
      exact hext hnumbers (extra_definite hextra hextra' stops_nil stops_nil rfl).1

theorem definite : Definite VersionTokens (Stops Token.isVersion) :=
  Definite.of_class isVersion unique

end VersionTokens

/-! ## Intervals -/

/-- What stands between a bracket and the comma: a version or none. -/
inductive Slot : Option VersionText → List Token → Prop
  | none {sp : List Token} (h : SpaceOrEmpty () sp) : Slot none sp
  | some {v : VersionText} {sp ts sp' : List Token} (hsp : SpaceOrEmpty () sp) (h : VersionTokens v ts)
      (hsp' : SpaceOrEmpty () sp') : Slot (some v) (sp ++ (ts ++ sp'))

theorem SpaceOrEmpty.isSpace {sp : List Token} (h : SpaceOrEmpty () sp) :
    ∀ t ∈ sp, t.isSpace = true := by
  cases h with
  | empty => exact fun t ht => by cases ht
  | space =>
    intro t ht
    rw [List.mem_singleton.mp ht]
    rfl

theorem Token.not_isSpace_of_isVersion {t : Token} (h : t.isVersion = true) : t.isSpace = false := by
  cases t <;> first | rfl | cases h

theorem Token.isVersion_of_isNumber {t : Token} (h : t.isNumber = true) : t.isVersion = true := by
  rw [Token.isVersion, h]
  rfl

/-- Behind a space a version begins. -/
theorem VersionTokens.stops_isSpace {v : VersionText} {ts rest : List Token} (h : VersionTokens v ts) :
    Stops Token.isSpace (ts ++ rest) := by
  obtain ⟨t, us, rfl, ht⟩ := h.begins
  exact stops_cons (Token.not_isSpace_of_isVersion (Token.isVersion_of_isNumber ht))

/-- Spaces end a version. -/
theorem SpaceOrEmpty.stops_isVersion {sp rest : List Token} (h : SpaceOrEmpty () sp)
    (hrest : Stops Token.isVersion rest) : Stops Token.isVersion (sp ++ rest) := by
  cases h with
  | empty => exact hrest
  | space => exact stops_cons rfl

theorem slot_definite : Definite Slot (Stops Token.isSlot) := by
  refine Definite.of_class (fun h => ?_) fun h h' => ?_
  · have hspace : ∀ {sp}, SpaceOrEmpty () sp → ∀ t ∈ sp, t.isSlot = true := by
      intro sp h t ht
      rw [Token.isSlot, h.isSpace t ht]
      exact Bool.or_true _
    cases h with
    | none h => exact hspace h
    | some hsp h hsp' =>
      intro t ht
      rcases List.mem_append.mp ht with ht | ht
      · exact hspace hsp t ht
      · rcases List.mem_append.mp ht with ht | ht
        · rw [Token.isSlot, h.isVersion t ht]
          rfl
        · exact hspace hsp' t ht
  · have hno : ∀ {v sp us ts sp'}, SpaceOrEmpty () sp → VersionTokens v ts →
        ¬ SpaceOrEmpty () (us ++ (ts ++ sp')) := by
      intro v sp us ts sp' _ h hspace
      obtain ⟨t, ws, rfl, ht⟩ := h.begins
      have hisSpace := hspace.isSpace t (by simp)
      rw [Token.not_isSpace_of_isVersion (Token.isVersion_of_isNumber ht)] at hisSpace
      cases hisSpace
    cases h with
    | none h =>
      cases h' with
      | none => rfl
      | some hsp hv hsp' => exact absurd h (hno hsp hv)
    | @some v sp us sp' hsp hv hsp' =>
      generalize hts : sp ++ (us ++ sp') = ts at h'
      cases h' with
      | none h' =>
        subst hts
        exact absurd h' (hno hsp hv)
      | some hs hv' hs' =>
        obtain ⟨-, heq⟩ := spaceOrEmpty_definite.split hsp hs hv.stops_isSpace hv'.stops_isSpace hts
        have hend : ∀ {sp}, SpaceOrEmpty () sp → Stops Token.isVersion sp := by
          intro sp h
          have hstops : Stops Token.isVersion (sp ++ []) := h.stops_isVersion stops_nil
          rwa [List.append_nil] at hstops
        rw [(VersionTokens.definite hv hv' (hend hsp') (hend hs') heq).1]

/-- The interval of brackets and slots. -/
def bracketRange (l : Bool) : Option VersionText → Option VersionText → Bool → Option Range
  | some v₁, some v₂, r => some (.interval l v₁ v₂ r)
  | some v, none, r => some (.intervalFrom l v r)
  | none, some v, r => some (.intervalTo l v r)
  | none, none, _ => none

/-! ## Simple ranges -/

/-- A range does not go on with a version token, and not with a hyphen behind a space. -/
def AfterRange (rest : List Token) : Prop :=
  Stops Token.isVersion rest ∧ ∀ us, rest ≠ .space :: .hyphen :: us

/-- What makes a range of a version. -/
inductive VersionTail (v : VersionText) : Range → List Token → Prop
  | version : VersionTail v (.version v) []
  | hyphen {v₂ : VersionText} {sp us : List Token} (hsp : SpaceOrEmpty () sp)
      (h : VersionTokens v₂ us) : VersionTail v (.hyphen v v₂) (.space :: .hyphen :: (sp ++ us))

theorem VersionTail.definite (v : VersionText) : Definite (VersionTail v) AfterRange := by
  intro r r' ts ts' rest rest' h h' hr hr' heq
  cases h with
  | version =>
    cases h' with
    | version => exact ⟨rfl, rfl⟩
    | hyphen hsp h' => exact absurd heq (hr.2 _)
  | hyphen hsp h =>
    cases h' with
    | version => exact absurd heq.symm (hr'.2 _)
    | hyphen hsp' h' =>
      simp only [List.cons_append, List.append_assoc, List.cons.injEq, true_and] at heq
      obtain ⟨-, rfl⟩ := spaceOrEmpty_definite hsp hsp' h.stops_isSpace h'.stops_isSpace heq
      obtain ⟨rfl, rfl⟩ := VersionTokens.definite h h' hr.1 hr'.1 (List.append_cancel_left heq)
      exact ⟨rfl, rfl⟩

theorem VersionTail.stops {v : VersionText} {r : Range} {more rest : List Token}
    (h : VersionTail v r more) (hrest : AfterRange rest) : Stops Token.isVersion (more ++ rest) := by
  cases h with
  | version => exact hrest.1
  | hyphen hsp h => exact stops_cons rfl

/-- What a range begins with says of which kind it is. -/
inductive RangeKind : Range → List Token → Prop
  | prefixed {t : Token} {f : VersionText → Range} {v : VersionText} {sp ts : List Token}
      (ht : prefixRange t = some f) (hsp : SpaceOrEmpty () sp) (hv : VersionTokens v ts) :
      RangeKind (f v) (t :: (sp ++ ts))
  | interval {b c : Token} {l r : Bool} {o₁ o₂ : Option VersionText} {range : Range} {x y : List Token}
      (hb : openBracket b = some l) (hc : closeBracket c = some r) (hx : Slot o₁ x) (hy : Slot o₂ y)
      (hrange : bracketRange l o₁ o₂ r = some range) :
      RangeKind range (b :: (x ++ .comma :: (y ++ [c])))
  | version {v : VersionText} {r : Range} {ts more : List Token} (h : VersionTokens v ts)
      (hmore : VersionTail v r more) : RangeKind r (ts ++ more)

theorem RangeTokens.kind {r : Range} {ts : List Token} (h : RangeTokens r ts) : RangeKind r ts := by
  cases h with
  | prefixed ht hsp hv => exact .prefixed ht hsp hv
  | hyphen h₁ hsp h₂ => exact .version h₁ (.hyphen hsp h₂)
  | version h =>
    have hkind := RangeKind.version h .version
    rwa [List.append_nil] at hkind
  | interval hb hc h₁ h₂ hs₁ hs₂ hs₃ hs₄ =>
    have hkind := RangeKind.interval hb hc (.some hs₁ h₁ hs₂) (.some hs₃ h₂ hs₄) rfl
    simpa only [List.append_assoc] using hkind
  | intervalFrom hb hc h hs₁ hs₂ hs₃ =>
    have hkind := RangeKind.interval hb hc (.some hs₁ h hs₂) (.none hs₃) rfl
    simpa only [List.append_assoc] using hkind
  | intervalTo hb hc h hs₁ hs₂ hs₃ =>
    have hkind := RangeKind.interval hb hc (.none hs₁) (.some hs₂ h hs₃) rfl
    simpa only [List.append_assoc] using hkind

theorem RangeKind.begins {r : Range} {ts : List Token} (h : RangeKind r ts) :
    Begins Token.isFirst ts := by
  cases h with
  | prefixed ht hsp hv => exact ⟨_, _, rfl, by simp [Token.isFirst, ht]⟩
  | interval hb hc hx hy hrange => exact ⟨_, _, rfl, by simp [Token.isFirst, hb]⟩
  | version h hmore =>
    obtain ⟨t, ws, rfl, ht⟩ := h.begins
    exact ⟨t, _, rfl, by simp [Token.isFirst, ht]⟩

theorem prefixRange_of_isNumber {t : Token} (h : t.isNumber = true) : prefixRange t = none := by
  cases t <;> first | rfl | cases h

theorem openBracket_of_isNumber {t : Token} (h : t.isNumber = true) : openBracket t = none := by
  cases t <;> first | rfl | cases h

theorem openBracket_of_prefixRange {t : Token} {f : VersionText → Range} (h : prefixRange t = some f) :
    openBracket t = none := by
  cases t <;> first | rfl | cases h

theorem closeBracket_not_isSlot {c : Token} {r : Bool} (h : closeBracket c = some r) :
    c.isSlot = false := by
  cases c <;> first | rfl | cases h

theorem RangeKind.definite : Definite RangeKind AfterRange := by
  intro r r' ts ts' rest rest' h h' hr hr' heq
  cases h with
  | prefixed ht hsp hv =>
    cases h' with
    | prefixed ht' hsp' hv' =>
      simp only [List.cons_append, List.append_assoc, List.cons.injEq] at heq
      obtain ⟨rfl, heq⟩ := heq
      cases ht.symm.trans ht'
      obtain ⟨-, rfl⟩ := spaceOrEmpty_definite hsp hsp' hv.stops_isSpace hv'.stops_isSpace heq
      obtain ⟨rfl, rfl⟩ := VersionTokens.definite hv hv' hr.1 hr'.1 (List.append_cancel_left heq)
      exact ⟨rfl, rfl⟩
    | interval hb =>
      obtain rfl := (List.cons.inj heq).1
      rw [openBracket_of_prefixRange ht] at hb
      cases hb
    | version h' =>
      obtain ⟨t', us, rfl, ht'⟩ := h'.begins
      obtain rfl := (List.cons.inj heq).1
      rw [prefixRange_of_isNumber ht'] at ht
      cases ht
  | interval hb hc hx hy hrange =>
    cases h' with
    | prefixed ht' =>
      obtain rfl := (List.cons.inj heq).1
      rw [openBracket_of_prefixRange ht'] at hb
      cases hb
    | interval hb' hc' hx' hy' hrange' =>
      simp only [List.cons_append, List.append_assoc, List.cons.injEq, List.nil_append] at heq
      obtain ⟨rfl, heq⟩ := heq
      cases hb.symm.trans hb'
      obtain ⟨rfl, rfl⟩ := slot_definite hx hx' (stops_cons rfl) (stops_cons rfl) heq
      have heq := (List.cons.inj (List.append_cancel_left heq)).2
      have hstop := closeBracket_not_isSlot hc
      have hstop' := closeBracket_not_isSlot hc'
      obtain ⟨rfl, rfl⟩ := slot_definite hy hy' (stops_cons hstop) (stops_cons hstop') heq
      cases List.append_cancel_left heq
      cases hc.symm.trans hc'
      cases hrange.symm.trans hrange'
      exact ⟨rfl, rfl⟩
    | version h' =>
      obtain ⟨t', us, rfl, ht'⟩ := h'.begins
      obtain rfl := (List.cons.inj heq).1
      rw [openBracket_of_isNumber ht'] at hb
      cases hb
  | version h hmore =>
    cases h' with
    | prefixed ht' =>
      obtain ⟨t, us, rfl, ht⟩ := h.begins
      obtain rfl := (List.cons.inj heq).1
      rw [prefixRange_of_isNumber ht] at ht'
      cases ht'
    | interval hb =>
      obtain ⟨t, us, rfl, ht⟩ := h.begins
      obtain rfl := (List.cons.inj heq).1
      rw [openBracket_of_isNumber ht] at hb
      cases hb
    | version h' hmore' =>
      simp only [List.append_assoc] at heq
      obtain ⟨rfl, rfl⟩ := VersionTokens.definite h h' (hmore.stops hr) (hmore'.stops hr') heq
      obtain ⟨rfl, rfl⟩ := VersionTail.definite _ hmore hmore' hr hr' (List.append_cancel_left heq)
      exact ⟨rfl, rfl⟩

theorem range_definite : Definite RangeTokens AfterRange :=
  fun _ _ _ _ _ _ h h' => RangeKind.definite h.kind h'.kind

theorem RangeTokens.begins {r : Range} {ts : List Token} (h : RangeTokens r ts) :
    Begins Token.isFirst ts := h.kind.begins

/-! ## Sets -/

theorem not_isSeparator_of_isFirst {t : Token} (h : t.isFirst = true) : t.isSeparator = false := by
  cases t <;> first | rfl | cases h

theorem stops_isSeparator {ts : List Token} (h : Begins Token.isFirst ts) :
    Stops Token.isSeparator ts := by
  obtain ⟨t, us, rfl, ht⟩ := h
  exact stops_cons (not_isSeparator_of_isFirst ht)

theorem SpaceOrEmpty.eq_space {sp : List Token} (h : SpaceOrEmpty () sp) : ∀ t ∈ sp, t = .space := by
  cases h with
  | empty => exact fun t ht => by cases ht
  | space => exact fun t ht => List.mem_singleton.mp ht

theorem And.mem_cases {us : List Token} (h : And () us) :
    ∀ t ∈ us, t = .space ∨ t = .and ∨ t = .comma := by
  cases h with
  | space => exact fun t ht => .inl (List.mem_singleton.mp ht)
  | token ht hsp hsp' =>
    intro t' ht'
    rcases List.mem_append.mp ht' with ht' | ht'
    · exact .inl (hsp.eq_space t' ht')
    · rcases List.mem_cons.mp ht' with rfl | ht'
      · exact .inr ht
      · exact .inl (hsp'.eq_space t' ht')

theorem Or.mem_cases {us : List Token} (h : Or () us) : ∀ t ∈ us, t = .space ∨ t = .or := by
  cases h with
  | or hsp hsp' =>
    intro t ht
    rcases List.mem_append.mp ht with ht | ht
    · exact .inl (hsp.eq_space t ht)
    · rcases List.mem_cons.mp ht with rfl | ht
      · exact .inr rfl
      · exact .inl (hsp'.eq_space t ht)

theorem And.isSeparator {us : List Token} (h : And () us) : ∀ t ∈ us, t.isSeparator = true := by
  intro t ht
  rcases h.mem_cases t ht with rfl | rfl | rfl <;> rfl

theorem Or.isSeparator {us : List Token} (h : Or () us) : ∀ t ∈ us, t.isSeparator = true := by
  intro t ht
  rcases h.mem_cases t ht with rfl | rfl <;> rfl

theorem and_definite : Definite And (Begins Token.isFirst) :=
  (Definite.of_class And.isSeparator fun _ _ => rfl).mono stops_isSeparator

theorem or_definite : Definite Or (Begins Token.isFirst) :=
  (Definite.of_class Or.isSeparator fun _ _ => rfl).mono stops_isSeparator

/-- What is between two ranges, in a set or of two sets, does not go on a range. -/
theorem afterRange_separator {us vs : List Token} (hne : us ≠ [])
    (hsep : ∀ t ∈ us, t.isSeparator = true) (hvs : Begins Token.isFirst vs) : AfterRange (us ++ vs) := by
  have hversion : ∀ {t : Token}, t.isSeparator = true → t.isVersion = false := by
    intro t ht
    cases t <;> first | rfl | cases ht
  constructor
  · cases us with
    | nil => exact absurd rfl hne
    | cons t us => exact stops_cons (hversion (hsep t List.mem_cons_self))
  · intro ws heq
    cases us with
    | nil => exact hne rfl
    | cons t us =>
      cases us with
      | nil =>
        obtain ⟨t', vs', rfl, ht'⟩ := hvs
        cases heq
        cases ht'
      | cons t' us =>
        cases heq
        cases hsep .hyphen (List.mem_cons_of_mem _ List.mem_cons_self)

theorem And.ne_nil {us : List Token} (h : And () us) : us ≠ [] := by
  cases h with
  | space => exact List.cons_ne_nil _ _
  | token ht hsp hsp' => exact List.append_ne_nil_of_right_ne_nil _ (List.cons_ne_nil _ _)

theorem Or.mem {us : List Token} (h : Or () us) : .or ∈ us := by
  cases h with
  | or hsp hsp' => exact List.mem_append_right _ List.mem_cons_self

/-- Behind a set the text ends, or another set follows. -/
def AfterSet (rest : List Token) : Prop :=
  rest = [] ∨ ∃ us vs, rest = us ++ vs ∧ Or () us ∧ Begins Token.isFirst vs

theorem rangeSetAnd_definite : Definite RangeSetAnd AfterSet := by
  refine SepBy.definite Token.isFirst range_definite RangeTokens.begins and_definite ?_ ?_ ?_
  · exact fun hus hvs => afterRange_separator hus.ne_nil hus.isSeparator hvs
  · rintro rest (rfl | ⟨us, vs, rfl, hus, hvs⟩)
    · exact ⟨stops_nil, fun us h => by cases h⟩
    · exact afterRange_separator (List.ne_nil_of_mem hus.mem) hus.isSeparator hvs
  · rintro us vs hus hvs (hnil | ⟨us', vs', heq, hus', hvs'⟩)
    · exact hus.ne_nil (List.append_eq_nil_iff.mp hnil).1
    · -- an `||` is not among the tokens of an "and"
      have htake : us = us' := by
        rw [← takeWhile_of_stops hus.isSeparator (stops_isSeparator hvs), heq,
          takeWhile_of_stops hus'.isSeparator (stops_isSeparator hvs')]
      subst htake
      rcases hus.mem_cases _ hus'.mem with h | h | h <;> cases h

theorem RangeSetAnd.begins {rs : List Range} {ts : List Token} (h : RangeSetAnd rs ts) :
    Begins Token.isFirst ts := SepBy.begins h RangeTokens.begins

/-- **The grammar is not ambiguous.** -/
theorem file_unique {sets sets' : List (List Range)} {ts : List Token} (h : File sets ts)
    (h' : File sets' ts) : sets = sets' := by
  have hdefinite : Definite File (· = []) := by
    refine SepBy.definite Token.isFirst rangeSetAnd_definite RangeSetAnd.begins or_definite ?_ ?_ ?_
    · exact fun hus hvs => .inr ⟨_, _, rfl, hus, hvs⟩
    · exact fun hnil => .inl hnil
    · exact fun hus _ hnil => List.ne_nil_of_mem hus.mem (List.append_eq_nil_iff.mp hnil).1
  exact (hdefinite h h' rfl rfl rfl).1

end Primitives.Versions
