import Primitives.Html.Print

/-!
# The attributes of a tag

The constructor of `html_node` goes over the attributes of a tag, with or without a value. The value that
it read last stays in a variable that lives as long as the loop, and an attribute without a value is given
this one. So the map has what was written only where no value was read before (`attributes_iff`).
-/

set_option autoImplicit false

namespace Primitives.Html

open Lib

/-! ## What is written -/

/-- An attribute of a tag, with a value in quotes or without one. -/
inductive Attribute where
  | bare (k : Str)
  | valued (k : Str) (quote : Char) (v : Str)
deriving DecidableEq, Repr

namespace Attribute

def key : Attribute → Str
  | bare k => k
  | valued k _ _ => k

def value : Attribute → Str
  | bare _ => []
  | valued _ _ v => v

def text : Attribute → Str
  | bare k => k
  | valued k quote v => k ++ '=' :: quote :: (v ++ [quote])

/-- A key ends at these. -/
def IsKey (k : Str) : Prop := ∀ c ∈ k, c ∉ HtmlNode.nameEnd ∧ c ∉ HtmlNode.quotes

instance decidableIsKey (k : Str) : Decidable (IsKey k) :=
  List.decidableBAll (fun c => c ∉ HtmlNode.nameEnd ∧ c ∉ HtmlNode.quotes) k

/-- What can be written. An attribute without a value is its key, and this is not empty then. -/
def Ok : Attribute → Prop
  | bare k => IsKey k ∧ k ≠ []
  | valued k quote v => IsKey k ∧ quote ∈ HtmlNode.quotes ∧ quote ∉ v

end Attribute

/-- The end of a tag. -/
def IsClose (close : Str) : Prop := close = ['>'] ∨ close = [' ', '/', '>']

/-- The attributes with a space before each. -/
def attributesText (as : List Attribute) : Str := as.flatMap fun a => ' ' :: a.text

def tagText (name : Str) (as : List Attribute) (close : Str) : Str :=
  '<' :: (name ++ (attributesText as ++ close))

/-- What the attributes are, by key. -/
def written (as : List Attribute) : List (Str × Str) := as.map fun a => (a.key, a.value)

/-- What is made of them, if `v` is the value that was read last. -/
def seen : Str → List Attribute → List (Str × Str)
  | _, [] => []
  | v, .bare k :: as => (k, v) :: seen v as
  | _, .valued k _ v :: as => (k, v) :: seen v as

/-- The value of the last attribute that has one, or `v`. -/
def lastValue : Str → List Attribute → Str
  | v, [] => v
  | v, .bare _ :: as => lastValue v as
  | _, .valued _ _ v :: as => lastValue v as

/-! ## Positions -/

section Positions

variable {text s rest : Str} {p : Nat} {c : Char} {q : Char → Bool}

theorem drop_add_length (h : text.drop p = s ++ rest) : text.drop (p + s.length) = rest := by
  rw [← List.drop_drop, h, List.drop_left]

theorem length_le_of_drop (hp : p ≤ text.length) (h : text.drop p = s ++ rest) :
    p + s.length ≤ text.length := by
  have hlen := congrArg List.length h
  rw [List.length_drop, List.length_append] at hlen
  omega

theorem firstFrom_of_drop (h : text.drop p = s ++ c :: rest) (hs : ∀ x ∈ s, q x = false)
    (hc : q c = true) : firstFrom q text p = p + s.length := by
  rw [firstFrom, h, findIdx?_append_of_all hs hc]

theorem charAt_of_drop (h : text.drop p = c :: rest) : charAt text p = .ok c := by
  have hget : text[p]? = some c := by
    rw [← List.head?_drop, h, List.head?_cons]
  rw [charAt, hget]

theorem substr_of_drop (hp : p ≤ text.length) (h : text.drop p = s ++ rest) {n : Nat} (hn : n = s.length) :
    substr text p n = .ok s := by
  rw [substr_of_le hp, h, hn, List.take_left]

end Positions

/-! ## The loop -/

section Loop

variable {text : Str} {close : Str}

/-- Behind an attribute there is a space or the end. -/
theorem exists_next (as : List Attribute) (hclose : IsClose close) :
    ∃ c rest, attributesText as ++ close = c :: rest ∧ (c = ' ' ∨ c = '>') := by
  cases as with
  | nil =>
    rcases hclose with rfl | rfl
    · exact ⟨'>', [], rfl, .inr rfl⟩
    · exact ⟨' ', _, rfl, .inl rfl⟩
  | cons a as => exact ⟨' ', _, rfl, .inl rfl⟩

/-- No attribute is left. -/
theorem attributesFrom_close {n p : Nat} {v : Str} {m : SortedMap Str Str} (hclose : IsClose close)
    (hdrop : text.drop p = close) : HtmlNode.attributesFrom text (n + 1) p v m = .ok m := by
  have hfirst : firstFrom (!HtmlNode.tagEnd.contains ·) text p = npos := by
    rw [firstFrom, hdrop]
    rcases hclose with rfl | rfl
    · rfl
    · rfl
  rw [HtmlNode.attributesFrom]
  simp only [hfirst, if_pos]
  rfl

theorem IsKey.nameEnd {k : Str} (h : Attribute.IsKey k) :
    ∀ x ∈ k, HtmlNode.nameEnd.contains x = false :=
  fun x hx => Bool.eq_false_iff.mpr fun hmem => (h x hx).1 (List.contains_iff_mem.mp hmem)

theorem IsKey.quotes {k : Str} (h : Attribute.IsKey k) :
    ∀ x ∈ k, HtmlNode.quotes.contains x = false :=
  fun x hx => Bool.eq_false_iff.mpr fun hmem => (h x hx).2 (List.contains_iff_mem.mp hmem)

/-- The characters that end a tag end a key too. -/
theorem tagEnd_of_nameEnd {x : Char} (h : HtmlNode.nameEnd.contains x = false) :
    HtmlNode.tagEnd.contains x = false := by
  rw [Bool.eq_false_iff] at h ⊢
  intro hmem
  refine h (List.contains_iff_mem.mpr ?_)
  have hsub : HtmlNode.tagEnd ⊆ HtmlNode.nameEnd := by decide
  exact hsub (List.contains_iff_mem.mp hmem)

/-- **The key of an attribute.** It is found behind the space, and what is behind it decides. -/
theorem attributesFrom_key {n p : Nat} {v : Str} {m : SortedMap Str Str} {k rest : Str} {c : Char}
    (hlen : text.length < 2 ^ 64) (hp : p ≤ text.length) (hdrop : text.drop p = ' ' :: (k ++ c :: rest))
    (hk : Attribute.IsKey k) (hc : c ∈ HtmlNode.nameEnd) (hfirst : k = [] → c = '=') :
    HtmlNode.attributesFrom text (n + 1) p v m =
      if c = '=' then do
        let p := firstFrom (HtmlNode.quotes.contains ·) text (p + 1)
        let quote ← charAt text p
        let e := findFrom (if quote = '\x27' then ['\x27'] else ['\x22']) text (p + 1)
        let v ← substr text (p + 1) (sizeT (e - (p + 1)))
        HtmlNode.attributesFrom text n (sizeT (e + 1)) v (m.emplace k v)
      else HtmlNode.attributesFrom text n (p + 1 + k.length) v (m.emplace k v) := by
  have hlt := length_le_of_drop (s := [' ']) hp hdrop
  have hdrop₁ : text.drop (p + 1) = k ++ c :: rest := drop_add_length (s := [' ']) hdrop
  have hle := length_le_of_drop (s := k) hlt hdrop₁
  have hstart : firstFrom (!HtmlNode.tagEnd.contains ·) text p = p + 1 := by
    obtain ⟨d, t, ht, hd⟩ : ∃ d t, k ++ c :: rest = d :: t ∧ HtmlNode.tagEnd.contains d = false := by
      cases k with
      | nil =>
        obtain rfl := hfirst rfl
        exact ⟨'=', rest, rfl, by decide⟩
      | cons d k => exact ⟨d, _, rfl, tagEnd_of_nameEnd (IsKey.nameEnd hk d List.mem_cons_self)⟩
    rw [ht] at hdrop
    refine firstFrom_of_drop (s := [' ']) hdrop (List.forall_mem_singleton.mpr rfl) ?_
    rw [hd]
    rfl
  have hend : firstFrom (HtmlNode.nameEnd.contains ·) text (p + 1) = p + 1 + k.length :=
    firstFrom_of_drop hdrop₁ (IsKey.nameEnd hk) (List.contains_iff_mem.mpr hc)
  have hbound : p + 1 + k.length + 1 ≤ text.length :=
    length_le_of_drop (s := [c]) hle (drop_add_length hdrop₁)
  have hnpos : p + 1 ≠ npos := by
    have hn : npos = 2 ^ 64 - 1 := rfl
    omega
  have hcount : sizeT (((p + 1 + k.length : Nat) : Int) - (p + 1 : Nat)) = k.length := by
    rw [sizeT_sub (by omega) (by omega)]
    omega
  rw [HtmlNode.attributesFrom]
  have hkey : substr text (p + 1) k.length = .ok k := substr_of_drop hlt hdrop₁ rfl
  simp only [hstart, if_neg hnpos, hend, hcount, hkey, charAt_of_drop (drop_add_length hdrop₁), bind,
    Except.bind]

/-- An attribute without a value. -/
theorem attributesFrom_bare {n p : Nat} {v : Str} {m : SortedMap Str Str} {k rest : Str} {c : Char}
    (hlen : text.length < 2 ^ 64) (hp : p ≤ text.length) (hdrop : text.drop p = ' ' :: (k ++ c :: rest))
    (hk : (Attribute.bare k).Ok) (hc : c = ' ' ∨ c = '>') :
    HtmlNode.attributesFrom text (n + 1) p v m =
      HtmlNode.attributesFrom text n (p + 1 + k.length) v (m.emplace k v) := by
  have hend : c ∈ HtmlNode.nameEnd ∧ c ≠ '=' := by
    rcases hc with rfl | rfl
    · decide
    · decide
  rw [attributesFrom_key hlen hp hdrop hk.1 hend.1 fun hnil => absurd hnil hk.2, if_neg hend.2]

/-- An attribute with a value. -/
theorem attributesFrom_valued {n p : Nat} {v w : Str} {m : SortedMap Str Str} {k rest : Str} {quote : Char}
    (hlen : text.length < 2 ^ 64) (hp : p ≤ text.length)
    (hdrop : text.drop p = ' ' :: ((Attribute.valued k quote w).text ++ rest))
    (ha : (Attribute.valued k quote w).Ok) :
    HtmlNode.attributesFrom text (n + 1) p v m =
      HtmlNode.attributesFrom text n (p + 1 + (Attribute.valued k quote w).text.length) w (m.emplace k w) := by
  obtain ⟨hk, hquote, hw⟩ := ha
  have htext : (Attribute.valued k quote w).text ++ rest =
      k ++ '=' :: (quote :: (w ++ quote :: rest)) := by
    simp [Attribute.text]
  have hlength : (Attribute.valued k quote w).text.length = k.length + w.length + 3 := by
    simp [Attribute.text]
    omega
  rw [htext] at hdrop
  have hlt := length_le_of_drop (s := [' ']) hp hdrop
  have hdrop₁ : text.drop (p + 1) = (k ++ ['=']) ++ quote :: (w ++ quote :: rest) := by
    rw [List.append_assoc]
    exact drop_add_length (s := [' ']) hdrop
  have hle₁ := length_le_of_drop hlt hdrop₁
  -- the quote is the first one behind the key
  have hopen : firstFrom (HtmlNode.quotes.contains ·) text (p + 1) = p + 1 + (k ++ ['=']).length := by
    refine firstFrom_of_drop hdrop₁ ?_ (List.contains_iff_mem.mpr hquote)
    rw [List.forall_mem_append, List.forall_mem_singleton]
    exact ⟨IsKey.quotes hk, by decide⟩
  have hdrop₂ := drop_add_length hdrop₁
  have hdrop₃ : text.drop (p + 1 + (k ++ ['=']).length + 1) = w ++ quote :: rest :=
    drop_add_length (s := [quote]) hdrop₂
  have hle₂ := length_le_of_drop (s := [quote]) hle₁ hdrop₂
  have hle₃ := length_le_of_drop hle₂ hdrop₃
  have hbound : p + 1 + (k ++ ['=']).length + 1 + w.length + 1 ≤ text.length :=
    length_le_of_drop (s := [quote]) hle₃ (drop_add_length hdrop₃)
  have hsame : (if quote = '\x27' then ['\x27'] else ['\x22']) = [quote] := by
    rcases List.mem_cons.mp hquote with rfl | hquote
    · rfl
    · rw [List.mem_singleton.mp hquote]
      rfl
  have hfind : findFrom [quote] text (p + 1 + (k ++ ['=']).length + 1) =
      p + 1 + (k ++ ['=']).length + 1 + w.length := by
    refine findFrom_of_some ?_
    rw [hdrop₃]
    exact find_append_cons hw
  have hcount : sizeT (((p + 1 + (k ++ ['=']).length + 1 + w.length : Nat) : Int) -
      (((p + 1 + (k ++ ['=']).length : Nat) : Int) + 1)) = w.length :=
    sizeT_add_sub (by omega)
  have hnext : sizeT (((p + 1 + (k ++ ['=']).length + 1 + w.length : Nat) : Int) + 1) =
      p + 1 + (Attribute.valued k quote w).text.length := by
    rw [hlength]
    simp only [List.length_append, List.length_singleton] at hbound ⊢
    unfold sizeT
    omega
  rw [attributesFrom_key hlen hp hdrop hk (by decide) fun _ => rfl, if_pos rfl]
  have hvalue : substr text (p + 1 + (k ++ ['=']).length + 1) w.length = .ok w :=
    substr_of_drop hle₂ hdrop₃ rfl
  simp only [hopen, charAt_of_drop hdrop₂, bind, Except.bind, hsame, hfind, hcount, hvalue, hnext]

/-- **The loop** gives every attribute the value that was read last. -/
theorem attributesFrom_eq {as : List Attribute} {n p : Nat} {v : Str} {m : SortedMap Str Str}
    (hlen : text.length < 2 ^ 64) (hp : p ≤ text.length) (hclose : IsClose close)
    (hdrop : text.drop p = attributesText as ++ close) (has : ∀ a ∈ as, a.Ok) (hn : as.length < n) :
    HtmlNode.attributesFrom text n p v m =
      .ok ((seen v as).foldl (fun m x => m.emplace x.1 x.2) m) := by
  induction as generalizing n p v m with
  | nil =>
    obtain ⟨n, rfl⟩ := Nat.exists_eq_succ_of_ne_zero (Nat.ne_of_gt hn)
    exact attributesFrom_close hclose hdrop
  | cons a as ih =>
    obtain ⟨n, rfl⟩ := Nat.exists_eq_succ_of_ne_zero (Nat.ne_of_gt (Nat.lt_of_le_of_lt (Nat.zero_le _) hn))
    obtain ⟨ha, hrest⟩ := List.forall_mem_cons.mp has
    have hn' : as.length < n := Nat.lt_of_succ_lt_succ hn
    have hdrop' : text.drop p = ' ' :: (a.text ++ (attributesText as ++ close)) := by
      rw [hdrop, attributesText, List.flatMap_cons]
      simp [attributesText]
    have hle := length_le_of_drop (s := ' ' :: a.text) hp hdrop'
    have hnext : text.drop (p + 1 + a.text.length) = attributesText as ++ close := by
      have h := drop_add_length (s := ' ' :: a.text) hdrop'
      rwa [List.length_cons, Nat.add_comm a.text.length, ← Nat.add_assoc] at h
    have hp' : p + 1 + a.text.length ≤ text.length := by
      rw [List.length_cons] at hle
      omega
    cases a with
    | bare k =>
      obtain ⟨c, rest, hc', hc⟩ := exists_next as hclose
      rw [hc'] at hdrop'
      rw [attributesFrom_bare hlen hp hdrop' ha hc, ih hp' hnext hrest hn']
      rfl
    | valued k quote w =>
      rw [attributesFrom_valued hlen hp hdrop' ha, ih hp' hnext hrest hn']
      rfl

end Loop

/-! ## What is seen -/

theorem keys_seen (v : Str) (as : List Attribute) : (seen v as).map Prod.fst = as.map Attribute.key := by
  induction as generalizing v with
  | nil => rfl
  | cons a as ih =>
    cases a with
    | bare k => exact congrArg (k :: ·) (ih v)
    | valued k quote w => exact congrArg (k :: ·) (ih w)

theorem keys_written (as : List Attribute) : (written as).map Prod.fst = as.map Attribute.key :=
  List.map_map

/-- **Every attribute is seen as it is written** if no value is left over where there is none. -/
theorem seen_eq_iff (v : Str) (as : List Attribute) : seen v as = written as ↔
    ∀ pre k post, as = pre ++ .bare k :: post → lastValue v pre = [] := by
  induction as generalizing v with
  | nil =>
    refine iff_of_true rfl fun pre k post h => ?_
    exact absurd h.symm (List.append_ne_nil_of_right_ne_nil _ (List.cons_ne_nil _ _))
  | cons a as ih =>
    constructor
    · intro h pre k post has
      cases pre with
      | nil =>
        obtain ⟨rfl, rfl⟩ := List.cons.inj has
        exact congrArg Prod.snd (List.cons.inj h).1
      | cons b pre =>
        obtain ⟨rfl, htail⟩ := List.cons.inj has
        cases a with
        | bare j => exact (ih v).mp (List.cons.inj h).2 pre k post htail
        | valued j quote w => exact (ih w).mp (List.cons.inj h).2 pre k post htail
    · intro h
      cases a with
      | bare j =>
        have hv : v = [] := h [] j as rfl
        have hrest := (ih v).mpr fun pre k post has => h (.bare j :: pre) k post (congrArg _ has)
        show (j, v) :: seen v as = (j, []) :: written as
        rw [hrest, hv]
      | valued j quote w =>
        have hrest := (ih w).mpr fun pre k post has => h (.valued j quote w :: pre) k post (congrArg _ has)
        exact congrArg ((j, w) :: ·) hrest

/-- The node of a tag. -/
theorem ofTag_tagText {name close : Str} {as : List Attribute} {n : Nat}
    (hname : ∀ c ∈ name, c ∉ HtmlNode.tagEnd) (has : ∀ a ∈ as, a.Ok) (hclose : IsClose close)
    (hlen : (tagText name as close).length < 2 ^ 64) (hn : as.length < n) :
    HtmlNode.ofTag n (tagText name as close) =
      .ok (.mk name ((seen [] as).foldl (fun m x => m.emplace x.1 x.2) .empty) []) := by
  obtain ⟨c, rest, hrest, hc⟩ := exists_next as hclose
  have hend : ∀ x ∈ '<' :: name, HtmlNode.tagEnd.contains x = false := by
    intro x hx
    refine Bool.eq_false_iff.mpr fun hmem => ?_
    rcases List.mem_cons.mp hx with rfl | hx
    · exact absurd (List.contains_iff_mem.mp hmem) (by decide)
    · exact hname x hx (List.contains_iff_mem.mp hmem)
  have hstop : HtmlNode.tagEnd.contains c = true := by
    rcases hc with rfl | rfl
    · decide
    · decide
  have hdrop : (tagText name as close).drop 0 = ('<' :: name) ++ c :: rest := by
    rw [List.drop_zero, tagText, hrest]
    rfl
  have hfirst : firstFrom (HtmlNode.tagEnd.contains ·) (tagText name as close) 0 = name.length + 1 :=
    (firstFrom_of_drop hdrop hend hstop).trans (Nat.zero_add _)
  have hle : name.length + 1 ≤ (tagText name as close).length := by
    have h := length_le_of_drop (Nat.zero_le _) hdrop
    rwa [Nat.zero_add] at h
  have hd : substr (tagText name as close) 1 (sizeT (((name.length + 1 : Nat) : Int) - 1)) = .ok name := by
    have htail : (tagText name as close).drop 1 = name ++ (attributesText as ++ close) := rfl
    refine substr_of_drop (by omega) htail ?_
    unfold sizeT
    omega
  have hattributes : (tagText name as close).drop (name.length + 1) = attributesText as ++ close := by
    have h := drop_add_length hdrop
    rwa [Nat.zero_add, ← hrest] at h
  rw [HtmlNode.ofTag]
  simp only [hfirst, hd, bind, Except.bind, attributesFrom_eq hlen hle hclose hattributes has hn]
  rfl

/-- **The attributes of a tag** are those that are written, if and only if before every attribute without
a value the last attribute that has one, if there is any, has the empty value. -/
theorem attributes_iff (name : Str) (as : List Attribute) (close : Str)
    (hname : ∀ c ∈ name, c ∉ HtmlNode.tagEnd) (has : ∀ a ∈ as, a.Ok)
    (hkeys : (as.map Attribute.key).Nodup) (hclose : close = ['>'] ∨ close = [' ', '/', '>'])
    (hlen : (tagText name as close).length < 2 ^ 64) :
    (∃ N, ∀ n ≥ N, ∃ node, HtmlNode.ofTag n (tagText name as close) = .ok node ∧
      node.attributes.entries.Perm (written as)) ↔
    ∀ pre k post, as = pre ++ .bare k :: post → lastValue [] pre = [] := by
  have hnodup : ((seen [] as).map Prod.fst).Nodup := by
    rw [keys_seen]
    exact hkeys
  have hentries := SortedMap.entries_foldl_emplace hnodup
  rw [← seen_eq_iff]
  constructor
  · rintro ⟨N, h⟩
    obtain ⟨node, hnode, hperm⟩ := h (max N (as.length + 1)) (Nat.le_max_left _ _)
    rw [ofTag_tagText hname has hclose hlen (Nat.lt_of_succ_le (Nat.le_max_right _ _))] at hnode
    cases hnode
    exact SortedMap.eq_of_perm_of_keys (hentries.symm.trans hperm)
      ((keys_seen [] as).trans (keys_written as).symm) hnodup
  · intro h
    refine ⟨as.length + 1, fun n hn => ⟨_, ofTag_tagText hname has hclose hlen hn, ?_⟩⟩
    rw [← h]
    exact hentries

/-- `<a b c="d">` -/
theorem attributes_bare_first : ∃ N, ∀ n ≥ N, ∃ node,
    HtmlNode.ofTag n (tagText ['a'] [.bare ['b'], .valued ['c'] '\x22' ['d']] ['>']) = .ok node ∧
      node.attributes.entries.Perm (written [.bare ['b'], .valued ['c'] '\x22' ['d']]) := by
  have has : ∀ a ∈ [Attribute.bare ['b'], .valued ['c'] '\x22' ['d']], a.Ok := by
    rw [List.forall_mem_cons, List.forall_mem_singleton]
    exact ⟨⟨by decide, by decide⟩, by decide, by decide, by decide⟩
  exact (attributes_iff ['a'] [.bare ['b'], .valued ['c'] '\x22' ['d']] ['>']
    (List.forall_mem_singleton.mpr (by decide)) has (by decide) (.inl rfl) (by decide)).mpr
    ((seen_eq_iff [] _).mp rfl)

/-- `<a b="c" d>`: the value of `d` is that of `b`. -/
theorem not_attributes_bare_last :
    let as : List Attribute := [.valued ['b'] '\x22' ['c'], .bare ['d']]
    (∀ n ≥ 3, ∃ node, HtmlNode.ofTag n (tagText ['a'] as ['>']) = .ok node ∧
      node.attributes.entries = [(['b'], ['c']), (['d'], ['c'])]) ∧
    ¬ ∃ N, ∀ n ≥ N, ∃ node, HtmlNode.ofTag n (tagText ['a'] as ['>']) = .ok node ∧
      node.attributes.entries.Perm (written as) := by
  intro as
  have has : ∀ a ∈ as, a.Ok := by
    rw [List.forall_mem_cons, List.forall_mem_singleton]
    exact ⟨⟨by decide, by decide, by decide⟩, by decide, by decide⟩
  have htag : ∀ n ≥ 3, ∃ node, HtmlNode.ofTag n (tagText ['a'] as ['>']) = .ok node ∧
      node.attributes.entries = [(['b'], ['c']), (['d'], ['c'])] := fun n hn =>
    ⟨_, ofTag_tagText (List.forall_mem_singleton.mpr (by decide)) has (.inl rfl) (by decide) hn, rfl⟩
  refine ⟨htag, ?_⟩
  rintro ⟨N, h⟩
  obtain ⟨node, hnode, hentries⟩ := htag (max N 3) (Nat.le_max_right _ _)
  obtain ⟨node', hnode', hperm⟩ := h (max N 3) (Nat.le_max_left _ _)
  rw [hnode] at hnode'
  cases hnode'
  rw [hentries] at hperm
  exact absurd (hperm.subset (List.mem_cons_of_mem _ List.mem_cons_self)) (by decide)

end Primitives.Html
