import Mathlib.Data.List.Chain
import Primitives.Html.Progress
import Primitives.Html.Machine

/-!
# HTML — printed trees

A tree is printed as its tags and texts in the order of the document, and tokenized it is these again,
except that texts side by side come back as one, and that a begin tag is taken for a complete one
where its name merely begins like that of a void element. `rebuild_iff` says for which trees
`make_tree` builds the tree that was printed: there is no text next to a text, and no tag or text
stands behind a begin tag that is misread, other than end tags. The other overload, which looks for a
node whose name begins with `<html`, finds none.
-/

set_option autoImplicit false

namespace Primitives.Html

open Lib

/-! ## Trees -/

structure IsText (s : Str) : Prop where
  noTag : '<' ∉ s
  notBlank : s.all isSpace = false

structure IsName (name : Str) : Prop where
  ne_nil : name ≠ []
  lower : ∀ c ∈ name, c.isLower = true

/-- A tree of elements and texts. The names of void elements are those that the code knows. -/
inductive Tree where
  | text (s : Str) (h : IsText s)
  | void (name : Str) (h : name ∈ voidNames)
  | element (name : Str) (h : IsName name) (hvoid : name ∉ voidNames) (children : List Tree)

def tag (name : Str) : Str := '<' :: (name ++ ['>'])

def endTag (name : Str) : Str := '<' :: '/' :: (name ++ ['>'])

mutual

def Tree.print : Tree → Str
  | .text s _ => s
  | .void name _ => tag name
  | .element name _ _ children => tag name ++ (printAll children ++ endTag name)

def printAll : List Tree → Str
  | [] => []
  | t :: ts => t.print ++ printAll ts

end

mutual

/-- The tree that `make_tree` is to build. -/
def Tree.node : Tree → HtmlNode
  | .text s _ => .ofText s
  | .void name _ => .mk name .empty []
  | .element name _ _ children => .mk name .empty (nodes children)

def nodes : List Tree → List HtmlNode
  | [] => []
  | t :: ts => t.node :: nodes ts

end

/-- What a document is made of. -/
inductive Event where
  | text (s : Str)
  | void (name : Str)
  | openTag (name : Str)
  | closeTag (name : Str)
deriving DecidableEq, Repr

mutual

/-- The tags and texts of a tree in the order of the document. -/
def Tree.events : Tree → List Event
  | .text s _ => [.text s]
  | .void name _ => [.void name]
  | .element name _ _ children => .openTag name :: (eventsAll children ++ [.closeTag name])

def eventsAll : List Tree → List Event
  | [] => []
  | t :: ts => t.events ++ eventsAll ts

end

namespace Event

def isText : Event → Bool
  | text _ => true
  | _ => false

def isCloseTag : Event → Bool
  | closeTag _ => true
  | _ => false

def print : Event → Str
  | text s => s
  | void name | openTag name => tag name
  | closeTag name => endTag name

def Ok : Event → Prop
  | text s => IsText s
  | void name => name ∈ voidNames
  | openTag name | closeTag name => IsName name

/-- The token that it should be. -/
def trueToken : Event → Token
  | text s => ⟨.text, s⟩
  | void name => ⟨.completeTag, tag name⟩
  | openTag name => ⟨.beginTag, tag name⟩
  | closeTag name => ⟨.endTag, endTag name⟩

/-- The token that it is. -/
def token : Event → Token
  | openTag name => ⟨if isVoidElement (tag name) then .completeTag else .beginTag, tag name⟩
  | e => e.trueToken

end Event

/-- What is printed. -/
def printEvents (es : List Event) : Str := es.flatMap Event.print

theorem printEvents_append (es es' : List Event) :
    printEvents (es ++ es') = printEvents es ++ printEvents es' := List.flatMap_append

mutual

theorem Tree.print_eq : ∀ t : Tree, t.print = printEvents t.events
  | .text s _ => (List.append_nil s).symm
  | .void name _ => (List.append_nil (tag name)).symm
  | .element name _ _ children => by
    rw [Tree.print, printAll_eq children, Tree.events]
    simp [printEvents, Event.print]

theorem printAll_eq : ∀ ts : List Tree, printAll ts = printEvents (eventsAll ts)
  | [] => rfl
  | t :: ts => by
    rw [printAll, t.print_eq, printAll_eq ts, eventsAll, printEvents_append]

end

theorem isName_of_mem_voidNames {name : Str} (h : name ∈ voidNames) : IsName name := by
  have hall : voidNames.all (fun name => name ≠ [] && name.all Char.isLower) = true := by decide
  have := List.all_eq_true.mp hall name h
  rw [Bool.and_eq_true, List.all_eq_true] at this
  exact ⟨of_decide_eq_true this.1, this.2⟩

mutual

theorem Tree.ok_events : ∀ t : Tree, ∀ e ∈ t.events, e.Ok
  | .text s h, e, he => by
    rw [List.mem_singleton.mp he]
    exact h
  | .void name h, e, he => by
    rw [List.mem_singleton.mp he]
    exact h
  | .element name h _ children, e, he => by
    rw [Tree.events, List.mem_cons, List.mem_append, List.mem_singleton] at he
    rcases he with rfl | he | rfl
    · exact h
    · exact ok_eventsAll children e he
    · exact h

theorem ok_eventsAll : ∀ ts : List Tree, ∀ e ∈ eventsAll ts, e.Ok
  | [], e, he => (List.not_mem_nil he).elim
  | t :: ts, e, he => by
    rw [eventsAll, List.mem_append] at he
    rcases he with he | he
    · exact t.ok_events e he
    · exact ok_eventsAll ts e he

end

/-! ## Iterations of the tokenizer -/

variable {d : Str} {p : Nat}

theorem find_append_cons {c : Char} {s rest : Str} (h : c ∉ s) :
    find [c] (s ++ c :: rest) = some s.length := by
  induction s with
  | nil => exact find_eq_zero ⟨rest, rfl⟩
  | cons x s ih =>
    rw [List.mem_cons, not_or] at h
    have hno : ¬ [c] <+: x :: (s ++ c :: rest) := by
      intro hpre
      exact h.1 (List.cons_prefix_cons.mp hpre).1
    rw [List.cons_append, find, if_neg hno, ih h.2]
    rfl

/-- A text is read up to the next `<`. -/
theorem step_text (hd : d.length < 2 ^ 64) {acc rest : Str} (hp : p ≤ d.length)
    (hdrop : d.drop p = acc ++ '<' :: rest) (hacc : acc ≠ []) (hno : '<' ∉ acc) :
    step d p = .ok (.goOn ⟨.text, acc⟩ (p + acc.length)) := by
  have hfind : find ['<'] (d.drop p) = some acc.length := by
    rw [hdrop]
    exact find_append_cons hno
  obtain ⟨hb, -, hnpos⟩ := findFrom_lt hd (by simp) hfind
  have hlen := List.length_pos_of_ne_nil hacc
  rw [step]
  simp only [hb]
  rw [if_neg hnpos, if_pos (by omega), substr_of_le hp, Nat.add_sub_cancel_left, hdrop, List.take_left]
  rfl

/-- The last text is read up to the end. -/
theorem step_end (hd : d.length < 2 ^ 64) {acc : Str} (hp : p ≤ d.length) (hdrop : d.drop p = acc)
    (hno : '<' ∉ acc) : step d p = .ok (.leave ⟨.text, acc⟩) := by
  have hcount : sizeT ((d.length : Int) - p) = d.length - p := sizeT_sub hp hd
  rw [step]
  simp only [findFrom_of_none (find_singleton_none_iff.mpr (hdrop ▸ hno)), substr_of_le hp, hcount]
  rw [List.take_of_length_le (by rw [List.length_drop]), hdrop]
  rfl

/-- A tag is read up to its `>`. -/
theorem step_tag (hd : d.length < 2 ^ 64) {body rest : Str} {type : TokenType} (hp : p ≤ d.length)
    (hdrop : d.drop p = '<' :: (body ++ '>' :: rest)) (hno : '>' ∉ body)
    (hbody : ∀ s, body ≠ '!' :: s) (htype : tagType ('<' :: (body ++ ['>'])) = .ok type) :
    step d p = .ok (.goOn ⟨type, '<' :: (body ++ ['>'])⟩ (p + (body.length + 2))) := by
  have hzero : find ['<'] (d.drop p) = some 0 := find_eq_zero ⟨body ++ '>' :: rest, hdrop.symm⟩
  have hbang : ∀ pre : Str, ¬ '<' :: '!' :: pre <+: d.drop p := by
    intro pre hpre
    rw [hdrop, List.cons_prefix_cons] at hpre
    cases body with
    | nil => exact absurd (List.cons_prefix_cons.mp hpre.2).1 (by decide)
    | cons c body =>
      have hc := (List.cons_prefix_cons.mp hpre.2).1
      exact hbody body (by rw [← hc])
  have hclose : find ['>'] (d.drop p) = some (body.length + 1) := by
    rw [hdrop]
    refine (find_append_cons (s := '<' :: body) ?_).trans (by simp)
    rw [List.mem_cons, not_or]
    exact ⟨by decide, hno⟩
  obtain ⟨he, hle, -⟩ := findFrom_lt hd (by simp) hclose
  rw [List.length_singleton] at hle
  have hsize : sizeT ((p + (body.length + 1) : Nat) + 1) = p + (body.length + 2) :=
    (sizeT_of_nonneg (n := p + (body.length + 1) + 1) (by omega)).trans (by omega)
  have hcount : sizeT ((p + (body.length + 2) : Nat) - (p : Int)) = body.length + 2 :=
    sizeT_add_sub (by omega)
  have htake : (d.drop p).take (body.length + 2) = '<' :: (body ++ ['>']) := by
    have hsplit : d.drop p = '<' :: (body ++ ['>']) ++ rest := by
      rw [hdrop]
      simp
    rw [hsplit, List.take_left' (by simp)]
  have hcomment : ¬ commentBegin <+: d.drop p := hbang _
  have hcdata : ¬ cdataBegin <+: d.drop p := hbang _
  rw [step_of_find_zero hd hzero, if_neg hcomment, if_neg hcdata]
  simp only [he, hsize, substr_of_le hp, hcount, htake, bind, Except.bind, htype]
  rfl

/-! ## Tags -/

theorem IsName.not_mem {name : Str} (h : IsName name) {c : Char} (hc : c.isLower = false) :
    c ∉ name := by
  intro hmem
  rw [h.lower c hmem] at hc
  cases hc

theorem tagType_tag {name : Str} (h : IsName name) :
    tagType (tag name) = .ok (if isVoidElement (tag name) then .completeTag else .beginTag) := by
  have hopen : ¬ ['<', '/'] <+: tag name := by
    intro hpre
    obtain ⟨c, cs, rfl⟩ := List.exists_cons_of_ne_nil h.ne_nil
    have hc : '/' = c := (List.cons_prefix_cons.mp (List.cons_prefix_cons.mp hpre).2).1
    exact h.not_mem (c := '/') (by decide) (hc ▸ List.mem_cons_self)
  have hclose : ¬ ['/', '>'] <:+ tag name := by
    intro hsuf
    obtain ⟨cs, c, rfl⟩ := (List.eq_nil_or_concat' name).resolve_left h.ne_nil
    have hsplit : tag (cs ++ [c]) = '<' :: cs ++ [c, '>'] := by simp [tag]
    rw [hsplit] at hsuf
    have hends := List.suffix_of_suffix_length_le hsuf (List.suffix_append ('<' :: cs) [c, '>'])
      (le_refl 2)
    have hc : '/' = c := (List.cons.inj (hends.eq_of_length rfl)).1
    exact h.not_mem (c := '/') (by decide) (hc ▸ by simp)
  have hne : tag name ≠ [] := List.cons_ne_nil _ _
  rw [tagType, if_neg hopen, if_neg hclose, if_neg hne]

theorem tagType_endTag (name : Str) : tagType (endTag name) = .ok .endTag :=
  if_pos ⟨name ++ ['>'], rfl⟩

/-- A name that begins like that of a void element. -/
theorem isVoidElement_tag {name : Str} :
    isVoidElement (tag name) = true ↔ ∃ v ∈ voidNames, v <+: name := by
  rw [isVoidElement, List.any_eq_true]
  refine exists_congr fun v => and_congr_right fun hv => ?_
  rw [List.isPrefixOf_iff_prefix]
  show v <+: name ++ ['>'] ↔ v <+: name
  constructor
  · intro hpre
    rcases List.prefix_concat_iff.mp hpre with rfl | hpre
    · have hname := isName_of_mem_voidNames hv
      exact absurd (by simp) (hname.not_mem (c := '>') (by decide))
    · exact hpre
  · intro hpre
    exact hpre.trans (List.prefix_append name ['>'])

theorem isVoidElement_void {name : Str} (h : name ∈ voidNames) : isVoidElement (tag name) = true :=
  isVoidElement_tag.mpr ⟨name, h, List.prefix_refl name⟩

/-- A tag is one in the text, and its token. -/
theorem Event.exists_body {e : Event} (he : e.Ok) (htext : e.isText = false) :
    ∃ body, e.print = '<' :: (body ++ ['>']) ∧ '>' ∉ body ∧ (∀ s, body ≠ '!' :: s) ∧
      tagType e.print = .ok e.token.t ∧ e.token.d = e.print := by
  have hbang : ∀ {name : Str}, IsName name → ∀ s, name ≠ '!' :: s := by
    rintro name hname s rfl
    exact hname.not_mem (c := '!') (by decide) List.mem_cons_self
  cases e with
  | text s => cases htext
  | void name =>
    have hname := isName_of_mem_voidNames he
    refine ⟨name, rfl, hname.not_mem (by decide), hbang hname, ?_, rfl⟩
    rw [Event.print, tagType_tag hname, if_pos (isVoidElement_void he)]
    rfl
  | openTag name =>
    have hname : IsName name := he
    exact ⟨name, rfl, hname.not_mem (by decide), hbang hname, tagType_tag hname, rfl⟩
  | closeTag name =>
    have hname : IsName name := he
    refine ⟨'/' :: name, rfl, ?_, ?_, tagType_endTag name, rfl⟩
    · rw [List.mem_cons, not_or]
      exact ⟨by decide, hname.not_mem (by decide)⟩
    · intro s hs
      exact absurd (List.cons.inj hs).1 (by decide)

/-! ## The tokens of a printed tree -/

def flush (acc : Str) : List Token := if acc = [] then [] else [⟨.text, acc⟩]

/-- The tokens of a document behind a text `acc`: texts side by side are one. -/
def tokensOf (acc : Str) : List Event → List Token
  | [] => flush acc
  | e :: es =>
    if e.isText then tokensOf (acc ++ e.print) es else flush acc ++ e.token :: tokensOf [] es

theorem tokensFrom_goOn {n : Nat} {t : Token} {q : Nat} {ts : List Token}
    (h : step d p = .ok (.goOn t q)) (hts : tokensFrom d n q = .ok ts) :
    tokensFrom d (n + 1) p = .ok (t :: ts) := by
  rw [tokensFrom, h]
  show (do
    let ts ← tokensFrom d n q
    return t :: ts) = _
  rw [hts]
  rfl

/-- A tag, and the tokens behind it. -/
theorem tokensFrom_tag (hd : d.length < 2 ^ 64) {e : Event} (he : e.Ok) (htext : e.isText = false)
    {rest : Str} {n : Nat} {ts : List Token} (hp : p ≤ d.length) (hdrop : d.drop p = e.print ++ rest)
    (hts : tokensFrom d n (p + e.print.length) = .ok ts) :
    tokensFrom d (n + 1) p = .ok (e.token :: ts) := by
  obtain ⟨body, hprint, hbody, hbang, htype, htoken⟩ := Event.exists_body he htext
  rw [hprint] at hdrop hts htype htoken
  have hsplit : d.drop p = '<' :: (body ++ '>' :: rest) := by
    rw [hdrop]
    simp
  have hlen : ('<' :: (body ++ ['>'])).length = body.length + 2 := by simp
  have hstep := step_tag hd hp hsplit hbody hbang htype
  rw [← htoken, ← hlen] at hstep
  exact tokensFrom_goOn hstep hts

/-- The place behind a part of the document. -/
theorem drop_behind {a b : Str} (hp : p ≤ d.length) (h : d.drop p = a ++ b) :
    d.drop (p + a.length) = b ∧ p + a.length ≤ d.length := by
  constructor
  · rw [← List.drop_drop, h, List.drop_left]
  · have hlen := congrArg List.length h
    rw [List.length_drop, List.length_append] at hlen
    omega

/-- **A printed document is tokenized.** An empty text is found at its end. -/
theorem tokensFrom_print (hd : d.length < 2 ^ 64) {es : List Event} {acc : Str} {n : Nat}
    (hok : ∀ e ∈ es, e.Ok) (hno : '<' ∉ acc) (hnil : es = [] → acc = [])
    (hlast : ∀ e ∈ es.getLast?, e.isText = false) (hp : p ≤ d.length)
    (hdrop : d.drop p = acc ++ printEvents es) (hn : 2 * es.length < n) :
    tokensFrom d n p = .ok (tokensOf acc es ++ [⟨.text, []⟩]) := by
  induction es generalizing acc p n with
  | nil =>
    obtain rfl := hnil rfl
    obtain ⟨n, rfl⟩ := Nat.exists_eq_succ_of_ne_zero (Nat.ne_of_gt hn)
    rw [tokensFrom, step_end hd hp hdrop List.not_mem_nil]
    rfl
  | cons e es ih =>
    have hok' : ∀ e ∈ es, e.Ok := fun e' he' => hok e' (List.mem_cons_of_mem e he')
    have hlast' : ∀ e ∈ es.getLast?, e.isText = false := by
      cases es with
      | nil => exact fun e' he' => by cases he'
      | cons e' es =>
        rw [List.getLast?_cons_cons] at hlast
        exact hlast
    rw [List.length_cons] at hn
    rw [printEvents, List.flatMap_cons, ← printEvents] at hdrop
    rw [tokensOf]
    cases htext : e.isText with
    | true =>
      obtain ⟨s, rfl⟩ : ∃ s, e = .text s := by
        cases e with
        | text s => exact ⟨s, rfl⟩
        | void name => cases htext
        | openTag name => cases htext
        | closeTag name => cases htext
      have hs : IsText s := hok (.text s) List.mem_cons_self
      rw [if_pos rfl]
      refine ih hok' ?_ ?_ hlast' hp ?_ (by omega)
      · rw [List.mem_append, not_or]
        exact ⟨hno, hs.noTag⟩
      · -- The last token of the document is a tag.
        rintro rfl
        have := hlast (.text s) rfl
        cases this
      · rw [hdrop, List.append_assoc]
    | false =>
      have he : e.Ok := hok e List.mem_cons_self
      obtain ⟨hafter, hle⟩ := drop_behind hp hdrop
      obtain ⟨hrest, hle'⟩ := drop_behind hle hafter
      have htag (m : Nat) (hm : 2 * es.length < m) : tokensFrom d (m + 1) (p + acc.length) =
          .ok (e.token :: tokensOf [] es ++ [⟨.text, []⟩]) :=
        tokensFrom_tag hd he htext hle hafter
          (ih hok' List.not_mem_nil (fun _ => rfl) hlast' hle' hrest hm)
      rw [if_neg Bool.false_ne_true]
      obtain ⟨n, rfl⟩ := Nat.exists_eq_succ_of_ne_zero (show n ≠ 0 by omega)
      by_cases hacc : acc = []
      · subst hacc
        exact htag n (by omega)
      · obtain ⟨n, rfl⟩ := Nat.exists_eq_succ_of_ne_zero (show n ≠ 0 by omega)
        obtain ⟨body, hprint, -⟩ := Event.exists_body he htext
        have hsplit : d.drop p = acc ++ '<' :: (body ++ ['>'] ++ printEvents es) := by
          rw [hdrop, hprint]
          rfl
        rw [flush, if_neg hacc]
        exact tokensFrom_goOn (step_text hd hp hsplit hacc hno) (htag n (by omega))

/-! ## Nodes of the document -/

theorem label_tag (type : TokenType) (h : type = .beginTag ∨ type = .completeTag) (name : Str) :
    (Token.mk type (tag name)).label = name := by
  have hname : (tag name).tail.dropLast = name := List.dropLast_concat
  rcases h with rfl | rfl
  · exact hname
  · exact hname

mutual

/-- **The machine lists a tree**, if its tags are what they should be. -/
theorem Tree.levels_events : ∀ (t : Tree) (k : Nat) (us : List Token),
    levels (k + 1) (t.events.map Event.trueToken ++ us) = t.node.depths k ++ levels (k + 1) us
  | .text s _, k, us => rfl
  | .void name _, k, us => by
    show Token.entry ⟨.completeTag, tag name⟩ k :: levels (k + 1) us = _
    rw [Token.entry, label_tag _ (.inr rfl)]
    rfl
  | .element name _ _ children, k, us => by
    rw [Tree.events, List.map_cons, List.map_append, List.cons_append, List.append_assoc]
    show Token.entry ⟨.beginTag, tag name⟩ k :: levels (k + 2) _ = _
    rw [Token.entry, label_tag _ (.inl rfl), levels_eventsAll children (k + 1), Tree.node,
      HtmlNode.depths]
    rfl

theorem levels_eventsAll : ∀ (ts : List Tree) (k : Nat) (us : List Token),
    levels (k + 1) ((eventsAll ts).map Event.trueToken ++ us) =
      depths k (nodes ts) ++ levels (k + 1) us
  | [], k, us => rfl
  | t :: ts, k, us => by
    rw [eventsAll, List.map_append, List.append_assoc, t.levels_events, levels_eventsAll ts k us,
      nodes, depths, List.append_assoc]

end

mutual

theorem Tree.heightAfter_events : ∀ (t : Tree) (k : Nat) (us : List Token),
    heightAfter (k + 1) (t.events.map Event.trueToken ++ us) = heightAfter (k + 1) us
  | .text s _, k, us => rfl
  | .void name _, k, us => rfl
  | .element name _ _ children, k, us => by
    rw [Tree.events, List.map_cons, List.map_append, List.cons_append, List.append_assoc]
    exact heightAfter_eventsAll children (k + 1) (⟨.endTag, endTag name⟩ :: us)

theorem heightAfter_eventsAll : ∀ (ts : List Tree) (k : Nat) (us : List Token),
    heightAfter (k + 1) ((eventsAll ts).map Event.trueToken ++ us) = heightAfter (k + 1) us
  | [], k, us => rfl
  | t :: ts, k, us => by
    rw [eventsAll, List.map_append, List.append_assoc, t.heightAfter_events,
      heightAfter_eventsAll ts k us]

end

theorem nodeCount_append (ts us : List Token) :
    nodeCount (ts ++ us) = nodeCount ts + nodeCount us := List.countP_append

mutual

theorem Tree.nodeCount_events : ∀ (t : Tree) (k : Nat),
    nodeCount (t.events.map Event.trueToken) = (t.node.depths k).length
  | .text s _, k => rfl
  | .void name _, k => rfl
  | .element name _ _ children, k => by
    have hclose : nodeCount [⟨.endTag, endTag name⟩] = 0 := rfl
    rw [Tree.events, List.map_cons, List.map_append, nodeCount_cons, nodeCount_append,
      nodeCount_eventsAll children (k + 1), Tree.node, HtmlNode.depths, List.length_cons]
    show _ + nodeCount [⟨.endTag, endTag name⟩] + _ = _
    rw [hclose]
    rfl

theorem nodeCount_eventsAll : ∀ (ts : List Tree) (k : Nat),
    nodeCount ((eventsAll ts).map Event.trueToken) = (depths k (nodes ts)).length
  | [], k => rfl
  | t :: ts, k => by
    rw [eventsAll, List.map_append, nodeCount_append, t.nodeCount_events k,
      nodeCount_eventsAll ts k, nodes, depths, List.length_append]

end

/-! ## Texts side by side -/

/-- No text stands next to a text. -/
def Apart (es : List Event) : Prop := es.IsChain fun e e' => ¬ (e.isText = true ∧ e'.isText = true)

theorem length_flush_le (acc : Str) : (flush acc).length ≤ 1 := by
  rw [flush]
  split
  · exact Nat.zero_le 1
  · exact le_refl 1

theorem nodeCount_flush (acc : Str) : nodeCount (flush acc) = (flush acc).length := by
  rw [flush]
  split
  · rfl
  · rfl

theorem flush_of_ne_nil {acc : Str} (h : acc ≠ []) : flush acc = [⟨.text, acc⟩] := if_neg h

theorem IsText.ne_nil {s : Str} (h : IsText s) : s ≠ [] := by
  rintro rfl
  have := h.notBlank
  cases this

theorem Event.exists_text {e : Event} (h : e.isText = true) : ∃ s, e = .text s := by
  cases e with
  | text s => exact ⟨s, rfl⟩
  | void name => cases h
  | openTag name => cases h
  | closeTag name => cases h

/-- Texts that are apart are the tokens that they should be. -/
theorem tokensOf_of_apart {es : List Event} {acc : Str} (hok : ∀ e ∈ es, e.Ok) (h : Apart es)
    (hacc : acc ≠ [] → ∀ e ∈ es.head?, e.isText = false) :
    tokensOf acc es = flush acc ++ es.map Event.token := by
  induction es generalizing acc with
  | nil => exact (List.append_nil _).symm
  | cons e es ih =>
    have hok' : ∀ e ∈ es, e.Ok := fun e' he' => hok e' (List.mem_cons_of_mem e he')
    have hrest : Apart es := h.tail
    rw [tokensOf]
    split
    · rename_i htext
      obtain ⟨s, rfl⟩ := Event.exists_text htext
      have hs : IsText s := hok (.text s) List.mem_cons_self
      obtain rfl : acc = [] := by
        by_contra hne
        have := hacc hne (.text s) rfl
        cases this
      have hnext : s ≠ [] → ∀ e ∈ es.head?, e.isText = false := by
        intro _ e' he'
        cases es with
        | nil => cases he'
        | cons e₂ es =>
          obtain rfl := Option.some.inj he'
          exact Bool.eq_false_iff.mpr fun htext' => (List.isChain_cons_cons.mp h).1 ⟨rfl, htext'⟩
      rw [List.nil_append]
      show tokensOf s es = _
      rw [ih hok' hrest hnext, flush_of_ne_nil hs.ne_nil]
      rfl
    · rw [ih hok' hrest fun h => absurd rfl h]
      rfl

theorem nodeCount_tokensOf_le (es : List Event) (acc : Str) :
    nodeCount (tokensOf acc es) ≤ (flush acc).length + nodeCount (es.map Event.token) := by
  induction es generalizing acc with
  | nil => exact (nodeCount_flush acc).le
  | cons e es ih =>
    rw [tokensOf, List.map_cons, nodeCount_cons]
    split
    · rename_i htext
      obtain ⟨s, rfl⟩ := Event.exists_text htext
      have := ih (acc ++ (Event.text s).print)
      have := length_flush_le (acc ++ (Event.text s).print)
      have hnode : (Event.text s).token.t ≠ .endTag := TokenType.noConfusion
      rw [if_neg hnode]
      omega
    · have := ih []
      rw [nodeCount_append, nodeCount_flush, nodeCount_cons]
      have hflush : (flush []).length = 0 := rfl
      omega

/-- Texts side by side are one node. -/
theorem nodeCount_tokensOf_lt {es : List Event} (acc : Str) (h : ¬ Apart es) :
    nodeCount (tokensOf acc es) < (flush acc).length + nodeCount (es.map Event.token) := by
  induction es generalizing acc with
  | nil => exact absurd List.isChain_nil h
  | cons e es ih =>
    rw [tokensOf, List.map_cons, nodeCount_cons]
    split
    · rename_i htext
      obtain ⟨s, rfl⟩ := Event.exists_text htext
      have hnode : (Event.text s).token.t ≠ .endTag := TokenType.noConfusion
      rw [if_neg hnode]
      have hone := length_flush_le (acc ++ (Event.text s).print)
      by_cases hrest : Apart es
      · -- The next event is a text too.
        cases es with
        | nil => exact absurd (List.isChain_singleton _) h
        | cons e' es =>
          have htext' : e'.isText = true := by
            by_contra hno
            exact h (List.isChain_cons_cons.mpr ⟨fun hboth => hno hboth.2, hrest⟩)
          obtain ⟨s', rfl⟩ := Event.exists_text htext'
          have hnode' : (Event.text s').token.t ≠ .endTag := TokenType.noConfusion
          rw [tokensOf, if_pos htext', List.map_cons, nodeCount_cons, if_neg hnode']
          have hle := nodeCount_tokensOf_le es (acc ++ (Event.text s).print ++ (Event.text s').print)
          have := length_flush_le (acc ++ (Event.text s).print ++ (Event.text s').print)
          omega
      · have := ih (acc ++ (Event.text s).print) hrest
        omega
    · rename_i htext
      have hrest : ¬ Apart es := by
        intro hrest
        cases es with
        | nil => exact h (List.isChain_singleton _)
        | cons e' es => exact h (List.isChain_cons_cons.mpr ⟨fun hboth => htext hboth.1, hrest⟩)
      have := ih [] hrest
      have hflush : (flush []).length = 0 := rfl
      rw [nodeCount_append, nodeCount_flush, nodeCount_cons]
      omega

theorem heightAfter_text (k : Nat) (s : Str) (ts : List Token) :
    heightAfter k (⟨.text, s⟩ :: ts) = heightAfter k ts := by
  cases k with
  | zero => rw [heightAfter_zero, heightAfter_zero]
  | succ k => rfl

theorem heightAfter_flush (k : Nat) (acc : Str) (ts : List Token) :
    heightAfter k (flush acc ++ ts) = heightAfter k ts := by
  rw [flush]
  split
  · rfl
  · exact heightAfter_text k acc ts

theorem heightAfter_tokensOf (es : List Event) (acc : Str) (k : Nat) :
    heightAfter k (tokensOf acc es) = heightAfter k (es.map Event.token) := by
  induction es generalizing acc k with
  | nil =>
    rw [tokensOf, ← List.append_nil (flush acc), heightAfter_flush]
    rfl
  | cons e es ih =>
    rw [tokensOf]
    split
    · rename_i htext
      obtain ⟨s, rfl⟩ := Event.exists_text htext
      rw [ih]
      exact (heightAfter_text k s _).symm
    · rw [heightAfter_flush, List.map_cons]
      cases k with
      | zero => rw [heightAfter_zero, heightAfter_zero]
      | succ k =>
        rw [heightAfter, heightAfter, ih, ih, ih]

/-! ## What the tree builder needs of the tokens -/

/-- A token that is not passed over, of which a node without attributes is made, with no `<` in its
name or text. -/
structure Token.Good (t : Token) : Prop where
  solid : t.Solid
  plain : t.Plain
  label : t.t ≠ .endTag → '<' ∉ t.label

theorem findIdx?_append_of_all {q : Char → Bool} {s rest : Str} {c : Char}
    (hs : ∀ x ∈ s, q x = false) (hc : q c = true) :
    (s ++ c :: rest).findIdx? q = some s.length := by
  induction s with
  | nil =>
    rw [List.nil_append, List.findIdx?_cons, hc]
    rfl
  | cons x s ih =>
    rw [List.cons_append, List.findIdx?_cons, hs x List.mem_cons_self,
      ih fun y hy => hs y (List.mem_cons_of_mem x hy)]
    rfl

/-- A tag without attributes. -/
theorem ofTag_tag {name : Str} (h : IsName name) (hlen : name.length < 2 ^ 64) {n : Nat}
    (hn : 0 < n) : HtmlNode.ofTag n (tag name) = .ok (.mk name .empty []) := by
  obtain ⟨n, rfl⟩ := Nat.exists_eq_succ_of_ne_zero (Nat.ne_of_gt hn)
  have hend : ∀ x ∈ '<' :: name, HtmlNode.tagEnd.contains x = false := by
    intro x hx
    rcases List.mem_cons.mp hx with rfl | hx
    · decide
    · refine Bool.eq_false_iff.mpr fun hmem => ?_
      rw [List.contains_iff_mem, HtmlNode.tagEnd, List.mem_cons, List.mem_cons,
        List.mem_singleton] at hmem
      rcases hmem with rfl | rfl | rfl
      · exact h.not_mem (c := ' ') (by decide) hx
      · exact h.not_mem (c := '/') (by decide) hx
      · exact h.not_mem (c := '>') (by decide) hx
  have hclose : HtmlNode.tagEnd.contains '>' = true := by decide
  have hfirst : firstFrom (HtmlNode.tagEnd.contains ·) (tag name) 0 = name.length + 1 := by
    have hfind : (tag name).findIdx? (HtmlNode.tagEnd.contains ·) = some (name.length + 1) :=
      findIdx?_append_of_all (s := '<' :: name) hend hclose
    rw [firstFrom, List.drop_zero, hfind]
    exact Nat.zero_add _
  have hlast : firstFrom (!HtmlNode.tagEnd.contains ·) (tag name) (name.length + 1) = npos := by
    have hdrop : (tag name).drop (name.length + 1) = ['>'] := by
      show (('<' :: name) ++ ['>']).drop ('<' :: name).length = ['>']
      exact List.drop_left
    rw [firstFrom, hdrop]
    rfl
  have hcount : sizeT (((name.length + 1 : Nat) : Int) - 1) = name.length := by
    unfold sizeT
    omega
  have hsubstr : substr (tag name) 1 name.length = .ok name := by
    rw [substr_of_le (by simp [tag])]
    exact congrArg Except.ok List.take_left
  rw [HtmlNode.ofTag]
  simp only [hfirst, hcount, hsubstr, bind, Except.bind]
  rw [HtmlNode.attributesFrom]
  simp only [hlast, if_pos]
  rfl

theorem notBlank_of_mem {s : Str} {c : Char} (hc : c ∈ s) (h : isSpace c = false) :
    s.all isSpace = false := by
  rw [List.all_eq_false]
  exact ⟨c, hc, by rw [h]; exact Bool.false_ne_true⟩

theorem Event.good_token {e : Event} (he : e.Ok) (htext : e.isText = false)
    (hlen : e.print.length < 2 ^ 64) : e.token.Good := by
  obtain ⟨body, hprint, -, hbang, -, htoken⟩ := Event.exists_body he htext
  have hsolid : e.token.t ≠ .comment → e.token.Solid := by
    intro hcomment
    refine ⟨?_, hcomment, notBlank_of_mem (c := '<') ?_ (by decide)⟩
    · rw [htoken, hprint]
      intro hpre
      have htail := (List.cons_prefix_cons.mp hpre).2
      cases body with
      | nil => exact absurd (List.cons_prefix_cons.mp htail).1 (by decide)
      | cons c body =>
        exact hbang body (congrArg (· :: body) (List.cons_prefix_cons.mp htail).1.symm)
    · rw [htoken, hprint]
      exact List.mem_cons_self
  have htag : ∀ name type, IsName name → e.token = ⟨type, tag name⟩ →
      type = .beginTag ∨ type = .completeTag → e.token.Good := by
    intro name type hname heq htype
    refine ⟨hsolid ?_, fun _ n hn => ?_, fun _ => ?_⟩
    · rw [heq]
      rcases htype with rfl | rfl
      · exact TokenType.noConfusion
      · exact TokenType.noConfusion
    · have hname' : name.length < 2 ^ 64 := by
        rw [← htoken, heq] at hlen
        simp only [tag, List.length_cons, List.length_append, List.length_nil] at hlen
        omega
      rw [heq, label_tag _ htype]
      exact ofTag_tag hname hname' hn
    · rw [heq, label_tag _ htype]
      exact hname.not_mem (by decide)
  cases e with
  | text s => cases htext
  | void name => exact htag name _ (isName_of_mem_voidNames he) rfl (.inr rfl)
  | openTag name =>
    refine htag name _ he rfl ?_
    split
    · exact .inr rfl
    · exact .inl rfl
  | closeTag name =>
    refine ⟨hsolid TokenType.noConfusion, ?_, fun h => absurd rfl h⟩
    rintro (h | h)
    · cases h
    · cases h

theorem good_text {s : Str} (h : IsText s) : (Token.mk .text s).Good := by
  refine ⟨⟨?_, TokenType.noConfusion, h.notBlank⟩, ?_, fun _ => h.noTag⟩
  · intro hpre
    exact h.noTag (hpre.subset List.mem_cons_self)
  · rintro (h | h)
    · cases h
    · cases h

theorem IsText.append {s t : Str} (hs : IsText s) (ht : IsText t) : IsText (s ++ t) where
  noTag := by
    rw [List.mem_append, not_or]
    exact ⟨hs.noTag, ht.noTag⟩
  notBlank := by rw [List.all_append, hs.notBlank, Bool.false_and]

theorem good_flush {acc : Str} (hacc : acc ≠ [] → IsText acc) : ∀ t ∈ flush acc, t.Good := by
  intro t ht
  by_cases h : acc = []
  · rw [flush, if_pos h] at ht
    cases ht
  · rw [flush, if_neg h, List.mem_singleton] at ht
    rw [ht]
    exact good_text (hacc h)

theorem good_tokensOf {es : List Event} {acc : Str} (hok : ∀ e ∈ es, e.Ok)
    (hlen : ∀ e ∈ es, e.print.length < 2 ^ 64) (hacc : acc ≠ [] → IsText acc) :
    ∀ t ∈ tokensOf acc es, t.Good := by
  induction es generalizing acc with
  | nil => exact good_flush hacc
  | cons e es ih =>
    have hok' : ∀ e ∈ es, e.Ok := fun e' he' => hok e' (List.mem_cons_of_mem e he')
    have hlen' : ∀ e ∈ es, e.print.length < 2 ^ 64 :=
      fun e' he' => hlen e' (List.mem_cons_of_mem e he')
    rw [tokensOf]
    split
    · rename_i htext
      obtain ⟨s, rfl⟩ := Event.exists_text htext
      have hs : IsText s := hok (.text s) List.mem_cons_self
      refine ih hok' hlen' fun _ => ?_
      by_cases h : acc = []
      · rw [h]
        exact hs
      · exact (hacc h).append hs
    · rename_i htext
      intro t ht
      rcases List.mem_append.mp ht with ht | ht
      · exact good_flush hacc t ht
      · rcases List.mem_cons.mp ht with rfl | ht
        · exact Event.good_token (hok e List.mem_cons_self) (Bool.eq_false_iff.mpr htext)
            (hlen e List.mem_cons_self)
        · exact ih hok' hlen' (fun h => absurd rfl h) t ht

/-! ## Begin tags that are misread -/

theorem forall₂_read {es : List Event} :
    List.Forall₂ Read (es.map Event.trueToken) (es.map Event.token) := by
  induction es with
  | nil => exact .nil
  | cons e es ih =>
    refine .cons ?_ ih
    cases e with
    | text s => exact .inl rfl
    | void name => exact .inl rfl
    | openTag name =>
      by_cases hvoid : isVoidElement (tag name) = true
      · exact .inr ⟨rfl, if_pos hvoid, rfl⟩
      · refine .inl ?_
        rw [Event.token, if_neg hvoid]
        rfl
    | closeTag name => exact .inl rfl

theorem nodeCount_eq_zero_iff {es : List Event} :
    nodeCount (es.map Event.trueToken) = 0 ↔ ∀ e ∈ es, e.isCloseTag = true := by
  rw [nodeCount, List.countP_eq_zero, List.forall_mem_map]
  refine forall₂_congr fun e _ => ?_
  cases e with
  | text s => exact iff_of_false (fun h => h rfl) Bool.false_ne_true
  | void name => exact iff_of_false (fun h => h rfl) Bool.false_ne_true
  | openTag name => exact iff_of_false (fun h => h rfl) Bool.false_ne_true
  | closeTag name => exact iff_of_true Bool.false_ne_true rfl

theorem misread_token_iff {e : Event} :
    Misread e.trueToken e.token ↔ ∃ name, e = .openTag name ∧ ∃ v ∈ voidNames, v <+: name := by
  constructor
  · rintro ⟨hbegin, hcomplete, -⟩
    cases e with
    | text s => cases hbegin
    | void name => cases hbegin
    | openTag name =>
      refine ⟨name, rfl, isVoidElement_tag.mp ?_⟩
      by_contra hno
      rw [Event.token, if_neg hno] at hcomplete
      cases hcomplete
    | closeTag name => cases hbegin
  · rintro ⟨name, rfl, hvoid⟩
    exact ⟨rfl, if_pos (isVoidElement_tag.mpr hvoid), rfl⟩

/-- No begin tag that is misread has a tag or a text behind it other than end tags. -/
def MisreadIsLast (es : List Event) : Prop :=
  ∀ pre name post, es = pre ++ .openTag name :: post → (∃ v ∈ voidNames, v <+: name) →
    ∀ e ∈ post, e.isCloseTag = true

theorem misreadIsLast_cons {e : Event} {es : List Event} :
    MisreadIsLast (e :: es) ↔
      ((∃ name, e = .openTag name ∧ ∃ v ∈ voidNames, v <+: name) →
        ∀ e ∈ es, e.isCloseTag = true) ∧ MisreadIsLast es := by
  constructor
  · intro h
    refine ⟨?_, fun pre name post hes => h (e :: pre) name post (by rw [hes]; rfl)⟩
    rintro ⟨name, rfl, hvoid⟩
    exact h [] name es rfl hvoid
  · rintro ⟨hhead, htail⟩ pre name post hes hvoid
    cases pre with
    | nil =>
      obtain ⟨rfl, rfl⟩ := List.cons.inj hes
      exact hhead ⟨name, rfl, hvoid⟩
    | cons e' pre =>
      obtain ⟨-, rfl⟩ := List.cons.inj hes
      exact htail pre name post rfl hvoid

theorem misreadLast_iff {es : List Event} :
    MisreadLast (es.map Event.trueToken) (es.map Event.token) ↔ MisreadIsLast es := by
  induction es with
  | nil =>
    refine iff_of_true trivial fun pre name post hes => ?_
    exact absurd hes.symm (List.append_ne_nil_of_right_ne_nil pre (List.cons_ne_nil _ _))
  | cons e es ih =>
    rw [misreadIsLast_cons, ← ih, ← misread_token_iff, ← nodeCount_eq_zero_iff]
    rfl

/-! ## Rebuilding -/

def Tree.isText : Tree → Bool
  | .text _ _ => true
  | _ => false

theorem Tree.events_getLast? {t : Tree} (ht : t.isText = false) :
    t.events ≠ [] ∧ ∀ e ∈ t.events.getLast?, e.isText = false := by
  cases t with
  | text s h => cases ht
  | void name h =>
    refine ⟨List.cons_ne_nil _ _, fun e he => ?_⟩
    cases he
    rfl
  | element name h hvoid children =>
    refine ⟨List.cons_ne_nil _ _, fun e he => ?_⟩
    rw [Tree.events, ← List.cons_append, List.getLast?_concat] at he
    cases he
    rfl

theorem length_print_le {e : Event} {es : List Event} (he : e ∈ es) :
    e.print.length ≤ (printEvents es).length := by
  obtain ⟨pre, post, rfl⟩ := List.append_of_mem he
  have hcons : printEvents (e :: post) = e.print ++ printEvents post := rfl
  rw [printEvents_append, hcons, List.length_append, List.length_append]
  omega

theorem Tree.good_tokens (t : Tree) (hlen : t.print.length < 2 ^ 64) :
    ∀ tok ∈ tokensOf [] t.events, tok.Good := by
  refine good_tokensOf t.ok_events (fun e he => ?_) fun h => absurd rfl h
  rw [t.print_eq] at hlen
  exact (length_print_le he).trans_lt hlen

/-- The nodes of a printed tree that come out of the machine. -/
theorem walk_print (t : Tree) (hlen : t.print.length < 2 ^ 64) :
    walk [false] (tokensOf [] t.events ++ [⟨.text, []⟩]) = levels 1 (tokensOf [] t.events) := by
  obtain ⟨ks, hwalk, hheight, hlast⟩ :=
    walk_solid [⟨.text, []⟩] (fun tok htok => (t.good_tokens hlen tok htok).solid) [false]
  rw [hwalk]
  have htrue : heightAfter 1 (t.events.map Event.trueToken) = 1 := by
    have := t.heightAfter_events 0 []
    rw [List.append_nil] at this
    exact this
  have hle : ks.length ≤ 1 := by
    rw [hheight]
    show heightAfter 1 _ ≤ 1
    rw [heightAfter_tokensOf]
    exact (heightAfter_le forall₂_read (le_refl 1)).trans htrue.le
  -- The empty text at the end is passed over, as no `pre` is open.
  have hks : ks = [] ∨ ks = [false] := by
    refine hlast.imp_right fun hlast => ?_
    match ks with
    | [] => cases hlast
    | [k] => exact congrArg (fun k => [k]) (Option.some.inj hlast)
    | _ :: _ :: _ =>
      simp only [List.length_cons] at hle
      omega
  have hempty : walk ks [⟨.text, []⟩] = [] := by
    rcases hks with rfl | rfl
    · rfl
    · rfl
  rw [hempty, List.append_nil]
  rfl

theorem nodeCount_eq_of_read {ts us : List Token} (h : List.Forall₂ Read ts us) :
    nodeCount us = nodeCount ts := by
  induction h with
  | nil => rfl
  | cons hread _ ih =>
    rw [nodeCount_cons, nodeCount_cons, ih]
    rcases hread with rfl | ⟨hbegin, hcomplete, -⟩
    · rfl
    · rw [hbegin, hcomplete]
      rfl

theorem levels_print_iff (t : Tree) :
    levels 1 (tokensOf [] t.events) = t.node.depths 0 ↔ Apart t.events ∧ MisreadIsLast t.events := by
  have htrue : levels 1 (t.events.map Event.trueToken) = t.node.depths 0 := by
    have := t.levels_events 0 []
    rw [List.append_nil] at this
    exact this.trans (List.append_nil _)
  have hfull : (levels 1 (t.events.map Event.trueToken)).length =
      nodeCount (t.events.map Event.trueToken) := by
    rw [htrue, t.nodeCount_events 0]
  by_cases hapart : Apart t.events
  · have htokens : tokensOf [] t.events = t.events.map Event.token :=
      tokensOf_of_apart t.ok_events hapart fun h => absurd rfl h
    rw [htokens, ← htrue, levels_eq_iff forall₂_read hfull, misreadLast_iff, and_iff_right hapart]
  · refine iff_of_false (fun h => ?_) fun h => hapart h.1
    have hlt := nodeCount_tokensOf_lt [] hapart
    have hle := length_levels_le 1 (tokensOf [] t.events)
    have hflush : (flush []).length = 0 := rfl
    rw [h, ← htrue, hfull] at hle
    rw [nodeCount_eq_of_read forall₂_read] at hlt
    omega

theorem exists_of_mem_levels {e : Entry} {k : Nat} {ts : List Token} (h : e ∈ levels k ts) :
    ∃ t ∈ ts, t.t ≠ .endTag ∧ e.2.1 = t.label := by
  induction ts generalizing k with
  | nil =>
    cases k with
    | zero => cases h
    | succ k => cases h
  | cons t ts ih =>
    have htail : ∀ k, e ∈ levels k ts → ∃ t' ∈ t :: ts, t'.t ≠ .endTag ∧ e.2.1 = t'.label := by
      intro k h
      obtain ⟨t', ht', hfound⟩ := ih h
      exact ⟨t', List.mem_cons_of_mem t ht', hfound⟩
    cases k with
    | zero => cases h
    | succ k =>
      by_cases hend : t.t = .endTag
      · rw [levels_endTag hend] at h
        exact htail k h
      · have hhead : e = t.entry k → ∃ t' ∈ t :: ts, t'.t ≠ .endTag ∧ e.2.1 = t'.label := by
          rintro rfl
          exact ⟨t, List.mem_cons_self, hend, rfl⟩
        rw [levels] at h
        split at h
        · exact absurd ‹_› hend
        · exact (List.mem_cons.mp h).elim hhead (htail _)
        · exact (List.mem_cons.mp h).elim hhead (htail _)

theorem mem_depths {k : Nat} {node : HtmlNode} {nodes : List HtmlNode} (h : node ∈ nodes) :
    (k, node.d, node.attributes) ∈ depths k nodes := by
  induction nodes with
  | nil => cases h
  | cons node' nodes ih =>
    rw [depths, List.mem_append]
    rcases List.mem_cons.mp h with rfl | h
    · obtain ⟨d, attributes, children⟩ := node
      exact .inl List.mem_cons_self
    · exact .inr (ih h)

theorem Tree.node_d_ne_nil {t : Tree} (ht : t.isText = false) : t.node.d ≠ [] := by
  cases t with
  | text s h => cases ht
  | void name h => exact (isName_of_mem_voidNames h).ne_nil
  | element name h hvoid children => exact h.ne_nil

/-- **Printed trees.** The recursive `make_tree` builds the tree that was printed if and only if no
two texts stand side by side and nothing but end tags stands behind a begin tag whose name begins like
a void one. The other overload never finds it. -/
theorem rebuild_iff (t : Tree) (ht : t.isText = false) (hlen : t.print.length < 2 ^ 64) :
    ∃ N, ∀ n ≥ N, ∃ ts tags rest, makeTokens n t.print = .ok ts ∧
      makeTree n false ts = .ok (tags, rest) ∧
      (tags = [t.node] ↔ Apart t.events ∧ MisreadIsLast t.events) ∧
      makeTreeOf n ts ≠ .ok t.node := by
  refine ⟨2 * t.events.length + (tokensOf [] t.events).length + 2, fun n hn => ?_⟩
  have hgood := t.good_tokens hlen
  have htokens : makeTokens n t.print = .ok (tokensOf [] t.events ++ [⟨.text, []⟩]) := by
    obtain ⟨hne, hlast⟩ := Tree.events_getLast? ht
    exact tokensFrom_print hlen t.ok_events List.not_mem_nil (fun h => absurd h hne) hlast
      (Nat.zero_le _) t.print_eq (by omega)
  have hplain : ∀ tok ∈ tokensOf [] t.events ++ [⟨.text, []⟩], tok.Plain := by
    intro tok htok
    rcases List.mem_append.mp htok with htok | htok
    · exact (hgood tok htok).plain
    · rw [List.mem_singleton.mp htok]
      rintro (h | h)
      · cases h
      · cases h
  obtain ⟨tags, rest, htree, -, hwalk⟩ := makeTree_walk (k := false) (n := n)
    (by rw [List.length_append, List.length_singleton]; omega) hplain
  have hdepths : depths 0 tags = levels 1 (tokensOf [] t.events) := by
    rw [← walk_print t hlen, hwalk [], walk_nil_left, List.append_nil]
    rfl
  refine ⟨_, tags, rest, htokens, htree, ?_, ?_⟩
  · have hsingle : depths 0 [t.node] = t.node.depths 0 := List.append_nil _
    rw [← levels_print_iff, ← hdepths, ← hsingle]
    exact ⟨fun h => by rw [h], fun h => depths_injective h⟩
  · have hnone : tags.find? (fun t => ['<', 'h', 't', 'm', 'l'].isPrefixOf t.d) = none := by
      rw [List.find?_eq_none]
      intro node hnode hpre
      have hmem := mem_depths (k := 0) hnode
      rw [hdepths] at hmem
      obtain ⟨tok, htok, hend, hlabel⟩ := exists_of_mem_levels hmem
      refine (hgood tok htok).label hend ?_
      rw [← hlabel]
      exact (List.isPrefixOf_iff_prefix.mp hpre).subset List.mem_cons_self
    rw [makeTreeOf, htree]
    simp only [bind, Except.bind, hnone]
    intro h
    exact Tree.node_d_ne_nil ht (congrArg HtmlNode.d (Except.ok.inj h)).symm

theorem isName_of_all {name : Str} (hne : name ≠ []) (h : name.all Char.isLower = true) :
    IsName name := ⟨hne, List.all_eq_true.mp h⟩

/-- `<p>a</p>` -/
def paragraph : Tree :=
  .element ['p'] (isName_of_all (by decide) (by decide)) (by decide)
    [.text ['a'] ⟨by decide, by decide⟩]

theorem rebuild_paragraph : ∃ N, ∀ n ≥ N, ∃ ts tags rest, makeTokens n paragraph.print = .ok ts ∧
    makeTree n false ts = .ok (tags, rest) ∧
    (tags = [paragraph.node] ↔ Apart paragraph.events ∧ MisreadIsLast paragraph.events) ∧
    makeTreeOf n ts ≠ .ok paragraph.node :=
  rebuild_iff paragraph rfl (by decide)

/-- `<table><colgroup><col></colgroup></table>` -/
def table : Tree :=
  .element ['t', 'a', 'b', 'l', 'e'] (isName_of_all (by decide) (by decide)) (by decide)
    [.element ['c', 'o', 'l', 'g', 'r', 'o', 'u', 'p'] (isName_of_all (by decide) (by decide))
      (by decide) [.void ['c', 'o', 'l'] (by decide)]]

/-- `<p>`, two texts and `</p>` -/
def texts : Tree :=
  .element ['p'] (isName_of_all (by decide) (by decide)) (by decide)
    [.text ['a'] ⟨by decide, by decide⟩, .text ['b'] ⟨by decide, by decide⟩]

/-- Two texts come back as one. A `colgroup` is taken for a `col`, and what is in it comes out behind
it. -/
theorem not_rebuild_texts :
    (∃ ts tags rest, makeTokens 20 texts.print = .ok ts ∧
      makeTree 20 false ts = .ok (tags, rest) ∧ tags ≠ [texts.node]) ∧
    ∃ ts tags rest, makeTokens 20 table.print = .ok ts ∧
      makeTree 20 false ts = .ok (tags, rest) ∧ tags ≠ [table.node] ∧
      makeTreeOf 20 ts = .ok .empty := by
  refine ⟨⟨_, _, _, rfl, rfl, ?_⟩, _, _, _, rfl, rfl, ?_, rfl⟩
  · intro h
    have hdepths := congrArg (fun nodes => (depths 0 nodes).map Prod.fst) h
    exact absurd hdepths (by decide)
  · intro h
    have hdepths := congrArg (fun nodes => (depths 0 nodes).map Prod.fst) h
    exact absurd hdepths (by decide)

end Primitives.Html
