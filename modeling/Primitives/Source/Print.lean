import Primitives.Lib.Lines
import Primitives.Source.Model

/-!
# Sources — what is printed identifies a source

A text without a newline in its fields is printed in lines, so the lines are known from what is printed.
The first is the type. In the others stand the fields that are not empty (`print1_eq`): the checks let
one field of a chain be set, so nothing is lost where the others are not tried.
-/

set_option autoImplicit false

namespace Primitives.Sources

open Lib

/-! ## Fields -/

/-- The fields that are set. -/
def nonEmpty (fields : List (Str × Str)) : List (Str × Str) := fields.filter (·.2 ≠ [])

theorem nonEmpty_cons_of_ne {x : Str × Str} (h : x.2 ≠ []) (xs : List (Str × Str)) :
    nonEmpty (x :: xs) = x :: nonEmpty xs :=
  List.filter_cons_of_pos (decide_eq_true h)

theorem nonEmpty_cons_of_eq {x : Str × Str} (h : x.2 = []) (xs : List (Str × Str)) :
    nonEmpty (x :: xs) = nonEmpty xs :=
  List.filter_cons_of_neg (by simp [h])

/-- **Fields under different names** are known from those that are set. -/
theorem eq_of_nonEmpty {xs : List (Str × Str)} : ∀ {ys : List (Str × Str)},
    (xs.map Prod.fst).Nodup → xs.map Prod.fst = ys.map Prod.fst → nonEmpty xs = nonEmpty ys →
      xs = ys := by
  induction xs with
  | nil =>
    intro ys _ hnames _
    exact (List.map_eq_nil_iff.mp hnames.symm).symm
  | cons x xs ih =>
    intro ys hnodup hnames h
    cases ys with
    | nil => cases hnames
    | cons y ys =>
      obtain ⟨hname, hrest⟩ := List.cons.inj hnames
      obtain ⟨hx, hnodup⟩ := List.nodup_cons.mp hnodup
      -- a field that is set on one side only would have its name once more on the other
      have hnot : ∀ {zs : List (Str × Str)} {z : Str × Str}, z ∈ nonEmpty zs →
          zs.map Prod.fst = xs.map Prod.fst → z.1 ≠ x.1 := by
        intro zs z hz hzs hzx
        exact hx (hzs ▸ hzx ▸ List.mem_map_of_mem (List.mem_of_mem_filter hz))
      by_cases hxv : x.2 = [] <;> by_cases hyv : y.2 = []
      · rw [nonEmpty_cons_of_eq hxv, nonEmpty_cons_of_eq hyv] at h
        rw [ih hnodup hrest h, Prod.ext hname (hxv.trans hyv.symm)]
      · rw [nonEmpty_cons_of_eq hxv, nonEmpty_cons_of_ne hyv] at h
        exact absurd hname.symm (hnot (h ▸ List.mem_cons_self) rfl)
      · rw [nonEmpty_cons_of_ne hxv, nonEmpty_cons_of_eq hyv] at h
        exact absurd rfl (hnot (h ▸ List.mem_cons_self) hrest.symm)
      · rw [nonEmpty_cons_of_ne hxv, nonEmpty_cons_of_ne hyv] at h
        rw [(List.cons.inj h).1, ih hnodup hrest (List.cons.inj h).2]

theorem checkNotEmpty_eq (fields : List (Str × Str)) :
    checkNotEmpty (fields.map (·.2.isEmpty)) = (nonEmpty fields).length := by
  induction fields with
  | nil => rfl
  | cons x xs ih =>
    rw [List.map_cons, checkNotEmpty, ih]
    cases hx : x.2 with
    | nil => rw [nonEmpty_cons_of_eq hx]; exact Nat.zero_add _
    | cons c s =>
      rw [nonEmpty_cons_of_ne (hx ▸ List.cons_ne_nil c s)]
      exact Nat.add_comm _ _

/-- **A chain** prints all that is set, if that is not more than one field. -/
theorem stringPrintOne_eq {fields : List (Str × Str)} (h : (nonEmpty fields).length ≤ 1) :
    stringPrintOne fields = (nonEmpty fields).flatMap fun x => stringPrint x.1 x.2 := by
  induction fields with
  | nil => rfl
  | cons x xs ih =>
    by_cases hx : x.2 = []
    · rw [nonEmpty_cons_of_eq hx] at h ⊢
      rw [stringPrintOne, if_neg (Classical.not_not.mpr hx), ih h]
    · rw [nonEmpty_cons_of_ne hx] at h ⊢
      have hnil : nonEmpty xs = [] := List.length_eq_zero_iff.mp (Nat.le_zero.mp (Nat.le_of_succ_le_succ h))
      rw [stringPrintOne, if_pos hx, hnil, List.flatMap_singleton]

/-! ## What is printed -/

/-- A field as it is printed. -/
def line (x : Str × Str) : Str := '\x22' :: x.1 ++ "\": ".toList ++ x.2

/-- The url of a source that has one url, and the other fields. -/
def Source.fields : Source → Option (Str × List (Str × Str))
  | .emptySource => none
  | .git s => some (s.url,
      [("tag".toList, s.tag), ("branch".toList, s.branch), ("commit".toList, s.commit)])
  | .mercurial s => some (s.url,
      [("tag".toList, s.tag), ("branch".toList, s.branch), ("commit".toList, s.commit),
        ("revision".toList, revisionStr s.revision)])
  | .bazaar s => some (s.url, [("tag".toList, s.tag), ("revision".toList, revisionStr s.revision)])
  | .fossil s => some (s.url,
      [("tag".toList, s.tag), ("branch".toList, s.branch), ("commit".toList, s.commit)])
  | .cvs s => some (s.url,
      [("tag".toList, s.tag), ("branch".toList, s.branch), ("revision".toList, s.revision),
        ("module".toList, s.module)])
  | .svn s => some (s.url,
      [("tag".toList, s.tag), ("branch".toList, s.branch),
        ("revision".toList, revisionStr s.revision)])
  | .remoteFile url => some (url, [])
  | .remoteFiles _ => none

theorem revisionStr_isEmpty (i : Int64) : (revisionStr i).isEmpty = isEmptyNumber i := by
  have hne : ∀ i : Int, intStr i ≠ [] := by
    intro i
    unfold intStr
    split
    · exact List.cons_ne_nil _ _
    · exact decimalStr_ne_nil _
  unfold revisionStr isEmptyNumber
  by_cases hi : i = -1
  · rw [if_pos hi, decide_eq_true hi]
    rfl
  · rw [if_neg hi, decide_eq_false hi]
    exact List.isEmpty_eq_false_iff.mpr (hne _)

theorem nonEmpty_append (xs ys : List (Str × Str)) :
    nonEmpty (xs ++ ys) = nonEmpty xs ++ nonEmpty ys := List.filter_append xs ys

/-- Two chains print all that is set, if that is not more than one field. -/
theorem stringPrintOne_append {xs ys : List (Str × Str)} (h : (nonEmpty (xs ++ ys)).length ≤ 1) :
    stringPrintOne xs ++ stringPrintOne ys =
      (nonEmpty (xs ++ ys)).flatMap fun x => stringPrint x.1 x.2 := by
  rw [nonEmpty_append, List.length_append] at h
  rw [stringPrintOne_eq (Nat.le_trans (Nat.le_add_right _ _) h),
    stringPrintOne_eq (Nat.le_trans (Nat.le_add_left _ _) h), nonEmpty_append, List.flatMap_append]

theorem stringPrint_eq (x : Str × Str) : stringPrint x.1 x.2 = line x ++ ['\n'] := by
  simp [stringPrint, stringPrintValue, line]

theorem flatMap_stringPrint (xs : List (Str × Str)) :
    (xs.flatMap fun x => stringPrint x.1 x.2) = unlines (xs.map line) := by
  rw [unlines, List.flatMap_map]
  exact congrArg (xs.flatMap ·) (funext stringPrint_eq)

theorem print1_of_fields {url x : Str} {fields : List (Str × Str)}
    (h : x = (nonEmpty fields).flatMap fun x => stringPrint x.1 x.2) :
    SourceUrl.print1 url ++ x = unlines ((("url".toList, url) :: nonEmpty fields).map line) := by
  rw [h, flatMap_stringPrint, List.map_cons, unlines_cons, SourceUrl.print1,
    stringPrint_eq ("url".toList, url), List.append_assoc]
  rfl

/-- A check of all fields of a source leaves one. -/
theorem length_nonEmpty (name : Str) {fields : List (Str × Str)}
    (h : checkOne name (fields.map (·.2.isEmpty)) = .ok ()) : (nonEmpty fields).length ≤ 1 := by
  rw [checkOne_eq_ok_iff, checkNotEmpty_eq] at h
  exact Nat.le_of_eq h

/-- **The url and what is set** are printed, each in a line. -/
theorem print1_eq {s : Source} (h : s.Accepted) {url : Str} {fields : List (Str × Str)}
    (hfields : s.fields = some (url, fields)) :
    s.print1 = unlines ((("url".toList, url) :: nonEmpty fields).map line) := by
  unfold Source.Accepted at h
  cases s with
  | emptySource => cases hfields
  | remoteFiles urls => cases hfields
  | remoteFile url =>
    cases hfields
    exact (List.append_nil _).symm.trans (print1_of_fields (x := []) rfl)
  | git s =>
    cases hfields
    exact print1_of_fields (stringPrintOne_eq (length_nonEmpty _ h))
  | fossil s =>
    cases hfields
    exact print1_of_fields (stringPrintOne_eq (length_nonEmpty _ h))
  | mercurial s =>
    cases hfields
    have hone : (nonEmpty [("tag".toList, s.tag), ("branch".toList, s.branch),
        ("commit".toList, s.commit), ("revision".toList, revisionStr s.revision)]).length ≤ 1 := by
      refine length_nonEmpty SourceType.mercurial.toString ?_
      rw [← h]
      simp only [List.map_cons, List.map_nil, revisionStr_isEmpty]
      rfl
    show (SourceUrl.print1 s.url ++ _) ++ _ = _
    rw [List.append_assoc]
    exact print1_of_fields (stringPrintOne_append hone)
  | bazaar s =>
    cases hfields
    have hone : (nonEmpty [("tag".toList, s.tag),
        ("revision".toList, revisionStr s.revision)]).length ≤ 1 := by
      refine length_nonEmpty SourceType.bazaar.toString ?_
      rw [← h]
      simp only [List.map_cons, List.map_nil, revisionStr_isEmpty]
      rfl
    exact print1_of_fields (stringPrintOne_eq hone)
  | svn s =>
    cases hfields
    have hone : (nonEmpty [("tag".toList, s.tag), ("branch".toList, s.branch),
        ("revision".toList, revisionStr s.revision)]).length ≤ 1 := by
      refine length_nonEmpty SourceType.svn.toString ?_
      rw [← h]
      simp only [List.map_cons, List.map_nil, revisionStr_isEmpty]
      rfl
    exact print1_of_fields (stringPrintOne_eq hone)
  | cvs s =>
    cases hfields
    have hone : (nonEmpty [("tag".toList, s.tag), ("branch".toList, s.branch),
        ("revision".toList, s.revision)]).length ≤ 1 := by
      refine length_nonEmpty SourceType.cvs.toString ?_
      replace h : (if s.module.isEmpty then _ else _ : Except Failure Unit) = .ok () := h
      split at h
      · cases h
      · exact h
    have hmodule : (nonEmpty [("module".toList, s.module)]).length ≤ 1 := List.length_filter_le _ _
    show (SourceUrl.print1 s.url ++ _) ++ _ = _
    rw [List.append_assoc, stringPrintOne_eq hone, stringPrintOne_eq hmodule, ← List.flatMap_append,
      ← nonEmpty_append]
    exact print1_of_fields rfl

/-! ## Newlines -/

/-- The text fields. -/
def Source.texts : Source → List Str
  | .emptySource => []
  | .git s => [s.url, s.tag, s.branch, s.commit]
  | .mercurial s => [s.url, s.tag, s.branch, s.commit]
  | .bazaar s => [s.url, s.tag]
  | .fossil s => [s.url, s.tag, s.branch, s.commit]
  | .cvs s => [s.url, s.module, s.tag, s.branch, s.revision]
  | .svn s => [s.url, s.tag, s.branch]
  | .remoteFile url => [url]
  | .remoteFiles urls => elements urls

/-- No text field has a newline in it. -/
def Source.WithoutNewlines (s : Source) : Prop := ∀ x ∈ s.texts, '\n' ∉ x

theorem newline_notMem_revisionStr (i : Int64) : '\n' ∉ revisionStr i := by
  have hdecimal : ∀ n : Nat, '\n' ∉ decimalStr n := fun n h => nomatch isDigit_of_mem_decimalStr h
  unfold revisionStr intStr
  split
  · exact List.not_mem_nil
  · split
    · intro h
      rcases List.mem_cons.mp h with hminus | h
      · cases hminus
      · exact hdecimal _ h
    · exact hdecimal _

/-- Neither the names nor the values that are printed have a newline in them. -/
theorem newline_notMem_line {s : Source} (h : s.WithoutNewlines) {url : Str}
    {fields : List (Str × Str)} (hfields : s.fields = some (url, fields)) :
    ∀ x ∈ ("url".toList, url) :: nonEmpty fields, '\n' ∉ line x := by
  have hall : ∀ x ∈ ("url".toList, url) :: fields, '\n' ∉ x.1 ∧ '\n' ∉ x.2 := by
    cases s <;> cases hfields <;>
      simp_all [Source.WithoutNewlines, Source.texts, newline_notMem_revisionStr]
  intro x hx
  have hmem : x ∈ ("url".toList, url) :: fields := by
    rcases List.mem_cons.mp hx with rfl | hx
    · exact List.mem_cons_self
    · exact List.mem_cons_of_mem _ (List.mem_of_mem_filter hx)
  obtain ⟨hname, hvalue⟩ := hall x hmem
  simp [line, hname, hvalue]

/-! ## Sources from what is printed -/

theorem SourceType.quote_notMem_names (t : SourceType) : ∀ n ∈ t.names, '\x22' ∉ n := by
  cases t <;> decide

theorem names_fields {s : Source} {url : Str} {fields : List (Str × Str)}
    (h : s.fields = some (url, fields)) : fields.map Prod.fst = s.getType.names := by
  cases s <;> cases h <;> rfl

theorem quote_notMem_name {s : Source} {url : Str} {fields : List (Str × Str)}
    (h : s.fields = some (url, fields)) :
    ∀ x ∈ ("url".toList, url) :: nonEmpty fields, '\x22' ∉ x.1 := by
  intro x hx
  rcases List.mem_cons.mp hx with rfl | hx
  · exact of_decide_eq_true (p := '\x22' ∉ "url".toList) rfl
  · have hname := List.mem_map_of_mem (f := Prod.fst) (List.mem_of_mem_filter hx)
    rw [names_fields h] at hname
    exact SourceType.quote_notMem_names _ _ hname

theorem line_inj {x y : Str × Str} (hx : '\x22' ∉ x.1) (hy : '\x22' ∉ y.1) (h : line x = line y) :
    x = y := by
  have hquote : ∀ z : Str × Str, line z = '\x22' :: (z.1 ++ '\x22' :: (": ".toList ++ z.2)) := by
    intro z
    simp [line]
  rw [hquote, hquote] at h
  obtain ⟨hname, hvalue⟩ := append_cons_inj hx hy (List.cons.inj h).2
  exact Prod.ext hname (List.append_cancel_left hvalue)

theorem map_line_inj {xs : List (Str × Str)} : ∀ {ys : List (Str × Str)},
    (∀ x ∈ xs, '\x22' ∉ x.1) → (∀ y ∈ ys, '\x22' ∉ y.1) → xs.map line = ys.map line → xs = ys := by
  induction xs with
  | nil =>
    intro ys _ _ h
    exact (List.map_eq_nil_iff.mp h.symm).symm
  | cons x xs ih =>
    intro ys hxs hys h
    cases ys with
    | nil => cases h
    | cons y ys =>
      obtain ⟨hxy, hrest⟩ := List.cons.inj h
      rw [line_inj (hxs x List.mem_cons_self) (hys y List.mem_cons_self) hxy,
        ih (fun z hz => hxs z (List.mem_cons_of_mem _ hz))
          (fun z hz => hys z (List.mem_cons_of_mem _ hz)) hrest]

theorem revisionStr_inj {i j : Int64} (h : revisionStr i = revisionStr j) : i = j := by
  have hempty : isEmptyNumber i = isEmptyNumber j := by
    rw [← revisionStr_isEmpty, ← revisionStr_isEmpty, h]
  have hiff : i = -1 ↔ j = -1 := decide_eq_decide.mp hempty
  unfold revisionStr at h
  by_cases hi : i = -1
  · rw [hi, hiff.mp hi]
  · rw [if_neg hi, if_neg (mt hiff.mpr hi)] at h
    have hparse := congrArg parseInt h
    rw [parseInt_intStr, parseInt_intStr] at hparse
    exact Int64.toInt_inj.mp (Option.some.inj hparse)

/-- A source with a url is known from its type and its fields. -/
theorem eq_of_fields {s t : Source} (htype : s.getType = t.getType) {x : Str × List (Str × Str)}
    (hs : s.fields = some x) (ht : t.fields = some x) : s = t := by
  have h : s.fields = t.fields := hs.trans ht.symm
  cases s <;> cases t <;> cases htype
  case emptySource => rfl
  case remoteFiles => cases hs
  case remoteFile => exact congrArg (fun x => Source.remoteFile x.1) (Option.some.inj h)
  case git s t =>
    obtain ⟨url, tag, branch, commit⟩ := s
    cases h
    rfl
  case fossil s t =>
    obtain ⟨url, tag, branch, commit⟩ := s
    cases h
    rfl
  case cvs s t =>
    obtain ⟨url, module, tag, branch, revision⟩ := s
    cases h
    rfl
  case mercurial s t =>
    obtain ⟨⟨url, tag, branch, commit⟩, revision⟩ := s
    obtain ⟨⟨url', tag', branch', commit'⟩, revision'⟩ := t
    simp only [Source.fields, Option.some.injEq, Prod.mk.injEq, List.cons.injEq, true_and, and_true] at h
    obtain ⟨rfl, rfl, rfl, rfl, hrevision⟩ := h
    rw [revisionStr_inj hrevision]
  case bazaar s t =>
    obtain ⟨url, tag, revision⟩ := s
    obtain ⟨url', tag', revision'⟩ := t
    simp only [Source.fields, Option.some.injEq, Prod.mk.injEq, List.cons.injEq, true_and, and_true] at h
    obtain ⟨rfl, rfl, hrevision⟩ := h
    rw [revisionStr_inj hrevision]
  case svn s t =>
    obtain ⟨url, tag, branch, revision⟩ := s
    obtain ⟨url', tag', branch', revision'⟩ := t
    simp only [Source.fields, Option.some.injEq, Prod.mk.injEq, List.cons.injEq, true_and, and_true] at h
    obtain ⟨rfl, rfl, rfl, hrevision⟩ := h
    rw [revisionStr_inj hrevision]

theorem isSome_fields {s t : Source} (htype : s.getType = t.getType) :
    s.fields.isSome = t.fields.isSome := by
  cases s <;> cases t <;> cases htype <;> rfl

/-- Sources with a url. -/
theorem print1_inj_of_fields {s t : Source} (htype : s.getType = t.getType) (hs : s.Accepted)
    (ht : t.Accepted) (hsn : s.WithoutNewlines) (htn : t.WithoutNewlines) (h : s.print1 = t.print1)
    (hsome : s.fields.isSome = true) : s = t := by
  obtain ⟨⟨url, fields⟩, hsf⟩ := Option.isSome_iff_exists.mp hsome
  obtain ⟨⟨url', fields'⟩, htf⟩ := Option.isSome_iff_exists.mp ((isSome_fields htype).symm.trans hsome)
  have hnewline : ∀ {v : Source} {u : Str} {fs : List (Str × Str)}, v.WithoutNewlines →
      v.fields = some (u, fs) → ∀ l ∈ (("url".toList, u) :: nonEmpty fs).map line, '\n' ∉ l :=
    fun hv hvf => List.forall_mem_map.mpr (newline_notMem_line hv hvf)
  rw [print1_eq hs hsf, print1_eq ht htf] at h
  have hlines := unlines_inj (hnewline hsn hsf) (hnewline htn htf) h
  have hall := map_line_inj (quote_notMem_name hsf) (quote_notMem_name htf) hlines
  obtain ⟨hurl, hset⟩ := List.cons.inj hall
  have hnames : fields.map Prod.fst = fields'.map Prod.fst := by
    rw [names_fields hsf, names_fields htf, htype]
  have hnodup : (fields.map Prod.fst).Nodup := by
    rw [names_fields hsf]
    exact (List.nodup_cons.mp (SourceType.nodup_names _)).2
  have hfields := eq_of_nonEmpty hnodup hnames hset
  rw [← (Prod.mk.inj hurl).2, ← hfields] at htf
  exact eq_of_fields htype hsf htf

/-- Sources with any number of urls. -/
theorem print1_inj_remoteFiles {urls urls' : Finset Str}
    (hn : (Source.remoteFiles urls).WithoutNewlines) (hn' : (Source.remoteFiles urls').WithoutNewlines)
    (h : (Source.remoteFiles urls).print1 = (Source.remoteFiles urls').print1) : urls = urls' := by
  have hlines : ∀ us : Finset Str, (Source.remoteFiles us).print1 =
      unlines ((elements us).map ("url: ".toList ++ ·)) := by
    intro us
    rw [unlines, List.flatMap_map]
    rfl
  have hnewline : ∀ {us : Finset Str}, (Source.remoteFiles us).WithoutNewlines →
      ∀ l ∈ (elements us).map ("url: ".toList ++ ·), '\n' ∉ l := by
    intro us hus l hl
    obtain ⟨u, hu, rfl⟩ := List.mem_map.mp hl
    simp [hus u hu]
  rw [hlines, hlines] at h
  have hmap := unlines_inj (hnewline hn) (hnewline hn') h
  have hsort := List.map_injective_iff.mpr (fun _ _ => List.append_cancel_left) hmap
  rw [← elements_toFinset urls, hsort, elements_toFinset]

/-- The lines behind the type. -/
theorem print1_inj {s t : Source} (htype : s.getType = t.getType) (hs : s.Accepted) (ht : t.Accepted)
    (hsn : s.WithoutNewlines) (htn : t.WithoutNewlines) (h : s.print1 = t.print1) : s = t := by
  cases s with
  | emptySource =>
    cases t <;> cases htype
    rfl
  | remoteFiles urls =>
    cases t <;> cases htype
    rw [print1_inj_remoteFiles hsn htn h]
  | _ => exact print1_inj_of_fields htype hs ht hsn htn h rfl

/-- **What is printed identifies the source.** -/
theorem print_inj {s t : Source} (hs : s.Accepted) (ht : t.Accepted) (hsn : s.WithoutNewlines)
    (htn : t.WithoutNewlines) (h : s.print = t.print) : s = t := by
  have hname : ∀ v : Source, '\n' ∉ v.getString ++ [':'] := by
    intro v
    unfold Source.getString
    cases v.getType <;> decide
  have hprint : ∀ v : Source, v.print = (v.getString ++ [':']) ++ '\n' :: v.print1 := by
    intro v
    rw [Source.print, List.append_assoc, List.append_assoc]
    rfl
  rw [hprint, hprint] at h
  obtain ⟨htype, hrest⟩ := append_cons_inj (hname s) (hname t) h
  have htype := SourceType.toString_inj (List.append_cancel_right htype)
  exact print1_inj htype hs ht hsn htn hrest

/-- A revision of a Mercurial repository that is printed like itself. -/
theorem print_inj_hg :
    Source.mercurial ⟨⟨['u'], [], [], []⟩, 5⟩ = Source.mercurial ⟨⟨['u'], [], [], []⟩, 5⟩ :=
  print_inj rfl rfl (by unfold Source.WithoutNewlines; decide) (by unfold Source.WithoutNewlines; decide) rfl

end Primitives.Sources
