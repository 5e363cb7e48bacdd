import Primitives.Lib.Fallible
import Primitives.Source.Nodes

/-!
# Sources — what is loaded is what was saved

What is saved of a source is found under the names of its fields (`find_setAll`), and a field that is
not saved has at loading what it means to be empty. Where that is not so, the source is not loaded
again: a Mercurial source without a revision, whose revision is not initialised, and in YAML a source
that nothing is saved of, and one with many urls, which are not where they are looked for
(`persists_iff`).
-/

set_option autoImplicit false

namespace Primitives.Sources

variable {Node : Type} {lib : NodeLib Node} {fmt : Format}

/-! ## What is saved -/

/-- One name and the node that is set there, if there is one. -/
def setEntry (lib : NodeLib Node) (root : Node) (e : Str × Option Node) : Node :=
  e.2.elim root (lib.set root e.1)

def setAll (lib : NodeLib Node) (root : Node) (es : List (Str × Option Node)) : Node :=
  es.foldl (setEntry lib) root

def textEntry (lib : NodeLib Node) (x : Str) : Option Node :=
  if x ≠ [] then some (lib.ofString x) else none

def numberEntry (lib : NodeLib Node) (x : Int64) : Option Node :=
  if x ≠ -1 then some (lib.ofInt x) else none

def urlEntry (fmt : Format) (lib : NodeLib Node) (url : Str) : Option Node :=
  if fmt = .json then some (lib.ofString url) else textEntry lib url

theorem addNotEmpty_eq (root : Node) (name x : Str) :
    addNotEmpty lib root name x = setEntry lib root (name, textEntry lib x) := by
  unfold addNotEmpty textEntry
  split <;> rfl

theorem addNotMinusOne_eq (root : Node) (name : Str) (x : Int64) :
    addNotMinusOne lib root name x = setEntry lib root (name, numberEntry lib x) := by
  unfold addNotMinusOne numberEntry
  split <;> rfl

theorem saveUrl_eq (url : Str) (root : Node) :
    SourceUrl.save1 fmt lib url root = setEntry lib root ("url".toList, urlEntry fmt lib url) := by
  cases fmt with
  | json => rfl
  | yaml => exact addNotEmpty_eq root _ url

/-- Only what is defined is set. -/
def Defined (lib : NodeLib Node) (o : Option Node) : Prop := ∀ v ∈ o, lib.isDefined v = true

theorem defined_textEntry (hdoc : lib.Documented fmt) (x : Str) :
    Defined lib (textEntry lib x) := by
  intro v hv
  unfold textEntry at hv
  split at hv
  · cases hv
    exact hdoc.isDefined_ofString x
  · cases hv

theorem defined_numberEntry (hdoc : lib.Documented fmt) (x : Int64) :
    Defined lib (numberEntry lib x) := by
  intro v hv
  unfold numberEntry at hv
  split at hv
  · cases hv
    exact hdoc.isDefined_ofInt x
  · cases hv

theorem defined_urlEntry (hdoc : lib.Documented fmt) (url : Str) :
    Defined lib (urlEntry fmt lib url) := by
  intro v hv
  unfold urlEntry at hv
  split at hv
  · cases hv
    exact hdoc.isDefined_ofString url
  · exact defined_textEntry hdoc url v hv

theorem find_setEntry (hdoc : lib.Documented fmt) {root : Node} (hroot : lib.Keyed root)
    {name : Str} {o : Option Node} (ho : Defined lib o) (n : Str) :
    lib.find (setEntry lib root (name, o)) n =
      if n = name then o.elim (lib.find root n) fun v => .ok (some v) else lib.find root n := by
  cases o with
  | none => exact (ite_self _).symm
  | some v => exact hdoc.find_set hroot (ho v rfl) n

theorem keyed_setEntry {root : Node} (hroot : lib.Keyed root) {name : Str} {o : Option Node}
    (ho : Defined lib o) : lib.Keyed (setEntry lib root (name, o)) := by
  cases o with
  | none => exact hroot
  | some v => exact .set name hroot (ho v rfl)

/-- **What is found** where entries were set: them, and what was there before. -/
theorem find_setAll (hdoc : lib.Documented fmt) {es : List (Str × Option Node)} :
    ∀ {root : Node}, lib.Keyed root → (∀ e ∈ es, Defined lib e.2) →
      (es.map Prod.fst).Nodup → ∀ n, lib.find (setAll lib root es) n =
        (es.lookup n).join.elim (lib.find root n) fun v => .ok (some v) := by
  induction es with
  | nil => exact fun _ _ _ n => rfl
  | cons e es ih =>
    intro root hroot hes hnodup n
    obtain ⟨name, o⟩ := e
    obtain ⟨hnew, hnodup⟩ := List.nodup_cons.mp hnodup
    have hname : name ∉ es.map Prod.fst := hnew
    have ho : Defined lib o := hes (name, o) List.mem_cons_self
    show lib.find (setAll lib (setEntry lib root (name, o)) es) n = _
    rw [ih (keyed_setEntry hroot ho) (fun x hx => hes x (List.mem_cons_of_mem _ hx)) hnodup,
      find_setEntry hdoc hroot ho, List.lookup_cons]
    by_cases hn : n = name
    · subst hn
      have hnone : es.lookup n = none := by
        rw [List.lookup_eq_none_iff]
        intro x hx
        have hne : n ≠ x.1 := by
          intro heq
          rw [heq] at hname
          exact hname (List.mem_map_of_mem hx)
        exact bne_iff_ne.mpr hne
      rw [hnone, beq_self_eq_true, if_pos rfl]
      rfl
    · rw [beq_eq_false_iff_ne.mpr hn, if_neg hn]

theorem isDefined_setAll (hdoc : lib.Documented fmt) {es : List (Str × Option Node)} :
    ∀ {root : Node}, lib.Keyed root → (∀ e ∈ es, Defined lib e.2) →
      (lib.isDefined root = true ∨ ∃ e ∈ es, e.2.isSome = true) →
        lib.isDefined (setAll lib root es) = true := by
  induction es with
  | nil =>
    rintro root - - (hroot | ⟨e, he, -⟩)
    · exact hroot
    · cases he
  | cons e es ih =>
    intro root hroot hes hsome
    obtain ⟨name, o⟩ := e
    have ho : Defined lib o := hes (name, o) List.mem_cons_self
    refine @ih (setEntry lib root (name, o)) (keyed_setEntry hroot ho)
      (fun x hx => hes x (List.mem_cons_of_mem _ hx)) ?_
    cases o with
    | some v => exact .inl (hdoc.isDefined_set hroot (ho v rfl))
    | none =>
      refine hsome.imp id ?_
      rintro ⟨e, he, hsome⟩
      rcases List.mem_cons.mp he with rfl | he
      · cases hsome
      · exact ⟨e, he, hsome⟩

/-! ## What is loaded -/

section

variable {root : Node} {es : List (Str × Option Node)} {name : Str}

theorem getString_of_lookup (hdoc : lib.Documented fmt)
    (hfind : ∀ n, lib.find root n = (es.lookup n).join.elim (.ok none) fun v => .ok (some v)) (x : Str)
    (h : es.lookup name = some (textEntry lib x)) : getString lib root name [] = .ok x := by
  unfold getString
  rw [hfind, h, Option.join_some, textEntry]
  by_cases hx : x = []
  · rw [if_neg (Classical.not_not.mpr hx), hx]
    rfl
  · rw [if_pos hx]
    exact hdoc.asString_ofString x

theorem getUrl_of_lookup (hdoc : lib.Documented fmt)
    (hfind : ∀ n, lib.find root n = (es.lookup n).join.elim (.ok none) fun v => .ok (some v)) (url : Str)
    (h : es.lookup "url".toList = some (urlEntry fmt lib url)) : SourceUrl.ofNode lib root = .ok url := by
  unfold urlEntry at h
  split at h
  · rw [SourceUrl.ofNode, getString, hfind, h]
    exact hdoc.asString_ofString url
  · exact getString_of_lookup hdoc hfind url h

/-- A revision of -1 is not saved, so the field keeps what it has. -/
theorem getInt_of_lookup (hdoc : lib.Documented fmt)
    (hfind : ∀ n, lib.find root n = (es.lookup n).join.elim (.ok none) fun v => .ok (some v))
    {x : Int64} (y : Int64) (h : es.lookup name = some (numberEntry lib x)) :
    getInt lib root name y = .ok (if x = -1 then y else x) := by
  unfold getInt
  rw [hfind, h, Option.join_some, numberEntry]
  by_cases hx : x = -1
  · rw [if_neg (Classical.not_not.mpr hx), if_pos hx]
    rfl
  · rw [if_pos hx, if_neg hx]
    exact hdoc.asInt_ofInt x

end

/-! ## Each type -/

/-- What is saved of a source, under the names of its fields. -/
def saved (fmt : Format) (lib : NodeLib Node) : Source → List (Str × Option Node)
  | .emptySource => []
  | .git s => [("url".toList, urlEntry fmt lib s.url), ("tag".toList, textEntry lib s.tag),
      ("branch".toList, textEntry lib s.branch), ("commit".toList, textEntry lib s.commit)]
  | .mercurial s => [("url".toList, urlEntry fmt lib s.url), ("tag".toList, textEntry lib s.tag),
      ("branch".toList, textEntry lib s.branch), ("commit".toList, textEntry lib s.commit),
      ("revision".toList, numberEntry lib s.revision)]
  | .bazaar s => [("url".toList, urlEntry fmt lib s.url), ("tag".toList, textEntry lib s.tag),
      ("revision".toList, numberEntry lib s.revision)]
  | .fossil s => [("url".toList, urlEntry fmt lib s.url), ("tag".toList, textEntry lib s.tag),
      ("branch".toList, textEntry lib s.branch), ("commit".toList, textEntry lib s.commit)]
  | .cvs s => [("url".toList, urlEntry fmt lib s.url), ("tag".toList, textEntry lib s.tag),
      ("branch".toList, textEntry lib s.branch), ("revision".toList, textEntry lib s.revision),
      ("module".toList, textEntry lib s.module)]
  | .svn s => [("url".toList, urlEntry fmt lib s.url), ("tag".toList, textEntry lib s.tag),
      ("branch".toList, textEntry lib s.branch), ("revision".toList, numberEntry lib s.revision)]
  | .remoteFile url => [("url".toList, urlEntry fmt lib url)]
  | .remoteFiles _ => []

theorem save1_eq {s : Source} (h : s.getType ≠ .remoteFiles) (root : Node) :
    s.save1 fmt lib root = setAll lib root (saved fmt lib s) := by
  cases s with
  | remoteFiles urls => exact absurd rfl h
  | emptySource => rfl
  | remoteFile url => exact saveUrl_eq url root
  | _ =>
    simp only [Source.save1, Git.save1, Hg.save1, Bzr.save1, Cvs.save1, Svn.save1, saveUrl_eq,
      addNotEmpty_eq, addNotMinusOne_eq]
    rfl

theorem nodup_saved (s : Source) : ((saved fmt lib s).map Prod.fst).Nodup := by
  cases s with
  | emptySource => exact List.nodup_nil
  | remoteFiles urls => exact List.nodup_nil
  | git s => exact SourceType.nodup_names .git
  | mercurial s => exact SourceType.nodup_names .mercurial
  | bazaar s => exact SourceType.nodup_names .bazaar
  | fossil s => exact SourceType.nodup_names .fossil
  | cvs s => exact SourceType.nodup_names .cvs
  | svn s => exact SourceType.nodup_names .svn
  | remoteFile url => exact SourceType.nodup_names .remoteFile

theorem defined_of_mem_saved (hdoc : lib.Documented fmt) (s : Source) :
    ∀ e ∈ saved fmt lib s, Defined lib e.2 := by
  have hurl := defined_urlEntry hdoc
  have htext := defined_textEntry hdoc
  have hnumber := defined_numberEntry hdoc
  cases s with
  | emptySource => exact fun e he => nomatch he
  | remoteFiles urls => exact fun e he => nomatch he
  | _ => simp only [saved, List.forall_mem_cons, List.not_mem_nil, false_implies, implies_true,
      and_self, hurl, htext, hnumber]

/-- What a source is saved as is found again. -/
theorem find_save1 (hdoc : lib.Documented fmt) {s : Source} (h : s.getType ≠ .remoteFiles) (n : Str) :
    lib.find (s.save1 fmt lib lib.new) n =
      ((saved fmt lib s).lookup n).join.elim (.ok none) fun v => .ok (some v) := by
  rw [save1_eq h, find_setAll hdoc .new (defined_of_mem_saved hdoc s) (nodup_saved s), hdoc.find_new]

/-- **One type and its constructor.** Only the revision of a Mercurial source can be another one. -/
theorem ofNode_save1 (hdoc : lib.Documented fmt) {s : Source} (htype : s.getType ≠ .remoteFiles)
    (hs : s.Accepted) (hrevision : ∀ r, s = .mercurial r → r.revision ≠ -1) (indeterminate : Int64) :
    s.getType.ofNode fmt lib indeterminate (s.save1 fmt lib lib.new) = .ok s := by
  have hfind := find_save1 hdoc htype
  have hurl := getUrl_of_lookup hdoc hfind
  have htext := fun n x => @getString_of_lookup _ _ _ _ _ n hdoc hfind x
  have hnumber := fun n x y => @getInt_of_lookup _ _ _ _ _ n hdoc hfind x y
  unfold Source.Accepted at hs
  cases s with
  | remoteFiles urls => exact absurd rfl htype
  | emptySource => rfl
  | remoteFile url =>
    show Source.remoteFile <$> SourceUrl.ofNode lib _ = _
    rw [hurl url rfl]
    rfl
  | git s =>
    have hgit : Git.ofNode lib ((Source.git s).save1 fmt lib lib.new) = .ok s := by
      rw [Git.ofNode, Git.unchecked, hurl s.url rfl, htext _ s.tag rfl, htext _ s.branch rfl,
        htext _ s.commit rfl]
      exact congrArg (· >>= fun _ => Except.ok s) hs
    exact congrArg (Source.git <$> ·) hgit
  | fossil s =>
    have hgit : Git.ofNode lib ((Source.fossil s).save1 fmt lib lib.new) = .ok s := by
      rw [Git.ofNode, Git.unchecked, hurl s.url rfl, htext _ s.tag rfl, htext _ s.branch rfl,
        htext _ s.commit rfl]
      exact congrArg (· >>= fun _ => Except.ok s) hs
    exact congrArg (Source.fossil <$> ·) hgit
  | mercurial s =>
    have hhg : Hg.ofNode lib indeterminate ((Source.mercurial s).save1 fmt lib lib.new) = .ok s := by
      rw [Hg.ofNode, Git.unchecked, hurl s.url rfl, htext _ s.tag rfl, htext _ s.branch rfl,
        htext _ s.commit rfl, hnumber _ s.revision indeterminate rfl, if_neg (hrevision s rfl)]
      exact congrArg (· >>= fun _ => Except.ok s) hs
    exact congrArg (Source.mercurial <$> ·) hhg
  | bazaar s =>
    have hbzr : Bzr.ofNode lib ((Source.bazaar s).save1 fmt lib lib.new) = .ok s := by
      rw [Bzr.ofNode, hurl s.url rfl, htext _ s.tag rfl, hnumber _ s.revision (-1) rfl,
        ite_eq_right_iff.mpr Eq.symm]
      exact congrArg (· >>= fun _ => Except.ok s) hs
    exact congrArg (Source.bazaar <$> ·) hbzr
  | cvs s =>
    have hcvs : Cvs.ofNode lib ((Source.cvs s).save1 fmt lib lib.new) = .ok s := by
      rw [Cvs.ofNode, hurl s.url rfl, htext _ s.tag rfl, htext _ s.branch rfl,
        htext _ s.revision rfl, htext _ s.module rfl]
      exact congrArg (· >>= fun _ => Except.ok s) hs
    exact congrArg (Source.cvs <$> ·) hcvs
  | svn s =>
    have hsvn : Svn.ofNode lib ((Source.svn s).save1 fmt lib lib.new) = .ok s := by
      rw [Svn.ofNode, hurl s.url rfl, htext _ s.tag rfl, htext _ s.branch rfl,
        hnumber _ s.revision (-1) rfl, ite_eq_right_iff.mpr Eq.symm]
      exact congrArg (· >>= fun _ => Except.ok s) hs
    exact congrArg (Source.svn <$> ·) hsvn

/-- Without a revision a Mercurial source has the one that was there before. -/
theorem hg_ofNode_save1 (hdoc : lib.Documented fmt) {s t : Hg} (h : s.revision = -1)
    {indeterminate : Int64}
    (ht : Hg.ofNode lib indeterminate ((Source.mercurial s).save1 fmt lib lib.new) = .ok t) :
    t.revision = indeterminate := by
  have hfind := find_save1 hdoc (s := .mercurial s) (fun h => nomatch h)
  rw [Hg.ofNode, Git.unchecked, getUrl_of_lookup hdoc hfind s.url rfl,
    getString_of_lookup hdoc hfind s.tag rfl, getString_of_lookup hdoc hfind s.branch rfl,
    getString_of_lookup hdoc hfind s.commit rfl,
    getInt_of_lookup hdoc hfind (x := s.revision) indeterminate rfl, if_pos h] at ht
  replace ht : (Hg.checkValid ⟨⟨s.url, s.tag, s.branch, s.commit⟩, indeterminate⟩ >>= fun _ =>
    Except.ok ⟨⟨s.url, s.tag, s.branch, s.commit⟩, indeterminate⟩) = Except.ok t := ht
  cases hcheck : Hg.checkValid ⟨⟨s.url, s.tag, s.branch, s.commit⟩, indeterminate⟩ with
  | error e =>
    rw [hcheck] at ht
    cases ht
  | ok u =>
    rw [hcheck] at ht
    cases ht
    rfl

/-! ## Many urls -/

theorem pushAll_concat (k : Str) (xs : List Str) (x : Str) (root : Node) :
    pushAll lib k (xs ++ [x]) root = lib.set (pushAll lib k xs root) k
      (lib.pushBack (subscript lib (pushAll lib k xs root) k) (lib.ofString x)) := by
  unfold pushAll
  rw [List.foldl_append]
  rfl

/-- **Pushed texts** are a sequence under the key. -/
theorem pushAll_new (hdoc : lib.Documented fmt) (k : Str) {xs : List Str} (hxs : xs ≠ []) :
    ∃ n v, pushAll lib k xs lib.new = lib.set n k v ∧ lib.Keyed n ∧ lib.isDefined v = true ∧
      lib.elements v = some (xs.map lib.ofString) := by
  induction xs using List.reverseRecOn with
  | nil => exact absurd rfl hxs
  | append_singleton xs x ih =>
    rw [pushAll_concat]
    by_cases hnil : xs = []
    · subst hnil
      have hsub : subscript lib lib.new k = lib.new := by
        rw [subscript, hdoc.find_new]
      refine ⟨lib.new, _, rfl, .new, ?_, ?_⟩
      · show lib.isDefined (lib.pushBack (subscript lib lib.new k) _) = true
        rw [hsub]
        exact hdoc.isDefined_pushBack (.inl rfl)
      · show lib.elements (lib.pushBack (subscript lib lib.new k) _) = _
        rw [hsub]
        exact hdoc.elements_pushBack_new _
    · obtain ⟨n, v, hpush, hn, hv, helements⟩ := ih hnil
      have hsub : subscript lib (pushAll lib k xs lib.new) k = v := by
        rw [subscript, hpush, hdoc.find_set hn hv, if_pos rfl]
      refine ⟨_, _, rfl, hpush ▸ .set k hn hv, ?_, ?_⟩
      · rw [hsub]
        exact hdoc.isDefined_pushBack (.inr (by rw [helements]; rfl))
      · rw [hsub, hdoc.elements_pushBack helements, List.map_append]
        rfl

theorem elements_ne_nil {urls : Finset Str} (h : urls.Nonempty) : elements urls ≠ [] := by
  intro hnil
  have hempty := elements_toFinset urls
  rw [hnil] at hempty
  exact h.ne_empty hempty.symm

theorem json_remoteFiles (hdoc : lib.Documented .json) {urls : Finset Str} (h : urls.Nonempty) :
    RemoteFiles.ofNode .json lib ((Source.remoteFiles urls).save1 .json lib lib.new) = .ok urls := by
  obtain ⟨n, v, hpush, hn, hv, helements⟩ := pushAll_new hdoc "url".toList (elements_ne_nil h)
  show RemoteFiles.ofNode .json lib (pushAll lib "url".toList (elements urls) lib.new) = _
  unfold RemoteFiles.ofNode
  dsimp only
  rw [hpush, hdoc.find_set hn hv, if_pos rfl]
  dsimp only [bind, Except.bind]
  rw [helements]
  dsimp only
  rw [Lib.mapM_map_eq_ok hdoc.asString_ofString]
  exact congrArg Except.ok (elements_toFinset _)

/-- In YAML the urls are under a key once more, where they are not looked for. -/
theorem yaml_remoteFiles (hdoc : lib.Documented .yaml) {urls : Finset Str} (h : urls.Nonempty) :
    RemoteFiles.ofNode .yaml lib ((Source.remoteFiles urls).save1 .yaml lib lib.new) = .ok ∅ := by
  obtain ⟨n, v, hpush, hn, hv, -⟩ :=
    pushAll_new hdoc SourceType.remoteFiles.toString (elements_ne_nil h)
  have hsequence : getSequence lib (lib.set n SourceType.remoteFiles.toString v) = .ok [] := by
    rw [getSequence, hdoc.isDefined_set hn hv, hdoc.isScalar_set hn hv, hdoc.elements_set hn hv]
    rfl
  show RemoteFiles.ofNode .yaml lib
    (pushAll lib SourceType.remoteFiles.toString (elements urls) lib.new) = _
  rw [hpush, RemoteFiles.ofNode, hsequence]
  rfl

/-- Something is put where many urls are saved. -/
theorem isDefined_remoteFiles (hdoc : lib.Documented fmt) {urls : Finset Str} (h : urls.Nonempty) :
    lib.isDefined ((Source.remoteFiles urls).save1 fmt lib lib.new) = true := by
  have hpushed : ∀ k, lib.isDefined (pushAll lib k (elements urls) lib.new) = true := by
    intro k
    obtain ⟨n, v, hpush, hn, hv, -⟩ := pushAll_new hdoc k (elements_ne_nil h)
    rw [hpush]
    exact hdoc.isDefined_set hn hv
  cases fmt <;> exact hpushed _

/-! ## Saving and loading -/

theorem save_empty (hdoc : lib.Documented fmt) (s : Source) :
    s.save fmt lib lib.empty = lib.set lib.empty s.getType.toString (s.save1 fmt lib lib.new) := by
  have hsub : subscript lib lib.empty s.getString = lib.new := by
    rw [subscript, hdoc.find_empty]
  rw [Source.save, hsub]
  rfl

theorem load_set (hdoc : lib.Documented fmt) (t : SourceType) {v : Node} (hv : lib.isDefined v = true)
    (indeterminate : Int64) :
    Source.load fmt lib indeterminate (lib.set lib.empty t.toString v) =
      t.ofNode fmt lib indeterminate v := by
  unfold Source.load
  rw [hdoc.size_set hv, hdoc.isMap_set .empty hv, hdoc.front_set hv, if_neg (Classical.not_not.mpr rfl),
    if_neg Bool.noConfusion]
  dsimp only
  rw [fromString_toString]
  rfl

theorem load_set_undefined (hdoc : lib.Documented fmt) (t : SourceType) {v : Node}
    (hv : lib.isDefined v = false) (indeterminate : Int64) :
    Source.load fmt lib indeterminate (lib.set lib.empty t.toString v) = .error .notOneObject := by
  rw [Source.load, hdoc.size_set_undefined hv]
  rfl

/-- A check has found a field that is not empty, and that is saved. -/
theorem exists_isSome_of_checkNotEmpty {es : List (Str × Option Node)}
    (h : checkNotEmpty (es.map (·.2.isNone)) = 1) : ∃ e ∈ es, e.2.isSome = true := by
  induction es with
  | nil => cases h
  | cons e es ih =>
    cases he : e.2 with
    | some v => exact ⟨e, List.mem_cons_self, by rw [he]; rfl⟩
    | none =>
      rw [List.map_cons, checkNotEmpty, he] at h
      obtain ⟨x, hx, hsome⟩ := ih ((Nat.zero_add _).symm.trans h)
      exact ⟨x, List.mem_cons_of_mem _ hx, hsome⟩

theorem isNone_textEntry (x : Str) : (textEntry lib x).isNone = x.isEmpty := by
  unfold textEntry
  cases x <;> rfl

theorem isNone_numberEntry (x : Int64) : (numberEntry lib x).isNone = isEmptyNumber x := by
  unfold numberEntry isEmptyNumber
  by_cases hx : x = -1
  · rw [if_neg (Classical.not_not.mpr hx), decide_eq_true hx]
    rfl
  · rw [if_pos hx, decide_eq_false hx]
    rfl

/-- Something is saved of what is checked. -/
theorem exists_isSome_saved {s : Source} (hs : s.Accepted)
    (h : s.getType ∉ [.emptySource, .remoteFile, .remoteFiles]) :
    ∃ e ∈ saved fmt lib s, e.2.isSome = true := by
  unfold Source.Accepted at hs
  have hcheck : ∀ {e : Str × Option Node} {es : List (Str × Option Node)},
      checkNotEmpty (es.map (·.2.isNone)) = 1 → ∃ x ∈ e :: es, x.2.isSome = true := by
    intro e es hone
    obtain ⟨x, hx, hsome⟩ := exists_isSome_of_checkNotEmpty hone
    exact ⟨x, List.mem_cons_of_mem _ hx, hsome⟩
  cases s with
  | emptySource => exact absurd List.mem_cons_self h
  | remoteFile url => exact absurd (List.mem_cons_of_mem _ List.mem_cons_self) h
  | remoteFiles urls =>
    exact absurd (List.mem_cons_of_mem _ (List.mem_cons_of_mem _ List.mem_cons_self)) h
  | cvs s =>
    -- a module is always there
    have hmodule : s.module.isEmpty = false := by
      replace hs : (if s.module.isEmpty then _ else _ : Except Failure Unit) = .ok () := hs
      split at hs
      · cases hs
      · rename_i hne
        exact Bool.eq_false_iff.mpr hne
    refine ⟨("module".toList, textEntry lib s.module), by simp [saved], ?_⟩
    rw [← Option.not_isNone, isNone_textEntry, hmodule]
    rfl
  | _ =>
    refine hcheck (Eq.trans ?_ (checkOne_eq_ok_iff.mp hs))
    simp only [List.map_cons, List.map_nil, isNone_textEntry, isNone_numberEntry]

/-- What is saved under the name of the type is counted, but for what an empty node in YAML is. -/
theorem isDefined_save1 (hdoc : lib.Documented fmt) {s : Source} (hs : s.Accepted)
    (htype : s.getType ≠ .remoteFiles)
    (hyaml : fmt = .yaml → s ≠ .emptySource ∧ s ≠ .remoteFile []) :
    lib.isDefined (s.save1 fmt lib lib.new) = true := by
  rw [save1_eq htype]
  refine isDefined_setAll hdoc .new (defined_of_mem_saved hdoc s) ?_
  cases fmt with
  | json => exact .inl (hdoc.isDefined_new.mpr rfl)
  | yaml =>
    obtain ⟨hempty, hurl⟩ := hyaml rfl
    refine .inr ?_
    cases s with
    | emptySource => exact absurd rfl hempty
    | remoteFiles urls => exact absurd rfl htype
    | remoteFile url =>
      have hne : url ≠ [] := fun hnil => hurl (congrArg _ hnil)
      exact ⟨_, List.mem_singleton.mpr rfl, congrArg Option.isSome (if_pos hne)⟩
    | _ => exact exists_isSome_saved hs (by simp [Source.getType])

/-- The source is saved and loaded again, whatever is where nothing is initialised. -/
def RoundTrips (fmt : Format) (lib : NodeLib Node) (s : Source) : Prop :=
  ∀ indeterminate, Source.load fmt lib indeterminate (s.save fmt lib lib.empty) = .ok s

theorem roundTrips_of_isDefined (hdoc : lib.Documented fmt) {s : Source}
    (hdef : lib.isDefined (s.save1 fmt lib lib.new) = true)
    (hload : ∀ indeterminate,
      s.getType.ofNode fmt lib indeterminate (s.save1 fmt lib lib.new) = .ok s) :
    RoundTrips fmt lib s := by
  intro indeterminate
  rw [save_empty hdoc, load_set hdoc _ hdef, hload]

theorem not_roundTrips_of_undefined (hdoc : lib.Documented fmt) {s : Source}
    (hdef : lib.isDefined (s.save1 fmt lib lib.new) = false) : ¬ RoundTrips fmt lib s := by
  intro h
  have hload := h 0
  rw [save_empty hdoc, load_set_undefined hdoc _ hdef] at hload
  cases hload

/-- A Mercurial source without a revision is given another one. -/
theorem not_roundTrips_hg (hdoc : lib.Documented fmt) {s : Hg} (hs : s.checkValid = .ok ())
    (h : s.revision = -1) : ¬ RoundTrips fmt lib (.mercurial s) := by
  intro hround
  have hload := hround 0
  have hdef : lib.isDefined ((Source.mercurial s).save1 fmt lib lib.new) = true :=
    isDefined_save1 hdoc hs (fun h => nomatch h) fun _ => ⟨(fun h => nomatch h), (fun h => nomatch h)⟩
  rw [save_empty hdoc, load_set hdoc _ hdef] at hload
  replace hload : Source.mercurial <$> Hg.ofNode lib 0 ((Source.mercurial s).save1 fmt lib lib.new) =
    .ok (.mercurial s) := hload
  cases hof : Hg.ofNode lib 0 ((Source.mercurial s).save1 fmt lib lib.new) with
  | error e =>
    rw [hof] at hload
    cases hload
  | ok t =>
    rw [hof] at hload
    cases hload
    have hzero := hg_ofNode_save1 hdoc h hof
    rw [h] at hzero
    cases hzero

/-! ## Both formats -/

/-- The sources that are kept in JSON. -/
def PersistsInJson : Source → Prop
  | .mercurial s => s.revision ≠ -1
  | .remoteFiles urls => urls.Nonempty
  | _ => True

/-- The sources that are kept in YAML too. -/
def Persists : Source → Prop
  | .emptySource => False
  | .mercurial s => s.revision ≠ -1
  | .remoteFile url => url ≠ []
  | .remoteFiles _ => False
  | _ => True

theorem roundTrips_json (hdoc : lib.Documented .json) {s : Source} (hs : s.Accepted)
    (h : PersistsInJson s) : RoundTrips .json lib s := by
  by_cases htype : s.getType = .remoteFiles
  · cases s <;> cases htype
    rename_i urls
    refine roundTrips_of_isDefined hdoc (isDefined_remoteFiles hdoc h) fun _ => ?_
    exact congrArg (Source.remoteFiles <$> ·) (json_remoteFiles hdoc h)
  · refine roundTrips_of_isDefined hdoc (isDefined_save1 hdoc hs htype fun h => nomatch h) ?_
    refine ofNode_save1 hdoc htype hs ?_
    rintro r rfl
    exact h

theorem roundTrips_yaml_iff (hdoc : lib.Documented .yaml) {s : Source} (hs : s.Accepted) :
    RoundTrips .yaml lib s ↔ Persists s := by
  have hnew : lib.isDefined lib.new = false :=
    Bool.eq_false_iff.mpr fun h => nomatch hdoc.isDefined_new.mp h
  constructor
  · intro h
    cases s with
    | emptySource => exact not_roundTrips_of_undefined (s := .emptySource) hdoc hnew h
    | mercurial s => exact fun hrevision => not_roundTrips_hg hdoc hs hrevision h
    | remoteFile url =>
      rintro rfl
      exact not_roundTrips_of_undefined (s := .remoteFile []) hdoc hnew h
    | remoteFiles urls =>
      rcases urls.eq_empty_or_nonempty with rfl | hne
      · refine not_roundTrips_of_undefined hdoc ?_ h
        rw [← hnew]
        show lib.isDefined (pushAll lib _ (elements ∅) lib.new) = _
        rw [elements, Finset.sort_empty]
        rfl
      · have hload := h 0
        rw [save_empty hdoc, load_set hdoc _ (isDefined_remoteFiles hdoc hne)] at hload
        replace hload : Source.remoteFiles <$>
          RemoteFiles.ofNode .yaml lib ((Source.remoteFiles urls).save1 .yaml lib lib.new) =
            .ok (.remoteFiles urls) := hload
        rw [yaml_remoteFiles hdoc hne] at hload
        cases hload
        exact Finset.not_nonempty_empty hne
    | _ => trivial
  · intro h
    have htype : s.getType ≠ .remoteFiles := by
      intro htype
      cases s <;> cases htype
      exact h
    refine roundTrips_of_isDefined hdoc (isDefined_save1 hdoc hs htype fun _ => ⟨?_, ?_⟩)
      (ofNode_save1 hdoc htype hs ?_)
    · rintro rfl
      exact h
    · rintro rfl
      exact h rfl
    · rintro r rfl
      exact h

/-- **Persistence**: a source is loaded as it was saved, from JSON and from YAML, exactly if it is not an
empty one, not one of many files, not a file without a url and not a Mercurial one without a
revision. -/
theorem persists_iff {J Y : Type} {jlib : NodeLib J} {ylib : NodeLib Y}
    (hjson : jlib.Documented .json) (hyaml : ylib.Documented .yaml) {s : Source} (hs : s.Accepted) :
    RoundTrips .json jlib s ∧ RoundTrips .yaml ylib s ↔ Persists s := by
  rw [roundTrips_yaml_iff hyaml hs, and_iff_right_iff_imp]
  intro h
  refine roundTrips_json hjson hs ?_
  cases s with
  | mercurial s => exact h
  | remoteFiles urls => exact h.elim
  | _ => trivial

/-- A revision of a Bazaar repository, in trees. -/
theorem persists_bzr :
    RoundTrips .json (Tree.lib .json) (.bazaar ⟨['u'], [], 5⟩) ∧
        RoundTrips .yaml (Tree.lib .yaml) (.bazaar ⟨['u'], [], 5⟩) ↔
      Persists (.bazaar ⟨['u'], [], 5⟩) :=
  persists_iff (Tree.documented .json) (Tree.documented .yaml) rfl

/-- A set of one url is lost in YAML. -/
theorem not_persists :
    ¬ ∀ s : Source, s.Accepted → (∀ urls, s = .remoteFiles urls → urls.Nonempty) →
      RoundTrips .json (Tree.lib .json) s ∧ RoundTrips .yaml (Tree.lib .yaml) s := by
  intro hall
  have hurls : ∀ urls, Source.remoteFiles {['u']} = .remoteFiles urls → urls.Nonempty := by
    intro urls h
    cases h
    exact Finset.singleton_nonempty _
  have hround := (hall (.remoteFiles {['u']}) rfl hurls).2
  exact (roundTrips_yaml_iff (s := .remoteFiles {['u']}) (Tree.documented .yaml) rfl).mp hround

end Primitives.Sources
