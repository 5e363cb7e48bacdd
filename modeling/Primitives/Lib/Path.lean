import Mathlib.Data.List.Infix
import Mathlib.Order.Basic

/-!
# Paths

A path in the POSIX format of `std::filesystem`: a root directory or none, and the names between the
separators. Two paths are equal where these are, as `operator==` has it, however many separators stand
in their texts.

Normalisation is a walk through the names: a name goes down, `..` takes the last name back or, where
none is left, goes up. So a path is as many steps up as the walk could not take back, and the names
that are left (`walk`), and the walk of two paths one behind the other is known from the two
(`walk_append`).
-/

set_option autoImplicit false

namespace Primitives.Lib

/-- `has_root_directory`, and the file names; a separator at the end of a path is an empty name. -/
structure Path where
  isAbsolute : Bool
  names : List (List Char)
deriving DecidableEq, Repr

namespace Path

/-! ## Texts -/

def dot : List Char := ['.']

def dotdot : List Char := ['.', '.']

/-- What stands between the separators of a text. -/
def pieces : List Char → List (List Char)
  | [] => [[]]
  | c :: s =>
    if c = '/' then [] :: pieces s
    else
      match pieces s with
      | [] => [[c]]
      | p :: ps => (c :: p) :: ps

/-- The path with the text `s`. -/
def ofText (s : List Char) : Path :=
  let names := (pieces s).filter (· ≠ [])
  ⟨s.head? = some '/', if names ≠ [] ∧ s.getLast? = some '/' then names ++ [[]] else names⟩

/-- A text of the path. -/
def text (p : Path) : List Char :=
  (if p.isAbsolute then ['/'] else []) ++ ['/'].intercalate p.names

theorem mem_flatten_pieces {c : Char} (hc : c ≠ '/') (s : List Char) :
    c ∈ (pieces s).flatten ↔ c ∈ s := by
  induction s with
  | nil => rfl
  | cons d s ih =>
    rw [pieces]
    split
    · rename_i hd
      rw [List.flatten_cons, List.nil_append, ih, List.mem_cons, hd, or_iff_right hc]
    · split
      · rename_i hnil
        rw [hnil] at ih
        rw [List.mem_cons, ← ih]
        simp
      · rename_i hcons
        rw [hcons] at ih
        rw [List.mem_cons, ← ih]
        simp

/-- The characters of a text but for the separators are those of the names. -/
theorem mem_names_ofText {c : Char} (hc : c ≠ '/') (s : List Char) :
    c ∈ (ofText s).names.flatten ↔ c ∈ s := by
  have hfilter : c ∈ ((pieces s).filter (· ≠ [])).flatten ↔ c ∈ s := by
    rw [← mem_flatten_pieces hc s, List.mem_flatten, List.mem_flatten]
    refine exists_congr fun n => ⟨fun ⟨hn, hmem⟩ => ⟨List.mem_of_mem_filter hn, hmem⟩, ?_⟩
    rintro ⟨hn, hmem⟩
    exact ⟨List.mem_filter.mpr ⟨hn, decide_eq_true (List.ne_nil_of_mem hmem)⟩, hmem⟩
  rw [← hfilter, ofText]
  dsimp only
  split
  · rw [List.flatten_append]
    simp
  · rfl

/-! ## Operations -/

/-- `path::empty`. -/
def isEmpty (p : Path) : Bool := !p.isAbsolute && p.names.isEmpty

/-- `parent_path`. -/
def parentPath (p : Path) : Path := ⟨p.isAbsolute, p.names.dropLast⟩

/-- `filename`: the last name. -/
def filename (p : Path) : List Char := p.names.getLast?.getD []

/-- The names without the separator at the end. -/
def base (p : Path) : List (List Char) := if p.filename = [] then p.names.dropLast else p.names

/-- `operator/`: an absolute path on the right replaces the left one, and an empty one only adds a
separator. -/
def append (p q : Path) : Path :=
  if q.isAbsolute then q
  else ⟨p.isAbsolute, if q.names = [] ∧ p.base ≠ [] then p.base ++ [[]] else p.base ++ q.names⟩

/-- `fs::absolute` in the directory with the names `cwd` below the root. -/
def absolute (cwd : List (List Char)) (p : Path) : Path := append ⟨true, cwd⟩ p

/-! ## Normal form -/

/-- One name of the walk: the steps up so far, and the names gone down since, the last one first. -/
def walkName (w : Nat × List (List Char)) (n : List Char) : Nat × List (List Char) :=
  if n = [] ∨ n = dot then w
  else if n = dotdot then
    match w.2 with
    | [] => (w.1 + 1, [])
    | _ :: below => (w.1, below)
  else (w.1, n :: w.2)

def walk (names : List (List Char)) : Nat × List (List Char) := names.foldl walkName (0, [])

/-- How many steps a path goes up. -/
def ups (p : Path) : Nat := (walk p.names).1

/-- The names it goes down then. -/
def downs (p : Path) : List (List Char) := (walk p.names).2.reverse

/-- The names of the normal form; there is nothing above the root. -/
def normalNames (p : Path) : List (List Char) :=
  if p.isAbsolute then p.downs else List.replicate p.ups dotdot ++ p.downs

/-- `lexically_normal`. What is removed behind the last name leaves its separator, but not behind a
dot-dot. -/
def lexicallyNormal (p : Path) : Path :=
  ⟨p.isAbsolute,
    if p.normalNames = [] then (if p.isAbsolute ∨ p.names = [] then [] else [dot])
    else if (p.filename = [] ∨ p.filename = dot ∨ p.filename = dotdot) ∧ p.downs ≠ [] then
      p.normalNames ++ [[]]
    else p.normalNames⟩

/-- `f` is `dir` or is somewhere in it. -/
def Under (dir f : Path) : Prop := f.isAbsolute = dir.isAbsolute ∧ dir.base <+: f.base

instance Under.decidable (dir f : Path) : Decidable (Under dir f) :=
  inferInstanceAs (Decidable (_ ∧ _))

example : lexicallyNormal (ofText "/a//b/../c/./d/..".toList) = ofText "/a/c/".toList := by decide

example : lexicallyNormal (ofText "../a/../..".toList) = ofText "../..".toList := by decide

/-! ## The walk -/

theorem walkName_skip {n : List Char} (h : n = [] ∨ n = dot) (w : Nat × List (List Char)) :
    walkName w n = w := by
  rw [walkName, if_pos h]

theorem walkName_down {n : List Char} (h : ¬ (n = [] ∨ n = dot)) (hup : n ≠ dotdot)
    (w : Nat × List (List Char)) : walkName w n = (w.1, n :: w.2) := by
  rw [walkName, if_neg h, if_neg hup]

theorem walkName_up (k : Nat) : walkName (k, []) dotdot = (k + 1, []) := rfl

theorem walkName_back (k : Nat) (m : List Char) (st : List (List Char)) :
    walkName (k, m :: st) dotdot = (k, st) := rfl

theorem walk_append_singleton (names : List (List Char)) (n : List Char) :
    walk (names ++ [n]) = walkName (walk names) n := by
  rw [walk, List.foldl_append]
  rfl

/-- **A walk from somewhere.** The steps up take back the names that were there, the last ones first,
and what remains of them goes up further. -/
theorem foldl_walkName (names : List (List Char)) (u : Nat) (st : List (List Char)) :
    names.foldl walkName (u, st) =
      (u + ((walk names).1 - st.length), (walk names).2 ++ st.drop (walk names).1) := by
  induction names using List.reverseRecOn with
  | nil => simp [walk]
  | append_singleton names n ih =>
    rw [List.foldl_append, ih, walk_append_singleton]
    generalize walk names = w
    obtain ⟨k, s⟩ := w
    rw [List.foldl_cons, List.foldl_nil]
    by_cases hskip : n = [] ∨ n = dot
    · rw [walkName_skip hskip, walkName_skip hskip]
    by_cases hup : n = dotdot
    · subst hup
      cases s with
      | cons m s => rw [walkName_back]; rfl
      | nil =>
        -- no name of its own is left, so it takes back one of those before it, if there is one
        rw [walkName_up]
        simp only [List.nil_append]
        rcases Nat.lt_or_ge k st.length with hlt | hge
        · rw [List.drop_eq_getElem_cons hlt, walkName_back, Nat.sub_eq_zero_of_le hlt,
            Nat.sub_eq_zero_of_le hlt.le]
        · rw [List.drop_eq_nil_of_le hge, List.drop_eq_nil_of_le (Nat.le_succ_of_le hge), walkName_up,
            Nat.succ_sub hge]
          rfl
    · rw [walkName_down hskip hup, walkName_down hskip hup]
      rfl

theorem walk_append (xs ys : List (List Char)) :
    walk (xs ++ ys) = ((walk xs).1 + ((walk ys).1 - (walk xs).2.length),
      (walk ys).2 ++ (walk xs).2.drop (walk ys).1) := by
  rw [walk, List.foldl_append]
  exact foldl_walkName ys _ _

/-- No name that is left is empty. -/
theorem ne_nil_of_mem_walk {names : List (List Char)} :
    ∀ n ∈ (walk names).2, n ≠ [] := by
  induction names using List.reverseRecOn with
  | nil => exact fun n hn => nomatch hn
  | append_singleton names m ih =>
    rw [walk_append_singleton]
    by_cases hskip : m = [] ∨ m = dot
    · rwa [walkName_skip hskip]
    by_cases hup : m = dotdot
    · subst hup
      revert ih
      generalize walk names = w
      obtain ⟨k, s⟩ := w
      cases s with
      | nil => exact fun _ n hn => nomatch hn
      | cons n s => exact fun ih n hn => ih n (List.mem_cons_of_mem _ hn)
    · rw [walkName_down hskip hup]
      intro n hn
      rcases List.mem_cons.mp hn with rfl | hn
      · exact fun hnil => hskip (.inl hnil)
      · exact ih n hn

/-! ## The normal form of an absolute path -/

theorem base_concat_nil (b : Bool) (names : List (List Char)) :
    (Path.mk b (names ++ [[]])).base = names := by
  have hlast : (Path.mk b (names ++ [[]])).filename = [] := by
    rw [filename, List.getLast?_concat]
    rfl
  rw [base, if_pos hlast, List.dropLast_concat]

theorem base_of_forall_ne_nil (b : Bool) {names : List (List Char)} (h : ∀ n ∈ names, n ≠ []) :
    (Path.mk b names).base = names := by
  rcases List.eq_nil_or_concat names with rfl | ⟨ns, n, rfl⟩
  · rfl
  · have hlast : (Path.mk b (ns.concat n)).filename = n := by
      rw [filename, List.concat_eq_append, List.getLast?_concat]
      rfl
    rw [base, hlast, if_neg (h n (by simp))]

theorem base_lexicallyNormal {p : Path} (h : p.isAbsolute = true) :
    (lexicallyNormal p).base = p.downs := by
  have hnames : p.normalNames = p.downs := if_pos h
  have hne : ∀ n ∈ p.downs, n ≠ [] := fun n hn => ne_nil_of_mem_walk n (List.mem_reverse.mp hn)
  rw [lexicallyNormal, hnames]
  split
  · rename_i hnil
    rw [if_pos (.inl h), hnil]
    rfl
  · split
    · exact base_concat_nil _ _
    · exact base_of_forall_ne_nil _ hne

theorem isAbsolute_append {p : Path} (h : p.isAbsolute = true) (q : Path) :
    (append p q).isAbsolute = true := by
  unfold append
  split
  · assumption
  · exact h

/-- The separator at the end does not count. -/
theorem walk_base (p : Path) : walk p.base = walk p.names := by
  unfold base
  split
  · rename_i hlast
    rcases List.eq_nil_or_concat p.names with hnil | ⟨ns, n, hns⟩
    · rw [hnil]
      rfl
    · rw [filename, hns, List.concat_eq_append, List.getLast?_concat] at hlast
      have hn : n = [] := hlast
      rw [hns, List.concat_eq_append, List.dropLast_concat, walk_append_singleton,
        walkName_skip (.inl hn)]
  · rfl

/-- **A relative path behind a path**: the walk goes on from there. -/
theorem walk_names_append (p : Path) {q : Path} (h : q.isAbsolute = false) :
    walk (append p q).names = walk (p.names ++ q.names) := by
  have hgoesOn : walk (p.base ++ q.names) = walk (p.names ++ q.names) := by
    rw [walk_append, walk_base, ← walk_append]
  unfold append
  rw [h, if_neg Bool.false_ne_true]
  show walk (if _ then _ else _) = _
  split
  · rename_i hq
    rw [walk_append_singleton, walkName_skip (.inl rfl), ← hgoesOn, hq.1, List.append_nil]
  · exact hgoesOn

theorem downs_append (p : Path) {q : Path} (h : q.isAbsolute = false) :
    (append p q).downs = p.downs.take (p.downs.length - q.ups) ++ q.downs := by
  rw [downs, walk_names_append p h, walk_append, List.reverse_append, downs, List.length_reverse, ups,
    downs, List.reverse_drop]

/-- **Where a relative path stays.** It may leave a directory by steps up if it comes back: what it
goes down then begins with the names that were taken back. -/
theorem downs_isPrefix_append_iff (p : Path) {q : Path} (h : q.isAbsolute = false) :
    p.downs <+: (append p q).downs ↔ p.downs.drop (p.downs.length - q.ups) <+: q.downs := by
  rw [downs_append p h]
  nth_rewrite 1 [← List.take_append_drop (p.downs.length - q.ups) p.downs]
  exact List.prefix_append_right_inj _

/-! ## Inside a directory -/

/-- The name `q` stays inside the directory `dir`. -/
def StaysIn (dir q : Path) : Prop :=
  if q.isAbsolute then dir.downs <+: q.downs
  else dir.downs.drop (dir.downs.length - q.ups) <+: q.downs

theorem isPrefix_downs_append_iff (dir q : Path) :
    dir.downs <+: (append dir q).downs ↔ StaysIn dir q := by
  unfold StaysIn
  split
  · rename_i h
    rw [append, if_pos h]
  · rename_i h
    exact downs_isPrefix_append_iff dir (Bool.eq_false_iff.mpr h)

theorem under_lexicallyNormal_iff {dir f : Path} (hdir : dir.isAbsolute = true)
    (hf : f.isAbsolute = true) :
    Under (lexicallyNormal dir) (lexicallyNormal f) ↔ dir.downs <+: f.downs := by
  unfold Under
  rw [base_lexicallyNormal hdir, base_lexicallyNormal hf]
  exact and_iff_right (hf.trans hdir.symm)

/-- Three paths one behind the other go down the same way, whichever two are joined first. -/
theorem downs_append_append (p q r : Path) :
    (append p (append q r)).downs = (append (append p q) r).downs := by
  cases hr : r.isAbsolute with
  | true => simp only [append, hr, if_true]
  | false =>
    cases hq : q.isAbsolute with
    | true =>
      have hqr : (append q r).isAbsolute = true := isAbsolute_append hq r
      have hp : append p (append q r) = append q r := if_pos hqr
      have hpq : append p q = q := if_pos hq
      rw [hp, hpq]
    | false =>
      have hqr : (append q r).isAbsolute = false := by
        rw [append, hr, if_neg Bool.false_ne_true]
        exact hq
      rw [downs, downs, walk_names_append p hqr, walk_append, walk_names_append q hr, ← walk_append,
        walk_names_append (append p q) hr, walk_append (append p q).names, walk_names_append p hq,
        ← walk_append, List.append_assoc]

theorem filename_append (p q : Path) : (append p q).filename = q.filename := by
  unfold append
  split
  · rfl
  · show filename ⟨_, if _ then _ else _⟩ = _
    split
    · rename_i h
      rw [filename, List.getLast?_concat, filename, h.1]
      rfl
    · rename_i h
      rcases List.eq_nil_or_concat q.names with hnil | ⟨ns, n, hns⟩
      · have hbase : p.base = [] := Classical.not_not.mp fun hne => h ⟨hnil, hne⟩
        rw [filename, filename, hnil, hbase]
        rfl
      · rw [filename, filename, hns, List.concat_eq_append, ← List.append_assoc,
          List.getLast?_concat, List.getLast?_concat]

end Path

end Primitives.Lib
