import Mathlib.Data.List.Nodup
import Mathlib.Data.List.Perm.Basic
import Primitives.Files.Chunks

/-!
# Comparing directories

`compare_dirs` compares the files of two directories in the orders in which they are enumerated, the
first with the first and so on, and does not look at their names. So the answer is that of the contents
in these orders (`compareDirs_eq_true_iff`), and right in every order only where a tree is empty, the contents are other
ones, or the trees are the same and all files have one content (`compareDirs_iff`).
-/

set_option autoImplicit false

namespace Primitives.Files

-- relative paths, and bytes
variable {π α : Type}

/-! ## The code -/

/-- An entry of `recursive_directory_iterator`: its path below the directory, and what it holds if it is
a regular file. -/
structure DirEntry (π α : Type) where
  path : π
  regular : Option (List α)

/-- `traverse_dir`: the regular files, in the order of the enumeration; `none` if the directory is not
there. -/
def traverseDir (dir : Option (List (DirEntry π α))) : List (π × List α) :=
  match dir with
  | none => []
  | some entries => entries.filterMap fun f => f.regular.map (f.path, ·)

section

variable [DecidableEq α] (zero : α)

/-- The loop over the indices. -/
def compareAll : List (π × List α) → List (π × List α) → Except Failure (Option Bool)
  | f₁ :: files₁, f₂ :: files₂ => do
    match ← compareFiles zero f₁.2 f₂.2 with
    | some true => compareAll files₁ files₂
    | res => return res
  | _, _ => return some true

/-- `compare_dirs` -/
def compareDirs (dir₁ dir₂ : Option (List (DirEntry π α))) : Except Failure (Option Bool) :=
  let files₁ := traverseDir dir₁
  let files₂ := traverseDir dir₂
  if files₁.isEmpty then return some false
  else if files₂.isEmpty then return some false
  else if files₁.length ≠ files₂.length then return some false
  else compareAll zero files₁ files₂

end

/-! ## Trees -/

/-- The regular files of a directory, with their paths below it. -/
structure Tree (π α : Type) where
  files : List (π × List α)
  nodup_paths : (files.map Prod.fst).Nodup

/-- The files of the tree are enumerated, in some order. -/
def Enumerates (dir : Option (List (DirEntry π α))) (t : Tree π α) : Prop :=
  (traverseDir dir).Perm t.files

/-- Both trees have files, at the same paths, and those at one path have one content. -/
structure SameTrees (t₁ t₂ : Tree π α) : Prop where
  left_ne_nil : t₁.files ≠ []
  right_ne_nil : t₂.files ≠ []
  paths : ∀ p, p ∈ t₁.files.map Prod.fst ↔ p ∈ t₂.files.map Prod.fst
  contents : ∀ p c₁ c₂, (p, c₁) ∈ t₁.files → (p, c₂) ∈ t₂.files → c₁ = c₂

/-- The trees are the same if they have the same files. -/
theorem sameTrees_iff_perm (t₁ t₂ : Tree π α) :
    SameTrees t₁ t₂ ↔ t₁.files ≠ [] ∧ t₁.files.Perm t₂.files := by
  constructor
  · intro h
    refine ⟨h.left_ne_nil, ?_⟩
    rw [List.perm_ext_iff_of_nodup (List.Nodup.of_map _ t₁.nodup_paths)
      (List.Nodup.of_map _ t₂.nodup_paths)]
    rintro ⟨p, c⟩
    constructor
    · intro hmem
      obtain ⟨⟨p', c'⟩, hmem', rfl⟩ :=
        List.mem_map.mp ((h.paths p).mp (List.mem_map.mpr ⟨_, hmem, rfl⟩))
      rwa [h.contents _ c c' hmem hmem']
    · intro hmem
      obtain ⟨⟨p', c'⟩, hmem', rfl⟩ :=
        List.mem_map.mp ((h.paths p).mpr (List.mem_map.mpr ⟨_, hmem, rfl⟩))
      rwa [← h.contents _ c' c hmem' hmem]
  · rintro ⟨hne, hperm⟩
    refine ⟨hne, fun hnil => ?_, fun p => (hperm.map Prod.fst).mem_iff, ?_⟩
    · rw [hnil] at hperm
      exact hne hperm.eq_nil
    · intro p c₁ c₂ h₁ h₂
      exact congrArg Prod.snd
        (List.inj_on_of_nodup_map t₂.nodup_paths (hperm.mem_iff.mp h₁) h₂ rfl)

/-! ## Enumerations -/

/-- The contents of the files, in the order of the enumeration. -/
def contentsOf (dir : Option (List (DirEntry π α))) : List (List α) := (traverseDir dir).map Prod.snd

theorem Enumerates.eq_nil_iff {dir : Option (List (DirEntry π α))} {t : Tree π α}
    (h : Enumerates dir t) : traverseDir dir = [] ↔ t.files = [] := by
  constructor
  · intro hnil
    rw [Enumerates, hnil] at h
    exact h.symm.eq_nil
  · intro hnil
    rw [Enumerates, hnil] at h
    exact h.eq_nil

/-- The contents of a tree, each as often as there are files with it. -/
def Tree.contents (t : Tree π α) : List (List α) := t.files.map Prod.snd

/-- A directory that is enumerated in this order. -/
def dirOf (files : List (π × List α)) : Option (List (DirEntry π α)) :=
  some (files.map fun f => ⟨f.1, some f.2⟩)

theorem traverseDir_dirOf (files : List (π × List α)) : traverseDir (dirOf files) = files := by
  rw [dirOf, traverseDir, List.filterMap_map]
  exact List.filterMap_some

theorem enumerates_dirOf {files : List (π × List α)} {t : Tree π α} (h : files.Perm t.files) :
    Enumerates (dirOf files) t := by
  rwa [Enumerates, traverseDir_dirOf]

theorem contentsOf_dirOf (files : List (π × List α)) :
    contentsOf (dirOf files) = files.map Prod.snd := by
  rw [contentsOf, traverseDir_dirOf]

theorem Enumerates.contentsOf_perm {dir : Option (List (DirEntry π α))} {t : Tree π α}
    (h : Enumerates dir t) : (contentsOf dir).Perm t.contents := h.map Prod.snd

/-- Files can be enumerated in the order of their contents in another tree. -/
theorem exists_files_of_contents_perm {t₁ t₂ : Tree π α} (h : t₁.contents.Perm t₂.contents) :
    ∃ files : List (π × List α), files.Perm t₂.files ∧ files.map Prod.snd = t₁.contents := by
  have hall : List.Forall₂ (fun (c : List α) (f : π × List α) => c = f.2) t₂.contents t₂.files := by
    rw [Tree.contents, List.forall₂_map_left_iff]
    exact List.forall₂_same.mpr fun f _ => rfl
  obtain ⟨files, hfiles, hperm⟩ := List.perm_comp_forall₂ h hall
  refine ⟨files, hperm, ?_⟩
  have heq := List.forall₂_map_right_iff.mpr hfiles
  rw [List.forall₂_eq_eq_eq] at heq
  exact heq.symm

/-! ## The answer -/

variable [DecidableEq α]

theorem compareAll_iff (zero : α) {files₁ files₂ : List (π × List α)}
    (h : files₁.length = files₂.length) :
    compareAll zero files₁ files₂ = .ok (some true) ↔
      files₁.map Prod.snd = files₂.map Prod.snd := by
  induction files₁ generalizing files₂ with
  | nil =>
    obtain rfl := List.length_eq_zero_iff.mp h.symm
    exact iff_of_true rfl rfl
  | cons f₁ files₁ ih =>
    cases files₂ with
    | nil => cases h
    | cons f₂ files₂ =>
      rw [compareAll, compareFiles_eq, List.map_cons, List.map_cons, List.cons.injEq]
      by_cases heq : f₁.2 = f₂.2
      · rw [decide_eq_true heq, ← ih (Nat.succ.inj h)]
        exact (and_iff_right heq).symm
      · rw [decide_eq_false heq]
        refine iff_of_false (fun hres => ?_) fun hcontents => heq hcontents.1
        cases hres

/-- **The answer** is that of the contents, in the orders of the enumerations. -/
theorem compareDirs_eq_true_iff (zero : α) (dir₁ dir₂ : Option (List (DirEntry π α))) :
    compareDirs zero dir₁ dir₂ = .ok (some true) ↔
      traverseDir dir₁ ≠ [] ∧ contentsOf dir₁ = contentsOf dir₂ := by
  have hno : ¬ (Except.ok (some false) : Except Failure (Option Bool)) = .ok (some true) := by
    intro h
    cases h
  unfold compareDirs contentsOf
  dsimp only
  split
  · rename_i hempty
    exact iff_of_false hno fun h => h.1 (List.isEmpty_iff.mp hempty)
  rename_i hne₁
  have hne : traverseDir dir₁ ≠ [] := fun hnil => hne₁ (List.isEmpty_iff.mpr hnil)
  rw [and_iff_right hne]
  split
  · rename_i hempty
    refine iff_of_false hno fun h => hne ?_
    rw [List.isEmpty_iff.mp hempty, List.map_nil] at h
    exact List.map_eq_nil_iff.mp h
  split
  · rename_i hlen
    refine iff_of_false hno fun h => hlen ?_
    rw [← List.length_map Prod.snd, h, List.length_map]
  · rename_i hlen
    exact compareAll_iff zero (not_not.mp hlen)

/-- The answer of `compare_dirs` is whether the trees are the same. -/
def Answers (zero : α) (dir₁ dir₂ : Option (List (DirEntry π α))) (t₁ t₂ : Tree π α) : Prop :=
  compareDirs zero dir₁ dir₂ = .ok (some true) ↔ SameTrees t₁ t₂

/-- Trees that are not the same, enumerated with the same contents. -/
def Confused (dir₁ dir₂ : Option (List (DirEntry π α))) (t₁ t₂ : Tree π α) : Prop :=
  t₁.files ≠ [] ∧ contentsOf dir₁ = contentsOf dir₂ ∧ ¬ SameTrees t₁ t₂

/-- The same tree twice, enumerated with a content in the place of another. -/
def OutOfStep (dir₁ dir₂ : Option (List (DirEntry π α))) (t₁ t₂ : Tree π α) : Prop :=
  SameTrees t₁ t₂ ∧ contentsOf dir₁ ≠ contentsOf dir₂

/-- In given orders. -/
theorem answers_iff (zero : α) {dir₁ dir₂ : Option (List (DirEntry π α))} {t₁ t₂ : Tree π α}
    (h : Enumerates dir₁ t₁) : Answers zero dir₁ dir₂ t₁ t₂ ↔
      ¬ Confused dir₁ dir₂ t₁ t₂ ∧ ¬ OutOfStep dir₁ dir₂ t₁ t₂ := by
  have hsame := fun h : SameTrees t₁ t₂ => h.left_ne_nil
  rw [Answers, compareDirs_eq_true_iff, Ne, h.eq_nil_iff]
  unfold Confused OutOfStep
  tauto

/-! ## Every order -/

/-- The answer is right in every order: a tree is empty, there are other contents in the one than in the
other, or the trees are the same and all files have one content. -/
def Unmistakable (t₁ t₂ : Tree π α) : Prop :=
  t₁.files = [] ∨ t₂.files = [] ∨ ¬ t₁.contents.Perm t₂.contents ∨
    (SameTrees t₁ t₂ ∧ ∀ f ∈ t₁.files, ∀ g ∈ t₁.files, f.2 = g.2)

/-- Files with different contents can be enumerated so that the contents begin with another one. -/
theorem all_eq_of_answers {zero : α} {t₁ t₂ : Tree π α} (hsame : SameTrees t₁ t₂)
    (h : ∀ dir₁ dir₂, Enumerates dir₁ t₁ → Enumerates dir₂ t₂ → Answers zero dir₁ dir₂ t₁ t₂) :
    ∀ f ∈ t₁.files, ∀ g ∈ t₁.files, f.2 = g.2 := by
  intro f hf g hg
  obtain ⟨l, r, hsplit⟩ := List.append_of_mem hf
  obtain ⟨l', r', hsplit'⟩ := List.append_of_mem hg
  have hfiles : (f :: (l ++ r)).Perm t₁.files := by
    rw [hsplit]
    exact List.perm_middle.symm
  have hfiles' : (g :: (l' ++ r')).Perm t₂.files := by
    refine List.Perm.trans ?_ ((sameTrees_iff_perm t₁ t₂).mp hsame).2
    rw [hsplit']
    exact List.perm_middle.symm
  have hanswer := (h _ _ (enumerates_dirOf hfiles) (enumerates_dirOf hfiles')).mpr hsame
  rw [compareDirs_eq_true_iff, contentsOf_dirOf, contentsOf_dirOf, List.map_cons, List.map_cons,
    List.cons.injEq] at hanswer
  exact hanswer.2.1

theorem answers_every_order_iff (zero : α) (t₁ t₂ : Tree π α) :
    (∀ dir₁ dir₂, Enumerates dir₁ t₁ → Enumerates dir₂ t₂ → Answers zero dir₁ dir₂ t₁ t₂) ↔
      Unmistakable t₁ t₂ := by
  constructor
  · intro h
    by_cases hempty₁ : t₁.files = []
    · exact .inl hempty₁
    by_cases hcontents : t₁.contents.Perm t₂.contents
    · -- the contents can be enumerated in one order, and then the trees have to be the same
      obtain ⟨files, hperm, hfiles⟩ := exists_files_of_contents_perm hcontents
      have hanswer := h _ _ (enumerates_dirOf (List.Perm.refl t₁.files)) (enumerates_dirOf hperm)
      rw [Answers, compareDirs_eq_true_iff, contentsOf_dirOf, contentsOf_dirOf, traverseDir_dirOf,
        hfiles] at hanswer
      have hsame := hanswer.mp ⟨hempty₁, rfl⟩
      exact .inr (.inr (.inr ⟨hsame, all_eq_of_answers hsame h⟩))
    · exact .inr (.inr (.inl hcontents))
  · intro hsound dir₁ dir₂ h₁ h₂
    rw [Answers, compareDirs_eq_true_iff, Ne, h₁.eq_nil_iff]
    rcases hsound with hempty | hempty | hcontents | ⟨hsame, hall⟩
    · exact iff_of_false (fun h => h.1 hempty) fun h => h.left_ne_nil hempty
    · refine iff_of_false (fun h => ?_) fun h => h.right_ne_nil hempty
      have hnil : contentsOf dir₁ = [] := by
        rw [h.2, contentsOf, h₂.eq_nil_iff.mpr hempty, List.map_nil]
      exact h.1 (h₁.eq_nil_iff.mp (List.map_eq_nil_iff.mp hnil))
    · refine iff_of_false (fun h => hcontents ?_) fun h => hcontents ?_
      · exact h₁.contentsOf_perm.symm.trans (h.2 ▸ h₂.contentsOf_perm)
      · exact ((sameTrees_iff_perm t₁ t₂).mp h).2.map Prod.snd
    · refine iff_of_true ⟨hsame.left_ne_nil, ?_⟩ hsame
      -- there is one content, as often as there are files
      obtain ⟨f, hf⟩ := List.exists_mem_of_ne_nil _ hsame.left_ne_nil
      have hperm : (contentsOf dir₁).Perm (contentsOf dir₂) :=
        h₁.contentsOf_perm.trans
          ((((sameTrees_iff_perm t₁ t₂).mp hsame).2.map Prod.snd).trans h₂.contentsOf_perm.symm)
      have hone : ∀ c ∈ contentsOf dir₁, c = f.2 := by
        intro c hc
        obtain ⟨g, hg, rfl⟩ := List.mem_map.mp (h₁.contentsOf_perm.mem_iff.mp hc)
        exact (hall f hf g hg).symm
      rw [List.eq_replicate_of_mem hone,
        List.eq_replicate_of_mem fun c hc => hone c (hperm.mem_iff.mpr hc), hperm.length_eq]

/-- **Comparing directories.** In given orders the answer is whether the trees are the same, except for
trees that are not and have the same contents in these orders, and for one tree twice that has not. In
every order it is where a tree is empty, the contents are other ones, or the trees are the same and all
files have one content. -/
theorem compareDirs_iff (zero : α) (t₁ t₂ : Tree π α) :
    (∀ dir₁ dir₂, Enumerates dir₁ t₁ → Enumerates dir₂ t₂ →
        (Answers zero dir₁ dir₂ t₁ t₂ ↔
          ¬ Confused dir₁ dir₂ t₁ t₂ ∧ ¬ OutOfStep dir₁ dir₂ t₁ t₂)) ∧
      ((∀ dir₁ dir₂, Enumerates dir₁ t₁ → Enumerates dir₂ t₂ → Answers zero dir₁ dir₂ t₁ t₂) ↔
        Unmistakable t₁ t₂) :=
  ⟨fun _ _ h₁ _ => answers_iff zero h₁, answers_every_order_iff zero t₁ t₂⟩

/-- Two files of one content with different names. -/
theorem not_answers : ¬ ∀ (t₁ t₂ : Tree Bool Bool) (dir₁ dir₂ : Option (List (DirEntry Bool Bool))),
    Enumerates dir₁ t₁ → Enumerates dir₂ t₂ → Answers false dir₁ dir₂ t₁ t₂ := by
  intro hall
  have hanswer := hall ⟨[(true, [])], List.nodup_singleton _⟩ ⟨[(false, [])], List.nodup_singleton _⟩
    _ _ (enumerates_dirOf (List.Perm.refl _)) (enumerates_dirOf (List.Perm.refl _))
  have hsame := hanswer.mp ((compareDirs_eq_true_iff _ _ _).mpr ⟨List.cons_ne_nil _ _, rfl⟩)
  exact absurd ((hsame.paths true).mp (by decide)) (by decide)

end Primitives.Files
