import Primitives.Basic
import Primitives.Lib.Exec
import Primitives.Lib.Extents
import Primitives.Lib.Path

/-!
# Unpacking an archive

`unpack_file` joins the name of every regular entry to the destination and writes the file of that path.
It looks at the last component of a name only: an absolute name replaces the destination, and steps up
in front of the last component leave it. So a file stays in the destination exactly where its name does
(`unpackFile_stays_iff`).

The archive is read by libarchive, which is not part of the repository. An archive is what its calls
give, and with every entry come the answers of the file system to what is done with it.
-/

set_option autoImplicit false

namespace Primitives.Pack

open Lib

/-- An entry, with the blocks of its data; after them the data ends or cannot be read. -/
structure Entry where
  isRegular : Bool
  pathname : Option Str
  blocks : List Str
  ends : Bool
deriving DecidableEq, Repr

/-- What the file system lets be done. -/
structure Answers where
  /-- The directory of the file is there or is made. -/
  hasDirectory : Bool
  /-- The file is opened for writing. -/
  opens : Bool
deriving DecidableEq, Repr

/-- What `archive_read_next_header` gives. A warning is printed and the entry is taken. -/
inductive Header where
  | retry
  | fatal
  | entry (e : Entry) (answers : Answers)
deriving DecidableEq, Repr

/-- The headers up to the end, if the archive can be opened. -/
structure Archive where
  opens : Bool
  headers : List Header
deriving DecidableEq, Repr

inductive Failure where
  | archive
  | directory
  | cannotOpen
deriving DecidableEq, Repr

/-- The files that are written, with what is written to them. -/
abbrev Disk : Type := List (Path × Str)

/-! ## Unpacking -/

section

-- the current directory, and `dest_dir`
variable (cwd : List Str) (destDir : Path)

def write (f : Path) (data : Str) : Exec Failure Disk Unit := do
  Exec.put ((← Exec.gets id) ++ [(f, data)])

/-- One entry; `files` is the set of the files so far. -/
def unpackEntry (files : List Path) (e : Entry) (answers : Answers) :
    Exec Failure Disk (List Path) :=
  -- act on regular files only
  if e.isRegular = false then pure files
  else
    match e.pathname with
    | none => pure files
    | some fn =>
      let f := destDir.append (.ofText fn)
      if answers.hasDirectory = false then Exec.throw .directory
      else if f.filename = Path.dot ∨ f.filename = Path.dotdot then pure files
      else if answers.opens = false then Exec.throw .cannotOpen
      else do
        write (f.absolute cwd) e.blocks.flatten
        if e.ends = false then Exec.throw .archive else pure (files.insert (f.absolute cwd))

def unpackEntries : List Header → List Path → Exec Failure Disk (List Path)
  | [], files => pure files
  | .retry :: hs, files => unpackEntries hs files
  | .fatal :: _, _ => Exec.throw .archive
  | .entry e answers :: hs, files => do
    unpackEntries hs (← unpackEntry cwd destDir files e answers)

/-- `unpack_file`; `ready` is whether `dest_dir` is there or is made. -/
def unpackFile (ready : Bool) (archive : Archive) : Exec Failure Disk (List Path) :=
  if ready = false then Exec.throw .directory
  else if archive.opens = false then Exec.throw .archive
  else unpackEntries cwd destDir archive.headers []

end

/-! ## The entries that are opened -/

/-- The last component of a name is `.` or `..`. -/
def isDots (fn : Str) : Bool :=
  decide ((Path.ofText fn).filename = Path.dot ∨ (Path.ofText fn).filename = Path.dotdot)

/-- The name of the file that is opened for a header, where there is one. -/
def Header.opens : Header → Option Str
  | .entry e answers =>
    if e.isRegular && answers.hasDirectory && answers.opens then
      e.pathname.filter fun fn => !isDots fn
    else none
  | _ => none

/-- The headers behind this one are read. -/
def Header.passes : Header → Bool
  | .retry => true
  | .fatal => false
  | .entry e answers =>
    !e.isRegular || e.pathname.elim true fun fn =>
      answers.hasDirectory && (isDots fn || (answers.opens && e.ends))

/-- The file of a name is opened. -/
inductive Opened (fn : Str) : List Header → Prop
  | here {h : Header} {hs : List Header} : h.opens = some fn → Opened fn (h :: hs)
  | later {h : Header} {hs : List Header} : h.passes = true → Opened fn hs → Opened fn (h :: hs)

theorem opened_cons_iff {fn : Str} {h : Header} {hs : List Header} :
    Opened fn (h :: hs) ↔ h.opens = some fn ∨ (h.passes = true ∧ Opened fn hs) := by
  constructor
  · intro hopened
    cases hopened with
    | here hfn => exact .inl hfn
    | later hpass hlater => exact .inr ⟨hpass, hlater⟩
  · rintro (hfn | ⟨hpass, hlater⟩)
    · exact .here hfn
    · exact .later hpass hlater

/-- **One entry** writes the file that it opens, and throws unless the headers behind it are read. -/
theorem unpackEntry_eq (cwd : List Str) (destDir : Path) (files : List Path) (e : Entry) (answers : Answers) (s : Disk) :
    ∃ res, unpackEntry cwd destDir files e answers s =
        (res, s ++ ((Header.entry e answers).opens.map fun fn =>
          ((destDir.append (.ofText fn)).absolute cwd, e.blocks.flatten)).toList) ∧
      (Header.entry e answers).passes = res.toBool := by
  have hnil : ∀ res : Except Failure (List Path), (res, s) = (res, s ++ []) :=
    fun res => congrArg _ (List.append_nil s).symm
  obtain ⟨regular, pathname, blocks, ends⟩ := e
  obtain ⟨hasDirectory, opens⟩ := answers
  cases regular with
  | false => exact ⟨.ok files, hnil _, rfl⟩
  | true =>
  cases pathname with
  | none =>
    have hopens : (Header.entry ⟨true, none, blocks, ends⟩ ⟨hasDirectory, opens⟩).opens = none :=
      ite_self none
    rw [hopens]
    exact ⟨.ok files, hnil _, rfl⟩
  | some fn =>
  cases hasDirectory with
  | false => exact ⟨.error .directory, hnil _, rfl⟩
  | true =>
  unfold unpackEntry
  dsimp only
  rw [Path.filename_append, if_neg Bool.noConfusion, if_neg Bool.noConfusion]
  by_cases hdot : (Path.ofText fn).filename = Path.dot ∨ (Path.ofText fn).filename = Path.dotdot
  · have hdots : isDots fn = true := decide_eq_true hdot
    have hopens : (Header.entry ⟨true, some fn, blocks, ends⟩ ⟨true, opens⟩).opens = none := by
      simp [Header.opens, hdots]
    rw [hopens, if_pos hdot]
    exact ⟨.ok files, hnil _, by simp [Header.passes, hdots, Except.toBool]⟩
  have hdots : isDots fn = false := decide_eq_false hdot
  rw [if_neg hdot]
  cases opens with
  | false => exact ⟨.error .cannotOpen, hnil _, by simp [Header.passes, hdots, Except.toBool]⟩
  | true =>
  have hopens : (Header.entry ⟨true, some fn, blocks, ends⟩ ⟨true, true⟩).opens = some fn := by
    simp [Header.opens, hdots]
  rw [hopens]
  cases ends with
  | false => exact ⟨.error .archive, rfl, by simp [Header.passes, hdots, Except.toBool]⟩
  | true => exact ⟨.ok _, rfl, by simp [Header.passes, Except.toBool]⟩

/-- **A run** writes the files that are opened, behind what is on the disk. -/
theorem unpackEntries_forall_iff (cwd : List Str) (destDir : Path) {p : Path → Prop} (hs : List Header) :
    ∀ (files : List Path) (s : Disk),
      (∀ w ∈ (unpackEntries cwd destDir hs files s).2, p w.1) ↔
        (∀ w ∈ s, p w.1) ∧
          ∀ fn, Opened fn hs → p ((destDir.append (.ofText fn)).absolute cwd) := by
  induction hs with
  | nil => exact fun files s => (and_iff_left fun fn h => nomatch h).symm
  | cons h hs ih =>
    intro files s
    cases h with
    | retry =>
      show (∀ w ∈ (unpackEntries cwd destDir hs files s).2, p w.1) ↔ _
      rw [ih]
      simp only [opened_cons_iff, Header.opens, Header.passes, reduceCtorEq, true_and, false_or]
    | fatal =>
      show (∀ w ∈ s, p w.1) ↔ _
      simp only [opened_cons_iff, Header.opens, Header.passes, reduceCtorEq, false_and, or_self,
        false_implies, implies_true, and_true]
    | entry e answers =>
      obtain ⟨res, heq, hpass⟩ :=
        unpackEntry_eq cwd destDir files e answers s
      have hhead : (∀ w ∈ ((Header.entry e answers).opens.map fun fn =>
            ((destDir.append (.ofText fn)).absolute cwd, e.blocks.flatten)).toList, p w.1) ↔
          ∀ fn, (Header.entry e answers).opens = some fn →
            p ((destDir.append (.ofText fn)).absolute cwd) := by
        cases (Header.entry e answers).opens with
        | none => exact iff_of_true (fun w hw => nomatch hw) fun fn hfn => nomatch hfn
        | some fn => simp only [Option.map_some, Option.toList_some, List.forall_mem_singleton,
            Option.some.injEq, forall_eq']
      simp only [opened_cons_iff, or_imp, forall_and, ← hhead, hpass]
      show (∀ w ∈ ((unpackEntry cwd destDir files e answers >>=
        unpackEntries cwd destDir hs) s).2, p w.1) ↔ _
      cases res with
      | error failure =>
        rw [Exec.bind_of_error heq, List.forall_mem_append]
        exact and_congr_right fun _ => (and_iff_left fun fn h => nomatch h.1).symm
      | ok files' =>
        rw [Exec.bind_of_ok heq, ih, List.forall_mem_append, and_assoc]
        simp only [Except.toBool, true_and]

/-! ## Staying in the destination -/

/-- **Every file stays in the destination** exactly if the name of every file that is opened does. -/
theorem unpackFile_stays_iff (cwd : List Str) (destDir : Path) (ready : Bool) (archive : Archive) :
    (∀ w ∈ (unpackFile cwd destDir ready archive []).2,
      Path.Under (destDir.absolute cwd).lexicallyNormal w.1.lexicallyNormal) ↔
    (ready = true → archive.opens = true → ∀ fn, Opened fn archive.headers →
      (destDir.absolute cwd).StaysIn (.ofText fn)) := by
  have hname : ∀ fn, Path.Under (destDir.absolute cwd).lexicallyNormal
        ((destDir.append (.ofText fn)).absolute cwd).lexicallyNormal ↔
      (destDir.absolute cwd).StaysIn (.ofText fn) := by
    intro fn
    have habsolute : ∀ q : Path, (q.absolute cwd).isAbsolute = true :=
      fun q => Path.isAbsolute_append (p := ⟨true, cwd⟩) rfl q
    rw [Path.under_lexicallyNormal_iff (habsolute _) (habsolute _), ← Path.isPrefix_downs_append_iff,
      Path.absolute, Path.absolute, Path.downs_append_append]
  unfold unpackFile
  cases ready with
  | false => exact iff_of_true (fun w hw => nomatch hw) fun h => nomatch h
  | true =>
  cases hopens : archive.opens with
  | false => exact iff_of_true (fun w hw => nomatch hw) fun _ h => nomatch h
  | true =>
  have hrun := unpackEntries_forall_iff cwd destDir
    (p := fun f => Path.Under (destDir.absolute cwd).lexicallyNormal f.lexicallyNormal)
    archive.headers [] []
  simp only [hname, List.not_mem_nil, false_implies, implies_true, true_and] at hrun
  simp only [forall_const]
  exact hrun

/-- An archive with one file that is named from the directory above. -/
def evil : Archive :=
  ⟨true, [.entry ⟨true, some ['.', '.', '/', 'e', 'v', 'i', 'l'], [['x']], true⟩ ⟨true, true⟩]⟩

/-- The file is written above the destination `/home/out`. -/
theorem not_stays :
    ¬ ∀ (cwd : List Str) (destDir : Path) (ready : Bool) (archive : Archive),
      ∀ w ∈ (unpackFile cwd destDir ready archive []).2,
        Path.Under (destDir.absolute cwd).lexicallyNormal w.1.lexicallyNormal := by
  intro hall
  have hfile := hall [] (.ofText ['/', 'o', 'u', 't']) true evil
    (⟨true, [['o', 'u', 't'], Path.dotdot, ['e', 'v', 'i', 'l']]⟩, ['x']) (List.mem_singleton.mpr rfl)
  revert hfile
  decide

/-! ## The data of an entry

libarchive gives the data of an entry in blocks, each with its offset in the file, and no block for what
is zero. `unpack_file` does not look at the offsets: it writes one block behind the other. So the file
has what the entry has exactly where no hole is before a block (`unpackEntry_content_iff`). -/

/-- What `archive_read_data_block` gives for an entry, block by block: none begins before the end of the
one before it. -/
structure Delivered where
  blocks : List (Block Char)
  ordered : InOrder blocks

/-- A regular entry with these blocks. Of a block its `buff` and its `size` are read. -/
def Delivered.entry (d : Delivered) (pathname : Option Str) (ends : Bool) : Entry :=
  ⟨true, pathname, d.blocks.map Block.data, ends⟩

/-- The file has the byte of the entry at every offset up to the end of the last block; where no block
is, that is a zero. -/
def Delivered.Extracted (d : Delivered) (content : Str) : Prop := IsSequence '\x00' d.blocks content

/-- **The content of a file** that is opened for an entry is that of the entry exactly if every block
begins where those before it end. -/
theorem unpackEntry_content_iff (cwd : List Str) (destDir : Path) (files : List Path) (d : Delivered)
    (pathname : Option Str) (ends : Bool) (answers : Answers) (s : Disk) (fn : Str)
    (h : (Header.entry (d.entry pathname ends) answers).opens = some fn) :
    ∃ content, (unpackEntry cwd destDir files (d.entry pathname ends) answers s).2 =
        s ++ [((destDir.append (.ofText fn)).absolute cwd, content)] ∧
      (d.Extracted content ↔ NoHoles d.blocks) := by
  obtain ⟨res, heq, -⟩ :=
    unpackEntry_eq cwd destDir files (d.entry pathname ends) answers s
  rw [h] at heq
  exact ⟨_, congrArg Prod.snd heq, isSequence_iff_noHoles '\x00' d.ordered⟩

/-- Two blocks, the second of which begins where the first one ends. -/
def twoBlocks : Delivered := ⟨[⟨['a'], 0⟩, ⟨['b'], 1⟩], by simp [InOrder, Block.stop]⟩

/-- Their file is that of the entry. -/
theorem unpackEntry_content_twoBlocks : ∃ content,
    (unpackEntry [] (.ofText ['o']) [] (twoBlocks.entry (some ['f']) true) ⟨true, true⟩ []).2 =
        [] ++ [(((Path.ofText ['o']).append (.ofText ['f'])).absolute [], content)] ∧
      twoBlocks.Extracted content := by
  obtain ⟨content, hwritten, hiff⟩ := unpackEntry_content_iff [] (.ofText ['o']) [] twoBlocks
    (some ['f']) true ⟨true, true⟩ [] ['f'] (by decide)
  refine ⟨content, hwritten, hiff.mpr ?_⟩
  intro pre b post h
  match pre, h with
  | [], h => cases h; rfl
  | [_], h => cases h; rfl
  | _ :: _ :: pre, h => simp [twoBlocks] at h

/-- A block behind a hole. -/
def behindHole : Delivered := ⟨[⟨['a'], 1⟩], List.pairwise_singleton _ _⟩

/-- It is written to the beginning of the file. -/
theorem not_extracted : ¬ ∀ (cwd : List Str) (destDir : Path) (files : List Path) (d : Delivered)
    (pathname : Option Str) (ends : Bool) (answers : Answers) (s : Disk) (fn : Str),
    (Header.entry (d.entry pathname ends) answers).opens = some fn →
      ∃ content, (unpackEntry cwd destDir files (d.entry pathname ends) answers s).2 =
          s ++ [((destDir.append (.ofText fn)).absolute cwd, content)] ∧ d.Extracted content := by
  intro hall
  obtain ⟨content, hwritten, hextracted⟩ := hall [] (.ofText ['o']) [] behindHole (some ['f']) true
    ⟨true, true⟩ [] ['f'] (by decide)
  have hfile : (unpackEntry [] (.ofText ['o']) [] (behindHole.entry (some ['f']) true)
      ⟨true, true⟩ []).2 =
        [] ++ [(((Path.ofText ['o']).append (.ofText ['f'])).absolute [], ['a'])] := by decide
  rw [hfile] at hwritten
  obtain rfl : ['a'] = content := congrArg Prod.snd (List.singleton_inj.mp hwritten)
  -- the first byte of the entry is a zero
  obtain ⟨x, hx, ⟨b, hb, hle, -⟩ | ⟨-, rfl⟩⟩ := hextracted 0 (by decide)
  · rw [List.mem_singleton.mp hb] at hle
    exact absurd hle (by decide)
  · exact absurd hx (by decide)

end Primitives.Pack
