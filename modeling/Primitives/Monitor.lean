import Mathlib.Data.Finset.Lattice.Lemmas
import Mathlib.Data.List.AList
import Primitives.Basic
import Primitives.Lib.Path

/-!
# File monitor

A monitor holds one record for each directory, with the names of the files in it that are watched.
`addFile` is called for a file or for a directory; a directory without names stands for all its files.
So the names of a directory say two things, and a directory that is added itself and for a file in it
is watched for the files only (`hasFile_run_iff`).

After a run of calls the record of a directory has the names of the files that were added in it
(`Recorded.run`). So a file stays watched, and a directory does if and only if no file was added in it,
before or after (`kept_iff`): with a first name, the record says that the other files are not watched.

What is on disk is not part of the monitor: the status that a call finds comes with the call. The
libuv handle of a record is left out, and so are the locks, which make each call one step.
-/

set_option autoImplicit false

namespace Primitives.Monitor

open Lib

/-! ## Paths -/

/-- `normalize_string`: every backslash becomes a slash. -/
def normalizeString (s : Str) : Str := s.map fun c => if c = '\\' then '/' else c

/-- `set_uppercase_disk`. -/
def setUppercaseDisk : Str → Str
  | c :: ':' :: s => c.toUpper :: ':' :: s
  | s => s

/-- `normalize_path`. -/
def normalizePath (p : Path) : Path :=
  if p.isEmpty then ⟨false, []⟩ else Path.ofText (setUppercaseDisk (normalizeString p.text))

/-- The path of a file name. -/
def ofFilename (n : Str) : Path := ⟨false, if n = [] then [] else [n]⟩

/-- A text that can name a file in a directory. -/
def IsFilename (n : Str) : Prop := n ≠ [] ∧ '/' ∉ n

/-! ## The monitor -/

/-- What `fs::is_regular_file` finds: a regular file, a directory, something else, or an error. -/
inductive FileType where
  | regular
  | directory
  | other
  | error
deriving DecidableEq, Repr

structure Record where
  dir : Path
  recursive : Bool

structure Holder where
  r : Record
  files : Finset Path

structure FileMonitor where
  dirFiles : AList fun _ : Path => Holder
  stopped : Bool

/-- A monitor as it is constructed. -/
def new : FileMonitor := ⟨∅, false⟩

/-- A call of `addFile`, with what it finds at its path. There is nothing at an empty path. -/
structure Call where
  p : Path
  recursive : Bool
  status : FileType
  status_empty : p.isEmpty = true → status = .error

namespace FileMonitor

/-- `addFile`. -/
def addFile (m : FileMonitor) (c : Call) : FileMonitor :=
  if m.stopped then m
  else if c.p.isEmpty then m
  else
    let isDir := c.status ≠ .regular
    let dir := if isDir then c.p else c.p.parentPath
    if c.status = .error then m
    else
      let dir := normalizePath dir
      match m.dirFiles.lookup dir with
      | some di =>
        if isDir then m
        else
          let di := { di with files := insert (ofFilename c.p.filename) di.files }
          { m with dirFiles := m.dirFiles.insert dir di }
      | none =>
        let files := if isDir then ∅ else {ofFilename c.p.filename}
        { m with dirFiles := m.dirFiles.insert dir ⟨⟨dir, c.recursive⟩, files⟩ }

/-- `stop`: the watchers are stopped, and stay. -/
def stop (m : FileMonitor) : FileMonitor := { m with stopped := true }

/-- `has_file`. -/
def hasFile (m : FileMonitor) (dir fn : Path) : Bool :=
  match m.dirFiles.lookup dir with
  | none => false
  | some di => di.files = ∅ || fn ∈ di.files

end FileMonitor

/-- A monitor after the calls. -/
def run (cs : List Call) : FileMonitor := cs.foldl FileMonitor.addFile new

/-! ## What a call registers -/

/-- The directory that a call is about. -/
def Call.dir (c : Call) : Path :=
  normalizePath (if c.status ≠ .regular then c.p else c.p.parentPath)

/-- The call makes or finds the record of `dir`. -/
def Call.Registers (c : Call) (dir : Path) : Prop := c.status ≠ .error ∧ c.dir = dir

instance Call.Registers.decidable (c : Call) (dir : Path) : Decidable (c.Registers dir) :=
  inferInstanceAs (Decidable (_ ∧ _))

/-- The names that the call adds to the record. -/
def Call.names (c : Call) : Finset Path :=
  if c.status = .regular then {ofFilename c.p.filename} else ∅

namespace FileMonitor

/-- The names in the record of `dir`, if there is one. -/
def namesOf (m : FileMonitor) (dir : Path) : Option (Finset Path) :=
  (m.dirFiles.lookup dir).map Holder.files

theorem hasFile_iff (m : FileMonitor) (dir fn : Path) :
    m.hasFile dir fn = true ↔ ∃ names, m.namesOf dir = some names ∧ (names = ∅ ∨ fn ∈ names) := by
  unfold hasFile namesOf
  cases m.dirFiles.lookup dir with
  | none => simp
  | some di => simp

theorem namesOf_insert (m : FileMonitor) (dir : Path) (di : Holder) (dir' : Path) :
    namesOf { m with dirFiles := m.dirFiles.insert dir di } dir' =
      if dir = dir' then some di.files else m.namesOf dir' := by
  unfold namesOf
  by_cases h : dir = dir'
  · subst h
    rw [AList.lookup_insert, if_pos rfl]
    rfl
  · rw [AList.lookup_insert_ne (Ne.symm h), if_neg h]

/-- **One call.** It makes the record of its directory, or finds it, and adds its names there. -/
theorem addFile_spec {m : FileMonitor} (h : m.stopped = false) (c : Call) :
    (m.addFile c).stopped = false ∧ ∀ dir, (m.addFile c).namesOf dir =
      if c.Registers dir then some (c.names ∪ (m.namesOf dir).getD ∅) else m.namesOf dir := by
  unfold addFile
  rw [if_neg (Bool.eq_false_iff.mp h)]
  by_cases hstatus : c.status = .error
  · have hno : ∀ dir, ¬ c.Registers dir := fun dir hr => hr.1 hstatus
    simp only [if_pos hstatus, ite_self, if_neg (hno _)]
    exact ⟨h, fun _ => trivial⟩
  · have hne : ¬ c.p.isEmpty = true := fun he => hstatus (c.status_empty he)
    have hregisters : ∀ dir, c.Registers dir ↔ c.dir = dir := fun dir => and_iff_right hstatus
    simp only [if_neg hne, if_neg hstatus, hregisters]
    rw [← Call.dir]
    cases hdi : m.dirFiles.lookup c.dir with
    | none =>
      have hnames : m.namesOf c.dir = none := by rw [namesOf, hdi]; rfl
      refine ⟨h, fun dir => (namesOf_insert m _ _ dir).trans ?_⟩
      split
      · rename_i hdir
        rw [← hdir, hnames, Option.getD_none, Finset.union_empty, Call.names]
        by_cases hreg : c.status = .regular
        · rw [if_neg (not_not_intro hreg), if_pos hreg]
        · rw [if_pos hreg, if_neg hreg]
      · rfl
    | some di =>
      have hnames : m.namesOf c.dir = some di.files := by rw [namesOf, hdi]; rfl
      dsimp only
      by_cases hreg : c.status = .regular
      · rw [if_neg (not_not_intro hreg), Call.names, if_pos hreg]
        refine ⟨h, fun dir => (namesOf_insert m _ _ dir).trans ?_⟩
        split
        · rename_i hdir
          rw [← hdir, hnames]
          rfl
        · rfl
      · rw [if_pos hreg, Call.names, if_neg hreg]
        refine ⟨h, fun dir => ?_⟩
        split
        · rename_i hdir
          rw [← hdir, hnames, Finset.empty_union]
          rfl
        · rfl

end FileMonitor

/-! ## The records after a run -/

variable {cs : List Call} {c : Call} {m : FileMonitor} {dir fn : Path}

/-- The records are those that the calls registered. -/
structure Recorded (cs : List Call) (m : FileMonitor) : Prop where
  stopped : m.stopped = false
  dirs : ∀ dir, (m.namesOf dir).isSome = true ↔ ∃ c ∈ cs, c.Registers dir
  names : ∀ dir fn, fn ∈ (m.namesOf dir).getD ∅ ↔ ∃ c ∈ cs, c.Registers dir ∧ fn ∈ c.names

theorem exists_mem_concat {p : Call → Prop} :
    (∃ d ∈ cs ++ [c], p d) ↔ (∃ d ∈ cs, p d) ∨ p c := by
  simp only [List.mem_append, List.mem_singleton, or_and_right, exists_or, exists_eq_left]

theorem Recorded.addFile (h : Recorded cs m) (c : Call) : Recorded (cs ++ [c]) (m.addFile c) := by
  obtain ⟨hstopped, hspec⟩ := FileMonitor.addFile_spec h.stopped c
  refine ⟨hstopped, fun dir => ?_, fun dir fn => ?_⟩
  · rw [exists_mem_concat, ← h.dirs, hspec dir]
    by_cases hr : c.Registers dir
    · rw [if_pos hr]
      exact iff_of_true rfl (.inr hr)
    · rw [if_neg hr, or_iff_left hr]
  · rw [exists_mem_concat, ← h.names, hspec dir]
    by_cases hr : c.Registers dir
    · rw [if_pos hr, Option.getD_some, Finset.mem_union, or_comm, and_iff_right hr]
    · rw [if_neg hr, or_iff_left fun h => hr h.1]

theorem Recorded.run (cs : List Call) : Recorded cs (run cs) := by
  induction cs using List.reverseRecOn with
  | nil => exact ⟨rfl, fun dir => by simp [Monitor.run, new, FileMonitor.namesOf],
      fun dir fn => by simp [Monitor.run, new, FileMonitor.namesOf]⟩
  | append_singleton cs c ih =>
    rw [Monitor.run, List.foldl_append]
    exact ih.addFile c

/-- **What is watched after a run of calls**: a file of a directory that was registered, if no file
was added there or if this file was. -/
theorem hasFile_run_iff : (run cs).hasFile dir fn = true ↔
    (∃ c ∈ cs, c.Registers dir) ∧
      ((∀ c ∈ cs, c.Registers dir → c.names = ∅) ∨ ∃ c ∈ cs, c.Registers dir ∧ fn ∈ c.names) := by
  have hrun := Recorded.run cs
  rw [FileMonitor.hasFile_iff, ← hrun.dirs, ← hrun.names]
  have hempty : (∀ c ∈ cs, c.Registers dir → c.names = ∅) ↔ ((run cs).namesOf dir).getD ∅ = ∅ := by
    simp only [Finset.eq_empty_iff_forall_notMem, hrun.names]
    constructor
    · rintro hall x ⟨c, hc, hr, hx⟩
      exact hall c hc hr x hx
    · intro hno c hc hr x hx
      exact hno x ⟨c, hc, hr, hx⟩
  rw [hempty]
  cases (run cs).namesOf dir with
  | none => simp
  | some names => simp

/-! ## Promises -/

/-- What a call is for: the file is watched, or all files of the directory are. -/
structure Promise (c : Call) (m : FileMonitor) : Prop where
  file : c.status = .regular →
    m.hasFile (normalizePath c.p.parentPath) (ofFilename c.p.filename) = true
  directory : c.status = .directory →
    ∀ n, IsFilename n → m.hasFile (normalizePath c.p) (ofFilename n) = true

/-- Every call of the run keeps its promise, from then on. -/
def Kept (cs : List Call) : Prop :=
  ∀ before c after, before ++ c :: after <+: cs → Promise c (run (before ++ c :: after))

theorem Call.registers_file (h : c.status = .regular) :
    c.Registers (normalizePath c.p.parentPath) := by
  refine ⟨fun he => ?_, ?_⟩
  · rw [h] at he
    cases he
  · rw [Call.dir, if_neg (not_not_intro h)]

theorem Call.registers_directory (h : c.status = .directory) : c.Registers (normalizePath c.p) := by
  have hne : c.status ≠ .regular := by
    rw [h]
    intro he
    cases he
  refine ⟨fun he => ?_, ?_⟩
  · rw [h] at he
    cases he
  · rw [Call.dir, if_pos hne]

/-- A call with names is a call for a file. -/
theorem Call.regular_of_mem (h : fn ∈ c.names) :
    c.status = .regular ∧ ofFilename c.p.filename = fn := by
  unfold Call.names at h
  split at h
  · exact ⟨‹_›, (Finset.mem_singleton.mp h).symm⟩
  · exact absurd h (Finset.notMem_empty fn)

/-- **A file stays watched.** -/
theorem hasFile_of_regular (hc : c ∈ cs) (h : c.status = .regular) :
    (run cs).hasFile (normalizePath c.p.parentPath) (ofFilename c.p.filename) = true := by
  have hr := Call.registers_file h
  refine hasFile_run_iff.mpr ⟨⟨c, hc, hr⟩, .inr ⟨c, hc, hr, ?_⟩⟩
  rw [Call.names, if_pos h]
  exact Finset.mem_singleton_self _

theorem ofFilename_injective : Function.Injective ofFilename := by
  intro n n' h
  have hnames : (if n = [] then [] else [n]) = if n' = [] then [] else [n'] := congrArg Path.names h
  split at hnames <;> split at hnames
  · rename_i hn hn'
    rw [hn, hn']
  · cases hnames
  · cases hnames
  · exact List.singleton_injective hnames

/-- There is a name longer than those that were added. -/
theorem exists_filename (cs : List Call) :
    ∃ n, IsFilename n ∧ ∀ c ∈ cs, ofFilename c.p.filename ≠ ofFilename n := by
  refine ⟨List.replicate ((cs.map fun c => c.p.filename).flatten.length + 1) 'x', ⟨?_, ?_⟩, ?_⟩
  · intro h
    cases h
  · intro h
    cases List.eq_of_mem_replicate h
  · intro c hc heq
    have hmem : c.p.filename ∈ cs.map fun c => c.p.filename := List.mem_map.mpr ⟨c, hc, rfl⟩
    have hle := (List.sublist_flatten_of_mem hmem).length_le
    have hlen := congrArg List.length (ofFilename_injective heq)
    rw [List.length_replicate] at hlen
    omega

/-- **A directory stays watched as long as no file is added in it.** -/
theorem hasFile_directory_iff (hc : c ∈ cs) (h : c.status = .directory) :
    (∀ n, IsFilename n → (run cs).hasFile (normalizePath c.p) (ofFilename n) = true) ↔
      ∀ f ∈ cs, f.status = .regular → normalizePath f.p.parentPath ≠ normalizePath c.p := by
  have hr := Call.registers_directory h
  constructor
  · intro hall f hf hreg hdir
    obtain ⟨n, hn, hfresh⟩ := exists_filename cs
    have hrf := Call.registers_file hreg
    rw [hdir] at hrf
    obtain ⟨-, hno | ⟨d, hd, -, hmem⟩⟩ := hasFile_run_iff.mp (hall n hn)
    · have hnames := hno f hf hrf
      rw [Call.names, if_pos hreg] at hnames
      exact Finset.singleton_ne_empty _ hnames
    · exact hfresh d hd (Call.regular_of_mem hmem).2
  · intro hno n _
    refine hasFile_run_iff.mpr ⟨⟨c, hc, hr⟩, .inl ?_⟩
    intro f hf hrf
    rw [Finset.eq_empty_iff_forall_notMem]
    intro x hx
    have hreg := (Call.regular_of_mem hx).1
    exact hno f hf hreg ((Call.registers_file hreg).2.symm.trans hrf.2)

end Primitives.Monitor
