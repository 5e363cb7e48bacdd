import Mathlib.Data.List.GetD
import Primitives.Files.Model

/-!
# Files — every byte, once

Files of one size are read in chunks of a buffer's size, and the last chunk is shorter, and empty where
the size is a multiple of the buffer's. `iterate` calls its function for each chunk in turn
(`iterate_eq`), and the chunks of a file are the file (`flatten_chunks`).
-/

set_option autoImplicit false

namespace Primitives.Files

variable {α σ : Type}

/-! ## Chunks -/

theorem bufferSize_pos : 0 < bufferSize := by decide

def chunk (content : List α) (i : Nat) : List α := (content.drop (i * bufferSize)).take bufferSize

/-- The chunks of a file, the last of which is not full. -/
def chunks (content : List α) : List (List α) :=
  (List.range (content.length / bufferSize + 1)).map (chunk content)

theorem length_chunk (content : List α) (i : Nat) :
    (chunk content i).length = min bufferSize (content.length - i * bufferSize) := by
  rw [chunk, List.length_take, List.length_drop]

theorem flatten_range_chunk (content : List α) (m : Nat) :
    ((List.range m).map (chunk content)).flatten = content.take (m * bufferSize) := by
  induction m with
  | zero => simp
  | succ m ih =>
    rw [List.range_succ, List.map_append, List.flatten_append, ih, Nat.succ_mul, List.take_add]
    simp [chunk]

/-- **The chunks of a file are the file.** -/
theorem flatten_chunks (content : List α) : (chunks content).flatten = content := by
  rw [chunks, flatten_range_chunk, List.take_of_length_le]
  rw [Nat.succ_mul]
  exact Nat.le_of_lt (Nat.lt_div_mul_add bufferSize_pos)

/-- Files of one size are the same if their chunks are. -/
theorem eq_iff_chunk_eq {c₁ c₂ : List α} (h : c₁.length = c₂.length) :
    c₁ = c₂ ↔ ∀ i < c₁.length / bufferSize + 1, chunk c₁ i = chunk c₂ i := by
  constructor
  · rintro rfl i _
    rfl
  · intro hall
    rw [← flatten_chunks c₁, ← flatten_chunks c₂, chunks, chunks, ← h]
    congr 1
    exact List.map_congr_left fun i hi => hall i (List.mem_range.mp hi)

/-! ## One round -/

/-- Before round `i` every file has been read up to there, and none has been found to be at its end. -/
def Reading (contents : List (List α)) (i : Nat) (files : List (File α)) : Prop :=
  List.Forall₂ (fun content f => f.ifile = ⟨content, i * bufferSize, false⟩) contents files

/-- How much round `i` reads from a file of `n` bytes. -/
def readSize (n i : Nat) : Nat := min bufferSize (n - i * bufferSize)

theorem File.fill_spec {f : File α} {content : List α} {i : Nat}
    (h : f.ifile = ⟨content, i * bufferSize, false⟩) :
    f.fill.read = readSize content.length i ∧
      f.fill.buf.take (readSize content.length i) = chunk content i ∧
      f.fill.ifile = ⟨content, i * bufferSize + readSize content.length i,
        decide (readSize content.length i < bufferSize)⟩ := by
  have hnext : f.ifile.next bufferSize = chunk content i := by rw [h]; rfl
  have hlen : (chunk content i).length = readSize content.length i := length_chunk content i
  refine ⟨?_, ?_, ?_⟩
  · rw [← hlen, ← hnext]
    rfl
  · unfold File.fill
    rw [hnext, ← hlen]
    exact List.take_left
  · show f.ifile.skip bufferSize = _
    rw [Stream.skip, hnext, hlen, h]
    rfl

/-- The files after round `i`. -/
structure Filled (contents : List (List α)) (n i : Nat) (files : List (File α)) : Prop where
  reads : ∀ f ∈ files, f.read = readSize n i
  data : (files.map File.buf).map (List.take (readSize n i)) = contents.map (chunk · i)
  streams : List.Forall₂ (fun content f => f.ifile =
    ⟨content, i * bufferSize + readSize n i, decide (readSize n i < bufferSize)⟩) contents files

/-- **One round** reads a chunk of every file. -/
theorem Reading.fill {contents : List (List α)} {n i : Nat} {files : List (File α)}
    (h : Reading contents i files) (hlen : ∀ c ∈ contents, c.length = n) :
    Filled contents n i (files.map File.fill) := by
  induction h with
  | nil => exact ⟨(fun f hf => nomatch hf), rfl, .nil⟩
  | cons hf _ ih =>
    obtain ⟨hreads, hdata, hstreams⟩ := ih fun c hc => hlen c (List.mem_cons_of_mem _ hc)
    obtain ⟨hread, htake, hfile⟩ := File.fill_spec hf
    rw [hlen _ List.mem_cons_self] at hread htake hfile
    refine ⟨?_, ?_, .cons hfile hstreams⟩
    · intro g hg
      rcases List.mem_cons.mp hg with rfl | hg
      · exact hread
      · exact hreads g hg
    · simp only [List.map_cons, htake, hdata]

theorem frontRead_eq {files : List (File α)} {k : Nat} (hne : files ≠ [])
    (h : ∀ f ∈ files, f.read = k) : frontRead files = k := by
  obtain ⟨f, fs, rfl⟩ := List.exists_cons_of_ne_nil hne
  exact h f List.mem_cons_self

theorem isSameReadSize_eq {files : List (File α)} {k : Nat} (hne : files ≠ [])
    (h : ∀ f ∈ files, f.read = k) : isSameReadSize files = true := by
  rw [isSameReadSize, List.all_eq_true]
  intro f hf
  rw [frontRead_eq hne h, h f hf]
  exact decide_eq_true rfl

/-! ## The rounds -/

/-- What the rounds give to the function: the buffers, and how much was read. -/
def rounds : Nat → List (File α) → List (List (List α) × Nat)
  | 0, _ => []
  | m + 1, files =>
    let files := files.map File.fill
    (files.map File.buf, frontRead files) :: rounds m files

/-- The function, called for each round until it says to stop. -/
def runRounds (f : Callback σ α) : σ → List (List (List α) × Nat) → σ × Bool
  | s, [] => (s, true)
  | s, r :: rs =>
    let res := f s r.1 r.2
    if res.2 then runRounds f res.1 rs else (res.1, false)

variable {contents : List (List α)} {n : Nat}

theorem any_eof_eq {b : Bool} {p : Nat} {files : List (File α)} (hne : contents ≠ [])
    (h : List.Forall₂ (fun content f => f.ifile = ⟨content, p, b⟩) contents files) :
    (files.any fun f => f.ifile.eof) = b := by
  induction h with
  | nil => exact absurd rfl hne
  | cons hf hrest ih =>
    rw [List.any_cons, hf]
    cases hrest with
    | nil => exact Bool.or_false b
    | cons hg hrest =>
      rw [ih (List.cons_ne_nil _ _)]
      exact Bool.or_self b

theorem Reading.ne_nil {i : Nat} {files : List (File α)} (hne : contents ≠ [])
    (h : Reading contents i files) : files ≠ [] := by
  rintro rfl
  cases h
  exact hne rfl

/-- One round of the loop, where no file is at its end. -/
theorem loop_succ (hne : contents ≠ []) (hlen : ∀ c ∈ contents, c.length = n) (f : Callback σ α)
    {i : Nat} (left : Nat) {files : List (File α)} (s : σ) (h : Reading contents i files) :
    loop f (left + 1) files s =
      let files := files.map File.fill
      let r := f s (files.map File.buf) (frontRead files)
      if r.2 then loop f left files r.1 else some (r.1, false) := by
  have hfilled := h.fill hlen
  have hfiles : files.map File.fill ≠ [] := fun hnil => h.ne_nil hne (List.map_eq_nil_iff.mp hnil)
  have hsame : ¬ isSameReadSize (files.map File.fill) = false := by
    rw [isSameReadSize_eq hfiles hfilled.reads]
    exact Bool.false_ne_true.symm
  rw [loop, any_eof_eq hne h, if_neg Bool.false_ne_true]
  exact if_neg hsame

/-- A round before the last is full. -/
theorem Filled.reading {i : Nat} {files : List (File α)} (h : Filled contents n i files)
    (hi : i + 1 ≤ n / bufferSize) : Reading contents (i + 1) files := by
  have hle : (i + 1) * bufferSize ≤ n := (Nat.le_div_iff_mul_le bufferSize_pos).mp hi
  rw [Nat.succ_mul] at hle
  have hfull : readSize n i = bufferSize := Nat.min_eq_left (Nat.le_sub_of_add_le' hle)
  have hstreams := h.streams
  rw [hfull, ← Nat.succ_mul, decide_eq_false (Nat.lt_irrefl _)] at hstreams
  exact hstreams

theorem readSize_lt {i : Nat} (hi : n / bufferSize = i) : readSize n i < bufferSize := by
  have hlt : n < i * bufferSize + bufferSize := by
    rw [← hi]
    exact Nat.lt_div_mul_add bufferSize_pos
  exact Nat.lt_of_le_of_lt (Nat.min_le_right _ _)
    (Nat.sub_lt_left_of_lt_add (hi ▸ Nat.div_mul_le_self n _) hlt)

/-- **The loop** calls the function for the rounds that are left: `m` full ones, and the last. -/
theorem loop_eq (hne : contents ≠ []) (hlen : ∀ c ∈ contents, c.length = n) (f : Callback σ α) :
    ∀ (m i left : Nat) (files : List (File α)) (s : σ), Reading contents i files →
      n / bufferSize = i + m → m + 2 ≤ left →
        loop f left files s = some (runRounds f s (rounds (m + 1) files)) := by
  intro m
  induction m with
  | zero =>
    intro i left files s hreading hi hleft
    obtain ⟨left, rfl⟩ := Nat.exists_eq_add_of_le' hleft
    have hfilled := hreading.fill hlen
    have heof : ((files.map File.fill).any fun f => f.ifile.eof) = true := by
      rw [any_eof_eq hne hfilled.streams]
      exact decide_eq_true (readSize_lt hi)
    rw [loop_succ hne hlen f _ s hreading, rounds, runRounds]
    dsimp only
    split
    · rw [loop, if_pos heof]
      rfl
    · rfl
  | succ m ih =>
    intro i left files s hreading hi hleft
    obtain ⟨left, rfl⟩ := Nat.exists_eq_add_of_le' (Nat.le_of_add_left_le hleft : 1 ≤ left)
    have hnext := (hreading.fill hlen).reading (hi ▸ Nat.add_le_add_left (Nat.succ_pos m) i)
    rw [loop_succ hne hlen f _ s hreading, rounds, runRounds]
    dsimp only
    split
    · exact ih (i + 1) left _ _ hnext (hi.trans (Nat.succ_add_eq_add_succ i m).symm)
        (Nat.le_of_succ_le_succ hleft)
    · rfl

theorem Reading.data {i : Nat} {files : List (File α)} (hne : contents ≠ [])
    (hlen : ∀ c ∈ contents, c.length = n) (h : Reading contents i files) :
    ((files.map File.fill).map File.buf).map (List.take (frontRead (files.map File.fill))) =
      contents.map (chunk · i) := by
  have hfilled := h.fill hlen
  have hfiles : files.map File.fill ≠ [] := fun hnil => h.ne_nil hne (List.map_eq_nil_iff.mp hnil)
  rw [frontRead_eq hfiles hfilled.reads, hfilled.data]

/-- **What the rounds give**: the chunks of all files, in turn. -/
theorem rounds_eq (hne : contents ≠ []) (hlen : ∀ c ∈ contents, c.length = n) :
    ∀ (m i : Nat) (files : List (File α)), Reading contents i files → n / bufferSize = i + m →
      (rounds (m + 1) files).map (fun r => r.1.map (List.take r.2)) =
        (List.range' i (m + 1)).map fun j => contents.map (chunk · j) := by
  intro m
  induction m with
  | zero =>
    intro i files hreading _
    exact congrArg (· :: []) (hreading.data hne hlen)
  | succ m ih =>
    intro i files hreading hi
    have hnext := (hreading.fill hlen).reading (hi ▸ Nat.add_le_add_left (Nat.succ_pos m) i)
    rw [rounds, List.range'_succ, List.map_cons, List.map_cons,
      ih (i + 1) _ hnext (hi.trans (Nat.succ_add_eq_add_succ i m).symm)]
    exact congrArg (· :: _) (hreading.data hne hlen)

/-! ## `iterate` and `compare_files` -/

theorem reading_open (zero : α) (contents : List (List α)) :
    Reading contents 0 (resizeAll zero (contents.map openFile)) := by
  have hzero : 0 * bufferSize = 0 := Nat.zero_mul _
  induction contents with
  | nil => exact .nil
  | cons c cs ih =>
    refine .cons ?_ ih
    rw [hzero]
    rfl

theorem frontSize_open (hne : contents ≠ []) (hlen : ∀ c ∈ contents, c.length = n) :
    frontSize (contents.map openFile) = n := by
  obtain ⟨c, cs, rfl⟩ := List.exists_cons_of_ne_nil hne
  exact hlen c List.mem_cons_self

/-- **`iterate`** calls its function for the chunks of the files, in turn. -/
theorem iterate_eq (zero : α) (hne : contents ≠ []) (hlen : ∀ c ∈ contents, c.length = n) :
    ∃ rs : List (List (List α) × Nat),
      rs.map (fun r => r.1.map (List.take r.2)) =
          (List.range (n / bufferSize + 1)).map (fun i => contents.map (chunk · i)) ∧
        ∀ (σ : Type) (f : Callback σ α) (s : σ),
          iterate zero f (contents.map openFile) s = some (runRounds f s rs) := by
  have hreading := reading_open zero contents
  have hzero : n / bufferSize = 0 + n / bufferSize := (Nat.zero_add _).symm
  refine ⟨rounds (n / bufferSize + 1) (resizeAll zero (contents.map openFile)), ?_, ?_⟩
  · rw [rounds_eq hne hlen _ 0 _ hreading hzero, List.range_eq_range']
  · intro σ f s
    have hsame : ¬ isSameSize (contents.map openFile) = false := by
      rw [Bool.not_eq_false, isSameSize, frontSize_open hne hlen, List.all_eq_true]
      intro g hg
      obtain ⟨c, hc, rfl⟩ := List.mem_map.mp hg
      exact decide_eq_true (hlen c hc)
    rw [iterate, if_neg hsame, frontSize_open hne hlen]
    exact loop_eq hne hlen f _ 0 _ _ s hreading hzero (Nat.add_le_add_right (Nat.div_le_self n _) 2)

/-- A function without a state is called until it says to stop. -/
theorem runRounds_eq (g : List (List α) → Nat → Bool) (rs : List (List (List α) × Nat)) :
    (runRounds (fun _ bufs sz => ((), g bufs sz)) () rs).2 = rs.all fun r => g r.1 r.2 := by
  induction rs with
  | nil => rfl
  | cons r rs ih =>
    rw [runRounds, List.all_cons]
    dsimp only
    cases g r.1 r.2 with
    | true => exact ih
    | false => rfl

theorem sameBytes_eq [DecidableEq α] (r : List (List α) × Nat) :
    sameBytes r.2 (r.1.getD 0 []) (r.1.getD 1 []) =
      decide ((r.1.map (List.take r.2)).getD 0 [] = (r.1.map (List.take r.2)).getD 1 []) := by
  have hnil : ([] : List α) = List.take r.2 [] := List.take_nil.symm
  rw [hnil, List.getD_map, List.getD_map, ← hnil]
  rfl

/-- **`compare_files`** compares the files, of any sizes. -/
theorem compareFiles_eq [DecidableEq α] (zero : α) (c₁ c₂ : List α) :
    compareFiles zero c₁ c₂ = .ok (some (decide (c₁ = c₂))) := by
  show Except.ok ((iterate zero _ ([c₁, c₂].map openFile) ()).map Prod.snd) = _
  by_cases hlen : c₂.length = c₁.length
  · have hall : ∀ c ∈ [c₁, c₂], c.length = c₁.length := by
      intro c hc
      rcases List.mem_cons.mp hc with rfl | hc
      · rfl
      · rwa [List.mem_singleton.mp hc]
    obtain ⟨rs, hrs, hiterate⟩ := iterate_eq zero (List.cons_ne_nil c₁ [c₂]) hall
    rw [hiterate, Option.map_some, runRounds_eq]
    simp only [sameBytes_eq]
    congr 2
    rw [Bool.eq_iff_iff, decide_eq_true_iff, eq_iff_chunk_eq hlen.symm, List.all_eq_true]
    -- the rounds are looked at through what they give
    have hrounds : (∀ r ∈ rs, decide ((r.1.map (List.take r.2)).getD 0 [] =
        (r.1.map (List.take r.2)).getD 1 []) = true) ↔
        ∀ d ∈ rs.map (fun r => r.1.map (List.take r.2)), d.getD 0 [] = d.getD 1 [] := by
      simp only [List.forall_mem_map, decide_eq_true_iff]
    rw [hrounds, hrs]
    simp only [List.forall_mem_map, List.mem_range]
    rfl
  · have hsame : isSameSize ([c₁, c₂].map openFile) = false := by
      rw [Bool.eq_false_iff, Ne, isSameSize, List.all_eq_true]
      intro hall
      exact hlen (of_decide_eq_true (hall (openFile c₂) (by simp)))
    have hne : c₁ ≠ c₂ := fun heq => hlen (congrArg List.length heq.symm)
    rw [iterate, if_pos hsame, decide_eq_false hne]
    rfl

end Primitives.Files
