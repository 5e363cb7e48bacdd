import Primitives.Files.Chunks
import Primitives.Hash.Model

/-!
# Strong hashes — files and data

A file is hashed like the data it holds, however many chunks it has (`digestFile_eq`), and the beginning
of a hash tells which digests made it: a digest in hex has no `$` (`notMem_bytesToString`), so only the
hash with BLAKE2b has one.
-/

set_option autoImplicit false

namespace Primitives.Hash

open Lib

/-! ## Files -/

/-- The digests are updated with what each round has read. -/
theorem runRounds_updateBoth (d₁ d₂ : Digest) :
    ∀ (rs : List (List Str × Nat)) (c : d₁.Ctx × d₂.Ctx),
      Files.runRounds (updateBoth d₁ d₂) c rs =
        let chunks := rs.map fun r => (r.1.getD 0 []).take r.2
        ((chunks.foldl d₁.update c.1, chunks.foldl d₂.update c.2), true) := by
  intro rs
  induction rs with
  | nil => exact fun _ => rfl
  | cons r rs ih => exact fun c => ih _

theorem Digest.Incremental.final_update {d : Digest} (h : d.Incremental) (chunks : List Str)
    (sz : Str) : d.final (d.update (chunks.foldl d.update d.init) sz) =
      d.digest (chunks.flatten ++ sz) := by
  have hall := h (chunks ++ [sz])
  rwa [List.foldl_append, List.flatten_append, List.flatten_singleton] at hall

/-- **A file in two digests**: they are those of its content with its size behind it. -/
theorem digestFile_eq {d₁ d₂ : Digest} (h₁ : d₁.Incremental) (h₂ : d₂.Incremental) (content : Str) :
    digestFile d₁ d₂ content =
      .ok (bytesToString (d₁.digest (content ++ decimalStr content.length)),
        bytesToString (d₂.digest (content ++ decimalStr content.length)),
        decimalStr content.length) := by
  obtain ⟨rs, hrs, hiterate⟩ := Files.iterate_eq '\x00' (List.cons_ne_nil content [])
    (List.forall_mem_singleton.mpr rfl)
  have hchunks : rs.map (fun r => (r.1.getD 0 []).take r.2) = Files.chunks content := by
    have hhead := congrArg (List.map fun d => d.getD 0 []) hrs
    rw [List.map_map, List.map_map] at hhead
    refine Eq.trans (List.map_congr_left fun r _ => ?_) hhead
    have hnil : ([] : Str) = List.take r.2 [] := List.take_nil.symm
    show _ = (r.1.map (List.take r.2)).getD 0 []
    conv_rhs => rw [hnil, List.getD_map]
  unfold digestFile
  show ((Files.iterate '\x00' (updateBoth d₁ d₂) ([content].map Files.openFile)
      (d₁.init, d₂.init)).elim _ _ : Except Failure ((d₁.Ctx × d₂.Ctx) × Bool)) >>=
    (_ : _ → Except Failure (Str × Str × Str)) = _
  rw [hiterate, runRounds_updateBoth, hchunks]
  show Except.ok (bytesToString (d₁.final (d₁.update _ (decimalStr content.length))),
    bytesToString (d₂.final (d₂.update _ (decimalStr content.length))), _) = _
  rw [h₁.final_update, h₂.final_update, Files.flatten_chunks]
  rfl

/-! ## The beginning of a hash -/

/-- A digest in hex has digits and small letters only. -/
theorem notMem_bytesToString {c : Char} (hc : ∀ i < 16, alnum.getD i '0' ≠ c) (bytes : List UInt8) :
    c ∉ bytesToString bytes := by
  intro hmem
  obtain ⟨b, -, hb⟩ := List.mem_flatMap.mp hmem
  have hhigh : ((b &&& 0xF0) >>> (4 : UInt8)).toNat < 16 := by
    rw [UInt8.toNat_shiftRight, Nat.shiftRight_eq_div_pow]
    exact Nat.div_lt_of_lt_mul (UInt8.toNat_lt _)
  have hlow : (b &&& 0x0F).toNat < 16 := by
    rw [UInt8.toNat_and]
    exact Nat.and_lt_two_pow (n := 4) _ (by decide)
  rcases List.mem_cons.mp hb with rfl | hb
  · exact hc _ hhigh rfl
  · exact hc _ hlow (List.mem_singleton.mp hb).symm

theorem dollar_notMem (bytes : List UInt8) : '$' ∉ bytesToString bytes :=
  notMem_bytesToString (by decide) bytes

theorem loadStrongHashPrefix_of_notMem {hash : Str} (h : '$' ∉ hash) :
    loadStrongHashPrefix hash = .ok (.sha3_256, .sha2_256) := by
  have hnone : find ['$'] hash = none := by
    rw [find_eq_none_iff]
    intro j _ hpre
    exact h (List.mem_of_mem_drop (hpre.subset List.mem_cons_self))
  rw [loadStrongHashPrefix, hnone]

/-- **The prefix** that is saved is loaded, whatever follows it. -/
theorem loadStrongHashPrefix_save (t₁ t₂ : HashType) (hash : Str) :
    loadStrongHashPrefix (saveStrongHashPrefix t₁ t₂ ++ hash) = .ok (.blake2b_512, .sha3_256) := by
  have hsave : saveStrongHashPrefix t₁ t₂ = ['3', '_', '2', '$'] := rfl
  rw [hsave]
  have hdollar : find ['$'] (['3', '_', '2', '$'] ++ hash) = some 3 := rfl
  have hunderscore : find ['_'] (['3', '_', '2', '$'] ++ hash) = some 1 := rfl
  have hfirst : stoi ['3'] = .ok 3 := rfl
  -- the text of the second number goes on behind the dollar
  have hsecond : stoi (['2'] ++ '$' :: hash.take 1) = .ok 2 := by
    have hparse : parseInt (['2'] ++ '$' :: hash.take 1) = some 2 :=
      parseInt_digits _ (List.cons_ne_nil _ _) (List.forall_mem_singleton.mpr rfl)
        fun c hc => by cases hc; rfl
    rw [stoi, hparse]
    rfl
  unfold loadStrongHashPrefix
  rw [hdollar, hunderscore]
  show (stoi ['3'] >>= fun fht => stoi (['2'] ++ '$' :: hash.take 1) >>= fun sht =>
    Except.ok (HashType.ofInt fht, HashType.ofInt sht)) = _
  rw [hfirst, hsecond]
  rfl

/-! ## Hashes of files -/

variable {d : Digests}

theorem strongFileHashFile_eq (h₂ : d.sha256.Incremental) (h₃ : d.sha3.Incremental) (data : Str) :
    strongFileHashFile d data = .ok (strongFileHash d data) := by
  rw [strongFileHashFile, digestFile_eq h₂ h₃]
  rfl

theorem strongFileHashFileBlake2bSha3_eq (h₃ : d.sha3.Incremental) (hb : d.blake2b.Incremental)
    (data : Str) : strongFileHashFileBlake2bSha3 d data = .ok (strongFileHashBlake2bSha3 d data) := by
  rw [strongFileHashFileBlake2bSha3, digestFile_eq hb h₃]
  rfl

/-- A digest that is known for `0`, the text of an empty file's size, and for one text more. -/
def tabulated (zero other : List UInt8) : Digest where
  digest s := if s = ['0'] then zero else other
  Ctx := Str
  init := []
  update ctx s := ctx ++ s
  final ctx := if ctx = ['0'] then zero else other

theorem incremental_tabulated (zero other : List UInt8) : (tabulated zero other).Incremental := by
  intro chunks
  have hfold : ∀ (cs : List Str) (s : Str), cs.foldl (· ++ ·) s = s ++ cs.flatten := by
    intro cs
    induction cs with
    | nil => exact fun s => (List.append_nil s).symm
    | cons c cs ih =>
      intro s
      rw [List.foldl_cons, ih, List.append_assoc, List.flatten_cons]
  show ite (chunks.foldl (· ++ ·) [] = ['0']) zero other = ite (chunks.flatten = ['0']) zero other
  rw [hfold, List.nil_append]

/-- The digests of `0` and of the texts that are made of them. -/
def emptyFileDigests : Digests where
  sha256 := tabulated
    [0x5F, 0xEC, 0xEB, 0x66, 0xFF, 0xC8, 0x6F, 0x38, 0xD9, 0x52, 0x78, 0x6C, 0x6D, 0x69, 0x6C, 0x79,
      0xC2, 0xDB, 0xC2, 0x39, 0xDD, 0x4E, 0x91, 0xB4, 0x67, 0x29, 0xD7, 0x3A, 0x27, 0xFB, 0x57, 0xE9] []
  sha3 := tabulated
    [0xF9, 0xE2, 0xEA, 0xAA, 0x42, 0xD9, 0xFE, 0x9E, 0x55, 0x8A, 0x9B, 0x8E, 0xF1, 0xBF, 0x36, 0x6F,
      0x19, 0x0A, 0xAC, 0xAA, 0x83, 0xBA, 0xD2, 0x64, 0x1E, 0xE1, 0x06, 0xE9, 0x04, 0x10, 0x96, 0xE4]
    [0x53, 0x9E, 0x66, 0x0D, 0x5E, 0x7D, 0x32, 0x45, 0x46, 0x9E, 0x15, 0x1F, 0x0C, 0x10, 0x6A, 0xE2,
      0xAC, 0x10, 0x8A, 0x68, 0x1F, 0x50, 0x83, 0xAC, 0x61, 0xF5, 0x23, 0x81, 0x76, 0x6A, 0xFF, 0x3C]
  blake2b := tabulated
    [0xE9, 0xF1, 0x14, 0x62, 0x49, 0x53, 0x99, 0xC0, 0xB8, 0xD0, 0xD8, 0xEC, 0x71, 0x28, 0xDF, 0x9C,
      0x0D, 0x72, 0x69, 0xCD, 0xA2, 0x35, 0x31, 0xA3, 0x52, 0xB1, 0x74, 0xBD, 0x29, 0xC3, 0xB6, 0x31,
      0x8A, 0x55, 0xD3, 0x50, 0x8C, 0xB7, 0x0D, 0xAD, 0x9A, 0xAA, 0x59, 0x01, 0x85, 0xBA, 0x0F, 0xEF,
      0x4F, 0xAB, 0x46, 0xFE, 0xBD, 0x46, 0x87, 0x4A, 0x10, 0x37, 0x39, 0xC1, 0x0D, 0x60, 0xEB, 0xC7]
    [0xCF, 0xBF, 0x64, 0x95, 0xD1, 0xBF, 0xBB, 0x4A, 0x4A, 0xB6, 0xDA, 0x63, 0x47, 0x7D, 0x85, 0x86,
      0x41, 0x4C, 0x03, 0x83, 0xA7, 0x4F, 0xFE, 0xB4, 0x33, 0x32, 0x8A, 0x28, 0xBC, 0xEE, 0x9A, 0xA3,
      0xD1, 0x5D, 0xEB, 0x9A, 0x60, 0x96, 0xDA, 0x14, 0x17, 0xC3, 0x25, 0xDC, 0xB1, 0x81, 0x1A, 0xA6,
      0xEE, 0x18, 0x0F, 0x3B, 0x00, 0x8F, 0x77, 0x9F, 0xC2, 0x89, 0x2B, 0x88, 0x8F, 0x4E, 0x35, 0x1C]

end Primitives.Hash
