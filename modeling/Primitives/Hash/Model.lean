import Primitives.Files.Model
import Primitives.Integer
import Primitives.Lib.Find

/-!
# Strong hashes

A strong hash of some data is the digest of two digests of the data, each printed in hex, and of its
size, and each digest of the data has the size behind the data. Data in memory is hashed at once, and a
file is read in chunks that both digests are updated with. The hash with BLAKE2b begins with the numbers
of its digests, which `load_strong_hash_prefix` reads.

The digests are those of OpenSSL and RHash, which are not part of the repository: a `Digest` is what the
code calls of them.
-/

set_option autoImplicit false

namespace Primitives.Hash

open Lib

/-- A digest, of a text at once or with updates in a context. -/
structure Digest where
  digest : Str → List UInt8
  Ctx : Type
  init : Ctx
  update : Ctx → Str → Ctx
  final : Ctx → List UInt8

structure Digests where
  sha256 : Digest
  sha3 : Digest
  blake2b : Digest

/-- Updates are the digest of what they are one behind the other. -/
def Digest.Incremental (d : Digest) : Prop :=
  ∀ chunks : List Str, d.final (chunks.foldl d.update d.init) = d.digest chunks.flatten

/-! ## Texts of digests -/

def digits : Str := ['0', '1', '2', '3', '4', '5', '6', '7', '8', '9']

def lowercase : Str :=
  ['a', 'b', 'c', 'd', 'e', 'f', 'g', 'h', 'i', 'j', 'k', 'l', 'm',
    'n', 'o', 'p', 'q', 'r', 's', 't', 'u', 'v', 'w', 'x', 'y', 'z']

def uppercase : Str :=
  ['A', 'B', 'C', 'D', 'E', 'F', 'G', 'H', 'I', 'J', 'K', 'L', 'M',
    'N', 'O', 'P', 'Q', 'R', 'S', 'T', 'U', 'V', 'W', 'X', 'Y', 'Z']

/-- The table of digits, lower and upper case letters. -/
def alnum : Str := digits ++ lowercase ++ uppercase

/-- `bytes_to_string`. -/
def bytesToString (bytes : List UInt8) : Str :=
  bytes.flatMap fun b =>
    [alnum.getD ((b &&& 0xF0) >>> (4 : UInt8)).toNat '0', alnum.getD (b &&& 0x0F).toNat '0']

section

variable (d : Digests)

def sha256 (data : Str) : Str := bytesToString (d.sha256.digest data)

def sha3_256 (data : Str) : Str := bytesToString (d.sha3.digest data)

def blake2b_512 (data : Str) : Str := bytesToString (d.blake2b.digest data)

end

/-! ## The digests of a hash -/

/-- `HashType`, which a cast can make of any integer. -/
inductive HashType where
  | null
  | sha2_256
  | sha3_256
  | blake2b_512
  | other (i : Int)
deriving DecidableEq, Repr

/-- `(HashType)i`. -/
def HashType.ofInt (i : Int) : HashType :=
  if i = 0 then .null
  else if i = 1 then .sha2_256
  else if i = 2 then .sha3_256
  else if i = 3 then .blake2b_512
  else .other i

/-- `(int)type`. -/
def HashType.toInt : HashType → Int
  | .null => 0
  | .sha2_256 => 1
  | .sha3_256 => 2
  | .blake2b_512 => 3
  | .other i => i

inductive Failure where
  | noFiles
  /-- `Error during strong_file_hash()`. -/
  | iterate
  /-- `Unknown hash type(s)`. -/
  | unknownHashTypes
  | invalidArgument
  | outOfRange
  /-- The file has no end. -/
  | endless
deriving DecidableEq, Repr

/-- `std::stoi`. -/
def stoi (s : Str) : Except Failure Int :=
  match parseInt s with
  | none => .error .invalidArgument
  | some v => if -2147483648 ≤ v ∧ v ≤ 2147483647 then .ok v else .error .outOfRange

/-- `s.substr(pos, count)`; `none` is `npos`. -/
def substr (s : Str) (pos : Nat) (count : Option Nat) : Except Failure Str :=
  if pos ≤ s.length then .ok (count.elim (s.drop pos) (s.drop pos).take) else .error .outOfRange

/-- `load_strong_hash_prefix`. The second number is cut where its text would have to end if it began
at 0, so it has a digit of the hash in it, which `std::stoi` does not come to. -/
def loadStrongHashPrefix (hash : Str) : Except Failure (HashType × HashType) :=
  match find ['$'] hash with
  | none => .ok (.sha3_256, .sha2_256)
  | some p => do
    let fht_s ← substr hash 0 (find ['_'] hash)
    -- without `_`, `npos + 1` is 0
    let sht_s ← substr hash (((find ['_'] hash).map (· + 1)).getD 0) (some p)
    let fht ← stoi fht_s
    let sht ← stoi sht_s
    return (.ofInt fht, .ofInt sht)

/-- `save_strong_hash_prefix`, which writes the same for any two types. -/
def saveStrongHashPrefix (_hash1 _hash2 : HashType) : Str :=
  intStr HashType.blake2b_512.toInt ++ ['_'] ++ intStr HashType.sha3_256.toInt ++ ['$']

/-! ## The hashes -/

section

variable (d : Digests)

def strongFileHash (data : Str) : Str :=
  let sz := decimalStr data.length
  let f := data ++ sz
  sha3_256 d (sha256 d f ++ sha3_256 d f ++ sz)

def strongFileHashBlake2bSha3 (data : Str) : Str :=
  let sz := decimalStr data.length
  let f := data ++ sz
  saveStrongHashPrefix .blake2b_512 .sha3_256 ++
    blake2b_512 d (sha3_256 d f ++ blake2b_512 d f ++ sz)

/-- The function that both digests are updated by. -/
def updateBoth (d₁ d₂ : Digest) : Files.Callback (d₁.Ctx × d₂.Ctx) Char := fun ctx b sz =>
  ((d₁.update ctx.1 ((b.getD 0 []).take sz), d₂.update ctx.2 ((b.getD 0 []).take sz)), true)

/-- The file in two digests, each with its size behind it: their texts, and the size. -/
def digestFile (d₁ d₂ : Digest) (content : Str) : Except Failure (Str × Str × Str) := do
  let files ← (Files.fileIterator [content]).mapError fun _ => .noFiles
  let res ← (Files.iterate '\x00' (updateBoth d₁ d₂) files (d₁.init, d₂.init)).elim
    (.error .endless) .ok
  let sz := decimalStr (Files.frontSize files)
  let hash₁ := d₁.final (d₁.update res.1.1 sz)
  let hash₂ := d₂.final (d₂.update res.1.2 sz)
  if res.2 = false then .error .iterate
  else return (bytesToString hash₁, bytesToString hash₂, sz)

def strongFileHashFile (content : Str) : Except Failure Str := do
  let p ← digestFile d.sha256 d.sha3 content
  return sha3_256 d (p.1 ++ p.2.1 ++ p.2.2)

def strongFileHashFileBlake2bSha3 (content : Str) : Except Failure Str := do
  let p ← digestFile d.blake2b d.sha3 content
  return saveStrongHashPrefix .blake2b_512 .sha3_256 ++ blake2b_512 d (p.2.1 ++ p.1 ++ p.2.2)

/-- `check_strong_file_hash`, of the file with this content. -/
def checkStrongFileHash (content hash : Str) : Except Failure Bool := do
  let p ← loadStrongHashPrefix hash
  if p = (.sha3_256, .sha2_256) then
    return decide (hash = (← strongFileHashFile d content))
  else if p = (.blake2b_512, .sha3_256) then
    return decide (hash = (← strongFileHashFileBlake2bSha3 d content))
  else .error .unknownHashTypes

end

end Primitives.Hash
