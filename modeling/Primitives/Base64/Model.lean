import Primitives.Basic
import Primitives.Lib.Bits
import Mathlib.Algebra.GCDMonoid.Nat

/-!
# Base encodings — the code

`base_raw` of `base64.h`: bytes are read, a block at a time, as groups of `n_bits` bits, and written
as one character of the alphabet for each group; and back. The same converter `b2` collects a block
for both directions, and `finish` converts it (`convert`).

The output is a string of zeros into which the characters are stored, or the bits are or-ed, through
a pointer `p`. Encoding writes its padding behind `p` and decoding counts the padding in its input,
so `p` goes on by less than what was written, and may even go back. A store outside the string, or a
read outside an alphabet's memory, is undefined; the model goes no further. The terminating zero of
the string may be or-ed with zero.
-/

set_option autoImplicit false

namespace Primitives.Base64

open Lib

inductive Failure where
  /-- A read or a store outside an array or a string. -/
  | outOfBounds
  /-- `std::length_error` of `resize`. -/
  | lengthError
  /-- `std::runtime_error`. -/
  | runtimeError (text : Str)
deriving DecidableEq, Repr

/-- The bytes of a string literal. -/
def ascii (s : String) : List UInt8 := s.toList.map fun c => UInt8.ofNat c.toNat

/-- The template parameters, and what holds of the alphabets that the file declares. -/
structure BaseRaw where
  alphabet : List UInt8
  padding : UInt8 := 61
  pad : Bool := true
  size : 2 ≤ alphabet.length ∧ alphabet.length ≤ 255
  ascii : ∀ c ∈ padding :: alphabet, c.toNat < 128
  nodup : (padding :: alphabet).Nodup

def divceil (x y : Nat) : Nat := (x + y - 1) / y

namespace BaseRaw

variable (b : BaseRaw)

/-- `Nchars`. -/
def nchars : Nat := b.alphabet.length

/-- `std::countr_zero(std::bit_ceil(Nchars))`. -/
def nBits : Nat := ((List.range 9).find? fun n => b.nchars ≤ 2 ^ n).getD 0

def decodedBlockSize : Nat := Nat.lcm 8 b.nBits / 8

def encodedBlockSize : Nat := Nat.lcm 8 b.nBits / b.nBits

/-- `make_decoder`: an array of 128 zeros, with the index of each character of the alphabet. -/
def decodeAlphabet : List Nat :=
  b.alphabet.zipIdx.foldl (fun t x => t.set x.1.toNat x.2) (List.replicate 128 0)

def name : Str := "base".toList ++ decimalStr b.nchars

def encodedSize (decodedSize : Nat) : Nat :=
  divceil decodedSize b.decodedBlockSize * b.encodedBlockSize

def decodedSize (encodedSize : Nat) : Nat :=
  divceil encodedSize b.encodedBlockSize * b.decodedBlockSize

end BaseRaw

/-! ## Windows of bits -/

/-- `get_bits`: the `n` bits of the block from `start` on. -/
def getBits (n : Nat) (data : List UInt8) (start : Nat) : Nat :=
  let b1 := start / 8
  let b2 := (start + n - 1) / 8
  if b1 = b2 then
    let offset := 8 - start % 8
    ((data[b1]?.getD 0).toNat >>> (offset - n)) &&& (2 ^ n - 1)
  else
    let bits1 := 8 - start % 8
    let bits2 := n - bits1
    let l := (data[b1]?.getD 0).toNat &&& (2 ^ bits1 - 1)
    let r := (data[b2]?.getD 0).toNat >>> (8 - bits2)
    (l <<< bits2) ||| r

/-- The string that is decoded to, and the pointer into it. -/
structure Decoder where
  out : List UInt8
  p : Int
deriving DecidableEq, Repr

/-- `p[i] |= v`. -/
def Decoder.orByte (d : Decoder) (i v : Nat) : Except Failure Decoder :=
  if 0 ≤ d.p + i ∧ d.p + i < d.out.length then .ok { d with out := orAt d.out (d.p + i).toNat v }
  else if d.p + i = d.out.length ∧ v % 256 = 0 then .ok d
  else .error .outOfBounds

/-- `set_bits`: the `n` bits of the value go to `start`. -/
def Decoder.setBits (d : Decoder) (n value start : Nat) : Except Failure Decoder :=
  let b1 := start / 8
  let b2 := (start + n) / 8
  if b1 = b2 then
    let bits1 := 8 - start % 8 - n
    d.orByte b1 (value <<< bits1)
  else do
    let bits1 := 8 - start % 8
    let bits2 := n - bits1
    let d ← d.orByte b1 (value >>> bits2)
    d.orByte b2 (value <<< (8 - bits2))

/-! ## The converter -/

section

variable {σ : Type}

/-- `add`: the block gets one more element, and is converted when it is full. -/
def add (size : Nat) (finish : List UInt8 → σ → Except Failure σ) (s : List UInt8 × σ) (c : UInt8) :
    Except Failure (List UInt8 × σ) := do
  let data := s.1 ++ [c]
  if data.length % size = 0 then
    let out ← finish data s.2
    return ([], out)
  else return (data, s.2)

/-- The loop of `encode` and of `decode`, and the last `finish`. -/
def convert (size : Nat) (finish : List UInt8 → σ → Except Failure σ) (cs : List UInt8) (out : σ) :
    Except Failure σ := do
  let s ← cs.foldlM (add size finish) ([], out)
  finish s.1 s.2

end

/-! ## Encoding -/

/-- The string that is encoded to, and the pointer into it. `reads` records the indices at which the
alphabet was read; nothing reads it. -/
structure Encoder where
  out : List UInt8
  p : Nat
  reads : List Nat
deriving DecidableEq, Repr

/-- `*p++ = c`. -/
def Encoder.put (e : Encoder) (c : UInt8) : Except Failure Encoder :=
  if e.p < e.out.length then .ok { e with out := e.out.set e.p c, p := e.p + 1 }
  else .error .outOfBounds

/-- `Alphabet[i]`: the characters are followed by a terminating zero. -/
def BaseRaw.symbol (b : BaseRaw) (i : Nat) : Except Failure UInt8 :=
  match (b.alphabet ++ [0])[i]? with
  | some c => .ok c
  | none => .error .outOfBounds

/-- `*p++ = Alphabet[v]`. -/
def BaseRaw.putSymbol (b : BaseRaw) (e : Encoder) (v : Nat) : Except Failure Encoder := do
  let c ← b.symbol v
  { e with reads := e.reads ++ [v] }.put c

/-- `finish` of `b2<true>`. -/
def BaseRaw.finishEncode (b : BaseRaw) (pending : List UInt8) (e : Encoder) :
    Except Failure Encoder :=
  if pending = [] then .ok e
  else do
    let data := pending ++ List.replicate (b.decodedBlockSize - pending.length) 0
    let chars := divceil (pending.length * 8) b.nBits
    let e ← ((List.range chars).map fun i => getBits b.nBits data (i * b.nBits)).foldlM b.putSymbol e
    let e' ← (List.replicate (b.encodedBlockSize - chars) b.padding).foldlM Encoder.put e
    return { e' with p := e.p }

/-- `s.resize(n)`. -/
def resize (s : List UInt8) (n : Nat) : List UInt8 := s.take n ++ List.replicate (n - s.length) 0

def BaseRaw.encode (b : BaseRaw) (data : List UInt8) : Except Failure Encoder :=
  if data = [] then .ok ⟨[], 0, []⟩
  else do
    let out := List.replicate (b.encodedSize data.length) 0
    let e ← convert b.decodedBlockSize b.finishEncode data ⟨out, 0, []⟩
    if b.pad then return e else return { e with out := resize e.out e.p }

/-! ## Decoding -/

/-- `DecodeAlphabet[c]`. -/
def BaseRaw.decodeChar (b : BaseRaw) (c : UInt8) : Except Failure Nat :=
  match b.decodeAlphabet[c.toNat]? with
  | some v => .ok v
  | none => .error .outOfBounds

/-- The loop of `finish` over the characters of a block. -/
def BaseRaw.setAll (b : BaseRaw) : List UInt8 → Nat → Decoder → Except Failure Decoder
  | [], _, d => .ok d
  | c :: cs, start, d => do
    let v ← b.decodeChar c
    let d ← d.setBits b.nBits v start
    b.setAll cs (start + b.nBits) d

/-- `finish` of `b2<false>`. -/
def BaseRaw.finishDecode (b : BaseRaw) (pending : List UInt8) (d : Decoder) :
    Except Failure Decoder :=
  if pending = [] then .ok d
  else do
    let data := pending ++ List.replicate (b.encodedBlockSize - pending.length) b.padding
    let d' ← b.setAll data 0 d
    let outsz : Int := b.decodedBlockSize - data.count b.padding
    return { d' with p := d'.p + outsz }

/-- `out.resize(p - out.data())`: a pointer before the string makes a length beyond any string. -/
def Decoder.resize (d : Decoder) : Except Failure (List UInt8) :=
  if 0 ≤ d.p then .ok (Base64.resize d.out d.p.toNat) else .error .lengthError

def BaseRaw.decode (b : BaseRaw) (ignoreNonAlphabetChars : Bool) (data : List UInt8) :
    Except Failure (List UInt8) :=
  if data.length % b.encodedBlockSize ≠ 0 ∧ b.pad = true ∧ ignoreNonAlphabetChars = false then
    .error (.runtimeError ("bad ".toList ++ b.name ++ ": incorrect length".toList))
  else if data = [] then .ok []
  else do
    let out := List.replicate (b.decodedSize data.length) 0
    let cs := if ignoreNonAlphabetChars then data.filter (fun c => c ∈ b.alphabet ∨ c = b.padding)
      else data
    let d ← convert b.encodedBlockSize b.finishDecode cs ⟨out, 0⟩
    d.resize

/-! ## The encodings -/

theorem ascii_of_all {l : List UInt8} (h : l.all (fun c => c.toNat < 128) = true) :
    ∀ c ∈ l, c.toNat < 128 := fun c hc => of_decide_eq_true (List.all_eq_true.mp h c hc)

def base16 : BaseRaw where
  alphabet := ascii "0123456789ABCDEF"
  size := by decide +kernel
  ascii := ascii_of_all (by decide +kernel)
  nodup := by decide +kernel

def base32 : BaseRaw where
  alphabet := ascii "ABCDEFGHIJKLMNOPQRSTUVWXYZ234567"
  size := by decide +kernel
  ascii := ascii_of_all (by decide +kernel)
  nodup := by decide +kernel

def base32extendedHex : BaseRaw where
  alphabet := ascii "0123456789ABCDEFGHIJKLMNOPQRSTUV"
  size := by decide +kernel
  ascii := ascii_of_all (by decide +kernel)
  nodup := by decide +kernel

def base62 : BaseRaw where
  alphabet := ascii "ABCDEFGHIJKLMNOPQRSTUVWXYZabcdefghijklmnopqrstuvwxyz0123456789"
  size := by decide +kernel
  ascii := ascii_of_all (by decide +kernel)
  nodup := by decide +kernel

def base64 : BaseRaw where
  alphabet := ascii "ABCDEFGHIJKLMNOPQRSTUVWXYZabcdefghijklmnopqrstuvwxyz0123456789+/"
  size := by decide +kernel
  ascii := ascii_of_all (by decide +kernel)
  nodup := by decide +kernel

def base64url (pad : Bool) : BaseRaw where
  alphabet := ascii "ABCDEFGHIJKLMNOPQRSTUVWXYZabcdefghijklmnopqrstuvwxyz0123456789-_"
  pad := pad
  size := by decide +kernel
  ascii := ascii_of_all (by decide +kernel)
  nodup := by decide +kernel

end Primitives.Base64
