import Agecrypt.Lib.Bytes

/-!
# `bech32.c`: keys as text

Encoder and decoder of key strings, and the two functions of `x25519.c`
that read a key.  A C string is the list of its bytes up to the terminating
NUL.  The checksum code is a `uint32`; the bit counters are `int`s that stay
small.
-/

namespace Agecrypt

def chartab : List Nat := [
  99, 99, 99, 99, 99, 99, 99, 99, 99, 99, 99, 99, 99, 99, 99, 99,
  99, 99, 99, 99, 99, 99, 99, 99, 99, 99, 99, 99, 99, 99, 99, 99,
  99, 99, 99, 99, 99, 99, 99, 99, 99, 99, 99, 99, 99, 99, 99, 99,
  15, 99, 10, 17, 21, 20, 26, 30,  7,  5, 99, 99, 99, 99, 99, 99,
  99, 99, 99, 99, 99, 99, 99, 99, 99, 99, 99, 99, 99, 99, 99, 99,
  99, 99, 99, 99, 99, 99, 99, 99, 99, 99, 99, 99, 99, 99, 99, 99,
  99, 29, 99, 24, 13, 25,  9,  8, 23, 99, 18, 22, 31, 27, 19, 99,
   1,  0,  3, 16, 11, 28, 12, 14,  6,  4,  2, 99, 99, 99, 99, 99]

def dictionary : List UInt8 := ascii "qpzry9x8gf2tvdw0s3jn54khce6mua7l"

/-- `v = (s[i] > 127) ? 99 : chartab[s[i]]` -/
def charval (c : UInt8) : Nat := if c > 127 then 99 else chartab.getD c.toNat 0

/-- `dictionary[v]` -/
def dictchar (v : Nat) : UInt8 := dictionary.getD v 0

/-- The separator `'1'` of label and data. -/
def SEPARATOR : UInt8 := 0x31

/-! ## The checksum -/

def check5bits (code : BitVec 32) (v : Nat) : BitVec 32 :=
  let b := code >>> 25
  let code := (code &&& 0x1ffffff#32) <<< 5 ^^^ BitVec.ofNat 32 v
  let code := if b &&& 1#32 ≠ 0 then code ^^^ 0x3b6a57b2#32 else code
  let code := if b &&& 2#32 ≠ 0 then code ^^^ 0x26508e6d#32 else code
  let code := if b &&& 4#32 ≠ 0 then code ^^^ 0x1ea119fa#32 else code
  let code := if b &&& 8#32 ≠ 0 then code ^^^ 0x3d4233dd#32 else code
  if b &&& 16#32 ≠ 0 then code ^^^ 0x2a1462b3#32 else code

/-- Both loops of `labelcheck` over the characters of the label; `none` for
a character that a label must not have. -/
def labelcheck (s : List UInt8) : Option (BitVec 32) :=
  if s.any (fun c => c < 33 || c > 126) then none
  else
    let code := s.foldl (fun code c => check5bits code (c.toNat >>> 5)) 1#32
    let code := check5bits code 0
    some (s.foldl (fun code c => check5bits code (c.toNat &&& 31)) code)

/-! ## Decoding -/

/-- The variables of `prepare`.  `last1` is a `usize` that starts as -1. -/
structure Prepared where
  s : List UInt8
  last1 : Nat
  haslow : Bool
  hasup : Bool
deriving DecidableEq, Repr

/-- The loop of `prepare`: `i` is the position of the next character. -/
def prepareLoop : List UInt8 → Nat → Prepared → Prepared
  | [], _, p => p
  | c :: cs, i, p =>
    if 97 ≤ c ∧ c ≤ 122 then prepareLoop cs (i + 1) { p with s := p.s ++ [c], haslow := true }
    else if 65 ≤ c ∧ c ≤ 90 then
      prepareLoop cs (i + 1) { p with s := p.s ++ [c + 32], hasup := true }
    else if c = SEPARATOR then prepareLoop cs (i + 1) { p with s := p.s ++ [c], last1 := i }
    else prepareLoop cs (i + 1) { p with s := p.s ++ [c] }

/-- Find the separator and turn upper case into lower case. -/
def prepare (s : List UInt8) : Prepared := prepareLoop s 0 ⟨[], 2 ^ 64 - 1, false, false⟩

/-- The inner loop of `decode`: write the full bytes among the last `bits`
bits of `acc`. -/
def drain (acc : Nat) : Nat → Nat → List UInt8 → Nat × List UInt8
  | 0, bits, out => (bits, out)
  | fuel + 1, bits, out =>
    if bits ≥ 8 then
      drain acc fuel (bits - 8) (out ++ [UInt8.ofNat ((acc >>> (bits - 8)) &&& 0xff)])
    else (bits, out)

/-- The loop of `decode` over the characters between label and checksum.
`acc` is a `uint32`. -/
def bech32decodeLoop : List UInt8 → BitVec 32 → Nat → Nat → List UInt8 →
    Option (List UInt8 × BitVec 32)
  | [], code, _, _, out => some (out, code)
  | c :: cs, code, acc, bits, out =>
    let v := charval c
    if v > 31 then none
    else
      let acc := (acc <<< 5 % 2 ^ 32) ||| v
      let (bits', out) := drain acc (bits + 5) (bits + 5) out
      bech32decodeLoop cs (check5bits code v) acc bits' out

def decode (s : List UInt8) (last1 : Nat) (code : BitVec 32) :
    Option (List UInt8 × BitVec 32) :=
  bech32decodeLoop ((s.take (s.length - 6)).drop (last1 + 1)) code 0 0 []

/-- The loop of `checksum` over the last six characters. -/
def checksumLoop : List UInt8 → BitVec 32 → Option (BitVec 32)
  | [], code => some code
  | c :: cs, code => if charval c > 31 then none else checksumLoop cs (check5bits code (charval c))

def checksum (s : List UInt8) (code : BitVec 32) : Option (BitVec 32) :=
  checksumLoop (s.drop (s.length - 6)) code

/-- The decoded bytes, and the length of the label.  A label without an end
runs into the terminating NUL. -/
def bech32decode (s : List UInt8) : Option (List UInt8 × Nat) := do
  let p := prepare s
  if p.haslow ∧ p.hasup then none
  else if p.s.length > 90 then none
  else if p.last1 = 0 then none
  else if (p.s.length + 2 ^ 64 - p.last1) % 2 ^ 64 < 7 then none
  else
    let code ← labelcheck ((p.s ++ [0]).take p.last1)
    let (out, code) ← decode p.s p.last1 code
    let code ← checksum p.s code
    if code ≠ 1#32 then none else some (out, p.last1)

/-! ## Encoding -/

/-- The loop of `encode`.  `acc` and `v` are `uint8`s; `nbits` is the number
of bits of the byte before that are not written yet. -/
def bech32encodeLoop : List UInt8 → BitVec 32 → Nat → Nat → List UInt8 → BitVec 32 × List UInt8
  | [], code, acc, nbits, out =>
    if nbits > 0 then (check5bits code acc, out ++ [dictchar acc]) else (code, out)
  | d :: ds, code, acc, nbits, out =>
    let d := d.toNat
    let v := (acc ||| d >>> (3 + nbits)) % 256
    let code := check5bits code v
    let out := out ++ [dictchar v]
    let nbits := 3 + nbits
    if nbits > 5 then
      let v := ((d <<< (8 - nbits)) % 256) >>> (8 - nbits) >>> (nbits - 5)
      let code := check5bits code v
      let out := out ++ [dictchar v]
      let nbits := nbits - 5
      bech32encodeLoop ds code (((d <<< (8 - nbits)) % 256) >>> 3) nbits out
    else bech32encodeLoop ds code (((d <<< (8 - nbits)) % 256) >>> 3) nbits out

def encode (data : List UInt8) (code : BitVec 32) : BitVec 32 × List UInt8 :=
  bech32encodeLoop data code 0 0 []

/-- `code = check5bits(code, 0)`, `n` times. -/
def check5zeros : Nat → BitVec 32 → BitVec 32
  | 0, code => code
  | n + 1, code => check5zeros n (check5bits code 0)

/-- `dictionary[code >> shift & 31]` -/
def sumchar (code : BitVec 32) (shift : Nat) : UInt8 := dictchar ((code >>> shift &&& 31#32).toNat)

def encodesum (code : BitVec 32) : List UInt8 :=
  let code := check5zeros 6 code ^^^ 1#32
  [sumchar code 25, sumchar code 20, sumchar code 15, sumchar code 10, sumchar code 5,
    sumchar code 0]

def bech32encode (label data : List UInt8) : Option (List UInt8) := do
  let nbits := data.length * 8
  if 7 + label.length + (nbits + 4) / 5 > 90 then none
  else
    let code ← labelcheck label
    let (code, text) := encode data code
    some (label ++ [SEPARATOR] ++ text ++ encodesum code)

/-- `toupper` in the C locale -/
def toupper (c : UInt8) : UInt8 := if 97 ≤ c ∧ c ≤ 122 then c - 32 else c

/-! ## Keys -/

def BECHPUBLEN : Nat := 62
def BECHPRIVLEN : Nat := 74

/-- `x25519pubkey`: `none` for the return of 0. -/
def x25519pubkey (bech : List UInt8) : Option (Bytes 32) := do
  if bech.length ≠ BECHPUBLEN then none
  else if bech.take 4 ≠ ascii "age1" then none
  else
    let (data, _) ← bech32decode bech
    Bytes.ofList? 32 data

def x25519privkey (bech : List UInt8) : Option (Bytes 32) := do
  let bech := bech.take 74
  if bech.take 16 ≠ ascii "AGE-SECRET-KEY-1" then none
  else
    let (data, _) ← bech32decode bech
    Bytes.ofList? 32 data

end Agecrypt
