import Agecrypt.Lib.Bytes

/-!
# The primitives, and the key wrapping over them

`crypto.h` declares the primitives of the codec.  They are the parameters
`Crypto` of the model: functions of their inputs, with the lengths that
their code fixes.  What a result assumes of them beyond that (that reading
undoes writing, that an agreement is symmetric) it states as a hypothesis.

The two key wrappings of `keyenc.c` and the key derivations of `x25519.c`,
`scrypt.c` and `payload.c` are translated over the primitives.
-/

namespace Agecrypt

def TAGLEN : Nat := 16

/-- The primitives of `crypto/`. -/
structure Crypto where
  /-- `scalarmult` on the trimmed scalar. -/
  scalarmult : Bytes 32 → Bytes 32 → Bytes 32
  /-- `hkdfsha256(ikm, salt, info)` -/
  hkdfsha256 : List UInt8 → List UInt8 → List UInt8 → Bytes 32
  /-- `hmacsha256(k, in)` -/
  hmacsha256 : List UInt8 → List UInt8 → Bytes 32
  chacha20poly1305write : Bytes 32 → Bytes 12 → List UInt8 → List UInt8
  /-- `none` for a failed authentication. -/
  chacha20poly1305read : Bytes 32 → Bytes 12 → List UInt8 → Option (List UInt8)
  /-- `scrypt(pass, salt, n, r, p)` for an output of 32 bytes. -/
  scrypt : List UInt8 → List UInt8 → Nat → Nat → Nat → Except String (Bytes 32)
  write_length : ∀ key nonce inp,
    (chacha20poly1305write key nonce inp).length = inp.length + TAGLEN
  read_length : ∀ key nonce inp out,
    chacha20poly1305read key nonce inp = some out → out.length + TAGLEN = inp.length

/-- `curve25519basepoint` -/
def curve25519basepoint : Bytes 32 :=
  ⟨9 :: List.replicate 31 0, rfl⟩

namespace Crypto

variable (C : Crypto)

/-- `x25519`: `none` for an all-zero result. -/
def x25519 (priv pub : Bytes 32) : Option (Bytes 32) :=
  let out := C.scalarmult priv pub
  if out = Bytes.zero 32 then none else some out

def x25519pub (priv : Bytes 32) : Option (Bytes 32) := C.x25519 priv curve25519basepoint

/-! ## `keyenc.c` -/

/-- Wrap a file key under a key that is used once, with the zero nonce. -/
def keyenc (key : Bytes 32) (filekey : Bytes 16) : Bytes 32 :=
  ⟨C.chacha20poly1305write key (Bytes.zero 12) filekey.val, by
    rw [C.write_length, filekey.size_eq, TAGLEN]⟩

def keydec (key inp : Bytes 32) : Option (Bytes 16) :=
  match h : C.chacha20poly1305read key (Bytes.zero 12) inp.val with
  | none => none
  | some out => some ⟨out, by
      have hl := C.read_length _ _ _ _ h
      rw [inp.size_eq, TAGLEN] at hl
      omega⟩

theorem keydec_eq {key inp : Bytes 32} {out : Bytes 16}
    (h : C.chacha20poly1305read key (Bytes.zero 12) inp.val = some out.val) :
    C.keydec key inp = some out := by
  unfold keydec
  split
  · rename_i hn
    rw [h] at hn
    cases hn
  · rename_i out' ho
    rw [h] at ho
    obtain rfl : out.val = out' := Option.some.inj ho
    rfl

/-! ## Derived keys -/

/-- `wrap` of `x25519.c` -/
def wrap (share secret pubkey : Bytes 32) : Bytes 32 :=
  C.hkdfsha256 secret.val (share.val ++ pubkey.val) (ascii "age-encryption.org/v1/X25519")

def payloadkey (filekey nonce : Bytes 16) : Bytes 32 :=
  C.hkdfsha256 filekey.val nonce.val (ascii "payload")

/-- The key of the header MAC. -/
def hdrkey (filekey : Bytes 16) : Bytes 32 :=
  C.hkdfsha256 filekey.val [] (ascii "header")

/-- `mac` of `header.c` -/
def mac (data : List UInt8) (filekey : Bytes 16) : Bytes 32 :=
  C.hmacsha256 (C.hdrkey filekey).val data

/-- Reading accepts exactly what writing makes, and undoes it. -/
def AeadExact : Prop :=
  ∀ key nonce inp out,
    C.chacha20poly1305read key nonce inp = some out ↔
      inp = C.chacha20poly1305write key nonce out

end Crypto

/-! ## An instance to evaluate -/

/-- The first 32 bytes, zeros behind the end. -/
def pad32 (bs : List UInt8) : Bytes 32 :=
  ⟨(bs ++ List.replicate 32 0).take 32, by
    rw [List.length_take, List.length_append, List.length_replicate]
    omega⟩

/-- The nonce and the start of the key as the tag. -/
def sampletag (key : Bytes 32) (nonce : Bytes 12) : List UInt8 := nonce.val ++ key.val.take 4

def tagwrite (key : Bytes 32) (nonce : Bytes 12) (inp : List UInt8) : List UInt8 :=
  inp ++ sampletag key nonce

def tagread (key : Bytes 32) (nonce : Bytes 12) (inp : List UInt8) : Option (List UInt8) :=
  if inp.drop (inp.length - TAGLEN) = sampletag key nonce then
    some (inp.take (inp.length - TAGLEN))
  else none

theorem length_sampletag (key : Bytes 32) (nonce : Bytes 12) :
    (sampletag key nonce).length = TAGLEN := by
  rw [sampletag, List.length_append, List.length_take, key.size_eq, nonce.size_eq]
  rfl

theorem tagread_iff (key : Bytes 32) (nonce : Bytes 12) (inp out : List UInt8) :
    tagread key nonce inp = some out ↔ inp = tagwrite key nonce out := by
  have htag := length_sampletag key nonce
  rw [tagread, tagwrite]
  constructor
  · intro h
    split at h
    · rename_i hd
      rw [← Option.some.inj h, ← hd, List.take_append_drop]
    · cases h
  · rintro rfl
    have hlen : (out ++ sampletag key nonce).length - TAGLEN = out.length := by
      rw [List.length_append, htag]
      omega
    rw [if_pos (by rw [hlen, List.drop_left]), hlen, List.take_left]

theorem length_tagwrite (key : Bytes 32) (nonce : Bytes 12) (inp : List UInt8) :
    (tagwrite key nonce inp).length = inp.length + TAGLEN := by
  rw [tagwrite, List.length_append, length_sampletag]

/-- Primitives that keep the laws and are easy to evaluate: sums for the
agreement, and a tag that names the nonce and the key. -/
def Crypto.sample : Crypto where
  scalarmult a b := ⟨List.zipWith (· + ·) a.val b.val, by
    rw [List.length_zipWith, a.size_eq, b.size_eq, Nat.min_self]⟩
  hkdfsha256 ikm salt info := pad32 (ikm ++ salt ++ info)
  hmacsha256 k inp := pad32 (inp ++ k)
  chacha20poly1305write := tagwrite
  chacha20poly1305read := tagread
  scrypt pass salt _ _ _ := .ok (pad32 (pass ++ salt))
  write_length := length_tagwrite
  read_length key nonce inp out h := by
    rw [(tagread_iff key nonce inp out).mp h, length_tagwrite]

theorem Crypto.sample_exact : Crypto.sample.AeadExact := tagread_iff

end Agecrypt
