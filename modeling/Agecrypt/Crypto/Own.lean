import Agecrypt.Agec.Header
import Agecrypt.Crypto.Aead
import Agecrypt.Crypto.Hmac

/-!
# The primitives of the code

`Crypto.own` is the parameter of the model with the hash functions and the
authenticated encryption of the code put in.  The calls of the code compute
its functions, its reading accepts exactly what its writing makes, and the MAC
that the writer of a header makes piece by piece is the one that the reader
makes of the whole header.
-/

namespace Agecrypt

namespace Crypto

variable (C : Crypto)

def own : Crypto where
  scalarmult := C.scalarmult
  hkdfsha256 := hkdf
  hmacsha256 := hmac
  chacha20poly1305write key nonce inp := sealed (chacha20poly1305init key nonce) [] inp
  chacha20poly1305read key nonce inp := opened (chacha20poly1305init key nonce) [] inp
  scrypt := C.scrypt
  write_length key nonce inp := length_sealed (chacha20poly1305init key nonce) [] inp
  read_length key nonce inp out h := by
    rw [opened_eq_some.mp h, length_sealed, TAGLEN]

theorem own_exact : C.own.AeadExact := fun _ _ _ _ => opened_eq_some

end Crypto

/-! ## The calls of the code -/

section

variable (C : Crypto)

theorem own_write (junk : Bytes 16) (key : Bytes 32) (nonce : Bytes 12) (inp : List UInt8) :
    (chacha20poly1305write junk (chacha20poly1305init key nonce) [] inp).map Prod.fst =
      some (C.own.chacha20poly1305write key nonce inp) := by
  rw [chacha20poly1305write_eq]
  rfl

theorem own_read (junk : Bytes 16) (key : Bytes 32) (nonce : Bytes 12) (inp : List UInt8) :
    (chacha20poly1305read junk (chacha20poly1305init key nonce) [] inp).map (·.map Prod.fst) =
      some (C.own.chacha20poly1305read key nonce inp) := by
  rw [chacha20poly1305read_eq, Option.map_some, Option.map_map]
  exact congrArg some Option.map_id'

theorem own_hdrkey (junk : Hmacsha256ctx) (junk' : Bytes 64) (filekey : Bytes 16) :
    hkdfsha256 junk junk' filekey.val [] (ascii "header") = some (C.own.hdrkey filekey) :=
  hkdfsha256_spec junk junk' _ _ _

end

/-- The texts of a header go to the MAC one by one.  The digest is the one
that `hdrfinish` encodes and that `mac` makes of the whole header. -/
theorem headerMac_pieces (C : Crypto) (junk : Hmacsha256ctx) (junk' : Bytes 64)
    (filekey : Bytes 16) (texts : List (List UInt8)) :
    ∃ dk ctx ctx' md ctx'',
      hkdfsha256 junk junk' filekey.val [] (ascii "header") = some dk ∧
      hmacsha256init junk dk.val = some ctx ∧
      texts.foldlM hmacsha256update ctx = some ctx' ∧
      hmacsha256final ctx' = some (md, ctx'') ∧
      base64encode md.val false =
        hdrfinish C.own { hdrinit C.own filekey with absorbed := texts.flatten } ∧
      hmacsha256 junk dk.val texts.flatten = some md ∧
      md = C.own.mac texts.flatten filekey := by
  have hkey := own_hdrkey C junk junk' filekey
  obtain ⟨ctx, ctx', ctx'', hinit, hupdate, hfinal⟩ :=
    hmacsha256_pieces junk (C.own.hdrkey filekey).val texts
  exact ⟨_, ctx, ctx', _, ctx'', hkey, hinit, hupdate, hfinal, rfl, hmacsha256_spec junk _ _, rfl⟩

end Agecrypt
