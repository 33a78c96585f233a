import Agecrypt.Agec.Crypto
import Agecrypt.Agec.Parse

/-!
# `header.c`, `x25519.c` and `scrypt.c`: writing the header

The header goes to the output as it is made, and the same bytes go to the
MAC.  `Header` is the context of the MAC: its key, and the bytes that it has
absorbed.  `hdrappend` receives the text that the source formats.
-/

namespace Agecrypt

/-- The context of the header MAC. -/
structure Header where
  key : Bytes 32
  absorbed : List UInt8

def hdrinit (C : Crypto) (filekey : Bytes 16) : Header := ⟨C.hdrkey filekey, []⟩

/-- Size of the buffer that `hdrappend` formats into. -/
def HDRBUFSIZE : Nat := 256

def hdrappend (h : Header) (text : List UInt8) : Wr Header := do
  if text.length ≥ HDRBUFSIZE then throw "buffer overflow"
  else if ← Wr.bwrite text then return { h with absorbed := h.absorbed ++ text }
  else Wr.failed

/-- The encoded MAC. -/
def hdrfinish (C : Crypto) (h : Header) : List UInt8 :=
  base64encode (C.hmacsha256 h.key.val h.absorbed).val false

/-! ## X25519 stanzas -/

def ezeroresult : String := "curve25519 low order point"

/-- `body` of `x25519.c` -/
def x25519wrap (C : Crypto) (share esecret pubkey : Bytes 32) (filekey : Bytes 16) :
    Option (Bytes 32) :=
  (C.x25519 esecret pubkey).map (fun secret => C.keyenc (C.wrap share secret pubkey) filekey)

def x25519stanza (C : Crypto) (h : Header) (filekey : Bytes 16) (pubkey : Bytes 32) :
    Wr Header := do
  match ← Wr.randombuf 32 with
  | none => throw "failed to generate ephemeral secret"
  | some esecret =>
    match C.x25519 esecret curve25519basepoint with
    | none => throw ezeroresult
    | some share => do
      let h ← hdrappend h (ascii "-> X25519 " ++ base64encode share.val false ++ [NL])
      match x25519wrap C share esecret pubkey filekey with
      | none => throw ezeroresult
      | some b => hdrappend h (base64encode b.val false ++ [NL])

/-- The file key, or `none` when the identity does not open the stanza. -/
def x25519getkey (C : Crypto) (arg : X25519arg) (privkey : Bytes 32) :
    Except String (Option (Bytes 16)) :=
  match C.x25519 privkey arg.share with
  | none => .error ezeroresult
  | some secret =>
    match C.x25519pub privkey with
    | none => .error ezeroresult
    | some pubkey => .ok (C.keydec (C.wrap arg.share secret pubkey) arg.body)

/-! ## The scrypt stanza -/

def SALTLEN : Nat := 16

/-- The salt behind its label. -/
def catlabel (salt : Bytes 16) : List UInt8 :=
  ascii "age-encryption.org/v1/scrypt" ++ salt.val

/-- `wrapkey` without the prefix of its error text. -/
def wrapkey (C : Crypto) (pass : List UInt8) (salt : Bytes 16) (factor : Nat) :
    Except String (Bytes 32) :=
  C.scrypt pass (catlabel salt) (2 ^ factor) 8 1

/-- `stanza` of `scrypt.c` -/
def scryptstanza (C : Crypto) (h : Header) (filekey : Bytes 16) (pass : List UInt8)
    (salt : Bytes 16) (cost : Nat) : Wr Header := do
  match wrapkey C pass salt cost with
  | .error e => throw (← Wr.ewrap "scrypt" e)
  | .ok key => do
    let body := C.keyenc key filekey
    let h ← hdrappend h (ascii "-> scrypt " ++ base64encode salt.val false ++ [SP] ++
      ascii (toString cost) ++ [NL])
    hdrappend h (base64encode body.val false ++ [NL])

def scryptstanzacost (C : Crypto) (h : Header) (filekey : Bytes 16) (pass : List UInt8)
    (cost : Nat) : Wr Header := do
  match ← Wr.randombuf SALTLEN with
  | none => throw "scrypt: failed to generate salt"
  | some salt => scryptstanza C h filekey pass salt cost

/-- The file key, or `none` for a wrong passphrase.  The cost is at most
`SCRYPTMAXCOST` when the source calls it. -/
def scryptgetkey (C : Crypto) (arg : Scryptarg) (pass : List UInt8) :
    Rd (Option (Bytes 16)) := do
  match wrapkey C pass arg.salt arg.cost.toNat with
  | .error e => throw (← Rd.ewrap "scrypt" e)
  | .ok wk => return C.keydec wk arg.body

end Agecrypt
