import Agecrypt.Agec.Header
import Agecrypt.Agec.Payload

/-!
# `agecore.c`: encryption and decryption

The two directions of the codec.  Recipients and identities are lists of
32-byte keys.  `filekey` and the `Stanza` of the decryption are local
variables that the source leaves uninitialised: their first values are
parameters.

`validmac` is in two parts here.  `macArgs` runs up to the call of `mac` and
answers its arguments, the bytes that lie at the pointer from `recstop` at
that time, and the MAC that the file holds.
-/

namespace Agecrypt

def SCRYPTMAXCOST : Int := 22

/-- Equality of two byte strings of one length, by the bits that differ. -/
def ctEq (a b : List UInt8) : Bool :=
  (List.zipWith (· ^^^ ·) a b).foldl (· ||| ·) 0 == 0

/-! ## Encryption -/

def mkfilekey : Rw (Bytes 16) := do
  match ← Rw.randombuf 16 with
  | none => throw "failed to generate file key"
  | some filekey => return filekey

def payload (C : Crypto) (filekey : Bytes 16) : Rw Unit := do
  match ← Rw.randombuf 16 with
  | none => throw "failed to generate payload nonce"
  | some plnonce =>
    if ← Rw.bwrite plnonce.val then plencrypt C (C.payloadkey filekey plnonce)
    else Rw.failed

/-- What a file is encrypted to. -/
inductive Recipients where
  | keys (recs : List (Bytes 32))
  | passphrase (pass : List UInt8) (cost : Nat)

def pubenc (C : Crypto) (filekey : Bytes 16) : List (Bytes 32) → Header → Wr Header
  | [], h => return h
  | rec :: recs, h => do
    let h ← x25519stanza C h filekey rec
    pubenc C filekey recs h

/-- The stanzas of the header. -/
def stanzas (C : Crypto) (filekey : Bytes 16) (rcpt : Recipients) (h : Header) : Wr Header :=
  match rcpt with
  | .keys recs => pubenc C filekey recs h
  | .passphrase pass cost => scryptstanzacost C h filekey pass cost

/-- `writeall` of a line around the armored text. -/
def armorline (line : List UInt8) : Wr Unit := do
  if ← Wr.obarmor then
    if ← Wr.writeall line then return () else Wr.failed
  else return ()

def makehdr (C : Crypto) (filekey : Bytes 16) (rcpt : Recipients) : Wr Unit := do
  armorline armorfirst
  let h ← hdrappend (hdrinit C filekey) versionLine
  let h ← stanzas C filekey rcpt h
  let h ← hdrappend h stanzaEnd
  if ← Wr.bwrite ([SP] ++ hdrfinish C h ++ [NL]) then return () else Wr.failed

def writebody (C : Crypto) (filekey : Bytes 16) : Rw Unit := do
  payload C filekey
  if ← Rw.bflush then Rw.wr (armorline armorlast) else Rw.failed

def encipher (C : Crypto) (rcpt : Recipients) : Rw Unit := do
  let filekey ← mkfilekey
  Rw.wrapped "failed to generate header" (Rw.wr (makehdr C filekey rcpt))
  Rw.wrapped "failed to encrypt" (writebody C filekey)

def ageEncipher (C : Crypto) (recs : List (Bytes 32)) : Rw Unit :=
  encipher C (.keys recs)

def ageEncipherPassphrase (C : Crypto) (pass : List UInt8) (cost : Nat) : Rw Unit :=
  encipher C (.passphrase pass cost)

/-! ## The header MAC -/

/-- `validmac` up to its call of `mac`: the MAC in the file, and the data. -/
def macArgs : Age (Bytes 32 × List UInt8) := do
  match ← Age.recstop with
  | none => Age.failed
  | some len => do
    let mac1 ← Age.rd getmac
    let data ← Age.loadData len
    return (mac1, data)

def validmac (C : Crypto) (filekey : Bytes 16) : Age Bool := do
  let (mac1, data) ← macArgs
  return ctEq mac1.val (C.mac data filekey).val

def validatemac (C : Crypto) (filekey : Bytes 16) : Age Unit := do
  let valid ← Age.wrapped "error parsing header" (validmac C filekey)
  if ¬ valid then throw "bad header MAC" else return ()

/-! ## Decryption -/

/-- The loop of `findx25519`; the file key of the first identity that opens
the stanza. -/
def findx25519 (C : Crypto) (arg : X25519arg) :
    List (Bytes 32) → Except String (Option (Bytes 16))
  | [] => .ok none
  | id :: ids =>
    match x25519getkey C arg id with
    | .error e => .error e
    | .ok (some filekey) => .ok (some filekey)
    | .ok none => findx25519 C arg ids

/-- The variables of `match`, and those of its caller that it fills. -/
structure MatchState where
  filekey : Bytes 16
  s : Option Stanza
  found : Bool
  seenscrypt : Bool
  n : Int
deriving DecidableEq, Repr

/-- What the loop of `match` does with a stanza, before it counts it. -/
def matchStanza (C : Crypto) (ids : List (Bytes 32)) (s : Stanza) (st : MatchState) :
    Except String MatchState :=
  let st := { st with s := some s }
  match s with
  | .scrypt _ => .ok { st with found := true, seenscrypt := true }
  | .unknown => .ok st
  | .x25519 arg =>
    if st.found then .ok st
    else
      match findx25519 C arg ids with
      | .error e => .error e
      | .ok none => .ok st
      | .ok (some filekey) => .ok { st with filekey, found := true }

def matchIds (C : Crypto) (ids : List (Bytes 32)) (filekey : Bytes 16) : Rd MatchState := do
  let st ← ProgE.loop (fun (st : MatchState) => do
    match ← ProgE.attempt getstanza with
    | .error e => throw (← Rd.ewrap "error parsing header" e)
    | .ok none => return .inr st
    | .ok (some s) =>
      match matchStanza C ids s st with
      | .error e => throw (← Rd.ewrap "failed to match identity" e)
      | .ok st => do
        let n ← incint st.n
        return .inl { st with n }) ⟨filekey, none, false, false, 0⟩
  if st.n > 1 ∧ st.seenscrypt then
    throw "invalid input: scrypt recipient is not the only one"
  else return st

/-- The payload behind a header whose MAC is valid. -/
def decipherBody (C : Crypto) (filekey : Bytes 16) : Rw Unit := do
  let plnonce ← Rw.wrapped "error parsing header" (Rw.rd getplnonce)
  Rw.wrapped "failed to decrypt" (pldecrypt C (C.payloadkey filekey plnonce))
  if ← Rw.bflush then return () else Rw.failed

def decipherPayload (C : Crypto) (filekey : Bytes 16) : Age Unit := do
  Age.wrapped "failed to decrypt" (validatemac C filekey)
  Age.rw (decipherBody C filekey)

/-- The file key for `age_decipher`, once the header has been read. -/
def identityKey (st : MatchState) : Rd (Bytes 16) :=
  match st.found, st.s with
  | true, some (.scrypt _) =>
    throw "file is passphrase-encrypted; use the *_passphrase functions"
  | true, _ => return st.filekey
  | false, _ => throw "no identity matched any of the recipients"

/-- The file key for `age_decipher_passphrase`. -/
def passphraseKey (C : Crypto) (pass : List UInt8) (st : MatchState) : Rd (Bytes 16) :=
  match st.found, st.s with
  | true, some (.scrypt arg) =>
    if arg.cost > SCRYPTMAXCOST then throw "scrypt work factor is too large"
    else do
      match ← scryptgetkey C arg pass with
      | none => throw "incorrect passphrase"
      | some filekey => return filekey
  | _, _ => throw "no scrypt recipient found (file is not passphrase-encrypted)"

/-- The header up to its end, for the identities `ids`. -/
def openHeader (C : Crypto) (ids : List (Bytes 32)) (filekey : Bytes 16) : Rd MatchState := do
  match ← ProgE.attempt getversion with
  | .error e => throw (← Rd.ewrap "error parsing header" e)
  | .ok () => matchIds C ids filekey

def ageDecipher (C : Crypto) (ids : List (Bytes 32)) (filekey : Bytes 16) : Age Unit := do
  let st ← Age.rd (openHeader C ids filekey)
  let filekey ← Age.rd (identityKey st)
  decipherPayload C filekey

def ageDecipherPassphrase (C : Crypto) (pass : List UInt8) (filekey : Bytes 16) :
    Age Unit := do
  let st ← Age.rd (openHeader C [] filekey)
  let filekey ← Age.rd (passphraseKey C pass st)
  decipherPayload C filekey

end Agecrypt
