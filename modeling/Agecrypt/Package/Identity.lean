import Agecrypt.Agec.Bech32
import Agecrypt.Package.Fileio

/-!
# Recipients and identities

The part of `binding.c` that reads and writes keys.  A C string is the list
of its bytes up to the terminating NUL.  An identity object owns its keys;
its value here is the list of them, `none` when it has been freed.

`scan_keyfile` works on the contents of a file as one C string, so that the
bytes behind a NUL are not looked at.
-/

namespace Agecrypt

open Pkg

def PUBKEYLEN : Nat := 62
def PRIVKEYLEN : Nat := 74
def KEYFILE_MAX : Nat := 1024 * 1024

/-! ## The external pointer -/

/-- `id_tag`: the first call makes the symbol. -/
def idTag : Pkg Unit := ralloc

/-- `id_addr`, and the check of `id->keys` behind each of its calls. -/
def idAddr : Sexp → Pkg (Option (List (Bytes 32)))
  | .extptr tag keys => do
    idTag
    return if tag then keys else none
  | _ => return none

def idWrap (keys : List (Bytes 32)) : Pkg Sexp := do
  idTag
  ralloc   -- the pointer
  ralloc   -- its finalizer
  return .extptr true (some keys)

/-! ## Recipients -/

/-- The loop of `parse_recipients`. -/
def parseRecipientsLoop : List (Option (List UInt8)) → List (Bytes 32) →
    Except String (List (Bytes 32))
  | [], recs => .ok recs
  | none :: _, _ => .error "invalid recipient string"
  | some s :: els, recs =>
    if s.length ≠ PUBKEYLEN then .error "invalid recipient string"
    else
      match x25519pubkey s with
      | none => .error "failed to parse recipient key"
      | some rec => parseRecipientsLoop els (recs ++ [rec])

def parseRecipients : Sexp → Pkg (Except String (List (Bytes 32)))
  | .str els => do
    if els.length = 0 then return .error "no recipients supplied"
    else if ¬ (← op (.malloc (els.length * 32))) then return .error "out of memory"
    else return parseRecipientsLoop els []
  | _ => return .error "recipients must be a character vector"

/-! ## Identity keys -/

/-- The first `n` slots of the array, and the number of slots. -/
structure Keybuf where
  keys : List (Bytes 32)
  cap : Nat
deriving DecidableEq, Repr

/-- What `keybuf_push` returned: 1, 0 or -1. -/
inductive Pushed where
  | ok | invalid | oom
deriving DecidableEq, Repr

/-- The array with room for one more key; `none` when there is no memory. -/
def keybufGrow (kb : Keybuf) : Pkg (Option Keybuf) := do
  if kb.keys.length = kb.cap then
    let ncap := if kb.cap ≠ 0 then kb.cap * 2 else 4
    if ← op (.malloc (ncap * 32)) then return some { kb with cap := ncap } else return none
  else return some kb

def keybufPush (kb : Keybuf) (s : List UInt8) : Pkg (Pushed × Keybuf) := do
  if s.length ≠ PRIVKEYLEN then return (.invalid, kb)
  else
    match ← keybufGrow kb with
    | none => return (.oom, kb)
    | some kb =>
      match x25519privkey s with
      | none => return (.invalid, kb)
      | some key =>
        if kb.keys.length < kb.cap then return (.ok, { kb with keys := kb.keys ++ [key] })
        else do nomatch (← op .outside)

def isBlank (c : UInt8) : Bool := c = 0x20 || c = 0x09 || c = 0x0d

def trimline (s : List UInt8) : List UInt8 :=
  ((s.dropWhile isBlank).reverse.dropWhile isBlank).reverse

/-- The text of a buffer up to the first NUL. -/
def cstring (buf : List UInt8) : List UInt8 := buf.takeWhile (· ≠ 0)

/-- `strstr(t, needle) != NULL` -/
def strstr (needle : List UInt8) : List UInt8 → Bool
  | [] => needle.isEmpty
  | c :: cs => needle.isPrefixOf (c :: cs) || strstr needle cs

/-! ## Key files -/

/-- The variables of the loop of `slurp_keyfile`; `len` is the length of
`buf`. -/
structure Slurp where
  buf : List UInt8
  cap : Nat
deriving DecidableEq, Repr

/-- The buffer with room for more; `none` when there is no memory. -/
def slurpGrow (st : Slurp) : Pkg (Option Slurp) := do
  if st.buf.length = st.cap - 1 then
    if ← op (.malloc (st.cap * 2)) then return some { st with cap := st.cap * 2 } else return none
  else return some st

/-- The loop body of `slurp_keyfile`: the text in the file or a message. -/
def slurpRead (fd : Int) (st : Slurp) : Pkg (Slurp ⊕ Except String (List UInt8)) := do
  if st.buf.length ≥ KEYFILE_MAX then do
    let _ ← op (.close fd)
    return .inr (.error (copyerr 512 "key file is too large"))
  else
    match ← slurpGrow st with
    | none => do
      let _ ← op (.close fd)
      return .inr (.error (copyerr 512 "out of memory"))
    | some st =>
      match ← op (.read fd (st.cap - 1 - st.buf.length)) with
      | none => do
        let msg := copyerr 512 (← syserr)
        let _ ← op (.close fd)
        return .inr (.error msg)
      | some [] => do
        let _ ← op (.close fd)
        return .inr (.ok st.buf)
      | some bs => return .inl { st with buf := st.buf ++ bs }

def slurpKeyfile (path : Path) : Pkg (Except String (List UInt8)) := do
  match ← op (.openRead path) with
  | none => return .error (copyerr 512 (← syserr))
  | some fd =>
    if ¬ (← op (.malloc 4096)) then do
      let _ ← op (.close fd)
      return .error (copyerr 512 "out of memory")
    else ProgE.loop (slurpRead fd) ⟨[], 4096⟩

/-- The loop body of `scan_keyfile` on one line: a message, or `none`. -/
def scanLine (kb : Keybuf) (line : List UInt8) : Pkg (Option String × Keybuf) := do
  let t := trimline line
  if (ascii "-----BEGIN AGE").isPrefixOf t ∨ strstr (ascii "age-encryption.org/v1") t then
    return (some (copyerr 512 "passphrase-encrypted key files are not supported"), kb)
  else if ¬ (ascii "AGE-SECRET-KEY-1").isPrefixOf t then return (none, kb)
  else
    match ← keybufPush kb t with
    | (.oom, kb) => return (some (copyerr 512 "out of memory"), kb)
    | (.invalid, kb) => return (some (copyerr 512 "failed to parse identity in key file"), kb)
    | (.ok, kb) => return (none, kb)

/-- The loop of `scan_keyfile` over the lines of the text. -/
def scanLines : List (List UInt8) → Keybuf → Pkg (Option String × Keybuf)
  | [], kb => return (none, kb)
  | line :: lines, kb => do
    match ← scanLine kb line with
    | (some msg, kb) => return (some msg, kb)
    | (none, kb) => scanLines lines kb

/-- The pieces of the text between line feeds. -/
def lines : List UInt8 → List (List UInt8)
  | [] => [[]]
  | c :: cs =>
    if c = NL then [] :: lines cs
    else
      match lines cs with
      | [] => [[c]]
      | line :: rest => (c :: line) :: rest

/-- `scan_keyfile`: the message of a failure, and the keys. -/
def scanKeyfile (path : Path) (kb : Keybuf) : Pkg (Option String × Keybuf) := do
  match ← slurpKeyfile path with
  | .error msg => return (some msg, kb)
  | .ok buf =>
    match ← scanLines (lines (cstring buf)) kb with
    | (some msg, kb') => return (some msg, kb')
    | (none, kb') =>
      if kb'.keys.length = kb.keys.length then
        return (some (copyerr 512 "no age identities in key file"), kb')
      else return (none, kb')

/-! ## The entry points -/

def ageCKeygen (C : Crypto) : Pkg Result := do
  op .eclear
  match ← op (.randombuf 32) with
  | none => resultErr "internal" "failed to generate private key"
  | some priv =>
    match C.x25519pub priv with
    | none => resultErr "internal" "curve25519 low order point"
    | some _ =>
      if ¬ (← op (.malloc 16)) then resultErr "internal" "out of memory"
      else if ¬ (← op (.malloc 32)) then resultErr "internal" "out of memory"
      else resultOk (← idWrap [priv])

/-- The loop of `age_c_identity_parse`. -/
def parseItems : List (Option (List UInt8) × Option Bool) → Keybuf → Pkg (Except String Keybuf)
  | [], kb => return .ok kb
  | (some s, some true) :: items, kb => do
    match ← scanKeyfile s kb with
    | (some msg, _) => return .error msg
    | (none, kb) => parseItems items kb
  | (some s, some false) :: items, kb => do
    match ← keybufPush kb s with
    | (.oom, _) => return .error "out of memory"
    | (.invalid, _) => return .error "failed to parse identity"
    | (.ok, kb) => parseItems items kb
  | _ :: _, _ => return .error "invalid identity string"

def ageCIdentityParse (items isfile : Sexp) : Pkg Result := do
  op .eclear
  match items, isfile with
  | .str els, .lgl file =>
    if els.length = 0 ∨ file.length ≠ els.length then
      resultErr "identity" "no identities supplied"
    else
      match ← parseItems (els.zip file) ⟨[], 0⟩ with
      | .error msg => resultErr "identity" msg
      | .ok kb =>
        if kb.keys.length = 0 then resultErr "identity" "no identities found"
        else if ¬ (← op (.malloc 16)) then resultErr "identity" "out of memory"
        else resultOk (← idWrap kb.keys)
  | _, _ => resultErr "identity" "invalid identity input"

/-- The loop of `age_c_identity_pubkeys`; the strings so far in `out`. -/
def pubkeysLoop (C : Crypto) : List (Bytes 32) → List (Option (List UInt8)) →
    Pkg (Except String (List (Option (List UInt8))))
  | [], out => return .ok out
  | key :: keys, out =>
    match C.x25519pub key with
    | none => return .error "curve25519 low order point"
    | some pub =>
      match bech32encode (ascii "age") pub.val with
      | none => return .error "failed to encode public key"
      | some bech => do
        ralloc
        pubkeysLoop C keys (out ++ [some (bech.take PUBKEYLEN)])

def ageCIdentityPubkeys (C : Crypto) (ext : Sexp) : Pkg Result := do
  op .eclear
  match ← idAddr ext with
  | none => resultErr "identity" "invalid or freed identity"
  | some keys => do
    ralloc
    match ← pubkeysLoop C keys [] with
    | .error msg => resultErr "identity" msg
    | .ok out => resultOk (.str out)

/-- The size of the buffer `line`. -/
def LINECAP : Nat := 128 + PUBKEYLEN + PRIVKEYLEN

/-- The three lines of one identity. -/
def identityLines (ts pubbech privbech : List UInt8) : List UInt8 :=
  ascii "# created: " ++ ts ++ ascii "\n# public key: " ++ pubbech ++ [NL] ++ privbech ++ [NL]

/-- The two texts of a key; `none` when one of them cannot be made. -/
def identityTexts (C : Crypto) (key : Bytes 32) : Option (List UInt8 × List UInt8) := do
  let pub ← C.x25519pub key
  let pubbech ← bech32encode (ascii "age") pub.val
  let privbech ← bech32encode (ascii "age-secret-key-") key.val
  some (pubbech, privbech.map toupper)

/-- The loop of `age_c_identity_write`: `none`, or the class and message of a
failure. -/
def writeIdentities (C : Crypto) (tmpfd : Int) (ts : List UInt8) :
    List (Bytes 32) → Pkg (Option (String × String))
  | [] => return none
  | key :: keys =>
    match identityTexts C key with
    | none => return some ("identity", "failed to encode key")
    | some (pubbech, privbech) => do
      let line := identityLines ts pubbech privbech
      if line.length ≥ LINECAP then return some ("io", "failed to write key file")
      else if ← op (.writeall tmpfd line) then writeIdentities C tmpfd ts keys
      else return some ("io", "failed to write key file")

def ageCIdentityWrite (C : Crypto) (R : RApi) (ext path created overwrite : Sexp) : Pkg Result := do
  op .eclear
  match ← idAddr ext with
  | none => resultErr "identity" "invalid or freed identity"
  | some keys => do
    let ts ← charElt created 0
    let outp ← charElt path 0
    if ¬ (← op (.malloc (outp.length + 24))) then resultErr "io" "out of memory"
    else
      match ← ageOpenTemp outp (outp.length + 24) with
      | none => do
        let msg := copyerr 256 (← syserr)
        resultErr "io" msg
      | some (tmpfd, tmppath) =>
        match ← writeIdentities C tmpfd ts keys with
        | some (cls, msg) => do
          discardOutput tmpfd tmppath
          resultErr cls msg
        | none =>
          match ← commitOutput tmpfd tmppath outp (R.asLogical overwrite = some true) with
          | some msg => resultErr "io" msg
          | none => do
            ralloc
            resultOk (.lgl [some true])

end Agecrypt
