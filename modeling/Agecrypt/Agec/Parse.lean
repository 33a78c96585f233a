import Agecrypt.Agec.Ops

/-!
# `parse.c`: the parser of the header

The parser reads one character at a time, and looks one character ahead in
the argument of a stanza.  A stanza whose type it does not know is skipped
and checked for its form only.

`getstanza` fills one `Stanza`, a type with a union.  Its model answers the
value that is in there at the end: for an unknown type the union is not
filled, so `Stanza.unknown` has no contents.
-/

namespace Agecrypt

def SP : UInt8 := 32   -- ' '

/-- Length of the encoding of `l` bytes without padding and line feeds. -/
def B64EBUFLEN (l : Nat) : Nat :=
  l / 3 * 4 + if l % 3 ≠ 0 then l % 3 + 1 else 0

structure Scryptarg where
  salt : Bytes 16
  body : Bytes 32
  cost : Int
deriving DecidableEq, Repr

structure X25519arg where
  share : Bytes 32
  body : Bytes 32
deriving DecidableEq, Repr

inductive Stanza where
  | scrypt (arg : Scryptarg)
  | x25519 (arg : X25519arg)
  | unknown
deriving DecidableEq, Repr

/-- Result of `getb64seq`: -1, 0, or 1 with the decoded value. -/
inductive B64seq (rawlen : Nat) where
  | ioerr | invalid
  | value (out : Bytes rawlen)

def versionLine : List UInt8 := ascii "age-encryption.org/v1\n"

def getversion : Rd Unit := do
  match ← Rd.bread versionLine.length with
  | none => Rd.failed
  | some buf =>
    if buf.length ≠ versionLine.length then throw "invalid version line"
    else if buf ≠ versionLine then throw "invalid version line"
    else return ()

def readc : Rd Peek := do
  match ← Rd.bread 1 with
  | none => return .err
  | some [] => return .eof
  | some (c :: _) => return .char c

def vchar (c : UInt8) : Bool := 0x21 ≤ c && c ≤ 0x7e

/-- Letters, digits, `'+'` and `'/'`. -/
def b64char (c : UInt8) : Bool :=
  (65 ≤ c && c ≤ 90) || (97 ≤ c && c ≤ 122) || (48 ≤ c && c ≤ 57) || c == 43 || c == 47

/-! ## Skipping a stanza -/

/-- The loop state is `prevspace`. -/
def skipargline : Rd Unit :=
  ProgE.loop (fun (prevspace : Bool) => do
    match ← readc with
    | .err => Rd.failed
    | .eof => throw "invalid stanza optional argument"
    | .char c =>
      if prevspace ∧ (c = SP ∨ c = NL) then throw "invalid stanza optional argument"
      else if c = NL then return .inr ()
      else if c = SP then return .inl true
      else if ¬ vchar c then throw "invalid stanza optional argument"
      else return .inl false) true

/-- The loop state is `line` up to `linelen`. -/
def skipargbody : Rd Unit :=
  ProgE.loop (fun (line : List UInt8) => do
    match ← readc with
    | .err => Rd.failed
    | .eof => throw "invalid stanza body"
    | .char c =>
      if c = NL then
        if line.length > 64 then throw "invalid stanza body"
        else match base64decode line false with
          | none => throw "invalid stanza body"
          | some _ => return if line.length < 64 then .inr () else .inl []
      else if line.length = 64 then throw "invalid stanza body"
      else return .inl (line ++ [c])) []

def skipstanza : Rd Unit := do
  match ← readc with
  | .err => Rd.failed
  | .eof => throw "invalid stanza"
  | .char c =>
    if c = SP then
      skipargline
      skipargbody
    else if c ≠ NL then throw "invalid stanza"
    else skipargbody

/-! ## The type of a stanza -/

/-- `getarg(b, dest, maxlen, …)`, with `rest` for `maxlen - *len`: the
argument, and whether it was read in full. -/
def getarg (rest : Nat) (dest : List UInt8) : Rd (List UInt8 × Bool) := do
  match ← Rd.bpeek with
  | .err => Rd.failed
  | .eof => throw "invalid stanza argument"
  | .char c =>
    if c = SP ∨ c = NL then return (dest, true)
    else match rest with
      | 0 => return (dest, false)
      | rest + 1 =>
        if ¬ vchar c then throw "invalid stanza argument"
        else do
          -- the result of `readc` is not looked at
          let _ ← readc
          getarg rest (dest ++ [c])

def skiparg : Rd Unit :=
  ProgE.loop (fun () => do
    match ← Rd.bpeek with
    | .err => Rd.failed
    | .eof => throw "invalid stanza argument"
    | .char c =>
      if c = SP ∨ c = NL then return .inr ()
      else if ¬ vchar c then throw "invalid stanza argument"
      else do
        let _ ← readc
        return .inl ()) ()

/-! ## Values in base64 -/

/-- The characters up to `term`, at most `rest` of them; `none` for a
format error.  After `rest` characters the terminator must follow. -/
def b64chars (term : UInt8) : Nat → List UInt8 → Rd (Option (Option (List UInt8)))
  | 0, buf => do
    match ← readc with
    | .err => return none
    | .eof => return some none
    | .char c => return if c ≠ term then some none else some (some buf)
  | rest + 1, buf => do
    match ← readc with
    | .err => return none
    | .eof => return some none
    | .char c =>
      if c = term then return some (some buf)
      else if ¬ b64char c then return some none
      else b64chars term rest (buf ++ [c])

def getb64seq (rawlen : Nat) (term : UInt8) : Rd (B64seq rawlen) := do
  match ← b64chars term (B64EBUFLEN rawlen) [] with
  | none => return .ioerr
  | some none => return .invalid
  | some (some buf) =>
    match (base64decode buf false).bind (Bytes.ofList? rawlen) with
    | none => return .invalid
    | some out => return .value out

/-- A value that must be there: the callers of `getb64seq` differ in the
length, the terminator and the message. -/
def b64value (rawlen : Nat) (term : UInt8) (einval : String) : Rd (Bytes rawlen) := do
  match ← getb64seq rawlen term with
  | .ioerr => Rd.failed
  | .invalid => throw einval
  | .value out => return out

def scryptsalt : Rd (Bytes 16) := b64value 16 SP "invalid scrypt salt"
def scryptbody : Rd (Bytes 32) := b64value 32 NL "invalid scrypt body"
def x25519share : Rd (Bytes 32) := b64value 32 NL "invalid X25519 share"
def x25519body : Rd (Bytes 32) := b64value 32 NL "invalid X25519 body"

/-- The number that decimal digits denote. -/
def atoi (digits : List UInt8) : Int :=
  digits.foldl (fun n c => 10 * n + (c.toNat - 48 : Int)) 0

/-- The digits up to the newline, at most `rest` of them. -/
def costDigits : Nat → List UInt8 → Rd (List UInt8)
  | 0, _ => throw "invalid scrypt work factor"
  | rest + 1, buf => do
    match ← readc with
    | .err => Rd.failed
    | .eof => throw "invalid scrypt work factor"
    | .char c =>
      if c = NL then
        if buf.head? = none ∨ buf.head? = some 48 then throw "invalid scrypt work factor"
        else return buf
      else if ¬ (48 ≤ c ∧ c ≤ 57) then throw "invalid scrypt work factor"
      else costDigits rest (buf ++ [c])

def scryptcost : Rd Int := do
  let buf ← costDigits 5 []
  return atoi buf

def getscrypt : Rd Scryptarg := do
  let salt ← scryptsalt
  let cost ← scryptcost
  let body ← scryptbody
  return ⟨salt, body, cost⟩

def getx25519 : Rd X25519arg := do
  let share ← x25519share
  let body ← x25519body
  return ⟨share, body⟩

/-! ## Stanzas and the rest of the header -/

def argscrypt : List UInt8 := ascii "scrypt"
def argx25519 : List UInt8 := ascii "X25519"

def stanzaEnd : List UInt8 := ascii "---"
def stanzaBegin : List UInt8 := ascii "-> "

/-- The `unknown` label of `getstanza`. -/
def getunknown : Rd (Option Stanza) := do
  skipstanza
  return some .unknown

/-- The space after a type that is known. -/
def getargspace : Rd Unit := do
  match ← readc with
  | .err => Rd.failed
  | .eof => throw "invalid stanza"
  | .char c => if c ≠ SP then throw "invalid stanza" else return ()

/-- The next stanza, or `none` at the end of the header. -/
def getstanza : Rd (Option Stanza) := do
  match ← Rd.bread 3 with
  | none => Rd.failed
  | some buf =>
    if buf.length ≠ 3 then throw "invalid stanza"
    else if buf = stanzaEnd then return none
    else if buf ≠ stanzaBegin then throw "invalid stanza"
    else do
      let (arg, fullread) ← getarg argscrypt.length []
      if ¬ fullread then do
        skiparg
        getunknown
      else if arg = argscrypt then do
        getargspace
        let s ← getscrypt
        return some (.scrypt s)
      else if arg = argx25519 then do
        getargspace
        let s ← getx25519
        return some (.x25519 s)
      else getunknown

def skipspace : Rd Unit := do
  match ← readc with
  | .err => Rd.failed
  | .eof => throw "invalid header MAC"
  | .char c => if c ≠ SP then throw "invalid header MAC" else return ()

def getmac : Rd (Bytes 32) := do
  skipspace
  b64value 32 NL "invalid header MAC"

def getplnonce : Rd (Bytes 16) := do
  match ← Rd.bread 16 with
  | none => Rd.failed
  | some plnonce =>
    match Bytes.ofList? 16 plnonce with
    | none => throw "payload nonce is too short"
    | some plnonce => return plnonce

end Agecrypt
