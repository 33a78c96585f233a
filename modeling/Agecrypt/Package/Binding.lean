import Agecrypt.Package.Identity

/-!
# `binding.c`: the entry points of encryption and decryption

The raw entry points run the codec between two in-memory streams, the path
entry points between a file and a temporary file that is moved onto the
destination.  `m` is what the memory of an entry point's local variables
holds at its start, and `junk` that of the file key inside the codec.
-/

namespace Agecrypt

open Pkg

/-! ## The end of an in-memory operation -/

/-- `mem_clean` -/
def memClean (vin vout : Int) : Pkg Unit := do
  op (.memclose vin)
  op (.memclose vout)

/-- `mem_body` -/
def memBody (vout : Int) : Pkg Result := do
  let odata ← op (.memdata vout)
  ralloc
  resultOk (.raw odata)

def memFinish (vin vout : Int) : Pkg Result := do
  makeUnwindCont
  unwindProtect (memBody vout) (memClean vin vout)

def memFail (vin vout : Int) (cls e : String) : Pkg Result := do
  let msg := copyerr EBUFSIZE e
  memClean vin vout
  resultErr cls msg

/-- The middle of the four raw entry points: open the two streams, run the
codec between them, and finish or fail. -/
def memTransform (m : Memory) (din : List UInt8) (recording isarmor : Bool) (fn : Age Unit)
    (failClass : String) : Pkg Result := do
  let vin ← op (.memopenRead din)
  let vout ← op .memopenWrite
  if vin = -1 ∨ vout = -1 then do
    if vin ≠ -1 then op (.memclose vin)
    if vout ≠ -1 then op (.memclose vout)
    resultErr "internal" "failed to allocate buffer"
  else do
    op (.ibinit m vin recording)
    op (.obinit m vout isarmor)
    match ← ProgE.attempt (age fn) with
    | .error e => memFail vin vout failClass e
    | .ok () => memFinish vin vout

def ageCEncrypt (C : Crypto) (R : RApi) (m : Memory) (data recipients armor : Sexp) :
    Pkg Result := do
  op .eclear
  let din ← RAW data
  match ← parseRecipients recipients with
  | .error e => resultErr "recipient" e
  | .ok recs =>
    memTransform m din false (R.asLogical armor = some true) (Age.rw (ageEncipher C recs)) "encrypt"

def ageCDecrypt (C : Crypto) (m : Memory) (junk : Bytes 16) (data ext : Sexp) : Pkg Result := do
  op .eclear
  let din ← RAW data
  match ← idAddr ext with
  | none => resultErr "identity" "invalid or freed identity"
  | some keys => memTransform m din true false (ageDecipher C keys junk) "decrypt"

/-! ## Files -/

def runFileTransform (m : Memory) (inp outp : Path) (isarmor recording overwrite : Bool)
    (fn : Age Unit) (failClass : String) : Pkg Result := do
  if ¬ (← op (.malloc (outp.length + 24))) then resultErr "io" "out of memory"
  else
    match ← op (.openRead inp) with
    | none => do
      let msg := copyerr 256 (← syserr)
      resultErr "io" msg
    | some infd =>
      match ← ageOpenTemp outp (outp.length + 24) with
      | none => do
        let msg := copyerr 256 (← syserr)
        let _ ← op (.close infd)
        resultErr "io" msg
      | some (tmpfd, tmppath) => do
        op (.ibinit m infd recording)
        op (.obinit m tmpfd isarmor)
        let e ← ProgE.attempt (age fn)
        let _ ← op (.close infd)
        match e with
        | .error e => do
          discardOutput tmpfd tmppath
          resultErr failClass (copyerr 256 e)
        | .ok () =>
          match ← commitOutput tmpfd tmppath outp overwrite with
          | some msg => resultErr "io" msg
          | none => do
            ralloc
            resultOk (.lgl [some true])

def ageCEncryptPath (C : Crypto) (R : RApi) (m : Memory)
    (inpath outpath recipients armor overwrite : Sexp) : Pkg Result := do
  op .eclear
  let inp ← charElt inpath 0
  let outp ← charElt outpath 0
  match ← parseRecipients recipients with
  | .error e => resultErr "recipient" e
  | .ok recs =>
    runFileTransform m inp outp (R.asLogical armor = some true) false
      (R.asLogical overwrite = some true) (Age.rw (ageEncipher C recs)) "encrypt"

def ageCDecryptPath (C : Crypto) (R : RApi) (m : Memory) (junk : Bytes 16)
    (inpath outpath ext overwrite : Sexp) : Pkg Result := do
  op .eclear
  match ← idAddr ext with
  | none => resultErr "identity" "invalid or freed identity"
  | some keys => do
    let inp ← charElt inpath 0
    let outp ← charElt outpath 0
    runFileTransform m inp outp false true (R.asLogical overwrite = some true)
      (ageDecipher C keys junk) "decrypt"

/-! ## Passphrases -/

def SCRYPT_MINCOST : Int := 2
def SCRYPT_MAXCOST : Int := 22

/-- `check_cost`: `none` for the return of 0. -/
def checkCost (R : RApi) (logn : Sexp) : Option Nat :=
  match R.asInteger logn with
  | none => none
  | some v => if v < SCRYPT_MINCOST ∨ v > SCRYPT_MAXCOST then none else some v.toNat

def ageCEncryptPassphrase (C : Crypto) (R : RApi) (m : Memory) (data pass armor logn : Sexp) :
    Pkg Result := do
  op .eclear
  let din ← RAW data
  match checkCost R logn with
  | none => resultErr "encrypt" "scrypt work factor out of range"
  | some cost => do
    let p ← charElt pass 0
    memTransform m din false (R.asLogical armor = some true)
      (Age.rw (ageEncipherPassphrase C p cost)) "encrypt"

def ageCDecryptPassphrase (C : Crypto) (m : Memory) (junk : Bytes 16) (data pass : Sexp) :
    Pkg Result := do
  op .eclear
  let din ← RAW data
  let p ← charElt pass 0
  memTransform m din true false (ageDecipherPassphrase C p junk) "decrypt"

def ageCEncryptPathPassphrase (C : Crypto) (R : RApi) (m : Memory)
    (inpath outpath pass armor logn overwrite : Sexp) : Pkg Result := do
  op .eclear
  match checkCost R logn with
  | none => resultErr "encrypt" "scrypt work factor out of range"
  | some cost => do
    let p ← charElt pass 0
    let inp ← charElt inpath 0
    let outp ← charElt outpath 0
    runFileTransform m inp outp (R.asLogical armor = some true) false
      (R.asLogical overwrite = some true) (Age.rw (ageEncipherPassphrase C p cost)) "encrypt"

def ageCDecryptPathPassphrase (C : Crypto) (R : RApi) (m : Memory) (junk : Bytes 16)
    (inpath outpath pass overwrite : Sexp) : Pkg Result := do
  op .eclear
  let p ← charElt pass 0
  let inp ← charElt inpath 0
  let outp ← charElt outpath 0
  runFileTransform m inp outp false true (R.asLogical overwrite = some true)
    (ageDecipherPassphrase C p junk) "decrypt"

end Agecrypt
