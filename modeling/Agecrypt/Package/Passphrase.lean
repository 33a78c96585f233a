import Agecrypt.Package.Ops
import Mathlib.Algebra.Order.Floor.Ring
import Mathlib.Data.Rat.Floor

/-!
# `passphrase.R`: encryption under a passphrase, up to the `.Call`

The functions of R end with the arguments of their `.Call`, or signal a
condition.  A logical value of R is an `Option Bool`, `none` being `NA`; an
`if` on `NA` is an error of R itself.

`log_n` is any vector.  A finite double is the rational number that it is.
-/

namespace Agecrypt

/-! ## Conditions -/

/-- A typed condition of class `age_error_<status>`, or an error that R
signals. -/
inductive RCondition where
  | age (status : String) (msg : List UInt8)
  | simple (msg : String)
deriving DecidableEq, Repr

abbrev RCode (α : Type) := Except RCondition α

def ageAbort {α : Type} (status : String) (msg : List UInt8) : RCode α :=
  .error (.age status msg)

/-! ## Logical values -/

/-- `a || b` -/
def ror : Option Bool → Option Bool → Option Bool
  | some true, _ => some true
  | _, some true => some true
  | some false, some false => some false
  | _, _ => none

/-- The condition of an `if`. -/
def rif : Option Bool → RCode Bool
  | none => .error (.simple "missing value where TRUE/FALSE needed")
  | some b => .ok b

/-! ## Vectors of numbers -/

/-- A double that is a number. -/
structure FiniteDouble where
  val : ℚ
  is_double : ∃ m e : ℤ, |m| < 2 ^ 53 ∧ -1074 ≤ e ∧ e ≤ 971 ∧ val = m * 2 ^ e

inductive RDouble where
  | na
  | nan
  | posInf
  | negInf
  | finite (x : FiniteDouble)

/-- `none` stands for `NA`.  Of a vector that is not of numbers, the length,
and whether its element is `NA`. -/
inductive RVector where
  | integer (els : List (Option Int))
  | double (els : List RDouble)
  | other (length : Nat) (isNa : Bool)

namespace RDouble

def isNa : RDouble → Bool
  | na => true
  | nan => true
  | _ => false

/-- `(int)x` -/
def truncate (x : ℚ) : Int := if 0 ≤ x then ⌊x⌋ else ⌈x⌉

/-- `as.integer`: what lies outside the range of an integer becomes `NA`. -/
def asInteger : RDouble → Option Int
  | finite x => if x.val ≥ 2 ^ 31 ∨ x.val ≤ -2 ^ 31 then none else some (truncate x.val)
  | _ => none

/-- `x != n` -/
def ne (x : RDouble) : Option Int → Option Bool
  | none => none
  | some n =>
    match x with
    | na => none
    | nan => none
    | posInf => some true
    | negInf => some true
    | finite x => some (x.val ≠ n)

end RDouble

namespace RVector

def length : RVector → Nat
  | integer els => els.length
  | double els => els.length
  | other length _ => length

def isNumeric : RVector → Bool
  | integer _ => true
  | double _ => true
  | other _ _ => false

/-- `is.na(x)` of the element of a vector of length 1 -/
def isNa : RVector → Bool
  | integer els => els.head? = some none
  | double els => els.head?.any RDouble.isNa
  | other _ isNa => isNa

/-- `as.integer(x)` of the element of a vector of length 1 -/
def asInteger : RVector → Option Int
  | integer els => els.head?.join
  | double els => els.head?.bind RDouble.asInteger
  | other _ _ => none

/-- `x != as.integer(x)` for a vector of numbers of length 1 -/
def neAsInteger : RVector → Option Bool
  | integer els => els.head?.join.map fun n => n ≠ n
  | double els => els.head?.bind fun x => x.ne x.asInteger
  | other _ _ => none

end RVector

/-! ## The arguments -/

def elogn : List UInt8 := ascii "`log_n` must be a single whole number"
def erange : List UInt8 := ascii "`log_n` must be between 2 and 22"

/-- Behind the first operand of the `||`, the vector has one element. -/
def checkLogN (log_n : RVector) : RCode (Option Int) := do
  if ← rif (ror (ror (ror (some (log_n.length ≠ 1)) (some log_n.isNa)) (some !log_n.isNumeric))
      log_n.neAsInteger) then
    ageAbort "encrypt" elogn
  else
    let log_n := log_n.asInteger
    if ← rif (ror (log_n.map fun n => n < 2) (log_n.map fun n => n > 22)) then
      ageAbort "encrypt" erange
    else return log_n

def checkFlag (x : Sexp) (name status : String) : RCode Bool :=
  match x with
  | .lgl [some b] => .ok b
  | _ => ageAbort status (ascii "`" ++ ascii name ++ ascii "` must be TRUE or FALSE")

def checkPath (x : Sexp) (name : String) : RCode (List UInt8) :=
  let bad := ageAbort "io"
    (ascii "`" ++ ascii name ++ ascii "` must be a single, non-empty file path")
  match x with
  | .str [some p] => if p = [] then bad else .ok p
  | _ => bad

/-- What the functions ask R and the system for. -/
structure RSession where
  interactive : Bool
  /-- Whether `askpass` is installed. -/
  requireAskpass : Bool
  askpass : String → Sexp
  enc2utf8 : List UInt8 → List UInt8
  fileExists : List UInt8 → Bool
  /-- `normalizePath` of a path that must exist; `none` for an error. -/
  normalizePath : List UInt8 → Option (List UInt8)
  /-- `normalizePath` of any path. -/
  normalizeLoose : List UInt8 → List UInt8
  expand : List UInt8 → List UInt8

def resolvePassphrase (S : RSession) (passphrase : Sexp) (encrypt : Bool) :
    RCode (List UInt8) := do
  let status := if encrypt then "encrypt" else "decrypt"
  let passphrase ← match passphrase with
    | .null =>
      if ¬ S.interactive then
        ageAbort status (ascii "`passphrase` is NULL but the session is not interactive")
      else if ¬ S.requireAskpass then
        ageAbort status (ascii "`passphrase` is NULL and the 'askpass' package is not installed;" ++
          ascii " install it or pass `passphrase` explicitly")
      else
        match S.askpass (if encrypt then "Enter passphrase to encrypt: "
            else "Enter passphrase: ") with
        | .null => ageAbort status (ascii "no passphrase supplied")
        | x => pure x
    | x => pure x
  match passphrase with
  | .str [some p] =>
    if p = [] then ageAbort status (ascii "`passphrase` must not be empty")
    else return S.enc2utf8 p
  | _ => ageAbort status (ascii "`passphrase` must be a single string")

def guardDistinctPaths (S : RSession) (input output : List UInt8) : RCode Unit :=
  let ni := (S.normalizePath input).getD (S.normalizeLoose input)
  let no := S.normalizeLoose output
  if ni = no then ageAbort "io" (ascii "`input` and `output` must not be the same file")
  else .ok ()

def guardOutput (S : RSession) (output : List UInt8) (overwrite : Bool) : RCode Unit :=
  if ¬ overwrite ∧ S.fileExists output then
    ageAbort "io" (ascii "output already exists: " ++ output ++
      ascii " (pass overwrite = TRUE to replace it)")
  else .ok ()

/-! ## The functions -/

/-- The arguments of `C_age_c_encrypt_passphrase`. -/
structure PassphraseCall where
  data : Sexp
  pass : Sexp
  armor : Sexp
  logn : Sexp

def ageEncryptRawPassphrase (S : RSession) (x passphrase armor : Sexp) (log_n : RVector) :
    RCode PassphraseCall :=
  match x with
  | .raw _ => do
    let armor ← checkFlag armor "armor" "encrypt"
    let log_n ← checkLogN log_n
    let pass ← resolvePassphrase S passphrase true
    return ⟨x, .str [some pass], .lgl [some armor], .int [log_n]⟩
  | _ => ageAbort "encrypt" (ascii "`x` must be a raw vector")

/-- The arguments of `C_age_c_encrypt_path_passphrase`. -/
structure PathPassphraseCall where
  inpath : Sexp
  outpath : Sexp
  pass : Sexp
  armor : Sexp
  logn : Sexp
  overwrite : Sexp

def ageEncryptFilePassphrase (S : RSession) (input output passphrase armor overwrite : Sexp)
    (log_n : RVector) : RCode PathPassphraseCall := do
  let input ← checkPath input "input"
  if ¬ S.fileExists input then ageAbort "io" (ascii "input file does not exist: " ++ input)
  else
    let output ← checkPath (match output with
      | .null => .str [some (input ++ ascii ".age")]
      | x => x) "output"
    let armor ← checkFlag armor "armor" "encrypt"
    let overwrite ← checkFlag overwrite "overwrite" "io"
    let log_n ← checkLogN log_n
    guardDistinctPaths S input output
    guardOutput S output overwrite
    let pass ← resolvePassphrase S passphrase true
    return ⟨.str [some (S.expand input)], .str [some (S.expand output)], .str [some pass],
      .lgl [some armor], .int [log_n], .lgl [some overwrite]⟩

end Agecrypt
