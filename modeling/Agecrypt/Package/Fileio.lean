import Agecrypt.Package.Ops

/-!
# `fileio.c`: the temporary file and the move onto the destination

Together with the two helpers of `binding.c` that finish or abandon a
temporary file.  A return of -1 is `none` or `false`; `errno` then says why.
-/

namespace Agecrypt

open Pkg

def TMPSUFFIX : Nat := 21

/-- `hex` -/
def hexDigits : List UInt8 := ascii "0123456789abcdef"

def hexOf (b : UInt8) : List UInt8 :=
  [hexDigits.getD (b >>> 4).toNat 0, hexDigits.getD (b &&& 0x0f).toNat 0]

/-- The name that `age_open_temp` makes of its eight random bytes. -/
def tempName (outp : Path) (r : Bytes 8) : Path := outp ++ ascii ".age-" ++ r.val.flatMap hexOf

/-- The loop of `age_open_temp`: the descriptor and the name of the file. -/
def openTempLoop (outp : Path) : Nat → Pkg (Option (Int × Path))
  | 0 => return none
  | tries + 1 => do
    match ← op (.randombuf 8) with
    | none => do
      op (.seterrno Errno.EIO)
      return none
    | some r =>
      match ← op (.openExcl (tempName outp r)) with
      | some fd => return some (fd, tempName outp r)
      | none =>
        let e ← op .errno
        if e ≠ .EEXIST then return none else openTempLoop outp tries

def ageOpenTemp (outp : Path) (tmpcap : Nat) : Pkg (Option (Int × Path)) := do
  if tmpcap < outp.length + TMPSUFFIX + 1 then do
    op (.seterrno .ENAMETOOLONG)
    return none
  else openTempLoop outp 16

/-- `age_move`: without `overwrite` a link that fails for an existing
destination, and on a file system without links a check in front of the
rename. -/
def ageMove (tmp dst : Path) (overwrite : Bool) : Pkg Bool := do
  if overwrite then op (.rename tmp dst)
  else if ← op (.link tmp dst) then do
    let _ ← op (.unlink tmp)
    return true
  else
    let e ← op .errno
    if e = .EEXIST then return false
    else if ← op (.access dst) then do
      op (.seterrno .EEXIST)
      return false
    else op (.rename tmp dst)

/-- The label `fail` of `commit_output`. -/
def commitFailed (saved : Errno) : Pkg (Option String) := do
  return some (copyerr 256 (← op (.strerror saved)))

/-- `commit_output`: `none` for 0, otherwise the message. -/
def commitOutput (tmpfd : Int) (tmppath outp : Path) (overwrite : Bool) : Pkg (Option String) := do
  if ¬ (← op (.fsync tmpfd)) then do
    let saved ← op .errno
    let _ ← op (.close tmpfd)
    let _ ← op (.unlink tmppath)
    commitFailed saved
  else if ¬ (← op (.close tmpfd)) then do
    let saved ← op .errno
    let _ ← op (.unlink tmppath)
    commitFailed saved
  else if ¬ (← ageMove tmppath outp overwrite) then do
    let saved ← op .errno
    let _ ← op (.unlink tmppath)
    if saved = .EEXIST then return some (copyerr 256 "output already exists")
    else commitFailed saved
  else return none

def discardOutput (tmpfd : Int) (tmppath : Path) : Pkg Unit := do
  let _ ← op (.close tmpfd)
  let _ ← op (.unlink tmppath)

end Agecrypt
