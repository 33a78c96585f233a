import Agecrypt.Agec.Agecore
import Agecrypt.Agec.Device
import Agecrypt.Package.System

/-!
# The package as programs over the system

The code of `binding.c` and `fileio.c` is a program over the operations
`PkgOp`: the codec, the stream table, the file system, memory, and the parts
of R that can fail.  An error that R raises unwinds out of the code, so it
is the error of a `Pkg` program; the texts and statuses that the entry
points return are values.

The state is `Io Sys`: the error buffer, the system, and the one pair of
buffers that an entry point has on its stack.  What the memory of these
buffers holds before it is set comes with the operations that set them.
-/

namespace Agecrypt

/-! ## Values of R -/

/-- An R value as far as the package looks into it.  An external pointer has
the tag of identities or another, and is cleared or points to keys. -/
inductive Sexp where
  | null
  | raw (bs : List UInt8)
  | str (els : List (Option (List UInt8)))
  | lgl (els : List (Option Bool))
  | int (els : List (Option Int))
  | extptr (tag : Bool) (keys : Option (List (Bytes 32)))
  | other (type : Nat)
deriving DecidableEq, Repr

/-- The conversions of R's API; `none` stands for `NA`. -/
structure RApi where
  asLogical : Sexp → Option Bool
  asInteger : Sexp → Option Int

/-- What an entry point returns: `result_ok` or `result_err`. -/
inductive Result where
  | ok (payload : Sexp)
  | err (cls msg : String)
deriving DecidableEq, Repr

/-! ## The operations -/

inductive PkgOp where
  | age (o : AgeOp)
  | eclear
  | ibinit (m : Memory) (fd : Int) (recording : Bool)
  | obinit (m : Memory) (fd : Int) (isarmor : Bool)
  | memopenRead (data : List UInt8)
  | memopenWrite
  | memdata (vfd : Int)
  | memclose (vfd : Int)
  | malloc (n : Nat)
  | randombuf (n : Nat)
  | openRead (path : Path)
  | openExcl (path : Path)
  | read (fd : Int) (nbytes : Nat)
  | writeall (fd : Int) (bs : List UInt8)
  | close (fd : Int)
  | fsync (fd : Int)
  | link (old new : Path)
  | rename (old new : Path)
  | unlink (path : Path)
  | access (path : Path)
  | errno
  | seterrno (e : Errno)
  | strerror (e : Errno)
  /-- An allocation inside R. -/
  | ralloc
  /-- The allocation of `R_MakeUnwindCont`. -/
  | unwindcont
  /-- An access outside an array. -/
  | outside

@[reducible] def PkgRet : PkgOp → Type
  | .age o => AgeRet o
  | .eclear => Unit
  | .ibinit _ _ _ => Unit
  | .obinit _ _ _ => Unit
  | .memopenRead _ => Int
  | .memopenWrite => Int
  | .memdata _ => List UInt8
  | .memclose _ => Unit
  | .malloc _ => Bool
  | .randombuf n => Option (Bytes n)
  | .openRead _ => Option Int
  | .openExcl _ => Option Int
  | .read _ _ => Option (List UInt8)
  | .writeall _ _ => Bool
  | .close _ => Bool
  | .fsync _ => Bool
  | .link _ _ => Bool
  | .rename _ _ => Bool
  | .unlink _ => Bool
  | .access _ => Bool
  | .errno => Errno
  | .seterrno _ => Unit
  | .strerror _ => String
  | .ralloc => Bool
  | .unwindcont => Bool
  | .outside => Empty

abbrev Pkg (α : Type) := ProgE PkgOp PkgRet α

/-! ## Their meaning -/

/-- An operation that concerns the system only. -/
def onSys {α : Type} (f : Sys → α × Sys) (io : Io Sys) : Option (α × Io Sys) :=
  some ((f io.dev).1, { io with dev := (f io.dev).2 })

/-- A call that answers 0 or -1. -/
def succeeds (f : Sys → Option Unit × Sys) (s : Sys) : Bool × Sys :=
  ((f s).1.isSome, (f s).2)

/-- An operation of the stream table. -/
def onTable {α : Type} (f : Memtab → α × Memtab) (s : Sys) : α × Sys :=
  ((f s.memtab).1, { s with memtab := (f s.memtab).2 })

def pkgHandler : Handler PkgOp PkgRet (Io Sys)
  | .age o, io => ageHandler o io
  | .eclear, io => some ((), { io with ebuf := "" })
  | .ibinit m fd recording, io =>
    some ((), { io with ib := { ibinit m.ib fd with recording }, data := m.data })
  | .obinit m fd isarmor, io => some ((), { io with ob := ⟨fd, 0, isarmor, m.ob⟩ })
  | .memopenRead data, io => onSys (onTable (memopenRead data)) io
  | .memopenWrite, io => onSys (onTable memopenWrite) io
  | .memdata vfd, io => some (memdata vfd io.dev.memtab, io)
  | .memclose vfd, io => onSys (onTable fun t => ((), memclose vfd t)) io
  | .malloc n, io => onSys (Sys.malloc n) io
  | .randombuf n, io => onSys (Sys.randombuf n) io
  | .openRead path, io => onSys (Sys.openRead path) io
  | .openExcl path, io => onSys (Sys.openExcl path) io
  | .read fd nbytes, io => onSys (Sys.read fd nbytes) io
  | .writeall fd bs, io =>
    (writeall fd bs io.dev).map fun x => (x.1, { io with dev := x.2 })
  | .close fd, io => onSys (succeeds (Sys.close fd)) io
  | .fsync fd, io => onSys (succeeds (Sys.fsync fd)) io
  | .link old new, io => onSys (succeeds (Sys.link old new)) io
  | .rename old new, io => onSys (succeeds (Sys.rename old new)) io
  | .unlink path, io => onSys (succeeds (Sys.unlink path)) io
  | .access path, io => onSys (succeeds (Sys.access path)) io
  | .errno, io => some (io.dev.errno, io)
  | .seterrno e, io => onSys (fun s => ((), { s with errno := e })) io
  | .strerror e, io => some (io.dev.strerror e, io)
  | .ralloc, io =>
    onSys (fun s => (s.rallocs 0, { s with rallocs := fun i => s.rallocs (i + 1) })) io
  | .unwindcont, io =>
    onSys (fun s => (s.conts 0, { s with conts := fun i => s.conts (i + 1) })) io
  | .outside, _ => none

/-- A process that has just started on a system with the files. -/
def Io.fresh (files : List (Path × List UInt8)) : Io Sys :=
  ⟨Memory.zero.ib, ⟨0, 0, false, Memory.zero.ob⟩, "", .readBuffer, .steady files 99⟩

namespace Pkg

/-- A function of the codec. -/
def age {α : Type} (p : Age α) : Pkg α := ProgE.embed PkgOp.age (fun _ r => r) p

abbrev op (o : PkgOp) : Pkg (PkgRet o) := ProgE.op o

/-- `strerror(errno)` -/
def syserr : Pkg String := do
  op (.strerror (← op .errno))

/-! ## R -/

/-- An allocation inside R: its failure unwinds. -/
def ralloc : Pkg Unit := do
  if ← op .ralloc then return () else throw "cannot allocate memory"

def RAW : Sexp → Pkg (List UInt8)
  | .raw bs => return bs
  | _ => throw "RAW() can only be applied to a 'raw'"

/-- `CHAR(STRING_ELT(x, i))` -/
def charElt (x : Sexp) (i : Nat) : Pkg (List UInt8) :=
  match x with
  | .str els =>
    match els[i]? with
    | none => do nomatch (← op .outside)
    | some none => return ascii "NA"
    | some (some s) => return s
  | _ => throw "STRING_ELT() can only be applied to a 'character vector'"

/-- `R_MakeUnwindCont` -/
def makeUnwindCont : Pkg Unit := do
  if ← op .unwindcont then return () else throw "cannot allocate memory"

/-- `R_UnwindProtect`: `clean` runs when `body` has ended, and when an error
unwinds out of it. -/
def unwindProtect {α : Type} (body : Pkg α) (clean : Pkg Unit) : Pkg α := do
  match ← ProgE.attempt body with
  | .error e => do
    clean
    throw e
  | .ok a => do
    clean
    return a

end Pkg

/-! ## Results -/

/-- Copy a text into a buffer of `cap` bytes. -/
def copyerr (cap : Nat) (src : String) : String := cut (cap - 1) src

def resultOk (payload : Sexp) : Pkg Result := do
  Pkg.ralloc   -- the list
  Pkg.ralloc   -- the status
  return .ok payload

def resultErr (cls msg : String) : Pkg Result := do
  Pkg.ralloc   -- the list
  Pkg.ralloc   -- the class
  Pkg.ralloc   -- the message
  return .err cls msg

end Agecrypt
