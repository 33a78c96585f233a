import Agecrypt.Lib.Prog
import Agecrypt.Agec.Io

/-!
# The codec as programs over the buffers

The parser receives an `Ibuf`, the header writers an `Obuf`, and the
functions of `payload.c` and `agecore.c` both.  Their models are programs
over the operations of exactly these buffers, so that the type of a function
says which buffer it can touch:

* `Rd α`: reads from the input buffer (`bread`, `bpeek`, the field `eof`).
* `Wr α`: writes to the output buffer and draws random bytes.
* `Rw α`: both.
* `Age α`: both, and `recstop` with the pointer it returns.

All of them use the error buffer.  `rdHandler`, `wrHandler`, `rwHandler` and
`ageHandler` are the meaning of the operations on the state `Io δ` of
`io.c`.
-/

namespace Agecrypt

/-! ## The operations -/

/-- `eset`, `eget` and `ewrap`. -/
inductive ErrOp where
  | eset (err : String)
  | eget
  | ewrap (outer inner : String)

@[reducible] def ErrRet : ErrOp → Type
  | .eset _ => Unit
  | .eget => String
  | .ewrap _ _ => String

/-- The operations on an `Ibuf`; `ibeof` reads the field `eof`.  `overflow` is
an `int` that leaves its range: what it answers is up to the build. -/
inductive RdOp where
  | bread (nbytes : Nat)
  | bpeek
  | ibeof
  | overflow
  | err (o : ErrOp)

@[reducible] def RdRet : RdOp → Type
  | .bread _ => Option (List UInt8)
  | .bpeek => Peek
  | .ibeof => Bool
  | .overflow => Int
  | .err o => ErrRet o

/-- The operations on an `Obuf`, and `randombuf`.  `writeall` goes to the
descriptor of the buffer, past the buffer. -/
inductive WrOp where
  | bwrite (bs : List UInt8)
  | bflush
  | writeall (bs : List UInt8)
  | obarmor
  | randombuf (n : Nat)
  | err (o : ErrOp)

@[reducible] def WrRet : WrOp → Type
  | .bwrite _ => Bool
  | .bflush => Bool
  | .writeall _ => Bool
  | .obarmor => Bool
  | .randombuf n => Option (Bytes n)
  | .err o => ErrRet o

inductive RwOp where
  | rd (o : RdOp)
  | wr (o : WrOp)

@[reducible] def RwRet : RwOp → Type
  | .rd o => RdRet o
  | .wr o => WrRet o

/-- The operations on the recorded header. -/
inductive RecOp where
  | recstop
  | loadData (len : Nat)

@[reducible] def RecRet : RecOp → Type
  | .recstop => Option Nat
  | .loadData _ => List UInt8

inductive AgeOp where
  | rw (o : RwOp)
  | rc (o : RecOp)

@[reducible] def AgeRet : AgeOp → Type
  | .rw o => RwRet o
  | .rc o => RecRet o

abbrev Rd (α : Type) := ProgE RdOp RdRet α
abbrev Wr (α : Type) := ProgE WrOp WrRet α
abbrev Rw (α : Type) := ProgE RwOp RwRet α
abbrev Age (α : Type) := ProgE AgeOp AgeRet α

namespace Rd

def bread (nbytes : Nat) : Rd (Option (List UInt8)) := ProgE.op (RdOp.bread nbytes)
def bpeek : Rd Peek := ProgE.op RdOp.bpeek
def ibeof : Rd Bool := ProgE.op RdOp.ibeof
def overflow : Rd Int := ProgE.op RdOp.overflow
def eget : Rd String := ProgE.op (RdOp.err .eget)
def ewrap (outer inner : String) : Rd String := ProgE.op (RdOp.err (.ewrap outer inner))

/-- `return eget()` -/
def failed {α : Type} : Rd α := do throw (← eget)

end Rd

namespace Wr

def bwrite (bs : List UInt8) : Wr Bool := ProgE.op (WrOp.bwrite bs)
def bflush : Wr Bool := ProgE.op WrOp.bflush
def writeall (bs : List UInt8) : Wr Bool := ProgE.op (WrOp.writeall bs)
def obarmor : Wr Bool := ProgE.op WrOp.obarmor
def randombuf (n : Nat) : Wr (Option (Bytes n)) := ProgE.op (WrOp.randombuf n)
def eget : Wr String := ProgE.op (WrOp.err .eget)
def ewrap (outer inner : String) : Wr String := ProgE.op (WrOp.err (.ewrap outer inner))

/-- `return eget()` -/
def failed {α : Type} : Wr α := do throw (← eget)

end Wr

namespace Rw

/-- A function that uses the input buffer only. -/
def rd {α : Type} (p : Rd α) : Rw α := ProgE.embed RwOp.rd (fun _ r => r) p

/-- A function that uses the output buffer only. -/
def wr {α : Type} (p : Wr α) : Rw α := ProgE.embed RwOp.wr (fun _ r => r) p

def bread (nbytes : Nat) : Rw (Option (List UInt8)) := ProgE.op (RwOp.rd (.bread nbytes))
def bwrite (bs : List UInt8) : Rw Bool := ProgE.op (RwOp.wr (.bwrite bs))
def bflush : Rw Bool := ProgE.op (RwOp.wr .bflush)
def writeall (bs : List UInt8) : Rw Bool := ProgE.op (RwOp.wr (.writeall bs))
def obarmor : Rw Bool := ProgE.op (RwOp.wr .obarmor)
def randombuf (n : Nat) : Rw (Option (Bytes n)) := ProgE.op (RwOp.wr (.randombuf n))
def eset (err : String) : Rw Unit := ProgE.op (RwOp.rd (.err (.eset err)))
def eget : Rw String := ProgE.op (RwOp.rd (.err .eget))
def ewrap (outer inner : String) : Rw String :=
  ProgE.op (RwOp.rd (.err (.ewrap outer inner)))

/-- `return eget()` -/
def failed {α : Type} : Rw α := do throw (← eget)

/-- `e = f(…); if(e) return ewrap(outer, e);` -/
def wrapped {α : Type} (outer : String) (p : Rw α) : Rw α := do
  match ← ProgE.attempt p with
  | .error e => throw (← ewrap outer e)
  | .ok a => return a

end Rw

namespace Age

/-- A function that does not touch the recording. -/
def rw {α : Type} (p : Rw α) : Age α := ProgE.embed AgeOp.rw (fun _ r => r) p

def rd {α : Type} (p : Rd α) : Age α := rw (Rw.rd p)

def recstop : Age (Option Nat) := ProgE.op (AgeOp.rc .recstop)
def loadData (len : Nat) : Age (List UInt8) := ProgE.op (AgeOp.rc (.loadData len))

/-- `return eget()` -/
def failed {α : Type} : Age α := rw Rw.failed

/-- `e = f(…); if(e) return ewrap(outer, e);` -/
def wrapped {α : Type} (outer : String) (p : Age α) : Age α := do
  match ← ProgE.attempt p with
  | .error e => throw (← rw (Rw.ewrap outer e))
  | .ok a => return a

end Age

/-! ## Their meaning -/

section

variable {δ : Type} [Descr δ]

def errHandler : (o : ErrOp) → Io δ → ErrRet o × Io δ
  | .eset err, io => ((), eset err io)
  | .eget, io => (eget io, io)
  | .ewrap outer inner, io =>
    (ewrapText outer inner, { io with ebuf := ewrapText outer inner })

/-- C gives the overflow of an `int` no meaning. -/
def rdHandler : Handler RdOp RdRet (Io δ)
  | .bread nbytes, io => bread nbytes io
  | .bpeek, io => bpeek io
  | .ibeof, io => some (io.ib.eof, io)
  | .overflow, _ => none
  | .err o, io => some (errHandler o io)

def wrHandler : Handler WrOp WrRet (Io δ)
  | .bwrite bs, io => bwrite bs io
  | .bflush, io => bflush io
  | .writeall bs, io =>
    (writeall io.ob.fd bs io.dev).map (fun x => (x.1, { io with dev := x.2 }))
  | .obarmor, io => some (io.ob.isarmor, io)
  | .randombuf n, io =>
    let (r, dev) := Descr.randombuf n io.dev
    some (r, { io with dev })
  | .err o, io => some (errHandler o io)

def rwHandler : Handler RwOp RwRet (Io δ)
  | .rd o, io => rdHandler o io
  | .wr o, io => wrHandler o io

def recHandler : Handler RecOp RecRet (Io δ)
  | .recstop, io => recstop io
  | .loadData len, io => (loadData len io).map (fun bs => (bs, io))

def ageHandler : Handler AgeOp AgeRet (Io δ)
  | .rw o, io => rwHandler o io
  | .rc o, io => recHandler o io

end

/-! ## Calls of narrower functions -/

section

variable {σ α : Type}

theorem exec_rd (h : Handler RwOp RwRet σ) (n : Nat) (p : Rd α) (s : σ) :
    ProgE.exec h n (Rw.rd p) s = ProgE.exec (fun o => h (.rd o)) n p s := by
  rw [Rw.rd, ProgE.exec_embed]
  congr 1
  funext o s
  rw [Prog.restrict]
  exact Option.map_id'

theorem exec_wr (h : Handler RwOp RwRet σ) (n : Nat) (p : Wr α) (s : σ) :
    ProgE.exec h n (Rw.wr p) s = ProgE.exec (fun o => h (.wr o)) n p s := by
  rw [Rw.wr, ProgE.exec_embed]
  congr 1
  funext o s
  rw [Prog.restrict]
  exact Option.map_id'

theorem exec_rw (h : Handler AgeOp AgeRet σ) (n : Nat) (p : Rw α) (s : σ) :
    ProgE.exec h n (Age.rw p) s = ProgE.exec (fun o => h (.rw o)) n p s := by
  rw [Age.rw, ProgE.exec_embed]
  congr 1
  funext o s
  rw [Prog.restrict]
  exact Option.map_id'

end

end Agecrypt
