import Agecrypt.Agec.Base64
import Agecrypt.Agec.Descr
import Agecrypt.Agec.Util

/-!
# `io.c`: the buffered input and output

`Ibuf` reads a descriptor through a buffer of 8192 bytes.  The first read
looks at the first 35 bytes: when they are the armor header line, the rest
of the input is decoded block by block through `abuf`.  While `recording`
is set, the bytes that leave the buffer are kept for the header MAC.
`Obuf` collects output, and encodes it when `isarmor` is set.

The functions work on `Io δ`: the two buffers of one operation, the error
buffer, and the system `δ` below.  Each answers `none` when it has no
defined outcome, that is when it would access memory outside an array.
Every loop has a bound that its count parameter gives; the bound is never
reached on a system whose `ageread` delivers at most what was asked for.
-/

namespace Agecrypt

def RECINITLEN : Nat := 512
def IOBUFSIZE : Nat := 8 * 1024
def IOABUFRAWSIZE : Nat := 48 * 256
def IOABUFREADSIZE : Nat := 65 * 126

/-- One past the largest `usize`. -/
def USIZE : Nat := 2 ^ 64

def armorfirst : List UInt8 := ascii "-----BEGIN AGE ENCRYPTED FILE-----\n"
def armorlast : List UInt8 := ascii "-----END AGE ENCRYPTED FILE-----\n"

/-- The values of `Ibuf.isarmor`: `UNCHECKED`, 0, 1 and -1. -/
inductive Armored where
  | unchecked | no | yes | failed
deriving DecidableEq, Repr

/-- `if(b->isarmor)` -/
def Armored.holds : Armored → Bool
  | .no => false
  | _ => true

/-- The recorded bytes; `len` is the length of `buf`. -/
structure Record where
  buf : List UInt8
  capacity : Nat
deriving DecidableEq, Repr

structure Ibuf where
  fd : Int
  eof : Bool
  isarmor : Armored
  recording : Bool
  recfail : Option String
  cur : Nat
  size : Nat
  acur : Nat
  asize : Nat
  aendpos : Nat
  buf : Bytes IOBUFSIZE
  abuf : Bytes IOABUFREADSIZE
  record : Record
deriving DecidableEq, Repr

/-- The buffer of an `Obuf` is a union; its larger member is the armor
buffer. -/
structure Obuf where
  fd : Int
  cur : Nat
  isarmor : Bool
  buf : Bytes IOABUFRAWSIZE
deriving DecidableEq, Repr

/-- Where the pointer that `recstop` returned points to. -/
inductive RecPtr where
  | readBuffer | recording
deriving DecidableEq, Repr

/-- The state of one operation of the codec. -/
structure Io (δ : Type) where
  ib : Ibuf
  ob : Obuf
  ebuf : String
  data : RecPtr
  dev : δ

/-- What a read of the input layer returned: a count, or -1 or -2. -/
inductive Nr where
  | ioerr | fmterr
  | got (n : Nat)
deriving DecidableEq, Repr

/-- What `bpeek` returned: -1, 0, or 1 with the character. -/
inductive Peek where
  | err | eof
  | char (c : UInt8)
deriving DecidableEq, Repr

/-- How `readall` ended. -/
inductive ReadEnd where
  | full | eof | fail
deriving DecidableEq, Repr

/-- `ibinit`: the two buffers keep whatever the memory held. -/
def ibinit (junk : Ibuf) (fd : Int) : Ibuf :=
  { junk with
    size := 0, cur := 0, asize := 0, acur := 0, aendpos := 0, eof := false,
    fd := fd, recording := true, recfail := none, record := ⟨[], 0⟩,
    isarmor := .unchecked }

section

variable {δ : Type} [Descr δ]

/-! ## Errors -/

def eget (io : Io δ) : String :=
  if io.ebuf ≠ "" then io.ebuf else Descr.strerror io.dev

def eset (err : String) (io : Io δ) : Io δ := { io with ebuf := esetText err }

/-! ## Recording the header -/

/-- Double the capacity until `need` bytes fit; `none` when a `usize` is
exceeded. -/
def growCap (need : Nat) : Nat → Nat → Option Nat
  | 0, _ => none
  | fuel + 1, cap =>
    if need > cap then
      let ncap := cap * 2 % USIZE
      if ncap < cap then none else growCap need fuel ncap
    else some cap

/-- `recappend` once a first allocation is there. -/
def recgrow (src : List UInt8) (io : Io δ) : Io δ :=
  let r := io.ib.record
  let need := r.buf.length + src.length
  if need > r.capacity then
    match growCap need 64 r.capacity with
    | none => { io with ib := { io.ib with recfail := some "allocation length overflow" } }
    | some ncap =>
      match Descr.alloc ncap io.dev with
      | (false, dev) =>
        let io := { io with dev }
        { io with ib := { io.ib with recfail := some (eget io) } }
      | (true, dev) => { io with ib := { io.ib with record := ⟨r.buf ++ src, ncap⟩ }, dev }
  else { io with ib := { io.ib with record := { r with buf := r.buf ++ src } } }

def recappend (src : List UInt8) (io : Io δ) : Io δ :=
  if io.ib.recfail.isSome then io
  else if src.length > 0 ∧ io.ib.record.capacity = 0 then
    match Descr.alloc RECINITLEN io.dev with
    | (false, dev) =>
      let io := { io with dev }
      { io with ib := { io.ib with recfail := some (eget io) } }
    | (true, dev) =>
      let record := { io.ib.record with capacity := RECINITLEN }
      recgrow src { io with ib := { io.ib with record }, dev }
  else recgrow src io

/-- `recstop`: the length of the recorded bytes.  The pointer is kept in
`Io.data`; it may point into the read buffer. -/
def recstop (io : Io δ) : Option (Option Nat × Io δ) := do
  let io := { io with ib := { io.ib with recording := false } }
  match io.ib.recfail with
  | some e => some (none, eset e io)
  | none =>
    if io.ib.record.capacity = 0 then
      some (some io.ib.cur, { io with data := .readBuffer })
    else do
      let src ← io.ib.buf.load 0 io.ib.cur
      let io := recappend src io
      some (some io.ib.record.buf.length, { io with data := .recording })

/-- The `len` bytes that lie at the pointer from `recstop` now. -/
def loadData (len : Nat) (io : Io δ) : Option (List UInt8) :=
  match io.data with
  | .readBuffer => io.ib.buf.load 0 len
  | .recording => if len ≤ io.ib.record.buf.length then some (io.ib.record.buf.take len) else none

/-! ## Reading -/

/-- The loop of `readall`: the bytes read, and how it ended. -/
def readallLoop (fd : Int) :
    Nat → Nat → List UInt8 → δ → Option ((List UInt8 × ReadEnd) × δ)
  | _, 0, acc, d => some ((acc, .full), d)
  | 0, _ + 1, _, _ => none
  | fuel + 1, nbytes + 1, acc, d =>
    match Descr.ageread fd (nbytes + 1) d with
    | (none, d) => some ((acc, .fail), d)
    | (some [], d) => some ((acc, .eof), d)
    | (some bs, d) => readallLoop fd fuel (nbytes + 1 - bs.length) (acc ++ bs) d

def readall (fd : Int) (nbytes : Nat) (d : δ) : Option ((List UInt8 × ReadEnd) × δ) :=
  readallLoop fd nbytes nbytes [] d

/-- The probe for the armor header line. -/
def isarmor (io : Io δ) : Option (Armored × Io δ) := do
  let ((bs, fin), dev) ← readall io.ib.fd armorfirst.length io.dev
  let buf ← io.ib.buf.store 0 bs
  let io := { io with ib := { io.ib with buf }, dev }
  if fin = .fail then some (.failed, io)
  else
    let io := { io with ib := { io.ib with eof := fin = .eof || io.ib.eof, size := bs.length } }
    if bs.length < armorfirst.length then some (.no, io)
    else if bs = armorfirst then some (.yes, { io with ib := { io.ib with size := 0 } })
    else some (.no, io)

/-- The first statement of `bread` and `bpeek`; `false` stands for the
return of -1. -/
def probe (io : Io δ) : Option (Bool × Io δ) :=
  if io.ib.isarmor = .unchecked then do
    let (a, io) ← isarmor io
    some (a ≠ .failed, { io with ib := { io.ib with isarmor := a } })
  else some (true, io)

/-- The comparison loop of `endcheck`: `q` is what is left of the ending
line, `p` the position in the block of `len` bytes. -/
def endcheckLoop (byteAt : Int → UInt8) (len : Int) :
    List UInt8 → Int → Nat → Int × Nat
  | [], p, endpos => if p ≤ len then (if p = len then 1 else -1, endpos) else (0, endpos)
  | c :: q, p, endpos =>
    if p ≤ len then
      if byteAt p ≠ c then (-1, endpos) else endcheckLoop byteAt len q (p + 1) (endpos + 1)
    else (0, endpos)

/-- `endcheck`: whether the block ends with the ending line, and the new
`endpos`.  The difference `len - *endpos` of two `usize` is huge when it
would be negative; then the start lies in front of the block, and `outside`
is the memory there.  The scan for a `'-'` moves a local pointer and is left
out. -/
def endcheck (outside : Int → UInt8) (buf : List UInt8) (endpos : Nat) : Int × Nat :=
  let len := buf.length
  if endpos ≤ len ∧ len - endpos < armorlast.length then (-1, endpos)
  else
    let start : Int := (len : Int) - endpos - armorlast.length
    let byteAt : Int → UInt8 := fun p =>
      if 0 ≤ p then (buf[p.toNat]?).getD (outside p) else outside p
    if byteAt start ≠ (armorlast ++ [0]).getD endpos 0 ∧ endpos = 0 then (0, endpos)
    else endcheckLoop byteAt len (armorlast.drop endpos) start endpos

/-- `endskip`: read the rest of a partial ending line. -/
def endskip (fd : Int) (endpos : Nat) (d : δ) : Option (Nr × δ) := do
  let ((bs, fin), d) ← readall fd (armorlast.length + 1 - endpos) d
  if fin = .fail then some (.ioerr, d)
  else if bs.length < armorlast.length - endpos then some (.fmterr, d)
  else if bs.take (armorlast.length - endpos) ≠ armorlast.drop endpos then some (.fmterr, d)
  else
    match Descr.ageread fd 1 d with
    | (none, d) => some (.ioerr, d)
    | (some [], d) => some (.got bs.length, d)
    | (some _, d) => some (.fmterr, d)

/-- `aread` on a block that it has read: check for the ending line, decode
what is in front of it into the armor buffer, and make sure that nothing
follows the ending line.  `some r` is an early return of `r`. -/
def areadBlock (raw : List UInt8) (io : Io δ) : Option (Option Nr × Io δ) :=
  let fin := (endcheck (fun _ => 0) raw io.ib.aendpos).1
  let endpos := (endcheck (fun _ => 0) raw io.ib.aendpos).2
  let io := { io with ib := { io.ib with aendpos := endpos } }
  if fin = -1 then some (some .fmterr, io)
  else
    match base64decode (raw.take (raw.length - endpos)) true with
    | none => some (some .fmterr, io)
    | some out => do
      let abuf ← io.ib.abuf.store 0 out
      let io := { io with ib := { io.ib with abuf, asize := out.length } }
      if fin = 0 ∧ endpos > 0 then do
        -- the result of `endskip` is not looked at
        let (_, dev) ← endskip io.ib.fd endpos io.dev
        some (none, { io with dev })
      else if fin = 1 then
        match Descr.ageread io.ib.fd 1 io.dev with
        | (none, dev) => some (some .ioerr, { io with dev })
        | (some [], dev) => some (none, { io with dev })
        | (some _, dev) => some (some .fmterr, { io with dev })
      else some (none, io)

/-- The refill of the armor buffer in `aread`; `off` is the number of bytes
that `aread` has delivered. -/
def areadRefill (off : Nat) (io : Io δ) : Option (Option Nr × Io δ) :=
  match readall io.ib.fd IOABUFREADSIZE io.dev with
  | none => none
  | some ((raw, fin), dev) =>
    if fin = .fail then some (some .ioerr, { io with dev })
    else if raw.length = 0 then
      if io.ib.aendpos = 0 then some (some .fmterr, { io with dev })
      else some (some (.got off), { io with dev })
    else areadBlock raw { io with dev }

/-- The first half of the loop body of `aread`: have bytes in the armor
buffer.  `some r` is an early return of `r`. -/
def areadFetch (off : Nat) (io : Io δ) : Option (Option Nr × Io δ) :=
  let io :=
    if io.ib.acur = io.ib.asize then { io with ib := { io.ib with acur := 0, asize := 0 } }
    else io
  if io.ib.asize = 0 then areadRefill off io else some (none, io)

/-- The loop of `aread`, into the read buffer from position `off` on. -/
def areadLoop : Nat → Nat → Nat → Io δ → Option (Nr × Io δ)
  | _, 0, off, io => some (.got off, io)
  | 0, _ + 1, _, _ => none
  | fuel + 1, nbytes + 1, off, io => do
    match ← areadFetch off io with
    | (some r, io) => some (r, io)
    | (none, io) =>
      let c := min (io.ib.asize - io.ib.acur) (nbytes + 1)
      let bs ← io.ib.abuf.load io.ib.acur c
      let buf ← io.ib.buf.store off bs
      areadLoop fuel (nbytes + 1 - c) (off + c)
        { io with ib := { io.ib with buf, acur := io.ib.acur + c } }

/-- `aread(b, b->buf, nbytes)` -/
def aread (nbytes : Nat) (io : Io δ) : Option (Nr × Io δ) :=
  areadLoop (nbytes + 2) nbytes 0 io

/-- The refill of the read buffer that `bread` and `bpeek` share: `aread` or
`ageread`, up to the size of the buffer. -/
def fill (io : Io δ) : Option (Nr × Io δ) :=
  if io.ib.isarmor.holds then aread IOBUFSIZE io
  else
    match Descr.ageread io.ib.fd IOBUFSIZE io.dev with
    | (none, dev) => some (.ioerr, { io with dev })
    | (some bs, dev) => do
      let buf ← io.ib.buf.store 0 bs
      some (.got bs.length, { io with ib := { io.ib with buf }, dev })

/-- Record the buffer that is about to be refilled, and empty it. -/
def dropBuffer (io : Io δ) : Option (Io δ) := do
  let io ←
    if io.ib.recording ∧ io.ib.size > 0 then do
      let src ← io.ib.buf.load 0 io.ib.size
      some (recappend src io)
    else some io
  some { io with ib := { io.ib with cur := 0, size := 0 } }

/-- The refill of the read buffer in `bread`.  `some r` is an early return:
-1, or the count so far. -/
def breadFetch (io : Io δ) : Option (Option Bool × Io δ) :=
  if io.ib.size = 0 ∧ io.ib.eof = false then do
    match ← fill io with
    | (.ioerr, io) => some (some false, io)
    | (.fmterr, io) => some (some false, eset "armor format error" io)
    | (.got 0, io) => some (some true, { io with ib := { io.ib with eof := true } })
    | (.got n, io) => some (none, { io with ib := { io.ib with size := n } })
  else some (none, io)

/-- The first half of the loop body of `bread`: have bytes in the buffer. -/
def breadRefill (io : Io δ) : Option (Option Bool × Io δ) := do
  let io ← if io.ib.cur = io.ib.size then dropBuffer io else some io
  breadFetch io

/-- The loop of `bread`; `acc` is what it has delivered. -/
def breadLoop :
    Nat → Nat → List UInt8 → Io δ → Option (Option (List UInt8) × Io δ)
  | _, 0, acc, io => some (some acc, io)
  | 0, _ + 1, _, _ => none
  | fuel + 1, nbytes + 1, acc, io => do
    match ← breadRefill io with
    | (some false, io) => some (none, io)
    | (some true, io) => some (some acc, io)
    | (none, io) =>
      let rest := io.ib.size - io.ib.cur
      if rest = 0 ∧ io.ib.eof then some (some acc, io)
      else
        let c := min rest (nbytes + 1)
        let bs ← io.ib.buf.load io.ib.cur c
        breadLoop fuel (nbytes + 1 - c) (acc ++ bs)
          { io with ib := { io.ib with cur := io.ib.cur + c } }

/-- `bread`: the bytes delivered, or `none` for -1. -/
def bread (nbytes : Nat) (io : Io δ) : Option (Option (List UInt8) × Io δ) := do
  let (ok, io) ← probe io
  if ok then breadLoop nbytes nbytes [] io else some (none, io)

/-- The value of the return code as a `usize`: -2 wraps around. -/
def Nr.toUsize : Nr → Nat
  | .ioerr => USIZE - 1
  | .fmterr => USIZE - 2
  | .got n => n

/-- `bpeek`: only -1 and 0 are told apart from a count. -/
def bpeek (io : Io δ) : Option (Peek × Io δ) := do
  let (ok, io) ← probe io
  if ¬ ok then some (.err, io)
  else if io.ib.eof ∧ io.ib.cur = io.ib.size then some (.eof, io)
  else if io.ib.cur < io.ib.size then do
    let bs ← io.ib.buf.load io.ib.cur 1
    some (.char (bs.headD 0), io)
  else do
    let io ← dropBuffer io
    match ← fill io with
    | (.ioerr, io) => some (.err, io)
    | (.got 0, io) => some (.eof, { io with ib := { io.ib with eof := true } })
    | (nr, io) => do
      let io := { io with ib := { io.ib with size := nr.toUsize } }
      let bs ← io.ib.buf.load 0 1
      some (.char (bs.headD 0), io)

/-! ## Writing -/

/-- The loop of `writeall`; `false` stands for -1. -/
def writeallLoop (fd : Int) : Nat → List UInt8 → δ → Option (Bool × δ)
  | _, [], d => some (true, d)
  | 0, _ :: _, _ => none
  | fuel + 1, b :: bs, d =>
    match Descr.agewrite fd (b :: bs) d with
    | none => none
    | some (none, d) => some (false, d)
    | some (some 0, d) => some (false, d)
    | some (some (k + 1), d) => writeallLoop fd fuel ((b :: bs).drop (k + 1)) d

def writeall (fd : Int) (bs : List UInt8) (d : δ) : Option (Bool × δ) :=
  writeallLoop fd bs.length bs d

def aflush (io : Io δ) : Option (Bool × Io δ) :=
  if io.ob.cur = 0 then some (true, io)
  else do
    let raw ← io.ob.buf.load 0 io.ob.cur
    let (ok, dev) ← writeall io.ob.fd (base64encode raw true) io.dev
    some (ok, { io with ob := { io.ob with cur := 0 }, dev })

def bflush (io : Io δ) : Option (Bool × Io δ) :=
  if io.ob.isarmor then aflush io
  else if io.ob.cur = 0 then some (true, io)
  else do
    let bs ← io.ob.buf.load 0 io.ob.cur
    let (ok, dev) ← writeall io.ob.fd bs io.dev
    some (ok, { io with ob := { io.ob with cur := 0 }, dev })

/-- The loop of `awrite` over the bytes not yet in the buffer. -/
def awriteLoop : Nat → List UInt8 → Io δ → Option (Bool × Io δ)
  | _, [], io => some (true, io)
  | 0, _ :: _, _ => none
  | fuel + 1, b :: bs, io => do
    let rest := IOABUFRAWSIZE - io.ob.cur
    let c := min rest (b :: bs).length
    let buf ← io.ob.buf.store io.ob.cur ((b :: bs).take c)
    let io := { io with ob := { io.ob with buf, cur := io.ob.cur + c } }
    if io.ob.cur = IOABUFRAWSIZE then do
      let (ok, io) ← aflush io
      if ok then awriteLoop fuel ((b :: bs).drop c) io else some (false, io)
    else awriteLoop fuel ((b :: bs).drop c) io

def awrite (bs : List UInt8) (io : Io δ) : Option (Bool × Io δ) :=
  awriteLoop (bs.length + 1) bs io

def bwrite (bs : List UInt8) (io : Io δ) : Option (Bool × Io δ) :=
  if io.ob.isarmor then awrite bs io
  else do
    let rest := IOBUFSIZE - io.ob.cur
    let c := min rest bs.length
    let buf ← io.ob.buf.store io.ob.cur (bs.take c)
    let io := { io with ob := { io.ob with buf, cur := io.ob.cur + c } }
    if rest > bs.length then some (true, io)
    else do
      let (ok, io) ← bflush io
      if ok then do
        let (ok, dev) ← writeall io.ob.fd (bs.drop c) io.dev
        some (ok, { io with dev })
      else some (false, io)

end

end Agecrypt
