import Agecrypt.Agec.Ops

/-!
# The machine behind the buffers

What the buffers of `io.c` are for, without the buffers: an input that
delivers what was asked for as long as there is any, and an output that
collects.  `Am` is a machine made of the two, and `amHandler` runs the
programs of the codec on it.

* `Src` is an input of known bytes.  Only the flag `eof` shows that there is
  a buffer: it is set by a read beyond the end, and for an input shorter than
  the armor header line already by the probe.
* `Snk` is an output.  `held` is what a flush will write.
* An armored input that need not be well formed has no such description.
  `Inp.armor` keeps its `Ibuf`, over a system that delivers whole reads.

`Agecrypt.Agec.Refine` relates the machine to the code over any descriptors.
-/

namespace Agecrypt

/-! ## An input of known bytes -/

/-- An input: what it has delivered and what it will deliver.  `start` is
set before the first read, with the value that the probe gives to `eof`. -/
structure Src where
  past : List UInt8
  rest : List UInt8
  eof : Bool
  start : Option Bool
deriving DecidableEq, Repr

namespace Src

/-- A binary input that holds `d`. -/
def binary (d : List UInt8) : Src := ⟨[], d, false, some (d.length < armorfirst.length)⟩

/-- An armored input that decodes to `d`. -/
def armored (d : List UInt8) : Src := ⟨[], d, false, some false⟩

def probe (s : Src) : Src :=
  match s.start with
  | none => s
  | some b => { s with eof := b, start := none }

/-- Deliver `n` bytes, or as many as there are. -/
def bread (n : Nat) (s : Src) : List UInt8 × Src :=
  (s.rest.take n,
    { past := s.past ++ s.rest.take n, rest := s.rest.drop n,
      eof := s.probe.eof || s.rest.length < n, start := none })

def bpeek (s : Src) : Peek × Src :=
  match s.rest with
  | [] => (.eof, { s with eof := true, start := none })
  | c :: _ => (.char c, s.probe)

/-- `c` bytes further, none of them beyond the end. -/
def skip (c : Nat) (s : Src) : Src :=
  { s with past := s.past ++ s.rest.take c, rest := s.rest.drop c }

theorem probe_of_none {s : Src} (hst : s.start = none) : s.probe = s := by
  simp [probe, hst]

theorem bread_zero {s : Src} (hst : s.start = none) : s.bread 0 = ([], s) := by
  rw [bread, probe_of_none hst]
  cases s
  simp_all

theorem bread_end {s : Src} (hst : s.start = none) (hr : s.rest = []) {n : Nat} (hn : 0 < n) :
    s.bread n = ([], { s with eof := true }) := by
  rw [bread, probe_of_none hst]
  cases s
  simp_all

/-- A read in two parts. -/
theorem bread_split {s : Src} (hst : s.start = none) {c n : Nat} (hc : c ≤ n)
    (hr : c ≤ s.rest.length) :
    s.bread n =
      (s.rest.take c ++ ((s.skip c).bread (n - c)).1, ((s.skip c).bread (n - c)).2) := by
  have hn : n = c + (n - c) := by omega
  have heof : (s.rest.length < n) = (s.rest.length - c < n - c) := by
    rw [eq_iff_iff]
    omega
  have htake : s.rest.take n = s.rest.take c ++ (s.rest.drop c).take (n - c) := by
    rw [← List.take_add, ← hn]
  have hdrop : s.rest.drop n = (s.rest.drop c).drop (n - c) := by
    rw [List.drop_drop, ← hn]
  simp only [bread, skip, probe, hst, List.length_drop, List.append_assoc, htake, hdrop, heof]

end Src

/-! ## An output -/

/-- The output: what the descriptor has received, and what is held. -/
structure Snk where
  isarmor : Bool
  sent : List UInt8
  held : List UInt8
deriving DecidableEq, Repr

/-- The text of full blocks of raw bytes, and the bytes of the last block
that is not full. -/
def armorBlocks : Nat → List UInt8 → List UInt8 × List UInt8
  | 0, raw => ([], raw)
  | fuel + 1, raw =>
    if raw.length < IOABUFRAWSIZE then ([], raw)
    else
      let (text, last) := armorBlocks fuel (raw.drop IOABUFRAWSIZE)
      (base64encode (raw.take IOABUFRAWSIZE) true ++ text, last)

namespace Snk

def bwrite (bs : List UInt8) (k : Snk) : Snk :=
  let raw := k.held ++ bs
  if k.isarmor then
    { k with
      sent := k.sent ++ (armorBlocks raw.length raw).1
      held := (armorBlocks raw.length raw).2 }
  else if raw.length < IOBUFSIZE then { k with held := raw }
  else { k with sent := k.sent ++ raw, held := [] }

/-- What a flush of the held bytes writes. -/
def flushed (k : Snk) : List UInt8 :=
  if k.held = [] then [] else if k.isarmor then base64encode k.held true else k.held

def bflush (k : Snk) : Snk := { k with sent := k.sent ++ k.flushed, held := [] }

def writeall (bs : List UInt8) (k : Snk) : Snk := { k with sent := k.sent ++ bs }

end Snk

/-! ## The ideal system -/

/-- A system whose reads deliver all that was asked for. -/
structure Tape where
  inp : List UInt8
  errno : String

instance : Descr Tape where
  ageread := fun _ n t => (some (t.inp.take n), { t with inp := t.inp.drop n })
  agewrite := fun _ bs t => some (some bs.length, t)
  alloc := fun _ t => (true, t)
  randombuf := fun _ t => (none, t)
  strerror := Tape.errno

/-! ## The machine -/

/-- The input of the machine: known bytes, or an `Ibuf` and the armored text
that it has not read. -/
inductive Inp where
  | src (s : Src)
  | armor (ib : Ibuf) (unread : List UInt8)

structure Am where
  inp : Inp
  snk : Snk
  draws : Nat → Draw
  ebuf : String
  errno : String

namespace Am

def eget (a : Am) : String := if a.ebuf ≠ "" then a.ebuf else a.errno

/-- The armored input as a state of `io.c` over the ideal system. -/
def tape (ib : Ibuf) (unread : List UInt8) (a : Am) : Io Tape :=
  ⟨ib, ⟨0, 0, false, Bytes.zero _⟩, a.ebuf, .readBuffer, ⟨unread, a.errno⟩⟩

def untape (a : Am) (t : Io Tape) : Am := { a with inp := .armor t.ib t.dev.inp, ebuf := t.ebuf }

def bread (n : Nat) (a : Am) : Option (Option (List UInt8) × Am) :=
  match a.inp with
  | .src s => some (some (s.bread n).1, { a with inp := .src (s.bread n).2 })
  | .armor ib unread =>
    (Agecrypt.bread n (a.tape ib unread)).map (fun x => (x.1, a.untape x.2))

def bpeek (a : Am) : Option (Peek × Am) :=
  match a.inp with
  | .src s => some (s.bpeek.1, { a with inp := .src s.bpeek.2 })
  | .armor ib unread =>
    (Agecrypt.bpeek (a.tape ib unread)).map (fun x => (x.1, a.untape x.2))

def ibeof (a : Am) : Bool :=
  match a.inp with
  | .src s => s.eof
  | .armor ib _ => ib.eof

def err : (o : ErrOp) → Am → ErrRet o × Am
  | .eset e, a => ((), { a with ebuf := esetText e })
  | .eget, a => (a.eget, a)
  | .ewrap outer inner, a => (ewrapText outer inner, { a with ebuf := ewrapText outer inner })

end Am

def amRd : Handler RdOp RdRet Am
  | .bread n, a => a.bread n
  | .bpeek, a => a.bpeek
  | .ibeof, a => some (a.ibeof, a)
  | .overflow, _ => none
  | .err o, a => some (a.err o)

def amWr : Handler WrOp WrRet Am
  | .bwrite bs, a => some (true, { a with snk := a.snk.bwrite bs })
  | .bflush, a => some (true, { a with snk := a.snk.bflush })
  | .writeall bs, a => some (true, { a with snk := a.snk.writeall bs })
  | .obarmor, a => some (a.snk.isarmor, a)
  | .randombuf n, a => some ((a.draws 0).bytes n, { a with draws := fun i => a.draws (i + 1) })
  | .err o, a => some (a.err o)

def amHandler : Handler RwOp RwRet Am
  | .rd o, a => amRd o a
  | .wr o, a => amWr o a

end Agecrypt
