import Agecrypt.Lib.Bytes

/-!
# The system below the codec

`io.c` reads and writes through integer descriptors with `ageread` and
`agewrite` (`memio.c`), allocates with `malloc` and `realloc`, and draws
random bytes with `randombuf` (`platform.c`).  `Descr δ` says that `δ` is a
system state with these calls.  Three systems are used: `Dev` here, a pair
of descriptors with arbitrary behaviour; the stream table of `memio.c`; and
the file system under the file entry points.

A call that the source reports as `-1` answers `none`.  `ageread` answers
the bytes it put into the caller's buffer, so the count is their number,
and `agewrite` the number of bytes it accepted.  An `agewrite` that would copy
past the end of a block has no outcome.
-/

namespace Agecrypt

/-- The calls of the system. -/
class Descr (δ : Type) where
  ageread : Int → Nat → δ → Option (List UInt8) × δ
  agewrite : Int → List UInt8 → δ → Option (Option Nat × δ)
  /-- Whether a `malloc` or `realloc` of this size succeeds. -/
  alloc : Nat → δ → Bool × δ
  randombuf : (n : Nat) → δ → Option (Bytes n) × δ
  /-- `strerror(errno)` -/
  strerror : δ → String

/-- The outcome of one draw of random bytes: `none` for a failure, otherwise
the bytes by position. -/
abbrev Draw := Option (Nat → UInt8)

/-- The `n` bytes of a draw. -/
def Draw.bytes (n : Nat) : Draw → Option (Bytes n)
  | none => none
  | some f => some ⟨(List.range n).map f, by rw [List.length_map, List.length_range]⟩

/-- One call of `read` or `write`: it fails, or it moves between one byte
and the number asked for, as far as `count` allows. -/
inductive Event where
  | fail
  | count (k : Nat)
deriving DecidableEq, Repr

/-- A descriptor to read from and one to write to, with a schedule for each.
Call number `i` behaves as event `i` of the schedule says, whatever the
descriptor number. -/
structure Dev where
  /-- What the input has still to deliver. -/
  inp : List UInt8
  reads : Nat → Event
  /-- The bytes that the output has accepted. -/
  out : List UInt8
  writes : Nat → Event
  allocs : Nat → Bool
  draws : Nat → Draw
  errno : String
  /-- The number of `read` calls that have failed. -/
  readFails : Nat
  /-- The number of `write` calls that have failed. -/
  writeFails : Nat

namespace Dev

/-- `read`: at least one byte until the input is exhausted, and then none. -/
def read (nbytes : Nat) (d : Dev) : Option (List UInt8) × Dev :=
  let next : Dev := { d with reads := fun i => d.reads (i + 1) }
  match d.reads 0 with
  | .fail => (none, { next with readFails := d.readFails + 1 })
  | .count k =>
    let n := min nbytes (k + 1)
    (some (d.inp.take n), { next with inp := d.inp.drop n })

/-- `write`: at least one byte of a non-empty buffer. -/
def write (bs : List UInt8) (d : Dev) : Option Nat × Dev :=
  let next : Dev := { d with writes := fun i => d.writes (i + 1) }
  match d.writes 0 with
  | .fail => (none, { next with writeFails := d.writeFails + 1 })
  | .count k =>
    let n := min bs.length (k + 1)
    (some n, { next with out := d.out ++ bs.take n })

instance : Descr Dev where
  ageread := fun _ => read
  agewrite := fun _ bs d => some (write bs d)
  alloc := fun _ d => (d.allocs 0, { d with allocs := fun i => d.allocs (i + 1) })
  randombuf := fun n d => ((d.draws 0).bytes n, { d with draws := fun i => d.draws (i + 1) })
  strerror := fun d => d.errno

end Dev

end Agecrypt
