import Agecrypt.Agec.Descr
import Mathlib.Data.List.FinRange
import Mathlib.Logic.Function.Basic

/-!
# `memio.c`: the table of in-memory streams

A stream is a slot of a table of eight.  A source borrows the bytes that it
delivers; a sink owns a buffer that grows.  The descriptor of slot `i` is
`-2 - i`.  The functions here work on the table alone; what `memwrite` needs
from `realloc` it asks of its caller.
-/

namespace Agecrypt

def MEMFD_MAX : Nat := 8

/-- `data` are the valid bytes; `len` is their number. -/
structure MemFile where
  used : Bool
  write : Bool
  data : List UInt8
  cap : Nat
  pos : Nat
deriving DecidableEq, Repr

abbrev Memtab := Fin MEMFD_MAX → MemFile

/-- `vfd_to_index`: `none` for -1. -/
def vfdToIndex (t : Memtab) (vfd : Int) : Option (Fin MEMFD_MAX) :=
  if vfd > -2 then none
  else
    let i := -2 - vfd
    if h : i.toNat < MEMFD_MAX then
      if i < 0 ∨ ¬ (t ⟨i.toNat, h⟩).used then none else some ⟨i.toNat, h⟩
    else none

/-- The first slot that is not used, and the table with that slot taken. -/
def memalloc (t : Memtab) : Option (Fin MEMFD_MAX × Memtab) :=
  ((List.finRange MEMFD_MAX).find? fun i => ¬ (t i).used).map fun i =>
    (i, Function.update t i ⟨true, false, [], 0, 0⟩)

/-- The descriptor of a slot. -/
def vfdOf (i : Fin MEMFD_MAX) : Int := -2 - (i.val : Int)

def memopenRead (data : List UInt8) (t : Memtab) : Int × Memtab :=
  match memalloc t with
  | none => (-1, t)
  | some (i, t) => (vfdOf i, Function.update t i { t i with write := false, data, pos := 0 })

def memopenWrite (t : Memtab) : Int × Memtab :=
  match memalloc t with
  | none => (-1, t)
  | some (i, t) => (vfdOf i, Function.update t i { t i with write := true })

/-- The contents of a stream. -/
def memdata (vfd : Int) (t : Memtab) : List UInt8 :=
  match vfdToIndex t vfd with
  | none => []
  | some i => (t i).data

def memclose (vfd : Int) (t : Memtab) : Memtab :=
  match vfdToIndex t vfd with
  | none => t
  | some i => Function.update t i { t i with used := false, data := [], cap := 0, pos := 0 }

def memread (i : Fin MEMFD_MAX) (nbytes : Nat) (t : Memtab) : List UInt8 × Memtab :=
  let avail := (t i).data.length - (t i).pos
  if avail = 0 then ([], t)
  else
    let n := min nbytes avail
    (((t i).data.drop (t i).pos).take n, Function.update t i { t i with pos := (t i).pos + n })

/-- The loop of `memwrite` that doubles the capacity; `none` when it would
leave `usize`. -/
def memgrow (need : Nat) : Nat → Nat → Option Nat
  | 0, ncap => if ncap < need then none else some ncap
  | fuel + 1, ncap =>
    if ncap < need then
      if ncap > (2 ^ 64 - 1) / 2 then none else memgrow need fuel (ncap * 2)
    else some ncap

/-- The capacity that `memwrite` asks `realloc` for. -/
inductive MemNeed where
  | overflow
  | fits
  | realloc (ncap : Nat)
deriving DecidableEq, Repr

def memneed (i : Fin MEMFD_MAX) (nbytes : Nat) (t : Memtab) : MemNeed :=
  let need := ((t i).data.length + nbytes) % 2 ^ 64
  if need < (t i).data.length then .overflow
  else if need > (t i).cap then
    match memgrow need 64 (if (t i).cap ≠ 0 then (t i).cap else 4096) with
    | none => .overflow
    | some ncap => .realloc ncap
  else .fits

/-- The end of `memwrite`: the copy behind the valid bytes, into a block of
`cap` bytes.  A copy that would not fit into the block has no outcome. -/
def memappend (i : Fin MEMFD_MAX) (bs : List UInt8) (cap : Nat) (t : Memtab) : Option Memtab :=
  if (t i).data.length + bs.length ≤ cap then
    some (Function.update t i { t i with data := (t i).data ++ bs, cap })
  else none

theorem memappend_eq_some {i : Fin MEMFD_MAX} {bs : List UInt8} {cap : Nat} {t t' : Memtab} :
    memappend i bs cap t = some t' ↔ (t i).data.length + bs.length ≤ cap ∧
      t' = Function.update t i { t i with data := (t i).data ++ bs, cap } := by
  rw [memappend, Option.ite_none_right_eq_some, Option.some_inj]
  exact and_congr_right fun _ => eq_comm

end Agecrypt
