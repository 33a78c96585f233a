import Agecrypt.Package.Memio

/-!
# The process and the system around it

`Sys` is what a native entry point runs in: the stream table, `errno`, the
open descriptors, and the file system.  A directory maps paths to files, so
that two paths can name one file.  Everything that the system decides is a
schedule: whether a call fails and with which `errno`, how many bytes a read
or write moves, whether an allocation succeeds, what is drawn.

Other processes work on the same file system.  `others` says what they do to
it in front of each of our calls.  `log` records for each of our calls the
file system that it found and the one that it left, and `failed` and `denied`
count what was refused; nothing in the code reads them.
-/

namespace Agecrypt

abbrev Path := List UInt8

inductive Errno where
  | EEXIST | ENAMETOOLONG | EIO | ENOMEM | ENOENT | EBADF
  | other (n : Nat)
deriving DecidableEq, Repr

/-- The calls of the file system. -/
inductive Syscall where
  | open | read | write | close | fsync | link | rename | unlink | access
deriving DecidableEq, Repr

/-- What the system decides about one call.  `count` bounds the bytes that a
read or a write moves. -/
inductive Verdict where
  | fail (e : Errno)
  | ok (count : Nat)
deriving DecidableEq, Repr

/-! ## The file system -/

/-- Files are numbered; `next` is the number of the next new file. -/
structure Disk where
  dir : Path → Option Nat
  data : Nat → List UInt8
  next : Nat

namespace Disk

/-- What a path holds. -/
def contents (d : Disk) (p : Path) : Option (List UInt8) := (d.dir p).map d.data

/-- A new empty file under the path. -/
def create (p : Path) (d : Disk) : Disk where
  dir := Function.update d.dir p (some d.next)
  data := Function.update d.data d.next []
  next := d.next + 1

/-- The path names the file. -/
def enter (p : Path) (file : Nat) (d : Disk) : Disk :=
  { d with dir := Function.update d.dir p (some file) }

def remove (p : Path) (d : Disk) : Disk := { d with dir := Function.update d.dir p none }

/-- Put bytes into a file from position `pos` on. -/
def put (file pos : Nat) (bs : List UInt8) (d : Disk) : Disk :=
  let new := (d.data file).take pos ++ bs ++ (d.data file).drop (pos + bs.length)
  { d with data := Function.update d.data file new }

/-- A directory of the given files. -/
def ofFiles (files : List (Path × List UInt8)) : Disk where
  dir := fun p => files.findIdx? fun f => f.1 = p
  data := fun i => (files[i]?).elim [] Prod.snd
  next := files.length

theorem contents_ofFiles (p : Path) (content : List UInt8) :
    (ofFiles [(p, content)]).contents p = some content := by
  simp [contents, ofFiles, List.findIdx?_cons]

end Disk

/-- An open descriptor: its file, and the position in it. -/
structure OpenFile where
  file : Nat
  pos : Nat
deriving DecidableEq, Repr

structure Sys where
  memtab : Memtab
  errno : Errno
  fds : Int → Option OpenFile
  nextfd : Nat
  disk : Disk
  strerror : Errno → String
  calls : Syscall → Nat → Verdict
  /-- Whether an allocation of a size succeeds. -/
  allocs : Nat → Nat → Bool
  draws : Nat → Draw
  /-- Whether the allocations inside R succeed. -/
  rallocs : Nat → Bool
  /-- Whether the allocations of `R_MakeUnwindCont` succeed. -/
  conts : Nat → Bool
  others : Nat → Disk → Disk
  log : List (Disk × Disk)
  /-- The number of calls that have failed. -/
  failed : Nat
  /-- The number of allocations and draws that have failed. -/
  denied : Nat

namespace Sys

variable {α : Type}

/-- A call ends with -1 and sets `errno`. -/
def fail (e : Errno) (s : Sys) : Sys := { s with errno := e, failed := s.failed + 1 }

/-- The moment of a call: the other processes have done their work, and the
verdict about the call is taken. -/
def arrive (c : Syscall) (s : Sys) : Sys :=
  { s with
    disk := s.others 0 s.disk
    others := fun i => s.others (i + 1)
    calls := Function.update s.calls c fun i => s.calls c (i + 1) }

/-- The call is over: write down what it found and what it left. -/
def record (found : Disk) (s : Sys) : Sys := { s with log := s.log ++ [(found, s.disk)] }

def finish (found : Disk) : Except Errno α × Sys → Option α × Sys
  | (.error e, s) => (none, (s.record found).fail e)
  | (.ok a, s) => (some a, s.record found)

/-- What a call does: nothing when it fails, otherwise `effect`, with the
bound on the bytes that it moves. -/
def act (effect : Nat → Sys → Except Errno α × Sys) (v : Verdict) (s : Sys) :
    Except Errno α × Sys :=
  match v with
  | .fail e => (.error e, s)
  | .ok count => effect count s

/-- One call of the file system. -/
def syscall (c : Syscall) (effect : Nat → Sys → Except Errno α × Sys) (s : Sys) :
    Option α × Sys :=
  finish (s.arrive c).disk (act effect (s.calls c 0) (s.arrive c))

/-- A descriptor for the file. -/
def newfd (file : Nat) (s : Sys) : Int × Sys :=
  (s.nextfd, { s with
    fds := Function.update s.fds (s.nextfd : Int) (some ⟨file, 0⟩), nextfd := s.nextfd + 1 })

/-- `open(path, O_RDONLY)` -/
def openRead (p : Path) : Sys → Option Int × Sys :=
  syscall .open fun _ s =>
    match s.disk.dir p with
    | none => (.error .ENOENT, s)
    | some file =>
      let (fd, s) := s.newfd file
      (.ok fd, s)

/-- `open(path, O_WRONLY | O_CREAT | O_EXCL)` -/
def openExcl (p : Path) : Sys → Option Int × Sys :=
  syscall .open fun _ s =>
    match s.disk.dir p with
    | some _ => (.error .EEXIST, s)
    | none =>
      let (fd, s) := { s with disk := s.disk.create p }.newfd s.disk.next
      (.ok fd, s)

def read (fd : Int) (nbytes : Nat) : Sys → Option (List UInt8) × Sys :=
  syscall .read fun count s =>
    match s.fds fd with
    | none => (.error .EBADF, s)
    | some f =>
      let bs := ((s.disk.data f.file).drop f.pos).take (min nbytes (count + 1))
      (.ok bs, { s with fds := Function.update s.fds fd (some ⟨f.file, f.pos + bs.length⟩) })

def write (fd : Int) (bs : List UInt8) : Sys → Option Nat × Sys :=
  syscall .write fun count s =>
    match s.fds fd with
    | none => (.error .EBADF, s)
    | some f =>
      let n := min bs.length (count + 1)
      (.ok n, { s with
        fds := Function.update s.fds fd (some ⟨f.file, f.pos + n⟩)
        disk := s.disk.put f.file f.pos (bs.take n) })

/-- `close`: the descriptor is gone also when the call fails. -/
def close (fd : Int) (s : Sys) : Option Unit × Sys :=
  let (r, s) := syscall .close (fun _ s =>
    (if (s.fds fd).isSome then .ok () else .error .EBADF, s)) s
  (r, { s with fds := Function.update s.fds fd none })

def fsync (fd : Int) : Sys → Option Unit × Sys :=
  syscall .fsync fun _ s => (if (s.fds fd).isSome then .ok () else .error .EBADF, s)

/-- `link`: a second name for a file, under a path that does not exist. -/
def link (old new : Path) : Sys → Option Unit × Sys :=
  syscall .link fun _ s =>
    match s.disk.dir old with
    | none => (.error .ENOENT, s)
    | some file =>
      if (s.disk.dir new).isSome then (.error .EEXIST, s)
      else (.ok (), { s with disk := s.disk.enter new file })

/-- `rename`: nothing happens when both paths name one file. -/
def rename (old new : Path) : Sys → Option Unit × Sys :=
  syscall .rename fun _ s =>
    match s.disk.dir old with
    | none => (.error .ENOENT, s)
    | some file =>
      if s.disk.dir new = some file then (.ok (), s)
      else (.ok (), { s with disk := (s.disk.enter new file).remove old })

def unlink (p : Path) : Sys → Option Unit × Sys :=
  syscall .unlink fun _ s =>
    if (s.disk.dir p).isSome then (.ok (), { s with disk := s.disk.remove p })
    else (.error .ENOENT, s)

/-- `access(path, F_OK)` -/
def access (p : Path) : Sys → Option Unit × Sys :=
  syscall .access fun _ s => (if (s.disk.dir p).isSome then .ok () else .error .ENOENT, s)

/-! ## Memory and random bytes -/

/-- `malloc` and `realloc` -/
def malloc (n : Nat) (s : Sys) : Bool × Sys :=
  let t := { s with allocs := fun i => s.allocs (i + 1) }
  if s.allocs 0 n then (true, t)
  else (false, { t with errno := .ENOMEM, denied := s.denied + 1 })

def randombuf (n : Nat) (s : Sys) : Option (Bytes n) × Sys :=
  ((s.draws 0).bytes n, { s with
    draws := fun i => s.draws (i + 1)
    denied := if (s.draws 0).isSome then s.denied else s.denied + 1 })

/-- `memwrite` -/
def memwrite (i : Fin MEMFD_MAX) (bs : List UInt8) (s : Sys) : Option (Option Nat × Sys) :=
  match memneed i bs.length s.memtab with
  | .overflow => some (none, { s with failed := s.failed + 1 })
  | .fits =>
    (memappend i bs (s.memtab i).cap s.memtab).map fun memtab => (some bs.length, { s with memtab })
  | .realloc ncap =>
    match s.malloc ncap with
    | (false, s) => some (none, { s with failed := s.failed + 1 })
    | (true, s) =>
      (memappend i bs ncap s.memtab).map fun memtab => (some bs.length, { s with memtab })

def ageread (fd : Int) (nbytes : Nat) (s : Sys) : Option (List UInt8) × Sys :=
  if fd ≥ 0 then s.read fd nbytes
  else
    match vfdToIndex s.memtab fd with
    | none => (none, { s with failed := s.failed + 1 })
    | some i =>
      let (bs, memtab) := memread i nbytes s.memtab
      (some bs, { s with memtab })

def agewrite (fd : Int) (bs : List UInt8) (s : Sys) : Option (Option Nat × Sys) :=
  if fd ≥ 0 then some (s.write fd bs)
  else
    match vfdToIndex s.memtab fd with
    | none => some (none, { s with failed := s.failed + 1 })
    | some i =>
      if (s.memtab i).write then s.memwrite i bs
      else some (none, { s with failed := s.failed + 1 })

instance : Descr Sys where
  ageread := ageread
  agewrite := agewrite
  alloc := malloc
  randombuf := randombuf
  strerror := fun s => s.strerror s.errno

/-- What a write to a sink did: it failed and left the streams alone, or it
copied the bytes into the block that is there, or into a larger one. -/
inductive MemWritten (i : Fin MEMFD_MAX) (bs : List UInt8) (s : Sys) : Option Nat → Sys → Prop
  | overflow (hneed : memneed i bs.length s.memtab = .overflow) :
      MemWritten i bs s none { s with failed := s.failed + 1 }
  | full {ncap : Nat} (hneed : memneed i bs.length s.memtab = .realloc ncap)
      (hmem : (s.malloc ncap).1 = false) :
      MemWritten i bs s none
        { (s.malloc ncap).2 with failed := (s.malloc ncap).2.failed + 1 }
  | fits {t : Memtab} (hneed : memneed i bs.length s.memtab = .fits)
      (hcopy : memappend i bs (s.memtab i).cap s.memtab = some t) :
      MemWritten i bs s (some bs.length) { s with memtab := t }
  | grown {ncap : Nat} {t : Memtab} (hneed : memneed i bs.length s.memtab = .realloc ncap)
      (hmem : (s.malloc ncap).1 = true)
      (hcopy : memappend i bs ncap (s.malloc ncap).2.memtab = some t) :
      MemWritten i bs s (some bs.length) { (s.malloc ncap).2 with memtab := t }

theorem memwrite_spec {i : Fin MEMFD_MAX} {bs : List UInt8} {s s' : Sys} {r : Option Nat}
    (h : s.memwrite i bs = some (r, s')) : MemWritten i bs s r s' := by
  rw [memwrite] at h
  cases hneed : memneed i bs.length s.memtab with
  | overflow =>
    rw [hneed] at h
    obtain ⟨rfl, rfl⟩ := Prod.mk.inj (Option.some.inj h)
    exact .overflow hneed
  | fits =>
    rw [hneed] at h
    obtain ⟨t, hcopy, h⟩ := Option.map_eq_some_iff.mp h
    obtain ⟨rfl, rfl⟩ := Prod.mk.inj h
    exact .fits hneed hcopy
  | realloc ncap =>
    rw [hneed] at h
    dsimp only at h
    cases hmem : (s.malloc ncap).1 with
    | false =>
      rw [← Prod.mk.eta (p := s.malloc ncap), hmem] at h
      obtain ⟨rfl, rfl⟩ := Prod.mk.inj (Option.some.inj h)
      exact .full hneed hmem
    | true =>
      rw [← Prod.mk.eta (p := s.malloc ncap), hmem] at h
      obtain ⟨t, hcopy, h⟩ := Option.map_eq_some_iff.mp h
      obtain ⟨rfl, rfl⟩ := Prod.mk.inj h
      exact .grown hneed hmem hcopy

/-- What `agewrite` did. -/
inductive AgeWritten (fd : Int) (bs : List UInt8) (s : Sys) : Option Nat → Sys → Prop
  | file (hfd : 0 ≤ fd) : AgeWritten fd bs s (s.write fd bs).1 (s.write fd bs).2
  | closed (hfd : fd < 0) (hclosed : vfdToIndex s.memtab fd = none) :
      AgeWritten fd bs s none { s with failed := s.failed + 1 }
  | source {i : Fin MEMFD_MAX} (hfd : fd < 0) (hopen : vfdToIndex s.memtab fd = some i)
      (hsource : (s.memtab i).write = false) :
      AgeWritten fd bs s none { s with failed := s.failed + 1 }
  | sink {i : Fin MEMFD_MAX} {r : Option Nat} {s' : Sys} (hfd : fd < 0)
      (hopen : vfdToIndex s.memtab fd = some i) (hsink : (s.memtab i).write = true)
      (hwritten : MemWritten i bs s r s') : AgeWritten fd bs s r s'

theorem agewrite_spec {fd : Int} {bs : List UInt8} {s s' : Sys} {r : Option Nat}
    (h : s.agewrite fd bs = some (r, s')) : AgeWritten fd bs s r s' := by
  rw [agewrite] at h
  by_cases hfd : fd ≥ 0
  · rw [if_pos hfd] at h
    obtain ⟨rfl, rfl⟩ := Prod.mk.inj (Option.some.inj h)
    exact .file hfd
  rw [if_neg hfd] at h
  cases hi : vfdToIndex s.memtab fd with
  | none =>
    rw [hi] at h
    obtain ⟨rfl, rfl⟩ := Prod.mk.inj (Option.some.inj h)
    exact .closed (Int.not_le.mp hfd) hi
  | some i =>
    rw [hi] at h
    dsimp only at h
    cases hwrite : (s.memtab i).write with
    | true =>
      rw [hwrite, if_pos rfl] at h
      exact .sink (Int.not_le.mp hfd) hi hwrite (memwrite_spec h)
    | false =>
      rw [hwrite, if_neg Bool.false_ne_true] at h
      obtain ⟨rfl, rfl⟩ := Prod.mk.inj (Option.some.inj h)
      exact .source (Int.not_le.mp hfd) hi hwrite

/-- A system with the files, on which no call fails and no other process
runs.  Reads and writes move `count + 1` bytes at most. -/
def steady (files : List (Path × List UInt8)) (count : Nat) : Sys where
  memtab := fun _ => ⟨false, false, [], 0, 0⟩
  errno := .other 0
  fds := fun _ => none
  nextfd := 3
  disk := .ofFiles files
  strerror := fun _ => ""
  calls := fun _ _ => .ok count
  allocs := fun _ _ => true
  draws := fun _ => some fun _ => 0
  rallocs := fun _ => true
  conts := fun _ => true
  others := fun _ d => d
  log := []
  failed := 0
  denied := 0

end Sys

end Agecrypt
