import Agecrypt.Lib.Heap
import Agecrypt.Lib.Interp
import Agecrypt.Package.Binding
import Agecrypt.Package.Streams

/-!
# The blocks that hold secrets

The private keys of a key array, the contents of a key file and the bytes of
a sink lie in blocks from `malloc`.  Here the package runs on a system with
these blocks.  `memio.c` works on the block of a slot, and for the parser of
identities the writes, wipes and frees of `binding.c` are operations of
their own: `forgetBlocks` takes them away, and what is left are the programs
of `Agecrypt.Package.Identity`.

A release of an identity is its finalizer, which `age_c_identity_free`
calls.
-/

namespace Agecrypt

open Pkg (syserr)

/-- The variables that point to a block: `kb.keys`, `buf` of the key file
functions, the data of a slot, and `id->keys` of identity number `k`. -/
inductive Owner where
  | keybuf
  | keyfile
  | sink (i : Fin MEMFD_MAX)
  | identity (k : Nat)
deriving DecidableEq, Repr

/-- The system with its blocks. -/
structure HeapSys where
  sys : Sys
  heap : Heap Owner
  /-- `*lenout` of `slurp_keyfile` -/
  lenout : Nat
  /-- The identities with their `n`; `none` once the pointer is cleared. -/
  ids : List (Option Nat)

/-! ## The stream table -/

/-- What `memwrite` does to the block of the sink. -/
def memwriteHeap (i : Fin MEMFD_MAX) (bs : List UInt8) (s : Sys) (h : Heap Owner) : Heap Owner :=
  let len := (s.memtab i).data.length
  match memneed i bs.length s.memtab with
  | .overflow => h
  | .fits => h.store (.sink i) len bs
  | .realloc ncap =>
    if (s.malloc ncap).1 then (h.realloc (.sink i) ncap).store (.sink i) len bs else h

def agewriteHeap (fd : Int) (bs : List UInt8) (s : Sys) (h : Heap Owner) : Heap Owner :=
  if fd ≥ 0 then h
  else
    match vfdToIndex s.memtab fd with
    | none => h
    | some i => if (s.memtab i).write then memwriteHeap i bs s h else h

def memcloseHeap (vfd : Int) (t : Memtab) (h : Heap Owner) : Heap Owner :=
  match vfdToIndex t vfd with
  | none => h
  | some i =>
    if (t i).write ∧ (h.block (.sink i)).isSome then
      (h.wipe (.sink i) (t i).cap).free (.sink i)
    else h

instance : Descr HeapSys where
  ageread := fun fd n s => ((s.sys.ageread fd n).1, { s with sys := (s.sys.ageread fd n).2 })
  agewrite := fun fd bs s => (s.sys.agewrite fd bs).map fun x =>
    (x.1, { s with sys := x.2, heap := agewriteHeap fd bs s.sys s.heap })
  alloc := fun n s => ((s.sys.malloc n).1, { s with sys := (s.sys.malloc n).2 })
  randombuf := fun n s => ((s.sys.randombuf n).1, { s with sys := (s.sys.randombuf n).2 })
  strerror := fun s => s.sys.strerror s.sys.errno

/-! ## The operations of the package -/

/-- The state without the blocks. -/
def Io.sys (io : Io HeapSys) : Io Sys := ⟨io.ib, io.ob, io.ebuf, io.data, io.dev.sys⟩

/-- The blocks of `s` beside the rest of a state. -/
def Io.withBlocks (s : HeapSys) (io : Io Sys) : Io HeapSys :=
  ⟨io.ib, io.ob, io.ebuf, io.data, { s with sys := io.dev }⟩

/-- Of the operations that do not write to a descriptor, `memclose` is the
one that works on a block. -/
def blocksAfter : PkgOp → HeapSys → HeapSys
  | .memclose vfd, s => { s with heap := memcloseHeap vfd s.sys.memtab s.heap }
  | _, s => s

def blockHandler : Handler PkgOp PkgRet (Io HeapSys)
  | .age o, io => ageHandler o io
  | .writeall fd bs, io => (writeall fd bs io.dev).map fun x => (x.1, { io with dev := x.2 })
  | o, io => (pkgHandler o io.sys).map fun x => (x.1, x.2.withBlocks (blocksAfter o io.dev))

/-! ## Identities -/

/-- The keys of the array become those of a new identity of `n` keys. -/
def adopt (n : Nat) (s : HeapSys) : HeapSys :=
  { s with heap := s.heap.give .keybuf (.identity s.ids.length), ids := s.ids ++ [some n] }

/-- `id_destroy` for identity number `k` of `n` keys. -/
def idDestroy (k n : Nat) (s : HeapSys) : HeapSys :=
  { s with heap := (s.heap.wipe (.identity k) (n * 32)).free (.identity k) }

/-- `id_finalizer`: nothing happens when the pointer has been cleared. -/
def idFinalizer (k : Nat) (s : HeapSys) : HeapSys :=
  match (s.ids[k]?).join with
  | none => s
  | some n => { idDestroy k n s with ids := s.ids.set k none }

/-! ## The operations of the parser of identities -/

inductive HeapOp where
  | pkg (o : PkgOp)
  | malloc (v : Owner) (n : Nat)
  | realloc (v : Owner) (n : Nat)
  | store (v : Owner) (off : Nat) (bs : List UInt8)
  | wipe (v : Owner) (n : Nat)
  | free (v : Owner)
  /-- `*lenout = n` -/
  | setLenout (n : Nat)
  /-- `wipe(v, cap)` with the `cap` from `*lenout`. -/
  | wipeLenout (v : Owner)
  /-- `id->keys = kb.keys; id->n = n` of a new identity. -/
  | adopt (n : Nat)
  /-- `id_finalizer` -/
  | finalize (k : Nat)

@[reducible] def HeapRet : HeapOp → Type
  | .pkg o => PkgRet o
  | .malloc _ _ => Bool
  | .realloc _ _ => Bool
  | .store _ _ _ => Unit
  | .wipe _ _ => Unit
  | .free _ => Unit
  | .setLenout _ => Unit
  | .wipeLenout _ => Unit
  | .adopt _ => Unit
  | .finalize _ => Unit

abbrev Heaped (α : Type) := ProgE HeapOp HeapRet α

/-- An operation on the system and its blocks. -/
def onBlocks {α : Type} (f : HeapSys → α × HeapSys) (io : Io HeapSys) : Option (α × Io HeapSys) :=
  some ((f io.dev).1, { io with dev := (f io.dev).2 })

/-- An operation on the blocks only. -/
def onHeap (f : Heap Owner → Heap Owner) : Io HeapSys → Option (Unit × Io HeapSys) :=
  onBlocks fun s => ((), { s with heap := f s.heap })

/-- An allocation: when the system grants it, the blocks change by `f`. -/
def allocating (n : Nat) (f : Heap Owner → Heap Owner) (s : HeapSys) : Bool × HeapSys :=
  ((s.sys.malloc n).1,
    { s with sys := (s.sys.malloc n).2, heap := if (s.sys.malloc n).1 then f s.heap else s.heap })

def heapHandler : Handler HeapOp HeapRet (Io HeapSys)
  | .pkg o, io => blockHandler o io
  | .malloc v n, io => onBlocks (allocating n (Heap.malloc v n)) io
  | .realloc v n, io => onBlocks (allocating n (Heap.realloc v n)) io
  | .store v off bs, io => onHeap (Heap.store v off bs) io
  | .wipe v n, io => onHeap (Heap.wipe v n) io
  | .free v, io => onHeap (Heap.free v) io
  | .setLenout n, io => onBlocks (fun s => ((), { s with lenout := n })) io
  | .wipeLenout v, io => onBlocks (fun s => ((), { s with heap := s.heap.wipe v s.lenout })) io
  | .adopt n, io => onBlocks (fun s => ((), adopt n s)) io
  | .finalize k, io => onBlocks (fun s => ((), idFinalizer k s)) io

namespace Heaped

/-- A program of the package. -/
def pkg {α : Type} (p : Pkg α) : Heaped α := ProgE.embed HeapOp.pkg (fun _ r => r) p

def call (o : PkgOp) : Heaped (PkgRet o) := ProgE.op (HeapOp.pkg o)
def malloc (v : Owner) (n : Nat) : Heaped Bool := ProgE.op (HeapOp.malloc v n)
def realloc (v : Owner) (n : Nat) : Heaped Bool := ProgE.op (HeapOp.realloc v n)
def store (v : Owner) (off : Nat) (bs : List UInt8) : Heaped Unit :=
  ProgE.op (HeapOp.store v off bs)
def wipe (v : Owner) (n : Nat) : Heaped Unit := ProgE.op (HeapOp.wipe v n)
def free (v : Owner) : Heaped Unit := ProgE.op (HeapOp.free v)
def setLenout (n : Nat) : Heaped Unit := ProgE.op (HeapOp.setLenout n)
def wipeLenout (v : Owner) : Heaped Unit := ProgE.op (HeapOp.wipeLenout v)
def adopt (n : Nat) : Heaped Unit := ProgE.op (HeapOp.adopt n)
def finalize (k : Nat) : Heaped Unit := ProgE.op (HeapOp.finalize k)

/-! ## Identity keys -/

/-- `keybuf_free`; the array is `NULL` when it has no slots. -/
def keybufFree (kb : Keybuf) : Heaped Unit := do
  if kb.cap ≠ 0 then
    wipe .keybuf (kb.cap * 32)
    free .keybuf

def keybufGrow (kb : Keybuf) : Heaped (Option Keybuf) := do
  if kb.keys.length = kb.cap then
    let ncap := if kb.cap ≠ 0 then kb.cap * 2 else 4
    if ← realloc .keybuf (ncap * 32) then return some { kb with cap := ncap }
    else return none
  else return some kb

/-- `keybuf_push`; `x25519privkey` writes into the slot when it succeeds. -/
def keybufPush (kb : Keybuf) (s : List UInt8) : Heaped (Pushed × Keybuf) := do
  if s.length ≠ PRIVKEYLEN then return (.invalid, kb)
  else
    match ← keybufGrow kb with
    | none => return (.oom, kb)
    | some kb =>
      match x25519privkey s with
      | none => return (.invalid, kb)
      | some key =>
        if kb.keys.length < kb.cap then do
          store .keybuf (kb.keys.length * 32) key.val
          return (.ok, { kb with keys := kb.keys ++ [key] })
        else do nomatch (← call .outside)

/-! ## Key files -/

def slurpGrow (st : Slurp) : Heaped (Option Slurp) := do
  if st.buf.length = st.cap - 1 then
    if ← realloc .keyfile (st.cap * 2) then return some { st with cap := st.cap * 2 }
    else return none
  else return some st

def slurpRead (fd : Int) (st : Slurp) : Heaped (Slurp ⊕ Except String (List UInt8)) := do
  if st.buf.length ≥ KEYFILE_MAX then do
    wipe .keyfile st.cap
    free .keyfile
    let _ ← call (.close fd)
    return .inr (.error (copyerr 512 "key file is too large"))
  else
    match ← slurpGrow st with
    | none => do
      wipe .keyfile st.cap
      free .keyfile
      let _ ← call (.close fd)
      return .inr (.error (copyerr 512 "out of memory"))
    | some st =>
      match ← call (.read fd (st.cap - 1 - st.buf.length)) with
      | none => do
        let msg := copyerr 512 (← pkg syserr)
        wipe .keyfile st.cap
        free .keyfile
        let _ ← call (.close fd)
        return .inr (.error msg)
      | some [] => do
        let _ ← call (.close fd)
        store .keyfile st.buf.length [0]
        setLenout st.cap
        return .inr (.ok st.buf)
      | some bs => do
        store .keyfile st.buf.length bs
        return .inl { st with buf := st.buf ++ bs }

def slurpKeyfile (path : Path) : Heaped (Except String (List UInt8)) := do
  match ← call (.openRead path) with
  | none => return .error (copyerr 512 (← pkg syserr))
  | some fd =>
    if ¬ (← malloc .keyfile 4096) then do
      let _ ← call (.close fd)
      return .error (copyerr 512 "out of memory")
    else ProgE.loop (slurpRead fd) ⟨[], 4096⟩

/-- `trimline` on the line at position `pos` ends its text with a NUL. -/
def trimlineAt (pos : Nat) (line : List UInt8) : Heaped (List UInt8) := do
  store .keyfile (pos + (line.takeWhile isBlank).length + (trimline line).length) [0]
  return trimline line

def scanLine (pos : Nat) (kb : Keybuf) (line : List UInt8) : Heaped (Option String × Keybuf) := do
  let t ← trimlineAt pos line
  if (ascii "-----BEGIN AGE").isPrefixOf t ∨ strstr (ascii "age-encryption.org/v1") t then
    return (some (copyerr 512 "passphrase-encrypted key files are not supported"), kb)
  else if ¬ (ascii "AGE-SECRET-KEY-1").isPrefixOf t then return (none, kb)
  else
    match ← keybufPush kb t with
    | (.oom, kb) => return (some (copyerr 512 "out of memory"), kb)
    | (.invalid, kb) => return (some (copyerr 512 "failed to parse identity in key file"), kb)
    | (.ok, kb) => return (none, kb)

/-- A line in front of another one ends with a NUL in place of its line
feed. -/
def scanLines : Nat → List (List UInt8) → Keybuf → Heaped (Option String × Keybuf)
  | _, [], kb => return (none, kb)
  | pos, line :: lines, kb => do
    if lines ≠ [] then store .keyfile (pos + line.length) [0]
    match ← scanLine pos kb line with
    | (some msg, kb) => return (some msg, kb)
    | (none, kb) => scanLines (pos + line.length + 1) lines kb

def scanKeyfile (path : Path) (kb : Keybuf) : Heaped (Option String × Keybuf) := do
  match ← slurpKeyfile path with
  | .error msg => return (some msg, kb)
  | .ok buf => do
    let (msg, kb') ← scanLines 0 (lines (cstring buf)) kb
    wipeLenout .keyfile
    free .keyfile
    match msg with
    | some msg => return (some msg, kb')
    | none =>
      if kb'.keys.length = kb.keys.length then
        return (some (copyerr 512 "no age identities in key file"), kb')
      else return (none, kb')

/-! ## The entry points -/

def parseItems : List (Option (List UInt8) × Option Bool) → Keybuf → Heaped (Except String Keybuf)
  | [], kb => return .ok kb
  | (some s, some true) :: items, kb => do
    match ← scanKeyfile s kb with
    | (some msg, kb) => do
      keybufFree kb
      return .error msg
    | (none, kb) => parseItems items kb
  | (some s, some false) :: items, kb => do
    match ← keybufPush kb s with
    | (.oom, kb) => do
      keybufFree kb
      return .error "out of memory"
    | (.invalid, kb) => do
      keybufFree kb
      return .error "failed to parse identity"
    | (.ok, kb) => parseItems items kb
  | _ :: _, kb => do
    keybufFree kb
    return .error "invalid identity string"

def ageCIdentityParse (items isfile : Sexp) : Heaped Result := do
  call .eclear
  match items, isfile with
  | .str els, .lgl file =>
    if els.length = 0 ∨ file.length ≠ els.length then
      pkg (resultErr "identity" "no identities supplied")
    else
      match ← parseItems (els.zip file) ⟨[], 0⟩ with
      | .error msg => pkg (resultErr "identity" msg)
      | .ok kb =>
        if kb.keys.length = 0 then do
          keybufFree kb
          pkg (resultErr "identity" "no identities found")
        else if ¬ (← call (.malloc 16)) then do
          keybufFree kb
          pkg (resultErr "identity" "out of memory")
        else do
          adopt kb.keys.length
          pkg (do resultOk (← idWrap kb.keys))
  | _, _ => pkg (resultErr "identity" "invalid identity input")

def ageCIdentityFree (k : Nat) : Heaped Sexp := do
  finalize k
  return .null

end Heaped

/-! ## Without the blocks -/

/-- The operations of the package behind an operation on blocks. -/
def forgetBlocks : (o : HeapOp) → Prog PkgOp PkgRet (HeapRet o)
  | .pkg o => .call o .pure
  | .malloc _ n => .call (.malloc n) .pure
  | .realloc _ n => .call (.malloc n) .pure
  | .store _ _ _ => .pure ()
  | .wipe _ _ => .pure ()
  | .free _ => .pure ()
  | .setLenout _ => .pure ()
  | .wipeLenout _ => .pure ()
  | .adopt _ => .pure ()
  | .finalize _ => .pure ()

section Forget

open ProgE (interp interp_bind interp_op_pure interp_embed interp_loop pure_then)

@[simp] theorem interp_pkg {α : Type} (p : Pkg α) : interp forgetBlocks (Heaped.pkg p) = p :=
  interp_embed (fun _ _ _ => rfl) p

@[simp] theorem interp_malloc (v : Owner) (n : Nat) :
    interp forgetBlocks (Heaped.malloc v n) = Pkg.op (.malloc n) := rfl

@[simp] theorem interp_realloc (v : Owner) (n : Nat) :
    interp forgetBlocks (Heaped.realloc v n) = Pkg.op (.malloc n) := rfl

@[simp] theorem interp_store (v : Owner) (off : Nat) (bs : List UInt8) :
    interp forgetBlocks (Heaped.store v off bs) = pure () := interp_op_pure rfl

@[simp] theorem interp_wipe (v : Owner) (n : Nat) :
    interp forgetBlocks (Heaped.wipe v n) = pure () := interp_op_pure rfl

@[simp] theorem interp_free (v : Owner) :
    interp forgetBlocks (Heaped.free v) = pure () := interp_op_pure rfl

@[simp] theorem interp_setLenout (n : Nat) :
    interp forgetBlocks (Heaped.setLenout n) = pure () := interp_op_pure rfl

@[simp] theorem interp_wipeLenout (v : Owner) :
    interp forgetBlocks (Heaped.wipeLenout v) = pure () := interp_op_pure rfl

@[simp] theorem interp_adopt (n : Nat) :
    interp forgetBlocks (Heaped.adopt n) = pure () := interp_op_pure rfl

@[simp] theorem interp_keybufFree (kb : Keybuf) :
    interp forgetBlocks (Heaped.keybufFree kb) = pure () := by
  rw [Heaped.keybufFree]
  split
  · simp only [interp_bind, interp_wipe, interp_free, pure_then]
  · rfl

theorem interp_keybufPush (kb : Keybuf) (s : List UInt8) :
    interp forgetBlocks (Heaped.keybufPush kb s) = keybufPush kb s := by
  have hgrow : interp forgetBlocks (Heaped.keybufGrow kb) = keybufGrow kb := by
    rw [Heaped.keybufGrow, keybufGrow]
    split
    · simp only [interp_bind, interp_realloc]
      refine congrArg _ (funext fun ok => ?_)
      cases ok <;> rfl
    · rfl
  rw [Heaped.keybufPush, keybufPush]
  split
  · rfl
  rw [interp_bind, hgrow]
  refine congrArg _ (funext fun grown => ?_)
  cases grown with
  | none => rfl
  | some kb =>
    dsimp only
    cases x25519privkey s with
    | none => rfl
    | some key =>
      dsimp only
      split
      · simp only [interp_bind, interp_store, pure_then]
        rfl
      · simp only [interp_bind]
        refine congrArg _ (funext fun r => ?_)
        cases r

theorem interp_slurpKeyfile (path : Path) :
    interp forgetBlocks (Heaped.slurpKeyfile path) = slurpKeyfile path := by
  have hgrow : ∀ st, interp forgetBlocks (Heaped.slurpGrow st) = slurpGrow st := by
    intro st
    rw [Heaped.slurpGrow, slurpGrow]
    split
    · simp only [interp_bind, interp_realloc]
      refine congrArg _ (funext fun ok => ?_)
      cases ok <;> rfl
    · rfl
  have hread : ∀ fd st, interp forgetBlocks (Heaped.slurpRead fd st) = slurpRead fd st := by
    intro fd st
    rw [Heaped.slurpRead, slurpRead]
    split
    · simp only [interp_bind, interp_wipe, interp_free, pure_then]
      rfl
    rw [interp_bind, hgrow]
    refine congrArg _ (funext fun grown => ?_)
    cases grown with
    | none =>
      simp only [interp_bind, interp_wipe, interp_free, pure_then]
      rfl
    | some st =>
      simp only [interp_bind]
      refine congrArg _ (funext fun r => ?_)
      rcases r with _ | _ | ⟨c, bs⟩
      · simp only [interp_bind, interp_pkg, interp_wipe, interp_free, pure_then]
        rfl
      · simp only [interp_bind, interp_store, interp_setLenout, pure_then]
        rfl
      · simp only [interp_bind, interp_store, pure_then]
        rfl
  rw [Heaped.slurpKeyfile, slurpKeyfile]
  simp only [interp_bind]
  refine congrArg _ (funext fun r => ?_)
  cases r with
  | none =>
    simp only [interp_bind, interp_pkg]
    rfl
  | some fd =>
    simp only [interp_bind, interp_malloc]
    refine congrArg _ (funext fun ok => ?_)
    cases ok with
    | false =>
      rw [if_pos Bool.false_ne_true, if_pos Bool.false_ne_true]
      simp only [interp_bind]
      rfl
    | true =>
      rw [if_neg (not_not.mpr rfl), if_neg (not_not.mpr rfl), interp_loop]
      simp only [hread]

theorem interp_scanKeyfile (path : Path) (kb : Keybuf) :
    interp forgetBlocks (Heaped.scanKeyfile path kb) = scanKeyfile path kb := by
  have hline : ∀ pos kb line,
      interp forgetBlocks (Heaped.scanLine pos kb line) = scanLine kb line := by
    intro pos kb line
    rw [Heaped.scanLine, scanLine, Heaped.trimlineAt]
    simp only [interp_bind, interp_store, pure_then, ProgE.interp_pure]
    split
    · rfl
    split
    · rfl
    simp only [interp_bind, interp_keybufPush]
    refine congrArg _ (funext fun a => ?_)
    rcases a with ⟨_ | _ | _, kb⟩ <;> rfl
  have hlines : ∀ ls pos kb,
      interp forgetBlocks (Heaped.scanLines pos ls kb) = scanLines ls kb := by
    intro ls
    induction ls with
    | nil =>
      intro pos kb
      rfl
    | cons line ls ih =>
      intro pos kb
      rw [Heaped.scanLines, scanLines]
      split
      · simp only [interp_bind, interp_store, pure_then, hline]
        refine congrArg _ (funext fun a => ?_)
        rcases a with ⟨_ | msg, kb⟩
        · exact ih _ kb
        · rfl
      · simp only [interp_bind, hline]
        refine congrArg _ (funext fun a => ?_)
        rcases a with ⟨_ | msg, kb⟩
        · exact ih _ kb
        · rfl
  rw [Heaped.scanKeyfile, scanKeyfile, interp_bind, interp_slurpKeyfile]
  refine congrArg _ (funext fun r => ?_)
  cases r with
  | error msg => rfl
  | ok buf =>
    dsimp only
    rw [interp_bind, hlines]
    refine congrArg _ (funext fun a => ?_)
    rcases a with ⟨_ | msg, kb'⟩
    · simp only [interp_bind, interp_wipeLenout, interp_free, pure_then]
      split <;> rfl
    · simp only [interp_bind, interp_wipeLenout, interp_free, pure_then]
      rfl

/-- The parser with its blocks is the parser of the package. -/
theorem interp_ageCIdentityParse (items isfile : Sexp) :
    interp forgetBlocks (Heaped.ageCIdentityParse items isfile) =
      ageCIdentityParse items isfile := by
  have hfree : ∀ (kb : Keybuf) (msg : String), interp forgetBlocks
      (Heaped.keybufFree kb >>= fun _ => (pure (.error msg) : Heaped (Except String Keybuf))) =
      pure (.error msg) := by
    intro kb msg
    simp only [interp_bind, interp_keybufFree, pure_then]
    rfl
  have hitems : ∀ its kb, interp forgetBlocks (Heaped.parseItems its kb) = parseItems its kb := by
    intro its
    induction its with
    | nil =>
      intro kb
      rfl
    | cons item its ih =>
      intro kb
      rcases item with ⟨_ | s, _ | _ | _⟩
      · exact hfree kb _
      · exact hfree kb _
      · exact hfree kb _
      · exact hfree kb _
      · rw [Heaped.parseItems, parseItems, interp_bind, interp_keybufPush]
        refine congrArg _ (funext fun a => ?_)
        rcases a with ⟨_ | _ | _, kb⟩
        · exact ih kb
        · exact hfree kb _
        · exact hfree kb _
      · rw [Heaped.parseItems, parseItems, interp_bind, interp_scanKeyfile]
        refine congrArg _ (funext fun a => ?_)
        rcases a with ⟨_ | msg, kb⟩
        · exact ih kb
        · exact hfree kb _
  unfold Heaped.ageCIdentityParse ageCIdentityParse
  rw [interp_bind]
  refine congrArg _ (funext fun _ => ?_)
  cases items with
  | str els =>
    cases isfile with
    | lgl file =>
      show interp forgetBlocks (if _ then _ else _) = if _ then _ else _
      split
      · exact interp_pkg _
      rw [interp_bind, hitems]
      refine congrArg _ (funext fun a => ?_)
      cases a with
      | error msg => exact interp_pkg _
      | ok kb =>
        show interp forgetBlocks (if _ then _ else _) = if _ then _ else _
        split
        · simp only [interp_bind, interp_keybufFree, interp_pkg, pure_then]
        rw [interp_bind]
        refine congrArg _ (funext fun ok => ?_)
        split
        · simp only [interp_bind, interp_keybufFree, interp_pkg, pure_then]
        · simp only [interp_bind, interp_adopt, interp_pkg, pure_then]
    | _ => exact interp_pkg _
  | _ => exact interp_pkg _

end Forget

/-! ## Runs -/

/-- The calls after which no secret may be left in a block that was freed. -/
inductive HeapCall where
  | parse (items isfile : Sexp)
  /-- `age_c_identity_free`, and R's call of the finalizer. -/
  | release (k : Nat)
  | decrypt (C : Crypto) (m : Memory) (junk : Bytes 16) (data ext : Sexp)
  | decryptPassphrase (C : Crypto) (m : Memory) (junk : Bytes 16) (data pass : Sexp)

def HeapCall.code : HeapCall → Heaped Unit
  | .parse items isfile => do
    let _ ← Heaped.ageCIdentityParse items isfile
    return ()
  | .release k => do
    let _ ← Heaped.ageCIdentityFree k
    return ()
  | .decrypt C m junk data ext => do
    let _ ← Heaped.pkg (ageCDecrypt C m junk data ext)
    return ()
  | .decryptPassphrase C m junk data pass => do
    let _ ← Heaped.pkg (ageCDecryptPassphrase C m junk data pass)
    return ()

/-- The calls one after another; an error of R ends a call. -/
def heapSession : List HeapCall → Heaped Unit
  | [] => return ()
  | call :: calls => do
    let _ ← ProgE.attempt call.code
    heapSession calls

end Agecrypt
