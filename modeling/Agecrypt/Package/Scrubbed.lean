import Agecrypt.Lib.Always
import Agecrypt.Package.Blocks
import Agecrypt.Package.StreamTable

/-!
# Secrets are scrubbed

Whatever `binding.c` and `memio.c` free, they wipe first, in every run and
on every path.  What they do not reach is the old block of a `realloc` that
moves: it is freed as it is.  So every freed block is clear at every moment
of a run exactly when no `realloc` has moved a block with secrets in it.
-/

namespace Agecrypt

open ProgE (Runs Always Meets runs_op_bind exists_runs_at)

/-! ## The blocks of the sinks -/

/-- The blocks of the slots: a sink has one of its capacity, and only a sink
has one. -/
structure SinkBlocks (t : Memtab) (h : Heap Owner) : Prop where
  owner : ∀ i b, h.block (.sink i) = some b → (t i).used = true ∧ (t i).write = true
  size : ∀ i, (t i).used = true → h.size (.sink i) = (t i).cap

/-- The state `s` after operations of the package on `s₀`: the slots have
their blocks, and the other blocks are as they were. -/
structure Beside (s₀ s : HeapSys) : Prop where
  tidy : s.heap.Tidy
  sinks : SinkBlocks s.sys.memtab s.heap
  others : ∀ v, (∀ i, v ≠ .sink i) → s.heap.block v = s₀.heap.block v
  ids : s.ids = s₀.ids
  lenout : s.lenout = s₀.lenout

/-- The slots in use are as they were, as far as the blocks go, and a slot
that was not has no capacity. -/
structure SameSlots (t t' : Memtab) : Prop where
  kept : ∀ i, (t i).used = true →
    (t' i).used = true ∧ (t' i).write = (t i).write ∧ (t' i).cap = (t i).cap
  taken : ∀ i, (t i).used = false → (t' i).used = true → (t' i).cap = 0

theorem sameSlots_of_eq {t t' : Memtab} (h : t' = t) : SameSlots t t' := by
  subst h
  refine ⟨fun i hi => ⟨hi, rfl, rfl⟩, fun i hfree hused => ?_⟩
  rw [hfree] at hused
  cases hused

/-- A slot that was in use keeps what matters here. -/
theorem sameSlots_update {t : Memtab} {i : Fin MEMFD_MAX} {f : MemFile}
    (hkept : (t i).used = true → f.used = true ∧ f.write = (t i).write ∧ f.cap = (t i).cap)
    (htaken : (t i).used = false → f.used = true → f.cap = 0) :
    SameSlots t (Function.update t i f) := by
  have hsame := sameSlots_of_eq (rfl : t = t)
  refine ⟨fun j hj => ?_, fun j hfree hused => ?_⟩
  · by_cases hji : j = i
    · subst hji
      rw [Function.update_self]
      exact hkept hj
    · rw [Function.update_of_ne hji]
      exact hsame.kept j hj
  · by_cases hji : j = i
    · subst hji
      rw [Function.update_self] at hused ⊢
      exact htaken hfree hused
    · rw [Function.update_of_ne hji] at hused ⊢
      exact hsame.taken j hfree hused

theorem sameSlots_memread {i : Fin MEMFD_MAX} (n : Nat) {t : Memtab} (hused : (t i).used = true) :
    SameSlots t (memread i n t).2 := by
  rw [memread]
  dsimp only
  split
  · exact sameSlots_of_eq rfl
  · refine sameSlots_update (fun hi => ⟨hi, rfl, rfl⟩) fun hfree _ => ?_
    rw [hfree] at hused
    cases hused

/-- The slots have their blocks also when others have been taken. -/
theorem SinkBlocks.slots {t t' : Memtab} {h : Heap Owner} (hs : SinkBlocks t h)
    (ht : SameSlots t t') : SinkBlocks t' h := by
  refine ⟨fun i b hb => ?_, fun i hused' => ?_⟩
  · obtain ⟨hused, hwrite⟩ := hs.owner i b hb
    obtain ⟨hused', hwrite', -⟩ := ht.kept i hused
    exact ⟨hused', hwrite'.trans hwrite⟩
  · cases hused : (t i).used with
    | true => exact (hs.size i hused).trans (ht.kept i hused).2.2.symm
    | false =>
      rw [ht.taken i hused hused', Heap.size]
      cases hb : h.block (.sink i) with
      | none => rfl
      | some b =>
        rw [(hs.owner i b hb).1] at hused
        cases hused

/-- The blocks of the slots alone matter. -/
theorem SinkBlocks.same {t : Memtab} {h h' : Heap Owner} (hs : SinkBlocks t h)
    (hblock : ∀ i, h'.block (.sink i) = h.block (.sink i)) : SinkBlocks t h' := by
  refine ⟨fun i b hb => hs.owner i b ((hblock i).symm.trans hb), fun i hused => ?_⟩
  rw [Heap.size, hblock]
  exact hs.size i hused

theorem memtab_malloc (n : Nat) (s : Sys) : (s.malloc n).2.memtab = s.memtab := by
  rw [Sys.malloc]
  split <;> rfl

namespace Beside

variable {s₀ s : HeapSys}

theorem sys (h : Beside s₀ s) {sys : Sys} (ht : SameSlots s.sys.memtab sys.memtab) :
    Beside s₀ { s with sys } := ⟨h.tidy, h.sinks.slots ht, h.others, h.ids, h.lenout⟩

/-- Another block for one sink. -/
theorem sink (h : Beside s₀ s) {i : Fin MEMFD_MAX} {heap : Heap Owner} {sys : Sys}
    {b : Option Block} {f : MemFile} (htidy : heap.Tidy)
    (hheap : heap.block = Function.update s.heap.block (.sink i) b)
    (hsys : sys.memtab = Function.update s.sys.memtab i f)
    (hb : ∀ x, b = some x → f.used = true ∧ f.write = true)
    (hsize : f.used = true → b.elim 0 List.length = f.cap) : Beside s₀ { s with heap, sys } := by
  refine ⟨htidy, ⟨fun j x hx => ?_, fun j hused => ?_⟩, fun v hv => ?_, h.ids, h.lenout⟩
  · change heap.block (.sink j) = some x at hx
    show (sys.memtab j).used = true ∧ (sys.memtab j).write = true
    rw [hheap] at hx
    rw [hsys]
    by_cases hji : j = i
    · subst hji
      rw [Function.update_self] at hx ⊢
      exact hb x hx
    · have hne : Owner.sink j ≠ .sink i := fun heq => hji (Owner.sink.inj heq)
      rw [Function.update_of_ne hne] at hx
      rw [Function.update_of_ne hji]
      exact h.sinks.owner j x hx
  · change (sys.memtab j).used = true at hused
    show (heap.block (.sink j)).elim 0 List.length = (sys.memtab j).cap
    rw [hsys] at hused ⊢
    rw [hheap]
    by_cases hji : j = i
    · subst hji
      rw [Function.update_self] at hused ⊢
      rw [Function.update_self]
      exact hsize hused
    · have hne : Owner.sink j ≠ .sink i := fun heq => hji (Owner.sink.inj heq)
      rw [Function.update_of_ne hji] at hused ⊢
      rw [Function.update_of_ne hne]
      exact h.sinks.size j hused
  · show heap.block v = _
    rw [hheap, Function.update_of_ne (hv i)]
    exact h.others v hv

theorem ageread (h : Beside s₀ s) (fd : Int) (n : Nat) : Beside s₀ (Descr.ageread fd n s).2 := by
  show Beside s₀ { s with sys := (s.sys.ageread fd n).2 }
  refine h.sys ?_
  rw [Sys.ageread]
  split
  · exact sameSlots_of_eq (memtab_read fd n)
  cases hi : vfdToIndex s.sys.memtab fd with
  | none => exact sameSlots_of_eq rfl
  | some i => exact sameSlots_memread n (vfdToIndex_eq_some.mp hi).2

/-- A write to a sink stays inside its block. -/
theorem memwrite (h : Beside s₀ s) {i : Fin MEMFD_MAX} (hused : (s.sys.memtab i).used = true)
    (hwrite : (s.sys.memtab i).write = true) {bs : List UInt8} {r : Option Nat} {sys : Sys}
    (hw : Sys.MemWritten i bs s.sys r sys) :
    Beside s₀ { s with sys, heap := memwriteHeap i bs s.sys s.heap } := by
  cases hw with
  | overflow hneed =>
    rw [memwriteHeap, hneed]
    exact h.sys (sameSlots_of_eq rfl)
  | @full ncap hneed hmem =>
    rw [memwriteHeap, hneed]
    dsimp only
    rw [hmem, if_neg Bool.false_ne_true]
    exact h.sys (sameSlots_of_eq (memtab_malloc ncap s.sys))
  | fits hneed hcopy =>
    obtain ⟨hroom, rfl⟩ := memappend_eq_some.mp hcopy
    have hsize : s.heap.size (.sink i) = (s.sys.memtab i).cap := h.sinks.size i hused
    rw [memwriteHeap, hneed]
    refine h.sink (h.tidy.store (by rw [hsize]; exact hroom)) (Heap.store_block _ _) rfl
      (fun x hx => ⟨hused, hwrite⟩) fun _ => ?_
    rw [← hsize, Heap.size]
    cases s.heap.block (.sink i) with
    | none => rfl
    | some b => exact Block.length_store ..
  | @grown ncap _ hneed hmem hcopy =>
    rw [memtab_malloc] at hcopy
    obtain ⟨hroom, rfl⟩ := memappend_eq_some.mp hcopy
    have hblock : (s.heap.realloc (.sink i) ncap).block = Function.update s.heap.block (.sink i)
        (some (((s.heap.block (.sink i)).getD []).resize ncap)) := Heap.realloc_block ncap
    have hsize : (s.heap.realloc (.sink i) ncap).size (.sink i) = ncap := by
      rw [Heap.size, hblock, Function.update_self]
      exact Block.length_resize ..
    have hstore := Heap.store_block (h := s.heap.realloc (.sink i) ncap) (v := .sink i)
      (s.sys.memtab i).data.length bs
    rw [hblock, Function.update_idem, Function.update_self] at hstore
    rw [memwriteHeap, hneed]
    dsimp only
    rw [hmem, if_pos rfl]
    refine h.sink ((h.tidy.realloc ncap).store (by rw [hsize]; exact hroom)) hstore rfl
      (fun x hx => ⟨hused, hwrite⟩) fun _ => ?_
    exact (Block.length_store ..).trans (Block.length_resize ..)

theorem agewrite (h : Beside s₀ s) {fd : Int} {bs : List UInt8} {r : Option Nat} {s' : HeapSys}
    (hw : Descr.agewrite fd bs s = some (r, s')) : Beside s₀ s' := by
  obtain ⟨⟨r', sys⟩, hsys, he⟩ := Option.map_eq_some_iff.mp hw
  obtain ⟨rfl, rfl⟩ := Prod.mk.inj he
  cases Sys.agewrite_spec hsys with
  | file hfd =>
    rw [agewriteHeap, if_pos hfd]
    exact h.sys (sameSlots_of_eq (memtab_write fd bs))
  | closed hfd hclosed =>
    rw [agewriteHeap, if_neg (Int.not_le.mpr hfd), hclosed]
    exact h.sys (sameSlots_of_eq rfl)
  | source hfd hopen hsource =>
    rw [agewriteHeap, if_neg (Int.not_le.mpr hfd), hopen]
    dsimp only
    rw [hsource, if_neg Bool.false_ne_true]
    exact h.sys (sameSlots_of_eq rfl)
  | sink hfd hopen hsink hwritten =>
    rw [agewriteHeap, if_neg (Int.not_le.mpr hfd), hopen]
    dsimp only
    rw [hsink, if_pos rfl]
    exact h.memwrite (vfdToIndex_eq_some.mp hopen).2 hsink hwritten

theorem stable (fi fo : Int) : Stable fi fo (Beside s₀) where
  ageread := fun {d n r d'} h _ he => by
    have hd : (Descr.ageread fi n d).2 = d' := congrArg Prod.snd he
    exact hd ▸ h.ageread fi n
  agewrite := fun h _ he => h.agewrite he
  alloc := fun {d n r d'} h he => by
    have hd : (Descr.alloc n d).2 = d' := congrArg Prod.snd he
    exact hd ▸ h.sys (sameSlots_of_eq (memtab_malloc n d.sys))
  randombuf := fun {d n r d'} h he => by
    have hd : (Descr.randombuf n d).2 = d' := congrArg Prod.snd he
    exact hd ▸ h.sys (sameSlots_of_eq rfl)

/-- The descriptor of a sink is closed: its block is wiped and freed. -/
theorem memclose (h : Beside s₀ s) (vfd : Int) :
    Beside s₀ { s with
      sys := { s.sys with memtab := Agecrypt.memclose vfd s.sys.memtab }
      heap := memcloseHeap vfd s.sys.memtab s.heap } := by
  rw [Agecrypt.memclose, memcloseHeap]
  cases hi : vfdToIndex s.sys.memtab vfd with
  | none => exact h.sys (sameSlots_of_eq rfl)
  | some i =>
    dsimp only
    split
    · rename_i hsink
      obtain ⟨b, hb⟩ := Option.isSome_iff_exists.mp hsink.2
      have hsize : b.length = (s.sys.memtab i).cap := by
        rw [← h.sinks.size i (h.sinks.owner i b hb).1, Heap.size, hb]
        rfl
      rw [← hsize]
      refine h.sink (h.tidy.wipe_free hb) (Heap.wipe_free_block _) rfl (fun x hx => ?_) fun hu => ?_
      · cases hx
      · cases hu
    · rename_i hsink
      have hnone : s.heap.block (.sink i) = none := by
        rw [← Option.not_isSome_iff_eq_none]
        intro hsome
        obtain ⟨b, hb⟩ := Option.isSome_iff_exists.mp hsome
        exact hsink ⟨(h.sinks.owner i b hb).2, hsome⟩
      refine h.sink (b := none) h.tidy ?_ rfl (fun x hx => ?_) fun hu => ?_
      · rw [← hnone, Function.update_eq_self]
      · cases hx
      · cases hu

/-- An operation of the package that is not about blocks. -/
theorem pkg {o : PkgOp} {io io' : Io HeapSys} {r : PkgRet o} (h : Beside s₀ io.dev)
    (hb : blockHandler o io = (pkgHandler o io.sys).map fun y => (y.1, y.2.withBlocks io.dev))
    (hx : ∀ y, pkgHandler o io.sys = some y → SameSlots io.dev.sys.memtab y.2.dev.memtab)
    (he : blockHandler o io = some (r, io')) : Beside s₀ io'.dev := by
  rw [hb] at he
  obtain ⟨y, hy, he⟩ := Option.map_eq_some_iff.mp he
  obtain ⟨-, rfl⟩ := Prod.mk.inj he
  exact h.sys (hx y hy)

/-- An operation on the system alone. -/
theorem onSys {α : Type} {io io' : Io HeapSys} {r : α} (h : Beside s₀ io.dev) (f : Sys → α × Sys)
    (hf : SameSlots io.dev.sys.memtab (f io.dev.sys).2.memtab)
    (he : (Agecrypt.onSys f io.sys).map (fun y => (y.1, y.2.withBlocks io.dev)) = some (r, io')) :
    Beside s₀ io'.dev := by
  obtain ⟨-, rfl⟩ := Prod.mk.inj (Option.some.inj he)
  exact h.sys hf

theorem self (h : Beside s₀ s) : Beside s s := ⟨h.tidy, h.sinks, fun _ _ => rfl, rfl, rfl⟩

/-- A call that leaves the stream table alone. -/
theorem call {α : Type} {io io' : Io HeapSys} {r : α} (h : Beside s₀ io.dev) (f : Sys → α × Sys)
    (hf : (f io.dev.sys).2.memtab = io.dev.sys.memtab)
    (he : (Agecrypt.onSys f io.sys).map (fun y => (y.1, y.2.withBlocks io.dev)) = some (r, io')) :
    Beside s₀ io'.dev :=
  h.onSys f (sameSlots_of_eq hf) he

end Beside

/-- An operation that leaves the system alone. -/
theorem quiet_slots {α : Type} {a : α} {io io' : Io Sys} (hdev : io'.dev = io.dev) :
    ∀ y, some (a, io') = some y → SameSlots io.dev.memtab y.2.dev.memtab := by
  intro y hy
  rw [← Option.some.inj hy]
  exact sameSlots_of_eq (congrArg Sys.memtab hdev)

theorem memtab_close (fd : Int) (s : Sys) : (s.close fd).2.memtab = s.memtab := by
  rw [Sys.close]
  exact memtab_syscall (c := .close) fun _ _ => rfl

/-- A stream that is opened takes a slot that was free. -/
theorem memopen_slots (t : Memtab) (data : List UInt8) :
    SameSlots t (memopenRead data t).2 ∧ SameSlots t (memopenWrite t).2 := by
  rw [memopenRead, memopenWrite]
  rcases memalloc_cases t with ⟨hnone, -⟩ | ⟨i, hfree, hsome⟩
  · rw [hnone]
    exact ⟨sameSlots_of_eq rfl, sameSlots_of_eq rfl⟩
  · rw [hsome]
    dsimp only
    rw [Function.update_idem, Function.update_idem]
    rw [Function.update_self]
    have hnot : (t i).used ≠ true := ne_of_eq_of_ne hfree Bool.false_ne_true
    exact ⟨sameSlots_update (fun hi => absurd hi hnot) fun _ _ => rfl,
      sameSlots_update (fun hi => absurd hi hnot) fun _ _ => rfl⟩

/-- Every operation of the package leaves the other blocks alone. -/
theorem blockHandler_beside {s₀ : HeapSys} {o : PkgOp} {io io' : Io HeapSys} {r : PkgRet o}
    (h : Beside s₀ io.dev) (he : blockHandler o io = some (r, io')) : Beside s₀ io'.dev := by
  cases o with
  | age o => exact (ageHandler_stable (Beside.stable io.ib.fd io.ob.fd) o
    ⟨h, rfl, rfl⟩ r io' he).dev
  | writeall fd bs =>
    obtain ⟨⟨ok, s⟩, hw, he⟩ := Option.map_eq_some_iff.mp he
    obtain ⟨-, rfl⟩ := Prod.mk.inj he
    exact writeall_stable (Beside.stable fd fd) h _ _ hw
  | memclose vfd =>
    obtain ⟨-, rfl⟩ := Prod.mk.inj (Option.some.inj he)
    exact h.memclose vfd
  | memopenRead data => exact h.onSys (onTable (memopenRead data)) (memopen_slots _ data).1 he
  | memopenWrite => exact h.onSys (onTable memopenWrite) (memopen_slots _ []).2 he
  | eclear => exact h.pkg rfl (quiet_slots rfl) he
  | ibinit => exact h.pkg rfl (quiet_slots rfl) he
  | obinit => exact h.pkg rfl (quiet_slots rfl) he
  | memdata => exact h.pkg rfl (quiet_slots rfl) he
  | errno => exact h.pkg rfl (quiet_slots rfl) he
  | strerror => exact h.pkg rfl (quiet_slots rfl) he
  | outside => cases he
  | malloc n => exact h.call (Sys.malloc n) (memtab_malloc n _) he
  | randombuf n => exact h.call (Sys.randombuf n) rfl he
  | seterrno e => exact h.call (fun s => ((), { s with errno := e })) rfl he
  | ralloc =>
    exact h.call (fun s => (s.rallocs 0, { s with rallocs := fun i => s.rallocs (i + 1) })) rfl he
  | unwindcont =>
    exact h.call (fun s => (s.conts 0, { s with conts := fun i => s.conts (i + 1) })) rfl he
  | openRead path =>
    refine h.call (Sys.openRead path) (memtab_syscall fun _ _ => ?_) he
    split <;> rfl
  | openExcl path =>
    refine h.call (Sys.openExcl path) (memtab_syscall fun _ _ => ?_) he
    split <;> rfl
  | read fd n => exact h.call (Sys.read fd n) (memtab_read fd n) he
  | close fd => exact h.call (succeeds (Sys.close fd)) (memtab_close fd _) he
  | fsync fd =>
    exact h.call (succeeds (Sys.fsync fd)) (memtab_syscall (c := .fsync) fun _ _ => rfl) he
  | link old new =>
    refine h.call (succeeds (Sys.link old new)) (memtab_syscall (c := .link) fun _ _ => ?_) he
    split
    · rfl
    split <;> rfl
  | rename old new =>
    refine h.call (succeeds (Sys.rename old new)) (memtab_syscall (c := .rename) fun _ _ => ?_) he
    split
    · rfl
    split <;> rfl
  | unlink path =>
    refine h.call (succeeds (Sys.unlink path)) (memtab_syscall (c := .unlink) fun _ _ => ?_) he
    split <;> rfl
  | access path =>
    exact h.call (succeeds (Sys.access path)) (memtab_syscall (c := .access) fun _ _ => rfl) he

/-! ## The key array -/

/-- The block of the array: the keys, and the slots that were never
written. -/
def Keybuf.cells (kb : Keybuf) : Block :=
  (kb.keys.flatMap Bytes.val).map some ++ Block.fresh ((kb.cap - kb.keys.length) * 32)

theorem length_keyBytes (keys : List (Bytes 32)) :
    ((keys.flatMap Bytes.val).map some).length = keys.length * 32 := by
  rw [List.length_map]
  induction keys with
  | nil => rfl
  | cons key keys ih =>
    rw [List.flatMap_cons, List.length_append, key.size_eq, ih, List.length_cons]
    omega

theorem Keybuf.length_cells {kb : Keybuf} (h : kb.keys.length ≤ kb.cap) :
    kb.cells.length = kb.cap * 32 := by
  rw [cells, List.length_append, length_keyBytes, Block.length_fresh]
  omega

/-- The array in its block, which is `NULL` while there are no slots. -/
structure HoldsKeys (kb : Keybuf) (h : Heap Owner) : Prop where
  fits : kb.keys.length ≤ kb.cap
  block : h.block .keybuf = if kb.cap = 0 then none else some kb.cells

/-- A state of the parser with the keys `kb` so far.  The block of the key
file has `file` bytes, and `lenout` is the value of that variable. -/
structure Holding (kb : Keybuf) (file : Option Nat) (lenout : Nat) (s : HeapSys) : Prop where
  beside : Beside s s
  ids : ∀ k n, s.ids[k]? = some (some n) →
    ∃ a m, s.heap.block (.identity k) = some (a ++ Block.fresh m) ∧ a.length = n * 32
  keys : HoldsKeys kb s.heap
  file : (s.heap.block .keyfile).map List.length = file
  lenout : s.lenout = lenout

namespace Holding

variable {kb kb' : Keybuf} {file : Option Nat} {l : Nat} {s : HeapSys}

/-- An operation of the package. -/
theorem pkg {o : PkgOp} {io io' : Io HeapSys} {r : PkgRet o} (h : Holding kb file l io.dev)
    (he : blockHandler o io = some (r, io')) : Holding kb file l io'.dev := by
  have hb := blockHandler_beside h.beside he
  have hother : ∀ v, (∀ i, v ≠ .sink i) → io'.dev.heap.block v = io.dev.heap.block v := hb.others
  refine ⟨⟨hb.tidy, hb.sinks, fun _ _ => rfl, rfl, rfl⟩, fun k n hk => ?_,
    ⟨h.keys.fits, ?_⟩, ?_, ?_⟩
  · rw [hb.ids] at hk
    rw [hother _ fun i => Owner.noConfusion]
    exact h.ids k n hk
  · rw [hother _ fun i => Owner.noConfusion]
    exact h.keys.block
  · rw [hother _ fun i => Owner.noConfusion]
    exact h.file
  · rw [hb.lenout]
    exact h.lenout

/-- Another block for one of the variables of the parser. -/
private theorem beside_update (h : Holding kb file l s) {heap : Heap Owner} {sys : Sys} {v : Owner}
    {b : Option Block} (ht : heap.Tidy) (hv : ∀ i, v ≠ .sink i)
    (hblock : heap.block = Function.update s.heap.block v b) (hsys : sys.memtab = s.sys.memtab) :
    Beside { s with heap, sys } { s with heap, sys } := by
  have hsame : SinkBlocks s.sys.memtab heap := by
    refine h.beside.sinks.same fun i => ?_
    rw [hblock, Function.update_of_ne (hv i).symm]
  exact ⟨ht, hsys ▸ hsame, fun _ _ => rfl, rfl, rfl⟩

theorem onKeybuf (h : Holding kb file l s) {heap : Heap Owner} {sys : Sys} (ht : heap.Tidy)
    (hfits : kb'.keys.length ≤ kb'.cap)
    (hblock : heap.block =
      Function.update s.heap.block .keybuf (if kb'.cap = 0 then none else some kb'.cells))
    (hsys : sys.memtab = s.sys.memtab) : Holding kb' file l { s with heap, sys } := by
  refine ⟨h.beside_update ht (fun i => Owner.noConfusion) hblock hsys, fun k n hk => ?_,
    ⟨hfits, ?_⟩, ?_, h.lenout⟩
  · show ∃ a m, heap.block (.identity k) = _ ∧ _
    rw [hblock, Function.update_of_ne Owner.noConfusion]
    exact h.ids k n hk
  · show heap.block .keybuf = _
    rw [hblock, Function.update_self]
  · show (heap.block .keyfile).map List.length = _
    rw [hblock, Function.update_of_ne Owner.noConfusion]
    exact h.file

theorem onKeyfile (h : Holding kb file l s) {heap : Heap Owner} {sys : Sys} {b : Option Block}
    (ht : heap.Tidy) (hblock : heap.block = Function.update s.heap.block .keyfile b)
    (hsys : sys.memtab = s.sys.memtab) :
    Holding kb (b.map List.length) l { s with heap, sys } := by
  refine ⟨h.beside_update ht (fun i => Owner.noConfusion) hblock hsys, fun k n hk => ?_,
    ⟨h.keys.fits, ?_⟩, ?_, h.lenout⟩
  · show ∃ a m, heap.block (.identity k) = _ ∧ _
    rw [hblock, Function.update_of_ne Owner.noConfusion]
    exact h.ids k n hk
  · show heap.block .keybuf = _
    rw [hblock, Function.update_of_ne Owner.noConfusion]
    exact h.keys.block
  · show (heap.block .keyfile).map List.length = _
    rw [hblock, Function.update_self]

theorem setLenout (h : Holding kb file l s) (n : Nat) :
    Holding kb file n { s with lenout := n } :=
  ⟨⟨h.beside.tidy, h.beside.sinks, fun _ _ => rfl, rfl, rfl⟩, h.ids, h.keys, h.file, rfl⟩

end Holding

/-! ## The programs of the parser -/

/-- At every moment no access has been outside a block and only clear blocks
were freed, and the program ends with a value for which `P` holds. -/
abbrev Does {α : Type} (p : Heaped α) (io : Io HeapSys) (P : α → HeapSys → Prop) : Prop :=
  Meets heapHandler (fun io => io.dev.heap.Tidy) p io fun r io' => ∃ a, r = .ok a ∧ P a io'.dev

namespace Does

variable {α β : Type} {P : α → HeapSys → Prop} {io : Io HeapSys}

theorem bind {p : Heaped β} {f : β → Heaped α} {Mid : β → HeapSys → Prop}
    {Post : Except String α → Io HeapSys → Prop} (hp : Does p io Mid)
    (hf : ∀ b (io' : Io HeapSys), Mid b io'.dev →
      Meets heapHandler (fun io => io.dev.heap.Tidy) (f b) io' Post) :
    Meets heapHandler (fun io => io.dev.heap.Tidy) (p >>= f) io Post := by
  refine Meets.bind hp (fun e io' h => ?_) fun b io' h => ?_
  · obtain ⟨b, hb, -⟩ := h
    cases hb
  · obtain ⟨b', hb, hmid⟩ := h
    obtain rfl := Except.ok.inj hb
    exact hf b io' hmid

theorem mono {p : Heaped α} {P' : α → HeapSys → Prop} (hp : Does p io P)
    (hP : ∀ a s, P a s → P' a s) : Does p io P' := by
  refine Meets.mono hp fun r io' h => ?_
  obtain ⟨a, ha, h⟩ := h
  exact ⟨a, ha, hP a _ h⟩

end Does

section Programs

variable {kb : Keybuf} {file : Option Nat} {l : Nat} {io : Io HeapSys}

/-- An operation of the package in the parser. -/
theorem pkgOp_does {α : Type} {o : PkgOp} {f : PkgRet o → Heaped α}
    {Post : Except String α → Io HeapSys → Prop} (h : Holding kb file l io.dev)
    (hf : ∀ r io', blockHandler o io = some (r, io') → Holding kb file l io'.dev →
      Meets heapHandler (fun io => io.dev.heap.Tidy) (f r) io' Post) :
    Meets heapHandler (fun io => io.dev.heap.Tidy) (Heaped.call o >>= f) io Post :=
  Meets.op_bind h.beside.tidy fun r io' he => hf r io' he (h.pkg he)

/-- A program of the package in the parser. -/
theorem pkg_does {α : Type} (p : Pkg α) (h : Holding kb file l io.dev) :
    Meets heapHandler (fun io => io.dev.heap.Tidy) (Heaped.pkg p) io fun _ io' =>
      Holding kb file l io'.dev := by
  refine (Meets.embed (Meets.of_ops (Q := fun io : Io HeapSys => Holding kb file l io.dev) ?_
    h)).weaken fun io (h : Holding kb file l io.dev) => h.beside.tidy
  intro o io r io' h he
  obtain ⟨⟨r', io₁⟩, ho, hr⟩ := Option.map_eq_some_iff.mp he
  obtain ⟨-, rfl⟩ := Prod.mk.inj hr
  exact h.pkg (o := o) ho

theorem syserr_does (h : Holding kb file l io.dev) :
    Does (Heaped.pkg Pkg.syserr) io fun _ s => Holding kb file l s := by
  refine ⟨(pkg_does Pkg.syserr h).always, fun r io' hr => ?_⟩
  have hpost := (pkg_does Pkg.syserr h).post r io' hr
  rcases r with e | a
  · obtain ⟨e', io₁, -, hbad⟩ := runs_op_bind.mp (ProgE.runs_embed.mp hr)
    obtain ⟨a, -, ha⟩ := ProgE.runs_op.mp hbad
    cases ha
  · exact ⟨a, rfl, hpost⟩

theorem keybufFree_does (h : Holding kb file l io.dev) :
    Does (Heaped.keybufFree kb) io fun _ s => Holding ⟨[], 0⟩ file l s := by
  rw [Heaped.keybufFree]
  have hblock := h.keys.block
  split
  · rename_i hcap
    rw [if_neg hcap] at hblock
    have hlen := Keybuf.length_cells h.keys.fits
    have hsize : kb.cap * 32 ≤ io.dev.heap.size .keybuf := by
      rw [Heap.size, hblock, ← hlen]
      exact Nat.le_refl _
    refine Meets.op_bind h.beside.tidy fun r io₁ he => ?_
    obtain ⟨-, rfl⟩ := Prod.mk.inj (Option.some.inj he)
    refine ⟨⟨h.beside.tidy.wipe hsize, fun r io₂ he => ?_⟩, fun r io₂ hr => ?_⟩
    · obtain ⟨-, rfl⟩ := Prod.mk.inj (Option.some.inj he)
      rw [← hlen]
      exact h.beside.tidy.wipe_free hblock
    · obtain ⟨a, he, rfl⟩ := ProgE.runs_op.mp hr
      obtain ⟨-, rfl⟩ := Prod.mk.inj (Option.some.inj he)
      have htidy := h.beside.tidy.wipe_free hblock
      rw [hlen] at htidy
      exact ⟨a, rfl, h.onKeybuf htidy (Nat.le_refl 0) (Heap.wipe_free_block _) rfl⟩
  · rename_i hcap
    have hzero : kb.cap = 0 := not_not.mp hcap
    have hnil : kb.keys = [] := by
      have hfits := h.keys.fits
      rw [hzero] at hfits
      exact List.eq_nil_of_length_eq_zero (Nat.le_zero.mp hfits)
    have hkb : kb = ⟨[], 0⟩ := by
      rw [← hzero, ← hnil]
    rw [← hkb]
    exact Meets.pure h.beside.tidy ⟨_, rfl, h⟩

/-- What holds of both ways in which an allocation ends. -/
private theorem allocating_ends {n : Nat} {f : Heap Owner → Heap Owner} {s : HeapSys}
    {P : Bool → HeapSys → Prop}
    (hno : ∀ sys : Sys, sys.memtab = s.sys.memtab → P false { s with sys })
    (hyes : ∀ sys : Sys, sys.memtab = s.sys.memtab → P true { s with sys, heap := f s.heap }) :
    P (allocating n f s).1 (allocating n f s).2 := by
  have hmem := memtab_malloc n s.sys
  rw [allocating]
  cases (s.sys.malloc n).1 with
  | false => exact hno _ hmem
  | true => exact hyes _ hmem

theorem realloc_meets {α : Type} {v : Owner} {n : Nat} {f : Bool → Heaped α}
    {Q : Io HeapSys → Prop} {Post : Except String α → Io HeapSys → Prop} (hq : Q io)
    (hno : ∀ sys : Sys, sys.memtab = io.dev.sys.memtab →
      Meets heapHandler Q (f false) { io with dev := { io.dev with sys } } Post)
    (hyes : ∀ sys : Sys, sys.memtab = io.dev.sys.memtab →
      Meets heapHandler Q (f true)
        { io with dev := { io.dev with sys, heap := io.dev.heap.realloc v n } } Post) :
    Meets heapHandler Q (Heaped.realloc v n >>= f) io Post := by
  refine Meets.op_bind hq fun r io₁ he => ?_
  obtain ⟨rfl, rfl⟩ := Prod.mk.inj (Option.some.inj he)
  exact allocating_ends (P := fun b s => Meets heapHandler Q (f b) { io with dev := s } Post)
    hno hyes

theorem malloc_meets {α : Type} {v : Owner} {n : Nat} {f : Bool → Heaped α}
    {Q : Io HeapSys → Prop} {Post : Except String α → Io HeapSys → Prop} (hq : Q io)
    (hno : ∀ sys : Sys, sys.memtab = io.dev.sys.memtab →
      Meets heapHandler Q (f false) { io with dev := { io.dev with sys } } Post)
    (hyes : ∀ sys : Sys, sys.memtab = io.dev.sys.memtab →
      Meets heapHandler Q (f true)
        { io with dev := { io.dev with sys, heap := io.dev.heap.malloc v n } } Post) :
    Meets heapHandler Q (Heaped.malloc v n >>= f) io Post := by
  refine Meets.op_bind hq fun r io₁ he => ?_
  obtain ⟨rfl, rfl⟩ := Prod.mk.inj (Option.some.inj he)
  exact allocating_ends (P := fun b s => Meets heapHandler Q (f b) { io with dev := s } Post)
    hno hyes

/-- A full array in a larger block. -/
theorem resize_cells {ncap : Nat} (hfull : kb.keys.length = kb.cap) (hle : kb.cap ≤ ncap) :
    ((if kb.cap = 0 then none else some kb.cells).getD []).resize (ncap * 32) =
      Keybuf.cells { kb with cap := ncap } := by
  split
  · rename_i hzero
    have hnil : kb.keys = [] := List.eq_nil_of_length_eq_zero (hfull.trans hzero)
    rw [Option.getD_none, Block.resize_nil, Keybuf.cells, hnil]
    rfl
  · have hlen := Keybuf.length_cells (Nat.le_of_eq hfull)
    rw [Option.getD_some, Block.resize, hlen, List.take_of_length_le (by omega), Keybuf.cells,
      Keybuf.cells, hfull, Nat.sub_self, Nat.zero_mul, ← Nat.sub_mul]
    exact congrArg (· ++ _) (List.append_nil _)

theorem keybufGrow_does (h : Holding kb file l io.dev) :
    Does (Heaped.keybufGrow kb) io fun a s =>
      match a with
      | none => Holding kb file l s
      | some kb' => Holding kb' file l s ∧ kb'.keys = kb.keys ∧ kb.keys.length < kb'.cap := by
  rw [Heaped.keybufGrow]
  have hfits := h.keys.fits
  split
  · rename_i hfull
    dsimp only
    have hcap : kb.cap < if kb.cap ≠ 0 then kb.cap * 2 else 4 := by
      split <;> omega
    generalize (if kb.cap ≠ 0 then kb.cap * 2 else 4) = ncap at hcap
    refine realloc_meets h.beside.tidy (fun sys hmem => ?_) fun sys hmem => ?_
    · rw [if_neg Bool.false_ne_true]
      exact Meets.pure h.beside.tidy
        ⟨none, rfl, (h.beside.sys (sameSlots_of_eq hmem)).self, h.ids, h.keys, h.file, h.lenout⟩
    · rw [if_pos rfl]
      have hblock := Heap.realloc_block (h := io.dev.heap) (v := .keybuf) (ncap * 32)
      rw [h.keys.block, resize_cells hfull (Nat.le_of_lt hcap)] at hblock
      have hzero : ¬ ncap = 0 := by omega
      have hnew : Holding ⟨kb.keys, ncap⟩ file l
          { io.dev with sys, heap := io.dev.heap.realloc .keybuf (ncap * 32) } := by
        refine h.onKeybuf (h.beside.tidy.realloc _) (hfits.trans (Nat.le_of_lt hcap)) ?_ hmem
        rw [hblock, if_neg hzero]
      exact Meets.pure hnew.beside.tidy ⟨_, rfl, hnew, rfl, Nat.lt_of_le_of_lt hfits hcap⟩
  · rename_i hroom
    exact Meets.pure h.beside.tidy ⟨_, rfl, h, rfl, Nat.lt_of_le_of_ne hfits hroom⟩

/-- A key in the first slot that is free. -/
theorem store_cells (key : Bytes 32) (hroom : kb.keys.length < kb.cap) :
    kb.cells.store (kb.keys.length * 32) key.val =
      Keybuf.cells { kb with keys := kb.keys ++ [key] } := by
  have hlen := length_keyBytes kb.keys
  have hsplit : (kb.cap - kb.keys.length) * 32 =
      32 + (kb.cap - (kb.keys ++ [key]).length) * 32 := by
    rw [List.length_append, List.length_singleton]
    omega
  have hslot : (Block.fresh 32).length = key.val.length := by
    rw [Block.length_fresh, key.size_eq]
  rw [Keybuf.cells, Keybuf.cells, hsplit, Block.fresh, List.replicate_add, ← List.append_assoc,
    ← hlen]
  have hstore := Block.store_append (a := (kb.keys.flatMap Bytes.val).map some)
    (y := Block.fresh ((kb.cap - (kb.keys ++ [key]).length) * 32)) hslot
  refine hstore.trans ?_
  rw [List.flatMap_append, List.map_append, List.flatMap_singleton]

theorem Holding.push (h : Holding kb file l io.dev) (key : Bytes 32)
    (hroom : kb.keys.length < kb.cap) :
    Holding { kb with keys := kb.keys ++ [key] } file l
      { io.dev with heap := io.dev.heap.store .keybuf (kb.keys.length * 32) key.val } := by
  have hzero : ¬ kb.cap = 0 := by omega
  have hblock := h.keys.block
  rw [if_neg hzero] at hblock
  refine h.onKeybuf (h.beside.tidy.store ?_) ?_ ?_ rfl
  · rw [Heap.size, hblock, key.size_eq]
    show kb.keys.length * 32 + 32 ≤ kb.cells.length
    rw [Keybuf.length_cells h.keys.fits]
    omega
  · rw [List.length_append, List.length_singleton]
    exact hroom
  · rw [Heap.store_block, hblock, Option.map_some, store_cells key hroom, if_neg hzero]

theorem keybufPush_does (s : List UInt8) (h : Holding kb file l io.dev) :
    Does (Heaped.keybufPush kb s) io fun a t => Holding a.2 file l t := by
  rw [Heaped.keybufPush]
  split
  · exact Meets.pure h.beside.tidy ⟨_, rfl, h⟩
  refine (keybufGrow_does h).bind fun a io₁ hgrow => ?_
  cases a with
  | none => exact Meets.pure hgrow.beside.tidy ⟨_, rfl, hgrow⟩
  | some kb₁ =>
    obtain ⟨h₁, hkeys, hroom⟩ := hgrow
    dsimp only
    cases x25519privkey s with
    | none => exact Meets.pure h₁.beside.tidy ⟨_, rfl, h₁⟩
    | some key =>
      dsimp only
      rw [← hkeys] at hroom
      rw [if_pos hroom]
      refine Meets.op_bind h₁.beside.tidy fun r io₂ he => ?_
      obtain ⟨-, rfl⟩ := Prod.mk.inj (Option.some.inj he)
      have hpush := h₁.push key hroom
      exact Meets.pure hpush.beside.tidy ⟨_, rfl, hpush⟩

/-! ## Key files -/

/-- A write into the block of the key file. -/
theorem Holding.storeFile {cap : Nat} (h : Holding kb (some cap) l io.dev) (off : Nat)
    (bs : List UInt8) (hin : off + bs.length ≤ cap) :
    Holding kb (some cap) l { io.dev with heap := io.dev.heap.store .keyfile off bs } := by
  obtain ⟨b, hb, hlen⟩ := Option.map_eq_some_iff.mp h.file
  have hsize : off + bs.length ≤ io.dev.heap.size .keyfile := by
    rw [Heap.size, hb]
    exact hin.trans (Nat.le_of_eq hlen.symm)
  have hstore := h.onKeyfile (h.beside.tidy.store hsize) (Heap.store_block off bs) rfl
  rw [hb, Option.map_some, Option.map_some, Block.length_store, hlen] at hstore
  exact hstore

/-- The block of the key file is wiped by `o`, and then freed. -/
private theorem wipedFile_does {α : Type} {cap : Nat} {o : HeapOp} {f : Unit → Heaped α}
    {Post : Except String α → Io HeapSys → Prop} (h : Holding kb (some cap) l io.dev)
    (ho : ∀ r io', heapHandler o io = some (r, io') →
      io' = { io with dev := { io.dev with heap := io.dev.heap.wipe .keyfile cap } })
    (hf : ∀ io', Holding kb none l io'.dev →
      Meets heapHandler (fun io => io.dev.heap.Tidy) (f ()) io' Post) :
    Meets heapHandler (fun io => io.dev.heap.Tidy)
      (ProgE.op o >>= fun _ => Heaped.free .keyfile >>= f) io Post := by
  obtain ⟨b, hb, hlen⟩ := Option.map_eq_some_iff.mp h.file
  have hsize : cap ≤ io.dev.heap.size .keyfile := by
    rw [Heap.size, hb, ← hlen]
    exact Nat.le_refl _
  refine Meets.op_bind h.beside.tidy fun r io₁ he => ?_
  obtain rfl := ho r io₁ he
  refine Meets.op_bind (h.beside.tidy.wipe hsize) fun r io₂ he => ?_
  obtain ⟨-, rfl⟩ := Prod.mk.inj (Option.some.inj he)
  refine hf _ ?_
  have htidy := h.beside.tidy.wipe_free hb
  rw [hlen] at htidy
  exact h.onKeyfile (b := none) htidy (Heap.wipe_free_block _) rfl

theorem wipeFree_does {α : Type} {cap : Nat} {f : Unit → Heaped α}
    {Post : Except String α → Io HeapSys → Prop} (h : Holding kb (some cap) l io.dev)
    (hf : ∀ io', Holding kb none l io'.dev →
      Meets heapHandler (fun io => io.dev.heap.Tidy) (f ()) io' Post) :
    Meets heapHandler (fun io => io.dev.heap.Tidy)
      (Heaped.wipe .keyfile cap >>= fun _ => Heaped.free .keyfile >>= f) io Post :=
  wipedFile_does h (fun _ _ he => (Prod.mk.inj (Option.some.inj he)).2.symm) hf

/-- `scan_keyfile` takes the size of the block from `slurp_keyfile`. -/
theorem wipeLenout_does {α : Type} {cap : Nat} {f : Unit → Heaped α}
    {Post : Except String α → Io HeapSys → Prop} (h : Holding kb (some cap) cap io.dev)
    (hf : ∀ io', Holding kb none cap io'.dev →
      Meets heapHandler (fun io => io.dev.heap.Tidy) (f ()) io' Post) :
    Meets heapHandler (fun io => io.dev.heap.Tidy)
      (Heaped.wipeLenout .keyfile >>= fun _ => Heaped.free .keyfile >>= f) io Post := by
  refine wipedFile_does h (fun r io' he => ?_) hf
  rw [← (Prod.mk.inj (Option.some.inj he)).2]
  show _ = { io with dev := { io.dev with heap := io.dev.heap.wipe .keyfile cap } }
  rw [← h.lenout]

theorem slurpGrow_does {st : Slurp} (h : Holding kb (some st.cap) l io.dev)
    (hlen : st.buf.length < st.cap) :
    Does (Heaped.slurpGrow st) io fun a s =>
      match a with
      | none => Holding kb (some st.cap) l s
      | some st' =>
        Holding kb (some st'.cap) l s ∧ st'.buf = st.buf ∧ st'.buf.length < st'.cap := by
  rw [Heaped.slurpGrow]
  split
  · refine realloc_meets h.beside.tidy (fun sys hmem => ?_) fun sys hmem => ?_
    · rw [if_neg Bool.false_ne_true]
      exact Meets.pure h.beside.tidy
        ⟨none, rfl, (h.beside.sys (sameSlots_of_eq hmem)).self, h.ids, h.keys, h.file, h.lenout⟩
    · rw [if_pos rfl]
      have hnew := h.onKeyfile (h.beside.tidy.realloc _) (Heap.realloc_block (st.cap * 2)) hmem
      rw [Option.map_some, Block.length_resize] at hnew
      refine Meets.pure hnew.beside.tidy ⟨_, rfl, hnew, rfl, ?_⟩
      show st.buf.length < st.cap * 2
      omega
  · exact Meets.pure h.beside.tidy ⟨_, rfl, h, rfl, hlen⟩

/-- `read` delivers at most what was asked for. -/
theorem sys_read_length {fd : Int} {n : Nat} {s : Sys} {bs : List UInt8}
    (h : (s.read fd n).1 = some bs) : bs.length ≤ n := by
  rw [Sys.read, Sys.syscall] at h
  cases hv : s.calls .read 0 with
  | fail e =>
    rw [hv] at h
    cases h
  | ok count =>
    rw [hv, Sys.act] at h
    dsimp only at h
    split at h
    · cases h
    · obtain rfl := Option.some.inj h
      rw [List.length_take]
      omega

/-- The key file in its block, once it has been read; `lenout` is the size of
the block. -/
def Slurped (kb : Keybuf) (buf : List UInt8) (s : HeapSys) : Prop :=
  ∃ cap, Holding kb (some cap) cap s ∧ buf.length < cap

theorem slurpRead_does (fd : Int) {st : Slurp} (h : Holding kb (some st.cap) l io.dev)
    (hlen : st.buf.length < st.cap) :
    Does (Heaped.slurpRead fd st) io fun a s =>
      match a with
      | .inl st' => Holding kb (some st'.cap) l s ∧ st'.buf.length < st'.cap
      | .inr (.error _) => Holding kb none l s
      | .inr (.ok buf) => Slurped kb buf s := by
  rw [Heaped.slurpRead]
  split
  · refine wipeFree_does h fun io₁ h₁ => ?_
    refine pkgOp_does h₁ fun r io₂ _ h₂ => ?_
    exact Meets.pure h₂.beside.tidy ⟨_, rfl, h₂⟩
  refine (slurpGrow_does h hlen).bind fun a io₁ hgrow => ?_
  cases a with
  | none =>
    refine wipeFree_does hgrow fun io₂ h₂ => ?_
    refine pkgOp_does h₂ fun r io₃ _ h₃ => ?_
    exact Meets.pure h₃.beside.tidy ⟨_, rfl, h₃⟩
  | some st₁ =>
    obtain ⟨h₁, -, hlen₁⟩ := hgrow
    refine pkgOp_does h₁ fun r io₂ he h₂ => ?_
    have hread : ∀ bs, r = some bs → bs.length ≤ st₁.cap - 1 - st₁.buf.length := by
      intro bs hbs
      have hans : (io₁.dev.sys.read fd (st₁.cap - 1 - st₁.buf.length)).1 = r :=
        (Prod.mk.inj (Option.some.inj he)).1
      exact sys_read_length (hans.trans hbs)
    rcases r with _ | _ | ⟨c, bs⟩
    · refine (syserr_does h₂).bind fun e io₃ h₃ => ?_
      refine wipeFree_does h₃ fun io₄ h₄ => ?_
      refine pkgOp_does h₄ fun r io₅ _ h₅ => ?_
      exact Meets.pure h₅.beside.tidy ⟨_, rfl, h₅⟩
    · refine pkgOp_does h₂ fun r io₃ _ h₃ => ?_
      have h₄ := h₃.storeFile st₁.buf.length [0] hlen₁
      refine Meets.op_bind h₃.beside.tidy fun r io₄ he => ?_
      obtain ⟨-, rfl⟩ := Prod.mk.inj (Option.some.inj he)
      refine Meets.op_bind h₄.beside.tidy fun r io₅ he => ?_
      obtain ⟨-, rfl⟩ := Prod.mk.inj (Option.some.inj he)
      exact Meets.pure h₄.beside.tidy ⟨_, rfl, st₁.cap, h₄.setLenout st₁.cap, hlen₁⟩
    · have hbs := hread _ rfl
      have hin : st₁.buf.length + (c :: bs).length < st₁.cap := by omega
      have h₃ := h₂.storeFile _ _ (Nat.le_of_lt hin)
      refine Meets.op_bind h₂.beside.tidy fun r io₃ he => ?_
      obtain ⟨-, rfl⟩ := Prod.mk.inj (Option.some.inj he)
      refine Meets.pure h₃.beside.tidy ⟨_, rfl, h₃, ?_⟩
      rw [List.length_append]
      exact hin

theorem slurpKeyfile_does (path : Path) (h : Holding kb none l io.dev) :
    Does (Heaped.slurpKeyfile path) io fun a s =>
      match a with
      | .error _ => Holding kb none l s
      | .ok buf => Slurped kb buf s := by
  rw [Heaped.slurpKeyfile]
  refine pkgOp_does h fun r io₁ _ h₁ => ?_
  cases r with
  | none =>
    refine (syserr_does h₁).bind fun e io₂ h₂ => ?_
    exact Meets.pure h₂.beside.tidy ⟨_, rfl, h₂⟩
  | some fd =>
    refine malloc_meets h₁.beside.tidy (fun sys hmem => ?_) fun sys hmem => ?_
    · have h₂ : Holding kb none l { io₁.dev with sys } :=
        ⟨(h₁.beside.sys (sameSlots_of_eq hmem)).self, h₁.ids, h₁.keys, h₁.file, h₁.lenout⟩
      refine pkgOp_does h₂ fun r io₃ _ h₃ => ?_
      exact Meets.pure h₃.beside.tidy ⟨_, rfl, h₃⟩
    · have h₂ := h₁.onKeyfile (h₁.beside.tidy.malloc 4096) (Heap.malloc_block 4096) hmem
      rw [Option.map_some, Block.length_fresh] at h₂
      refine Meets.loop
        (I := fun st io => Holding kb (some st.cap) l io.dev ∧ st.buf.length < st.cap)
        (fun st io hI => ?_) ⟨h₂, by decide⟩
      refine Meets.mono (slurpRead_does fd hI.1 hI.2) fun r io' hr => ?_
      obtain ⟨a, rfl, ha⟩ := hr
      rcases a with st' | e | buf
      · exact ha
      · exact ⟨_, rfl, ha⟩
      · exact ⟨_, rfl, ha⟩

/-! ## The lines of a key file -/

theorem length_trimline (line : List UInt8) :
    (line.takeWhile isBlank).length + (trimline line).length ≤ line.length := by
  have hsplit := congrArg List.length (List.takeWhile_append_dropWhile (p := isBlank) (l := line))
  rw [List.length_append] at hsplit
  have hle := (List.dropWhile_suffix isBlank (l := (line.dropWhile isBlank).reverse)).length_le
  rw [List.length_reverse] at hle
  rw [trimline, List.length_reverse]
  omega

/-- The lines with the byte behind each. -/
def spanned (ls : List (List UInt8)) : Nat := (ls.map fun line => line.length + 1).sum

theorem spanned_lines (s : List UInt8) : spanned (lines s) = s.length + 1 := by
  induction s with
  | nil => rfl
  | cons c cs ih =>
    rw [lines]
    split
    · rw [spanned, List.map_cons, List.sum_cons, ← spanned, ih, List.length_cons, List.length_nil]
      omega
    · cases hl : lines cs with
      | nil =>
        rw [hl] at ih
        cases ih
      | cons line rest =>
        rw [hl, spanned, List.map_cons, List.sum_cons] at ih
        rw [spanned, List.map_cons, List.sum_cons, List.length_cons, List.length_cons]
        omega

theorem scanLine_does {cap pos : Nat} {line : List UInt8} (h : Holding kb (some cap) l io.dev)
    (hpos : pos + line.length < cap) :
    Does (Heaped.scanLine pos kb line) io fun a s => Holding a.2 (some cap) l s := by
  rw [Heaped.scanLine]
  have htrim : Does (Heaped.trimlineAt pos line) io fun _ s => Holding kb (some cap) l s := by
    rw [Heaped.trimlineAt]
    have hlen := length_trimline line
    have hin : pos + (line.takeWhile isBlank).length + (trimline line).length + 1 ≤ cap := by
      omega
    have hstore := h.storeFile _ [0] hin
    refine Meets.op_bind h.beside.tidy fun r io₁ he => ?_
    obtain ⟨-, rfl⟩ := Prod.mk.inj (Option.some.inj he)
    exact Meets.pure hstore.beside.tidy ⟨_, rfl, hstore⟩
  refine htrim.bind fun t io₁ h₁ => ?_
  split
  · exact Meets.pure h₁.beside.tidy ⟨_, rfl, h₁⟩
  split
  · exact Meets.pure h₁.beside.tidy ⟨_, rfl, h₁⟩
  refine (keybufPush_does t h₁).bind fun a io₂ h₂ => ?_
  rcases a with ⟨_ | _ | _, kb'⟩
  · exact Meets.pure h₂.beside.tidy ⟨_, rfl, h₂⟩
  · exact Meets.pure h₂.beside.tidy ⟨_, rfl, h₂⟩
  · exact Meets.pure h₂.beside.tidy ⟨_, rfl, h₂⟩

theorem scanLines_does {cap : Nat} (ls : List (List UInt8)) : ∀ {pos : Nat} {kb : Keybuf}
    {io : Io HeapSys}, Holding kb (some cap) l io.dev → pos + spanned ls ≤ cap →
    Does (Heaped.scanLines pos ls kb) io fun a s => Holding a.2 (some cap) l s := by
  induction ls with
  | nil =>
    intro pos kb io h _
    exact Meets.pure h.beside.tidy ⟨_, rfl, h⟩
  | cons line ls ih =>
    intro pos kb io h hpos
    rw [spanned, List.map_cons, List.sum_cons, ← spanned] at hpos
    rw [Heaped.scanLines]
    have hlt : pos + line.length < cap := by omega
    have hrest : pos + line.length + 1 + spanned ls ≤ cap := by omega
    split
    · have hstore := h.storeFile _ [0] hlt
      refine Meets.op_bind h.beside.tidy fun r io₁ he => ?_
      obtain ⟨-, rfl⟩ := Prod.mk.inj (Option.some.inj he)
      refine (scanLine_does hstore hlt).bind fun a io₂ h₂ => ?_
      rcases a with ⟨_ | msg, kb'⟩
      · exact ih h₂ hrest
      · exact Meets.pure h₂.beside.tidy ⟨_, rfl, h₂⟩
    · refine (scanLine_does h hlt).bind fun a io₂ h₂ => ?_
      rcases a with ⟨_ | msg, kb'⟩
      · exact ih h₂ hrest
      · exact Meets.pure h₂.beside.tidy ⟨_, rfl, h₂⟩

theorem scanKeyfile_does (path : Path) (h : Holding kb none l io.dev) :
    Does (Heaped.scanKeyfile path kb) io fun a s => ∃ l', Holding a.2 none l' s := by
  rw [Heaped.scanKeyfile]
  refine (slurpKeyfile_does path h).bind fun a io₁ h₁ => ?_
  rcases a with msg | buf
  · exact Meets.pure h₁.beside.tidy ⟨_, rfl, l, h₁⟩
  obtain ⟨cap, h₁, hlen⟩ := h₁
  have hspan : 0 + spanned (lines (cstring buf)) ≤ cap := by
    rw [spanned_lines, cstring]
    have hle := (List.takeWhile_prefix (l := buf) (· ≠ 0)).length_le
    omega
  refine (scanLines_does _ h₁ hspan).bind fun a io₂ h₂ => ?_
  rcases a with ⟨msg, kb'⟩
  refine wipeLenout_does h₂ fun io₃ h₃ => ?_
  cases msg with
  | some msg => exact Meets.pure h₃.beside.tidy ⟨_, rfl, cap, h₃⟩
  | none =>
    dsimp only
    split
    · exact Meets.pure h₃.beside.tidy ⟨_, rfl, cap, h₃⟩
    · exact Meets.pure h₃.beside.tidy ⟨_, rfl, cap, h₃⟩

/-! ## The entry points -/

/-- Between two calls the parser owns no block. -/
def Settled (s : HeapSys) : Prop := ∃ l, Holding ⟨[], 0⟩ none l s

theorem parseItems_does (items : List (Option (List UInt8) × Option Bool)) :
    ∀ {kb : Keybuf} {l : Nat} {io : Io HeapSys}, Holding kb none l io.dev →
    Does (Heaped.parseItems items kb) io fun a s =>
      match a with
      | .error _ => Settled s
      | .ok kb' => ∃ l', Holding kb' none l' s := by
  have hfree : ∀ {kb : Keybuf} {l : Nat} {io : Io HeapSys} (msg : String),
      Holding kb none l io.dev →
      Does (Heaped.keybufFree kb >>= fun _ => Pure.pure (Except.error msg)) io fun a s =>
        match a with
        | .error _ => Settled s
        | .ok kb' => ∃ l', Holding kb' none l' s := by
    intro kb l io msg h
    refine (keybufFree_does h).bind fun _ io₁ h₁ => ?_
    exact Meets.pure h₁.beside.tidy ⟨_, rfl, l, h₁⟩
  induction items with
  | nil =>
    intro kb l io h
    exact Meets.pure h.beside.tidy ⟨_, rfl, l, h⟩
  | cons item items ih =>
    intro kb l io h
    rcases item with ⟨_ | s, _ | _ | _⟩
    · exact hfree _ h
    · exact hfree _ h
    · exact hfree _ h
    · exact hfree _ h
    · rw [Heaped.parseItems]
      refine (keybufPush_does s h).bind fun a io₁ h₁ => ?_
      rcases a with ⟨_ | _ | _, kb'⟩
      · exact ih h₁
      · exact hfree _ h₁
      · exact hfree _ h₁
    · rw [Heaped.parseItems]
      refine (scanKeyfile_does s h).bind fun a io₁ h₁ => ?_
      obtain ⟨l', h₁⟩ := h₁
      rcases a with ⟨_ | msg, kb'⟩
      · exact ih h₁
      · exact hfree _ h₁

/-- The keys of the array become those of a new identity. -/
theorem Holding.adopt {s : HeapSys} (h : Holding kb none l s) (hkeys : kb.keys.length ≠ 0) :
    Holding ⟨[], 0⟩ none l (adopt kb.keys.length s) := by
  have hcap : ¬ kb.cap = 0 := by
    have hfits := h.keys.fits
    omega
  have hblock := h.keys.block
  rw [if_neg hcap] at hblock
  have hne : Owner.keybuf ≠ .identity s.ids.length := Owner.noConfusion
  have hgive : ∀ v, (s.heap.give .keybuf (.identity s.ids.length)).block v =
      if v = .identity s.ids.length then some kb.cells
      else if v = .keybuf then none else s.heap.block v := by
    intro v
    show Function.update (Function.update s.heap.block .keybuf none) (.identity s.ids.length)
      (s.heap.block .keybuf) v = _
    rw [Function.update_apply, Function.update_apply, hblock]
  refine ⟨⟨h.beside.tidy.give, h.beside.sinks.same fun i => ?_, fun _ _ => rfl, rfl, rfl⟩,
    fun k n hk => ?_, ⟨Nat.le_refl 0, ?_⟩, ?_, h.lenout⟩
  · exact (hgive _).trans (by rw [if_neg Owner.noConfusion, if_neg Owner.noConfusion])
  · show ∃ a m, (s.heap.give .keybuf (.identity s.ids.length)).block (.identity k) = _ ∧ _
    change (s.ids ++ [some kb.keys.length])[k]? = _ at hk
    rw [hgive]
    by_cases hlast : k = s.ids.length
    · subst hlast
      rw [List.getElem?_concat_length] at hk
      obtain rfl := Option.some.inj (Option.some.inj hk)
      rw [if_pos rfl]
      exact ⟨_, _, rfl, length_keyBytes kb.keys⟩
    · have hlt : k < s.ids.length := by
        have hlen := (List.getElem?_eq_some_iff.mp hk).1
        rw [List.length_append, List.length_singleton] at hlen
        omega
      rw [List.getElem?_append_left hlt] at hk
      rw [if_neg fun heq => hlast (Owner.identity.inj heq), if_neg Owner.noConfusion]
      exact h.ids k n hk
  · show (s.heap.give .keybuf (.identity s.ids.length)).block .keybuf = _
    rw [hgive, if_neg hne, if_pos rfl]
    rfl
  · show ((s.heap.give .keybuf (.identity s.ids.length)).block .keyfile).map List.length = _
    rw [hgive, if_neg Owner.noConfusion, if_neg Owner.noConfusion]
    exact h.file

/-- A call ends with its blocks given back, whether or not R raises an
error. -/
abbrev Settles {α : Type} (p : Heaped α) (io : Io HeapSys) : Prop :=
  Meets heapHandler (fun io => io.dev.heap.Tidy) p io fun _ io' => Settled io'.dev

theorem pkg_settles {α : Type} (p : Pkg α) (h : Settled io.dev) : Settles (Heaped.pkg p) io := by
  obtain ⟨l, h⟩ := h
  exact (pkg_does p h).mono fun r io' h' => ⟨l, h'⟩

theorem ageCIdentityParse_settles (items isfile : Sexp) (h : Settled io.dev) :
    Settles (Heaped.ageCIdentityParse items isfile) io := by
  obtain ⟨l, h⟩ := h
  have hfree : ∀ {kb : Keybuf} {l : Nat} {io : Io HeapSys} (msg : String),
      Holding kb none l io.dev →
      Settles (Heaped.keybufFree kb >>= fun _ => Heaped.pkg (resultErr "identity" msg)) io := by
    intro kb l io msg h
    exact (keybufFree_does h).bind fun _ io₁ h₁ => pkg_settles _ ⟨l, h₁⟩
  unfold Heaped.ageCIdentityParse
  refine pkgOp_does h fun r io₁ _ h₁ => ?_
  split
  · split
    · exact pkg_settles _ ⟨l, h₁⟩
    refine (parseItems_does _ h₁).bind fun a io₂ h₂ => ?_
    rcases a with msg | kb
    · exact pkg_settles _ h₂
    obtain ⟨l', h₂⟩ := h₂
    dsimp only
    split
    · exact hfree _ h₂
    rename_i hkeys
    refine pkgOp_does h₂ fun r io₃ _ h₃ => ?_
    split
    · exact hfree _ h₃
    have hadopt := h₃.adopt hkeys
    refine Meets.op_bind h₃.beside.tidy fun r io₄ he => ?_
    obtain ⟨-, rfl⟩ := Prod.mk.inj (Option.some.inj he)
    exact pkg_settles _ ⟨l', hadopt⟩
  · exact pkg_settles _ ⟨l, h₁⟩

/-- A release leaves the other blocks alone. -/
theorem idFinalizer_settled (k : Nat) {s : HeapSys} (h : Settled s) :
    Settled (idFinalizer k s) := by
  obtain ⟨l, h⟩ := h
  rw [idFinalizer]
  cases hk : (s.ids[k]?).join with
  | none => exact ⟨l, h⟩
  | some n =>
    obtain ⟨a, m, hblock, hlen⟩ := h.ids k n (Option.join_eq_some_iff.mp hk)
    have hafter : ((s.heap.wipe (.identity k) (n * 32)).free (.identity k)).block =
        Function.update s.heap.block (.identity k) none := Heap.wipe_free_block _
    have htidy : ((s.heap.wipe (.identity k) (n * 32)).free (.identity k)).Tidy := by
      refine (h.beside.tidy.wipe ?_).free fun b hb => ?_
      · rw [Heap.size, hblock]
        show n * 32 ≤ (a ++ Block.fresh m).length
        rw [List.length_append, hlen]
        exact Nat.le_add_right _ _
      · rw [Heap.wipe_block, Function.update_self, hblock] at hb
        obtain rfl := Option.some.inj hb
        exact Block.clear_wipe (Nat.le_of_eq hlen)
    refine ⟨l, ⟨htidy, h.beside.sinks.same fun i => ?_, fun _ _ => rfl, rfl, rfl⟩,
      fun j n' hj => ?_, ⟨Nat.le_refl 0, ?_⟩, ?_, h.lenout⟩
    · show ((s.heap.wipe (.identity k) (n * 32)).free (.identity k)).block _ = _
      rw [hafter, Function.update_of_ne Owner.noConfusion]
    · change (s.ids.set k none)[j]? = _ at hj
      show ∃ a m, ((s.heap.wipe (.identity k) (n * 32)).free (.identity k)).block _ = _ ∧ _
      have hjk : j ≠ k := by
        rintro rfl
        rw [List.getElem?_set_self' ] at hj
        cases hs : s.ids[j]? with
        | none =>
          rw [hs] at hj
          cases hj
        | some x =>
          rw [hs] at hj
          cases hj
      rw [List.getElem?_set_ne hjk.symm] at hj
      rw [hafter, Function.update_of_ne fun heq => hjk (Owner.identity.inj heq)]
      exact h.ids j n' hj
    · show ((s.heap.wipe (.identity k) (n * 32)).free (.identity k)).block _ = _
      rw [hafter, Function.update_of_ne Owner.noConfusion]
      exact h.keys.block
    · show (((s.heap.wipe (.identity k) (n * 32)).free (.identity k)).block _).map _ = _
      rw [hafter, Function.update_of_ne Owner.noConfusion]
      exact h.file

theorem call_settles (call : HeapCall) (h : Settled io.dev) : Settles call.code io := by
  have hunit : ∀ {α : Type} {p : Heaped α}, Settles p io →
      Settles (p >>= fun _ => Pure.pure ()) io := by
    intro α p hp
    exact Meets.bind hp (fun _ _ h' => h') fun _ io' h' => Meets.pure h'.choose_spec.beside.tidy h'
  cases call with
  | parse items isfile => exact hunit (ageCIdentityParse_settles items isfile h)
  | release k =>
    refine hunit (Meets.op_bind h.choose_spec.beside.tidy fun r io₁ he => ?_)
    obtain ⟨-, rfl⟩ := Prod.mk.inj (Option.some.inj he)
    have hafter := idFinalizer_settled k h
    exact Meets.pure hafter.choose_spec.beside.tidy hafter
  | decrypt C m junk data ext => exact hunit (pkg_settles _ h)
  | decryptPassphrase C m junk data pass => exact hunit (pkg_settles _ h)

end Programs

theorem heapSession_settles (calls : List HeapCall) : ∀ {io : Io HeapSys}, Settled io.dev →
    Settles (heapSession calls) io := by
  induction calls with
  | nil =>
    intro io h
    exact Meets.pure h.choose_spec.beside.tidy h
  | cons call calls ih =>
    intro io h
    exact Meets.attempt_bind (call_settles call h) fun _ io' h' => ih h'

/-! ## The result -/

/-- A process that has not allocated a block yet, for a sink neither. -/
structure Unallocated (s : HeapSys) : Prop where
  heap : s.heap = .empty s.heap.moves
  ids : s.ids = []
  sinks : ∀ i, (s.sys.memtab i).used = true → (s.sys.memtab i).cap = 0

theorem Unallocated.settled {s : HeapSys} (h : Unallocated s) : Settled s := by
  have hnone : ∀ v, s.heap.block v = none := by
    intro v
    rw [h.heap]
    rfl
  refine ⟨s.lenout, ⟨?_, ⟨fun i b hb => ?_, fun i hused => ?_⟩, fun _ _ => rfl, rfl, rfl⟩,
    fun k n hk => ?_, ⟨Nat.le_refl 0, hnone _⟩, ?_, rfl⟩
  · rw [h.heap]
    exact Heap.tidy_empty _
  · rw [hnone] at hb
    cases hb
  · rw [h.sinks i hused, Heap.size, hnone]
    rfl
  · rw [h.ids] at hk
    cases hk
  · rw [hnone]
    rfl

section Invariant

variable {P : Heap Owner → Prop} (hP : Heap.Invariant P)

include hP

theorem memwriteHeap_keeps (i : Fin MEMFD_MAX) (bs : List UInt8) (s : Sys) {h : Heap Owner}
    (hh : P h) : P (memwriteHeap i bs s h) := by
  rw [memwriteHeap]
  split
  · exact hh
  · exact hP.store hh
  · split
    · exact hP.store (hP.realloc hh)
    · exact hh

theorem agewriteHeap_keeps (fd : Int) (bs : List UInt8) (s : Sys) {h : Heap Owner} (hh : P h) :
    P (agewriteHeap fd bs s h) := by
  rw [agewriteHeap]
  split
  · exact hh
  split
  · exact hh
  · split
    · exact memwriteHeap_keeps hP _ bs s hh
    · exact hh

theorem memcloseHeap_keeps (vfd : Int) (t : Memtab) {h : Heap Owner} (hh : P h) :
    P (memcloseHeap vfd t h) := by
  rw [memcloseHeap]
  split
  · exact hh
  · split
    · exact hP.free (hP.store hh)
    · exact hh

theorem heap_stable (fi fo : Int) : Stable fi fo fun s : HeapSys => P s.heap where
  ageread := fun {d n r d'} h _ he => by
    have hd : (Descr.ageread fi n d).2 = d' := congrArg Prod.snd he
    exact hd ▸ h
  agewrite := fun {d bs r d'} h _ he => by
    obtain ⟨x, -, he⟩ := Option.map_eq_some_iff.mp he
    obtain ⟨-, rfl⟩ := Prod.mk.inj he
    exact agewriteHeap_keeps hP fo bs d.sys h
  alloc := fun {d n r d'} h he => by
    have hd : (Descr.alloc n d).2 = d' := congrArg Prod.snd he
    exact hd ▸ h
  randombuf := fun {d n r d'} h he => by
    have hd : (Descr.randombuf n d).2 = d' := congrArg Prod.snd he
    exact hd ▸ h

theorem blockHandler_keeps {o : PkgOp} {io io' : Io HeapSys} {r : PkgRet o} (h : P io.dev.heap)
    (he : blockHandler o io = some (r, io')) : P io'.dev.heap := by
  have hother : blockHandler o io = (pkgHandler o io.sys).map
      (fun x => (x.1, x.2.withBlocks io.dev)) → P io'.dev.heap := by
    intro hsame
    rw [hsame] at he
    obtain ⟨x, -, hx⟩ := Option.map_eq_some_iff.mp he
    obtain ⟨-, rfl⟩ := Prod.mk.inj hx
    exact h
  cases o with
  | age o => exact (ageHandler_stable (heap_stable hP io.ib.fd io.ob.fd) o
    ⟨h, rfl, rfl⟩ r io' he).dev
  | writeall fd bs =>
    obtain ⟨⟨ok, s⟩, hw, he⟩ := Option.map_eq_some_iff.mp he
    obtain ⟨-, rfl⟩ := Prod.mk.inj he
    exact writeall_stable (heap_stable hP fd fd) h _ _ hw
  | memclose vfd =>
    obtain ⟨-, rfl⟩ := Prod.mk.inj (Option.some.inj he)
    exact memcloseHeap_keeps hP vfd _ h
  | _ => exact hother rfl

theorem heapHandler_keeps {o : HeapOp} {io io' : Io HeapSys} {r : HeapRet o} (h : P io.dev.heap)
    (he : heapHandler o io = some (r, io')) : P io'.dev.heap := by
  -- an allocation that the system may refuse
  have hallocating : ∀ {n : Nat} {f : Heap Owner → Heap Owner}, P (f io.dev.heap) →
      P (allocating n f io.dev).2.heap := by
    intro n f hf
    show P (if _ then _ else _)
    split
    · exact hf
    · exact h
  cases o with
  | pkg o => exact blockHandler_keeps hP h he
  | malloc v n =>
    obtain ⟨-, rfl⟩ := Prod.mk.inj (Option.some.inj he)
    exact hallocating (hP.malloc h)
  | realloc v n =>
    obtain ⟨-, rfl⟩ := Prod.mk.inj (Option.some.inj he)
    exact hallocating (hP.realloc h)
  | store v off bs =>
    obtain ⟨-, rfl⟩ := Prod.mk.inj (Option.some.inj he)
    exact hP.store h
  | wipe v n =>
    obtain ⟨-, rfl⟩ := Prod.mk.inj (Option.some.inj he)
    exact hP.store h
  | free v =>
    obtain ⟨-, rfl⟩ := Prod.mk.inj (Option.some.inj he)
    exact hP.free h
  | setLenout n =>
    obtain ⟨-, rfl⟩ := Prod.mk.inj (Option.some.inj he)
    exact h
  | wipeLenout v =>
    obtain ⟨-, rfl⟩ := Prod.mk.inj (Option.some.inj he)
    exact hP.store h
  | adopt n =>
    obtain ⟨-, rfl⟩ := Prod.mk.inj (Option.some.inj he)
    exact hP.give h
  | finalize k =>
    obtain ⟨-, rfl⟩ := Prod.mk.inj (Option.some.inj he)
    show P (idFinalizer k io.dev).heap
    rw [idFinalizer]
    split
    · exact h
    · exact hP.free (hP.store h)

/-- Any program keeps what every operation on the blocks keeps. -/
theorem always_keeps {α : Type} {p : Heaped α} {io : Io HeapSys} (h : P io.dev.heap) :
    Always heapHandler (fun io => P io.dev.heap) p io :=
  Prog.always_of_ops (h := heapHandler) (fun _ _ _ _ hs he => heapHandler_keeps hP hs he) h

end Invariant

/-- In every run and at every moment of it, no access was outside a block,
the program has freed clear blocks only, and the blocks that have been freed
are clear of secrets if and only if no `realloc` has moved a block that was
not.  An allocator that grows every block in place moves none.  The parser
of the session is that of the package, with its blocks. -/
theorem scrubbed_iff_unmoved (calls : List HeapCall) {io : Io HeapSys} (h : Unallocated io.dev) :
    Always heapHandler
      (fun io => io.dev.heap.Tidy ∧ (io.dev.heap.Scrubbed ↔ io.dev.heap.Unmoved))
      (heapSession calls) io ∧
    ((∀ i, io.dev.heap.moves i = false) →
      Always heapHandler (fun io => io.dev.heap.Scrubbed) (heapSession calls) io) ∧
    ∀ items isfile, ProgE.interp forgetBlocks (Heaped.ageCIdentityParse items isfile) =
      ageCIdentityParse items isfile := by
  have hsettles := (heapSession_settles calls h.settled).always
  refine ⟨?_, fun hmoves => ?_, interp_ageCIdentityParse⟩
  · exact Prog.Always.mono (fun _ ht => ⟨ht, ht.scrubbed_iff⟩) hsettles
  · have hstart : io.dev.heap.InPlace := by
      refine ⟨hmoves, fun v b hb => ?_⟩
      rw [h.heap] at hb
      cases hb
    have hplace := always_keeps Heap.inPlace_invariant (p := heapSession calls) hstart
    refine Prog.Always.mono (fun _ hs => ?_) (Prog.Always.and hsettles hplace)
    exact hs.1.scrubbed_iff.mpr hs.2.kept.unmoved

/-- A process on a system with the files. -/
def Io.unallocated (files : List (Path × List UInt8)) (moves : Nat → Bool) : Io HeapSys :=
  (Io.fresh files).withBlocks ⟨.steady files 99, .empty moves, 0, []⟩

def secretText : List UInt8 :=
  ascii "AGE-SECRET-KEY-1QURSWPC8QURSWPC8QURSWPC8QURSWPC8QURSWPC8QURSWPC8QURSKMP32K"

/-- Parse the identity `n` times, and release the keys. -/
def parseRelease (n : Nat) : List HeapCall :=
  [.parse (.str (List.replicate n (some secretText))) (.lgl (List.replicate n (some false))),
    .release 0]

theorem scrubbed_iff_unmoved_five :
    Always heapHandler
      (fun io => io.dev.heap.Tidy ∧ (io.dev.heap.Scrubbed ↔ io.dev.heap.Unmoved))
      (heapSession (parseRelease 5)) (.unallocated [] fun _ => false) ∧
    Always heapHandler (fun io => io.dev.heap.Scrubbed) (heapSession (parseRelease 5))
      (.unallocated [] fun _ => false) := by
  have hstart : Unallocated (Io.unallocated [] fun _ => false).dev :=
    ⟨rfl, rfl, fun _ hused => nomatch hused⟩
  obtain ⟨htidy, hplace, -⟩ := scrubbed_iff_unmoved (parseRelease 5) hstart
  exact ⟨htidy, hplace fun _ => rfl⟩

/-- The fifth identity makes the array grow; the old block is freed with four
keys in it. -/
theorem moved_keys_unscrubbed :
    ¬ Always heapHandler (fun io => io.dev.heap.Scrubbed) (heapSession (parseRelease 5))
      (.unallocated [] fun _ => true) := by
  intro hall
  have hrun : ∃ io', Runs heapHandler (heapSession (parseRelease 5)) (.unallocated [] fun _ => true)
      (.ok ()) io' ∧ decide io'.dev.heap.Scrubbed = false :=
    exists_runs_at 10 (q := fun io : Io HeapSys => decide io.dev.heap.Scrubbed) (by decide +kernel)
  obtain ⟨io', hr, hbad⟩ := hrun
  exact of_decide_eq_false hbad (hall.result hr)

/-! ## Few keys -/

/-- No block is moved, and the outcome is as `P` says. -/
abbrev StaysPut {α : Type} (p : Heaped α) (io : Io HeapSys) (P : Except String α → HeapSys → Prop) :
    Prop :=
  Meets heapHandler (fun io => io.dev.heap.Kept) p io fun r io' => P r io'.dev

/-- The array has no slots and no block yet, or its first four slots, and no
block was moved so far. -/
structure Few (kb : Keybuf) (s : HeapSys) : Prop where
  kept : s.heap.Kept
  fits : kb.keys.length ≤ kb.cap
  cap : (kb.cap = 0 ∧ s.heap.block .keybuf = none) ∨ kb.cap = 4

/-- An allocation of R. -/
theorem ralloc_keeps {α : Type} {p : Pkg α} {io : Io HeapSys} (h : io.dev.heap.Kept)
    (hp : ∀ io' : Io HeapSys, io'.dev.heap.Kept →
      Meets (Prog.restrict HeapOp.pkg (fun _ r => r) heapHandler) (fun io => io.dev.heap.Kept)
        p io' fun _ io' => io'.dev.heap.Kept) :
    Meets (Prog.restrict HeapOp.pkg (fun _ r => r) heapHandler) (fun io => io.dev.heap.Kept)
      (Pkg.ralloc >>= fun _ => p) io fun _ io' => io'.dev.heap.Kept := by
  refine Meets.op_bind (o := PkgOp.ralloc) h fun ok io' he => ?_
  obtain ⟨-, rfl⟩ := Prod.mk.inj (Option.some.inj he)
  cases ok with
  | true => exact hp _ h
  | false => exact Meets.throw h h

section StaysPut

variable {kb : Keybuf} {io : Io HeapSys}

theorem resultErr_keeps (cls msg : String) (h : io.dev.heap.Kept) :
    StaysPut (Heaped.pkg (resultErr cls msg)) io fun _ s => s.heap.Kept := by
  refine Meets.embed (ralloc_keeps h fun io₁ h₁ => ?_)
  refine ralloc_keeps h₁ fun io₂ h₂ => ?_
  exact ralloc_keeps h₂ fun io₃ h₃ => Meets.pure h₃ h₃

theorem idWrap_keeps (keys : List (Bytes 32)) (h : io.dev.heap.Kept) :
    StaysPut (Heaped.pkg (do resultOk (← idWrap keys))) io fun _ s => s.heap.Kept := by
  have hwrap : Meets (Prog.restrict HeapOp.pkg (fun _ r => r) heapHandler)
      (fun io => io.dev.heap.Kept) (idWrap keys) io fun _ io' => io'.dev.heap.Kept := by
    refine ralloc_keeps h fun io₁ h₁ => ?_
    refine ralloc_keeps h₁ fun io₂ h₂ => ?_
    exact ralloc_keeps h₂ fun io₃ h₃ => Meets.pure h₃ h₃
  refine Meets.embed (Meets.bind hwrap (fun _ _ h => h) fun wrapped io₁ h₁ => ?_)
  refine ralloc_keeps h₁ fun io₂ h₂ => ?_
  exact ralloc_keeps h₂ fun io₃ h₃ => Meets.pure h₃ h₃

theorem keybufFree_keeps (h : io.dev.heap.Kept) :
    StaysPut (Heaped.keybufFree kb) io fun _ s => s.heap.Kept := by
  rw [Heaped.keybufFree]
  split
  · refine Meets.op_bind (o := HeapOp.wipe .keybuf (kb.cap * 32)) h fun r io₁ he => ?_
    obtain ⟨-, rfl⟩ := Prod.mk.inj (Option.some.inj he)
    refine Meets.of_op (o := HeapOp.free .keybuf) h fun r io₂ he => ?_
    obtain ⟨-, rfl⟩ := Prod.mk.inj (Option.some.inj he)
    exact ⟨Heap.Kept.free h, Heap.Kept.free h⟩
  · exact Meets.pure h h

/-- The array grows only from no slots to four. -/
theorem keybufGrow_keeps (h : Few kb io.dev) (hfew : kb.keys.length < 4) :
    StaysPut (Heaped.keybufGrow kb) io fun r t =>
      match r with
      | .error _ => False
      | .ok none => t.heap.Kept
      | .ok (some kb') => Few kb' t ∧ kb'.keys = kb.keys ∧ kb'.cap = 4 := by
  have hfits := h.fits
  rw [Heaped.keybufGrow]
  split
  · rename_i hfull
    obtain ⟨hcap, hnone⟩ := h.cap.resolve_right (by omega)
    have hkept := h.kept.realloc (.inr hnone) (4 * 32)
    dsimp only
    rw [if_neg (not_not.mpr hcap)]
    refine realloc_meets h.kept (fun sys _ => ?_) fun sys _ => ?_
    · exact Meets.pure h.kept h.kept
    · exact Meets.pure hkept ⟨⟨hkept, Nat.le_of_lt hfew, .inr rfl⟩, rfl, rfl⟩
  · rename_i hroom
    exact Meets.pure h.kept ⟨h, rfl, h.cap.resolve_left (by omega)⟩

theorem keybufPush_keeps (s : List UInt8) (h : Few kb io.dev) (hfew : kb.keys.length < 4) :
    StaysPut (Heaped.keybufPush kb s) io fun r t =>
      match r with
      | .error _ => False
      | .ok (.ok, kb') => Few kb' t ∧ kb'.keys.length = kb.keys.length + 1
      | .ok _ => t.heap.Kept := by
  rw [Heaped.keybufPush]
  split
  · exact Meets.pure h.kept h.kept
  refine Meets.bind (keybufGrow_keeps h hfew) (fun e io₁ h₁ => h₁) fun a io₁ h₁ => ?_
  cases a with
  | none => exact Meets.pure h₁ h₁
  | some kb₁ =>
    obtain ⟨h₁, hkeys, hcap⟩ := h₁
    dsimp only
    cases x25519privkey s with
    | none => exact Meets.pure h₁.kept h₁.kept
    | some key =>
      have hroom : kb₁.keys.length < kb₁.cap := by
        rw [hkeys, hcap]
        exact hfew
      have hlen : (kb₁.keys ++ [key]).length = kb₁.keys.length + 1 := List.length_append
      dsimp only
      rw [if_pos hroom]
      refine Meets.op_bind (o := HeapOp.store .keybuf (kb₁.keys.length * 32) key.val) h₁.kept
        fun r io₂ he => ?_
      obtain ⟨-, rfl⟩ := Prod.mk.inj (Option.some.inj he)
      refine Meets.pure h₁.kept ⟨⟨h₁.kept, ?_, .inr hcap⟩, ?_⟩
      · exact hlen ▸ hroom
      · exact hlen.trans (by rw [hkeys])

theorem parseItems_keeps (items : List (Option (List UInt8) × Option Bool))
    (hinline : ∀ s, (some s, some true) ∉ items) : ∀ {kb : Keybuf} {io : Io HeapSys},
    Few kb io.dev → kb.keys.length + items.length ≤ 4 →
    StaysPut (Heaped.parseItems items kb) io fun _ s => s.heap.Kept := by
  have hfree : ∀ {kb : Keybuf} {io : Io HeapSys} (msg : String), io.dev.heap.Kept →
      StaysPut (Heaped.keybufFree kb >>=
        fun _ => Pure.pure (Except.error msg : Except String Keybuf)) io
        fun _ s => s.heap.Kept := by
    intro kb io msg h
    exact Meets.bind (keybufFree_keeps h) (fun _ _ h => h) fun _ _ h => Meets.pure h h
  induction items with
  | nil =>
    intro kb io h _
    exact Meets.pure h.kept h.kept
  | cons item items ih =>
    intro kb io h hfew
    rw [List.length_cons] at hfew
    have hrest : ∀ s, (some s, some true) ∉ items := fun s hs =>
      hinline s (List.mem_cons_of_mem _ hs)
    rcases item with ⟨_ | s, _ | _ | _⟩
    · exact hfree _ h.kept
    · exact hfree _ h.kept
    · exact hfree _ h.kept
    · exact hfree _ h.kept
    · rw [Heaped.parseItems]
      refine Meets.bind (keybufPush_keeps s h (by omega)) (fun _ _ h => h.elim) fun a io₁ h₁ => ?_
      rcases a with ⟨_ | _ | _, kb'⟩
      · obtain ⟨h₁, hlen⟩ := h₁
        exact ih hrest h₁ (by omega)
      · exact hfree _ h₁
      · exact hfree _ h₁
    · exact absurd List.mem_cons_self (hinline s)

/-- Up to four identities that are not in files leave every block where it
is, so that all that is freed is clear, whatever the allocator does. -/
theorem parse_scrubbed_of_few {els : List (Option (List UInt8))} {file : List (Option Bool)}
    (hfew : els.length ≤ 4) (hinline : some true ∉ file) (h : Unallocated io.dev) :
    Always heapHandler (fun io => io.dev.heap.Scrubbed)
      (Heaped.ageCIdentityParse (.str els) (.lgl file)) io := by
  have hstart : io.dev.heap.Kept := by
    rw [h.heap]
    exact fun v b hb => List.not_mem_nil hb
  have hempty : Few ⟨[], 0⟩ io.dev := by
    refine ⟨hstart, Nat.le_refl 0, .inl ⟨rfl, ?_⟩⟩
    rw [h.heap]
    rfl
  have hinline' : ∀ s, (some s, some true) ∉ els.zip file := fun s hs =>
    hinline (List.of_mem_zip hs).2
  have hlen : 0 + (els.zip file).length ≤ 4 := by
    rw [Nat.zero_add, List.length_zip]
    exact (Nat.min_le_left _ _).trans hfew
  have hfree : ∀ {kb : Keybuf} {io : Io HeapSys} (msg : String), io.dev.heap.Kept →
      StaysPut (Heaped.keybufFree kb >>= fun _ => Heaped.pkg (resultErr "identity" msg)) io
        fun _ s => s.heap.Kept := by
    intro kb io msg h
    exact Meets.bind (keybufFree_keeps h) (fun _ _ h => h) fun _ _ h => resultErr_keeps _ _ h
  have hkeeps : StaysPut (Heaped.ageCIdentityParse (.str els) (.lgl file)) io
      fun _ s => s.heap.Kept := by
    unfold Heaped.ageCIdentityParse
    refine Meets.op_bind (o := HeapOp.pkg .eclear) hstart fun r io₁ he => ?_
    obtain ⟨-, rfl⟩ := Prod.mk.inj (Option.some.inj he)
    dsimp only
    split
    · exact resultErr_keeps _ _ hstart
    refine Meets.bind (parseItems_keeps _ hinline' hempty hlen) (fun _ _ h => h) fun a io₂ h₂ => ?_
    rcases a with msg | kb
    · exact resultErr_keeps _ _ h₂
    dsimp only
    split
    · exact hfree _ h₂
    refine Meets.op_bind (o := HeapOp.pkg (.malloc 16)) h₂ fun ok io₃ he => ?_
    obtain ⟨-, rfl⟩ := Prod.mk.inj (Option.some.inj he)
    split
    · exact hfree _ h₂
    refine Meets.op_bind (o := HeapOp.adopt kb.keys.length) h₂ fun r io₄ he => ?_
    obtain ⟨-, rfl⟩ := Prod.mk.inj (Option.some.inj he)
    exact idWrap_keeps _ h₂
  have hsettles := (ageCIdentityParse_settles (.str els) (.lgl file) h.settled).always
  refine Prog.Always.mono (fun _ hs => ?_) (Prog.Always.and hsettles hkeeps.always)
  exact hs.1.scrubbed_iff.mpr hs.2.unmoved

end StaysPut

end Agecrypt
