import Mathlib.Logic.Function.Basic
import Mathlib.Data.List.Basic

/-!
# Memory in blocks

What `malloc`, `realloc` and `free` do to the blocks that the variables `V`
of a program point to.  A byte of a block is `none` until the program writes
it.  `realloc` grows a block in place, or it allocates another block, copies
the old one into it, and frees the old one; the schedule `moves` says which.

`log` lists the events.  A `free` event holds the bytes of the block at that
moment, and says whether the program freed it or a `realloc` that moved it.
`inside` is cleared by an access outside a block.
-/

namespace Agecrypt

/-- A byte of a block; `none` until it is written. -/
abbrev Cell := Option UInt8

abbrev Block := List Cell

namespace Block

/-- A block as `malloc` returns it. -/
def fresh (n : Nat) : Block := List.replicate n none

/-- Write bytes from position `off` on, as far as the block reaches. -/
def store (off : Nat) (bs : List UInt8) (b : Block) : Block :=
  (b.take off ++ bs.map some ++ b.drop (off + bs.length)).take b.length

/-- `wipe(p, n)` -/
def wipe (n : Nat) (b : Block) : Block := b.store 0 (List.replicate n 0)

/-- The bytes that another block of `n` bytes has after the copy. -/
def resize (n : Nat) (b : Block) : Block := b.take n ++ fresh (n - b.length)

/-- Every byte that was written is zero. -/
def Clear (b : Block) : Prop := ∀ c ∈ b, c.getD 0 = 0

instance : DecidablePred Clear := fun b => inferInstanceAs (Decidable (∀ c ∈ b, c.getD 0 = 0))

@[simp] theorem length_fresh (n : Nat) : (fresh n).length = n := List.length_replicate

@[simp] theorem length_store (off : Nat) (bs : List UInt8) (b : Block) :
    (b.store off bs).length = b.length := by
  simp only [store, List.length_take, List.length_append, List.length_map, List.length_drop]
  omega

@[simp] theorem length_wipe (n : Nat) (b : Block) : (b.wipe n).length = b.length := length_store ..

@[simp] theorem length_resize (n : Nat) (b : Block) : (b.resize n).length = n := by
  rw [resize, List.length_append, List.length_take, length_fresh]
  omega

@[simp] theorem resize_nil (n : Nat) : resize n [] = fresh n := by
  rw [resize, List.take_nil, List.nil_append, List.length_nil, Nat.sub_zero]

/-- A write behind `a`, over as many bytes as it has. -/
theorem store_append {a x y : Block} {bs : List UInt8} (h : x.length = bs.length) :
    (a ++ x ++ y).store a.length bs = a ++ bs.map some ++ y := by
  rw [store]
  have htake : (a ++ x ++ y).take a.length = a := by
    rw [List.append_assoc, List.take_left]
  have hdrop : (a ++ x ++ y).drop (a.length + bs.length) = y := by
    rw [← h, ← List.length_append, List.drop_left]
  rw [htake, hdrop]
  refine List.take_of_length_le ?_
  simp only [List.length_append, List.length_map, h]
  exact Nat.le_refl _

theorem clear_fresh (n : Nat) : Clear (fresh n) := by
  intro c hc
  rw [List.eq_of_mem_replicate hc]
  rfl

/-- A block is clear once everything in front of the bytes that were never
written has been wiped. -/
theorem clear_wipe {n m : Nat} {a : Block} (h : a.length ≤ n) :
    Clear ((a ++ fresh m).wipe n) := by
  intro c hc
  have hc := List.mem_of_mem_take hc
  rw [List.take_zero, List.nil_append] at hc
  rcases List.mem_append.mp hc with hc | hc
  · obtain ⟨x, hx, rfl⟩ := List.mem_map.mp hc
    exact List.eq_of_mem_replicate hx
  · rw [List.length_replicate, Nat.zero_add, List.drop_append,
      List.drop_of_length_le h, List.nil_append] at hc
    exact clear_fresh m c (List.mem_of_mem_drop hc)

/-- A block that was wiped as a whole. -/
theorem clear_wipe_all {n : Nat} {b : Block} (h : b.length ≤ n) : Clear (b.wipe n) := by
  have hall := clear_wipe (m := 0) h
  rwa [fresh, List.replicate_zero, List.append_nil] at hall

end Block

/-- Who gave a block back. -/
inductive Release where
  | free | realloc
deriving DecidableEq, Repr

inductive HeapEvent (V : Type) where
  | alloc (v : V) (size : Nat)
  | copy (v : V) (count : Nat)
  | free (v : V) (how : Release) (block : Block)

/-- What was freed was clear. -/
def HeapEvent.Clean {V : Type} : HeapEvent V → Prop
  | .free _ _ b => b.Clear
  | _ => True

instance {V : Type} : DecidablePred (HeapEvent.Clean (V := V))
  | .free _ _ b => inferInstanceAs (Decidable b.Clear)
  | .alloc _ _ => .isTrue trivial
  | .copy _ _ => .isTrue trivial

/-- The blocks that the variables point to. -/
structure Heap (V : Type) where
  block : V → Option Block
  moves : Nat → Bool
  log : List (HeapEvent V)
  inside : Bool

namespace Heap

variable {V : Type} [DecidableEq V]

/-- No block, and nothing has happened. -/
def empty (moves : Nat → Bool) : Heap V := ⟨fun _ => none, moves, [], true⟩

def size (v : V) (h : Heap V) : Nat := (h.block v).elim 0 List.length

/-- `v = malloc(n)` -/
def malloc (v : V) (n : Nat) (h : Heap V) : Heap V :=
  { h with block := Function.update h.block v (some (.fresh n)), log := h.log ++ [.alloc v n] }

/-- `v = realloc(v, n)` -/
def realloc (v : V) (n : Nat) (h : Heap V) : Heap V :=
  match h.block v with
  | none => h.malloc v n
  | some b =>
    let events := [.alloc v n, .copy v (min b.length n), .free v .realloc b]
    { h with
      block := Function.update h.block v (some (b.resize n))
      moves := fun i => h.moves (i + 1)
      log := h.log ++ if h.moves 0 then events else [] }

/-- Write into the block from position `off` on. -/
def store (v : V) (off : Nat) (bs : List UInt8) (h : Heap V) : Heap V :=
  { h with
    block := Function.update h.block v ((h.block v).map (Block.store off bs))
    inside := h.inside && (off + bs.length ≤ h.size v) }

/-- `wipe(v, n)` -/
def wipe (v : V) (n : Nat) (h : Heap V) : Heap V := h.store v 0 (List.replicate n 0)

/-- `free(v)`; nothing happens when `v` is `NULL`. -/
def free (v : V) (h : Heap V) : Heap V :=
  match h.block v with
  | none => h
  | some b =>
    { h with block := Function.update h.block v none, log := h.log ++ [.free v .free b] }

/-- `w = v`, and `v` is not used any more. -/
def give (v w : V) (h : Heap V) : Heap V :=
  { h with block := Function.update (Function.update h.block v none) w (h.block v) }

/-! ## What was freed -/

/-- Every block that has been freed was clear at that moment. -/
def Scrubbed (h : Heap V) : Prop := ∀ v how b, .free v how b ∈ h.log → b.Clear

/-- No `realloc` has moved a block that was not clear. -/
def Unmoved (h : Heap V) : Prop := ∀ v b, .free v .realloc b ∈ h.log → b.Clear

omit [DecidableEq V] in
theorem scrubbed_iff_clean {h : Heap V} : Scrubbed h ↔ ∀ e ∈ h.log, e.Clean := by
  constructor
  · intro hs e he
    cases e with
    | free v how b => exact hs v how b he
    | alloc => trivial
    | copy => trivial
  · exact fun hall v how b hb => hall _ hb

instance (h : Heap V) : Decidable (Scrubbed h) := decidable_of_iff' _ scrubbed_iff_clean

/-- No access was outside a block, and the program freed clear blocks only. -/
structure Tidy (h : Heap V) : Prop where
  inside : h.inside = true
  freed : ∀ v b, .free v .free b ∈ h.log → b.Clear

omit [DecidableEq V] in
/-- What the program frees is clear, so what matters are the blocks that were
moved. -/
theorem Tidy.scrubbed_iff {h : Heap V} (ht : Tidy h) : Scrubbed h ↔ Unmoved h := by
  constructor
  · exact fun hs v b hb => hs v .realloc b hb
  · intro hu v how b hb
    cases how with
    | free => exact ht.freed v b hb
    | realloc => exact hu v b hb

omit [DecidableEq V] in
theorem tidy_empty (moves : Nat → Bool) : Tidy (empty moves : Heap V) := by
  refine ⟨rfl, fun v b hb => ?_⟩
  cases hb

namespace Tidy

variable {h : Heap V} {v w : V}

theorem malloc (ht : Tidy h) (n : Nat) : Tidy (h.malloc v n) := by
  refine ⟨ht.inside, fun w b hb => ?_⟩
  rcases List.mem_append.mp hb with hb | hb
  · exact ht.freed w b hb
  · cases List.mem_singleton.mp hb

theorem realloc (ht : Tidy h) (n : Nat) : Tidy (h.realloc v n) := by
  rw [Heap.realloc]
  split
  · exact ht.malloc n
  refine ⟨ht.inside, fun w b hb => ?_⟩
  rcases List.mem_append.mp hb with hb | hb
  · exact ht.freed w b hb
  · split at hb
    · simp at hb
    · cases hb

theorem store (ht : Tidy h) {off : Nat} {bs : List UInt8} (hs : off + bs.length ≤ h.size v) :
    Tidy (h.store v off bs) := by
  refine ⟨?_, ht.freed⟩
  rw [Heap.store, ht.inside, decide_eq_true hs]
  rfl

theorem wipe (ht : Tidy h) {n : Nat} (hs : n ≤ h.size v) : Tidy (h.wipe v n) := by
  refine ht.store ?_
  rw [List.length_replicate, Nat.zero_add]
  exact hs

theorem free (ht : Tidy h) (hb : ∀ b, h.block v = some b → b.Clear) : Tidy (h.free v) := by
  rw [Heap.free]
  split
  · exact ht
  rename_i b hv
  refine ⟨ht.inside, fun w b' hb' => ?_⟩
  rcases List.mem_append.mp hb' with hb' | hb'
  · exact ht.freed w b' hb'
  · obtain ⟨-, -, rfl⟩ := HeapEvent.free.inj (List.mem_singleton.mp hb')
    exact hb b' hv

theorem give (ht : Tidy h) : Tidy (h.give v w) := ⟨ht.inside, ht.freed⟩

end Tidy

/-! ## Blocks that stay where they are -/

/-- No `realloc` has moved a block. -/
def Kept (h : Heap V) : Prop := ∀ v b, .free v .realloc b ∉ h.log

namespace Kept

variable {h : Heap V} {v w : V}

omit [DecidableEq V] in
theorem unmoved (hk : Kept h) : Unmoved h := fun v b hb => absurd hb (hk v b)

theorem malloc (hk : Kept h) (n : Nat) : Kept (h.malloc v n) := by
  intro w b hb
  rcases List.mem_append.mp hb with hb | hb
  · exact hk w b hb
  · cases List.mem_singleton.mp hb

/-- A `realloc` in place, or of a variable without a block. -/
theorem realloc (hk : Kept h) (hv : h.moves 0 = false ∨ h.block v = none) (n : Nat) :
    Kept (h.realloc v n) := by
  rw [Heap.realloc]
  split
  · exact hk.malloc n
  rename_i b hb
  rw [hb] at hv
  intro w b' hb'
  dsimp only at hb'
  rw [hv.resolve_right (Option.some_ne_none b), if_neg Bool.false_ne_true, List.append_nil] at hb'
  exact hk w b' hb'

theorem store (hk : Kept h) (off : Nat) (bs : List UInt8) : Kept (h.store v off bs) := hk

theorem free (hk : Kept h) : Kept (h.free v) := by
  rw [Heap.free]
  split
  · exact hk
  · intro w b hb
    rcases List.mem_append.mp hb with hb | hb
    · exact hk w b hb
    · cases List.mem_singleton.mp hb

theorem give (hk : Kept h) : Kept (h.give v w) := hk

end Kept

/-- What every operation on the blocks keeps. -/
structure Invariant (P : Heap V → Prop) : Prop where
  malloc : ∀ {h v n}, P h → P (h.malloc v n)
  realloc : ∀ {h v n}, P h → P (h.realloc v n)
  store : ∀ {h v off bs}, P h → P (h.store v off bs)
  free : ∀ {h v}, P h → P (h.free v)
  give : ∀ {h v w}, P h → P (h.give v w)

/-- No `realloc` has moved a block, and none will. -/
structure InPlace (h : Heap V) : Prop where
  moves : ∀ i, h.moves i = false
  kept : Kept h

theorem inPlace_invariant : Invariant (InPlace (V := V)) where
  malloc := fun hp => ⟨hp.moves, hp.kept.malloc _⟩
  realloc := fun {h v n} hp => by
    refine ⟨?_, hp.kept.realloc (.inl (hp.moves 0)) n⟩
    rw [Heap.realloc]
    split
    · exact hp.moves
    · exact fun i => hp.moves (i + 1)
  store := fun hp => ⟨hp.moves, hp.kept⟩
  free := fun {h v} hp => by
    refine ⟨?_, hp.kept.free⟩
    rw [Heap.free]
    split <;> exact hp.moves
  give := fun hp => ⟨hp.moves, hp.kept⟩

/-! ## The blocks afterwards -/

variable {h : Heap V} {v w : V}

@[simp] theorem malloc_block (n : Nat) :
    (h.malloc v n).block = Function.update h.block v (some (.fresh n)) := rfl

theorem realloc_block (n : Nat) :
    (h.realloc v n).block = Function.update h.block v (some (((h.block v).getD []).resize n)) := by
  rw [realloc]
  split
  · rename_i hv
    rw [malloc_block, hv, Option.getD_none, Block.resize_nil]
  · rename_i b hv
    rw [hv]
    rfl

@[simp] theorem store_block (off : Nat) (bs : List UInt8) :
    (h.store v off bs).block =
      Function.update h.block v ((h.block v).map (Block.store off bs)) := rfl

@[simp] theorem wipe_block (n : Nat) :
    (h.wipe v n).block = Function.update h.block v ((h.block v).map (Block.wipe n)) := rfl

theorem free_block : (h.free v).block = Function.update h.block v none := by
  rw [free]
  split
  · rename_i hv
    rw [← hv, Function.update_eq_self]
  · rfl

/-- Wipe the whole block that `v` points to, and free it. -/
theorem Tidy.wipe_free (ht : Tidy h) {b : Block} (hv : h.block v = some b) :
    Tidy ((h.wipe v b.length).free v) := by
  have hsize : b.length ≤ h.size v := by
    rw [size, hv]
    exact Nat.le_refl _
  refine (ht.wipe hsize).free fun b' hb' => ?_
  rw [wipe_block, Function.update_self, hv] at hb'
  rw [← Option.some.inj hb']
  exact Block.clear_wipe_all (Nat.le_refl _)

theorem wipe_free_block (n : Nat) :
    ((h.wipe v n).free v).block = Function.update h.block v none := by
  rw [free_block, wipe_block, Function.update_idem]

end Heap

end Agecrypt
