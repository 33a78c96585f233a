import Mathlib.Algebra.Group.Int.Defs
import Mathlib.Algebra.Group.Nat.Defs
import Mathlib.Data.List.Basic
import Mathlib.Data.List.TakeDrop

/-!
# Byte arrays of a fixed size

`Bytes n` is an array of exactly `n` bytes: a key, a nonce, or a buffer of a
C structure.  `load` and `store` move a block of bytes as `memcpy` does, and
answer `none` when the block does not lie inside the array.  `window b i j`
is the contents of the positions from `i` up to `j`.
-/

namespace Agecrypt

/-- The bytes of a text of ASCII characters. -/
def ascii (s : String) : List UInt8 := s.toList.map (fun c => UInt8.ofNat c.toNat)

/-- An array of `n` bytes. -/
@[ext]
structure Bytes (n : Nat) where
  val : List UInt8
  size_eq : val.length = n
deriving DecidableEq, Repr

namespace Bytes

variable {n : Nat}

@[simp] theorem length_val (b : Bytes n) : b.val.length = n := b.size_eq

/-- The array of `n` zero bytes. -/
def zero (n : Nat) : Bytes n := ⟨List.replicate n 0, List.length_replicate⟩

/-- A list of the right length as an array. -/
def ofList? (n : Nat) (l : List UInt8) : Option (Bytes n) :=
  if h : l.length = n then some ⟨l, h⟩ else none

theorem ofList?_val (b : Bytes n) : ofList? n b.val = some b := by
  simp [ofList?]

/-- The bytes at the positions from `i` up to `j`. -/
def window (b : Bytes n) (i j : Nat) : List UInt8 := (b.val.drop i).take (j - i)

/-- Copy `len` bytes out of the array, from position `off`. -/
def load (b : Bytes n) (off len : Nat) : Option (List UInt8) :=
  if off + len ≤ n then some (b.window off (off + len)) else none

/-- Copy `src` into the array, from position `off`. -/
def store (b : Bytes n) (off : Nat) (src : List UInt8) : Option (Bytes n) :=
  if h : off + src.length ≤ n then
    some ⟨b.val.take off ++ src ++ b.val.drop (off + src.length), by
      simp only [List.length_append, List.length_take, List.length_drop, length_val]
      omega⟩
  else none

theorem length_window (b : Bytes n) {i j : Nat} (hj : j ≤ n) :
    (b.window i j).length = j - i := by
  simp only [window, List.length_take, List.length_drop, length_val]
  omega

@[simp] theorem window_self (b : Bytes n) (i : Nat) : b.window i i = [] := by
  simp [window]

theorem window_full (b : Bytes n) : b.window 0 n = b.val := by
  rw [window, List.drop_zero, Nat.sub_zero, List.take_of_length_le (Nat.le_of_eq b.size_eq)]

theorem load_eq (b : Bytes n) {off len : Nat} (h : off + len ≤ n) :
    b.load off len = some (b.window off (off + len)) :=
  if_pos h

theorem load_none (b : Bytes n) {off len : Nat} (h : n < off + len) :
    b.load off len = none :=
  if_neg (by omega)

/-- A window in two parts. -/
theorem window_append (b : Bytes n) {i j k : Nat} (hij : i ≤ j) (hjk : j ≤ k) :
    b.window i j ++ b.window j k = b.window i k := by
  have hj : b.val.drop j = (b.val.drop i).drop (j - i) := by
    rw [List.drop_drop]
    congr 1
    omega
  have hk : k - i = (j - i) + (k - j) := by omega
  simp only [window]
  rw [hj, hk, List.take_add]

theorem store_isSome (b : Bytes n) (off : Nat) (src : List UInt8)
    (h : off + src.length ≤ n) : ∃ b', b.store off src = some b' :=
  ⟨_, dif_pos h⟩

theorem store_bound {b b' : Bytes n} {off : Nat} {src : List UInt8}
    (h : b.store off src = some b') : off + src.length ≤ n := by
  by_contra hlt
  rw [store, dif_neg hlt] at h
  cases h

theorem store_val {b b' : Bytes n} {off : Nat} {src : List UInt8}
    (h : b.store off src = some b') :
    b'.val = b.val.take off ++ src ++ b.val.drop (off + src.length) := by
  rw [store, dif_pos (store_bound h)] at h
  rw [← Option.some.inj h]

/-- What was stored at the front is read back from there. -/
theorem window_store_zero {b b' : Bytes n} {src : List UInt8}
    (h : b.store 0 src = some b') {i : Nat} (hi : i ≤ src.length) :
    b'.window i src.length = src.drop i := by
  have hv : b'.val = src ++ b.val.drop src.length := by
    simpa using store_val h
  rw [window, hv, List.drop_append_of_le_length hi, ← List.length_drop, List.take_left]

/-- A store behind a filled prefix extends it. -/
theorem window_store_append {b b' : Bytes n} {off : Nat} {src : List UInt8}
    (h : b.store off src = some b') {i : Nat} (hi : i ≤ off) :
    b'.window i (off + src.length) = b.window i off ++ src := by
  have hb := store_bound h
  have hlen : (b.val.take off).length = off := by
    rw [List.length_take, length_val]
    omega
  have hsub : off + src.length - i = ((b.val.take off).drop i ++ src).length := by
    rw [List.length_append, List.length_drop, hlen]
    omega
  rw [window, store_val h, List.append_assoc, List.drop_append_of_le_length (by omega),
    ← List.append_assoc, hsub, List.take_left, window, List.drop_take]

end Bytes

end Agecrypt
