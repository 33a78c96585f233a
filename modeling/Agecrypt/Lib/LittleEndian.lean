import Mathlib.Data.List.Basic
import Mathlib.Data.List.TakeDrop
import Mathlib.Data.Nat.Bitwise
import Mathlib.Tactic.Ring

/-!
# Little-endian numbers

`leNat` is the number that bytes stand for, least significant byte first, and
`leBytes` its bytes.  `load32le` and `store32le` are the words of four bytes
as C code reads and writes them, `load64le` and `store64le` those of eight:
`store32le_load` and `store64le_load` write back what was read, and
`store32le_xor` takes an exclusive or through.
-/

namespace Agecrypt

/-- The number of the bytes. -/
def leNat : List UInt8 → Nat
  | [] => 0
  | b :: bs => b.toNat + 256 * leNat bs

/-- The first `n` bytes of a number. -/
def leBytes : Nat → Nat → List UInt8
  | 0, _ => []
  | n + 1, x => UInt8.ofNat x :: leBytes n (x / 256)

theorem leBytes_leNat (bs : List UInt8) : leBytes bs.length (leNat bs) = bs := by
  induction bs with
  | nil => rfl
  | cons b bs ih =>
    have hb := b.toNat_lt
    have hlow : UInt8.ofNat (leNat (b :: bs)) = b := by
      apply UInt8.toNat_inj.mp
      rw [UInt8.toNat_ofNat', leNat]
      omega
    have hhigh : leNat (b :: bs) / 256 = leNat bs := by
      rw [leNat]
      omega
    rw [List.length_cons, leBytes, hlow, hhigh, ih]

/-! ## Words of four bytes -/

/-- The word at the front. -/
def load32le : List UInt8 → UInt32
  | b₀ :: b₁ :: b₂ :: b₃ :: _ =>
    b₀.toUInt32 ||| b₁.toUInt32 <<< 8 ||| b₂.toUInt32 <<< 16 ||| b₃.toUInt32 <<< 24
  | _ => 0

def store32le (w : UInt32) : List UInt8 :=
  [(w &&& 0xff).toUInt8, ((w >>> 8) &&& 0xff).toUInt8, ((w >>> 16) &&& 0xff).toUInt8,
    ((w >>> 24) &&& 0xff).toUInt8]

@[simp] theorem length_store32le (w : UInt32) : (store32le w).length = 4 := rfl

theorem toUInt8_low (w : UInt32) : (w &&& 0xff).toUInt8 = w.toUInt8 := by
  rw [UInt32.toUInt8_and]
  exact UInt8.and_neg_one

theorem store32le_eq (w : UInt32) :
    store32le w = [w.toUInt8, (w >>> 8).toUInt8, (w >>> 16).toUInt8, (w >>> 24).toUInt8] := by
  simp only [store32le, toUInt8_low]

theorem toNat_load32le_cons (b₀ b₁ b₂ b₃ : UInt8) (bs : List UInt8) :
    (load32le (b₀ :: b₁ :: b₂ :: b₃ :: bs)).toNat = leNat [b₀, b₁, b₂, b₃] := by
  have h₀ := b₀.toNat_lt
  have h₁ := b₁.toNat_lt
  have h₂ := b₂.toNat_lt
  have h₃ := b₃.toNat_lt
  simp only [load32le, UInt32.toNat_or, UInt32.toNat_shiftLeft, UInt8.toNat_toUInt32, leNat]
  show b₀.toNat ||| b₁.toNat <<< 8 % 2 ^ 32 ||| b₂.toNat <<< 16 % 2 ^ 32 |||
    b₃.toNat <<< 24 % 2 ^ 32 = _
  simp only [Nat.shiftLeft_eq]
  rw [Nat.mod_eq_of_lt (by omega), Nat.mod_eq_of_lt (by omega), Nat.mod_eq_of_lt (by omega)]
  simp only [← Nat.shiftLeft_eq]
  -- no two of them share a bit
  rw [Nat.or_comm b₀.toNat, ← Nat.shiftLeft_add_eq_or_of_lt (by omega : b₀.toNat < 2 ^ 8),
    Nat.or_comm _ (b₂.toNat <<< 16), ← Nat.shiftLeft_add_eq_or_of_lt
      (by rw [Nat.shiftLeft_eq]; omega), Nat.or_comm _ (b₃.toNat <<< 24),
    ← Nat.shiftLeft_add_eq_or_of_lt (by rw [Nat.shiftLeft_eq, Nat.shiftLeft_eq]; omega)]
  simp only [Nat.shiftLeft_eq]
  omega

/-- The number of a word. -/
theorem toNat_load32le {bs : List UInt8} (h : 4 ≤ bs.length) :
    (load32le bs).toNat = leNat (bs.take 4) := by
  rcases bs with _ | ⟨b₀, _ | ⟨b₁, _ | ⟨b₂, _ | ⟨b₃, bs⟩⟩⟩⟩
  · cases h
  · simp at h
  · simp at h
  · simp at h
  · exact toNat_load32le_cons b₀ b₁ b₂ b₃ bs

/-- A word and its number. -/
theorem store32le_toNat (w : UInt32) : store32le w = leBytes 4 w.toNat := by
  have hbyte : ∀ (k : UInt32) (n : Nat), w.toNat >>> (k.toNat % 32) = n →
      (w >>> k).toUInt8 = UInt8.ofNat n := by
    intro k n hn
    apply UInt8.toNat_inj.mp
    rw [UInt32.toNat_toUInt8, UInt32.toNat_shiftRight, hn, UInt8.toNat_ofNat']
  have hzero : w.toUInt8 = UInt8.ofNat w.toNat := by
    apply UInt8.toNat_inj.mp
    rw [UInt32.toNat_toUInt8, UInt8.toNat_ofNat']
  rw [store32le_eq, hzero, hbyte 8 (w.toNat / 256) (Nat.shiftRight_eq_div_pow _ _),
    hbyte 16 (w.toNat / 256 / 256) (by
      rw [Nat.div_div_eq_div_mul]; exact Nat.shiftRight_eq_div_pow _ _),
    hbyte 24 (w.toNat / 256 / 256 / 256) (by
      rw [Nat.div_div_eq_div_mul, Nat.div_div_eq_div_mul]; exact Nat.shiftRight_eq_div_pow _ _)]
  rfl

theorem store32le_load {bs : List UInt8} (h : 4 ≤ bs.length) :
    store32le (load32le bs) = bs.take 4 := by
  have hlen : (bs.take 4).length = 4 := by
    rw [List.length_take]
    omega
  have hle := leBytes_leNat (bs.take 4)
  rw [hlen] at hle
  rw [store32le_toNat, toNat_load32le h, hle]

theorem store32le_xor (a b : UInt32) :
    store32le (a ^^^ b) = List.zipWith (· ^^^ ·) (store32le a) (store32le b) := by
  simp only [store32le_eq, UInt32.shiftRight_xor, UInt32.toUInt8_xor, List.zipWith_cons_cons,
    List.zipWith_nil_left]

/-! ## Words of eight bytes -/

theorem toNat_low (c : UInt64) : c.toUInt32.toNat = c.toNat % 2 ^ 32 := UInt64.toNat_toUInt32 c

theorem toNat_shiftRight32 (c : UInt64) : (c >>> 32).toNat = c.toNat / 2 ^ 32 := by
  have h32 : (32 : UInt64).toNat % 64 = 32 := by decide
  rw [UInt64.toNat_shiftRight, h32, Nat.shiftRight_eq_div_pow]

theorem toNat_shiftLeft32 (w : UInt32) : (w.toUInt64 <<< 32).toNat = w.toNat * 2 ^ 32 := by
  have hw := w.toNat_lt
  have h32 : (32 : UInt64).toNat % 64 = 32 := by decide
  rw [UInt64.toNat_shiftLeft, h32, UInt32.toNat_toUInt64, Nat.shiftLeft_eq]
  exact Nat.mod_eq_of_lt (by omega)

theorem toNat_high (c : UInt64) : (c >>> 32).toUInt32.toNat = c.toNat / 2 ^ 32 := by
  have hc := c.toNat_lt
  rw [UInt64.toNat_toUInt32, toNat_shiftRight32]
  omega

def load64le (bs : List UInt8) : UInt64 :=
  (load32le bs).toUInt64 ||| (load32le (bs.drop 4)).toUInt64 <<< 32

def store64le (n : UInt64) : List UInt8 :=
  store32le n.toUInt32 ++ store32le (n >>> 32).toUInt32

theorem toNat_join (a b : UInt32) :
    (a.toUInt64 ||| b.toUInt64 <<< 32).toNat = a.toNat + b.toNat * 2 ^ 32 := by
  have ha := a.toNat_lt
  rw [UInt64.toNat_or, toNat_shiftLeft32, UInt32.toNat_toUInt64, ← Nat.shiftLeft_eq, Nat.or_comm,
    ← Nat.shiftLeft_add_eq_or_of_lt ha, Nat.shiftLeft_eq, Nat.add_comm]

theorem low_join (a b : UInt32) : (a.toUInt64 ||| b.toUInt64 <<< 32).toUInt32 = a := by
  have ha := a.toNat_lt
  apply UInt32.toNat_inj.mp
  rw [toNat_low, toNat_join]
  omega

theorem high_join (a b : UInt32) : ((a.toUInt64 ||| b.toUInt64 <<< 32) >>> 32).toUInt32 = b := by
  have ha := a.toNat_lt
  apply UInt32.toNat_inj.mp
  rw [toNat_high, toNat_join]
  omega

theorem store64le_load {bs : List UInt8} (h : 8 ≤ bs.length) :
    store64le (load64le bs) = bs.take 8 := by
  have hrest : 4 ≤ (bs.drop 4).length := by
    rw [List.length_drop]
    omega
  rw [store64le, load64le, low_join, high_join, store32le_load (by omega), store32le_load hrest,
    ← List.take_add]

end Agecrypt
