import Agecrypt.Lib.Bytes
import Agecrypt.Lib.LittleEndian

/-!
# The stream cipher of `crypto/chacha20poly1305.c`

`chacha20djb` takes whole blocks word by word and the last one byte by byte,
and counts the blocks in two words of its input.  `keystream` is the stream of
the blocks of a counter of 64 bits: `chacha20djb` is the exclusive or of its
text with it, and returns the counter behind the blocks that it used.
-/

namespace Agecrypt

def rotl32 (x n : UInt32) : UInt32 := (x <<< n) ^^^ (x >>> (32 - n))

/-- Four words of the state. -/
structure Quarter where
  a : UInt32
  b : UInt32
  c : UInt32
  d : UInt32

/-- `QUARTERROUND` -/
def quarterround (q : Quarter) : Quarter :=
  let a := q.a + q.b
  let d := rotl32 (q.d ^^^ a) 16
  let c := q.c + d
  let b := rotl32 (q.b ^^^ c) 12
  let a := a + b
  let d := rotl32 (d ^^^ a) 8
  let c := c + d
  let b := rotl32 (b ^^^ c) 7
  ⟨a, b, c, d⟩

/-- The sixteen words of the state. -/
structure Chacha where
  t0 : UInt32
  t1 : UInt32
  t2 : UInt32
  t3 : UInt32
  t4 : UInt32
  t5 : UInt32
  t6 : UInt32
  t7 : UInt32
  t8 : UInt32
  t9 : UInt32
  t10 : UInt32
  t11 : UInt32
  t12 : UInt32
  t13 : UInt32
  t14 : UInt32
  t15 : UInt32
deriving DecidableEq, Repr

namespace Chacha

def words (s : Chacha) : List UInt32 :=
  [s.t0, s.t1, s.t2, s.t3, s.t4, s.t5, s.t6, s.t7, s.t8, s.t9, s.t10, s.t11, s.t12, s.t13, s.t14,
    s.t15]

/-- A round on the columns and one on the diagonals. -/
def tworounds (s : Chacha) : Chacha :=
  let q := quarterround ⟨s.t0, s.t4, s.t8, s.t12⟩
  let s := { s with t0 := q.a, t4 := q.b, t8 := q.c, t12 := q.d }
  let q := quarterround ⟨s.t1, s.t5, s.t9, s.t13⟩
  let s := { s with t1 := q.a, t5 := q.b, t9 := q.c, t13 := q.d }
  let q := quarterround ⟨s.t2, s.t6, s.t10, s.t14⟩
  let s := { s with t2 := q.a, t6 := q.b, t10 := q.c, t14 := q.d }
  let q := quarterround ⟨s.t3, s.t7, s.t11, s.t15⟩
  let s := { s with t3 := q.a, t7 := q.b, t11 := q.c, t15 := q.d }
  let q := quarterround ⟨s.t0, s.t5, s.t10, s.t15⟩
  let s := { s with t0 := q.a, t5 := q.b, t10 := q.c, t15 := q.d }
  let q := quarterround ⟨s.t1, s.t6, s.t11, s.t12⟩
  let s := { s with t1 := q.a, t6 := q.b, t11 := q.c, t12 := q.d }
  let q := quarterround ⟨s.t2, s.t7, s.t8, s.t13⟩
  let s := { s with t2 := q.a, t7 := q.b, t8 := q.c, t13 := q.d }
  let q := quarterround ⟨s.t3, s.t4, s.t9, s.t14⟩
  { s with t3 := q.a, t4 := q.b, t9 := q.c, t14 := q.d }

def roundsLoop : Nat → Chacha → Chacha
  | 0, s => s
  | i + 1, s => roundsLoop i (tworounds s)

/-- `chacha20_rounds` -/
def rounds (s : Chacha) : Chacha := roundsLoop 10 s

/-- The words of a block of the stream: `pool[j] + input[j]`. -/
def pool (input : Chacha) : List UInt32 := List.zipWith (· + ·) (rounds input).words input.words

/-- The next block. -/
def advance (input : Chacha) : Chacha :=
  { input with
    t12 := input.t12 + 1
    t13 := if input.t12 + 1 = 0 then input.t13 + 1 else input.t13 }

end Chacha

open Chacha

def chacha20_constant : List UInt8 := ascii "expand 32-byte k"

/-- The input of the rounds. -/
def chachainput (key : Bytes 32) (nonce : Bytes 8) (ctr : UInt64) : Chacha where
  t0 := load32le chacha20_constant
  t1 := load32le (chacha20_constant.drop 4)
  t2 := load32le (chacha20_constant.drop 8)
  t3 := load32le (chacha20_constant.drop 12)
  t4 := load32le key.val
  t5 := load32le (key.val.drop 4)
  t6 := load32le (key.val.drop 8)
  t7 := load32le (key.val.drop 12)
  t8 := load32le (key.val.drop 16)
  t9 := load32le (key.val.drop 20)
  t10 := load32le (key.val.drop 24)
  t11 := load32le (key.val.drop 28)
  t12 := ctr.toUInt32
  t13 := (ctr >>> 32).toUInt32
  t14 := load32le nonce.val
  t15 := load32le (nonce.val.drop 4)

/-- The words of a whole block, with those of the text. -/
def xorwords : List UInt32 → List UInt8 → List UInt8
  | [], _ => []
  | p :: ps, text => store32le (p ^^^ load32le text) ++ xorwords ps (text.drop 4)

/-- The whole blocks.  There may be no text. -/
def djbLoop : Nat → Chacha → Option (List UInt8) → List UInt8 × Chacha
  | 0, input, _ => ([], input)
  | n + 1, input, text =>
    let block := text.elim ((pool input).flatMap store32le) (xorwords (pool input) <| ·.take 64)
    let rest := djbLoop n (advance input) (text.map (·.drop 64))
    (block ++ rest.1, rest.2)

/-- `chacha20_djb`: what it writes, and the counter that it returns. -/
def chacha20djb (text : Option (List UInt8)) (size : Nat) (key : Bytes 32) (nonce : Bytes 8)
    (ctr : UInt64) : List UInt8 × UInt64 :=
  let whole := djbLoop (size / 64) (chachainput key nonce ctr) text
  let input := whole.2
  let last := size % 64
  let plain := text.elim (List.replicate 128 0) (·.drop (64 * (size / 64)))
  let tail := if last > 0 then
      List.zipWith (· ^^^ ·) (((pool input).flatMap store32le).take last) (plain.take last)
    else []
  (whole.1 ++ tail,
    input.t12.toUInt64 + (input.t13.toUInt64 <<< 32) + if last > 0 then 1 else 0)

/-! ## The stream -/

/-- The block of a counter. -/
def keyblock (key : Bytes 32) (nonce : Bytes 8) (ctr : UInt64) : List UInt8 :=
  (pool (chachainput key nonce ctr)).flatMap store32le

/-- `n` blocks from a counter on. -/
def keystream (key : Bytes 32) (nonce : Bytes 8) : Nat → UInt64 → List UInt8
  | 0, _ => []
  | n + 1, ctr => keyblock key nonce ctr ++ keystream key nonce n (ctr + 1)

/-- The exclusive or of two texts. -/
def xorBytes (a b : List UInt8) : List UInt8 := List.zipWith (· ^^^ ·) a b

section

theorem length_flatMap_store (ps : List UInt32) :
    (ps.flatMap store32le).length = 4 * ps.length := by
  induction ps with
  | nil => rfl
  | cons p ps ih =>
    rw [List.flatMap_cons, List.length_append, ih, length_store32le, List.length_cons]
    omega

theorem length_pool (input : Chacha) : (pool input).length = 16 := by
  rw [pool, List.length_zipWith]
  rfl

@[simp] theorem length_keyblock (key : Bytes 32) (nonce : Bytes 8) (ctr : UInt64) :
    (keyblock key nonce ctr).length = 64 := by
  rw [keyblock, length_flatMap_store, length_pool]

@[simp] theorem length_keystream (key : Bytes 32) (nonce : Bytes 8) (n : Nat) (ctr : UInt64) :
    (keystream key nonce n ctr).length = 64 * n := by
  induction n generalizing ctr with
  | zero => rfl
  | succ n ih =>
    rw [keystream, List.length_append, length_keyblock, ih]
    omega

/-- A whole block, word by word and byte by byte. -/
theorem xorwords_eq {ps : List UInt32} {text : List UInt8} (h : text.length = 4 * ps.length) :
    xorwords ps text = xorBytes (ps.flatMap store32le) text := by
  induction ps generalizing text with
  | nil => rfl
  | cons p ps ih =>
    rw [List.length_cons] at h
    have hdrop : (text.drop 4).length = 4 * ps.length := by
      rw [List.length_drop]
      omega
    have htake : (text.take 4).length = 4 := by
      rw [List.length_take]
      omega
    rw [xorwords, ih hdrop, store32le_xor, store32le_load (by omega), List.flatMap_cons]
    conv_rhs => rw [← List.take_append_drop 4 text]
    rw [xorBytes, xorBytes, List.zipWith_append (by rw [length_store32le, htake])]

/-- The two words count as one counter. -/
theorem advance_input (key : Bytes 32) (nonce : Bytes 8) (ctr : UInt64) :
    advance (chachainput key nonce ctr) = chachainput key nonce (ctr + 1) := by
  have hc := ctr.toNat_lt
  have hadd : (ctr + 1).toNat = (ctr.toNat + 1) % 2 ^ 64 := UInt64.toNat_add ctr 1
  have hlow : (ctr.toUInt32 + 1).toNat = (ctr.toNat % 2 ^ 32 + 1) % 2 ^ 32 := by
    rw [← toNat_low]
    exact UInt32.toNat_add ctr.toUInt32 1
  have h12 : ctr.toUInt32 + 1 = (ctr + 1).toUInt32 := by
    apply UInt32.toNat_inj.mp
    rw [hlow, toNat_low, hadd]
    omega
  have h13 : (if ctr.toUInt32 + 1 = 0 then (ctr >>> 32).toUInt32 + 1 else (ctr >>> 32).toUInt32) =
      ((ctr + 1) >>> 32).toUInt32 := by
    apply UInt32.toNat_inj.mp
    rw [toNat_high, hadd]
    split
    · rename_i hzero
      have hz : (ctr.toNat % 2 ^ 32 + 1) % 2 ^ 32 = 0 := by
        rw [← hlow, hzero]
        rfl
      have hsucc : ((ctr >>> 32).toUInt32 + 1).toNat = (ctr.toNat / 2 ^ 32 + 1) % 2 ^ 32 := by
        rw [← toNat_high]
        exact UInt32.toNat_add _ 1
      rw [hsucc]
      omega
    · rename_i hzero
      have hz : (ctr.toNat % 2 ^ 32 + 1) % 2 ^ 32 ≠ 0 := by
        intro hz
        apply hzero
        apply UInt32.toNat_inj.mp
        rw [hlow, hz]
        rfl
      rw [toNat_high]
      omega
  rw [h12] at h13
  simp only [advance, chachainput, h12, h13]

variable {key : Bytes 32} {nonce : Bytes 8}

theorem ofNat_zero (ctr : UInt64) : ctr + UInt64.ofNat 0 = ctr := UInt64.add_zero ctr

theorem ofNat_succ (ctr : UInt64) (n : Nat) :
    ctr + 1 + UInt64.ofNat n = ctr + UInt64.ofNat (n + 1) := by
  rw [UInt64.ofNat_add, UInt64.add_assoc, UInt64.add_comm 1]
  rfl

/-- The whole blocks of a text. -/
theorem djbLoop_some (n : Nat) : ∀ {ctr : UInt64} {text : List UInt8}, 64 * n ≤ text.length →
    djbLoop n (chachainput key nonce ctr) (some text) =
      (xorBytes (keystream key nonce n ctr) (text.take (64 * n)),
        chachainput key nonce (ctr + UInt64.ofNat n)) := by
  induction n with
  | zero =>
    intro ctr text _
    rw [djbLoop, keystream, ofNat_zero]
    rfl
  | succ n ih =>
    intro ctr text h
    have htake : (text.take 64).length = 64 := by
      rw [List.length_take]
      omega
    have hdrop : 64 * n ≤ (text.drop 64).length := by
      rw [List.length_drop]
      omega
    have hsplit : text.take (64 * (n + 1)) = text.take 64 ++ (text.drop 64).take (64 * n) := by
      rw [Nat.mul_add, Nat.mul_one, Nat.add_comm, List.take_add]
    rw [djbLoop]
    simp only [Option.elim_some, Option.map_some, advance_input, ih hdrop]
    rw [xorwords_eq (by rw [htake, length_pool]), keystream, hsplit, ofNat_succ, xorBytes, xorBytes,
      xorBytes, List.zipWith_append (by rw [length_keyblock, htake])]
    rfl

/-- The blocks of the stream itself. -/
theorem djbLoop_none (n : Nat) : ∀ {ctr : UInt64},
    djbLoop n (chachainput key nonce ctr) none =
      (keystream key nonce n ctr, chachainput key nonce (ctr + UInt64.ofNat n)) := by
  induction n with
  | zero =>
    intro ctr
    rw [djbLoop, keystream, ofNat_zero]
  | succ n ih =>
    intro ctr
    rw [djbLoop]
    simp only [Option.elim_none, Option.map_none, advance_input, ih]
    rw [keystream, ofNat_succ]
    rfl

/-- A counter and its two words. -/
theorem halves (ctr : UInt64) :
    ctr.toUInt32.toUInt64 + ((ctr >>> 32).toUInt32.toUInt64 <<< 32) = ctr := by
  have hc := ctr.toNat_lt
  apply UInt64.toNat_inj.mp
  rw [UInt64.toNat_add, toNat_shiftLeft32, UInt32.toNat_toUInt64, toNat_low, toNat_high]
  omega

theorem counter_input (ctr : UInt64) :
    (chachainput key nonce ctr).t12.toUInt64 + ((chachainput key nonce ctr).t13.toUInt64 <<< 32) =
      ctr := halves ctr

/-- One more block. -/
theorem keystream_succ (n : Nat) : ∀ {ctr : UInt64}, keystream key nonce (n + 1) ctr =
    keystream key nonce n ctr ++ keyblock key nonce (ctr + UInt64.ofNat n) := by
  induction n with
  | zero =>
    intro ctr
    rw [keystream, keystream, keystream, ofNat_zero, List.append_nil, List.nil_append]
  | succ n ih =>
    intro ctr
    rw [keystream, ih, ofNat_succ, keystream, List.append_assoc]

/-- The number of blocks that a text takes. -/
def blocksFor (size : Nat) : Nat := (size + 63) / 64

/-- `chacha20_djb` on a text. -/
theorem chacha20djb_text (text : List UInt8) (ctr : UInt64) :
    chacha20djb (some text) text.length key nonce ctr =
      (xorBytes (keystream key nonce (blocksFor text.length) ctr) text,
        ctr + UInt64.ofNat (blocksFor text.length)) := by
  have hmul : 64 * (text.length / 64) ≤ text.length := Nat.mul_div_le _ _
  have hlast : (text.drop (64 * (text.length / 64))).length = text.length % 64 := by
    rw [List.length_drop]
    omega
  unfold chacha20djb
  simp only [djbLoop_some _ hmul, counter_input, Option.elim_some]
  split
  · rename_i hpos
    have hblocks : blocksFor text.length = text.length / 64 + 1 := by
      rw [blocksFor]
      omega
    have hlen : (keystream key nonce (text.length / 64) ctr).length =
        (text.take (64 * (text.length / 64))).length := by
      rw [length_keystream, List.length_take, Nat.min_eq_left hmul]
    have htail : List.zipWith (· ^^^ ·)
        ((keyblock key nonce (ctr + UInt64.ofNat (text.length / 64))).take (text.length % 64))
        ((text.drop (64 * (text.length / 64))).take (text.length % 64)) =
        xorBytes (keyblock key nonce (ctr + UInt64.ofNat (text.length / 64)))
          (text.drop (64 * (text.length / 64))) := by
      rw [← List.take_zipWith, List.take_of_length_le]
      · rfl
      · rw [List.length_zipWith, hlast]
        exact Nat.min_le_right _ _
    have hxor : xorBytes (keystream key nonce (text.length / 64) ctr ++
        keyblock key nonce (ctr + UInt64.ofNat (text.length / 64))) text =
        xorBytes (keystream key nonce (text.length / 64) ctr)
          (text.take (64 * (text.length / 64))) ++
          xorBytes (keyblock key nonce (ctr + UInt64.ofNat (text.length / 64)))
            (text.drop (64 * (text.length / 64))) := by
      rw [xorBytes, xorBytes, xorBytes, ← List.zipWith_append hlen, List.take_append_drop]
    rw [hblocks, keystream_succ, hxor, ← htail, UInt64.ofNat_add, ← UInt64.add_assoc]
    rfl
  · rename_i hzero
    have hblocks : blocksFor text.length = text.length / 64 := by
      rw [blocksFor]
      omega
    have hall : 64 * (text.length / 64) = text.length := by omega
    rw [hblocks, hall, List.take_length, List.append_nil, UInt64.add_zero]

/-- `chacha20_djb` without a text. -/
theorem chacha20djb_none (n : Nat) (ctr : UInt64) :
    chacha20djb none (64 * n) key nonce ctr =
      (keystream key nonce n ctr, ctr + UInt64.ofNat n) := by
  have hdiv : 64 * n / 64 = n := by omega
  have hmod : ¬ 64 * n % 64 > 0 := by omega
  unfold chacha20djb
  simp only [hdiv, djbLoop_none, counter_input, if_neg hmod, List.append_nil, UInt64.add_zero]

/-- The stream taken off again. -/
theorem xorBytes_cancel {a b : List UInt8} (h : b.length ≤ a.length) :
    xorBytes a (xorBytes a b) = b := by
  induction a generalizing b with
  | nil =>
    rw [List.length_eq_zero_iff.mp (Nat.le_zero.mp h)]
    rfl
  | cons x a ih =>
    cases b with
    | nil => rfl
    | cons y b =>
      rw [List.length_cons, List.length_cons] at h
      have hbyte : x ^^^ (x ^^^ y) = y := by
        rw [← UInt8.xor_assoc, UInt8.xor_self, UInt8.zero_xor]
      have hrest : xorBytes a (xorBytes a b) = b := ih (by omega)
      show (x ^^^ (x ^^^ y)) :: xorBytes a (xorBytes a b) = _
      rw [hbyte, hrest]

theorem length_xorBytes {a b : List UInt8} (h : b.length ≤ a.length) :
    (xorBytes a b).length = b.length := by
  rw [xorBytes, List.length_zipWith, Nat.min_eq_right h]

theorem length_blocksFor (size : Nat) : size ≤ 64 * blocksFor size := by
  rw [blocksFor]
  omega

end

end Agecrypt
