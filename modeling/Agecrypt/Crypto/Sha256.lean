import Agecrypt.Lib.Blockwise
import Agecrypt.Lib.Bytes

/-!
# `crypto/sha256.c`

A context holds the length of the text so far, the hash of its full blocks,
and the bytes of the block that is not full.  `sha256` is the hash of a whole
text: the padded text, block by block.

Whatever the pieces in which a text comes, `sha256update` and `sha256final`
stay inside the buffer and answer `sha256` of the text.  The length is kept
modulo `2 ^ 64`, and the padding ends in the number of bits modulo `2 ^ 64`.
-/

namespace Agecrypt

namespace Sha256

def ror (n k : UInt32) : UInt32 := (n >>> k) ||| (n <<< (32 - k))
def Ch (x y z : UInt32) : UInt32 := z ^^^ (x &&& (y ^^^ z))
def Maj (x y z : UInt32) : UInt32 := (x &&& y) ||| (z &&& (x ||| y))
def S0 (x : UInt32) : UInt32 := ror x 2 ^^^ ror x 13 ^^^ ror x 22
def S1 (x : UInt32) : UInt32 := ror x 6 ^^^ ror x 11 ^^^ ror x 25
def R0 (x : UInt32) : UInt32 := ror x 7 ^^^ ror x 18 ^^^ (x >>> 3)
def R1 (x : UInt32) : UInt32 := ror x 17 ^^^ ror x 19 ^^^ (x >>> 10)

def K : List UInt32 := [
  0x428a2f98, 0x71374491, 0xb5c0fbcf, 0xe9b5dba5, 0x3956c25b, 0x59f111f1, 0x923f82a4, 0xab1c5ed5,
  0xd807aa98, 0x12835b01, 0x243185be, 0x550c7dc3, 0x72be5d74, 0x80deb1fe, 0x9bdc06a7, 0xc19bf174,
  0xe49b69c1, 0xefbe4786, 0x0fc19dc6, 0x240ca1cc, 0x2de92c6f, 0x4a7484aa, 0x5cb0a9dc, 0x76f988da,
  0x983e5152, 0xa831c66d, 0xb00327c8, 0xbf597fc7, 0xc6e00bf3, 0xd5a79147, 0x06ca6351, 0x14292967,
  0x27b70a85, 0x2e1b2138, 0x4d2c6dfc, 0x53380d13, 0x650a7354, 0x766a0abb, 0x81c2c92e, 0x92722c85,
  0xa2bfe8a1, 0xa81a664b, 0xc24b8b70, 0xc76c51a3, 0xd192e819, 0xd6990624, 0xf40e3585, 0x106aa070,
  0x19a4c116, 0x1e376c08, 0x2748774c, 0x34b0bcb5, 0x391c0cb3, 0x4ed8aa4a, 0x5b9cca4f, 0x682e6ff3,
  0x748f82ee, 0x78a5636f, 0x84c87814, 0x8cc70208, 0x90befffa, 0xa4506ceb, 0xbef9a3f7, 0xc67178f2]

/-- The hash state `h[8]`, and the working variables of a block. -/
@[ext]
structure Words where
  a : UInt32
  b : UInt32
  c : UInt32
  d : UInt32
  e : UInt32
  f : UInt32
  g : UInt32
  h : UInt32
deriving DecidableEq, Repr

/-- The words of a block, most significant byte first. -/
def words : List UInt8 → List UInt32
  | b₀ :: b₁ :: b₂ :: b₃ :: bs =>
    (b₀.toUInt32 <<< 24 ||| b₁.toUInt32 <<< 16 ||| b₂.toUInt32 <<< 8 ||| b₃.toUInt32) :: words bs
  | _ => []

/-- `n` more words of `W`. -/
def extend : Nat → List UInt32 → List UInt32
  | 0, W => W
  | n + 1, W =>
    let i := W.length
    extend n (W ++ [R1 (W.getD (i - 2) 0) + W.getD (i - 7) 0 + R0 (W.getD (i - 15) 0) +
      W.getD (i - 16) 0])

/-- A round, with `K[i]` and `W[i]`. -/
def round (w : Words) (k : UInt32 × UInt32) : Words :=
  let t1 := w.h + S1 w.e + Ch w.e w.f w.g + k.1 + k.2
  let t2 := S0 w.a + Maj w.a w.b w.c
  ⟨t1 + t2, w.a, w.b, w.c, w.d + t1, w.e, w.f, w.g⟩

def processblock (s : Words) (buf : List UInt8) : Words :=
  let w := (K.zip (extend 48 (words buf))).foldl round s
  ⟨s.a + w.a, s.b + w.b, s.c + w.c, s.d + w.d, s.e + w.e, s.f + w.f, s.g + w.g, s.h + w.h⟩

def H0 : Words :=
  ⟨0x6a09e667, 0xbb67ae85, 0x3c6ef372, 0xa54ff53a, 0x510e527f, 0x9b05688c, 0x1f83d9ab, 0x5be0cd19⟩

/-- A word, most significant byte first. -/
def be32 (w : UInt32) : List UInt8 :=
  [(w >>> 24).toUInt8, (w >>> 16).toUInt8, (w >>> 8).toUInt8, w.toUInt8]

def be64 (n : UInt64) : List UInt8 :=
  [(n >>> 56).toUInt8, (n >>> 48).toUInt8, (n >>> 40).toUInt8, (n >>> 32).toUInt8,
    (n >>> 24).toUInt8, (n >>> 16).toUInt8, (n >>> 8).toUInt8, n.toUInt8]

def digest (s : Words) : Bytes 32 :=
  ⟨be32 s.a ++ be32 s.b ++ be32 s.c ++ be32 s.d ++ be32 s.e ++ be32 s.f ++ be32 s.g ++ be32 s.h,
    rfl⟩

/-- `memset(_, 0, n)` -/
def zeros (n : Nat) : List UInt8 := List.replicate n 0

theorem zeros_add (a b : Nat) : zeros (a + b) = zeros a ++ zeros b :=
  List.replicate_add a b 0

end Sha256

open Sha256

/-! ## The code -/

structure Sha256ctx where
  len : UInt64
  h : Words
  buf : Bytes 64
deriving DecidableEq, Repr

/-- The buffer is not set. -/
def sha256init (junk : Bytes 64) : Sha256ctx := ⟨0, H0, junk⟩

/-- The loop over full blocks and the copy behind it. -/
def sha256blocks (len : UInt64) (h : Words) (buf : Bytes 64) (p : List UInt8) :
    Option Sha256ctx := do
  let st := Blockwise.loop 64 processblock p.length h p
  let buf ← buf.store 0 st.2
  return ⟨len, st.1, buf⟩

def sha256update (s : Sha256ctx) (m : List UInt8) : Option Sha256ctx :=
  let r := (s.len % 64).toNat
  let len := s.len + UInt64.ofNat m.length
  if r ≠ 0 then
    if m.length < 64 - r then do
      let buf ← s.buf.store r m
      return ⟨len, s.h, buf⟩
    else do
      let buf ← s.buf.store r (m.take (64 - r))
      sha256blocks len (processblock s.h buf.val) buf (m.drop (64 - r))
  else sha256blocks len s.h s.buf m

/-- The end of `pad`, with the length in the last eight bytes. -/
def sha256padlen (len : UInt64) (h : Words) (buf : Bytes 64) (r : Nat) : Option Sha256ctx := do
  let buf ← buf.store r (zeros (56 - r))
  let len := len * 8
  let buf ← buf.store 56 (be64 len)
  return ⟨len, processblock h buf.val, buf⟩

/-- `pad` -/
def sha256pad (s : Sha256ctx) : Option Sha256ctx := do
  let r := (s.len % 64).toNat
  let buf ← s.buf.store r [0x80]
  let r := r + 1
  if r > 56 then
    let buf ← buf.store r (zeros (64 - r))
    sha256padlen s.len (processblock s.h buf.val) buf 0
  else sha256padlen s.len s.h buf r

/-- The digest, and the context that is left. -/
def sha256final (s : Sha256ctx) : Option (Bytes 32 × Sha256ctx) := do
  let s ← sha256pad s
  return (digest s.h, s)

/-! ## The hash of a text -/

/-- The text, a one bit, zeros, and the number of bits. -/
def padded (m : List UInt8) : List UInt8 :=
  m ++ ([0x80] ++ zeros ((119 - m.length % 64) % 64) ++ be64 (UInt64.ofNat (8 * m.length)))

def sha256 (m : List UInt8) : Bytes 32 := digest (Blockwise.run 64 processblock H0 (padded m))

/-- The context has been given `m`. -/
structure Absorbed (s : Sha256ctx) (m : List UInt8) : Prop where
  len : s.len = UInt64.ofNat m.length
  h : s.h = Blockwise.run 64 processblock H0 m
  buf : s.buf.window 0 (m.length % 64) = Blockwise.rest 64 m

section

variable {s s' : Sha256ctx} {m p : List UInt8}

theorem Absorbed.pos (h : Absorbed s m) : (s.len % 64).toNat = m.length % 64 := by
  rw [h.len, UInt64.toNat_mod, UInt64.toNat_ofNat']
  show m.length % 2 ^ 64 % 64 = _
  omega

theorem absorbed_init (junk : Bytes 64) : Absorbed (sha256init junk) [] :=
  ⟨rfl, rfl, Bytes.window_self _ 0⟩

theorem length_add (h : Absorbed s m) :
    s.len + UInt64.ofNat p.length = UInt64.ofNat (m ++ p).length := by
  rw [h.len, List.length_append, UInt64.ofNat_add]

/-- The loop and the copy. -/
theorem sha256blocks_spec {len : UInt64} {w : Words} {buf : Bytes 64}
    (hlen : len = UInt64.ofNat m.length) (hrun : Blockwise.run 64 processblock H0 m =
      Blockwise.run 64 processblock w p) (hrest : Blockwise.rest 64 m = Blockwise.rest 64 p) :
    ∃ s', sha256blocks len w buf p = some s' ∧ Absorbed s' m := by
  have hpos : 0 < 64 := by decide
  have hlt := @Blockwise.length_rest_lt _ 64 p hpos
  obtain ⟨buf', hbuf⟩ := Bytes.store_isSome buf 0 (Blockwise.rest 64 p) (by omega)
  refine ⟨⟨len, Blockwise.run 64 processblock w p, buf'⟩, ?_, hlen, hrun.symm, ?_⟩
  · rw [sha256blocks, Blockwise.loop_eq hpos p.length (Nat.le_refl _)]
    show buf.store 0 (Blockwise.rest 64 p) >>= _ = _
    rw [hbuf]
    rfl
  · have hwin := Bytes.window_store_zero hbuf (Nat.zero_le _)
    rw [← hrest, Blockwise.length_rest, List.drop_zero] at hwin
    exact hwin

/-- `sha256update` stays inside the buffer and takes the piece. -/
theorem sha256update_spec (h : Absorbed s m) (p : List UInt8) :
    ∃ s', sha256update s p = some s' ∧ Absorbed s' (m ++ p) := by
  have hpos : 0 < 64 := by decide
  have hlen := @length_add s m p h
  have hr : (Blockwise.rest 64 m).length = m.length % 64 := Blockwise.length_rest
  have hr64 : m.length % 64 < 64 := Nat.mod_lt _ hpos
  unfold sha256update
  rw [h.pos]
  dsimp only
  split
  · split
    · -- the piece does not fill the block
      rename_i hshort
      have hfit : (Blockwise.rest 64 m).length + p.length < 64 := by omega
      obtain ⟨buf', hbuf⟩ := Bytes.store_isSome s.buf (m.length % 64) p (by omega)
      refine ⟨⟨_, s.h, buf'⟩, by rw [hbuf]; rfl, hlen, ?_, ?_⟩
      · rw [Blockwise.run_keep hpos hfit]
        exact h.h
      · have hmod : (m ++ p).length % 64 = m.length % 64 + p.length := by
          rw [List.length_append]
          omega
        rw [Blockwise.rest_keep hpos hfit, hmod]
        show buf'.window 0 _ = _
        rw [Bytes.window_store_append hbuf (Nat.zero_le _), h.buf]
    · -- the piece fills the block
      rename_i hlong
      have hfill : 64 ≤ (Blockwise.rest 64 m).length + p.length := by omega
      have htake : (p.take (64 - m.length % 64)).length = 64 - m.length % 64 := by
        rw [List.length_take]
        omega
      obtain ⟨buf', hbuf⟩ := Bytes.store_isSome s.buf (m.length % 64)
        (p.take (64 - m.length % 64)) (by omega)
      have hval : buf'.val = Blockwise.rest 64 m ++ p.take (64 - m.length % 64) := by
        have hwin := Bytes.window_store_append hbuf (Nat.zero_le _)
        rw [h.buf, htake, Nat.add_sub_cancel' (Nat.le_of_lt hr64)] at hwin
        rw [← hwin, Bytes.window_full]
      rw [hbuf]
      show ∃ s', sha256blocks _ (processblock s.h buf'.val) buf' _ = some s' ∧ _
      apply sha256blocks_spec hlen
      · rw [Blockwise.run_fill hpos hfill, hval, h.h, hr]
      · rw [Blockwise.rest_fill hpos hfill, hr]
  · -- at the start of a block
    rename_i hzero
    have hnil : Blockwise.rest 64 m = [] := List.length_eq_zero_iff.mp (by omega)
    apply sha256blocks_spec hlen
    · rw [Blockwise.run_append hpos, hnil, List.nil_append, h.h]
    · rw [Blockwise.rest_append hpos, hnil, List.nil_append]

/-- The end of the padding. -/
theorem sha256padlen_spec {len : UInt64} {w : Words} {buf : Bytes 64} {r : Nat}
    {pre : List UInt8} (hr : r ≤ 56) (hpre : buf.window 0 r = pre) :
    ∃ s', sha256padlen len w buf r = some s' ∧
      s'.h = processblock w (pre ++ zeros (56 - r) ++ be64 (len * 8)) := by
  have hzeros : (zeros (56 - r)).length = 56 - r := List.length_replicate
  have hbe : (be64 (len * 8)).length = 8 := rfl
  obtain ⟨buf₁, h₁⟩ := Bytes.store_isSome buf r (zeros (56 - r)) (by omega)
  obtain ⟨buf₂, h₂⟩ := Bytes.store_isSome buf₁ 56 (be64 (len * 8)) (by omega)
  refine ⟨⟨len * 8, processblock w buf₂.val, buf₂⟩, ?_, ?_⟩
  · rw [sha256padlen, h₁, Option.bind_eq_bind, Option.bind_some]
    dsimp only
    rw [h₂, Option.bind_some, Option.pure_def]
  · have hwin₁ := Bytes.window_store_append h₁ (Nat.zero_le _)
    have hwin₂ := Bytes.window_store_append h₂ (Nat.zero_le _)
    rw [hzeros, Nat.add_sub_cancel' hr, hpre] at hwin₁
    rw [hbe, hwin₁, Bytes.window_full] at hwin₂
    show processblock w buf₂.val = _
    rw [hwin₂]

/-- `pad` works on the blocks of the padded text. -/
theorem sha256pad_spec (h : Absorbed s m) :
    ∃ s', sha256pad s = some s' ∧ s'.h = Blockwise.run 64 processblock H0 (padded m) := by
  have hpos : 0 < 64 := by decide
  have hr : (Blockwise.rest 64 m).length = m.length % 64 := Blockwise.length_rest
  have hr64 : m.length % 64 < 64 := Nat.mod_lt _ hpos
  have hbits : s.len * 8 = UInt64.ofNat (8 * m.length) := by
    have h8 : UInt64.ofNat 8 = 8 := rfl
    rw [h.len, UInt64.ofNat_mul, h8, UInt64.mul_comm]
  have hbe : (be64 (UInt64.ofNat (8 * m.length))).length = 8 := rfl
  have hzeros : ∀ n, (zeros n).length = n := fun n => List.length_replicate
  obtain ⟨buf₁, h₁⟩ := Bytes.store_isSome s.buf (m.length % 64) [0x80] hr64
  have hwin₁ := Bytes.window_store_append h₁ (Nat.zero_le _)
  rw [h.buf] at hwin₁
  have hrun : Blockwise.run 64 processblock H0 (padded m) = Blockwise.run 64 processblock s.h
      (Blockwise.rest 64 m ++ ([0x80] ++ zeros ((119 - m.length % 64) % 64) ++
        be64 (UInt64.ofNat (8 * m.length)))) := by
    rw [padded, Blockwise.run_append hpos, h.h]
  unfold sha256pad
  dsimp only
  rw [h.pos, h₁, Option.bind_eq_bind, Option.bind_some]
  split
  · -- the length does not fit into this block
    rename_i hlong
    obtain ⟨buf₂, h₂⟩ := Bytes.store_isSome buf₁ (m.length % 64 + 1)
      (zeros (64 - (m.length % 64 + 1))) (by rw [hzeros]; omega)
    have hwin₂ := Bytes.window_store_append h₂ (Nat.zero_le _)
    rw [hzeros, Nat.add_sub_cancel' hr64, Bytes.window_full, show m.length % 64 + 1 =
      m.length % 64 + [(0x80 : UInt8)].length from rfl, hwin₁] at hwin₂
    obtain ⟨s', hs', hh⟩ := @sha256padlen_spec s.len (processblock s.h buf₂.val) buf₂ 0 []
      (Nat.zero_le _) (Bytes.window_self _ 0)
    refine ⟨s', by rw [h₂, Option.bind_some, hs'], ?_⟩
    have hnum : (119 - m.length % 64) % 64 = (64 - (m.length % 64 + 1)) + 56 := by omega
    have hsplit : Blockwise.rest 64 m ++ ([0x80] ++ zeros ((119 - m.length % 64) % 64) ++
        be64 (UInt64.ofNat (8 * m.length))) =
        buf₂.val ++ ((zeros 56 ++ be64 (UInt64.ofNat (8 * m.length))) ++ []) := by
      rw [hwin₂, hnum, zeros_add]
      simp only [List.append_assoc, List.append_nil, List.length_singleton]
    rw [hrun, hsplit, Blockwise.run_block hpos buf₂.size_eq, Blockwise.run_block hpos
      (by rw [List.length_append, hzeros, hbe]), Blockwise.run_short hpos, hh, hbits,
      List.nil_append, Nat.sub_zero]
  · rename_i hshort
    obtain ⟨s', hs', hh⟩ := @sha256padlen_spec s.len s.h buf₁ (m.length % 64 + 1) _ (by omega) hwin₁
    refine ⟨s', hs', ?_⟩
    have hnum : (119 - m.length % 64) % 64 = 56 - (m.length % 64 + 1) := by omega
    rw [hrun, hnum, ← List.append_nil (_ ++ _), Blockwise.run_block hpos
      (by simp only [List.length_append, hr, hzeros, hbe, List.length_singleton]; omega),
      Blockwise.run_short hpos, hh, hbits]
    simp only [List.append_assoc]

/-- The digest of what the context has been given. -/
theorem sha256final_spec (h : Absorbed s m) :
    ∃ s', sha256final s = some (sha256 m, s') := by
  obtain ⟨s', hs', hh⟩ := sha256pad_spec h
  refine ⟨s', ?_⟩
  rw [sha256final, hs', sha256, ← hh]
  rfl

end

/-- The hash of a text that comes in pieces: no piece leads outside the
buffer, and the digest is that of the whole text. -/
theorem sha256_pieces (junk : Bytes 64) (parts : List (List UInt8)) :
    ∃ s s', parts.foldlM sha256update (sha256init junk) = some s ∧
      sha256final s = some (sha256 parts.flatten, s') := by
  obtain ⟨s, hs, habs⟩ := Blockwise.foldlM_pieces sha256update Absorbed
    (fun p h => sha256update_spec h p) parts (absorbed_init junk)
  obtain ⟨s', hs'⟩ := sha256final_spec habs
  exact ⟨s, s', hs, hs'⟩

example : sha256 (ascii "abc") = ⟨[0xba, 0x78, 0x16, 0xbf, 0x8f, 0x01, 0xcf, 0xea, 0x41, 0x41, 0x40,
    0xde, 0x5d, 0xae, 0x22, 0x23, 0xb0, 0x03, 0x61, 0xa3, 0x96, 0x17, 0x7a, 0x9c, 0xb4, 0x10, 0xff,
    0x61, 0xf2, 0x00, 0x15, 0xad], rfl⟩ := by decide +kernel

end Agecrypt
