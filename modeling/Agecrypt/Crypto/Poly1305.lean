import Agecrypt.Lib.Blockwise
import Agecrypt.Lib.Bytes
import Agecrypt.Lib.LittleEndian

/-!
# The authenticator of `crypto/chacha20poly1305.c`

A context holds the bytes of the chunk that is not full, the two halves of
the key, and the hash of the full chunks.  `poly1305` is the authenticator of
a whole text.  Whatever the pieces in which a text comes, `poly1305update`
and `poly1305final` stay inside the chunk and answer `poly1305` of the text.

The limbs are words that wrap as they do in the source: `s4 * rr0` and the
like are products of two words of 32 bits.
-/

namespace Agecrypt

/-- The accumulated hash. -/
structure Limbs where
  h0 : UInt32
  h1 : UInt32
  h2 : UInt32
  h3 : UInt32
  h4 : UInt32
deriving DecidableEq, Repr

/-- Half of a key. -/
structure Half where
  w0 : UInt32
  w1 : UInt32
  w2 : UInt32
  w3 : UInt32
deriving DecidableEq, Repr

/-- `poly1305_ctx` -/
structure Poly1305ctx where
  c : Bytes 16
  cidx : Nat
  r : Half
  pad : Half
  h : Limbs
deriving DecidableEq, Repr

def gap (x pow2 : UInt64) : UInt64 := (~~~x + 1) &&& (pow2 - 1)

/-- A block of `poly_blocks`. -/
def polyblock (r : Half) (last : UInt32) (h : Limbs) (inp : List UInt8) : Limbs :=
  let rr0 := (r.w0 >>> 2) * 5
  let rr1 := (r.w1 >>> 2) + r.w1
  let rr2 := (r.w2 >>> 2) + r.w2
  let rr3 := (r.w3 >>> 2) + r.w3
  let rr4 := r.w0 &&& 3
  let s0 := h.h0.toUInt64 + (load32le inp).toUInt64
  let s1 := h.h1.toUInt64 + (load32le (inp.drop 4)).toUInt64
  let s2 := h.h2.toUInt64 + (load32le (inp.drop 8)).toUInt64
  let s3 := h.h3.toUInt64 + (load32le (inp.drop 12)).toUInt64
  let s4 := h.h4 + last
  let x0 := s0 * r.w0.toUInt64 + s1 * rr3.toUInt64 + (s2 * rr2.toUInt64 + s3 * rr1.toUInt64) +
    (s4 * rr0).toUInt64
  let x1 := s0 * r.w1.toUInt64 + s1 * r.w0.toUInt64 + (s2 * rr3.toUInt64 + s3 * rr2.toUInt64) +
    (s4 * rr1).toUInt64
  let x2 := s0 * r.w2.toUInt64 + s1 * r.w1.toUInt64 + (s2 * r.w0.toUInt64 + s3 * rr3.toUInt64) +
    (s4 * rr2).toUInt64
  let x3 := s0 * r.w3.toUInt64 + s1 * r.w2.toUInt64 + (s2 * r.w1.toUInt64 + s3 * r.w0.toUInt64) +
    (s4 * rr3).toUInt64
  let x4 := s4 * rr4
  -- the reduction, with `u5` and `u4` cut to words
  let mask : UInt64 := 0xffffffff
  let u5 := (x4.toUInt64 + (x3 >>> 32)).toUInt32
  let u0 := ((u5 >>> 2) * 5).toUInt64 + (x0 &&& mask)
  let u1 := (u0 >>> 32) + (x1 &&& mask) + (x0 >>> 32)
  let u2 := (u1 >>> 32) + (x2 &&& mask) + (x1 >>> 32)
  let u3 := (u2 >>> 32) + (x3 &&& mask) + (x2 >>> 32)
  let u4 := ((u3 >>> 32) + (u5 &&& 3).toUInt64).toUInt32
  ⟨(u0 &&& mask).toUInt32, (u1 &&& mask).toUInt32, (u2 &&& mask).toUInt32,
    (u3 &&& mask).toUInt32, u4⟩

/-- `poly_blocks` -/
def polyblocks (r : Half) (h : Limbs) (inp : List UInt8) (nbblocks : Nat) (last : UInt32) : Limbs :=
  Blockwise.runN 16 (polyblock r last) nbblocks h inp

/-- The multiplier of a key, with the bits that are cleared. -/
def polyr (key : Bytes 32) : Half where
  w0 := load32le key.val &&& 0x0fffffff
  w1 := load32le (key.val.drop 4) &&& 0x0ffffffc
  w2 := load32le (key.val.drop 8) &&& 0x0ffffffc
  w3 := load32le (key.val.drop 12) &&& 0x0ffffffc

def polypad (key : Bytes 32) : Half where
  w0 := load32le (key.val.drop 16)
  w1 := load32le (key.val.drop 20)
  w2 := load32le (key.val.drop 24)
  w3 := load32le (key.val.drop 28)

/-- The chunk is not set. -/
def poly1305init (junk : Bytes 16) (key : Bytes 32) : Poly1305ctx :=
  ⟨junk, 0, polyr key, polypad key, ⟨0, 0, 0, 0, 0⟩⟩

/-- The whole blocks of a message, and the bytes behind them. -/
def polywhole (s : Poly1305ctx) (message : List UInt8) : Option Poly1305ctx := do
  let nbblocks := message.length / 16
  let rest := message.drop (16 * nbblocks)
  let c ← s.c.store s.cidx rest
  return { s with
    c := c
    cidx := s.cidx + rest.length
    h := polyblocks s.r s.h message nbblocks 1 }

/-- The bytes up to the end of the chunk, and the chunk when it is full. -/
def polyalign (s : Poly1305ctx) (front : List UInt8) : Option Poly1305ctx := do
  let c ← s.c.store s.cidx front
  let s := { s with c := c, cidx := s.cidx + front.length }
  return if s.cidx = 16 then { s with cidx := 0, h := polyblocks s.r s.h s.c.val 1 1 } else s

def poly1305update (s : Poly1305ctx) (message : List UInt8) : Option Poly1305ctx :=
  if message.length = 0 then some s
  else
    let aligned := min (gap (UInt64.ofNat s.cidx) 16).toNat message.length
    polyalign s (message.take aligned) >>= (polywhole · (message.drop aligned))

/-- The carry out of `h + 5`, as the multiple of 5 that is added. -/
def polycarry (h : Limbs) : UInt64 :=
  let c := (5 + h.h0.toUInt64) >>> 32
  let c := (c + h.h1.toUInt64) >>> 32
  let c := (c + h.h2.toUInt64) >>> 32
  let c := (c + h.h3.toUInt64) >>> 32
  let c := c + h.h4.toUInt64
  (c >>> 2) * 5

/-- The end of `poly1305_final`. -/
def polymac (pad : Half) (h : Limbs) : Bytes 16 :=
  let c0 := polycarry h + (h.h0.toUInt64 + pad.w0.toUInt64)
  let c1 := (c0 >>> 32) + (h.h1.toUInt64 + pad.w1.toUInt64)
  let c2 := (c1 >>> 32) + (h.h2.toUInt64 + pad.w2.toUInt64)
  let c3 := (c2 >>> 32) + (h.h3.toUInt64 + pad.w3.toUInt64)
  ⟨store32le c0.toUInt32 ++ store32le c1.toUInt32 ++ store32le c2.toUInt32 ++
    store32le c3.toUInt32, rfl⟩

def poly1305final (s : Poly1305ctx) : Option (Bytes 16) :=
  if s.cidx ≠ 0 then do
    let c ← s.c.store s.cidx (List.replicate (16 - s.cidx) 0)
    let c ← c.store s.cidx [1]
    return polymac s.pad (polyblocks s.r s.h c.val 1 0)
  else some (polymac s.pad s.h)

/-! ## The authenticator of a text -/

/-- The hash of the full blocks. -/
def polyhash (key : Bytes 32) (m : List UInt8) : Limbs :=
  Blockwise.run 16 (polyblock (polyr key) 1) ⟨0, 0, 0, 0, 0⟩ m

/-- A last block that is not full ends in a one and zeros. -/
def polylast (key : Bytes 32) (h : Limbs) (rest : List UInt8) : Limbs :=
  if rest = [] then h
  else polyblock (polyr key) 0 h (rest ++ 1 :: List.replicate (15 - rest.length) 0)

def poly1305 (key : Bytes 32) (m : List UInt8) : Bytes 16 :=
  polymac (polypad key) (polylast key (polyhash key m) (Blockwise.rest 16 m))

example : poly1305 ⟨[0x85, 0xd6, 0xbe, 0x78, 0x57, 0x55, 0x6d, 0x33, 0x7f, 0x44, 0x52, 0xfe, 0x42,
    0xd5, 0x06, 0xa8, 0x01, 0x03, 0x80, 0x8a, 0xfb, 0x0d, 0xb2, 0xfd, 0x4a, 0xbf, 0xf6, 0xaf, 0x41,
    0x49, 0xf5, 0x1b], rfl⟩ (ascii "Cryptographic Forum Research Group") =
    ⟨[0xa8, 0x06, 0x1d, 0xc1, 0x30, 0x51, 0x36, 0xc6, 0xc2, 0x2b, 0x8b, 0xaf, 0x0c, 0x01, 0x27,
      0xa9], rfl⟩ := by decide +kernel

/-- The context has the key and has been given `m`. -/
structure Authenticated (s : Poly1305ctx) (key : Bytes 32) (m : List UInt8) : Prop where
  r : s.r = polyr key
  pad : s.pad = polypad key
  h : s.h = polyhash key m
  cidx : s.cidx = m.length % 16
  c : s.c.window 0 s.cidx = Blockwise.rest 16 m

section

variable {s s' : Poly1305ctx} {key : Bytes 32} {m p : List UInt8}

theorem toNat_gap {n : Nat} : (gap (UInt64.ofNat n) 16).toNat = (16 - n % 16) % 16 := by
  have hmask : (16 - 1 : UInt64).toNat = 2 ^ 4 - 1 := by decide
  have hone : (1 : UInt64).toNat = 1 := rfl
  have hn : (UInt64.ofNat n).toNat = n % 2 ^ 64 := UInt64.toNat_ofNat'
  have hlt : n % 2 ^ 64 < 2 ^ 64 := Nat.mod_lt _ (by decide)
  rw [gap, UInt64.toNat_and, hmask, Nat.and_two_pow_sub_one_eq_mod, UInt64.toNat_add, hone,
    UInt64.toNat_not, hn]
  show (2 ^ 64 - 1 - n % 2 ^ 64 + 1) % 2 ^ 64 % 2 ^ 4 = _
  omega

theorem authenticated_init (junk : Bytes 16) (key : Bytes 32) :
    Authenticated (poly1305init junk key) key [] :=
  ⟨rfl, rfl, rfl, rfl, Bytes.window_self _ 0⟩

theorem Authenticated.length_rest (h : Authenticated s key m) :
    (Blockwise.rest 16 m).length = s.cidx := by
  rw [Blockwise.length_rest, h.cidx]

theorem Authenticated.cidx_lt (h : Authenticated s key m) : s.cidx < 16 := by
  rw [h.cidx]
  exact Nat.mod_lt _ (by decide)

/-- The first bytes of a piece, up to the end of the chunk at most. -/
theorem polyalign_spec (h : Authenticated s key m) (hp : s.cidx + p.length ≤ 16) :
    ∃ s', polyalign s p = some s' ∧ Authenticated s' key (m ++ p) := by
  have hpos : 0 < 16 := by decide
  have hrest := h.length_rest
  have hidx := h.cidx
  obtain ⟨c, hstore⟩ := Bytes.store_isSome s.c s.cidx p hp
  have hwin := Bytes.window_store_append hstore (Nat.zero_le _)
  rw [h.c] at hwin
  rw [polyalign, hstore]
  by_cases hfull : s.cidx + p.length = 16
  · -- the chunk is full
    have hfill : 16 ≤ (Blockwise.rest 16 m).length + p.length := by omega
    have hsub : 16 - (Blockwise.rest 16 m).length = p.length := by omega
    have hval : c.val = Blockwise.rest 16 m ++ p := by
      rw [hfull, Bytes.window_full] at hwin
      exact hwin
    refine ⟨{ s with
      c := c
      cidx := 0
      h := polyblocks s.r s.h c.val 1 1 }, ?_, h.r, h.pad, ?_, ?_, ?_⟩
    · show some (if s.cidx + p.length = 16 then _ else _) = _
      rw [if_pos hfull]
    · show polyblocks s.r s.h c.val 1 1 = _
      rw [polyhash, Blockwise.run_fill hpos hfill, hsub, List.take_length, List.drop_length,
        Blockwise.run_short hpos, polyblocks, Blockwise.runN, Blockwise.runN, hval, h.r, h.h,
        polyhash, List.take_of_length_le (by rw [List.length_append]; omega)]
    · show 0 = _
      rw [List.length_append]
      omega
    · rw [Blockwise.rest_fill hpos hfill, hsub, List.drop_length, Blockwise.rest_short hpos]
      exact Bytes.window_self _ 0
  · have hkeep : (Blockwise.rest 16 m).length + p.length < 16 := by omega
    refine ⟨{ s with
      c := c
      cidx := s.cidx + p.length }, ?_, h.r, h.pad, ?_, ?_, ?_⟩
    · show some (if s.cidx + p.length = 16 then _ else _) = _
      rw [if_neg hfull]
    · show s.h = _
      rw [polyhash, Blockwise.run_keep hpos hkeep, h.h, polyhash]
    · show s.cidx + p.length = _
      rw [List.length_append]
      omega
    · rw [Blockwise.rest_keep hpos hkeep]
      exact hwin

/-- The whole blocks and what is behind them. -/
theorem polywhole_eq (hr : s.r = polyr key) (hpad : s.pad = polypad key)
    (hfit : s.cidx + (Blockwise.rest 16 p).length < 16)
    (hh : Blockwise.run 16 (polyblock (polyr key) 1) s.h p = polyhash key m)
    (hc : s.c.window 0 s.cidx ++ Blockwise.rest 16 p = Blockwise.rest 16 m) :
    ∃ s', polywhole s p = some s' ∧ Authenticated s' key m := by
  obtain ⟨c, hstore⟩ := Bytes.store_isSome s.c s.cidx (Blockwise.rest 16 p) (by omega)
  have hwin := Bytes.window_store_append hstore (Nat.zero_le _)
  have hlen := congrArg List.length hc
  rw [List.length_append, Bytes.length_window _ (by omega), Nat.sub_zero,
    @Blockwise.length_rest _ 16 m] at hlen
  refine ⟨{ s with
    c := c
    cidx := s.cidx + (Blockwise.rest 16 p).length
    h := Blockwise.run 16 (polyblock s.r 1) s.h p }, ?_, hr, hpad, ?_, hlen, ?_⟩
  · rw [polywhole]
    show s.c.store s.cidx (Blockwise.rest 16 p) >>= _ = _
    rw [hstore]
    rfl
  · show Blockwise.run 16 (polyblock s.r 1) s.h p = _
    rw [hr, hh]
  · show c.window 0 (s.cidx + (Blockwise.rest 16 p).length) = _
    rw [hwin, hc]

/-- They come from an empty chunk, or there are none. -/
theorem polywhole_spec (h : Authenticated s key m) (hp : s.cidx = 0 ∨ p = []) :
    ∃ s', polywhole s p = some s' ∧ Authenticated s' key (m ++ p) := by
  have hpos : 0 < 16 := by decide
  have hlt := @Blockwise.length_rest_lt _ 16 p hpos
  have hidx := h.cidx_lt
  rcases hp with hzero | rfl
  · have hnil : Blockwise.rest 16 m = [] := List.length_eq_zero_iff.mp (h.length_rest.trans hzero)
    apply polywhole_eq h.r h.pad
    · omega
    · rw [polyhash, Blockwise.run_append hpos, hnil, List.nil_append, h.h, polyhash]
    · rw [h.c, hnil, Blockwise.rest_append hpos, hnil]
      rfl
  · rw [List.append_nil]
    apply polywhole_eq h.r h.pad
    · rw [Blockwise.rest_short hpos]
      exact hidx
    · rw [Blockwise.run_short hpos, h.h]
    · rw [Blockwise.rest_short hpos, List.append_nil, h.c]

/-- `poly1305update` stays inside the chunk and takes the piece. -/
theorem poly1305update_spec (h : Authenticated s key m) (p : List UInt8) :
    ∃ s', poly1305update s p = some s' ∧ Authenticated s' key (m ++ p) := by
  have hidx := h.cidx
  have hgap := @toNat_gap s.cidx
  unfold poly1305update
  split
  · rename_i hzero
    rw [List.length_eq_zero_iff.mp hzero, List.append_nil]
    exact ⟨s, rfl, h⟩
  dsimp only
  generalize hal : min (gap (UInt64.ofNat s.cidx) 16).toNat p.length = aligned
  rw [hgap] at hal
  have htake : (p.take aligned).length = aligned := by
    rw [List.length_take]
    omega
  obtain ⟨s₁, h₁, hauth₁⟩ := @polyalign_spec s key m (p.take aligned) h (by omega)
  have hidx₁ := hauth₁.cidx
  rw [List.length_append, htake] at hidx₁
  have hbehind : s₁.cidx = 0 ∨ p.drop aligned = [] := by
    by_cases hall : aligned = p.length
    · right
      rw [hall, List.drop_length]
    · left
      omega
  obtain ⟨s', h', hauth'⟩ := polywhole_spec hauth₁ hbehind
  rw [List.append_assoc, List.take_append_drop] at hauth'
  refine ⟨s', ?_, hauth'⟩
  rw [h₁]
  exact h'

/-- The authenticator of what the context has been given. -/
theorem poly1305final_spec (h : Authenticated s key m) :
    poly1305final s = some (poly1305 key m) := by
  have hrest := h.length_rest
  have hidx := h.cidx_lt
  unfold poly1305final
  split
  · rename_i hsome
    have hne : Blockwise.rest 16 m ≠ [] := by
      intro hnil
      rw [hnil] at hrest
      exact hsome hrest.symm
    obtain ⟨c₁, h₁⟩ := Bytes.store_isSome s.c s.cidx (List.replicate (16 - s.cidx) 0)
      (by rw [List.length_replicate]; omega)
    obtain ⟨c₂, h₂⟩ := Bytes.store_isSome c₁ s.cidx [1] hidx
    have hwin₁ := Bytes.window_store_append h₁ (Nat.zero_le _)
    rw [List.length_replicate, Nat.add_sub_cancel' (Nat.le_of_lt hidx), Bytes.window_full, h.c]
      at hwin₁
    have hzeros : (List.replicate (16 - s.cidx) (0 : UInt8)).drop 1 =
        List.replicate (15 - s.cidx) 0 := by
      rw [List.drop_replicate]
      congr 1
      omega
    have hval : c₂.val = Blockwise.rest 16 m ++ 1 :: List.replicate (15 - s.cidx) 0 := by
      rw [Bytes.store_val h₂, hwin₁, ← hrest, List.take_left, ← List.drop_drop, List.drop_left,
        hrest, List.length_singleton, hzeros, List.append_assoc]
      rfl
    have hlen : c₂.val.length ≤ 16 := Nat.le_of_eq c₂.size_eq
    rw [h₁]
    show (c₁.store s.cidx [1] >>= _) = _
    rw [h₂]
    show some (polymac s.pad (polyblocks s.r s.h c₂.val 1 0)) = _
    rw [poly1305, polylast, if_neg hne, polyblocks, Blockwise.runN, Blockwise.runN, h.r, h.pad, h.h,
      List.take_of_length_le hlen, hval, hrest]
  · rename_i hnone
    have hnil : Blockwise.rest 16 m = [] :=
      List.length_eq_zero_iff.mp (hrest.trans (Decidable.not_not.mp hnone))
    rw [poly1305, polylast, if_pos hnil, h.pad, h.h]

end

end Agecrypt
