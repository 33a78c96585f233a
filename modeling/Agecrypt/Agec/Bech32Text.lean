import Agecrypt.Agec.Bech32
import Agecrypt.Lib.Digits
import Mathlib.Tactic.NormNum

/-!
# What `bech32encode` writes, `bech32decode` reads

The two functions share no code.  For the data, both regroup the bits of one
number, and `Agecrypt.Lib.Digits` relates the two groupings.  For the
checksum, a step of `check5bits` is linear over exclusive or, and the six
characters that `encodesum` writes are the difference between the code that
six zeros would lead to and 1.
-/

namespace Agecrypt

open Digits

/-! ## The checksum is linear -/

/-- What one of the five bits that are shifted out adds to the code. -/
def tap (g : BitVec 32) (p : Bool) : BitVec 32 := if p then g else 0#32

private theorem tap_xor (g : BitVec 32) (p q : Bool) : tap g (p ^^ q) = tap g p ^^^ tap g q := by
  cases p <;> cases q <;> simp [tap]

/-- The same for the five bits of `b`. -/
def taps (b : BitVec 32) : BitVec 32 :=
  tap 0x3b6a57b2#32 (b.getLsbD 0) ^^^ (tap 0x26508e6d#32 (b.getLsbD 1) ^^^
    (tap 0x1ea119fa#32 (b.getLsbD 2) ^^^ (tap 0x3d4233dd#32 (b.getLsbD 3) ^^^
      tap 0x2a1462b3#32 (b.getLsbD 4))))

private theorem taps_xor (a b : BitVec 32) : taps (a ^^^ b) = taps a ^^^ taps b := by
  simp only [taps, BitVec.getLsbD_xor, tap_xor]
  ac_rfl

private theorem ite_bit (b c g : BitVec 32) (i : Nat) :
    (if b &&& BitVec.twoPow 32 i ≠ 0 then c ^^^ g else c) = c ^^^ tap g (b.getLsbD i) := by
  rw [BitVec.and_twoPow]
  cases hb : b.getLsbD i
  · simp [tap]
  · have hi : i < 32 := BitVec.lt_of_getLsbD hb
    have hne : BitVec.twoPow 32 i ≠ 0 := by
      intro h
      have := congrArg (BitVec.getLsbD · i) h
      simp [hi] at this
    rw [if_pos rfl, if_pos hne, tap, if_pos rfl]

/-- One step of the code without an input. -/
def shift5 (code : BitVec 32) : BitVec 32 :=
  (code &&& 0x1ffffff#32) <<< 5 ^^^ taps (code >>> 25)

theorem check5bits_eq (code : BitVec 32) (v : Nat) :
    check5bits code v = shift5 code ^^^ BitVec.ofNat 32 v := by
  have h₀ := ite_bit (code >>> 25) ((code &&& 0x1ffffff#32) <<< 5 ^^^ BitVec.ofNat 32 v)
    0x3b6a57b2#32 0
  have h₁ := fun c => ite_bit (code >>> 25) c 0x26508e6d#32 1
  have h₂ := fun c => ite_bit (code >>> 25) c 0x1ea119fa#32 2
  have h₃ := fun c => ite_bit (code >>> 25) c 0x3d4233dd#32 3
  have h₄ := fun c => ite_bit (code >>> 25) c 0x2a1462b3#32 4
  simp only [show BitVec.twoPow 32 0 = 1#32 from rfl, show BitVec.twoPow 32 1 = 2#32 from rfl,
    show BitVec.twoPow 32 2 = 4#32 from rfl, show BitVec.twoPow 32 3 = 8#32 from rfl,
    show BitVec.twoPow 32 4 = 16#32 from rfl] at h₀ h₁ h₂ h₃ h₄
  simp only [check5bits, h₀, h₁, h₂, h₃, h₄, shift5, taps]
  ac_rfl

theorem and_xor_distrib (a b m : BitVec 32) : (a ^^^ b) &&& m = (a &&& m) ^^^ (b &&& m) := by
  apply BitVec.eq_of_getLsbD_eq
  intro i _
  simp only [BitVec.getLsbD_and, BitVec.getLsbD_xor]
  cases a.getLsbD i <;> cases b.getLsbD i <;> cases m.getLsbD i <;> rfl

theorem shift5_xor (a b : BitVec 32) : shift5 (a ^^^ b) = shift5 a ^^^ shift5 b := by
  simp only [shift5, and_xor_distrib, BitVec.shiftLeft_xor_distrib, BitVec.ushiftRight_xor_distrib,
    taps_xor]
  ac_rfl

private theorem getLsbD_ones (n i : Nat) (hn : n ≤ 32) :
    (BitVec.ofNat 32 (2 ^ n - 1)).getLsbD i = decide (i < n) := by
  rw [BitVec.getLsbD_ofNat, Nat.testBit_two_pow_sub_one]
  by_cases hi : i < n
  · simp [hi]
    omega
  · simp [hi]

private theorem low25 (i : Nat) : (0x1ffffff#32).getLsbD i = decide (i < 25) :=
  getLsbD_ones 25 i (by decide)

theorem getLsbD_low5 (i : Nat) : (31#32).getLsbD i = decide (i < 5) :=
  getLsbD_ones 5 i (by decide)

/-- A code below 2^25 is shifted only. -/
theorem shift5_small {code : BitVec 32} (h : code >>> 25 = 0#32) : shift5 code = code <<< 5 := by
  have hand : code &&& 0x1ffffff#32 = code := by
    apply BitVec.eq_of_getLsbD_eq
    intro i hi
    rw [BitVec.getLsbD_and, low25]
    by_cases hlt : i < 25
    · simp [hlt]
    · have := congrArg (BitVec.getLsbD · (i - 25)) h
      simp only [BitVec.getLsbD_ushiftRight, BitVec.getLsbD_zero] at this
      rw [show 25 + (i - 25) = i from by omega] at this
      simp [this]
  rw [shift5, hand, h]
  simp [taps, tap]

theorem shift5_high (code : BitVec 32) : shift5 code >>> 30 = 0#32 := by
  have htap : ∀ (g : BitVec 32) p, g >>> 30 = 0#32 → tap g p >>> 30 = 0#32 := by
    intro g p hg
    cases p
    · exact BitVec.zero_ushiftRight
    · exact hg
  have hcode : ((code &&& 0x1ffffff#32) <<< 5) >>> 30 = 0#32 := by
    apply BitVec.eq_of_getLsbD_eq
    intro i _
    have : ¬ 30 + i - 5 < 25 := by omega
    simp [low25, this]
  simp only [shift5, taps, BitVec.ushiftRight_xor_distrib, hcode,
    htap 0x3b6a57b2#32 _ rfl, htap 0x26508e6d#32 _ rfl, htap 0x1ea119fa#32 _ rfl,
    htap 0x3d4233dd#32 _ rfl, htap 0x2a1462b3#32 _ rfl, BitVec.xor_self]

/-! ## The six characters of the checksum -/

/-- `shift5`, `n` times. -/
def shifts : Nat → BitVec 32 → BitVec 32
  | 0, code => code
  | n + 1, code => shifts n (shift5 code)

theorem check5zeros_eq (n : Nat) (code : BitVec 32) : check5zeros n code = shifts n code := by
  induction n generalizing code with
  | zero => rfl
  | succ n ih => rw [check5zeros, shifts, ih, check5bits_eq, BitVec.xor_zero]

theorem charval_dictchar {v : Nat} (h : v < 32) : charval (dictchar v) = v := by
  have key : ∀ v < 32, charval (dictchar v) = v := by decide
  exact key v h

/-- The bits from `s` on are absorbed in groups of five. -/
private theorem absorb (a code : BitVec 32) (hcode : code >>> 30 = 0#32) (s : Nat) :
    check5bits (a ^^^ code >>> (s + 5)) (code >>> s &&& 31#32).toNat = shift5 a ^^^ code >>> s := by
  have hsmall : (code >>> (s + 5)) >>> 25 = 0#32 := by
    rw [← BitVec.shiftRight_add, show s + 5 + 25 = 30 + s from by omega, BitVec.shiftRight_add,
      hcode]
    exact BitVec.zero_ushiftRight
  have hgroup : (code >>> (s + 5)) <<< 5 ^^^ (code >>> s &&& 31#32) = code >>> s := by
    apply BitVec.eq_of_getLsbD_eq
    intro i hi
    rw [BitVec.getLsbD_xor, BitVec.getLsbD_and, getLsbD_low5, BitVec.getLsbD_shiftLeft]
    by_cases hlt : i < 5
    · simp [hlt]
    · simp only [hlt, hi, BitVec.getLsbD_ushiftRight, decide_false, decide_true, Bool.and_false,
        Bool.xor_false, Bool.not_false, Bool.true_and]
      congr 1
      omega
  rw [check5bits_eq, shift5_xor, shift5_small hsmall, BitVec.ofNat_toNat, BitVec.setWidth_eq,
    BitVec.xor_assoc, hgroup]

/-- The checksum of a text ends the code at 1. -/
theorem checksumLoop_encodesum (code : BitVec 32) :
    checksumLoop (encodesum code) code = some 1#32 := by
  set x := check5zeros 6 code ^^^ 1#32 with hx
  have hhigh : x >>> 30 = 0#32 := by
    rw [hx, check5zeros_eq, BitVec.ushiftRight_xor_distrib]
    simp only [shifts, shift5_high]
    rfl
  have hval : ∀ s, charval (sumchar x s) = (x >>> s &&& 31#32).toNat ∧
      ¬ (x >>> s &&& 31#32).toNat > 31 := by
    intro s
    have hlt : (x >>> s &&& 31#32).toNat < 32 := by
      rw [BitVec.toNat_and]
      exact Nat.lt_succ_of_le Nat.and_le_right
    exact ⟨charval_dictchar hlt, by omega⟩
  have hstart : code = code ^^^ x >>> (25 + 5) := by rw [hhigh, BitVec.xor_zero]
  rw [encodesum, ← hx]
  simp only [checksumLoop, (hval _).1, (hval _).2, if_false]
  rw [hstart, absorb _ _ hhigh 25, absorb _ _ hhigh 20, absorb _ _ hhigh 15, absorb _ _ hhigh 10,
    absorb _ _ hhigh 5, absorb _ _ hhigh 0]
  rw [hx, check5zeros_eq]
  simp only [shifts, BitVec.ushiftRight_zero]
  rw [← BitVec.xor_assoc, BitVec.xor_self, BitVec.zero_xor]

/-! ## The data, written in groups of five bits -/

private theorem mul_or {b i : Nat} (a : Nat) (hb : b < 2 ^ i) :
    a * 2 ^ i ||| b = a * 2 ^ i + b := by
  rw [Nat.mul_comm, Nat.two_pow_add_eq_or_of_lt hb]

/-- The last `n` bits of a byte, moved to its front. -/
private theorem front_bits (d : Nat) {n : Nat} (hn : n ≤ 8) :
    d <<< (8 - n) % 256 = d % 2 ^ n * 2 ^ (8 - n) := by
  have hpow : 256 = 2 ^ n * 2 ^ (8 - n) := by
    rw [← Nat.pow_add, show n + (8 - n) = 8 from by omega]
  rw [Nat.shiftLeft_eq, hpow, Nat.mul_mod_mul_right]

/-- A number of `n` bits and a byte behind it: the byte alone has the last
eight bits. -/
private theorem add_byte_mod (r d : Nat) {n : Nat} (hn : n ≤ 8) :
    (r * 2 ^ 8 + d) % 2 ^ n = d % 2 ^ n := by
  have hpow : 2 ^ 8 = 2 ^ n * 2 ^ (8 - n) := by
    rw [← Nat.pow_add, show n + (8 - n) = 8 from by omega]
  rw [hpow, Nat.mul_comm r, Nat.mul_assoc, Nat.mul_add_mod]

private theorem add_byte_div (r d : Nat) {n : Nat} (hn : n ≤ 8) :
    (r * 2 ^ 8 + d) / 2 ^ n = r * 2 ^ (8 - n) + d / 2 ^ n := by
  have hpow : 2 ^ 8 = 2 ^ (8 - n) * 2 ^ n := by
    rw [← Nat.pow_add, show 8 - n + n = 8 from by omega]
  rw [hpow, ← Nat.mul_assoc, Nat.mul_comm (r * 2 ^ (8 - n)), Nat.mul_add_div (Nat.two_pow_pos n)]

/-- The groups that are on paper, and the bits that `acc` holds. -/
private structure Grouped (ds : List UInt8) (es : List Nat) (acc nbits : Nat) : Prop where
  groups : ∃ r, Regroups 8 5 (ds.map UInt8.toNat) es nbits r ∧ acc = r * 2 ^ (5 - nbits)
  small : nbits ≤ 5
  digit : ∀ e ∈ es, e < 32

/-- One byte in the loop of `encode`. -/
private theorem encode_byte {ds : List UInt8} {es : List Nat} {acc nbits : Nat}
    (h : Grouped ds es acc nbits) (d : UInt8) :
    ∃ v, v < 32 ∧ (acc ||| d.toNat >>> (3 + nbits)) % 256 = v ∧
      ((3 + nbits ≤ 5 ∧ Grouped (ds ++ [d]) (es ++ [v])
          ((d.toNat <<< (8 - (3 + nbits)) % 256) >>> 3) (3 + nbits)) ∨
        (5 < 3 + nbits ∧ ∃ w, w < 32 ∧
          (d.toNat <<< (8 - (3 + nbits)) % 256) >>> (8 - (3 + nbits)) >>> (3 + nbits - 5) = w ∧
          Grouped (ds ++ [d]) (es ++ [v] ++ [w])
            ((d.toNat <<< (8 - (3 + nbits - 5)) % 256) >>> 3) (3 + nbits - 5))) := by
  obtain ⟨⟨r, hr, rfl⟩, hsmall, hdigit⟩ := h
  have hd : d.toNat < 2 ^ 8 := d.toNat_lt
  have hread := hr.read hd
  have hw := hread.write (by omega)
  have hk : nbits + 8 - 5 = 3 + nbits := by omega
  rw [hk, add_byte_mod _ _ (by omega), add_byte_div _ _ (by omega)] at hw
  -- the first group: what was held back, and the front of the byte
  have hrest : d.toNat / 2 ^ (3 + nbits) < 2 ^ (5 - nbits) := by
    rw [Nat.div_lt_iff_lt_mul (Nat.two_pow_pos _), ← Nat.pow_add]
    rwa [show 5 - nbits + (3 + nbits) = 8 from by omega]
  have hv : r * 2 ^ (8 - (3 + nbits)) + d.toNat / 2 ^ (3 + nbits) < 32 := by
    have hr' := hr.rest
    have hmul : (r + 1) * 2 ^ (5 - nbits) ≤ 2 ^ nbits * 2 ^ (5 - nbits) :=
      Nat.mul_le_mul_right _ hr'
    rw [← Nat.pow_add, show nbits + (5 - nbits) = 5 from by omega, Nat.add_mul, Nat.one_mul] at hmul
    rw [show 8 - (3 + nbits) = 5 - nbits from by omega]
    omega
  have hlast : ∀ k, k ≤ 5 →
      (d.toNat <<< (8 - k) % 256) >>> 3 = d.toNat % 2 ^ k * 2 ^ (5 - k) := by
    intro k hk
    rw [front_bits _ (by omega), Nat.shiftRight_eq_div_pow,
      show 8 - k = 5 - k + 3 from by omega, Nat.pow_add, ← Nat.mul_assoc,
      Nat.mul_div_cancel _ (by decide)]
  refine ⟨_, hv, ?_, ?_⟩
  · rw [show 8 - (3 + nbits) = 5 - nbits from by omega] at hv ⊢
    rw [Nat.shiftRight_eq_div_pow, mul_or _ hrest, Nat.mod_eq_of_lt (by omega)]
  have hes : ∀ e ∈ es ++ [r * 2 ^ (8 - (3 + nbits)) + d.toNat / 2 ^ (3 + nbits)], e < 32 := by
    intro e he
    rcases List.mem_append.mp he with he | he
    · exact hdigit e he
    · rw [List.mem_singleton.mp he]
      exact hv
  by_cases hle : 3 + nbits ≤ 5
  · refine .inl ⟨hle, ⟨_, ?_, hlast _ hle⟩, hle, hes⟩
    rw [List.map_append]
    exact hw
  · have hw' := hw.write (by omega)
    rw [Nat.mod_mod_of_dvd _ (Nat.pow_dvd_pow 2 (by omega))] at hw'
    have hlt : d.toNat % 2 ^ (3 + nbits) / 2 ^ (3 + nbits - 5) < 32 := by
      rw [Nat.div_lt_iff_lt_mul (Nat.two_pow_pos _), show (32 : Nat) = 2 ^ 5 from rfl,
        ← Nat.pow_add, show 5 + (3 + nbits - 5) = 3 + nbits from by omega]
      exact Nat.mod_lt _ (Nat.two_pow_pos _)
    refine .inr ⟨by omega, _, hlt, ?_, ⟨_, ?_, hlast _ (by omega)⟩, by omega, ?_⟩
    · rw [front_bits _ (by omega)]
      simp only [Nat.shiftRight_eq_div_pow]
      rw [Nat.mul_div_cancel _ (Nat.two_pow_pos _)]
    · rw [List.map_append]
      exact hw'
    · intro e he
      rcases List.mem_append.mp he with he | he
      · exact hes e he
      · rw [List.mem_singleton.mp he]
        exact hlt

/-- The text of the groups. -/
def grouptext (es : List Nat) : List UInt8 := es.map dictchar

theorem grouptext_append (es fs : List Nat) :
    grouptext (es ++ fs) = grouptext es ++ grouptext fs := List.map_append

private theorem bech32encodeLoop_spec (rest : List UInt8) : ∀ {ds : List UInt8} {es : List Nat}
    {acc nbits : Nat} (code : BitVec 32), Grouped ds es acc nbits →
    ∃ fs, bech32encodeLoop rest (es.foldl check5bits code) acc nbits (grouptext es) =
        (fs.foldl check5bits code, grouptext fs) ∧ (∀ f ∈ fs, f < 32) ∧
      ∃ pad, pad < 5 ∧ 5 * fs.length = 8 * (ds ++ rest).length + pad ∧
        value (2 ^ 5) fs = value (2 ^ 8) ((ds ++ rest).map UInt8.toNat) * 2 ^ pad := by
  induction rest with
  | nil =>
    intro ds es acc nbits code h
    obtain ⟨⟨r, hr, rfl⟩, hsmall, hdigit⟩ := h
    have hlen := hr.length_eq
    rw [List.length_map] at hlen
    by_cases hn : nbits > 0
    · refine ⟨es ++ [r * 2 ^ (5 - nbits)], ?_, ?_, 5 - nbits, by omega, ?_, ?_⟩
      · rw [bech32encodeLoop, if_pos hn, List.foldl_append, grouptext_append]
        rfl
      · intro e he
        rcases List.mem_append.mp he with he | he
        · exact hdigit e he
        · rw [List.mem_singleton.mp he]
          have := Nat.mul_lt_mul_of_pos_right hr.rest (Nat.two_pow_pos (5 - nbits))
          rwa [← Nat.pow_add, show nbits + (5 - nbits) = 5 from by omega] at this
      · rw [List.length_append, List.append_nil, List.length_singleton]
        omega
      · rw [List.append_nil]
        exact hr.pad hsmall
    · obtain rfl : nbits = 0 := by omega
      obtain rfl : r = 0 := by
        have := hr.rest
        omega
      refine ⟨es, ?_, hdigit, 0, by decide, ?_, ?_⟩
      · rw [bech32encodeLoop, if_neg hn]
      · rw [List.append_nil]
        omega
      · rw [List.append_nil, hr.value_eq]
        omega
  | cons d rest ih =>
    intro ds es acc nbits code h
    obtain ⟨v, -, hv, hcases⟩ := encode_byte h d
    have happ : ds ++ d :: rest = ds ++ [d] ++ rest := by simp
    rw [happ]
    rcases hcases with ⟨hle, hg⟩ | ⟨hgt, w, -, hw, hg⟩
    · obtain ⟨fs, hfs, hrest⟩ := ih code hg
      refine ⟨fs, ?_, hrest⟩
      rw [List.foldl_append, grouptext_append] at hfs
      rw [bech32encodeLoop, hv]
      dsimp only
      rw [if_neg (by omega)]
      exact hfs
    · obtain ⟨fs, hfs, hrest⟩ := ih code hg
      refine ⟨fs, ?_, hrest⟩
      rw [List.foldl_append, List.foldl_append, grouptext_append, grouptext_append] at hfs
      rw [bech32encodeLoop, hv]
      dsimp only
      rw [if_pos hgt, hw]
      exact hfs

/-- What `encode` writes: the groups of the bytes, filled up at the end. -/
theorem encode_spec (data : List UInt8) (code : BitVec 32) :
    ∃ fs, encode data code = (fs.foldl check5bits code, grouptext fs) ∧ (∀ f ∈ fs, f < 32) ∧
      ∃ pad, pad < 5 ∧ 5 * fs.length = 8 * data.length + pad ∧
        value (2 ^ 5) fs = value (2 ^ 8) (data.map UInt8.toNat) * 2 ^ pad := by
  have hstart : Grouped [] [] 0 0 :=
    ⟨⟨0, Regroups.nil 8 5, rfl⟩, Nat.zero_le _, fun e he => absurd he List.not_mem_nil⟩
  exact bech32encodeLoop_spec data code hstart

/-! ## The data, read in groups of five bits -/

/-- The groups that were read, the bytes that are out, and the bits that
`acc` holds. -/
structure Drained (ps bs : List Nat) (acc bits : Nat) : Prop where
  groups : Regroups 5 8 ps bs bits (acc % 2 ^ bits)
  small : bits < 8
  byte : ∀ b ∈ bs, b < 2 ^ 8

private theorem drain_spec {ps bs : List Nat} {acc k : Nat}
    (h : Regroups 5 8 ps bs k (acc % 2 ^ k)) (hk : k < 16) (hbs : ∀ b ∈ bs, b < 2 ^ 8) :
    ∃ bs' k', drain acc k k (bs.map UInt8.ofNat) = (k', bs'.map UInt8.ofNat) ∧
      Drained ps bs' acc k' := by
  by_cases hge : k ≥ 8
  · obtain ⟨fuel, rfl⟩ : ∃ fuel, k = fuel + 1 := ⟨k - 1, by omega⟩
    have hw := h.write hge
    have hpow : 2 ^ (fuel + 1) = 2 ^ (fuel + 1 - 8) * 2 ^ 8 := by
      rw [← Nat.pow_add, show fuel + 1 - 8 + 8 = fuel + 1 from by omega]
    rw [Nat.mod_mod_of_dvd _ (Nat.pow_dvd_pow 2 (by omega)), hpow,
      Nat.mod_mul_right_div_self] at hw
    refine ⟨_, _, ?_, hw, by omega, ?_⟩
    · have hand : (acc >>> (fuel + 1 - 8)) &&& 0xff = acc / 2 ^ (fuel + 1 - 8) % 2 ^ 8 := by
        rw [Nat.shiftRight_eq_div_pow]
        exact Nat.and_two_pow_sub_one_eq_mod _ 8
      have hstop : ∀ f out, drain acc f (fuel + 1 - 8) out = (fuel + 1 - 8, out) := by
        intro f out
        cases f with
        | zero => rfl
        | succ f => rw [drain, if_neg (by omega)]
      rw [drain, if_pos hge, hand, hstop, List.map_append]
      rfl
    · intro b hb
      rcases List.mem_append.mp hb with hb | hb
      · exact hbs b hb
      · rw [List.mem_singleton.mp hb]
        exact Nat.mod_lt _ (by decide)
  · refine ⟨bs, k, ?_, h, by omega, hbs⟩
    cases k with
    | zero => rfl
    | succ k => rw [drain, if_neg hge]

/-- The `uint32` with five more bits at its end. -/
private theorem shift_in (acc : Nat) {f bits : Nat} (hf : f < 2 ^ 5) (hbits : bits ≤ 27) :
    (acc <<< 5 % 2 ^ 32 ||| f) % 2 ^ (bits + 5) = acc % 2 ^ bits * 2 ^ 5 + f := by
  have hpow : 2 ^ 32 = 2 ^ 27 * 2 ^ 5 := by norm_num
  rw [Nat.shiftLeft_eq, hpow, Nat.mul_mod_mul_right, mul_or _ hf, Nat.pow_add, Nat.mul_comm,
    Nat.mul_comm (2 ^ bits), Nat.mod_mul, Nat.mul_add_mod, Nat.mod_eq_of_lt hf,
    Nat.mul_add_div (by decide), Nat.div_eq_of_lt hf, Nat.add_zero,
    Nat.mod_mod_of_dvd _ (Nat.pow_dvd_pow 2 hbits)]
  omega

private theorem bech32decodeLoop_spec (fs : List Nat) : ∀ {ps bs : List Nat} {acc bits : Nat}
    (code : BitVec 32), Drained ps bs acc bits → (∀ f ∈ fs, f < 32) →
    ∃ bs' acc' bits', bech32decodeLoop (grouptext fs) code acc bits (bs.map UInt8.ofNat) =
        some (bs'.map UInt8.ofNat, fs.foldl check5bits code) ∧
      Drained (ps ++ fs) bs' acc' bits' := by
  induction fs with
  | nil =>
    intro ps bs acc bits code h _
    exact ⟨bs, acc, bits, rfl, by rwa [List.append_nil]⟩
  | cons f fs ih =>
    intro ps bs acc bits code h hfs
    have hf : f < 32 := hfs f List.mem_cons_self
    have hread := h.groups.read (d := f) hf
    rw [← shift_in acc hf (by have := h.small; omega)] at hread
    obtain ⟨bs₁, k, hd, h₁⟩ := drain_spec hread (by have := h.small; omega) h.byte
    obtain ⟨bs', acc', bits', hl, h'⟩ :=
      ih (check5bits code f) h₁ (fun g hg => hfs g (List.mem_cons_of_mem _ hg))
    refine ⟨bs', acc', bits', ?_, by rwa [List.append_assoc] at h'⟩
    have hv : charval (dictchar f) = f := charval_dictchar hf
    rw [grouptext, List.map_cons, bech32decodeLoop]
    simp only [hv, if_neg (show ¬ f > 31 from by omega), hd]
    exact hl

/-- The loop from its start. -/
theorem bech32decodeLoop_drained (fs : List Nat) (code : BitVec 32) (hfs : ∀ f ∈ fs, f < 32) :
    ∃ bs acc bits, bech32decodeLoop (grouptext fs) code 0 0 [] =
        some (bs.map UInt8.ofNat, fs.foldl check5bits code) ∧ Drained fs bs acc bits := by
  have hstart : Drained [] [] 0 0 :=
    ⟨Regroups.nil 5 8, by decide, fun b hb => absurd hb List.not_mem_nil⟩
  exact bech32decodeLoop_spec fs code hstart hfs

/-- The bytes come back from their text. -/
theorem bech32decodeLoop_encode (data : List UInt8) (code : BitVec 32) :
    bech32decodeLoop (encode data code).2 code 0 0 [] = some (data, (encode data code).1) := by
  obtain ⟨fs, hfs, hlt, pad, hpad, hlen, hvalue⟩ := encode_spec data code
  obtain ⟨bs, acc, bits, hd, hg⟩ := bech32decodeLoop_drained fs code hlt
  have hbs : bs = data.map UInt8.toNat := by
    refine hg.groups.inverse (by decide) hvalue ?_ (by omega) hg.small ?_ hg.byte
    · rw [List.length_map]
      exact hlen
    · intro d hd'
      obtain ⟨b, -, rfl⟩ := List.mem_map.mp hd'
      exact b.toNat_lt
  have hmap : bs.map UInt8.ofNat = data := by
    rw [hbs, List.map_map]
    conv_rhs => rw [← List.map_id data]
    exact List.map_congr_left fun b _ => UInt8.ofNat_toNat
  rw [hfs]
  rw [hmap] at hd
  exact hd

/-! ## The whole text -/

/-- No letter of the text is upper case. -/
def NoUpper (s : List UInt8) : Prop := ∀ c ∈ s, ¬ (65 ≤ c ∧ c ≤ 90)

instance (s : List UInt8) : Decidable (NoUpper s) := inferInstanceAs (Decidable (∀ c ∈ s, _))

def hasLower (s : List UInt8) : Bool := s.any fun c => 97 ≤ c ∧ c ≤ 122

/-- The position of the last separator behind position `i`; `l` when there is none. -/
def lastSeparator : List UInt8 → Nat → Nat → Nat
  | [], _, l => l
  | c :: cs, i, l => lastSeparator cs (i + 1) (if c = SEPARATOR then i else l)

theorem lastSeparator_append (label : List UInt8) {rest : List UInt8} (h : SEPARATOR ∉ rest) :
    ∀ i l, lastSeparator (label ++ [SEPARATOR] ++ rest) i l = i + label.length := by
  have hrest : ∀ (rest : List UInt8), SEPARATOR ∉ rest → ∀ i l, lastSeparator rest i l = l := by
    intro rest
    induction rest with
    | nil => intro _ i l; rfl
    | cons c cs ih =>
      intro h i l
      rw [List.mem_cons, not_or] at h
      rw [lastSeparator, ih h.2, if_neg (Ne.symm h.1)]
  induction label with
  | nil =>
    intro i l
    rw [List.nil_append, List.singleton_append, lastSeparator, if_pos rfl, hrest rest h]
    rfl
  | cons c cs ih =>
    intro i l
    rw [List.cons_append, List.cons_append, lastSeparator, ih, List.length_cons]
    omega

def hasUpper (s : List UInt8) : Bool := s.any fun c => 65 ≤ c ∧ c ≤ 90

/-- What `prepare` leaves of a character. -/
def lowered (c : UInt8) : UInt8 := if 65 ≤ c ∧ c ≤ 90 then c + 32 else c

/-- What `prepare` does, in one look at the text. -/
theorem prepareLoop_eq (s : List UInt8) : ∀ (i : Nat) (p : Prepared),
    prepareLoop s i p = ⟨p.s ++ s.map lowered, lastSeparator s i p.last1,
      p.haslow || hasLower s, p.hasup || hasUpper s⟩ := by
  induction s with
  | nil =>
    intro i p
    simp [prepareLoop, lastSeparator, hasLower, hasUpper]
  | cons c cs ih =>
    intro i p
    have hlow : hasLower (c :: cs) = (decide (97 ≤ c ∧ c ≤ 122) || hasLower cs) := rfl
    have hup : hasUpper (c :: cs) = (decide (65 ≤ c ∧ c ≤ 90) || hasUpper cs) := rfl
    have hne : ∀ a : UInt8, a ≤ c → ¬ a ≤ SEPARATOR → c ≠ SEPARATOR := by
      intro a hle hgt he
      exact hgt (he ▸ hle)
    rw [prepareLoop, hlow, hup, List.map_cons, lastSeparator, lowered]
    by_cases hc : 97 ≤ c ∧ c ≤ 122
    · have hnot : ¬ (65 ≤ c ∧ c ≤ 90) := fun h =>
        absurd (UInt8.le_trans hc.1 h.2) (by decide)
      rw [if_pos hc, ih, if_neg hnot, if_neg (hne 97 hc.1 (by decide)), decide_eq_true hc,
        decide_eq_false hnot]
      simp
    rw [if_neg hc, decide_eq_false hc]
    by_cases hu : 65 ≤ c ∧ c ≤ 90
    · rw [if_pos hu, if_pos hu, ih, if_neg (hne 65 hu.1 (by decide)), decide_eq_true hu]
      simp
    rw [if_neg hu, if_neg hu, decide_eq_false hu]
    by_cases hsep : c = SEPARATOR
    · rw [if_pos hsep, ih, if_pos hsep]
      simp
    · rw [if_neg hsep, ih, if_neg hsep]
      simp

theorem prepare_eq (s : List UInt8) :
    prepare s = ⟨s.map lowered, lastSeparator s 0 (2 ^ 64 - 1), hasLower s, hasUpper s⟩ := by
  rw [prepare, prepareLoop_eq]
  simp

/-- Of the two cases of a letter, with the separator apart. -/
theorem toupper_cases (c : UInt8) :
    (¬ (65 ≤ c ∧ c ≤ 90) → lowered c = c ∧ lowered (toupper c) = c) ∧
      (¬ (97 ≤ c ∧ c ≤ 122) → toupper (lowered c) = c) ∧
      ¬ (97 ≤ toupper c ∧ toupper c ≤ 122) ∧
      (toupper c = SEPARATOR ↔ c = SEPARATOR) ∧ (lowered c = SEPARATOR ↔ c = SEPARATOR) := by
  have key : ∀ n < 256,
      (¬ (65 ≤ UInt8.ofNat n ∧ UInt8.ofNat n ≤ 90) →
          lowered (UInt8.ofNat n) = UInt8.ofNat n ∧
            lowered (toupper (UInt8.ofNat n)) = UInt8.ofNat n) ∧
        (¬ (97 ≤ UInt8.ofNat n ∧ UInt8.ofNat n ≤ 122) →
          toupper (lowered (UInt8.ofNat n)) = UInt8.ofNat n) ∧
        ¬ (97 ≤ toupper (UInt8.ofNat n) ∧ toupper (UInt8.ofNat n) ≤ 122) ∧
        (toupper (UInt8.ofNat n) = SEPARATOR ↔ UInt8.ofNat n = SEPARATOR) ∧
        (lowered (UInt8.ofNat n) = SEPARATOR ↔ UInt8.ofNat n = SEPARATOR) := by decide +kernel
  have hc := key c.toNat c.toNat_lt
  rw [UInt8.ofNat_toNat] at hc
  exact hc

theorem lastSeparator_map {f : UInt8 → UInt8} (hf : ∀ c, f c = SEPARATOR ↔ c = SEPARATOR)
    (s : List UInt8) : ∀ i l, lastSeparator (s.map f) i l = lastSeparator s i l := by
  induction s with
  | nil => intro i l; rfl
  | cons c cs ih =>
    intro i l
    rw [List.map_cons, lastSeparator, lastSeparator, ih]
    simp only [hf]

/-- The text in one case, lower or upper: `prepare` finds the lower case and
the separator. -/
theorem prepare_case {s t : List UInt8} (h : NoUpper s) (ht : t = s ∨ t = s.map toupper) :
    (prepare t).s = s ∧ (prepare t).last1 = lastSeparator s 0 (2 ^ 64 - 1) ∧
      ¬ ((prepare t).haslow ∧ (prepare t).hasup) := by
  rw [prepare_eq]
  rcases ht with rfl | rfl
  · refine ⟨?_, rfl, ?_⟩
    · conv_rhs => rw [← List.map_id t]
      exact List.map_congr_left fun c hc => ((toupper_cases c).1 (h c hc)).1
    · rintro ⟨-, hup⟩
      obtain ⟨c, hc, hu⟩ := List.any_eq_true.mp hup
      exact h c hc (of_decide_eq_true hu)
  · refine ⟨?_, lastSeparator_map (fun c => (toupper_cases c).2.2.2.1) s _ _, ?_⟩
    · rw [List.map_map]
      conv_rhs => rw [← List.map_id s]
      exact List.map_congr_left fun c hc => ((toupper_cases c).1 (h c hc)).2
    · rintro ⟨hlow, -⟩
      obtain ⟨c, hc, hl⟩ := List.any_eq_true.mp hlow
      obtain ⟨d, -, rfl⟩ := List.mem_map.mp hc
      exact (toupper_cases d).2.2.1 (of_decide_eq_true hl)

/-! ## The round trip -/

theorem noUpper_dictchar {v : Nat} (h : v < 32) :
    ¬ (65 ≤ dictchar v ∧ dictchar v ≤ 90) ∧ dictchar v ≠ SEPARATOR := by
  have key : ∀ v < 32, ¬ (65 ≤ dictchar v ∧ dictchar v ≤ 90) ∧ dictchar v ≠ SEPARATOR := by decide
  exact key v h

/-- The characters behind the separator are from the dictionary. -/
theorem encodesum_text (code : BitVec 32) :
    ∃ fs, encodesum code = grouptext fs ∧ (∀ f ∈ fs, f < 32) ∧ fs.length = 6 := by
  set x := check5zeros 6 code ^^^ 1#32 with hx
  refine ⟨[25, 20, 15, 10, 5, 0].map fun s => (x >>> s &&& 31#32).toNat, ?_, ?_, rfl⟩
  · rw [encodesum, ← hx]
    rfl
  · intro f hf
    obtain ⟨s, -, rfl⟩ := List.mem_map.mp hf
    rw [BitVec.toNat_and]
    exact Nat.lt_succ_of_le Nat.and_le_right

/-- What `bech32encode` writes has a known form. -/
theorem bech32encode_text {label data t : List UInt8} (h : bech32encode label data = some t) :
    ∃ code fs, labelcheck label = some code ∧
      t = label ++ [SEPARATOR] ++ (grouptext fs ++ encodesum (encode data code).1) ∧
      grouptext fs = (encode data code).2 ∧ (∀ f ∈ fs, f < 32) ∧
      fs.length = (data.length * 8 + 4) / 5 ∧ t.length = 7 + label.length + fs.length ∧
      t.length ≤ 90 := by
  rw [bech32encode] at h
  dsimp only at h
  split at h
  · cases h
  rename_i hlen
  obtain ⟨code, hcode, h⟩ := Option.bind_eq_some_iff.mp h
  obtain ⟨fs, hfs, hlt, pad, hpad, hn, -⟩ := encode_spec data code
  obtain ⟨gs, hgs, -, hsix⟩ := encodesum_text (encode data code).1
  have ht := Option.some.inj h
  have htext : t.length = 7 + label.length + fs.length := by
    rw [← ht, hfs, ← hfs, hgs]
    simp only [List.length_append, grouptext, List.length_map, hsix, List.length_singleton, hfs]
    omega
  refine ⟨code, fs, hcode, ?_, by rw [hfs], hlt, by omega, htext, by omega⟩
  rw [← ht, hfs]
  simp only [List.append_assoc]

/-- The decoder reads back what the encoder wrote, in either case. -/
theorem bech32decode_encode {label data t s : List UInt8} (h : bech32encode label data = some t)
    (hlabel : label ≠ []) (hup : NoUpper label) (hs : s = t ∨ s = t.map toupper) :
    bech32decode s = some (data, label.length) := by
  obtain ⟨code, fs, hcode, rfl, hfs, hlt, -, hlen, hmax⟩ := bech32encode_text h
  obtain ⟨gs, hgs, hgt, hsix⟩ := encodesum_text (encode data code).1
  set text := grouptext fs ++ encodesum (encode data code).1 with htext
  have hchars : ∀ c ∈ text, ¬ (65 ≤ c ∧ c ≤ 90) ∧ c ≠ SEPARATOR := by
    intro c hc
    rw [htext, hgs] at hc
    rcases List.mem_append.mp hc with hc | hc
    all_goals
      obtain ⟨f, hf, rfl⟩ := List.mem_map.mp hc
      exact noUpper_dictchar (by first | exact hlt f hf | exact hgt f hf)
  have hno : NoUpper (label ++ [SEPARATOR] ++ text) := by
    intro c hc
    rcases List.mem_append.mp hc with hc | hc
    · rcases List.mem_append.mp hc with hc | hc
      · exact hup c hc
      · rw [List.mem_singleton.mp hc]
        decide
    · exact (hchars c hc).1
  obtain ⟨hps, hp1, hcase⟩ := prepare_case hno hs
  rw [lastSeparator_append label (fun hm => (hchars _ hm).2 rfl), Nat.zero_add] at hp1
  have hpos : 0 < label.length := List.length_pos_iff.mpr hlabel
  rw [bech32decode]
  dsimp only
  rw [hps, hp1, if_neg hcase, if_neg (by omega), if_neg (by omega), if_neg (by omega)]
  have hsum : (encodesum (encode data code).1).length = 6 := rfl
  have hfull : (label ++ [SEPARATOR] ++ text).length - 6 =
      (label ++ [SEPARATOR] ++ grouptext fs).length := by
    rw [htext]
    simp only [List.length_append, hsum]
    omega
  have hsplit : label ++ [SEPARATOR] ++ text =
      label ++ [SEPARATOR] ++ grouptext fs ++ encodesum (encode data code).1 := by
    rw [htext, ← List.append_assoc]
  have hlab : (label ++ [SEPARATOR] ++ text ++ [0]).take label.length = label := by
    rw [List.append_assoc, List.append_assoc, List.take_left]
  have hdec : decode (label ++ [SEPARATOR] ++ text) label.length code =
      some (data, (encode data code).1) := by
    have hdrop : (label ++ [SEPARATOR] ++ grouptext fs).drop (label.length + 1) = grouptext fs :=
      List.drop_left' (by rw [List.length_append, List.length_singleton])
    rw [decode, hfull, hsplit, List.take_left, hdrop, hfs]
    exact bech32decodeLoop_encode data code
  have hcheck : checksum (label ++ [SEPARATOR] ++ text) (encode data code).1 = some 1#32 := by
    rw [checksum, hfull, hsplit, List.drop_left]
    exact checksumLoop_encodesum _
  rw [hlab, hcode]
  change (decode (label ++ [SEPARATOR] ++ text) label.length code).bind _ = _
  rw [hdec]
  change (checksum (label ++ [SEPARATOR] ++ text) (encode data code).1).bind _ = _
  rw [hcheck]
  rfl

/-! ## Keys -/

/-- A key of 32 bytes has a text under every short label. -/
theorem bech32encode_key {label : List UInt8} (hlabel : (labelcheck label).isSome)
    (hlen : label.length ≤ 31) (k : Bytes 32) : ∃ t, bech32encode label k.val = some t := by
  obtain ⟨code, hcode⟩ := Option.isSome_iff_exists.mp hlabel
  have hmax : ¬ 7 + label.length + (k.val.length * 8 + 4) / 5 > 90 := by
    rw [k.size_eq]
    omega
  rw [bech32encode, hcode]
  dsimp only
  rw [if_neg hmax]
  exact ⟨_, rfl⟩

/-- A public key is read back from its text. -/
theorem x25519pubkey_encode {k : Bytes 32} {t : List UInt8}
    (h : bech32encode (ascii "age") k.val = some t) : x25519pubkey t = some k ∧ t.length = 62 := by
  obtain ⟨code, fs, -, ht, -, -, hfs, hlen, -⟩ := bech32encode_text h
  rw [hfs, k.size_eq] at hlen
  have hdec := bech32decode_encode h (by decide) (by decide +kernel) (.inl rfl)
  have hpre : t.take 4 = ascii "age1" := by
    rw [ht, show (4 : Nat) = (ascii "age" ++ [SEPARATOR]).length from rfl, List.take_left]
    rfl
  refine ⟨?_, hlen⟩
  have hpub : t.length = BECHPUBLEN := hlen
  rw [x25519pubkey, if_neg (not_not.mpr hpub), if_neg (not_not.mpr hpre), hdec]
  exact Bytes.ofList?_val k

/-- A private key is read back from its text in upper case. -/
theorem x25519privkey_encode {k : Bytes 32} {t : List UInt8}
    (h : bech32encode (ascii "age-secret-key-") k.val = some t) :
    x25519privkey (t.map toupper) = some k ∧ t.length = 74 := by
  obtain ⟨code, fs, -, ht, -, -, hfs, hlen, -⟩ := bech32encode_text h
  rw [hfs, k.size_eq] at hlen
  have hdec := bech32decode_encode h (by decide) (by decide +kernel) (.inr rfl)
  have htake : (t.map toupper).take 74 = t.map toupper :=
    List.take_of_length_le (by rw [List.length_map, hlen]; decide)
  have hpre : (t.map toupper).take 16 = ascii "AGE-SECRET-KEY-1" := by
    rw [← List.map_take, ht,
      show (16 : Nat) = (ascii "age-secret-key-" ++ [SEPARATOR]).length from rfl, List.take_left]
    decide
  refine ⟨?_, hlen⟩
  rw [x25519privkey]
  dsimp only
  rw [htake, if_neg (not_not.mpr hpre), hdec]
  exact Bytes.ofList?_val k

end Agecrypt
