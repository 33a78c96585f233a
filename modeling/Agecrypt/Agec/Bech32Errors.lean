import Agecrypt.Agec.Bech32Text

/-!
# What the checksum of a key detects

Two texts that end the checksum code at the same value differ nowhere, or in
more than six neighbouring characters: inside a window of six the difference
of the two codes is the difference of the characters itself, and behind the
window a step of the code has no kernel.

The second half says what a text that decodes to a key of 32 bytes looks
like: its separator is where the encoder puts it, and its 52 groups hold the
256 bits of the key and four more bits.
-/

namespace Agecrypt

open Digits

/-! ## One step has no kernel -/

/-- The last five bits of what the five bits that are shifted out add tell
them. -/
theorem taps_low {b : BitVec 32} (h : taps b &&& 31#32 = 0#32) :
    ∀ i < 5, b.getLsbD i = false := by
  have key : ∀ p₀ p₁ p₂ p₃ p₄ : Bool,
      (tap 0x3b6a57b2#32 p₀ ^^^ (tap 0x26508e6d#32 p₁ ^^^ (tap 0x1ea119fa#32 p₂ ^^^
        (tap 0x3d4233dd#32 p₃ ^^^ tap 0x2a1462b3#32 p₄)))) &&& 31#32 = 0#32 →
      p₀ = false ∧ p₁ = false ∧ p₂ = false ∧ p₃ = false ∧ p₄ = false := by decide
  obtain ⟨h₀, h₁, h₂, h₃, h₄⟩ := key _ _ _ _ _ h
  intro i hi
  interval_cases i <;> assumption

/-- The bits from `n` on are zero. -/
theorem shiftRight_eq_zero {c : BitVec 32} {n : Nat} :
    c >>> n = 0#32 ↔ ∀ i, n ≤ i → c.getLsbD i = false := by
  constructor
  · intro h i hi
    have hbit := congrArg (BitVec.getLsbD · (i - n)) h
    simp only [BitVec.getLsbD_ushiftRight, BitVec.getLsbD_zero] at hbit
    rwa [show n + (i - n) = i from by omega] at hbit
  · intro h
    apply BitVec.eq_of_getLsbD_eq
    intro i _
    rw [BitVec.getLsbD_ushiftRight, BitVec.getLsbD_zero]
    exact h _ (Nat.le_add_right n i)

theorem shiftLeft_eq_zero {c : BitVec 32} (hhigh : c >>> 25 = 0#32) (h : c <<< 5 = 0#32) :
    c = 0#32 := by
  rw [shiftRight_eq_zero] at hhigh
  apply BitVec.eq_of_getLsbD_eq
  intro i _
  rw [BitVec.getLsbD_zero]
  by_cases hi : 25 ≤ i
  · exact hhigh i hi
  · have hbit := congrArg (BitVec.getLsbD · (i + 5)) h
    have hlt : i + 5 < 32 := by omega
    simp only [BitVec.getLsbD_shiftLeft, BitVec.getLsbD_zero, hlt] at hbit
    simpa using hbit

theorem shiftLeft_and_low (c : BitVec 32) : c <<< 5 &&& 31#32 = 0#32 := by
  apply BitVec.eq_of_getLsbD_eq
  intro i _
  rw [BitVec.getLsbD_and, BitVec.getLsbD_shiftLeft, getLsbD_low5, BitVec.getLsbD_zero]
  by_cases hi : i < 5 <;> simp [hi]

theorem shift5_eq_zero {c : BitVec 32} (hhigh : c >>> 30 = 0#32) (h : shift5 c = 0#32) :
    c = 0#32 := by
  have hlow : taps (c >>> 25) &&& 31#32 = 0#32 := by
    have hand := congrArg (· &&& 31#32) h
    rw [shift5] at hand
    simp only [and_xor_distrib, shiftLeft_and_low, BitVec.zero_xor, BitVec.zero_and] at hand
    exact hand
  have hbits := taps_low hlow
  have hsmall : c >>> 25 = 0#32 := by
    rw [shiftRight_eq_zero] at hhigh ⊢
    intro i hi
    by_cases hlt : i < 30
    · have hbit := hbits (i - 25) (by omega)
      rw [BitVec.getLsbD_ushiftRight] at hbit
      rwa [show 25 + (i - 25) = i from by omega] at hbit
    · exact hhigh i (by omega)
  rw [shift5_small hsmall] at h
  exact shiftLeft_eq_zero hsmall h

/-! ## Differences -/

/-- The difference of two codes after one character each. -/
theorem check5bits_xor (a b : BitVec 32) (f g : Nat) :
    check5bits a f ^^^ check5bits b g =
      shift5 (a ^^^ b) ^^^ (BitVec.ofNat 32 f ^^^ BitVec.ofNat 32 g) := by
  rw [check5bits_eq, check5bits_eq, shift5_xor]
  ac_rfl

theorem ofNat_and_low {f : Nat} (hf : f < 32) :
    BitVec.ofNat 32 f &&& 31#32 = BitVec.ofNat 32 f := by
  have key : ∀ f < 32, BitVec.ofNat 32 f &&& 31#32 = BitVec.ofNat 32 f := by decide
  exact key f hf

theorem ofNat_xor_eq_zero {f g : Nat} (hf : f < 32) (hg : g < 32)
    (h : BitVec.ofNat 32 f ^^^ BitVec.ofNat 32 g = 0#32) : f = g := by
  have hn := congrArg BitVec.toNat (BitVec.xor_eq_zero_iff.mp h)
  rw [BitVec.toNat_ofNat, BitVec.toNat_ofNat] at hn
  omega

/-- Behind the same characters two codes are equal only if they were. -/
theorem foldl_check5bits_inj (ps : List Nat) : ∀ {a b : BitVec 32}, (a ^^^ b) >>> 30 = 0#32 →
    ps.foldl check5bits a = ps.foldl check5bits b → a = b := by
  induction ps with
  | nil =>
    intro a b _ h
    exact h
  | cons p ps ih =>
    intro a b hhigh h
    have hstep : check5bits a p ^^^ check5bits b p = shift5 (a ^^^ b) := by
      rw [check5bits_xor, BitVec.xor_self, BitVec.xor_zero]
    have heq : check5bits a p = check5bits b p := by
      refine ih ?_ h
      rw [hstep]
      exact shift5_high _
    rw [heq, BitVec.xor_self] at hstep
    exact BitVec.xor_eq_zero_iff.mp (shift5_eq_zero hhigh hstep.symm)

/-- Inside a window of six characters the difference of two codes is that of
the characters: it vanishes only if all are the same. -/
theorem foldl_check5bits_window (fs : List Nat) : ∀ {gs : List Nat} {m : Nat} {a b : BitVec 32},
    fs.length = gs.length → m + fs.length ≤ 6 → (a ^^^ b) >>> (5 * m) = 0#32 →
    (∀ f ∈ fs, f < 32) → (∀ g ∈ gs, g < 32) →
    fs.foldl check5bits a = gs.foldl check5bits b → a = b ∧ fs = gs := by
  induction fs with
  | nil =>
    intro gs m a b hlen _ _ _ _ h
    obtain rfl : gs = [] := List.length_eq_zero_iff.mp hlen.symm
    exact ⟨h, rfl⟩
  | cons f fs ih =>
    intro gs m a b hlen hm hhigh hfs hgs h
    cases gs with
    | nil => cases hlen
    | cons g gs =>
      rw [List.length_cons] at hm
      have hf := hfs f List.mem_cons_self
      have hg := hgs g List.mem_cons_self
      have hsmall : (a ^^^ b) >>> 25 = 0#32 := by
        rw [shiftRight_eq_zero] at hhigh ⊢
        exact fun i hi => hhigh i (by omega)
      have hstep := check5bits_xor a b f g
      rw [shift5_small hsmall] at hstep
      have hnext : (check5bits a f ^^^ check5bits b g) >>> (5 * (m + 1)) = 0#32 := by
        rw [shiftRight_eq_zero] at hhigh ⊢
        intro i hi
        have hlow : ∀ {v : Nat}, v < 32 → (BitVec.ofNat 32 v).getLsbD i = false := by
          intro v hv
          rw [← ofNat_and_low hv, BitVec.getLsbD_and, getLsbD_low5]
          simp
          omega
        rw [hstep, BitVec.getLsbD_xor, BitVec.getLsbD_xor, hlow hf, hlow hg,
          BitVec.getLsbD_shiftLeft, hhigh (i - 5) (by omega)]
        simp
      obtain ⟨heq, hrest⟩ := ih (Nat.succ.inj hlen) (by omega) hnext
        (fun x hx => hfs x (List.mem_cons_of_mem _ hx))
        (fun x hx => hgs x (List.mem_cons_of_mem _ hx)) h
      rw [heq, BitVec.xor_self] at hstep
      -- the last five bits are those of the characters, the others those before them
      have hchars : BitVec.ofNat 32 f ^^^ BitVec.ofNat 32 g = 0#32 := by
        have hand := congrArg (· &&& 31#32) hstep
        simp only [and_xor_distrib, shiftLeft_and_low, BitVec.zero_xor, BitVec.zero_and,
          ofNat_and_low hf, ofNat_and_low hg] at hand
        exact hand.symm
      rw [hchars, BitVec.xor_zero] at hstep
      refine ⟨BitVec.xor_eq_zero_iff.mp (shiftLeft_eq_zero hsmall hstep.symm), ?_⟩
      rw [ofNat_xor_eq_zero hf hg hchars, hrest]

theorem foldl_check5bits_high (fs : List Nat) : ∀ {gs : List Nat} {a b : BitVec 32},
    fs.length = gs.length → (∀ f ∈ fs, f < 32) → (∀ g ∈ gs, g < 32) → (a ^^^ b) >>> 30 = 0#32 →
    (fs.foldl check5bits a ^^^ gs.foldl check5bits b) >>> 30 = 0#32 := by
  have hdigit : ∀ {v : Nat}, v < 32 → BitVec.ofNat 32 v >>> 30 = 0#32 := by
    have key : ∀ v < 32, BitVec.ofNat 32 v >>> 30 = 0#32 := by decide
    exact fun {v} hv => key v hv
  induction fs with
  | nil =>
    intro gs a b hlen _ _ hhigh
    obtain rfl : gs = [] := List.length_eq_zero_iff.mp hlen.symm
    exact hhigh
  | cons f fs ih =>
    intro gs a b hlen hfs hgs hhigh
    cases gs with
    | nil => cases hlen
    | cons g gs =>
      have hstep : (check5bits a f ^^^ check5bits b g) >>> 30 = 0#32 := by
        rw [check5bits_xor, BitVec.ushiftRight_xor_distrib, BitVec.ushiftRight_xor_distrib,
          shift5_high, hdigit (hfs f List.mem_cons_self), hdigit (hgs g List.mem_cons_self)]
        rfl
      rw [List.foldl_cons, List.foldl_cons]
      exact ih (Nat.succ.inj hlen) (fun x hx => hfs x (List.mem_cons_of_mem _ hx))
        (fun x hx => hgs x (List.mem_cons_of_mem _ hx)) hstep

/-- Two texts with the same checksum that differ in a window of six
characters at most are the same. -/
theorem window_eq {pre fs gs post : List Nat} {code : BitVec 32} (hlen : fs.length = gs.length)
    (hsix : fs.length ≤ 6) (hfs : ∀ f ∈ fs, f < 32) (hgs : ∀ g ∈ gs, g < 32)
    (h : (pre ++ fs ++ post).foldl check5bits code = (pre ++ gs ++ post).foldl check5bits code) :
    fs = gs := by
  simp only [List.foldl_append] at h
  have hself : ∀ n : Nat,
      (pre.foldl check5bits code ^^^ pre.foldl check5bits code) >>> n = 0#32 := by
    intro n
    rw [BitVec.xor_self]
    exact BitVec.zero_ushiftRight
  have hpost := foldl_check5bits_inj post (foldl_check5bits_high fs hlen hfs hgs (hself 30)) h
  exact (foldl_check5bits_window fs hlen (by omega) (hself (5 * 0)) hfs hgs hpost).2

/-! ## The characters of a text that decodes -/

theorem dictchar_charval {c : UInt8} (h : charval c < 32) : dictchar (charval c) = c := by
  have key : ∀ n < 256, charval (UInt8.ofNat n) < 32 →
      dictchar (charval (UInt8.ofNat n)) = UInt8.ofNat n := by decide +kernel
  have hc := key c.toNat c.toNat_lt
  rw [UInt8.ofNat_toNat] at hc
  exact hc h

/-- Characters with a value are the text of their values. -/
theorem grouptext_charval {cs : List UInt8} (h : ∀ c ∈ cs, charval c < 32) :
    grouptext (cs.map charval) = cs := by
  rw [grouptext, List.map_map]
  conv_rhs => rw [← List.map_id cs]
  exact List.map_congr_left fun c hc => dictchar_charval (h c hc)

theorem map_charval_grouptext {fs : List Nat} (h : ∀ f ∈ fs, f < 32) :
    (grouptext fs).map charval = fs := by
  rw [grouptext, List.map_map]
  conv_rhs => rw [← List.map_id fs]
  exact List.map_congr_left fun f hf => charval_dictchar (h f hf)

theorem grouptext_inj {fs gs : List Nat} (hfs : ∀ f ∈ fs, f < 32) (hgs : ∀ g ∈ gs, g < 32)
    (h : grouptext fs = grouptext gs) : fs = gs := by
  rw [← map_charval_grouptext hfs, h, map_charval_grouptext hgs]

theorem bech32decodeLoop_charval (cs : List UInt8) : ∀ {code code' : BitVec 32} {acc bits : Nat}
    {out out' : List UInt8}, bech32decodeLoop cs code acc bits out = some (out', code') →
    ∀ c ∈ cs, charval c < 32 := by
  induction cs with
  | nil =>
    intro code code' acc bits out out' _ c hc
    cases hc
  | cons c cs ih =>
    intro code code' acc bits out out' h d hd
    rw [bech32decodeLoop] at h
    dsimp only at h
    by_cases hv : charval c > 31
    · rw [if_pos hv] at h
      cases h
    · rw [if_neg hv] at h
      rcases List.mem_cons.mp hd with rfl | hd
      · omega
      · exact ih h d hd

theorem checksumLoop_charval (cs : List UInt8) : ∀ {code code' : BitVec 32},
    checksumLoop cs code = some code' →
    (∀ c ∈ cs, charval c < 32) ∧ (cs.map charval).foldl check5bits code = code' := by
  induction cs with
  | nil =>
    intro code code' h
    exact ⟨fun c hc => absurd hc List.not_mem_nil, Option.some.inj h⟩
  | cons c cs ih =>
    intro code code' h
    rw [checksumLoop] at h
    by_cases hv : charval c > 31
    · rw [if_pos hv] at h
      cases h
    · rw [if_neg hv] at h
      obtain ⟨hcs, hfold⟩ := ih h
      refine ⟨fun d hd => ?_, hfold⟩
      rcases List.mem_cons.mp hd with rfl | hd
      · omega
      · exact hcs d hd

/-- The bytes of the groups, and the bits that are left over. -/
theorem bech32decodeLoop_groups {fs : List Nat} {code code' : BitVec 32} {out : List UInt8}
    (hfs : ∀ f ∈ fs, f < 32)
    (h : bech32decodeLoop (grouptext fs) code 0 0 [] = some (out, code')) :
    code' = fs.foldl check5bits code ∧
      ∃ k r, k < 8 ∧ Regroups 5 8 fs (out.map UInt8.toNat) k r := by
  obtain ⟨bs, acc, bits, hd, hg⟩ := bech32decodeLoop_drained fs code hfs
  rw [hd] at h
  obtain ⟨hout, hcode⟩ := Prod.mk.inj (Option.some.inj h)
  refine ⟨hcode.symm, bits, acc % 2 ^ bits, hg.small, ?_⟩
  have hbs : out.map UInt8.toNat = bs := by
    rw [← hout, List.map_map]
    conv_rhs => rw [← List.map_id bs]
    exact List.map_congr_left fun b hb => UInt8.toNat_ofNat_of_lt (hg.byte b hb)
  rw [hbs]
  exact hg.groups

end Agecrypt
