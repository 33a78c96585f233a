import Agecrypt.Crypto.Sha256

/-!
# `crypto/hmac.c` and `crypto/hkdf.c`

`hmac` and `hkdf` are the functions of a whole text.  The code takes the text
in pieces, reuses its contexts, and in `hkdfsha256` goes without
`hmacsha256init`: it computes the same functions, and no step of it leads
outside a buffer.
-/

namespace Agecrypt

/-! ## The functions -/

/-- The key in front of the padding byte `v`. -/
def xorpad (v : UInt8) (k : List UInt8) : List UInt8 :=
  k.map (v ^^^ ·) ++ List.replicate (64 - k.length) v

/-- A key that is longer than a block is hashed. -/
def hmacKey (k : List UInt8) : List UInt8 := if k.length > 64 then (sha256 k).val else k

def hmac (k m : List UInt8) : Bytes 32 :=
  sha256 (xorpad 0x5c (hmacKey k) ++ (sha256 (xorpad 0x36 (hmacKey k) ++ m)).val)

/-- Extract, and the first block of expand. -/
def hkdf (ikm salt info : List UInt8) : Bytes 32 := hmac (hmac salt ikm).val (info ++ [1])

/-! ## The code -/

structure Hmacsha256ctx where
  inner : Sha256ctx
  outer : Sha256ctx
deriving DecidableEq, Repr

/-- The key that is used, and the buffer of `inner` behind it. -/
def hmackey (junk : Bytes 64) (k : List UInt8) : Option (List UInt8 × Bytes 64) :=
  if k.length > 64 then do
    let s ← sha256update (sha256init junk) k
    let kh ← sha256final s
    return (kh.1.val, kh.2.buf)
  else some (k, junk)

/-- The context is not set. -/
def hmacsha256init (junk : Hmacsha256ctx) (k : List UInt8) : Option Hmacsha256ctx := do
  let key ← hmackey junk.inner.buf k
  let inner ← sha256update (sha256init key.2) (xorpad 0x36 key.1)
  let outer ← sha256update (sha256init junk.outer.buf) (xorpad 0x5c key.1)
  return ⟨inner, outer⟩

def hmacsha256update (ctx : Hmacsha256ctx) (inp : List UInt8) : Option Hmacsha256ctx := do
  let inner ← sha256update ctx.inner inp
  return { ctx with inner := inner }

def hmacsha256final (ctx : Hmacsha256ctx) : Option (Bytes 32 × Hmacsha256ctx) := do
  let h ← sha256final ctx.inner
  let outer ← sha256update ctx.outer h.1.val
  let out ← sha256final outer
  return (out.1, ⟨h.2, out.2⟩)

def hmacsha256 (junk : Hmacsha256ctx) (k inp : List UInt8) : Option (Bytes 32) := do
  let ctx ← hmacsha256init junk k
  let ctx ← hmacsha256update ctx inp
  let out ← hmacsha256final ctx
  return out.1

/-- The second half of `hkdfsha256`, with one context for both hashes. -/
def hkdfexpand (junk : Bytes 64) (prk : Bytes 32) (info : List UInt8) : Option (Bytes 32) := do
  let ctx ← sha256update (sha256init junk) (xorpad 0x36 prk.val)
  let ctx ← sha256update ctx info
  let ctx ← sha256update ctx [1]
  let h ← sha256final ctx
  let ctx ← sha256update (sha256init h.2.buf) (xorpad 0x5c prk.val)
  let ctx ← sha256update ctx h.1.val
  let out ← sha256final ctx
  return out.1

def hkdfsha256 (junk : Hmacsha256ctx) (junk' : Bytes 64) (ikm salt info : List UInt8) :
    Option (Bytes 32) := do
  let prk ← hmacsha256 junk salt ikm
  hkdfexpand junk' prk info

/-! ## What the code computes -/

section

variable {k : List UInt8} {ctx : Hmacsha256ctx} {m : List UInt8}

/-- The first piece of a text. -/
theorem sha256_begin (junk : Bytes 64) (p : List UInt8) :
    ∃ s, sha256update (sha256init junk) p = some s ∧ Absorbed s p :=
  sha256update_spec (absorbed_init junk) p

theorem hmackey_spec (junk : Bytes 64) (k : List UInt8) :
    ∃ buf, hmackey junk k = some (hmacKey k, buf) := by
  unfold hmackey hmacKey
  split
  · obtain ⟨s, hs, habs⟩ := sha256_begin junk k
    obtain ⟨s', hs'⟩ := sha256final_spec habs
    refine ⟨s'.buf, ?_⟩
    simp only [hs, hs', Option.bind_eq_bind, Option.bind_some]
    rfl
  · exact ⟨junk, rfl⟩

/-- The context has the key and has been given `m`. -/
structure Keyed (ctx : Hmacsha256ctx) (k m : List UInt8) : Prop where
  inner : Absorbed ctx.inner (xorpad 0x36 (hmacKey k) ++ m)
  outer : Absorbed ctx.outer (xorpad 0x5c (hmacKey k))

theorem hmacsha256init_spec (junk : Hmacsha256ctx) (k : List UInt8) :
    ∃ ctx, hmacsha256init junk k = some ctx ∧ Keyed ctx k [] := by
  obtain ⟨buf, hkey⟩ := hmackey_spec junk.inner.buf k
  obtain ⟨inner, hi, hinner⟩ := sha256_begin buf (xorpad 0x36 (hmacKey k))
  obtain ⟨outer, ho, houter⟩ := sha256_begin junk.outer.buf (xorpad 0x5c (hmacKey k))
  refine ⟨⟨inner, outer⟩, ?_, ?_, houter⟩
  · simp only [hmacsha256init, hkey, hi, ho, Option.bind_eq_bind, Option.bind_some]
    rfl
  · rw [List.append_nil]
    exact hinner

theorem hmacsha256update_spec (h : Keyed ctx k m) (inp : List UInt8) :
    ∃ ctx', hmacsha256update ctx inp = some ctx' ∧ Keyed ctx' k (m ++ inp) := by
  obtain ⟨inner, hi, hinner⟩ := sha256update_spec h.inner inp
  rw [List.append_assoc] at hinner
  refine ⟨⟨inner, ctx.outer⟩, ?_, hinner, h.outer⟩
  rw [hmacsha256update, hi]
  rfl

theorem hmacsha256final_spec (h : Keyed ctx k m) :
    ∃ ctx', hmacsha256final ctx = some (hmac k m, ctx') := by
  obtain ⟨inner, hi⟩ := sha256final_spec h.inner
  obtain ⟨outer, ho, houter⟩ := sha256update_spec h.outer
    (sha256 (xorpad 0x36 (hmacKey k) ++ m)).val
  obtain ⟨outer', ho'⟩ := sha256final_spec houter
  refine ⟨⟨inner, outer'⟩, ?_⟩
  simp only [hmacsha256final, hi, ho, ho', Option.bind_eq_bind, Option.bind_some]
  rfl

/-- The whole text in one piece. -/
theorem hmacsha256_spec (junk : Hmacsha256ctx) (k inp : List UInt8) :
    hmacsha256 junk k inp = some (hmac k inp) := by
  obtain ⟨ctx, hi, hkeyed⟩ := hmacsha256init_spec junk k
  obtain ⟨ctx', hu, hkeyed'⟩ := hmacsha256update_spec hkeyed inp
  obtain ⟨ctx'', hf⟩ := hmacsha256final_spec hkeyed'
  rw [List.nil_append] at hf
  simp only [hmacsha256, hi, hu, hf, Option.bind_eq_bind, Option.bind_some]
  rfl

/-- The inlined HMAC of `hkdfsha256`. -/
theorem hkdfexpand_spec (junk : Bytes 64) (prk : Bytes 32) (info : List UInt8) :
    hkdfexpand junk prk info = some (hmac prk.val (info ++ [1])) := by
  have hkey : hmacKey prk.val = prk.val := by
    rw [hmacKey, if_neg (by rw [prk.size_eq]; decide)]
  obtain ⟨s₁, h₁, habs₁⟩ := sha256_begin junk (xorpad 0x36 prk.val)
  obtain ⟨s₂, h₂, habs₂⟩ := sha256update_spec habs₁ info
  obtain ⟨s₃, h₃, habs₃⟩ := sha256update_spec habs₂ [1]
  obtain ⟨s₄, h₄⟩ := sha256final_spec habs₃
  obtain ⟨s₅, h₅, habs₅⟩ := sha256_begin s₄.buf (xorpad 0x5c prk.val)
  obtain ⟨s₆, h₆, habs₆⟩ :=
    sha256update_spec habs₅ (sha256 (xorpad 0x36 prk.val ++ info ++ [1])).val
  obtain ⟨s₇, h₇⟩ := sha256final_spec habs₆
  simp only [hkdfexpand, h₁, h₂, h₃, h₄, h₅, h₆, h₇, Option.bind_eq_bind, Option.bind_some]
  rw [hmac, hkey, List.append_assoc]
  rfl

end

/-- The MAC of a text that comes in pieces, under a key of any length. -/
theorem hmacsha256_pieces (junk : Hmacsha256ctx) (k : List UInt8) (parts : List (List UInt8)) :
    ∃ ctx ctx' ctx'', hmacsha256init junk k = some ctx ∧
      parts.foldlM hmacsha256update ctx = some ctx' ∧
      hmacsha256final ctx' = some (hmac k parts.flatten, ctx'') := by
  obtain ⟨ctx, hi, hkeyed⟩ := hmacsha256init_spec junk k
  obtain ⟨ctx', hu, hkeyed'⟩ := Blockwise.foldlM_pieces hmacsha256update (Keyed · k ·)
    (fun p h => hmacsha256update_spec h p) parts hkeyed
  obtain ⟨ctx'', hf⟩ := hmacsha256final_spec hkeyed'
  exact ⟨ctx, ctx', ctx'', hi, hu, hf⟩

theorem hkdfsha256_spec (junk : Hmacsha256ctx) (junk' : Bytes 64) (ikm salt info : List UInt8) :
    hkdfsha256 junk junk' ikm salt info = some (hkdf ikm salt info) := by
  simp only [hkdfsha256, hmacsha256_spec, hkdfexpand_spec, Option.bind_eq_bind, Option.bind_some]
  rfl

end Agecrypt
