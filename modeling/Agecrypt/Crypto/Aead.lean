import Agecrypt.Crypto.Chacha20
import Agecrypt.Crypto.Poly1305

/-!
# Authenticated encryption

`chacha20poly1305write` and `chacha20poly1305read` are the calls of
`crypto/chacha20poly1305.c`.  The first key block of a context gives the key
of the authenticator and the next key of the context.  Reading accepts exactly
what writing makes in the same context, and the two leave the same context
behind.
-/

namespace Agecrypt

structure Chacha20poly1305ctx where
  counter : UInt64
  key : Bytes 32
  nonce : Bytes 8
deriving DecidableEq, Repr

/-- The counter starts in the upper half. -/
def chacha20poly1305init (key : Bytes 32) (nonce : Bytes 12) : Chacha20poly1305ctx where
  counter := (load32le nonce.val).toUInt64 <<< 32
  key := key
  nonce := ⟨nonce.val.drop 4, by rw [List.length_drop, nonce.size_eq]⟩

/-- The difference of two tags. -/
def x16 (a b : List UInt8) : UInt64 :=
  (load64le a ^^^ load64le b) ||| (load64le (a.drop 8) ^^^ load64le (b.drop 8))

/-- `0` for zero, `-1` else. -/
def neq0 (diff : UInt64) : Int32 :=
  let half := (diff >>> 32) ||| diff.toUInt32.toUInt64
  (((1 : UInt64) &&& ((half - 1) >>> 32)) - 1).toUInt32.toInt32

def verify16 (a b : List UInt8) : Int32 := neq0 (x16 a b)

def lockauth (junk : Bytes 16) (authkey : Bytes 32) (ad text : List UInt8) : Option (Bytes 16) := do
  let zeros (size : Nat) : List UInt8 := List.replicate (gap (UInt64.ofNat size) 16).toNat 0
  let sizes := store64le (UInt64.ofNat ad.length) ++ store64le (UInt64.ofNat text.length)
  let s ← poly1305update (poly1305init junk authkey) ad
  let s ← poly1305update s (zeros ad.length)
  let s ← poly1305update s text
  let s ← poly1305update s (zeros text.length)
  let s ← poly1305update s sizes
  poly1305final s

namespace Chacha20poly1305ctx

variable (s : Chacha20poly1305ctx)

/-- The first key block. -/
def authblock : Bytes 64 :=
  ⟨(chacha20djb none 64 s.key s.nonce s.counter).1, by
    rw [show 64 = 64 * 1 from rfl, chacha20djb_none, length_keystream]⟩

def authkey : Bytes 32 :=
  ⟨s.authblock.val.take 32, by
    rw [List.length_take, s.authblock.size_eq]
    rfl⟩

/-- The context with the key of the next message. -/
def rekeyed : Chacha20poly1305ctx :=
  { s with key := ⟨s.authblock.val.drop 32, by rw [List.length_drop, s.authblock.size_eq]⟩ }

/-- The text under the key blocks behind the first. -/
def stream (text : List UInt8) : List UInt8 :=
  (chacha20djb (some text) text.length s.key s.nonce (s.counter + 1)).1

end Chacha20poly1305ctx

/-- The sealed text, and the context that is left. -/
def chacha20poly1305write (junk : Bytes 16) (s : Chacha20poly1305ctx) (ad inp : List UInt8) :
    Option (List UInt8 × Chacha20poly1305ctx) := do
  let out := s.stream inp
  let mac ← lockauth junk s.authkey ad out
  return (out ++ mac.val, s.rekeyed)

/-- The answer is `none` for a step outside a buffer.  Inside it stands `none`
for a mismatch, which leaves the context as it is. -/
def chacha20poly1305read (junk : Bytes 16) (s : Chacha20poly1305ctx) (ad inp : List UInt8) :
    Option (Option (List UInt8 × Chacha20poly1305ctx)) :=
  if inp.length < 16 then some none
  else do
    let text := inp.take (inp.length - 16)
    let mac := inp.drop (inp.length - 16)
    let realmac ← lockauth junk s.authkey ad text
    return if verify16 mac realmac.val ≠ 0 then none else some (s.stream text, s.rekeyed)

/-! ## The comparison of the tags -/

theorem or64_eq_zero {a b : UInt64} : a ||| b = 0 ↔ a = 0 ∧ b = 0 := by
  constructor
  · intro h
    have hnat : a.toNat ||| b.toNat = 0 := by
      rw [← UInt64.toNat_or, h]
      rfl
    have hor := Nat.or_eq_zero_iff.mp hnat
    exact ⟨UInt64.toNat_inj.mp hor.1, UInt64.toNat_inj.mp hor.2⟩
  · rintro ⟨rfl, rfl⟩
    rfl

theorem toNat_half (diff : UInt64) :
    ((diff >>> 32) ||| diff.toUInt32.toUInt64).toNat < 2 ^ 32 := by
  have hd := diff.toNat_lt
  rw [UInt64.toNat_or, toNat_shiftRight32, UInt32.toNat_toUInt64, toNat_low]
  apply Nat.or_lt_two_pow
  · omega
  · omega

theorem half_eq_zero {diff : UInt64} : (diff >>> 32) ||| diff.toUInt32.toUInt64 = 0 ↔ diff = 0 := by
  have hd := diff.toNat_lt
  rw [or64_eq_zero]
  constructor
  · rintro ⟨hhigh, hlow⟩
    have h₁ : diff.toNat / 2 ^ 32 = 0 := by
      rw [← toNat_shiftRight32, hhigh]
      rfl
    have h₂ : diff.toNat % 2 ^ 32 = 0 := by
      rw [← toNat_low, ← UInt32.toNat_toUInt64, hlow]
      rfl
    apply UInt64.toNat_inj.mp
    show diff.toNat = 0
    omega
  · rintro rfl
    exact ⟨rfl, rfl⟩

theorem neq0_eq_zero {diff : UInt64} : neq0 diff = 0 ↔ diff = 0 := by
  have hlt := toNat_half diff
  rw [← @half_eq_zero diff, neq0]
  generalize (diff >>> 32) ||| diff.toUInt32.toUInt64 = half at hlt ⊢
  constructor
  · intro h
    by_contra hne
    have hpos : half.toNat ≠ 0 := by
      intro hzero
      exact hne (UInt64.toNat_inj.mp hzero)
    have hsub : (half - 1) >>> 32 = 0 := by
      have hone : (1 : UInt64) ≤ half := UInt64.le_iff_toNat_le.mpr (Nat.pos_of_ne_zero hpos)
      apply UInt64.toNat_inj.mp
      rw [toNat_shiftRight32, UInt64.toNat_sub_of_le _ _ hone]
      exact Nat.div_eq_of_lt (Nat.lt_of_le_of_lt (Nat.sub_le _ _) hlt)
    rw [hsub] at h
    revert h
    decide
  · rintro rfl
    decide

theorem load64le_inj {a b : List UInt8} (ha : 8 ≤ a.length) (hb : 8 ≤ b.length)
    (h : load64le a = load64le b) : a.take 8 = b.take 8 := by
  rw [← store64le_load ha, ← store64le_load hb, h]

/-- Two tags are compared whole. -/
theorem verify16_eq_zero {a b : List UInt8} (ha : a.length = 16) (hb : b.length = 16) :
    verify16 a b = 0 ↔ a = b := by
  rw [verify16, neq0_eq_zero, x16, or64_eq_zero, UInt64.xor_eq_zero_iff, UInt64.xor_eq_zero_iff]
  constructor
  · rintro ⟨hfront, hback⟩
    have hda : (a.drop 8).length = 8 := by rw [List.length_drop, ha]
    have hdb : (b.drop 8).length = 8 := by rw [List.length_drop, hb]
    have htake := load64le_inj (by omega) (by omega) hfront
    have hdrop := load64le_inj (by omega) (by omega) hback
    rw [List.take_of_length_le (by omega), List.take_of_length_le (by omega)] at hdrop
    rw [← List.take_append_drop 8 a, ← List.take_append_drop 8 b, htake, hdrop]
  · rintro rfl
    exact ⟨rfl, rfl⟩

/-! ## The tag -/

/-- Both texts in whole chunks, and their sizes. -/
def authtext (ad text : List UInt8) : List UInt8 :=
  ad ++ List.replicate (gap (UInt64.ofNat ad.length) 16).toNat 0 ++ text ++
    List.replicate (gap (UInt64.ofNat text.length) 16).toNat 0 ++
    (store64le (UInt64.ofNat ad.length) ++ store64le (UInt64.ofNat text.length))

def tag (authkey : Bytes 32) (ad text : List UInt8) : Bytes 16 :=
  poly1305 authkey (authtext ad text)

/-- `lock_auth` stays inside the chunk and answers the tag. -/
theorem lockauth_spec (junk : Bytes 16) (authkey : Bytes 32) (ad text : List UInt8) :
    lockauth junk authkey ad text = some (tag authkey ad text) := by
  have h₀ := authenticated_init junk authkey
  obtain ⟨s₁, hs₁, h₁⟩ := poly1305update_spec h₀ ad
  obtain ⟨s₂, hs₂, h₂⟩ := poly1305update_spec h₁
    (List.replicate (gap (UInt64.ofNat ad.length) 16).toNat 0)
  obtain ⟨s₃, hs₃, h₃⟩ := poly1305update_spec h₂ text
  obtain ⟨s₄, hs₄, h₄⟩ := poly1305update_spec h₃
    (List.replicate (gap (UInt64.ofNat text.length) 16).toNat 0)
  obtain ⟨s₅, hs₅, h₅⟩ := poly1305update_spec h₄
    (store64le (UInt64.ofNat ad.length) ++ store64le (UInt64.ofNat text.length))
  have hfinal := poly1305final_spec h₅
  rw [List.nil_append] at hfinal
  simp only [lockauth, hs₁, hs₂, hs₃, hs₄, hs₅, Option.bind_eq_bind, Option.bind_some]
  exact hfinal

section

variable {s : Chacha20poly1305ctx} {ad inp out : List UInt8}

theorem length_stream (s : Chacha20poly1305ctx) (text : List UInt8) :
    (s.stream text).length = text.length := by
  rw [Chacha20poly1305ctx.stream, chacha20djb_text]
  apply length_xorBytes
  rw [length_keystream]
  exact length_blocksFor text.length

/-- The stream is taken off by the same call. -/
theorem stream_stream (s : Chacha20poly1305ctx) (text : List UInt8) :
    s.stream (s.stream text) = text := by
  have hlen := length_stream s text
  rw [Chacha20poly1305ctx.stream, chacha20djb_text] at hlen
  rw [Chacha20poly1305ctx.stream, chacha20djb_text, Chacha20poly1305ctx.stream, chacha20djb_text,
    hlen]
  apply xorBytes_cancel
  rw [length_keystream]
  exact length_blocksFor text.length

/-- A sealed text. -/
def sealed (s : Chacha20poly1305ctx) (ad inp : List UInt8) : List UInt8 :=
  s.stream inp ++ (tag s.authkey ad (s.stream inp)).val

theorem length_sealed (s : Chacha20poly1305ctx) (ad inp : List UInt8) :
    (sealed s ad inp).length = inp.length + 16 := by
  rw [sealed, List.length_append, length_stream, (tag _ _ _).size_eq]

theorem chacha20poly1305write_eq (junk : Bytes 16) :
    chacha20poly1305write junk s ad inp = some (sealed s ad inp, s.rekeyed) := by
  rw [chacha20poly1305write, lockauth_spec]
  rfl

/-- What is opened: nothing, or the text that was sealed. -/
def opened (s : Chacha20poly1305ctx) (ad inp : List UInt8) : Option (List UInt8) :=
  let text := inp.take (inp.length - 16)
  if inp.length < 16 ∨ inp.drop (inp.length - 16) ≠ (tag s.authkey ad text).val then none
  else some (s.stream text)

theorem chacha20poly1305read_eq (junk : Bytes 16) :
    chacha20poly1305read junk s ad inp = some ((opened s ad inp).map (·, s.rekeyed)) := by
  unfold chacha20poly1305read opened
  by_cases hshort : inp.length < 16
  · rw [if_pos hshort, if_pos (.inl hshort)]
    rfl
  have hmac : (inp.drop (inp.length - 16)).length = 16 := by
    rw [List.length_drop]
    omega
  have hver := verify16_eq_zero hmac (tag s.authkey ad (inp.take (inp.length - 16))).size_eq
  rw [if_neg hshort]
  dsimp only
  rw [lockauth_spec]
  simp only [Option.bind_eq_bind, Option.bind_some, Option.pure_def]
  by_cases htag : inp.drop (inp.length - 16) = (tag s.authkey ad (inp.take (inp.length - 16))).val
  · have hzero := hver.mpr htag
    rw [if_neg (fun h => h hzero), if_neg (fun h => h.elim hshort (fun h => h htag))]
    rfl
  · have hzero := mt hver.mp htag
    rw [if_pos hzero, if_pos (.inr htag)]
    rfl

/-- A text is opened exactly when it is the seal of what comes out. -/
theorem opened_eq_some : opened s ad inp = some out ↔ inp = sealed s ad out := by
  unfold opened
  constructor
  · intro h
    dsimp only at h
    split at h
    · cases h
    · rename_i hok
      have hmac : inp.drop (inp.length - 16) =
          (tag s.authkey ad (inp.take (inp.length - 16))).val :=
        Decidable.not_not.mp (fun hne => hok (.inr hne))
      rw [← Option.some.inj h, sealed, stream_stream, ← hmac, List.take_append_drop]
  · rintro rfl
    have hlen := length_sealed s ad out
    have hsub : (sealed s ad out).length - 16 = (s.stream out).length := by
      rw [hlen, length_stream]
      omega
    have htake : (sealed s ad out).take ((sealed s ad out).length - 16) = s.stream out := by
      rw [hsub, sealed, List.take_left]
    have hdrop : (sealed s ad out).drop ((sealed s ad out).length - 16) =
        (tag s.authkey ad (s.stream out)).val := by
      rw [hsub, sealed, List.drop_left]
    have hlong : ¬ (sealed s ad out).length < 16 := by omega
    dsimp only
    rw [htake, hdrop, stream_stream, if_neg (fun h => h.elim hlong (fun h => h rfl))]

end

/-- In one context, reading accepts a text and answers `out` exactly when
writing makes that text of `out`, and both leave the same context.  No read
leads outside a buffer, whatever it is given. -/
theorem chacha20poly1305_exact (junk junk' : Bytes 16) (s : Chacha20poly1305ctx)
    (ad inp : List UInt8) :
    (∃ answer, chacha20poly1305read junk s ad inp = some answer) ∧
      ∀ out s', chacha20poly1305read junk s ad inp = some (some (out, s')) ↔
        chacha20poly1305write junk' s ad out = some (inp, s') := by
  rw [chacha20poly1305read_eq]
  refine ⟨⟨_, rfl⟩, fun out s' => ?_⟩
  rw [chacha20poly1305write_eq, Option.some.injEq, Option.some.injEq, Option.map_eq_some_iff,
    Prod.mk.injEq, @eq_comm _ (sealed s ad out), ← opened_eq_some]
  constructor
  · rintro ⟨text, htext, heq⟩
    obtain ⟨rfl, rfl⟩ := Prod.mk.inj heq
    exact ⟨htext, rfl⟩
  · rintro ⟨htext, rfl⟩
    exact ⟨out, htext, rfl⟩

end Agecrypt
