import Agecrypt.Agec.Crypto
import Agecrypt.Agec.Ops

/-!
# `payload.c`: the payload

The plaintext is sealed in chunks.  The first eleven bytes of the nonce
count the chunks and the last byte marks the last chunk.  Both loops look
for the end of the input after each chunk.

The chunk counter `i` of `pldecrypt` is an `int`.
-/

namespace Agecrypt

def CHUNKLEN : Nat := 64 * 1024

def eemptychunk : String := "format error: final chunk is empty"
def ewrapped : String := "payload is too long; chunk counter wrapped"

/-- `i++` for an `int`. -/
def incint (i : Int) : Rd Int :=
  if i < 2 ^ 31 - 1 then return i + 1 else Rd.overflow

/-- The loop of `incnonce`, for the positions below `i`. -/
def incnonceLoop : Nat → List UInt8 → List UInt8 × Option String
  | 0, nonce => (nonce, some ewrapped)
  | i + 1, nonce =>
    let b := nonce.getD i 0 + 1
    let nonce := nonce.set i b
    if b ≠ 0 then (nonce, none) else incnonceLoop i nonce

theorem length_incnonceLoop (i : Nat) (nonce : List UInt8) :
    (incnonceLoop i nonce).1.length = nonce.length := by
  induction i generalizing nonce with
  | zero => rfl
  | succ i ih =>
    rw [incnonceLoop]
    split
    · exact List.length_set
    · rw [ih]
      exact List.length_set

/-- Count the nonce up, and the error of a counter that wrapped. -/
def incnonce (nonce : Bytes 12) : Bytes 12 × Option String :=
  (⟨(incnonceLoop 11 nonce.val).1, by rw [length_incnonceLoop, nonce.size_eq]⟩,
    (incnonceLoop 11 nonce.val).2)

/-- `nonce[11] = 1` when `last` is set. -/
def marklast (last : Bool) (nonce : Bytes 12) : Bytes 12 :=
  if last then ⟨nonce.val.set 11 1, by rw [List.length_set, nonce.size_eq]⟩ else nonce

/-- Whether the input has ended; `none` for an input error. -/
def ateof : Rd (Option Bool) := do
  if ← Rd.ibeof then return some true
  else
    match ← Rd.bpeek with
    | .err => return none
    | .eof => return some true
    | .char _ => return some false

def encchunk (C : Crypto) (inp : List UInt8) (key : Bytes 32) (nonce : Bytes 12) :
    List UInt8 :=
  C.chacha20poly1305write key nonce inp

/-- The loop body of `plencrypt`.  The loop state is the nonce and the error
of the last `incnonce`. -/
def plencryptChunk (C : Crypto) (plkey : Bytes 32) (st : Bytes 12 × Option String) :
    Rw ((Bytes 12 × Option String) ⊕ Unit) := do
  match st.2 with
  | some e => throw e
  | none =>
    match ← Rw.bread CHUNKLEN with
    | none => Rw.failed
    | some ichunk =>
      match ← Rw.rd ateof with
      | none => Rw.failed
      | some last => do
        let nonce := marklast last st.1
        if ← Rw.bwrite (encchunk C ichunk plkey nonce) then
          return if last then .inr () else .inl (incnonce nonce)
        else Rw.failed

def plencrypt (C : Crypto) (plkey : Bytes 32) : Rw Unit :=
  ProgE.loop (plencryptChunk C plkey) (Bytes.zero 12, none)

def decchunk (C : Crypto) (inp : List UInt8) (key : Bytes 32) (nonce : Bytes 12) :
    Option (List UInt8) :=
  C.chacha20poly1305read key nonce inp

/-- The variables of the loop of `pldecrypt`: the nonce, the error of the
last `incnonce`, and the chunk counter `i`. -/
structure Pldec where
  nonce : Bytes 12
  err : Option String
  i : Int

/-- The loop body of `pldecrypt`. -/
def pldecryptChunk (C : Crypto) (plkey : Bytes 32) (st : Pldec) : Rw (Pldec ⊕ Unit) := do
  match st.err with
  | some e => throw e
  | none =>
    match ← Rw.bread (CHUNKLEN + TAGLEN) with
    | none => Rw.failed
    | some ichunk =>
      match ← Rw.rd ateof with
      | none => Rw.failed
      | some last =>
        if last ∧ st.i > 0 ∧ ichunk.length = TAGLEN then throw eemptychunk
        else do
          let nonce := marklast last st.nonce
          match decchunk C ichunk plkey nonce with
          | none => do
            Rw.eset "failed to decrypt and authenticate payload"
            Rw.failed
          | some outbuf =>
            if ← Rw.bwrite outbuf then do
              let i ← Rw.rd (incint st.i)
              return if last then .inr ()
                else .inl ⟨(incnonce nonce).1, (incnonce nonce).2, i⟩
            else Rw.failed

def pldecrypt (C : Crypto) (plkey : Bytes 32) : Rw Unit :=
  ProgE.loop (pldecryptChunk C plkey) ⟨Bytes.zero 12, none, 0⟩

end Agecrypt
