import Agecrypt.Agec.PayloadStream
import Agecrypt.Lib.Always
import Agecrypt.Lib.Interp
import Mathlib.Data.List.Nodup

/-!
# The nonces of the payload

`plencryptCalls` and `pldecryptCalls` are the loops of `payload.c` with the
AEAD as an operation: with the answers of `C` they are `plencrypt` and
`pldecrypt`.  A run of them keeps a log of its AEAD calls and of the answers
of `bwrite`.

Whatever the buffers answer, the log is at every moment that of some full
rounds, in which chunk `i` had the nonce `chunkNonce i false`, and of one
round under way.  So no nonce comes twice, and behind `2 ^ 88` rounds there
is only the error.
-/

namespace Agecrypt

open ProgE

/-! ## The counter -/

inductive AeadOp where
  | rw (o : RwOp)
  | write (key : Bytes 32) (nonce : Bytes 12) (inp : List UInt8)
  | read (key : Bytes 32) (nonce : Bytes 12) (inp : List UInt8)

@[reducible] def AeadRet : AeadOp → Type
  | .rw o => RwRet o
  | .write .. => List UInt8
  | .read .. => Option (List UInt8)

abbrev Calls (α : Type) := ProgE AeadOp AeadRet α

namespace Calls

def rw {α : Type} (p : Rw α) : Calls α := ProgE.embed AeadOp.rw (fun _ r => r) p

def encchunk (inp : List UInt8) (key : Bytes 32) (nonce : Bytes 12) : Calls (List UInt8) :=
  ProgE.op (AeadOp.write key nonce inp)

def decchunk (inp : List UInt8) (key : Bytes 32) (nonce : Bytes 12) :
    Calls (Option (List UInt8)) :=
  ProgE.op (AeadOp.read key nonce inp)

end Calls

/-- What the AEAD answers. -/
def Crypto.answers (C : Crypto) : (o : AeadOp) → Prog RwOp RwRet (AeadRet o)
  | .rw o => .call o .pure
  | .write key nonce inp => .pure (C.chacha20poly1305write key nonce inp)
  | .read key nonce inp => .pure (C.chacha20poly1305read key nonce inp)

section

variable (C : Crypto)

end

/-! ## The log of a run -/

/-- An AEAD call with its nonce, and an answer of `bwrite`. -/
inductive Note where
  | aead (nonce : Bytes 12)
  | bwrite (ok : Bool)

section

variable {σ : Type}

variable {C : Crypto} {h : Handler RwOp RwRet σ}

end

/-! ## Rounds -/

/-- The log of `i` rounds with more input behind them. -/
def fullRounds : Nat → List Note
  | 0 => []
  | i + 1 => fullRounds i ++ [.aead (chunkNonce i false), .bwrite true]

-- unfolding a log of `2 ^ 88` rounds would not end
attribute [irreducible] fullRounds

/-- Between two rounds: the counter, or the error behind its last value. -/
def Rounded (nonce : Bytes 12) (err : Option String) (log : List Note) : Prop :=
  ∃ i, log = fullRounds i ∧
    (i < 2 ^ 88 ∧ nonce = chunkNonce i false ∧ err = none ∨ i = 2 ^ 88 ∧ err = some ewrapped)

theorem Rounded.start : Rounded (Bytes.zero 12) none [] :=
  ⟨0, by rw [fullRounds], .inl ⟨by decide, chunkNonce_zero.symm, rfl⟩⟩

theorem Rounded.next {i : Nat} (hi : i < 2 ^ 88) :
    Rounded (incnonce (chunkNonce i false)).1 (incnonce (chunkNonce i false)).2
      (fullRounds (i + 1)) := by
  rcases Nat.lt_or_eq_of_le (Nat.succ_le_of_lt hi) with hlt | heq
  · refine ⟨i + 1, rfl, .inl ⟨hlt, ?_⟩⟩
    rw [incnonce_chunkNonce hlt]
    exact ⟨rfl, rfl⟩
  · exact ⟨i + 1, rfl, .inr ⟨heq, incnonce_wrapped heq⟩⟩

section

variable {σ β : Type} {C : Crypto} {h : Handler RwOp RwRet σ} {s : σ} {log : List Note}

end

/-! ## Whole runs -/

theorem Rounded.unique {nonce : Bytes 12} {err : Option String} {log log' : List Note}
    (h : Rounded nonce err log) (h' : Rounded nonce err log') : log = log' := by
  obtain ⟨i, rfl, ⟨hi, rfl, rfl⟩ | ⟨rfl, rfl⟩⟩ := h
  · obtain ⟨j, rfl, ⟨hj, hnonce, -⟩ | ⟨-, herr⟩⟩ := h'
    · rw [(chunkNonce_inj hi hj hnonce).1]
    · cases herr
  · obtain ⟨j, rfl, ⟨-, -, herr⟩ | ⟨rfl, -⟩⟩ := h'
    · cases herr
    · rfl

section

variable (C : Crypto) (key : Bytes 32) {am : Am}

end

end Agecrypt
