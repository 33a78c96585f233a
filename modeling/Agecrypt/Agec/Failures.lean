import Agecrypt.Agec.Agecore
import Agecrypt.Agec.Recording
import Agecrypt.Lib.Heeds

/-!
# The codec gives up at the first failure

The functions of `io.c` answer -1 when a read or a write fails, and
`randombuf` when there are no random bytes.  Every function of the codec
hands such an answer on to its caller, up to the error text of
`age_encipher` and `age_decipher`.

The two calls whose answer nobody looks at are those of `readc` behind a
`bpeek` that has seen a character: the character is in the buffer then, so
that they cannot fail.
-/

namespace Agecrypt

open ProgE (Gives Heeds IsError)

/-! ## Answers that are failures -/

def RdOp.Refused : (o : RdOp) → RdRet o → Prop
  | .bread _, r => r = none
  | .bpeek, r => r = .err
  | .ibeof, _ => False
  | .overflow, _ => False
  | .err _, _ => False

def WrOp.Refused : (o : WrOp) → WrRet o → Prop
  | .bwrite _, r => r = false
  | .bflush, r => r = false
  | .writeall _, r => r = false
  | .obarmor, _ => False
  | .randombuf _, r => r = none
  | .err _, _ => False

def RwOp.Refused : (o : RwOp) → RwRet o → Prop
  | .rd o, r => o.Refused r
  | .wr o, r => o.Refused r

def AgeOp.Refused : (o : AgeOp) → AgeRet o → Prop
  | .rw o, r => o.Refused r
  | .rc .recstop, r => r = none
  | .rc (.loadData _), _ => False

variable {δ : Type} [Descr δ] {α β : Type}

/-- The program hands a failure of the input buffer on. -/
abbrev RdHeeds (R : Except String α → Prop) (p : Rd α) (io : Io δ) : Prop :=
  Heeds rdHandler (fun o _ r _ => o.Refused r) R p io

abbrev WrHeeds (R : Except String α → Prop) (p : Wr α) (io : Io δ) : Prop :=
  Heeds wrHandler (fun o _ r _ => o.Refused r) R p io

abbrev RwHeeds (R : Except String α → Prop) (p : Rw α) (io : Io δ) : Prop :=
  Heeds rwHandler (fun o _ r _ => o.Refused r) R p io

abbrev AgeHeeds (R : Except String α → Prop) (p : Age α) (io : Io δ) : Prop :=
  Heeds ageHandler (fun o _ r _ => o.Refused r) R p io

theorem Rd.failed_gives (io : Io δ) : Gives rdHandler IsError (Rd.failed : Rd α) io :=
  Gives.op_bind (a := Agecrypt.eget io) rfl (Gives.throw trivial)

theorem Wr.failed_gives (io : Io δ) : Gives wrHandler IsError (Wr.failed : Wr α) io :=
  Gives.op_bind (a := Agecrypt.eget io) rfl (Gives.throw trivial)

theorem Rw.failed_gives (io : Io δ) : Gives rwHandler IsError (Rw.failed : Rw α) io :=
  Gives.op_bind (a := Agecrypt.eget io) rfl (Gives.throw trivial)

/-! ## One call of the input buffer -/

/-- `bread`, and what follows it. -/
theorem bread_heeds {R : Except String α → Prop} {n : Nat} {f : Option (List UInt8) → Rd α}
    {io : Io δ} (hnone : ∀ io' : Io δ, Gives rdHandler R (f none) io')
    (hsome : ∀ bs (io' : Io δ), RdHeeds R (f (some bs)) io') : RdHeeds R (Rd.bread n >>= f) io := by
  refine Heeds.op_bind_bad none (fun _ _ _ => id) hnone fun r io' _ hr => ?_
  cases r with
  | none => exact absurd rfl hr
  | some bs => exact hsome bs io'

/-- `bpeek`, and what follows it. -/
theorem bpeek_heeds {R : Except String α → Prop} {f : Peek → Rd α} {io : Io δ}
    (herr : ∀ io' : Io δ, Gives rdHandler R (f .err) io')
    (heof : ∀ io' : Io δ, RdHeeds R (f .eof) io')
    (hchar : ∀ c (io' : Io δ), bpeek io = some (.char c, io') → RdHeeds R (f (.char c)) io') :
    RdHeeds R (Rd.bpeek >>= f) io := by
  refine Heeds.op_bind_bad .err (fun _ _ _ => id) herr fun r io' hb hr => ?_
  cases r with
  | err => exact absurd rfl hr
  | eof => exact heof io'
  | char c => exact hchar c io' hb

theorem readc_reports (io : Io δ) : RdHeeds (fun r => r = .ok .err) readc io := by
  refine bread_heeds (fun io' => Gives.pure rfl) fun bs io' => ?_
  cases bs with
  | nil => exact .pure
  | cons c _ => exact .pure

/-- `readc`, and what follows it. -/
theorem readc_heeds {R : Except String α → Prop} {f : Peek → Rd α} {io : Io δ}
    (herr : ∀ io' : Io δ, Gives rdHandler R (f .err) io')
    (heof : ∀ io' : Io δ, RdHeeds R (f .eof) io')
    (hchar : ∀ c (io' : Io δ), RdHeeds R (f (.char c)) io') : RdHeeds R (readc >>= f) io := by
  refine Heeds.bind (readc_reports io) (fun e he => by cases he) (fun r io' hr => ?_)
    fun r io' _ => ?_
  · obtain rfl := Except.ok.inj hr
    exact herr io'
  · cases r with
    | err => exact .of_gives (herr io')
    | eof => exact heof io'
    | char c => exact hchar c io'

/-- There is a character in the buffer. -/
structure Peeked (ib : Ibuf) : Prop where
  opened : ib.isarmor ≠ .unchecked
  cur : ib.cur < ib.size

theorem recgrow_isarmor (src : List UInt8) (io : Io δ) :
    (recgrow src io).ib.isarmor = io.ib.isarmor := by
  unfold recgrow
  simp only
  split
  · split
    · rfl
    · split <;> rfl
  · rfl

theorem recappend_isarmor (src : List UInt8) (io : Io δ) :
    (recappend src io).ib.isarmor = io.ib.isarmor := by
  unfold recappend
  split
  · rfl
  split
  · split
    · rfl
    · exact recgrow_isarmor src _
  · exact recgrow_isarmor src io

theorem dropBuffer_isarmor {io io' : Io δ} (h : dropBuffer io = some io') :
    io'.ib.isarmor = io.ib.isarmor ∧ io'.ib.cur = 0 := by
  unfold dropBuffer at h
  split at h
  · obtain ⟨src, -, h⟩ := Option.bind_eq_some_iff.mp h
    rw [← Option.some.inj h]
    exact ⟨recappend_isarmor src io, rfl⟩
  · rw [← Option.some.inj h]
    exact ⟨rfl, rfl⟩

theorem isarmor_checked {io io' : Io δ} {a : Armored} (h : isarmor io = some (a, io')) :
    a ≠ .unchecked := by
  obtain ⟨⟨⟨bs, fin⟩, dev⟩, -, h⟩ := Option.bind_eq_some_iff.mp h
  obtain ⟨buf, -, h⟩ := Option.bind_eq_some_iff.mp h
  simp only at h
  split at h
  · rw [← (Prod.mk.inj (Option.some.inj h)).1]
    exact Armored.noConfusion
  split at h
  · rw [← (Prod.mk.inj (Option.some.inj h)).1]
    exact Armored.noConfusion
  split at h
  · rw [← (Prod.mk.inj (Option.some.inj h)).1]
    exact Armored.noConfusion
  · rw [← (Prod.mk.inj (Option.some.inj h)).1]
    exact Armored.noConfusion

theorem probe_opened {io io' : Io δ} {ok : Bool} (h : probe io = some (ok, io')) :
    io'.ib.isarmor ≠ .unchecked := by
  rw [probe] at h
  split at h
  · obtain ⟨⟨a, io₁⟩, ha, h⟩ := Option.bind_eq_some_iff.mp h
    obtain ⟨-, rfl⟩ := Prod.mk.inj (Option.some.inj h)
    exact isarmor_checked ha
  · rename_i hne
    obtain ⟨-, rfl⟩ := Prod.mk.inj (Option.some.inj h)
    exact hne

/-- Behind a `bpeek` that has seen a character. -/
theorem bpeek_peeked {io io' : Io δ} {c : UInt8} (h : bpeek io = some (.char c, io')) :
    Peeked io'.ib := by
  obtain ⟨⟨ok, io₁⟩, hp, h⟩ := Option.bind_eq_some_iff.mp h
  have hopen := probe_opened hp
  simp only at h
  split at h
  · cases (Prod.mk.inj (Option.some.inj h)).1
  split at h
  · cases (Prod.mk.inj (Option.some.inj h)).1
  split at h
  · rename_i hcur
    obtain ⟨bs, -, h⟩ := Option.bind_eq_some_iff.mp h
    obtain ⟨-, rfl⟩ := Prod.mk.inj (Option.some.inj h)
    exact ⟨hopen, hcur⟩
  obtain ⟨io₂, hd, h⟩ := Option.bind_eq_some_iff.mp h
  obtain ⟨harm, hcur⟩ := dropBuffer_isarmor hd
  obtain ⟨⟨nr, io₃⟩, hf, h⟩ := Option.bind_eq_some_iff.mp h
  have hr := fill_refilled io₂ nr io₃ hf
  -- the size that `bpeek` takes from the refill is not 0
  have hpeeked : ∀ {io₃ : Io δ} {n : Nat}, Refilled io₂.ib io₃.ib → 0 < n →
      (do
        let io : Io δ := { io₃ with ib := { io₃.ib with size := n } }
        let bs ← io.ib.buf.load 0 1
        some (Peek.char (bs.headD 0), io)) = some (.char c, io') → Peeked io'.ib := by
    intro io₃ n hr hn h
    obtain ⟨bs, -, h⟩ := Option.bind_eq_some_iff.mp h
    obtain ⟨-, rfl⟩ := Prod.mk.inj (Option.some.inj h)
    refine ⟨?_, ?_⟩
    · show io₃.ib.isarmor ≠ .unchecked
      rw [hr.isarmor, harm]
      exact hopen
    · show io₃.ib.cur < n
      rw [hr.cur, hcur]
      exact hn
  rcases nr with _ | _ | _ | n
  · cases (Prod.mk.inj (Option.some.inj h)).1
  · exact hpeeked (n := USIZE - 2) hr (by decide) h
  · cases (Prod.mk.inj (Option.some.inj h)).1
  · exact hpeeked (n := n + 1) hr (Nat.succ_pos n) h

/-- A `readc` that cannot fail. -/
theorem readc_peeked {io : Io δ} (h : Peeked io.ib) (R : Except String Peek → Prop) :
    RdHeeds R readc io := by
  have hsome : ∀ r io', bread 1 io = some (r, io') → r ≠ none := by
    intro r io' hb
    have hne : io.ib.cur ≠ io.ib.size := Nat.ne_of_lt h.cur
    have hsize : ¬ (io.ib.size = 0 ∧ io.ib.eof = false) := by
      have := h.cur
      omega
    have hrest : ¬ (io.ib.size - io.ib.cur = 0 ∧ io.ib.eof = true) := by
      have := h.cur
      omega
    rw [bread, probe, if_neg h.opened] at hb
    change breadLoop 1 1 [] io = _ at hb
    rw [breadLoop, breadRefill, if_neg hne] at hb
    change (breadFetch io).bind _ = _ at hb
    rw [breadFetch, if_neg hsize] at hb
    change (if _ then _ else _) = _ at hb
    rw [if_neg hrest] at hb
    obtain ⟨bs, -, hb⟩ := Option.bind_eq_some_iff.mp hb
    have hdone : 0 + 1 - min (io.ib.size - io.ib.cur) (0 + 1) = 0 := by
      have := h.cur
      omega
    rw [hdone, breadLoop] at hb
    obtain ⟨rfl, -⟩ := Prod.mk.inj (Option.some.inj hb)
    exact Option.some_ne_none _
  refine Heeds.op_bind (fun r io' hb hr => absurd hr (hsome r io' hb)) fun r io' hb => ?_
  rcases r with _ | _ | ⟨c, bs⟩
  · exact absurd rfl (hsome none io' hb)
  · exact .pure
  · exact .pure

/-! ## The parser -/

theorem getversion_heeds (io : Io δ) : RdHeeds IsError getversion io := by
  refine bread_heeds Rd.failed_gives fun bs io' => ?_
  dsimp only
  split
  · exact .throw
  split
  · exact .throw
  · exact .pure

theorem skipargline_heeds (io : Io δ) : RdHeeds IsError skipargline io := by
  refine Heeds.loop fun prevspace io => ?_
  refine readc_heeds Rd.failed_gives (fun _ => .throw) fun c io' => ?_
  dsimp only
  split
  · exact .throw
  split
  · exact .pure
  split
  · exact .pure
  split
  · exact .throw
  · exact .pure

theorem skipargbody_heeds (io : Io δ) : RdHeeds IsError skipargbody io := by
  refine Heeds.loop fun line io => ?_
  refine readc_heeds Rd.failed_gives (fun _ => .throw) fun c io' => ?_
  dsimp only
  split
  · split
    · exact .throw
    split
    · exact .throw
    · exact .pure
  split
  · exact .throw
  · exact .pure

theorem skipstanza_heeds (io : Io δ) : RdHeeds IsError skipstanza io := by
  refine readc_heeds Rd.failed_gives (fun _ => .throw) fun c io' => ?_
  dsimp only
  split
  · exact .seq (skipargline_heeds io') fun _ => skipargbody_heeds
  split
  · exact .throw
  · exact skipargbody_heeds io'

/-- The answer of the `readc` is not looked at, but `bpeek` has seen the
character. -/
theorem peeked_heeds {R : Except String α → Prop} {p : Rd α} {io : Io δ} (h : Peeked io.ib)
    (hp : ∀ io' : Io δ, RdHeeds R p io') : RdHeeds R (readc >>= fun _ => p) io := by
  have hreadc : RdHeeds (fun _ => False) readc io := readc_peeked h _
  exact Heeds.bind hreadc (fun _ => False.elim) (fun _ _ => False.elim) fun _ io' _ => hp io'

theorem getarg_heeds (rest : Nat) : ∀ (dest : List UInt8) (io : Io δ),
    RdHeeds IsError (getarg rest dest) io := by
  induction rest with
  | zero =>
    intro dest io
    rw [getarg]
    refine bpeek_heeds Rd.failed_gives (fun _ => .throw) fun c io' _ => ?_
    dsimp only
    split
    · exact .pure
    · exact .pure
  | succ rest ih =>
    intro dest io
    rw [getarg]
    refine bpeek_heeds Rd.failed_gives (fun _ => .throw) fun c io' hb => ?_
    dsimp only
    split
    · exact .pure
    split
    · exact .throw
    · exact peeked_heeds (bpeek_peeked hb) (ih (dest ++ [c]))

theorem skiparg_heeds (io : Io δ) : RdHeeds IsError skiparg io := by
  refine Heeds.loop fun _ io => ?_
  refine bpeek_heeds Rd.failed_gives (fun _ => .throw) fun c io' hb => ?_
  dsimp only
  split
  · exact .pure
  split
  · exact .throw
  · exact peeked_heeds (bpeek_peeked hb) fun _ => .pure

theorem b64chars_reports (term : UInt8) (rest : Nat) : ∀ (buf : List UInt8) (io : Io δ),
    RdHeeds (fun r => r = .ok none) (b64chars term rest buf) io := by
  induction rest with
  | zero =>
    intro buf io
    refine readc_heeds (fun _ => Gives.pure rfl) (fun _ => .pure) fun c io' => ?_
    exact .pure
  | succ rest ih =>
    intro buf io
    refine readc_heeds (fun _ => Gives.pure rfl) (fun _ => .pure) fun c io' => ?_
    dsimp only
    split
    · exact .pure
    split
    · exact .pure
    · exact ih _ io'

theorem getb64seq_reports (rawlen : Nat) (term : UInt8) (io : Io δ) :
    RdHeeds (fun r => r = .ok .ioerr) (getb64seq rawlen term) io := by
  refine Heeds.bind (b64chars_reports term _ [] io) (fun e he => by cases he)
    (fun r io' hr => ?_) fun r io' _ => ?_
  · obtain rfl := Except.ok.inj hr
    exact Gives.pure rfl
  · rcases r with _ | _ | buf
    · exact .of_gives (Gives.pure rfl)
    · exact .pure
    · dsimp only
      split
      · exact .pure
      · exact .pure

theorem b64value_heeds (rawlen : Nat) (term : UInt8) (einval : String) (io : Io δ) :
    RdHeeds IsError (b64value rawlen term einval) io := by
  refine Heeds.bind (getb64seq_reports rawlen term io) (fun e _ => trivial)
    (fun r io' hr => ?_) fun r io' _ => ?_
  · obtain rfl := Except.ok.inj hr
    exact Rd.failed_gives io'
  · cases r with
    | ioerr => exact .of_gives (Rd.failed_gives io')
    | invalid => exact .throw
    | value out => exact .pure

theorem costDigits_heeds (rest : Nat) : ∀ (buf : List UInt8) (io : Io δ),
    RdHeeds IsError (costDigits rest buf) io := by
  induction rest with
  | zero => exact fun _ _ => .throw
  | succ rest ih =>
    intro buf io
    refine readc_heeds Rd.failed_gives (fun _ => .throw) fun c io' => ?_
    dsimp only
    split
    · split
      · exact .throw
      · exact .pure
    split
    · exact .throw
    · exact ih _ io'

theorem getscrypt_heeds (io : Io δ) : RdHeeds IsError getscrypt io :=
  .seq (b64value_heeds 16 SP _ io) fun _ io₁ =>
    .seq (.seq (costDigits_heeds 5 [] io₁) fun _ _ => .pure) fun _ io₂ =>
      .seq (b64value_heeds 32 NL _ io₂) fun _ _ => .pure

theorem getx25519_heeds (io : Io δ) : RdHeeds IsError getx25519 io :=
  .seq (b64value_heeds 32 NL _ io) fun _ io₁ =>
    .seq (b64value_heeds 32 NL _ io₁) fun _ _ => .pure

theorem getunknown_heeds (io : Io δ) : RdHeeds IsError getunknown io :=
  .seq (skipstanza_heeds io) fun _ _ => .pure

theorem getargspace_heeds (io : Io δ) : RdHeeds IsError getargspace io := by
  refine readc_heeds Rd.failed_gives (fun _ => .throw) fun c io' => ?_
  dsimp only
  split
  · exact .throw
  · exact .pure

theorem getstanza_heeds (io : Io δ) : RdHeeds IsError getstanza io := by
  refine bread_heeds Rd.failed_gives fun bs io₁ => ?_
  dsimp only
  split
  · exact .throw
  split
  · exact .pure
  split
  · exact .throw
  refine .seq (getarg_heeds _ [] io₁) fun a io₂ => ?_
  obtain ⟨arg, fullread⟩ := a
  dsimp only
  split
  · exact .seq (skiparg_heeds io₂) fun _ => getunknown_heeds
  split
  · exact .seq (getargspace_heeds io₂) fun _ io₃ => .seq (getscrypt_heeds io₃) fun _ _ => .pure
  split
  · exact .seq (getargspace_heeds io₂) fun _ io₃ => .seq (getx25519_heeds io₃) fun _ _ => .pure
  · exact getunknown_heeds io₂

theorem getmac_heeds (io : Io δ) : RdHeeds IsError getmac io := by
  refine .seq (p := skipspace) ?_ fun _ io' => b64value_heeds 32 NL _ io'
  refine readc_heeds Rd.failed_gives (fun _ => .throw) fun c io' => ?_
  dsimp only
  split
  · exact .throw
  · exact .pure

theorem getplnonce_heeds (io : Io δ) : RdHeeds IsError getplnonce io := by
  refine bread_heeds Rd.failed_gives fun bs io' => ?_
  dsimp only
  split
  · exact .throw
  · exact .pure

/-! ## The header writers -/

theorem bwrite_heeds {R : Except String α → Prop} {bs : List UInt8} {f : Bool → Wr α} {io : Io δ}
    (hfail : ∀ io' : Io δ, Gives wrHandler R (f false) io')
    (hok : ∀ io' : Io δ, WrHeeds R (f true) io') : WrHeeds R (Wr.bwrite bs >>= f) io := by
  refine Heeds.op_bind_bad false (fun _ _ _ => id) hfail fun r io' _ hr => ?_
  obtain rfl := Bool.eq_true_of_not_eq_false hr
  exact hok io'

theorem writeall_heeds {R : Except String α → Prop} {bs : List UInt8} {f : Bool → Wr α}
    {io : Io δ} (hfail : ∀ io' : Io δ, Gives wrHandler R (f false) io')
    (hok : ∀ io' : Io δ, WrHeeds R (f true) io') : WrHeeds R (Wr.writeall bs >>= f) io := by
  refine Heeds.op_bind_bad false (fun _ _ _ => id) hfail fun r io' _ hr => ?_
  obtain rfl := Bool.eq_true_of_not_eq_false hr
  exact hok io'

theorem randombuf_heeds {R : Except String α → Prop} {n : Nat} {f : Option (Bytes n) → Wr α}
    {io : Io δ} (hfail : ∀ io' : Io δ, Gives wrHandler R (f none) io')
    (hok : ∀ bs (io' : Io δ), WrHeeds R (f (some bs)) io') :
    WrHeeds R (Wr.randombuf n >>= f) io := by
  refine Heeds.op_bind_bad none (fun _ _ _ => id) hfail fun r io' _ hr => ?_
  cases r with
  | none => exact absurd rfl hr
  | some bs => exact hok bs io'

theorem hdrappend_heeds (h : Header) (text : List UInt8) (io : Io δ) :
    WrHeeds IsError (hdrappend h text) io := by
  unfold hdrappend
  split
  · exact .throw
  · exact bwrite_heeds Wr.failed_gives fun _ => .pure

theorem x25519stanza_heeds (C : Crypto) (h : Header) (filekey : Bytes 16) (pubkey : Bytes 32)
    (io : Io δ) : WrHeeds IsError (x25519stanza C h filekey pubkey) io := by
  refine randombuf_heeds (fun _ => Gives.throw trivial) fun esecret io₁ => ?_
  dsimp only
  split
  · exact .throw
  refine .seq (hdrappend_heeds _ _ io₁) fun h io₂ => ?_
  split
  · exact .throw
  · exact hdrappend_heeds _ _ io₂

theorem scryptstanzacost_heeds (C : Crypto) (h : Header) (filekey : Bytes 16) (pass : List UInt8)
    (cost : Nat) (io : Io δ) : WrHeeds IsError (scryptstanzacost C h filekey pass cost) io := by
  refine randombuf_heeds (fun _ => Gives.throw trivial) fun salt io₁ => ?_
  dsimp only
  unfold scryptstanza
  split
  · exact .of_gives (Gives.op_bind rfl (Gives.throw trivial))
  · exact .seq (hdrappend_heeds _ _ io₁) fun h => hdrappend_heeds _ _

theorem pubenc_heeds (C : Crypto) (filekey : Bytes 16) (recs : List (Bytes 32)) :
    ∀ (h : Header) (io : Io δ), WrHeeds IsError (pubenc C filekey recs h) io := by
  induction recs with
  | nil => exact fun _ _ => .pure
  | cons rec recs ih => exact fun h io => .seq (x25519stanza_heeds C h filekey rec io) ih

theorem stanzas_heeds (C : Crypto) (filekey : Bytes 16) (rcpt : Recipients) (h : Header)
    (io : Io δ) : WrHeeds IsError (stanzas C filekey rcpt h) io := by
  cases rcpt with
  | keys recs => exact pubenc_heeds C filekey recs h io
  | passphrase pass cost => exact scryptstanzacost_heeds C h filekey pass cost io

theorem armorline_heeds (line : List UInt8) (io : Io δ) :
    WrHeeds IsError (armorline line) io := by
  refine Heeds.op_bind (fun _ _ _ => False.elim) fun armored io₁ _ => ?_
  cases armored with
  | false => exact .pure
  | true => exact writeall_heeds Wr.failed_gives fun _ => .pure

theorem makehdr_heeds (C : Crypto) (filekey : Bytes 16) (rcpt : Recipients) (io : Io δ) :
    WrHeeds IsError (makehdr C filekey rcpt) io := by
  refine .seq (armorline_heeds _ io) fun _ io₁ => ?_
  refine .seq (hdrappend_heeds _ _ io₁) fun h io₂ => ?_
  refine .seq (stanzas_heeds C filekey rcpt h io₂) fun h io₃ => ?_
  refine .seq (hdrappend_heeds _ _ io₃) fun h io₄ => ?_
  exact bwrite_heeds Wr.failed_gives fun _ => .pure

/-! ## Both buffers -/

theorem rd_heeds {R : Except String α → Prop} {p : Rd α} {io : Io δ} (hp : RdHeeds R p io) :
    RwHeeds R (Rw.rd p) io := by
  have hrestrict : @Prog.restrict _ RdRet (Io δ) _ _ RwOp.rd (fun _ r => r) rwHandler =
      rdHandler := by
    funext o io
    exact Option.map_id'
  exact Heeds.embed (fun _ _ _ _ => id) (hrestrict ▸ hp)

theorem wr_heeds {R : Except String α → Prop} {p : Wr α} {io : Io δ} (hp : WrHeeds R p io) :
    RwHeeds R (Rw.wr p) io := by
  have hrestrict : @Prog.restrict _ WrRet (Io δ) _ _ RwOp.wr (fun _ r => r) rwHandler =
      wrHandler := by
    funext o io
    exact Option.map_id'
  exact Heeds.embed (fun _ _ _ _ => id) (hrestrict ▸ hp)

theorem rw_heeds {R : Except String α → Prop} {p : Rw α} {io : Io δ} (hp : RwHeeds R p io) :
    AgeHeeds R (Age.rw p) io := by
  have hrestrict : @Prog.restrict _ RwRet (Io δ) _ _ AgeOp.rw (fun _ r => r) ageHandler =
      rwHandler := by
    funext o io
    exact Option.map_id'
  exact Heeds.embed (fun _ _ _ _ => id) (hrestrict ▸ hp)

theorem Rw.bread_heeds {R : Except String α → Prop} {n : Nat} {f : Option (List UInt8) → Rw α}
    {io : Io δ} (hnone : ∀ io' : Io δ, Gives rwHandler R (f none) io')
    (hsome : ∀ bs (io' : Io δ), RwHeeds R (f (some bs)) io') : RwHeeds R (Rw.bread n >>= f) io := by
  refine Heeds.op_bind_bad none (fun _ _ _ => id) hnone fun r io' _ hr => ?_
  cases r with
  | none => exact absurd rfl hr
  | some bs => exact hsome bs io'

theorem Rw.bwrite_heeds {R : Except String α → Prop} {bs : List UInt8} {f : Bool → Rw α}
    {io : Io δ} (hfail : ∀ io' : Io δ, Gives rwHandler R (f false) io')
    (hok : ∀ io' : Io δ, RwHeeds R (f true) io') : RwHeeds R (Rw.bwrite bs >>= f) io := by
  refine Heeds.op_bind_bad false (fun _ _ _ => id) hfail fun r io' _ hr => ?_
  obtain rfl := Bool.eq_true_of_not_eq_false hr
  exact hok io'

theorem Rw.bflush_heeds {R : Except String α → Prop} {f : Bool → Rw α} {io : Io δ}
    (hfail : ∀ io' : Io δ, Gives rwHandler R (f false) io')
    (hok : ∀ io' : Io δ, RwHeeds R (f true) io') : RwHeeds R (Rw.bflush >>= f) io := by
  refine Heeds.op_bind_bad false (fun _ _ _ => id) hfail fun r io' _ hr => ?_
  obtain rfl := Bool.eq_true_of_not_eq_false hr
  exact hok io'

theorem Rw.randombuf_heeds {R : Except String α → Prop} {n : Nat} {f : Option (Bytes n) → Rw α}
    {io : Io δ} (hfail : ∀ io' : Io δ, Gives rwHandler R (f none) io')
    (hok : ∀ bs (io' : Io δ), RwHeeds R (f (some bs)) io') :
    RwHeeds R (Rw.randombuf n >>= f) io := by
  refine Heeds.op_bind_bad none (fun _ _ _ => id) hfail fun r io' _ hr => ?_
  cases r with
  | none => exact absurd rfl hr
  | some bs => exact hok bs io'

theorem Rw.wrapped_heeds {outer : String} {p : Rw α} {io : Io δ} (hp : RwHeeds IsError p io) :
    RwHeeds IsError (Rw.wrapped outer p) io :=
  .attempt_bind hp (fun _ _ => Gives.op_bind rfl (Gives.throw trivial)) fun _ _ => .pure

theorem Age.wrapped_heeds {outer : String} {p : Age α} {io : Io δ} (hp : AgeHeeds IsError p io) :
    AgeHeeds IsError (Age.wrapped outer p) io := by
  refine .attempt_bind hp (fun e io' => ?_) fun _ _ => .pure
  exact ⟨_, _, ProgE.runs_bind.mpr (.inr ⟨_, _, ⟨0, rfl⟩, ProgE.runs_throw.mpr ⟨rfl, rfl⟩⟩),
    trivial⟩

/-! ## The payload -/

theorem ateof_reports (io : Io δ) : RdHeeds (fun r => r = .ok none) ateof io := by
  refine Heeds.op_bind (fun _ _ _ => False.elim) fun eof io₁ _ => ?_
  cases eof with
  | true => exact .pure
  | false => exact bpeek_heeds (fun _ => Gives.pure rfl) (fun _ => .pure) fun _ _ _ => .pure

/-- `ateof`, and what follows it. -/
theorem ateof_heeds {f : Option Bool → Rw α} {io : Io δ}
    (hnone : ∀ io' : Io δ, Gives rwHandler IsError (f none) io')
    (hsome : ∀ last (io' : Io δ), RwHeeds IsError (f (some last)) io') :
    RwHeeds IsError (Rw.rd ateof >>= f) io := by
  refine Heeds.bind (rd_heeds (ateof_reports io)) (fun e he => by cases he) (fun r io' hr => ?_)
    fun r io' _ => ?_
  · obtain rfl := Except.ok.inj hr
    exact hnone io'
  · cases r with
    | none => exact .of_gives (hnone io')
    | some last => exact hsome last io'

theorem incint_heeds (i : Int) (io : Io δ) : RdHeeds IsError (incint i) io := by
  unfold incint
  split
  · exact .pure
  · intro hfaces
    obtain ⟨r, io', ho, -⟩ := ProgE.faces_op.mp hfaces
    cases ho

theorem plencrypt_heeds (C : Crypto) (plkey : Bytes 32) (io : Io δ) :
    RwHeeds IsError (plencrypt C plkey) io := by
  refine Heeds.loop fun st io => ?_
  unfold plencryptChunk
  split
  · exact .throw
  refine Rw.bread_heeds Rw.failed_gives fun ichunk io₁ => ?_
  refine ateof_heeds Rw.failed_gives fun last io₂ => ?_
  exact Rw.bwrite_heeds Rw.failed_gives fun _ => .pure

theorem pldecrypt_heeds (C : Crypto) (plkey : Bytes 32) (io : Io δ) :
    RwHeeds IsError (pldecrypt C plkey) io := by
  refine Heeds.loop fun st io => ?_
  unfold pldecryptChunk
  split
  · exact .throw
  refine Rw.bread_heeds Rw.failed_gives fun ichunk io₁ => ?_
  refine ateof_heeds Rw.failed_gives fun last io₂ => ?_
  dsimp only
  split
  · exact .throw
  split
  · exact .of_gives (Gives.op_bind rfl (Rw.failed_gives _))
  refine Rw.bwrite_heeds Rw.failed_gives fun io₃ => ?_
  exact .seq (rd_heeds (incint_heeds st.i io₃)) fun _ _ => .pure

/-! ## Encryption and decryption -/

theorem encipher_heeds (C : Crypto) (rcpt : Recipients) (io : Io δ) :
    RwHeeds IsError (encipher C rcpt) io := by
  refine .seq (p := mkfilekey) ?_ fun filekey io₁ => ?_
  · exact Rw.randombuf_heeds (fun _ => Gives.throw trivial) fun _ _ => .pure
  refine .seq (Rw.wrapped_heeds (wr_heeds (makehdr_heeds C filekey rcpt io₁))) fun _ io₂ => ?_
  refine Rw.wrapped_heeds (.seq (p := payload C filekey) ?_ fun _ io₃ => ?_)
  · refine Rw.randombuf_heeds (fun _ => Gives.throw trivial) fun plnonce io₃ => ?_
    exact Rw.bwrite_heeds Rw.failed_gives (plencrypt_heeds C _)
  · exact Rw.bflush_heeds Rw.failed_gives fun io₄ => wr_heeds (armorline_heeds _ io₄)

theorem matchIds_heeds (C : Crypto) (ids : List (Bytes 32)) (filekey : Bytes 16) (io : Io δ) :
    RdHeeds IsError (matchIds C ids filekey) io := by
  refine .seq (Heeds.loop fun st io => ?_) fun st io' => ?_
  · refine .attempt_bind (getstanza_heeds io) (fun _ _ => Gives.op_bind rfl (Gives.throw trivial))
      fun s io' => ?_
    cases s with
    | none => exact .pure
    | some s =>
      dsimp only
      split
      · exact .of_gives (Gives.op_bind rfl (Gives.throw trivial))
      · exact .seq (incint_heeds _ io') fun _ _ => .pure
  · split
    · exact .throw
    · exact .pure

theorem openHeader_heeds (C : Crypto) (ids : List (Bytes 32)) (filekey : Bytes 16) (io : Io δ) :
    RdHeeds IsError (openHeader C ids filekey) io :=
  .attempt_bind (getversion_heeds io) (fun _ _ => Gives.op_bind rfl (Gives.throw trivial))
    fun _ => matchIds_heeds C ids filekey

theorem Age.failed_gives (io : Io δ) : Gives ageHandler IsError (Age.failed : Age α) io :=
  ⟨.error (Agecrypt.eget io), io, ⟨0, rfl⟩, trivial⟩

theorem macArgs_heeds (io : Io δ) : AgeHeeds IsError macArgs io := by
  refine Heeds.op_bind_bad none (fun _ _ _ => id) Age.failed_gives fun r io₁ _ hr => ?_
  cases r with
  | none => exact absurd rfl hr
  | some len =>
    refine .seq (rw_heeds (rd_heeds (getmac_heeds io₁))) fun mac1 io₂ => ?_
    exact Heeds.op_bind (fun _ _ _ => False.elim) fun _ _ _ => .pure

theorem validatemac_heeds (C : Crypto) (filekey : Bytes 16) (io : Io δ) :
    AgeHeeds IsError (validatemac C filekey) io := by
  refine .seq (Age.wrapped_heeds (.seq (macArgs_heeds io) fun _ _ => .pure)) fun valid io' => ?_
  split
  · exact .throw
  · exact .pure

theorem decipherBody_heeds (C : Crypto) (filekey : Bytes 16) (io : Io δ) :
    RwHeeds IsError (decipherBody C filekey) io := by
  refine .seq (Rw.wrapped_heeds (rd_heeds (getplnonce_heeds io))) fun plnonce io₁ => ?_
  refine .seq (Rw.wrapped_heeds (pldecrypt_heeds C _ io₁)) fun _ io₂ => ?_
  exact Rw.bflush_heeds Rw.failed_gives fun _ => .pure

theorem decipherPayload_heeds (C : Crypto) (filekey : Bytes 16) (io : Io δ) :
    AgeHeeds IsError (decipherPayload C filekey) io :=
  .seq (Age.wrapped_heeds (validatemac_heeds C filekey io)) fun _ io' =>
    rw_heeds (decipherBody_heeds C filekey io')

theorem ageDecipher_heeds (C : Crypto) (ids : List (Bytes 32)) (filekey : Bytes 16) (io : Io δ) :
    AgeHeeds IsError (ageDecipher C ids filekey) io := by
  refine .seq (rw_heeds (rd_heeds (openHeader_heeds C ids filekey io))) fun st io₁ => ?_
  refine .seq (rw_heeds (rd_heeds (p := identityKey st) ?_)) fun filekey =>
    decipherPayload_heeds C filekey
  unfold identityKey
  split
  · exact .throw
  · exact .pure
  · exact .throw

theorem ageDecipherPassphrase_heeds (C : Crypto) (pass : List UInt8) (filekey : Bytes 16)
    (io : Io δ) : AgeHeeds IsError (ageDecipherPassphrase C pass filekey) io := by
  refine .seq (rw_heeds (rd_heeds (openHeader_heeds C [] filekey io))) fun st io₁ => ?_
  refine .seq (rw_heeds (rd_heeds (p := passphraseKey C pass st) ?_)) fun filekey =>
    decipherPayload_heeds C filekey
  unfold passphraseKey
  split
  · split
    · exact .throw
    refine .seq (p := scryptgetkey C _ pass) ?_ fun key io₂ => ?_
    · unfold scryptgetkey
      split
      · exact .of_gives (Gives.op_bind rfl (Gives.throw trivial))
      · exact .pure
    · cases key with
      | none => exact .throw
      | some filekey => exact .pure
  · exact .throw

end Agecrypt
