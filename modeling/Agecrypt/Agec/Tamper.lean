import Agecrypt.Agec.PayloadStream
import Agecrypt.Lib.Always

/-!
# A payload that was tampered with

The log of a run holds the bytes that have been handed to `bwrite`.  When
the AEAD opens only what was sealed for a plaintext, the log of `pldecrypt`
holds whole leading chunks of that plaintext at every moment, whatever the
input is and whichever calls of the system fail; and the run ends with
success only on the payload itself.
-/

namespace Agecrypt

open ProgE

/-! ## The log of a run -/

/-- The log behind an operation. -/
def RwOp.logged : RwOp → List UInt8 → List UInt8
  | .wr (.bwrite bs), log => log ++ bs
  | _, log => log

/-- A handler that keeps the log of what is handed to `bwrite`. -/
def traced {σ : Type} (h : Handler RwOp RwRet σ) : Handler RwOp RwRet (σ × List UInt8) :=
  fun o t => (h o t.1).map fun x => (x.1, x.2, o.logged t.2)

theorem traced_ok {σ : Type} {h : Handler RwOp RwRet σ} {o : RwOp} {s : σ}
    {log : List UInt8} {r : RwRet o} {t : σ × List UInt8} (ht : traced h o (s, log) = some (r, t)) :
    ∃ s', h o s = some (r, s') ∧ t = (s', o.logged log) := by
  obtain ⟨⟨r', s'⟩, ho, hx⟩ := Option.map_eq_some_iff.mp ht
  obtain ⟨rfl, rfl⟩ := Prod.mk.inj hx
  exact ⟨s', ho, rfl⟩

section

variable {σ : Type} {h : Handler RwOp RwRet σ} {α : Type}

theorem meets_rd {p : Rd α} {t : σ} {Q : σ → Prop} {Post : Except String α → σ → Prop}
    (hp : Meets (fun o => h (.rd o)) Q p t Post) : Meets h Q (Rw.rd p) t Post := by
  have hr : Prog.restrict RwOp.rd (fun _ r => r) h = fun o => h (.rd o) := by
    funext o s
    rw [Prog.restrict]
    exact Option.map_id'
  refine ⟨?_, fun r t' hr => hp.post r t' (runs_rd.mp hr)⟩
  rw [Rw.rd, always_embed, hr]
  exact hp.always

/-- `return eget()` leaves the log alone. -/
theorem meets_failed {P : List UInt8 → Prop} {t : σ × List UInt8}
    {Post : Except String α → σ × List UInt8 → Prop} (hlog : P t.2)
    (hpost : ∀ e t', Post (.error e) t') :
    Meets (traced h) (fun t => P t.2) Rw.failed t Post := by
  refine .op_bind hlog fun e t' ho => ?_
  obtain ⟨s', -, rfl⟩ := traced_ok ho
  exact .throw hlog (hpost e _)

end

/-! ## A state that delivers a `Src` -/

variable {δ : Type} [Descr δ] {ch : Chan δ} {f : Feed ch}

structure Feeding (f : Feed ch) (io : Io δ) (s : Src) : Prop where
  ready : f.ready io.dev
  fd : io.ib.fd = ch.fi
  src : SrcRel f io.ib (ch.unread io.dev) s
  ofd : io.ob.fd = ch.fo
  cur : io.ob.cur < io.ob.cap

namespace Feeding

variable {io : Io δ} {s : Src}

theorem frame (h : Feeding f io s) {io' : Io δ} {s' : Src} (hfr : Frame ch io io')
    (hr : SrcRel f io'.ib (ch.unread io'.dev) s') : Feeding f io' s' :=
  ⟨f.kept h.ready hfr.kept, hfr.fd.trans h.fd, hr, by rw [hfr.ob]; exact h.ofd,
    by rw [hfr.ob]; exact h.cur⟩

theorem bread (h : Feeding f io s) (n : Nat) {r : Option (List UInt8)} {io' : Io δ}
    (hb : bread n io = some (r, io')) :
    r = none ∨ r = some (s.bread n).1 ∧ Feeding f io' (s.bread n).2 := by
  rcases bread_spec n h.ready h.fd h.src with ⟨io₁, h₁, -⟩ | ⟨io₁, h₁, hfr, hr⟩
  · rw [hb] at h₁
    exact .inl (Prod.mk.inj (Option.some.inj h₁)).1
  · rw [hb] at h₁
    obtain ⟨rfl, rfl⟩ := Prod.mk.inj (Option.some.inj h₁)
    exact .inr ⟨rfl, h.frame hfr hr⟩

theorem bpeek (h : Feeding f io s) {r : Peek} {io' : Io δ} (hb : bpeek io = some (r, io')) :
    r = .err ∨ r = s.bpeek.1 ∧ Feeding f io' s.bpeek.2 := by
  rcases bpeek_spec h.ready h.fd h.src with ⟨io₁, h₁, -⟩ | ⟨io₁, h₁, hfr, hr⟩
  · rw [hb] at h₁
    exact .inl (Prod.mk.inj (Option.some.inj h₁)).1
  · rw [hb] at h₁
    obtain ⟨rfl, rfl⟩ := Prod.mk.inj (Option.some.inj h₁)
    exact .inr ⟨rfl, h.frame hfr hr⟩

theorem bwrite (h : Feeding f io s) {bs : List UInt8} {ok : Bool} {io' : Io δ}
    (hb : bwrite bs io = some (ok, io')) : ok = true → Feeding f io' s := by
  have hk : SnkRel ch io ⟨io.ob.isarmor, ch.accepted io.dev, io.ob.buf.window 0 io.ob.cur⟩ :=
    ⟨h.ofd, rfl, h.cur, rfl, rfl⟩
  obtain ⟨ok', io₁, h₁, hw, ho⟩ := bwrite_spec bs (f.live h.ready) hk
  rw [hb] at h₁
  obtain ⟨rfl, rfl⟩ := Prod.mk.inj (Option.some.inj h₁)
  rintro rfl
  rcases ho with ⟨hf, -⟩ | ⟨-, hkept, -⟩
  · cases hf
  · refine ⟨f.kept h.ready hkept, by rw [hw.ib]; exact h.fd, ?_, hw.fd.trans h.ofd, hw.cur h.cur⟩
    rw [hw.ib, hw.unread]
    exact h.src

end Feeding

/-- `ateof` fails, or sees whether there is more. -/
theorem ateof_meets {P : List UInt8 → Prop} {io : Io δ} {s : Src} {log : List UInt8}
    (h : Feeding f io s) (hs : s.Tight) (hlog : P log) :
    Meets (fun o => traced rwHandler (.rd o)) (fun t => P t.2) ateof (io, log) fun r t =>
      t.2 = log ∧ (r = .ok none ∨ r = .ok (some s.rest.isEmpty) ∧
        ∃ s', Feeding f t.1 s' ∧ s'.rest = s.rest ∧ s'.Tight) := by
  have hst := hs.1
  refine .op_bind hlog fun b t ho => ?_
  obtain ⟨io', ho', rfl⟩ := traced_ok ho
  have hio : (io.ib.eof, io) = (b, io') := Option.some.inj ho'
  obtain ⟨rfl, rfl⟩ := Prod.mk.inj hio
  by_cases he : io.ib.eof = true
  · have hrest := hs.2 (h.src.eof ▸ he)
    simp only [he, if_true]
    exact .pure hlog ⟨rfl, .inr ⟨by rw [hrest]; rfl, s, h, rfl, hs⟩⟩
  simp only [he, Bool.false_eq_true, if_false]
  refine .op_bind hlog fun r t ho => ?_
  obtain ⟨io', ho', rfl⟩ := traced_ok ho
  rcases h.bpeek ho' with rfl | ⟨rfl, hf⟩
  · exact .pure hlog ⟨rfl, .inl rfl⟩
  rcases hrest : s.rest with _ | ⟨c, cs⟩
  · have hpeek := Src.bpeek_end hrest
    rw [Src.probe_of_none hst] at hpeek
    rw [hpeek] at hf ⊢
    exact .pure hlog ⟨rfl, .inr ⟨rfl, _, hf, hrest, hst, fun _ => hrest⟩⟩
  · have hpeek := Src.bpeek_char hrest
    rw [Src.probe_of_none hst] at hpeek
    rw [hpeek] at hf ⊢
    exact .pure hlog ⟨rfl, .inr ⟨rfl, s, hf, hrest, hs⟩⟩

/-! ## What the AEAD opens -/

/-- The nonces and sealed texts that `pldecrypt` hands to the AEAD when the
input delivers `d`, from chunk `i` on. -/
inductive Presented (C : Crypto) (key : Bytes 32) :
    Nat → List UInt8 → Bytes 12 → List UInt8 → Prop
  | here {i : Nat} {d : List UInt8} : ¬ (0 < i ∧ d.length = TAGLEN) →
      Presented C key i d (chunkNonce i (d.length ≤ CHUNKLEN + TAGLEN))
        (d.take (CHUNKLEN + TAGLEN))
  | later {i : Nat} {d out : List UInt8} {nonce : Bytes 12} {c : List UInt8} : i + 1 < 2 ^ 31 →
      CHUNKLEN + TAGLEN < d.length → openChunk C key i d = some out →
      Presented C key (i + 1) (d.drop (CHUNKLEN + TAGLEN)) nonce c → Presented C key i d nonce c

/-- Under `key` the chunks of `p` open, each with its own nonce, and nothing
else that `pldecrypt` tries to open in `d` does. -/
structure SealedOnly (C : Crypto) (key : Bytes 32) (p d : List UInt8) : Prop where
  opens : ∀ i chunk, (chunks p)[i]? = some chunk →
    C.chacha20poly1305read key (chunkNonce i (i + 1 = (chunks p).length))
      (C.chacha20poly1305write key (chunkNonce i (i + 1 = (chunks p).length)) chunk) = some chunk
  only : ∀ nonce c out, Presented C key 0 d nonce c →
    C.chacha20poly1305read key nonce c = some out →
    ∃ i chunk, (chunks p)[i]? = some chunk ∧
      nonce = chunkNonce i (i + 1 = (chunks p).length) ∧
      c = C.chacha20poly1305write key nonce chunk

section

variable {C : Crypto} {key : Bytes 32} {p d : List UInt8}

/-- The chunks that `pldecrypt` tries to open from `c` on are among those of
the whole input. -/
def Reaches (C : Crypto) (key : Bytes 32) (d : List UInt8) (i : Nat) (c : List UInt8) : Prop :=
  ∀ nonce text, Presented C key i c nonce text → Presented C key 0 d nonce text

theorem Reaches.next {i : Nat} {c out : List UInt8} (h : Reaches C key d i c)
    (hi : i + 1 < 2 ^ 31) (hlong : CHUNKLEN + TAGLEN < c.length)
    (hopen : openChunk C key i c = some out) :
    Reaches C key d (i + 1) (c.drop (CHUNKLEN + TAGLEN)) :=
  fun nonce text hp => h nonce text (.later hi hlong hopen hp)

/-- A chunk that opens is the next one of `p`. -/
theorem SealedOnly.chunk (honly : SealedOnly C key p d) (hcount : (chunks p).length ≤ 2 ^ 88)
    {i : Nat} {c out : List UInt8} (hi : i < 2 ^ 88) (hreach : Reaches C key d i c)
    (hopen : openChunk C key i c = some out) :
    (chunks p)[i]? = some out ∧
      (c.length ≤ CHUNKLEN + TAGLEN ↔ i + 1 = (chunks p).length) ∧
      c.take (CHUNKLEN + TAGLEN) =
        C.chacha20poly1305write key (chunkNonce i (c.length ≤ CHUNKLEN + TAGLEN)) out := by
  rw [openChunk] at hopen
  split at hopen
  · cases hopen
  rename_i hcheck
  obtain ⟨j, chunk, hj, hnonce, hc⟩ := honly.only _ _ _ (hreach _ _ (.here hcheck)) hopen
  obtain ⟨hjlt, -⟩ := List.getElem?_eq_some_iff.mp hj
  obtain ⟨rfl, hlast⟩ := chunkNonce_inj hi (Nat.lt_of_lt_of_le hjlt hcount) hnonce
  rw [hc, hnonce, honly.opens i chunk hj] at hopen
  obtain rfl := Option.some.inj hopen
  exact ⟨hj, decide_eq_decide.mp hlast, hc⟩

/-- A chunk in the middle of the plaintext and the chunks behind it. -/
theorem sealFrom_drop {cs : List (List UInt8)} {i : Nat} {chunk : List UInt8}
    (h : cs[i]? = some chunk) (hlast : i + 1 ≠ cs.length) :
    sealFrom C key i (cs.drop i) =
      C.chacha20poly1305write key (chunkNonce i false) chunk ++
        sealFrom C key (i + 1) (cs.drop (i + 1)) := by
  obtain ⟨hlt, rfl⟩ := List.getElem?_eq_some_iff.mp h
  have hne : cs.drop (i + 1) ≠ [] := by
    rw [← List.length_pos_iff, List.length_drop]
    omega
  rw [← List.getElem_cons_drop hlt, sealFrom_cons C key i _ hne]

/-- The last chunk. -/
theorem sealFrom_last {cs : List (List UInt8)} {i : Nat} {chunk : List UInt8}
    (h : cs[i]? = some chunk) (hlast : i + 1 = cs.length) :
    sealFrom C key i (cs.drop i) =
      C.chacha20poly1305write key (chunkNonce i true) chunk := by
  obtain ⟨hlt, rfl⟩ := List.getElem?_eq_some_iff.mp h
  rw [← List.getElem_cons_drop hlt, List.drop_of_length_le (by omega)]
  rfl

theorem flatten_take_succ {cs : List (List UInt8)} {i : Nat} {chunk : List UInt8}
    (h : cs[i]? = some chunk) :
    (cs.take (i + 1)).flatten = (cs.take i).flatten ++ chunk := by
  obtain ⟨hlt, rfl⟩ := List.getElem?_eq_some_iff.mp h
  rw [List.take_succ_eq_append_getElem hlt, List.flatten_append, List.flatten_cons,
    List.flatten_nil, List.append_nil]

/-! ## One chunk -/

/-- What a round of `pldecrypt` does behind the log `log`: it opens a chunk,
hands it on and counts it. -/
def Decrypted (C : Crypto) (key : Bytes 32) (f : Feed ch) (i : Nat) (s : Src)
    (log : List UInt8) (x : Pldec ⊕ Unit) (t : Io δ × List UInt8) : Prop :=
  ∃ out, openChunk C key i s.rest = some out ∧ t.2 = log ++ out ∧ i + 1 < 2 ^ 31 ∧
    ((s.rest.length ≤ CHUNKLEN + TAGLEN ∧ x = .inr ()) ∨
      (CHUNKLEN + TAGLEN < s.rest.length ∧ x = .inl (pldecAt (i + 1)) ∧ ∃ s', Feeding f t.1 s' ∧
        s'.rest = s.rest.drop (CHUNKLEN + TAGLEN) ∧ s'.Tight))

section

variable {P : List UInt8 → Prop} {io : Io δ} {s : Src} {log : List UInt8} {i : Nat}

/-- `i++` leaves the log alone. -/
theorem incint_meets (hlog : P log) :
    Meets (fun o => traced rwHandler (.rd o)) (fun t => P t.2) (incint i) (io, log) fun r t =>
      r = .ok ((i + 1 : Nat) : Int) ∧ i + 1 < 2 ^ 31 ∧ t = (io, log) := by
  rw [incint]
  split
  · rename_i hi
    exact .pure hlog ⟨rfl, by omega, rfl⟩
  · refine .of_op hlog fun r t ho => ?_
    obtain ⟨io', ho', -⟩ := traced_ok ho
    have hnone : rwHandler (.rd .overflow) io = none := rfl
    rw [hnone] at ho'
    cases ho'

/-- The end of a round that has opened `out`. -/
theorem release_meets {out : List UInt8} {last : Bool} (h : Feeding f io s) (hlog : P log)
    (hout : P (log ++ out)) :
    Meets (traced rwHandler) (fun t => P t.2) (release i last out) (io, log) fun r t =>
      ∀ x, r = .ok x → t.2 = log ++ out ∧ Feeding f t.1 s ∧ i + 1 < 2 ^ 31 ∧
        x = if last then .inr () else .inl (pldecAt (i + 1)) := by
  refine .op_bind hlog fun ok t ho => ?_
  obtain ⟨io', ho', rfl⟩ := traced_ok ho
  cases ok with
  | false =>
    exact meets_failed (P := P) hout fun e t' x hx => by cases hx
  | true =>
    refine .bind (meets_rd (incint_meets hout)) (fun e t' hx => by cases hx.1) ?_
    rintro n t ⟨hn, hi, rfl⟩
    obtain rfl := Except.ok.inj hn
    refine .pure hout fun x hx => ⟨rfl, h.bwrite ho' rfl, hi, ?_⟩
    have hcounter : i + 1 < 2 ^ 88 := by omega
    rw [← Except.ok.inj hx]
    cases last with
    | true => rw [if_pos rfl, if_pos rfl]
    | false =>
      rw [if_neg Bool.false_ne_true, if_neg Bool.false_ne_true, incnonce_chunkNonce hcounter,
        pldecAt]

/-- The part of a round behind the reads. -/
theorem tryChunk_meets {c : List UInt8} (h : Feeding f io s) (hlog : P log)
    (hout : ∀ out, openChunk C key i c = some out → P (log ++ out)) :
    Meets (traced rwHandler) (fun t => P t.2)
      (tryChunk C key i (c.length ≤ CHUNKLEN + TAGLEN) (c.take (CHUNKLEN + TAGLEN))) (io, log)
      fun r t => ∀ x, r = .ok x → ∃ out, openChunk C key i c = some out ∧ t.2 = log ++ out ∧
        Feeding f t.1 s ∧ i + 1 < 2 ^ 31 ∧
        x = if c.length ≤ CHUNKLEN + TAGLEN then .inr () else .inl (pldecAt (i + 1)) := by
  rcases hopen : openChunk C key i c with _ | out
  · rcases tryChunk_none hopen with hthrow | hset
    · rw [hthrow]
      exact .throw hlog fun x hx => by cases hx
    · rw [hset]
      refine .op_bind hlog fun r t ho => ?_
      obtain ⟨io', -, rfl⟩ := traced_ok ho
      exact meets_failed (P := P) hlog fun e t' x hx => by cases hx
  · rw [tryChunk_some hopen]
    refine (release_meets h hlog (hout out hopen)).mono fun r t hpost x hx => ?_
    obtain ⟨hlog', h', hi, hx'⟩ := hpost x hx
    refine ⟨out, rfl, hlog', h', hi, ?_⟩
    rw [hx']
    exact if_congr decide_eq_true_iff rfl rfl

theorem pldecryptChunk_meets (h : Feeding f io s)
    (hs : s.probe.eof = true → s.rest.length ≤ CHUNKLEN + TAGLEN) (hlog : P log)
    (hout : ∀ out, openChunk C key i s.rest = some out → P (log ++ out)) :
    Meets (traced rwHandler) (fun t => P t.2) (pldecryptChunk C key (pldecAt i)) (io, log)
      fun r t => ∀ x, r = .ok x → Decrypted C key f i s log x t := by
  have hempty : ((s.bread (CHUNKLEN + TAGLEN)).2.rest.isEmpty) =
      decide (s.rest.length ≤ CHUNKLEN + TAGLEN) := by
    rw [Bool.eq_iff_iff]
    simp [Src.bread]
  have htight := Src.tight_bread hs
  have hno : ∀ (e : String) (t' : Io δ × List UInt8) (x : Pldec ⊕ Unit),
      (.error e : Except String (Pldec ⊕ Unit)) = .ok x → Decrypted C key f i s log x t' := by
    intro e t' x hx
    cases hx
  rw [pldecryptChunk_at]
  refine .op_bind hlog fun r t ho => ?_
  obtain ⟨io₁, ho₁, rfl⟩ := traced_ok ho
  rcases h.bread _ ho₁ with rfl | ⟨rfl, h₁⟩
  · exact meets_failed (P := P) hlog hno
  have heof := ateof_meets h₁ htight hlog
  rw [hempty] at heof
  refine .bind (meets_rd heof) (fun e t' hx => by rcases hx with ⟨-, hx | ⟨hx, -⟩⟩ <;> cases hx) ?_
  rintro a ⟨io₂, log₂⟩ ⟨hlog₂, hx⟩
  obtain rfl : log₂ = log := hlog₂
  rcases hx with hx | ⟨hx, s', h₂, hrest, htight'⟩
  · obtain rfl := Except.ok.inj hx
    exact meets_failed (P := P) hlog hno
  obtain rfl := Except.ok.inj hx
  refine (tryChunk_meets h₂ hlog hout).mono fun r t hpost x hx => ?_
  obtain ⟨out, hopen, hlog', h₃, hi, hx'⟩ := hpost x hx
  refine ⟨out, hopen, hlog', hi, ?_⟩
  by_cases hlast : s.rest.length ≤ CHUNKLEN + TAGLEN
  · rw [if_pos hlast] at hx'
    exact .inl ⟨hlast, hx'⟩
  · rw [if_neg hlast] at hx'
    exact .inr ⟨by omega, hx', s', h₃, hrest, htight'⟩

end

/-! ## The loop -/

/-- Between two rounds: `i` chunks of `p` have been handed on, and what was
read so far of `d` is their sealed text. -/
def Midway (C : Crypto) (key : Bytes 32) (f : Feed ch) (p d : List UInt8) (st : Pldec)
    (t : Io δ × List UInt8) : Prop :=
  ∃ i s before, st = pldecAt i ∧ i < (chunks p).length ∧ Feeding f t.1 s ∧
    (s.probe.eof = true → s.rest.length ≤ CHUNKLEN + TAGLEN) ∧
    t.2 = ((chunks p).take i).flatten ∧ d = before ++ s.rest ∧
    STREAM C key p = before ++ sealFrom C key i ((chunks p).drop i) ∧ Reaches C key d i s.rest

/-- A round hands on the next chunk of `p`, and the last round leaves the
whole of it. -/
theorem decrypted_step (honly : SealedOnly C key p d) (hcount : (chunks p).length ≤ 2 ^ 88)
    {t : Io δ × List UInt8} {i : Nat} {s : Src} {before : List UInt8} {x : Pldec ⊕ Unit}
    (hi : i < (chunks p).length) (hlog : t.2 = ((chunks p).take i).flatten)
    (hd : d = before ++ s.rest)
    (hstream : STREAM C key p = before ++ sealFrom C key i ((chunks p).drop i))
    (hreach : Reaches C key d i s.rest)
    {t' : Io δ × List UInt8} (hdec : Decrypted C key f i s t.2 x t') :
    (x = .inr () ∧ d = STREAM C key p ∧ t'.2 = p) ∨
      ∃ next, x = .inl next ∧ Midway C key f p d next t' := by
  obtain ⟨out, hopen, hlog', hint, hcase⟩ := hdec
  obtain ⟨hchunk, hlast, hct⟩ :=
    honly.chunk hcount (Nat.lt_of_lt_of_le hi hcount) hreach hopen
  have hflat : t'.2 = ((chunks p).take (i + 1)).flatten := by
    rw [hlog', hlog, flatten_take_succ hchunk]
  rcases hcase with ⟨hle, rfl⟩ | ⟨hgt, rfl, s', hf, hrest, htight⟩
  · have hend := hlast.mp hle
    refine .inl ⟨rfl, ?_, ?_⟩
    · rw [List.take_of_length_le hle, decide_eq_true hle] at hct
      rw [hd, hstream, sealFrom_last hchunk hend, hct]
    · rw [hflat, hend, List.take_length, flatten_chunks]
  · have hnot : ¬ s.rest.length ≤ CHUNKLEN + TAGLEN := by omega
    have hmore : i + 1 ≠ (chunks p).length := fun h => hnot (hlast.mpr h)
    refine .inr ⟨_, rfl, i + 1, s', before ++ s.rest.take (CHUNKLEN + TAGLEN), rfl, by omega, hf,
      ?_, hflat, ?_, ?_, ?_⟩
    · intro he
      rw [Src.probe_of_none htight.1] at he
      rw [htight.2 he]
      exact Nat.zero_le _
    · rw [hd, hrest, List.append_assoc, List.take_append_drop]
    · rw [decide_eq_false hnot] at hct
      rw [hstream, sealFrom_drop hchunk hmore, hct, List.append_assoc]
    · rw [hrest]
      exact hreach.next hint hgt hopen

/-- `pldecrypt`, on whatever the input delivers. -/
theorem pldecrypt_meets {io : Io δ} {s : Src} (honly : SealedOnly C key p s.rest)
    (hcount : (chunks p).length ≤ 2 ^ 88) (h : Feeding f io s)
    (hs : s.probe.eof = true → s.rest.length ≤ CHUNKLEN + TAGLEN) :
    Meets (traced rwHandler) (fun t => ∃ n, t.2 = ((chunks p).take n).flatten)
      (pldecrypt C key) (io, []) fun r t =>
        r = .ok () → s.rest = STREAM C key p ∧ t.2 = p := by
  have hpos : 0 < (chunks p).length := List.length_pos_iff.mpr (chunks_ne_nil p)
  refine Meets.loop (I := Midway C key f p s.rest) ?_
    ⟨0, s, [], pldecAt_zero.symm, hpos, h, hs, rfl, rfl, rfl, fun _ _ hp => hp⟩
  rintro st ⟨io', log⟩ ⟨i, s', before, rfl, hi, h', hs', hlog, hd, hstream, hreach⟩
  refine (pldecryptChunk_meets (P := fun l => ∃ n, l = ((chunks p).take n).flatten) h' hs'
    ⟨i, hlog⟩ ?_).mono ?_
  · intro out hopen
    obtain ⟨hchunk, -⟩ := honly.chunk hcount (Nat.lt_of_lt_of_le hi hcount) hreach hopen
    exact ⟨i + 1, by rw [flatten_take_succ hchunk, ← hlog]⟩
  · intro r t hpost
    rcases r with e | x
    · intro hx
      cases hx
    have hstep := decrypted_step honly hcount (t := (io', log)) hi hlog hd hstream hreach
      (hpost x rfl)
    rcases hstep with ⟨rfl, hend⟩ | ⟨next, rfl, hmid⟩
    · exact fun _ => hend
    · exact hmid

/-! ## Behind any calls -/

theorem readCall_feeding (c : ReadCall) {io io' : Io δ} {s : Src} (h : Feeding f io s)
    (hc : readCall c io = some ((s.call c).1, io')) : Feeding f io' (s.call c).2 := by
  cases c with
  | bread n =>
    obtain ⟨⟨r, io₁⟩, hb, hx⟩ := Option.map_eq_some_iff.mp hc
    obtain ⟨hr, rfl⟩ := Prod.mk.inj hx
    obtain rfl : r = some (s.bread n).1 := ReadAns.bread.inj hr
    rcases h.bread n hb with hno | ⟨-, hf⟩
    · cases hno
    · exact hf
  | bpeek =>
    obtain ⟨⟨r, io₁⟩, hb, hx⟩ := Option.map_eq_some_iff.mp hc
    obtain ⟨hr, rfl⟩ := Prod.mk.inj hx
    obtain rfl : r = s.bpeek.1 := ReadAns.bpeek.inj hr
    rcases h.bpeek hb with hno | ⟨-, hf⟩
    · rw [Src.bpeek_fst] at hno
      cases hs : s.rest.head? <;> rw [hs] at hno <;> cases hno
    · exact hf

/-- Calls that answered what they should leave the state that they should. -/
theorem readCalls_feeding (calls : List ReadCall) {io io' : Io δ} {s : Src} (h : Feeding f io s)
    (hc : readCalls calls io = some ((s.calls calls).1, io')) :
    Feeding f io' (s.calls calls).2 := by
  induction calls generalizing io s with
  | nil =>
    obtain ⟨-, rfl⟩ := Prod.mk.inj (Option.some.inj hc)
    exact h
  | cons c calls ih =>
    rw [readCalls] at hc
    obtain ⟨⟨a, io₁⟩, h₁, hc⟩ := Option.bind_eq_some_iff.mp hc
    obtain ⟨⟨as, io₂⟩, h₂, hc⟩ := Option.bind_eq_some_iff.mp hc
    obtain ⟨hans, rfl⟩ := Prod.mk.inj (Option.some.inj hc)
    obtain ⟨rfl, rfl⟩ := List.cons.inj hans
    exact ih (readCall_feeding c h h₁) h₂

end

/-- Whatever the input holds and whichever calls of the system fail: when of
what `pldecrypt` tries to open only the chunks of `p` open, what is handed to
`bwrite` is made of the leading chunks of `p` at every moment, and `pldecrypt`
succeeds on the payload of `p` only, with the whole of `p`. -/
theorem pldecrypt_only (C : Crypto) (key : Bytes 32) (p : List UInt8)
    (hcount : (chunks p).length ≤ 2 ^ 88) (calls : List ReadCall)
    (m : Memory) (fi fo : Int) (recording isarmor : Bool) (dev : Dev)
    (honly : SealedOnly C key p (answers calls dev.inp).2)
    (hbin : ¬ armorfirst <+: dev.inp) (io : Io Dev)
    (hcalls : readCalls calls (m.start fi fo recording isarmor dev) =
      some ((answers calls dev.inp).1, io)) :
    Always (traced rwHandler) (fun t => ∃ n, t.2 = ((chunks p).take n).flatten)
        (pldecrypt C key) (io, []) ∧
      ∀ t, Runs (traced rwHandler) (pldecrypt C key) (io, []) (.ok ()) t →
        (answers calls dev.inp).2 = STREAM C key p ∧ t.2 = p := by
  have hstart := srcRel_start (devChan fi fo False) m fi fo recording isarmor hbin
  have h₀ : Feeding (binaryFeed (devChan fi fo False)) (m.start fi fo recording isarmor dev)
      (Src.binary dev.inp) := ⟨trivial, rfl, hstart, rfl, cap_pos _⟩
  have hans := (Src.binary dev.inp).calls_answers calls
  rw [show (Src.binary dev.inp).rest = dev.inp from rfl] at hans
  rw [hans] at hcalls honly ⊢
  have h := readCalls_feeding calls h₀ hcalls
  have hprobed := Src.calls_invariant Src.probed_call calls (Src.probed_binary dev.inp)
  have hlong : 35 ≤ CHUNKLEN + TAGLEN := by decide
  have hshort : ((Src.binary dev.inp).calls calls).2.probe.eof = true →
      ((Src.binary dev.inp).calls calls).2.rest.length ≤ CHUNKLEN + TAGLEN := by
    intro he
    have := hprobed he
    omega
  have hmeets := pldecrypt_meets honly hcount h hshort
  exact ⟨hmeets.always, fun t ht => hmeets.post _ t ht rfl⟩

/-! ## A payload without its second chunk -/

/-- The sealed chunks of `threeChunks` but for the second one. -/
def shortened : List UInt8 :=
  tagwrite (Bytes.zero 32) (chunkNonce 0 false) (List.replicate CHUNKLEN 1) ++
    tagwrite (Bytes.zero 32) (chunkNonce 2 true) (List.replicate 500 3)

/-- A sealed text of the sample primitives names its nonce. -/
theorem tagwrite_nonce {key : Bytes 32} {nonce nonce' : Bytes 12} {p q : List UInt8}
    (h : tagwrite key nonce p = tagwrite key nonce' q) : nonce = nonce' := by
  rw [tagwrite, tagwrite] at h
  have htag := List.append_inj_right' h
    (by rw [length_sampletag key nonce, length_sampletag key nonce'])
  rw [sampletag, sampletag] at htag
  have hval := List.append_inj_left htag (by rw [nonce.size_eq, nonce'.size_eq])
  ext1
  exact hval

/-- The first chunk opens, and the last one does not in the place of the
second. -/
theorem shortened_only : SealedOnly Crypto.sample (Bytes.zero 32) threeChunks shortened := by
  obtain ⟨first, hfirst⟩ : ∃ c, c = tagwrite (Bytes.zero 32) (chunkNonce 0 false)
    (List.replicate CHUNKLEN 1) := ⟨_, rfl⟩
  obtain ⟨last, hlast⟩ : ∃ c, c = tagwrite (Bytes.zero 32) (chunkNonce 2 true)
    (List.replicate 500 3) := ⟨_, rfl⟩
  have hlen₁ : first.length = CHUNKLEN + TAGLEN := by
    rw [hfirst, length_tagwrite, List.length_replicate]
  have hlen₂ : last.length = 500 + TAGLEN := by
    rw [hlast, length_tagwrite, List.length_replicate]
  have hlen : CHUNKLEN = 64 * 1024 := rfl
  have htag : TAGLEN = 16 := rfl
  have hshort : shortened = first ++ last := by rw [shortened, hfirst, hlast]
  refine ⟨fun i chunk _ => (Crypto.sample_exact _ _ _ _).mpr rfl, fun nonce c out hp hread => ?_⟩
  rw [hshort] at hp
  have hlong : ¬ (first ++ last).length ≤ CHUNKLEN + TAGLEN := by
    rw [List.length_append]
    omega
  cases hp with
  | here _ =>
    rw [decide_eq_false hlong, List.take_left' hlen₁] at hread ⊢
    rw [chunks_threeChunks]
    exact ⟨0, List.replicate CHUNKLEN 1, rfl, rfl, hfirst⟩
  | later _ _ _ hp =>
    rw [List.drop_left' hlen₁] at hp
    have hle : last.length ≤ CHUNKLEN + TAGLEN := by omega
    cases hp with
    | here _ =>
      rw [decide_eq_true hle, List.take_of_length_le hle] at hread
      have hsealed := (Crypto.sample_exact _ _ _ _).mp hread
      rw [hlast] at hsealed
      have hnonce := tagwrite_nonce hsealed
      have hindex := (chunkNonce_inj (by decide) (by decide) hnonce).1
      omega
    | later _ hlt _ _ => omega

theorem shortened_binary : ¬ armorfirst <+: (Dev.steady shortened 0).inp := by
  have hhead : ∃ cs, shortened = 1 :: cs := by
    rw [shortened, tagwrite, CHUNKLEN, List.replicate_succ]
    exact ⟨_, rfl⟩
  obtain ⟨cs, hcs⟩ := hhead
  have hinp : (Dev.steady shortened 0).inp = 1 :: cs := hcs
  rw [hinp]
  intro hp
  exact absurd (List.cons_prefix_cons.mp hp).1 (by decide)

/-- The payload of `threeChunks` without its second chunk. -/
theorem pldecrypt_only_shortened :
    Always (traced rwHandler) (fun t => ∃ n, t.2 = ((chunks threeChunks).take n).flatten)
        (pldecrypt Crypto.sample (Bytes.zero 32))
        (Memory.zero.start 3 4 false false (Dev.steady shortened 0), []) ∧
      ∀ t, Runs (traced rwHandler) (pldecrypt Crypto.sample (Bytes.zero 32))
          (Memory.zero.start 3 4 false false (Dev.steady shortened 0), []) (.ok ()) t →
        shortened = STREAM Crypto.sample (Bytes.zero 32) threeChunks ∧ t.2 = threeChunks :=
  pldecrypt_only Crypto.sample (Bytes.zero 32) threeChunks
    (by rw [chunks_threeChunks]; decide) [] Memory.zero 3 4 false false (Dev.steady shortened 0)
    shortened_only shortened_binary _ rfl

end Agecrypt
