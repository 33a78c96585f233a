import Agecrypt.Agec.Agecore
import Agecrypt.Agec.Headers
import Agecrypt.Agec.Sink
import Agecrypt.Lib.Emit

/-!
# The header that is written is read back

`headerStanzas` says which stanzas a list of recipients or a passphrase
makes of the random draws.  Over any output that keeps what it is given, a
`makehdr` that succeeds emits the text of a proper header with these
stanzas, and the MAC of its front part.  The parser reads it back.
-/

namespace Agecrypt

open ProgE

/-! ## The stanzas of the draws -/

/-- The draws behind the first one. -/
def laterDraws (d : Nat → Draw) : Nat → Draw := fun i => d (i + 1)

/-- What `x25519stanza` wraps for a recipient. -/
def drawnX25519 (C : Crypto) (filekey : Bytes 16) (pubkey : Bytes 32) (d : Draw) :
    Option X25519arg := do
  let esecret ← d.bytes 32
  let share ← C.x25519 esecret curve25519basepoint
  let body ← x25519wrap C share esecret pubkey filekey
  return ⟨share, body⟩

/-- What `scryptstanzacost` wraps for a passphrase. -/
def drawnScrypt (C : Crypto) (filekey : Bytes 16) (pass : List UInt8) (cost : Nat) (d : Draw) :
    Option Scryptarg := do
  let salt ← d.bytes 16
  let key ← (wrapkey C pass salt cost).toOption
  return ⟨salt, C.keyenc key filekey, cost⟩

def drawnKeys (C : Crypto) (filekey : Bytes 16) :
    List (Bytes 32) → (Nat → Draw) → Option (List Stanza)
  | [], _ => some []
  | pubkey :: recs, d => do
    let arg ← drawnX25519 C filekey pubkey (d 0)
    let ss ← drawnKeys C filekey recs (laterDraws d)
    return .x25519 arg :: ss

/-- The stanzas of a header. -/
def headerStanzas (C : Crypto) (filekey : Bytes 16) (rcpt : Recipients) (d : Nat → Draw) :
    Option (List Stanza) :=
  match rcpt with
  | .keys recs => drawnKeys C filekey recs d
  | .passphrase pass cost => (drawnScrypt C filekey pass cost (d 0)).map fun arg => [.scrypt arg]

/-- The work factors that the entry points let through. -/
def Recipients.Costs : Recipients → Prop
  | .keys _ => True
  | .passphrase _ cost => 2 ≤ cost ∧ cost ≤ 22

/-- The text of the number is a work factor, and is read as the number. -/
theorem workFactor_cost {cost : Nat} (h : 2 ≤ cost ∧ cost ≤ 22) :
    WorkFactor (ascii (toString cost)) ∧ atoi (ascii (toString cost)) = cost := by
  have key : ∀ n : Nat, n ≤ 22 → 2 ≤ n →
      (ascii (toString n) ≠ [] ∧ (ascii (toString n)).length ≤ 4 ∧
        (∀ c ∈ ascii (toString n), 48 ≤ c ∧ c ≤ 57) ∧ (ascii (toString n)).head? ≠ some 48) ∧
      atoi (ascii (toString n)) = n := by decide +kernel
  exact key cost h.2 h.1

/-! ## What the writers emit -/

/-- The output keeps what it is given, and the draws come one by one. -/
structure Gathers {σ : Type} (At : σ → (Nat → Draw) → List UInt8 → Prop)
    (h : Handler WrOp WrRet σ) : Prop where
  bwrite : ∀ {s d w bs s'}, At s d w → h (.bwrite bs) s = some (true, s') → At s' d (w ++ bs)
  randombuf : ∀ {s d w n r s'}, At s d w → h (.randombuf n) s = some (r, s') →
    r = (d 0).bytes n ∧ At s' (laterDraws d) w

/-- The output is not armored. -/
structure Collects {σ : Type} (At : σ → (Nat → Draw) → List UInt8 → Prop)
    (h : Handler WrOp WrRet σ) : Prop extends Gathers At h where
  obarmor : ∀ {s d w b s'}, At s d w → h .obarmor s = some (b, s') → b = false ∧ s' = s

/-- The forms are proper, stand for `ss`, and have the text `t`. -/
def FormsOf (ss : List Stanza) (t : List UInt8) : Prop :=
  ∃ forms : List StanzaForm, (∀ form ∈ forms, form.Proper) ∧ ss = forms.map StanzaForm.stanza ∧
    t = (forms.map StanzaForm.text).flatten

theorem FormsOf.nil : FormsOf [] [] := ⟨[], fun _ hf => absurd hf List.not_mem_nil, rfl, rfl⟩

theorem FormsOf.cons (form : StanzaForm) {ss : List Stanza} {t : List UInt8} (hform : form.Proper)
    (h : FormsOf ss t) : FormsOf (form.stanza :: ss) (form.text ++ t) := by
  obtain ⟨forms, hall, hss, ht⟩ := h
  refine ⟨form :: forms, List.forall_mem_cons.mpr ⟨hform, hall⟩, ?_, ?_⟩
  · rw [hss, List.map_cons]
  · rw [ht, List.map_cons, List.flatten_cons]

section

variable {σ α : Type} {At : σ → (Nat → Draw) → List UInt8 → Prop} {h : Handler WrOp WrRet σ}

/-- `return eget()` is no success. -/
theorem not_runs_failed (s : σ) (a : α) (s' : σ) : ¬ Runs h (Wr.failed : Wr α) s (.ok a) s' := by
  intro hr
  obtain ⟨e, s₁, -, hr'⟩ := runs_op_bind.mp hr
  cases (runs_throw.mp hr').1

section

variable (hc : Gathers At h)

include hc

theorem emits_bwrite {bs : List UInt8} {p : Wr α}
    {G : (Nat → Draw) → α → List UInt8 → (Nat → Draw) → Prop} (hp : Emits At h p G) :
    Emits At h (Wr.bwrite bs >>= fun ok => if ok then p else Wr.failed) fun d a t d' =>
      ∃ t', t = bs ++ t' ∧ G d a t' d' := by
  constructor
  intro s d w a s' hs hr
  obtain ⟨ok, s₁, ho, hr'⟩ := runs_op_bind.mp hr
  cases ok with
  | false =>
    rw [if_neg Bool.false_ne_true] at hr'
    exact absurd hr' (not_runs_failed _ _ _)
  | true =>
    rw [if_pos rfl] at hr'
    obtain ⟨t, d', hg, hs'⟩ := hp.sound (hc.bwrite hs ho) hr'
    rw [List.append_assoc] at hs'
    exact ⟨bs ++ t, d', ⟨t, rfl, hg⟩, hs'⟩

theorem emits_randombuf {n : Nat} {f : Option (Bytes n) → Wr α}
    {G : Bytes n → (Nat → Draw) → α → List UInt8 → (Nat → Draw) → Prop}
    (hnone : Emits At h (f none) fun _ _ _ _ => False) (hf : ∀ r, Emits At h (f (some r)) (G r)) :
    Emits At h (Wr.randombuf n >>= f) fun d a t d' =>
      ∃ r, (d 0).bytes n = some r ∧ G r (laterDraws d) a t d' := by
  constructor
  intro s d w a s' hs hr
  obtain ⟨r, s₁, ho, hr'⟩ := runs_op_bind.mp hr
  obtain ⟨hbytes, hs₁⟩ := hc.randombuf hs ho
  cases r with
  | none =>
    obtain ⟨t, d', hno, -⟩ := hnone.sound hs₁ hr'
    exact hno.elim
  | some r =>
    obtain ⟨t, d', hg, hs'⟩ := (hf r).sound hs₁ hr'
    exact ⟨t, d', ⟨r, hbytes.symm, hg⟩, hs'⟩

theorem emits_hdrappend (hd : Header) (text : List UInt8) :
    Emits At h (hdrappend hd text) fun d a t d' =>
      a = { hd with absorbed := hd.absorbed ++ text } ∧ t = text ∧ d' = d := by
  unfold hdrappend
  split
  · exact .throw _
  · refine (emits_bwrite hc (.pure _)).mono fun d a t d' hg => ?_
    obtain ⟨t', ht, ha, hnil, hd'⟩ := hg
    exact ⟨ha, by rw [ht, hnil, List.append_nil], hd'⟩

theorem emits_x25519stanza (C : Crypto) (hd : Header) (filekey : Bytes 16) (pubkey : Bytes 32) :
    Emits At h (x25519stanza C hd filekey pubkey) fun d a t d' =>
      ∃ arg, drawnX25519 C filekey pubkey (d 0) = some arg ∧
        t = (StanzaForm.x25519 arg.share arg.body).text ∧
        a = { hd with absorbed := hd.absorbed ++ t } ∧ d' = laterDraws d := by
  unfold x25519stanza
  refine (emits_randombuf hc (G := fun esecret d a t d' => ∃ share body,
    C.x25519 esecret curve25519basepoint = some share ∧
    x25519wrap C share esecret pubkey filekey = some body ∧
    t = (StanzaForm.x25519 share body).text ∧ a = { hd with absorbed := hd.absorbed ++ t } ∧
    d' = d) (.throw _) fun esecret => ?_).mono fun d a t d' hg => ?_
  · dsimp only
    cases hshare : C.x25519 esecret curve25519basepoint with
    | none => exact .throw _
    | some share =>
      dsimp only
      cases hbody : x25519wrap C share esecret pubkey filekey with
      | none =>
        have hthrow : ∀ _ : Header, Emits At h (throw ezeroresult : Wr Header)
            fun _ _ _ _ => False := fun _ => .throw _
        refine (Emits.bind (emits_hdrappend hc hd _) hthrow).mono fun d a t d' hg => ?_
        obtain ⟨_, _, _, _, _, _, hno⟩ := hg
        exact hno.elim
      | some body =>
        refine (Emits.bind (emits_hdrappend hc hd _) fun hd' => emits_hdrappend hc hd' _).mono
          fun d a t d' hg => ?_
        obtain ⟨hd', t₁, d₁, t₂, ht, ⟨hhd, ht₁, hd₁⟩, ha, ht₂, hd₂⟩ := hg
        refine ⟨share, body, rfl, hbody, ?_, ?_, hd₂.trans hd₁⟩
        · rw [ht, ht₁, ht₂, StanzaForm.text, StanzaForm.tail,
            show ascii "-> X25519 " = stanzaBegin ++ argx25519 ++ [SP] by decide]
          simp
        · rw [ha, hhd, ht, ht₁, ht₂]
          simp
  · obtain ⟨esecret, hdraw, share, body, hshare, hbody, ht, ha, hd'⟩ := hg
    refine ⟨⟨share, body⟩, ?_, ht, ha, hd'⟩
    rw [drawnX25519, hdraw]
    simp [hshare, hbody]

theorem emits_pubenc (C : Crypto) (filekey : Bytes 16) (recs : List (Bytes 32)) (hd : Header) :
    Emits At h (pubenc C filekey recs hd) fun d a t _ =>
      ∃ ss, drawnKeys C filekey recs d = some ss ∧ FormsOf ss t ∧
        a = { hd with absorbed := hd.absorbed ++ t } := by
  induction recs generalizing hd with
  | nil =>
    unfold pubenc
    refine (Emits.pure _).mono fun d a t d' hg => ?_
    obtain ⟨ha, ht, -⟩ := hg
    rw [ht, ha, List.append_nil]
    exact ⟨[], rfl, .nil, rfl⟩
  | cons pubkey recs ih =>
    unfold pubenc
    refine (Emits.bind (emits_x25519stanza hc C hd filekey pubkey) ih).mono fun d a t d' hg => ?_
    obtain ⟨hd', t₁, d₁, t₂, ht, ⟨arg, harg, ht₁, hhd, hd₁⟩, ss, hss, hforms, ha⟩ := hg
    refine ⟨.x25519 arg :: ss, ?_, ?_, ?_⟩
    · rw [hd₁] at hss
      rw [drawnKeys, harg, hss]
      rfl
    · rw [ht, ht₁]
      exact hforms.cons (.x25519 arg.share arg.body) trivial
    · rw [ha, hhd, ht, List.append_assoc]

theorem emits_scryptstanzacost (C : Crypto) (hd : Header) (filekey : Bytes 16) (pass : List UInt8)
    {cost : Nat} (hcost : 2 ≤ cost ∧ cost ≤ 22) :
    Emits At h (scryptstanzacost C hd filekey pass cost) fun d a t _ =>
      ∃ arg, drawnScrypt C filekey pass cost (d 0) = some arg ∧ FormsOf [.scrypt arg] t ∧
        a = { hd with absorbed := hd.absorbed ++ t } := by
  obtain ⟨hwork, hatoi⟩ := workFactor_cost hcost
  unfold scryptstanzacost
  refine (emits_randombuf hc (G := fun salt _ a t _ => ∃ key, wrapkey C pass salt cost = .ok key ∧
    t = (StanzaForm.scrypt salt (ascii (toString cost)) (C.keyenc key filekey)).text ∧
    a = { hd with absorbed := hd.absorbed ++ t }) (.throw _) fun salt => ?_).mono
    fun d a t d' hg => ?_
  · dsimp only
    unfold scryptstanza
    cases hkey : wrapkey C pass salt cost with
    | error e =>
      apply Emits.never
      intro s a s' hr
      obtain ⟨e', s₁, -, hr'⟩ := runs_op_bind.mp hr
      cases (runs_throw.mp hr').1
    | ok key =>
      refine (Emits.bind (emits_hdrappend hc hd _) fun hd' => emits_hdrappend hc hd' _).mono
        fun d a t d' hg => ?_
      obtain ⟨hd', t₁, d₁, t₂, ht, ⟨hhd, ht₁, -⟩, ha, ht₂, -⟩ := hg
      refine ⟨key, rfl, ?_, ?_⟩
      · rw [ht, ht₁, ht₂, StanzaForm.text, StanzaForm.tail,
          show ascii "-> scrypt " = stanzaBegin ++ argscrypt ++ [SP] by decide]
        simp
      · rw [ha, hhd, ht, ht₁, ht₂]
        simp
  · obtain ⟨salt, hdraw, key, hkey, ht, ha⟩ := hg
    refine ⟨⟨salt, C.keyenc key filekey, cost⟩, ?_, ?_, ha⟩
    · have hdraw' : (d 0).bytes 16 = some salt := hdraw
      rw [drawnScrypt, hdraw']
      simp [hkey, Except.toOption]
    · have hform := FormsOf.nil.cons
        (.scrypt salt (ascii (toString cost)) (C.keyenc key filekey)) hwork
      rw [List.append_nil, StanzaForm.stanza, hatoi] at hform
      rw [ht]
      exact hform

theorem emits_stanzas (C : Crypto) (filekey : Bytes 16) {rcpt : Recipients} (hrcpt : rcpt.Costs)
    (hd : Header) :
    Emits At h (stanzas C filekey rcpt hd) fun d a t _ =>
      ∃ ss, headerStanzas C filekey rcpt d = some ss ∧ FormsOf ss t ∧
        a = { hd with absorbed := hd.absorbed ++ t } := by
  unfold stanzas
  cases rcpt with
  | keys recs => exact emits_pubenc hc C filekey recs hd
  | passphrase pass cost =>
    refine (emits_scryptstanzacost hc C hd filekey pass hrcpt).mono fun d a t d' hg => ?_
    obtain ⟨arg, harg, hforms, ha⟩ := hg
    exact ⟨[.scrypt arg], by rw [headerStanzas, harg]; rfl, hforms, ha⟩

/-- `makehdr` behind the first line of an armored output. -/
def hdrlines (C : Crypto) (filekey : Bytes 16) (rcpt : Recipients) : Wr Unit := do
  let h ← hdrappend (hdrinit C filekey) versionLine
  let h ← stanzas C filekey rcpt h
  let h ← hdrappend h stanzaEnd
  if ← Wr.bwrite ([SP] ++ hdrfinish C h ++ [NL]) then return () else Wr.failed

/-- A header that is written is a proper header with the stanzas of the
draws, and with the MAC of its text up to `---`. -/
def HeaderOf (C : Crypto) (filekey : Bytes 16) (rcpt : Recipients) (d : Nat → Draw)
    (t : List UInt8) : Prop :=
  ∃ ss forms, headerStanzas C filekey rcpt d = some ss ∧
    (∀ form ∈ forms, StanzaForm.Proper form) ∧ ss = forms.map StanzaForm.stanza ∧
    t = headerText forms (C.mac (macText forms) filekey)

theorem emits_hdrlines (C : Crypto) (filekey : Bytes 16) {rcpt : Recipients}
    (hrcpt : rcpt.Costs) :
    Emits At h (hdrlines C filekey rcpt) fun d _ t _ => HeaderOf C filekey rcpt d t := by
  unfold hdrlines
  refine (Emits.bind (emits_hdrappend hc _ _) fun h₁ =>
    Emits.bind (emits_stanzas hc C filekey hrcpt h₁) fun h₂ =>
      Emits.bind (emits_hdrappend hc h₂ _) fun h₃ => emits_bwrite hc (.pure _)).mono
    fun d a t d' hg => ?_
  obtain ⟨h₁, t₁, d₁, t₂, ht, ⟨hh₁, ht₁, hd₁⟩, h₂, t₃, d₂, t₄, ht₂,
    ⟨ss, hss, ⟨forms, hall, hforms, ht₃⟩, hh₂⟩, h₃, t₅, d₃, t₆, ht₄, ⟨hh₃, ht₅, -⟩, t₇, ht₆, -,
    hnil, -⟩ := hg
  rw [hd₁] at hss
  refine ⟨ss, forms, hss, hall, hforms, ?_⟩
  have hmac : hdrfinish C h₃ = base64encode (C.mac (macText forms) filekey).val false := by
    rw [hdrfinish, Crypto.mac, hh₃, hh₂, hh₁, ht₃]
    simp [hdrinit, macText]
  rw [ht, ht₁, ht₂, ht₃, ht₄, ht₅, ht₆, hnil, hmac, headerText, macText]
  simp

end

variable (hc : Collects At h)

include hc

theorem emits_armorline (line : List UInt8) :
    Emits At h (armorline line) fun d _ t d' => t = [] ∧ d' = d := by
  constructor
  intro s d w a s' hs hr
  unfold armorline at hr
  obtain ⟨b, s₁, ho, hr'⟩ := runs_op_bind.mp hr
  obtain ⟨rfl, rfl⟩ := hc.obarmor hs ho
  rw [if_neg Bool.false_ne_true] at hr'
  obtain ⟨-, rfl⟩ := runs_pure.mp hr'
  refine ⟨[], d, ⟨rfl, rfl⟩, ?_⟩
  rw [List.append_nil]
  exact hs

theorem emits_makehdr (C : Crypto) (filekey : Bytes 16) {rcpt : Recipients} (hrcpt : rcpt.Costs) :
    Emits At h (makehdr C filekey rcpt) fun d _ t _ =>
      ∃ ss forms, headerStanzas C filekey rcpt d = some ss ∧
        (∀ form ∈ forms, StanzaForm.Proper form) ∧ ss = forms.map StanzaForm.stanza ∧
        t = headerText forms (C.mac (macText forms) filekey) := by
  refine (Emits.bind (emits_armorline hc armorfirst) fun _ =>
    emits_hdrlines hc.toGathers C filekey hrcpt).mono fun d a t d' hg => ?_
  obtain ⟨_, t₁, d₁, t₂, ht, ⟨ht₁, hd₁⟩, hheader⟩ := hg
  rw [ht, ht₁, List.nil_append, ← hd₁]
  exact hheader

end

/-! ## Over any descriptors -/

section

variable {δ : Type} [Descr δ]

/-- Behind `pre` the binary output has been given `w`, and `d` are the draws
to come. -/
structure Keeps (ch : Chan δ) (pre : List UInt8) (io : Io δ) (d : Nat → Draw) (w : List UInt8) :
    Prop where
  live : ch.live io.dev
  draws : ch.draws io.dev = d
  snk : ∃ k, SnkRel ch io k ∧ k.isarmor = false ∧ k.Has pre w

theorem collects_keeps (ch : Chan δ) (pre : List UInt8) : Collects (Keeps ch pre) wrHandler := by
  refine ⟨⟨?_, ?_⟩, ?_⟩
  · intro io d w bs io' hk ho
    obtain ⟨k, hr, harm, hhas⟩ := hk.snk
    obtain ⟨ok, io₁, h, -, hout⟩ := bwrite_spec bs hk.live hr
    obtain ⟨rfl, rfl⟩ := Prod.mk.inj (Option.some.inj (h.symm.trans ho))
    rcases hout with ⟨hf, -⟩ | ⟨-, hkept, hr'⟩
    · cases hf
    · exact ⟨hkept.live, hkept.draws.trans hk.draws, _, hr', (Snk.bwrite_isarmor bs k).trans harm,
        hhas.bwrite bs⟩
  · intro io d w n r io' hk ho
    obtain ⟨k, hr, harm, hhas⟩ := hk.snk
    rcases hrandom : Descr.randombuf n io.dev with ⟨r', dev'⟩
    obtain ⟨hbytes, hdraws, -, hacc, -, -, hlive, -⟩ := ch.random_ok hk.live hrandom
    have ho' : some (r', { io with dev := dev' }) = some (r, io') := by
      rw [← ho, wrHandler, hrandom]
    obtain ⟨rfl, rfl⟩ := Prod.mk.inj (Option.some.inj ho')
    refine ⟨by rw [hbytes, hk.draws], hlive, ?_, k, ?_, harm, hhas⟩
    · rw [← hk.draws]
      exact hdraws
    · exact ⟨hr.fd, hr.isarmor, hr.cur, hr.held, hacc.trans hr.sent⟩
  · intro io d w b io' hk ho
    obtain ⟨k, hr, harm, hhas⟩ := hk.snk
    obtain ⟨rfl, rfl⟩ := Prod.mk.inj (Option.some.inj ho)
    exact ⟨hr.isarmor.trans harm, rfl⟩

end

/-- Whatever the short writes: when `makehdr` succeeds on a binary output,
the bytes that it has written are read back as the stanzas of the draws and
the MAC of their front part, whatever the short reads. -/
theorem makehdr_getheader (C : Crypto) (filekey : Bytes 16) (rcpt : Recipients)
    (hrcpt : rcpt.Costs) (m : Memory) (fi fo : Int) (recording : Bool) (dev : Dev) {io : Io Dev}
    (hrun : Runs wrHandler (makehdr C filekey rcpt) (m.start fi fo recording false dev) (.ok ())
      io) :
    ∃ pre h ss, stanzaEnd <:+ pre ∧
      h = pre ++ [SP] ++ base64encode (C.mac pre filekey).val false ++ [NL] ∧
      io.dev.out ++ io.ob.buf.window 0 io.ob.cur = dev.out ++ h ∧
      headerStanzas C filekey rcpt dev.draws = some ss ∧
      ∀ (m' : Memory) (fi' fo' : Int) (recording' isarmor' : Bool) (dev' : Dev), dev'.Reads →
        dev'.inp = h → ReadsHeader m' fi' fo' recording' isarmor' dev' ss (C.mac pre filekey) := by
  have hstart : Keeps (devChan fi fo False) dev.out (m.start fi fo recording false dev) dev.draws
      [] := ⟨trivial, rfl, _, snkRel_of_cur rfl (cap_pos _), rfl,
        Snk.has_nil (by simp [Memory.start])⟩
  obtain ⟨h, d', ⟨ss, forms, hss, hall, hforms, hh⟩, -, -, k, hr, harm, hhas⟩ :=
    (emits_makehdr (collects_keeps _ _) C filekey hrcpt).sound hstart hrun
  have hacc : ∀ form ∈ forms, form.Accepted := fun f hf => (f.proper_iff.mp (hall f hf)).1
  refine ⟨macText forms, h, ss, ⟨_, rfl⟩, hh, ?_, hss, ?_⟩
  · rw [Snk.Has, if_neg (by rw [harm]; exact Bool.false_ne_true), List.nil_append] at hhas
    rw [hr.held, ← hhas, ← hr.sent]
    rfl
  · intro m' fi' fo' recording' isarmor' dev' hreads hinp
    rw [readsHeader_iff_accepted hreads (by rw [hinp, hh]; exact headerText_binary forms _)]
    exact ⟨forms, hacc, hforms, hinp.trans hh⟩

/-- Two recipients. -/
def sampleRecipients : Recipients := .keys [curve25519basepoint, ⟨List.replicate 32 5, by decide⟩]

/-- The descriptors move one byte at a time. -/
theorem makehdr_getheader_two :
    ∃ (io : Io Dev) (pre h : List UInt8) (ss : List Stanza), stanzaEnd <:+ pre ∧
      h = pre ++ [SP] ++ base64encode (Crypto.sample.mac pre (Bytes.zero 16)).val false ++ [NL] ∧
      io.dev.out ++ io.ob.buf.window 0 io.ob.cur = [] ++ h ∧
      headerStanzas Crypto.sample (Bytes.zero 16) sampleRecipients (Dev.steady [] 0).draws =
        some ss ∧
      ∀ (m' : Memory) (fi' fo' : Int) (recording' isarmor' : Bool) (dev' : Dev), dev'.Reads →
        dev'.inp = h → ReadsHeader m' fi' fo' recording' isarmor' dev' ss
          (Crypto.sample.mac pre (Bytes.zero 16)) := by
  obtain ⟨io, hrun⟩ : ∃ io, Runs wrHandler (makehdr Crypto.sample (Bytes.zero 16) sampleRecipients)
      (Memory.zero.start 3 4 true false (Dev.steady [] 0)) (.ok ()) io :=
    exists_runs 5 (by decide +kernel)
  exact ⟨io, makehdr_getheader Crypto.sample (Bytes.zero 16) sampleRecipients trivial
    Memory.zero 3 4 true (Dev.steady [] 0) hrun⟩

end Agecrypt
