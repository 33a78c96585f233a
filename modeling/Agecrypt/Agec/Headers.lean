import Agecrypt.Agec.Device
import Agecrypt.Agec.Parsing

/-!
# The language of headers

`getheader` is the parser of a whole header: the version line, the calls of
`getstanza` up to the one that answers no stanza, and the MAC.  It
recognises the texts of the accepted forms.  Such a text has one reading, so
that the parser keeps to the grammar exactly where that reading has no slip.
-/

namespace Agecrypt

open ProgE

/-- The stanzas that the loop of `match` receives. -/
def getstanzas : Rd (List Stanza) :=
  ProgE.loop (fun (ss : List Stanza) => do
    match ← getstanza with
    | none => return .inr ss
    | some s => return .inl (ss ++ [s])) []

/-- The calls that read a header, without what the callers do in between. -/
def getheader : Rd (List Stanza × Bytes 32) := do
  getversion
  let ss ← getstanzas
  let mac ← getmac
  return (ss, mac)

/-! ## What is recognised -/

/-- A round of the loop over the stanzas. -/
def GetstanzasRound (ss : List Stanza) : List Stanza ⊕ List Stanza → List UInt8 → Prop
  | .inr ss', t => ss' = ss ∧ t = stanzaEnd
  | .inl ss', t => ∃ form : StanzaForm, form.Accepted ∧ ss' = ss ++ [form.stanza] ∧ t = form.text

theorem getstanzas_loopText {ss ss' : List Stanza} {t u : List UInt8} :
    LoopText (fun ss r t _ => GetstanzasRound ss r t) ss ss' t u ↔
      ∃ forms : List StanzaForm, (∀ form ∈ forms, form.Accepted) ∧
        ss' = ss ++ forms.map StanzaForm.stanza ∧
        t = (forms.map StanzaForm.text).flatten ++ stanzaEnd := by
  constructor
  · intro h
    induction h with
    | stop hb =>
      obtain ⟨hss, ht⟩ := hb
      exact ⟨[], fun form hform => absurd hform List.not_mem_nil, by rw [hss]; simp, ht⟩
    | more hb _ ih =>
      obtain ⟨form, hacc, hss, ht⟩ := hb
      obtain ⟨forms, hall, hss', ht'⟩ := ih
      refine ⟨form :: forms, List.forall_mem_cons.mpr ⟨hacc, hall⟩, ?_, ?_⟩
      · rw [hss', hss, List.append_assoc]
        rfl
      · rw [ht, ht', List.map_cons, List.flatten_cons, List.append_assoc]
  · rintro ⟨forms, hall, hss, ht⟩
    induction forms generalizing ss t with
    | nil => exact .stop ⟨by rw [hss]; simp, ht⟩
    | cons form forms ih =>
      obtain ⟨hacc, hall'⟩ := List.forall_mem_cons.mp hall
      rw [List.map_cons, List.flatten_cons, List.append_assoc] at ht
      rw [ht]
      have hround : GetstanzasRound ss (.inl (ss ++ [form.stanza])) form.text :=
        ⟨form, hacc, rfl, rfl⟩
      refine .more hround (ih hall' ?_ rfl)
      rw [hss, List.append_assoc]
      rfl

section

variable {σ : Type} {At : σ → List UInt8 → Prop} {h : Handler RdOp RdRet σ}
  (hd : Delivers At h)

include hd

theorem recognizes_getstanzas :
    Recognizes At h getstanzas fun ss t _ => ∃ forms : List StanzaForm,
      (∀ form ∈ forms, form.Accepted) ∧ ss = forms.map StanzaForm.stanza ∧
      t = (forms.map StanzaForm.text).flatten ++ stanzaEnd := by
  unfold getstanzas
  refine (Recognizes.loop (B := fun ss r t _ => GetstanzasRound ss r t) (fun ss => ?_) []).congr
    fun ss t u => getstanzas_loopText
  refine Recognizes.congr (.bind_to (fun s r t _ => t = [] ∧
    r = s.elim (.inr ss) fun s => .inl (ss ++ [s])) (recognizes_getstanza hd) fun s => ?_)
    fun r t u => ?_
  · cases s with
    | none => exact (Recognizes.pure _).congr fun r t u => and_comm
    | some s => exact (Recognizes.pure _).congr fun r t u => and_comm
  constructor
  · rintro ⟨s, t₁, t₂, ht, hs, hnil, hr⟩
    rw [hnil, List.append_nil] at ht
    rcases hs with ⟨rfl, ht₁⟩ | ⟨form, hacc, rfl, ht₁⟩
    · rw [hr]
      exact ⟨rfl, ht.trans ht₁⟩
    · rw [hr]
      exact ⟨form, hacc, rfl, ht.trans ht₁⟩
  · intro hround
    cases r with
    | inl ss' =>
      obtain ⟨form, hacc, hss, ht⟩ := hround
      exact ⟨some form.stanza, t, [], (List.append_nil t).symm, .inr ⟨form, hacc, rfl, ht⟩, rfl,
        by rw [hss]; rfl⟩
    | inr ss' =>
      obtain ⟨hss, ht⟩ := hround
      exact ⟨none, t, [], (List.append_nil t).symm, .inl ⟨rfl, ht⟩, rfl, by rw [hss]; rfl⟩

/-- The parser recognises the texts of the accepted forms. -/
theorem recognizes_getheader :
    Recognizes At h getheader fun r t _ => ∃ forms : List StanzaForm,
      (∀ form ∈ forms, form.Accepted) ∧ r.1 = forms.map StanzaForm.stanza ∧
      t = headerText forms r.2 := by
  unfold getheader
  refine Recognizes.congr ((recognizes_getversion hd).bind fun _ =>
    (recognizes_getstanzas hd).bind fun ss => (recognizes_getmac hd).bind fun mac => .pure _)
    fun r t u => ?_
  constructor
  · rintro ⟨_, t₁, t₂, ht, ht₁, ss, t₃, t₄, ht₂, ⟨forms, hall, hss, ht₃⟩, mac, t₅, t₆, ht₄, ht₅, hr,
      hnil⟩
    refine ⟨forms, hall, by rw [hr, hss], ?_⟩
    rw [ht, ht₁, ht₂, ht₃, ht₄, ht₅, hnil, hr, headerText, macText]
    simp
  · rintro ⟨forms, hall, hss, ht⟩
    refine ⟨(), versionLine, (forms.map StanzaForm.text).flatten ++ stanzaEnd ++
      ([SP] ++ base64encode r.2.val false ++ [NL]), ?_, rfl, r.1, _, _, rfl,
      ⟨forms, hall, hss, rfl⟩, r.2, _, [], (List.append_nil _).symm, rfl, rfl, rfl⟩
    rw [ht, headerText, macText]
    simp

end

/-! ## One reading -/

/-- Two texts that stop at the same kind of character. -/
theorem stop_inj {P : UInt8 → Prop} {a b u v : List UInt8} (ha : ∀ c ∈ a, ¬ P c)
    (hb : ∀ c ∈ b, ¬ P c) (hu : ∃ c, u.head? = some c ∧ P c) (hv : ∃ c, v.head? = some c ∧ P c)
    (h : a ++ u = b ++ v) : a = b ∧ u = v := by
  induction a generalizing b with
  | nil =>
    cases b with
    | nil => exact ⟨rfl, h⟩
    | cons y b =>
      obtain ⟨c, hc, hP⟩ := hu
      rw [List.nil_append] at h
      rw [h] at hc
      rw [← Option.some.inj hc] at hP
      exact absurd hP (hb y List.mem_cons_self)
  | cons x a ih =>
    cases b with
    | nil =>
      obtain ⟨c, hc, hP⟩ := hv
      rw [List.nil_append] at h
      rw [← h] at hc
      rw [← Option.some.inj hc] at hP
      exact absurd hP (ha x List.mem_cons_self)
    | cons y b =>
      obtain ⟨hxy, htail⟩ := List.cons.inj h
      obtain ⟨hab, huv⟩ := ih (fun c hc => ha c (List.mem_cons_of_mem x hc))
        (fun c hc => hb c (List.mem_cons_of_mem y hc)) htail
      exact ⟨by rw [hxy, hab], huv⟩

theorem line_inj {a b u v : List UInt8} (ha : NL ∉ a) (hb : NL ∉ b)
    (h : a ++ ([NL] ++ u) = b ++ ([NL] ++ v)) : a = b ∧ u = v := by
  obtain ⟨hab, huv⟩ := @stop_inj (· = NL) a b ([NL] ++ u) ([NL] ++ v)
    (fun c hc heq => ha (heq ▸ hc)) (fun c hc heq => hb (heq ▸ hc)) ⟨NL, rfl, rfl⟩ ⟨NL, rfl, rfl⟩ h
  exact ⟨hab, List.append_cancel_left huv⟩

theorem args_inj {args args' : List (List UInt8)} {u v : List UInt8}
    (ha : ∀ arg ∈ args, Visible arg) (hb : ∀ arg ∈ args', Visible arg)
    (h : spaced args ++ ([NL] ++ u) = spaced args' ++ ([NL] ++ v)) : args = args' ∧ u = v := by
  have hend : ∀ (args : List (List UInt8)) (u : List UInt8),
      AtEnd (spaced args ++ ([NL] ++ u)) := by
    intro args u
    cases args with
    | nil => exact ⟨NL, rfl, .inr rfl⟩
    | cons arg args => exact ⟨SP, rfl, .inl rfl⟩
  induction args generalizing args' with
  | nil =>
    cases args' with
    | nil => exact ⟨rfl, List.append_cancel_left h⟩
    | cons arg' args' => exact absurd (List.cons.inj h).1 (by decide)
  | cons arg args ih =>
    cases args' with
    | nil => exact absurd (List.cons.inj h).1 (by decide)
    | cons arg' args' =>
      obtain ⟨hvis, ha'⟩ := List.forall_mem_cons.mp ha
      obtain ⟨hvis', hb'⟩ := List.forall_mem_cons.mp hb
      have hrest : arg ++ (spaced args ++ ([NL] ++ u)) = arg' ++ (spaced args' ++ ([NL] ++ v)) := by
        have := (List.cons.inj h).2
        simpa [spaced] using this
      obtain ⟨harg, hargs⟩ := stop_inj (fun c hc => vchar_ne (hvis c hc))
        (fun c hc => vchar_ne (hvis' c hc)) (hend args u) (hend args' v) hrest
      obtain ⟨hargs, huv⟩ := ih ha' hb' hargs
      exact ⟨by rw [harg, hargs], huv⟩

theorem body_inj {lines lines' : List (List UInt8)} {last last' u v : List UInt8}
    (ha : ∀ line ∈ lines, line.length = 64 ∧ NL ∉ line) (hla : last.length < 64 ∧ NL ∉ last)
    (hb : ∀ line ∈ lines', line.length = 64 ∧ NL ∉ line) (hlb : last'.length < 64 ∧ NL ∉ last')
    (h : fullLines lines ++ (last ++ ([NL] ++ u)) = fullLines lines' ++ (last' ++ ([NL] ++ v))) :
    lines = lines' ∧ last = last' ∧ u = v := by
  have hcons : ∀ (line : List UInt8) lines (t : List UInt8),
      fullLines (line :: lines) ++ t = line ++ ([NL] ++ (fullLines lines ++ t)) := by
    intro line lines t
    simp [fullLines]
  induction lines generalizing lines' with
  | nil =>
    cases lines' with
    | nil =>
      obtain ⟨hlast, huv⟩ := line_inj hla.2 hlb.2 h
      exact ⟨rfl, hlast, huv⟩
    | cons line' lines' =>
      rw [hcons] at h
      obtain ⟨hfull, hnl⟩ := hb line' List.mem_cons_self
      have := (line_inj hla.2 hnl h).1
      rw [this] at hla
      omega
  | cons line lines ih =>
    obtain ⟨⟨hfull, hnl⟩, ha'⟩ := List.forall_mem_cons.mp ha
    rw [hcons] at h
    cases lines' with
    | nil =>
      have := (line_inj hnl hlb.2 h).1
      rw [← this] at hlb
      omega
    | cons line' lines' =>
      obtain ⟨⟨-, hnl'⟩, hb'⟩ := List.forall_mem_cons.mp hb
      rw [hcons] at h
      obtain ⟨hline, hrest⟩ := line_inj hnl hnl' h
      obtain ⟨hlines, hlast, huv⟩ := ih ha' hb' hrest
      exact ⟨by rw [hline, hlines], hlast, huv⟩

/-- The text of a value, up to the character behind it. -/
theorem value_inj {n : Nat} {a b : Bytes n} {u v : List UInt8}
    (h : base64encode a.val false ++ u = base64encode b.val false ++ v) : a = b ∧ u = v := by
  have hlen : (base64encode a.val false).length = (base64encode b.val false).length := by
    rw [length_plain, length_plain, a.size_eq, b.size_eq]
  obtain ⟨hab, huv⟩ := List.append_inj h hlen
  refine ⟨Bytes.ext ?_, huv⟩
  have hdec := (plain_iff (length_plain_mod a.val)).mpr hab
  rw [(plain_iff (length_plain_mod a.val)).mpr rfl] at hdec
  exact Option.some.inj hdec

namespace StanzaForm

/-- The type of a stanza. -/
def type : StanzaForm → List UInt8
  | x25519 _ _ => argx25519
  | scrypt _ _ _ => argscrypt
  | other type _ _ _ => type

/-- The text behind the type. -/
def behind : StanzaForm → List UInt8
  | x25519 share body =>
    [SP] ++ (base64encode share.val false ++ ([NL] ++ (base64encode body.val false ++ [NL])))
  | scrypt salt digits body =>
    [SP] ++ (base64encode salt.val false ++ ([SP] ++ (digits ++ ([NL] ++
      (base64encode body.val false ++ [NL])))))
  | other _ args lines last => spaced args ++ ([NL] ++ (fullLines lines ++ (last ++ [NL])))

theorem tail_eq (f : StanzaForm) : f.tail = f.type ++ f.behind := by
  cases f <;> simp [tail, type, behind]

theorem Accepted.visible {f : StanzaForm} (h : f.Accepted) : Visible f.type := by
  cases f with
  | x25519 share body =>
    show Visible argx25519
    decide +kernel
  | scrypt salt digits body =>
    show Visible argscrypt
    decide +kernel
  | other type args lines last => exact h.2.1

theorem atEnd_behind (f : StanzaForm) (u : List UInt8) : AtEnd (f.behind ++ u) := by
  cases f with
  | x25519 share body => exact ⟨SP, rfl, .inl rfl⟩
  | scrypt salt digits body => exact ⟨SP, rfl, .inl rfl⟩
  | other type args lines last =>
    cases args with
    | nil => exact ⟨NL, rfl, .inr rfl⟩
    | cons arg args => exact ⟨SP, rfl, .inl rfl⟩

theorem digits_line {digits : List UInt8} (h : WorkFactor digits) : NL ∉ digits := by
  intro hmem
  have := h.2.2.1 NL hmem
  exact absurd this.1 (by decide)

/-- A stanza is told from what follows it, and has one form. -/
theorem text_inj {f g : StanzaForm} (hf : f.Accepted) (hg : g.Accepted) {u v : List UInt8}
    (h : f.text ++ u = g.text ++ v) : f = g ∧ u = v := by
  rw [text, text, List.append_assoc, List.append_assoc] at h
  have h := List.append_cancel_left h
  rw [tail_eq, tail_eq, List.append_assoc, List.append_assoc] at h
  obtain ⟨htype, hbehind⟩ := stop_inj (fun c hc => vchar_ne (hf.visible c hc))
    (fun c hc => vchar_ne (hg.visible c hc)) (f.atEnd_behind u) (g.atEnd_behind v) h
  cases f with
  | x25519 share body =>
    cases g with
    | x25519 share' body' =>
      simp only [behind, List.append_assoc] at hbehind
      obtain ⟨rfl, h₁⟩ := value_inj (List.append_cancel_left hbehind)
      obtain ⟨rfl, h₂⟩ := value_inj (List.append_cancel_left h₁)
      exact ⟨rfl, List.append_cancel_left h₂⟩
    | scrypt => exact absurd (show argx25519 = argscrypt from htype) (by decide)
    | other => exact absurd htype.symm hg.1.2
  | scrypt salt digits body =>
    cases g with
    | x25519 => exact absurd (show argscrypt = argx25519 from htype) (by decide)
    | scrypt salt' digits' body' =>
      simp only [behind, List.append_assoc] at hbehind
      obtain ⟨rfl, h₁⟩ := value_inj (List.append_cancel_left hbehind)
      obtain ⟨rfl, h₂⟩ := line_inj (digits_line hf) (digits_line hg) (List.append_cancel_left h₁)
      obtain ⟨rfl, h₃⟩ := value_inj h₂
      exact ⟨rfl, List.append_cancel_left h₃⟩
    | other => exact absurd htype.symm hg.1.1
  | other type args lines last =>
    cases g with
    | x25519 => exact absurd htype hf.1.2
    | scrypt => exact absurd htype hf.1.1
    | other type' args' lines' last' =>
      obtain ⟨-, -, hargs, hlines, hlen, hdec⟩ := hf
      obtain ⟨-, -, hargs', hlines', hlen', hdec'⟩ := hg
      simp only [behind, List.append_assoc] at hbehind
      obtain ⟨rfl, h₁⟩ := args_inj (fun arg hmem => (hargs arg hmem).2)
        (fun arg hmem => (hargs' arg hmem).2) hbehind
      obtain ⟨rfl, rfl, huv⟩ := body_inj
        (fun line hmem => ⟨(hlines line hmem).1, nl_not_mem (hlines line hmem).2⟩)
        ⟨hlen, nl_not_mem hdec⟩
        (fun line hmem => ⟨(hlines' line hmem).1, nl_not_mem (hlines' line hmem).2⟩)
        ⟨hlen', nl_not_mem hdec'⟩ h₁
      exact ⟨by rw [show type = type' from htype], huv⟩

end StanzaForm

theorem forms_inj {forms forms' : List StanzaForm} (ha : ∀ form ∈ forms, form.Accepted)
    (hb : ∀ form ∈ forms', form.Accepted) {u v : List UInt8}
    (h : (forms.map StanzaForm.text).flatten ++ (stanzaEnd ++ u) =
      (forms'.map StanzaForm.text).flatten ++ (stanzaEnd ++ v)) : forms = forms' ∧ u = v := by
  -- the end of the header is no stanza
  have hend : ∀ (f : StanzaForm) (t u : List UInt8), stanzaEnd ++ u ≠ f.text ++ t := by
    intro f t u heq
    rw [StanzaForm.text, List.append_assoc] at heq
    have hlen : stanzaEnd.length = stanzaBegin.length := by decide
    have hne : stanzaEnd ≠ stanzaBegin := by decide
    exact hne (List.append_inj heq hlen).1
  induction forms generalizing forms' with
  | nil =>
    cases forms' with
    | nil => exact ⟨rfl, List.append_cancel_left h⟩
    | cons f' forms' =>
      rw [List.map_cons, List.flatten_cons, List.append_assoc] at h
      exact absurd h (hend _ _ _)
  | cons f forms ih =>
    rw [List.map_cons, List.flatten_cons, List.append_assoc] at h
    cases forms' with
    | nil => exact absurd h.symm (hend _ _ _)
    | cons f' forms' =>
      obtain ⟨hacc, ha'⟩ := List.forall_mem_cons.mp ha
      obtain ⟨hacc', hb'⟩ := List.forall_mem_cons.mp hb
      rw [List.map_cons, List.flatten_cons, List.append_assoc] at h
      obtain ⟨hf, hrest⟩ := StanzaForm.text_inj hacc hacc' h
      obtain ⟨hforms, huv⟩ := ih ha' hb' hrest
      exact ⟨by rw [hf, hforms], huv⟩

/-- A header has one reading. -/
theorem headerText_inj {forms forms' : List StanzaForm} {mac mac' : Bytes 32}
    (ha : ∀ form ∈ forms, form.Accepted) (hb : ∀ form ∈ forms', form.Accepted)
    (h : headerText forms mac = headerText forms' mac') : forms = forms' ∧ mac = mac' := by
  simp only [headerText, macText, List.append_assoc] at h
  obtain ⟨hforms, hmac⟩ := forms_inj ha hb (List.append_cancel_left h)
  exact ⟨hforms, (value_inj (List.append_cancel_left hmac)).1⟩

/-! ## Over a binary input -/

section

variable {δ : Type} [Descr δ] {ch : Chan δ}

/-- The buffer delivers `l`, and no read fails. -/
structure Holds (f : Feed ch) (io : Io δ) (l : List UInt8) : Prop where
  ready : f.ready io.dev
  steady : ch.steady io.dev
  fd : io.ib.fd = ch.fi
  src : ∃ s, SrcRel f io.ib (ch.unread io.dev) s ∧ s.rest = l

theorem Holds.next {f : Feed ch} {io io' : Io δ} {l : List UInt8} {s : Src} (h : Holds f io l)
    (hfr : Frame ch io io') (hr : SrcRel f io'.ib (ch.unread io'.dev) s) : Holds f io' s.rest :=
  ⟨f.kept h.ready hfr.kept, hfr.kept.steady h.steady, hfr.fd.trans h.fd, s, hr, rfl⟩

theorem delivers_holds (f : Feed ch) : Delivers (Holds f) rdHandler := by
  constructor
  · intro io l n hio
    obtain ⟨s, hr, rfl⟩ := hio.src
    rcases bread_spec n hio.ready hio.fd hr with ⟨io', -, hlost⟩ | ⟨io', h, hfr, hr'⟩
    · exact absurd hio.steady hlost.unsteady
    · exact ⟨io', h, hio.next hfr hr'⟩
  · intro io l hio
    obtain ⟨s, hr, rfl⟩ := hio.src
    rcases bpeek_spec hio.ready hio.fd hr with ⟨io', -, hlost⟩ | ⟨io', h, hfr, hr'⟩
    · exact absurd hio.steady hlost.unsteady
    · rw [Src.bpeek_fst] at h
      have hnext := hio.next hfr hr'
      rw [Src.bpeek_rest] at hnext
      exact ⟨io', h, hnext⟩

end

/-- The calls read the whole input as a header. -/
def ReadsHeader (m : Memory) (fi fo : Int) (recording isarmor : Bool) (dev : Dev)
    (ss : List Stanza) (mac : Bytes 32) : Prop :=
  ∃ io io', Runs rdHandler getheader (m.start fi fo recording isarmor dev) (.ok (ss, mac)) io ∧
    bpeek io = some (.eof, io')

/-- The grammar of headers, with the stanzas and the MAC that `h` stands
for. -/
def IsHeader (h : List UInt8) (ss : List Stanza) (mac : Bytes 32) : Prop :=
  ∃ forms : List StanzaForm, (∀ form ∈ forms, form.Proper) ∧ ss = forms.map StanzaForm.stanza ∧
    h = headerText forms mac

/-- A header but for a stanza without a type or a lone character at the end
of a body. -/
def HasSlip (h : List UInt8) : Prop :=
  ∃ forms mac, (∀ form ∈ forms, StanzaForm.Accepted form) ∧ (∃ form ∈ forms, form.Slips) ∧
    h = headerText forms mac

theorem readsHeader_iff_accepted {m : Memory} {fi fo : Int} {recording isarmor : Bool} {dev : Dev}
    (hreads : dev.Reads) (hbin : ¬ armorfirst <+: dev.inp) {ss : List Stanza} {mac : Bytes 32} :
    ReadsHeader m fi fo recording isarmor dev ss mac ↔ ∃ forms : List StanzaForm,
      (∀ form ∈ forms, form.Accepted) ∧ ss = forms.map StanzaForm.stanza ∧
      dev.inp = headerText forms mac := by
  have hd := delivers_holds (binaryFeed (devChan fi fo False))
  have hstart : Holds (binaryFeed (devChan fi fo False)) (m.start fi fo recording isarmor dev)
      dev.inp := ⟨trivial, ⟨hreads, False.elim⟩, rfl, _, srcRel_start _ m fi fo _ _ hbin, rfl⟩
  constructor
  · rintro ⟨io, io', hrun, hpeek⟩
    obtain ⟨t, u, hinp, ⟨forms, hall, hss, ht⟩, hio⟩ := (recognizes_getheader hd).sound hstart hrun
    obtain ⟨io₂, hpeek₂, -⟩ := hd.bpeek hio
    have hend := (Prod.mk.inj (Option.some.inj (hpeek.symm.trans hpeek₂))).1
    cases u with
    | cons c u => cases hend
    | nil => exact ⟨forms, hall, hss, by rw [hinp, ht, List.append_nil]⟩
  · rintro ⟨forms, hall, hss, hinp⟩
    rw [hinp, ← List.append_nil (headerText forms mac)] at hstart
    obtain ⟨io, hrun, hio⟩ := (recognizes_getheader hd).complete hstart
      (show ∃ forms : List StanzaForm, _ ∧ (ss, mac).1 = _ ∧ _ from ⟨forms, hall, hss, rfl⟩)
    obtain ⟨io', hpeek, -⟩ := hd.bpeek hio
    exact ⟨io, io', hrun, hpeek⟩

theorem headerText_binary (forms : List StanzaForm) (mac : Bytes 32) :
    ¬ armorfirst <+: headerText forms mac := by
  intro hpre
  obtain ⟨t, ht⟩ := hpre
  simp only [headerText, macText, List.append_assoc] at ht
  have hhead := congrArg List.head? ht
  rw [List.head?_append, List.head?_append, show armorfirst.head? = some 45 by decide,
    show versionLine.head? = some 97 by decide] at hhead
  exact absurd (Option.some.inj hhead) (by decide)

/-- A stanza with a slip is read, and is no header. -/
theorem readsHeader_slip (form : StanzaForm) (hacc : form.Accepted) (hslip : form.Slips)
    {m : Memory} {fi fo : Int} {recording isarmor : Bool} {dev : Dev} (hreads : dev.Reads)
    {mac : Bytes 32} (hinp : dev.inp = headerText [form] mac) :
    ReadsHeader m fi fo recording isarmor dev [form.stanza] mac ∧
      ∀ ss mac', ¬ IsHeader (headerText [form] mac) ss mac' := by
  have hall : ∀ f ∈ [form], StanzaForm.Accepted f := List.forall_mem_singleton.mpr hacc
  constructor
  · rw [readsHeader_iff_accepted hreads (hinp ▸ headerText_binary [form] mac)]
    exact ⟨[form], hall, rfl, hinp⟩
  · intro ss mac' hheader
    obtain ⟨forms, hproper, -, hinp'⟩ := hheader
    have hall' : ∀ f ∈ forms, f.Accepted := fun f hf => (f.proper_iff.mp (hproper f hf)).1
    obtain ⟨rfl, -⟩ := headerText_inj hall hall' hinp'
    exact (form.proper_iff.mp (hproper form List.mem_cons_self)).2 hslip

/-- The parser keeps to the grammar on every binary input but those that are
headers with a slip. -/
theorem readsHeader_exact_iff (m : Memory) (fi fo : Int) (recording isarmor : Bool) (dev : Dev)
    (hreads : dev.Reads) (hbin : ¬ armorfirst <+: dev.inp) :
    (∀ ss mac, ReadsHeader m fi fo recording isarmor dev ss mac ↔ IsHeader dev.inp ss mac) ↔
      ¬ HasSlip dev.inp := by
  constructor
  · rintro hexact ⟨forms, mac, hall, ⟨form, hmem, hslip⟩, hinp⟩
    obtain ⟨forms', hproper, -, hinp'⟩ := (hexact _ mac).mp
      ((readsHeader_iff_accepted hreads hbin).mpr ⟨forms, hall, rfl, hinp⟩)
    have hall' : ∀ form ∈ forms', form.Accepted := fun f hf => (f.proper_iff.mp (hproper f hf)).1
    obtain ⟨rfl, -⟩ := headerText_inj hall hall' (hinp.symm.trans hinp')
    exact (form.proper_iff.mp (hproper form hmem)).2 hslip
  · intro hno ss mac
    rw [readsHeader_iff_accepted hreads hbin]
    constructor
    · rintro ⟨forms, hall, hss, hinp⟩
      refine ⟨forms, fun form hmem => form.proper_iff.mpr ⟨hall form hmem, fun hslip => ?_⟩, hss,
        hinp⟩
      exact hno ⟨forms, mac, hall, ⟨form, hmem, hslip⟩, hinp⟩
    · rintro ⟨forms, hproper, hss, hinp⟩
      exact ⟨forms, fun f hf => (f.proper_iff.mp (hproper f hf)).1, hss, hinp⟩

/-- A stanza for a recipient, and one of another type with two arguments. -/
def sampleForms : List StanzaForm :=
  [.x25519 (Bytes.zero 32) (Bytes.zero 32),
    .other (ascii "joint") [ascii "oil-of", ascii "mugwort"] [] (ascii "AAAA")]

theorem readsHeader_exact_iff_stanzas :
    (∀ ss mac, ReadsHeader Memory.zero 3 4 true false
        (Dev.steady (headerText sampleForms (Bytes.zero 32)) 0) ss mac ↔
      IsHeader (headerText sampleForms (Bytes.zero 32)) ss mac) ↔
      ¬ HasSlip (headerText sampleForms (Bytes.zero 32)) := by
  have h := readsHeader_exact_iff Memory.zero 3 4 true false
    (Dev.steady (headerText sampleForms (Bytes.zero 32)) 0) (fun _ hfail => Event.noConfusion hfail)
    (headerText_binary sampleForms (Bytes.zero 32))
  rw [Dev.steady_inp] at h
  exact h

/-- A stanza without a type, and a body that ends with a lone character, are
read as unknown stanzas. -/
theorem readsHeader_overlooks :
    (ReadsHeader Memory.zero 3 4 true false
        (Dev.steady (headerText [.other [] [] [] []] (Bytes.zero 32)) 0)
        [.unknown] (Bytes.zero 32) ∧
      ∀ ss mac, ¬ IsHeader (headerText [.other [] [] [] []] (Bytes.zero 32)) ss mac) ∧
    (ReadsHeader Memory.zero 3 4 true false
        (Dev.steady (headerText [.other (ascii "foo") [] [] (ascii "A")] (Bytes.zero 32)) 0)
        [.unknown] (Bytes.zero 32) ∧
      ∀ ss mac, ¬ IsHeader
        (headerText [.other (ascii "foo") [] [] (ascii "A")] (Bytes.zero 32)) ss mac) := by
  have hsteady : ∀ h, (Dev.steady h 0).Reads := fun _ _ hfail => Event.noConfusion hfail
  constructor
  · refine readsHeader_slip (.other [] [] [] []) ?_ (.inl rfl) (hsteady _)
      (Dev.steady_inp _ _)
    exact ⟨by unfold Foreign; decide, by decide +kernel, by decide, by decide, by decide,
      by decide +kernel⟩
  · refine readsHeader_slip (.other (ascii "foo") [] [] (ascii "A")) ?_ (.inr rfl)
      (hsteady _) (Dev.steady_inp _ _)
    exact ⟨by unfold Foreign; decide, by decide +kernel, by decide, by decide, by decide,
      by decide +kernel⟩

end Agecrypt
