import Agecrypt.Agec.ArmorRoundTrip
import Agecrypt.Agec.Opening
import Agecrypt.Agec.Enciphered

/-!
# Decryption undoes encryption

What a successful encryption has sent decrypts to the input, for every list
of identities with the private key of a recipient and for the passphrase,
binary or armored, and whatever the schedules of the descriptors of both
runs.  The input is what the reader delivers: an input that begins like an
armored file is encrypted without its armor.

Two lengths matter when the output is armored: that of the whole file, for
the ending line, and that of the header, for the pointer under the MAC.
-/

namespace Agecrypt

open ProgE

/-! ## The primitives -/

/-- What the round trip relies on: authenticated decryption undoes
encryption, and the agreement is symmetric. -/
structure Lawful (C : Crypto) : Prop where
  aead : C.AeadExact
  symmetric : ∀ a b pa pb, C.x25519pub a = some pa → C.x25519pub b = some pb →
    C.x25519 a pb = C.x25519 b pa

/-- Who can decrypt what is encrypted to `rcpt`: the private key of one of
the recipients is among the identities, or the passphrase is the same. -/
def Recipients.OpenedBy (C : Crypto) : Recipients → Access → Prop
  | .keys recs, .identities ids => ∃ id ∈ ids, ∃ pub ∈ recs, C.x25519pub id = some pub
  | .passphrase pass _, .passphrase pass' => pass' = pass
  | _, _ => False

/-- No identity meets a point of low order in the stanzas, and none opens a
stanza by chance to anything but the file key. -/
def Access.NoAccident (C : Crypto) : Access → List Stanza → Bytes 16 → Prop
  | .identities ids, ss, filekey => ∀ id ∈ ids, C.x25519pub id ≠ none ∧
      ∀ arg, .x25519 arg ∈ ss → C.x25519 id arg.share ≠ none ∧
        ∀ key, x25519getkey C arg id = .ok (some key) → key = filekey
  | .passphrase _, _, _ => True

section

variable {C : Crypto} {filekey : Bytes 16}

theorem Lawful.keydec_keyenc (hC : Lawful C) (key : Bytes 32) :
    C.keydec key (C.keyenc key filekey) = some filekey :=
  C.keydec_eq ((hC.aead _ _ _ _).mpr rfl)

/-- The stanza of a recipient. -/
theorem drawnX25519_spec {pub : Bytes 32} {d : Draw} {arg : X25519arg}
    (h : drawnX25519 C filekey pub d = some arg) :
    ∃ esecret secret, C.x25519pub esecret = some arg.share ∧ C.x25519 esecret pub = some secret ∧
      arg.body = C.keyenc (C.wrap arg.share secret pub) filekey := by
  unfold drawnX25519 at h
  obtain ⟨esecret, -, h⟩ := Option.bind_eq_some_iff.mp h
  obtain ⟨share, hshare, h⟩ := Option.bind_eq_some_iff.mp h
  obtain ⟨body, hbody, h⟩ := Option.bind_eq_some_iff.mp h
  obtain rfl := Option.some.inj h
  obtain ⟨secret, hsecret, hwrap⟩ := Option.map_eq_some_iff.mp hbody
  exact ⟨esecret, secret, hshare, hsecret, hwrap.symm⟩

/-- The stanzas of the recipients. -/
theorem drawnKeys_spec {recs : List (Bytes 32)} {d : Nat → Draw} {ss : List Stanza}
    (h : drawnKeys C filekey recs d = some ss) :
    (∀ s ∈ ss, ∃ arg, s = .x25519 arg) ∧
      ∀ pub ∈ recs, ∃ arg esecret secret, .x25519 arg ∈ ss ∧ C.x25519pub esecret = some arg.share ∧
        C.x25519 esecret pub = some secret ∧
        arg.body = C.keyenc (C.wrap arg.share secret pub) filekey := by
  induction recs generalizing d ss with
  | nil =>
    rw [← Option.some.inj h]
    exact ⟨fun s hs => absurd hs List.not_mem_nil, fun pub hpub => absurd hpub List.not_mem_nil⟩
  | cons pub recs ih =>
    obtain ⟨arg, harg, h⟩ := Option.bind_eq_some_iff.mp h
    obtain ⟨ss', hss', h⟩ := Option.bind_eq_some_iff.mp h
    obtain rfl := Option.some.inj h
    obtain ⟨esecret, secret, hshare, hsecret, hbody⟩ := drawnX25519_spec harg
    obtain ⟨hall, hmem⟩ := ih hss'
    constructor
    · exact List.forall_mem_cons.mpr ⟨⟨arg, rfl⟩, hall⟩
    · intro pub' hpub'
      rcases List.mem_cons.mp hpub' with rfl | hpub'
      · exact ⟨arg, esecret, secret, List.mem_cons_self, hshare, hsecret, hbody⟩
      · obtain ⟨arg', esecret', secret', hin, hrest⟩ := hmem pub' hpub'
        exact ⟨arg', esecret', secret', List.mem_cons_of_mem _ hin, hrest⟩

theorem x25519getkey_ok {arg : X25519arg} {id secret pub : Bytes 32}
    (hsecret : C.x25519 id arg.share = some secret) (hpub : C.x25519pub id = some pub) :
    x25519getkey C arg id = .ok (C.keydec (C.wrap arg.share secret pub) arg.body) := by
  rw [x25519getkey, hsecret]
  simp only [hpub]

/-- The identities find the file key. -/
theorem yields_keys (hC : Lawful C) {recs ids : List (Bytes 32)} {d : Nat → Draw}
    {ss : List Stanza} (hopen : (Recipients.keys recs).OpenedBy C (.identities ids))
    (hss : drawnKeys C filekey recs d = some ss)
    (hno : (Access.identities ids).NoAccident C ss filekey) :
    (Access.identities ids).Yields C ss filekey := by
  obtain ⟨hall, hmem⟩ := drawnKeys_spec hss
  constructor
  · apply List.any_eq_false.mpr
    intro s hs
    obtain ⟨arg, rfl⟩ := hall s hs
    exact Bool.false_ne_true
  apply firstHit_of_agree
  · -- no try fails
    intro q hq
    obtain ⟨hstanza, hid⟩ := mem_tries.mp hq
    obtain ⟨hpub, hshare⟩ := hno q.2 hid
    obtain ⟨pub, hpub⟩ := Option.ne_none_iff_exists'.mp hpub
    obtain ⟨secret, hsecret⟩ := Option.ne_none_iff_exists'.mp (hshare q.1 hstanza).1
    exact ⟨_, x25519getkey_ok hsecret hpub⟩
  · intro q hq key hkey
    obtain ⟨hstanza, hid⟩ := mem_tries.mp hq
    exact ((hno q.2 hid).2 q.1 hstanza).2 key hkey
  · -- the private key of a recipient opens its stanza
    obtain ⟨id, hid, pub, hpub, hidpub⟩ := hopen
    obtain ⟨arg, esecret, secret, hstanza, hshare, hsecret, hbody⟩ := hmem pub hpub
    have hagree : C.x25519 id arg.share = some secret :=
      (hC.symmetric id esecret pub arg.share hidpub hshare).trans hsecret
    refine ⟨(arg, id), mem_tries.mpr ⟨hstanza, hid⟩, ?_⟩
    show x25519getkey C arg id = _
    rw [x25519getkey_ok hagree hidpub, hbody, hC.keydec_keyenc]

/-- The passphrase finds the file key. -/
theorem yields_pass (hC : Lawful C) {pass : List UInt8} {cost : Nat} {d : Draw} {arg : Scryptarg}
    (hcost : cost ≤ 22) (harg : drawnScrypt C filekey pass cost d = some arg) :
    (Access.passphrase pass).Yields C [.scrypt arg] filekey := by
  unfold drawnScrypt at harg
  obtain ⟨salt, -, h⟩ := Option.bind_eq_some_iff.mp harg
  obtain ⟨key, hkey, h⟩ := Option.bind_eq_some_iff.mp h
  obtain rfl := Option.some.inj h
  have hwrap : wrapkey C pass salt cost = .ok key := by
    rcases hw : wrapkey C pass salt cost with e | k
    · rw [hw] at hkey
      cases hkey
    · rw [hw] at hkey
      rw [Option.some.inj hkey]
  refine ⟨_, key, rfl, ?_, ?_, hC.keydec_keyenc key⟩
  · show (cost : Int) ≤ 22
    omega
  · exact hwrap

/-- Who can decrypt finds the file key. -/
theorem yields_of_openedBy (hC : Lawful C) {rcpt : Recipients} {acc : Access} {d : Nat → Draw}
    {ss : List Stanza} (hrcpt : rcpt.Costs) (hopen : rcpt.OpenedBy C acc)
    (hss : headerStanzas C filekey rcpt d = some ss) (hno : acc.NoAccident C ss filekey) :
    acc.Yields C ss filekey := by
  cases rcpt with
  | keys recs =>
    cases acc with
    | identities ids => exact yields_keys hC hopen hss hno
    | passphrase pass => exact hopen.elim
  | passphrase pass cost =>
    cases acc with
    | identities ids => exact hopen.elim
    | passphrase pass' =>
      obtain ⟨arg, harg, rfl⟩ := Option.map_eq_some_iff.mp hss
      rw [show pass' = pass from hopen]
      exact yields_pass hC hrcpt.2 harg

end

/-! ## What was sent -/

/-- The start is a state of the machine. -/
theorem rel_start {δ : Type} [Descr δ] (ch : Chan δ) (m : Memory) (recording isarmor : Bool)
    {dev : δ} (hl : ch.live dev) (hal : ch.allocates dev) {armored : Bool} {p : List UInt8}
    (hp : Decodes (ch.unread dev) armored p) :
    ∃ (s : Src) (am : Am), Rel ch (m.start ch.fi ch.fo recording isarmor dev) am ∧
      am.inp = .src s ∧ s.rest = p ∧ s.Probed ∧ am.snk = ⟨isarmor, ch.accepted dev, []⟩ ∧
      am.draws = ch.draws dev := by
  have hsnk : SnkRel ch (m.start ch.fi ch.fo recording isarmor dev)
      ⟨isarmor, ch.accepted dev, []⟩ :=
    ⟨rfl, rfl, cap_pos _, Bytes.window_self _ 0, rfl⟩
  have hrel : ∀ (f : Feed ch) (s : Src), f.ready dev →
      SrcRel f (m.start ch.fi ch.fo recording isarmor dev).ib (ch.unread dev) s →
      Rel ch (m.start ch.fi ch.fo recording isarmor dev)
        ⟨.src s, ⟨isarmor, ch.accepted dev, []⟩, ch.draws dev,
          (m.start ch.fi ch.fo recording isarmor dev).ebuf, Descr.strerror dev⟩ :=
    fun f s hready hsrc => ⟨hl, .inr hal, rfl, .src f hready hsrc, hsnk, rfl, rfl, rfl⟩
  obtain ⟨u, hu⟩ : ∃ u, ch.unread dev = u := ⟨_, rfl⟩
  rw [hu] at hp
  cases hp with
  | binary hbin =>
    rw [← hu] at hbin ⊢
    have hstart := hrel (binaryFeed ch) (Src.binary (ch.unread dev)) hl
      (.fresh ⟨rfl, rfl, rfl, hbin, rfl⟩)
    exact ⟨_, _, hstart, rfl, rfl, Src.probed_binary _, rfl, rfl⟩
  | @armored text hok =>
    have hbounded : Bounded (m.start ch.fi ch.fo recording isarmor dev).ib :=
      ⟨Nat.le_refl 0, Nat.zero_le _, Nat.zero_le _⟩
    have hstart := hrel (armorFeed ch) (Src.armored (unarmor text).1) ⟨hl, hal⟩
      (.fresh ⟨⟨hbounded, rfl, rfl, rfl⟩, ⟨rfl, rfl, rfl⟩, text, hu, hok, rfl⟩)
    exact ⟨_, _, hstart, rfl, rfl, fun he => Bool.noConfusion he, rfl, rfl⟩

theorem counts_of_length {p : List UInt8} (h : p.length ≤ 2 ^ 63) : Counts 0 p := by
  have hpos : 0 < CHUNKLEN := by decide
  rw [Counts, Nat.zero_mul, Nat.zero_add]
  calc p.length ≤ 2 ^ 88 * 1 := by omega
    _ ≤ 2 ^ 88 * CHUNKLEN := Nat.mul_le_mul_left _ hpos

section

variable {C : Crypto} {rcpt : Recipients}

/-- What `encipher` has sent when it succeeds. -/
theorem encipher_sends {δ : Type} [Descr δ] {ch : Chan δ} (hrcpt : rcpt.Costs) {m : Memory}
    {recording isarmor : Bool} {dev : δ} (hroom : ∀ n, ch.room n) (hl : ch.live dev)
    (hst : ch.steady dev) (hal : ch.allocates dev) {armored : Bool} {p : List UInt8}
    (hp : Decodes (ch.unread dev) armored p) (hlen : p.length ≤ 2 ^ 63) {io : Io δ}
    (hr : Runs rwHandler (encipher C rcpt) (m.start ch.fi ch.fo recording isarmor dev)
      (.ok ()) io) :
    ∃ (filekey plnonce : Bytes 16) (header : List UInt8), (ch.draws dev 0).bytes 16 = some filekey ∧
      HeaderOf C filekey rcpt (laterDraws (ch.draws dev)) header ∧
      ch.accepted io.dev = ch.accepted dev ++ fileText isarmor
        (header ++ (plnonce.val ++ STREAM C (C.payloadkey filekey plnonce) p)) := by
  obtain ⟨s, am, hrel, hinp, hrest, hs, hsnk, hdraws⟩ := rel_start ch m recording isarmor hl hal hp
  obtain ⟨am', hr', hrel'⟩ := machine_of_runs hroom hrel hst hr
  have hcount : Counts 0 s.rest := by
    rw [hrest]
    exact counts_of_length hlen
  obtain ⟨filekey, plnonce, header, hdraw, hheader, hsent⟩ :=
    encipher_machine hrcpt hinp hs hcount (by rw [hsnk]) hr'
  rw [hdraws] at hdraw hheader
  rw [hrest, hsnk] at hsent
  exact ⟨filekey, plnonce, header, hdraw, hheader, hrel'.snk.sent.trans hsent⟩

end

/-! ## Both ways -/

/-- The number of stanzas for the recipients. -/
def Recipients.size : Recipients → Nat
  | .keys recs => recs.length
  | .passphrase _ _ => 1

/-- The file is not refused for its length: when it is armored, neither is
its last block one that ends in a part of the ending line, nor is the line of
the MAC cut by the end of the first buffer. -/
def Readable (isarmor : Bool) (forms : List StanzaForm) (raw : List UInt8) : Prop :=
  raw.length ≤ 2 ^ 63 ∧ (isarmor = true →
    (raw.length % BLOCKBYTES < 6022 ∨ 6045 < raw.length % BLOCKBYTES) ∧
      (IOBUFSIZE < (macText forms).length ∨ (macText forms).length + MACLEN ≤ IOBUFSIZE))

section

variable {C : Crypto} {filekey plnonce : Bytes 16} {rcpt : Recipients} {forms : List StanzaForm}
  {isarmor : Bool} {raw u : List UInt8}

theorem size_drawnKeys {recs : List (Bytes 32)} {d : Nat → Draw} {ss : List Stanza}
    (h : drawnKeys C filekey recs d = some ss) : ss.length = recs.length := by
  induction recs generalizing d ss with
  | nil =>
    rw [← Option.some.inj h]
    rfl
  | cons pub recs ih =>
    obtain ⟨arg, -, h⟩ := Option.bind_eq_some_iff.mp h
    obtain ⟨ss', hss', h⟩ := Option.bind_eq_some_iff.mp h
    rw [← Option.some.inj h, List.length_cons, List.length_cons, ih hss']

theorem size_headerStanzas {d : Nat → Draw} {ss : List Stanza}
    (h : headerStanzas C filekey rcpt d = some ss) : ss.length = rcpt.size := by
  cases rcpt with
  | keys recs => exact size_drawnKeys h
  | passphrase pass cost =>
    obtain ⟨arg, -, rfl⟩ := Option.map_eq_some_iff.mp h
    rfl

/-- A header has one front part. -/
theorem macText_inj {forms' : List StanzaForm} {v : List UInt8}
    (ha : ∀ form ∈ forms, form.Accepted) (hb : ∀ form ∈ forms', form.Accepted)
    (h : macText forms ++ u = macText forms' ++ v) : forms = forms' := by
  simp only [macText, List.append_assoc] at h
  exact (forms_inj ha hb (List.append_cancel_left h)).1

theorem decodes_fileText (hraw : raw = macText forms ++ u)
    (h : Readable isarmor forms raw) : Decodes (fileText isarmor raw) isarmor raw := by
  cases isarmor with
  | false =>
    apply Decodes.binary
    rw [hraw]
    exact macText_binary forms u
  | true =>
    have hun := (unarmor_armorText raw.length (Nat.le_refl _)).1 (h.2 rfl).1
    have hdec := @Decodes.armored (armorText raw ++ armorlast) (by rw [hun])
    rw [hun] at hdec
    exact hdec

theorem regular_of_readable (hall : ∀ form ∈ forms, form.Accepted) (hraw : raw = macText forms ++ u)
    (hsize : forms.length < 2 ^ 31) (h : Readable isarmor forms raw) : Regular isarmor raw := by
  intro forms' v hall' hraw'
  obtain rfl := macText_inj hall hall' (hraw.symm.trans hraw')
  exact ⟨hsize, fun ha => (h.2 ha).2⟩

end

/-- Decryption undoes encryption: what an encryption has sent when it
succeeds is decrypted to its input by whom it was made for. -/
theorem decipher_encipher {C : Crypto} (hC : Lawful C) {rcpt : Recipients} (hrcpt : rcpt.Costs)
    (hsize : rcpt.size < 2 ^ 31) (m : Memory) (fi fo : Int) (recording isarmor : Bool) (dev : Dev)
    (hreads : dev.Reads) (hwrites : dev.Writes) (hallocs : dev.Allocates) {armored : Bool}
    {p : List UInt8} (hp : Decodes dev.inp armored p) (hlen : p.length ≤ 2 ^ 63) {io : Io Dev}
    (hrun : Runs rwHandler (encipher C rcpt) (m.start fi fo recording isarmor dev) (.ok ()) io) :
    ∃ filekey forms raw, (dev.draws 0).bytes 16 = some filekey ∧
      (∀ form ∈ forms, StanzaForm.Proper form) ∧ macText forms <+: raw ∧
      io.dev.out = dev.out ++ fileText isarmor raw ∧
      ∀ (acc : Access) (junk : Bytes 16) (m' : Memory) (fi' fo' : Int) (isarmor' : Bool)
        (dev' : Dev), rcpt.OpenedBy C acc →
        acc.NoAccident C (forms.map StanzaForm.stanza) filekey →
        Readable isarmor forms raw → (chunks p).length < 2 ^ 31 →
        dev'.Reads → dev'.Writes → dev'.Allocates → dev'.inp = fileText isarmor raw →
        ∃ io', Runs ageHandler (decipher C acc junk) (m'.start fi' fo' true isarmor' dev') (.ok ())
            io' ∧ io'.dev.out = dev'.out ++ Snk.text isarmor' p := by
  obtain ⟨filekey, plnonce, header, hdraw, ⟨ss, forms, hss, hproper, rfl, rfl⟩, hsent⟩ :=
    @encipher_sends C rcpt _ _ (devChan fi fo True) hrcpt m recording isarmor dev (fun _ => trivial)
      trivial ⟨hreads, fun _ => hwrites⟩ hallocs armored p hp hlen io hrun
  have hall : ∀ form ∈ forms, form.Accepted := fun f hf => (f.proper_iff.mp (hproper f hf)).1
  obtain ⟨raw, hraw⟩ : ∃ raw, raw = headerText forms (C.mac (macText forms) filekey) ++
      (plnonce.val ++ STREAM C (C.payloadkey filekey plnonce) p) := ⟨_, rfl⟩
  rw [← hraw] at hsent
  have hfront := hraw
  rw [headerText_eq, List.append_assoc] at hfront
  refine ⟨filekey, forms, raw, hdraw, hproper, ⟨_, hfront.symm⟩, hsent, ?_⟩
  intro acc junk m' fi' fo' isarmor' dev' hopen hno hread hchunks hreads' hwrites' hallocs' hinp
  have hforms : forms.length < 2 ^ 31 := by
    have h := size_headerStanzas hss
    rw [List.length_map] at h
    omega
  have hd : Decodes dev'.inp isarmor raw := by
    rw [hinp]
    exact decodes_fileText hfront hread
  -- the payload is the text of one
  have hpayload : PayloadText C filekey
      (plnonce.val ++ STREAM C (C.payloadkey filekey plnonce) p) p :=
    ⟨plnonce, _, rfl, (opens_iff hC.aead).mpr ⟨rfl, hchunks⟩⟩
  have hplain : Plaintext C acc raw p :=
    ⟨forms, filekey, _, hall, yields_of_openedBy hC hrcpt hopen hss hno, hraw, hpayload⟩
  have hreg : Regular isarmor raw := regular_of_readable hall hfront hforms hread
  obtain ⟨f, fresh, hfirst, hin⟩ := @inHeader_start _ _ (devChan fi' fo' True) m' isarmor' dev'
    trivial ⟨hreads', fun _ => hwrites'⟩ hallocs' isarmor raw hd hread.1
  exact (decipher_spec (fun _ => trivial) hfirst hin hreg (Snk.has_nil rfl)).1 p hplain

theorem lawful_sample : Lawful Crypto.sample where
  aead := Crypto.sample_exact
  symmetric := by
    intro a b pa pb ha hb
    have hval : ∀ {a p : Bytes 32}, Crypto.sample.x25519pub a = some p →
        p.val = List.zipWith (· + ·) a.val curve25519basepoint.val := by
      intro a p h
      unfold Crypto.x25519pub Crypto.x25519 at h
      dsimp only at h
      split at h
      · cases h
      · rw [← Option.some.inj h]
        rfl
    have hsum : ∀ x y z : List UInt8, List.zipWith (· + ·) x (List.zipWith (· + ·) y z) =
        List.zipWith (· + ·) y (List.zipWith (· + ·) x z) := by
      intro x
      induction x with
      | nil => intro y z; simp
      | cons x xs ih =>
        intro y z
        cases y with
        | nil => simp
        | cons y ys =>
          cases z with
          | nil => simp
          | cons z zs =>
            simp only [List.zipWith_cons_cons, ih]
            rw [← UInt8.add_assoc, UInt8.add_comm x y, UInt8.add_assoc]
    have hsame : Crypto.sample.scalarmult a pb = Crypto.sample.scalarmult b pa := by
      apply Bytes.ext
      show List.zipWith (· + ·) a.val pb.val = List.zipWith (· + ·) b.val pa.val
      rw [hval ha, hval hb, hsum]
    unfold Crypto.x25519
    rw [hsame]

/-- A passphrase, and an armored file. -/
theorem decipher_encipher_sample :
    ∃ io io', Runs rwHandler (encipher Crypto.sample (.passphrase [112, 119] 2))
        (Memory.zero.start 3 4 false true (Dev.steady [1, 2, 3] 99)) (.ok ()) io ∧
      Runs ageHandler (decipher Crypto.sample (.passphrase [112, 119]) (Bytes.zero 16))
        (Memory.zero.start 3 4 true false (Dev.steady io.dev.out 7)) (.ok ()) io' ∧
      io'.dev.out = [1, 2, 3] := by
  obtain ⟨io, hrun, hlen⟩ : ∃ io, Runs rwHandler (encipher Crypto.sample (.passphrase [112, 119] 2))
      (Memory.zero.start 3 4 false true (Dev.steady [1, 2, 3] 99)) (.ok ()) io ∧
      decide (io.dev.out.length < 4000) = true :=
    exists_runs_at 5000 (q := fun io : Io Dev => decide (io.dev.out.length < 4000))
      (by decide +kernel)
  obtain ⟨filekey, forms, raw, -, -, hfront, hsent, hback⟩ :=
    @decipher_encipher Crypto.sample lawful_sample (.passphrase [112, 119] 2)
      ⟨by decide, by decide⟩ (by decide) Memory.zero 3 4 false true (Dev.steady [1, 2, 3] 99)
      (fun _ h => Event.noConfusion h) (fun _ h => Event.noConfusion h) (fun _ => rfl) _ _
      (Decodes.binary (by decide)) (by decide) _ hrun
  have hread : Readable true forms raw := by
    have hshort := of_decide_eq_true hlen
    have hraw : raw.length ≤ (armorText raw).length := by
      rw [length_armorText]
      split
      · rename_i hnil
        rw [hnil]
        exact Nat.le_refl 0
      · omega
    have hout : (armorText raw).length ≤ io.dev.out.length := by
      rw [hsent, fileText, if_pos rfl]
      simp only [List.length_append]
      omega
    have hmac := hfront.length_le
    have hmod := Nat.mod_le raw.length BLOCKBYTES
    have hsizes : IOBUFSIZE = 8192 ∧ MACLEN = 45 := ⟨rfl, rfl⟩
    exact ⟨by omega, fun _ => ⟨.inl (by omega), .inr (by omega)⟩⟩
  obtain ⟨io', hr, hout⟩ := hback (.passphrase [112, 119]) (Bytes.zero 16) Memory.zero 3 4 false
    (Dev.steady io.dev.out 7) rfl trivial hread (by rw [chunks_short (by decide)]; decide)
    (fun _ h => Event.noConfusion h) (fun _ h => Event.noConfusion h) (fun _ => rfl) hsent
  exact ⟨io, io', hrun, hr, hout⟩

end Agecrypt
