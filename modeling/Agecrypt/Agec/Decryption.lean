import Agecrypt.Agec.Opening

/-!
# Decryption equals its reference meaning

Over descriptors with any schedule of short reads and writes, `validmac`
passes to `mac` the text of the header as it was read, and decryption
succeeds exactly for the inputs of `Plaintext`, with the plaintext sent.
-/

namespace Agecrypt

open ProgE

/-- A header that is short enough is regular. -/
theorem regular_of_length {armored : Bool} {d : List UInt8}
    (h : d.length + MACLEN ≤ if armored then IOBUFSIZE else 2 ^ 31) : Regular armored d := by
  intro forms u hall hd
  have hlen := congrArg List.length hd
  rw [List.length_append] at hlen
  -- every stanza has a text
  have hcount : ∀ forms : List StanzaForm,
      forms.length ≤ ((forms.map StanzaForm.text).flatten).length := by
    intro forms
    induction forms with
    | nil => exact Nat.le_refl 0
    | cons form forms ih =>
      have htext : 1 ≤ form.text.length := by
        have hbegin : stanzaBegin.length = 3 := by decide
        rw [StanzaForm.text, List.length_append]
        omega
      rw [List.map_cons, List.flatten_cons, List.length_append, List.length_cons]
      omega
  have hforms := hcount forms
  have hmac : (macText forms).length =
      versionLine.length + ((forms.map StanzaForm.text).flatten).length + stanzaEnd.length := by
    rw [macText, List.length_append, List.length_append]
  have hpos : 0 < MACLEN := by decide
  cases armored with
  | false =>
    simp only [Bool.false_eq_true, if_false] at h
    exact ⟨by omega, fun hno => by cases hno⟩
  | true =>
    have hsize : IOBUFSIZE < 2 ^ 31 := by decide
    simp only [if_true] at h
    exact ⟨by omega, fun _ => .inr (by omega)⟩

/-! ## A file -/

/-- An X25519 stanza with a share of zeros, and the identity for it. -/
def sampleForm : StanzaForm :=
  .x25519 (Bytes.zero 32) ⟨List.replicate 28 0 ++ List.replicate 4 1, rfl⟩

def sampleId : Bytes 32 := ⟨List.replicate 32 1, rfl⟩

theorem yields_sample :
    (Access.identities [sampleId]).Yields Crypto.sample ([sampleForm].map StanzaForm.stanza)
      (Bytes.zero 16) := by
  refine ⟨rfl, [], _, [], rfl, fun q hq => absurd hq List.not_mem_nil, ?_⟩
  decide +kernel

def samplePlaintext : List UInt8 := [104, 101, 108, 108, 111]

theorem chunks_samplePlaintext : chunks samplePlaintext = [samplePlaintext] :=
  chunks_short (by decide)

/-- The file of `samplePlaintext`. -/
def sampleFile : List UInt8 :=
  headerText [sampleForm] (Crypto.sample.mac (macText [sampleForm]) (Bytes.zero 16)) ++
    ((Bytes.zero 16).val ++ STREAM Crypto.sample
      (Crypto.sample.payloadkey (Bytes.zero 16) (Bytes.zero 16)) samplePlaintext)

theorem plaintext_sample :
    Plaintext Crypto.sample (.identities [sampleId]) sampleFile samplePlaintext := by
  have hcount : (chunks samplePlaintext).length < 2 ^ 31 := by
    rw [chunks_samplePlaintext]
    decide
  refine ⟨[sampleForm], Bytes.zero 16, _, fun form hform => ?_, yields_sample, rfl,
    Bytes.zero 16, _, rfl, (opens_iff Crypto.sample_exact).mpr ⟨rfl, hcount⟩⟩
  rw [List.mem_singleton.mp hform]
  trivial

theorem length_sampleFile : sampleFile.length ≤ 1000 := by
  have hheader : (headerText [sampleForm]
      (Crypto.sample.mac (macText [sampleForm]) (Bytes.zero 16))).length ≤ 900 := by
    decide +kernel
  have hstream : ∀ key, (STREAM Crypto.sample key samplePlaintext).length = 21 := by
    intro key
    rw [length_STREAM, chunks_samplePlaintext]
    rfl
  rw [sampleFile, List.length_append, List.length_append, hstream, (Bytes.zero 16).size_eq]
  omega

theorem decodes_sampleFile : Decodes sampleFile false sampleFile := by
  apply Decodes.binary
  rw [sampleFile, headerText_eq, List.append_assoc]
  exact macText_binary _ _

/-! ## The arguments of `mac` -/

section

variable (C : Crypto) (m : Memory) (fi fo : Int) (isarmor : Bool) (dev : Dev)

/-- The header text is longer than what is buffered in front of it, and the
MAC line of an armored one is not cut by the end of the first buffer. -/
def Uncut (armored : Bool) (forms : List StanzaForm) : Prop :=
  if armored then
    IOBUFSIZE < (macText forms).length ∨ (macText forms).length + MACLEN ≤ IOBUFSIZE
  else armorfirst.length < (macText forms).length

theorem Uncut.firstBytes {armored : Bool} {forms : List StanzaForm} (h : Uncut armored forms) :
    firstBytes armored < (macText forms).length ∨
      (macText forms).length + MACLEN ≤ firstBytes armored := by
  cases armored with
  | false => exact .inl h
  | true => exact h

/-- The arguments of `mac` are exactly the header.  Behind the stanzas of an
input that delivers `d`, `validmac` succeeds in reading a MAC if the line of
one follows, and the bytes that it looks at then are those from the version
line to the closing `---`.  A binary header with a stanza of a known type, and
so any that gives a file key, is never cut. -/
theorem macArgs_exact (ids : List (Bytes 32)) (junk : Bytes 16) (hreads : dev.Reads)
    (hwrites : dev.Writes) (hallocs : dev.Allocates) {armored : Bool} {d : List UInt8}
    (hd : Decodes dev.inp armored d) (hlen : d.length ≤ 2 ^ 63) :
    ∀ st io₁, Runs rdHandler (openHeader C ids junk) (m.start fi fo true isarmor dev) (.ok st) io₁ →
      ∃ (forms : List StanzaForm) (u : List UInt8), (∀ form ∈ forms, form.Accepted) ∧
        d = macText forms ++ u ∧
        ((∃ form ∈ forms, form.stanza ≠ .unknown) → armored = false → Uncut armored forms) ∧
        (Uncut armored forms →
          (∀ mac u', u = macLine mac ++ u' →
              ∃ io', Runs ageHandler macArgs io₁ (.ok (mac, macText forms)) io') ∧
            ∀ mac data io', Runs ageHandler macArgs io₁ (.ok (mac, data)) io' →
              data = macText forms ∧ ∃ u', u = macLine mac ++ u') := by
  intro st io₁ hr
  obtain ⟨f, fresh, hfirst, hin⟩ := @inHeader_start _ _ (devChan fi fo True) m isarmor dev trivial
    ⟨hreads, fun _ => hwrites⟩ hallocs armored d hd hlen
  obtain ⟨t, u, hdt, ⟨forms, hall, -, -, -, rfl⟩, hin₁⟩ :=
    (recognizes_openHeader (delivers_inHeader hfirst) (fun _ => rfl) C ids junk).sound hin hr
  obtain ⟨s, hread, hpast, hrest, hs, hsnk⟩ := hin₁.reads hdt (macText_ne_nil forms)
  refine ⟨forms, u, hall, hdt, ?_, fun huncut => ?_⟩
  · rintro ⟨form, hform, hne⟩ rfl
    exact length_macText_known hform hne
  have hsafe := huncut.firstBytes
  have hne := macText_ne_nil forms
  rw [← hpast] at hsafe hne ⊢
  rw [← hrest]
  obtain ⟨hcomplete, hsound⟩ := macArgs_spec hread hfirst hne hsafe hs hsnk
  constructor
  · intro mac u' hu
    obtain ⟨io', hr', -⟩ := hcomplete mac u' hu
    exact ⟨io', hr'⟩
  · intro mac data io' hr'
    obtain ⟨u', hu, hdata, -⟩ := hsound mac data io' hr'
    exact ⟨hdata, u', hu⟩

end

/-- The header of the sample file is read. -/
theorem opens_sample :
    ∃ st io₁, Runs rdHandler (openHeader Crypto.sample [sampleId] (Bytes.zero 16))
      (Memory.zero.start 3 4 true false (Dev.steady sampleFile 0)) (.ok st) io₁ := by
  have hlen := length_sampleFile
  have hmac : MACLEN = 45 := rfl
  obtain ⟨f, fresh, hfirst, hin⟩ := @inHeader_start _ _ (devChan 3 4 True) Memory.zero false
    (Dev.steady sampleFile 0) trivial
    ⟨fun _ h => Event.noConfusion h, fun _ _ h => Event.noConfusion h⟩
    (fun _ => rfl) false sampleFile decodes_sampleFile (by omega)
  have hreg : Regular false sampleFile :=
    regular_of_length (by simp only [Bool.false_eq_true, if_false]; omega)
  obtain ⟨forms, filekey, text, hall, hkey, hd, -⟩ := plaintext_sample
  rw [headerText_eq, List.append_assoc] at hd
  obtain ⟨st, io₁, -, hr, -⟩ := (@headerKey_spec _ _ _ _ Crypto.sample (.identities [sampleId])
    (Bytes.zero 16) filekey _ _ _ _ _ hfirst hin hreg).1 forms _ hall hkey hd
  exact ⟨st, io₁, hr⟩

theorem macArgs_exact_sample :
    ∃ st io₁, Runs rdHandler (openHeader Crypto.sample [sampleId] (Bytes.zero 16))
        (Memory.zero.start 3 4 true false (Dev.steady sampleFile 0)) (.ok st) io₁ ∧
      ∃ (forms : List StanzaForm) (u : List UInt8), (∀ form ∈ forms, form.Accepted) ∧
        sampleFile = macText forms ++ u ∧
        ((∃ form ∈ forms, form.stanza ≠ .unknown) → false = false → Uncut false forms) ∧
        (Uncut false forms →
          (∀ mac u', u = macLine mac ++ u' →
              ∃ io', Runs ageHandler macArgs io₁ (.ok (mac, macText forms)) io') ∧
            ∀ mac data io', Runs ageHandler macArgs io₁ (.ok (mac, data)) io' →
              data = macText forms ∧ ∃ u', u = macLine mac ++ u') := by
  obtain ⟨st, io₁, hr⟩ := opens_sample
  exact ⟨st, io₁, hr, macArgs_exact Crypto.sample Memory.zero 3 4 false (Dev.steady sampleFile 0)
    [sampleId] (Bytes.zero 16) (fun _ h => Event.noConfusion h) (fun _ h => Event.noConfusion h)
    (fun _ => rfl) decodes_sampleFile (length_sampleFile.trans (by decide)) st io₁ hr⟩

/-! ## Both entry points -/

section

variable (C : Crypto) (m : Memory) (fi fo : Int) (isarmor : Bool) (dev : Dev)

/-- Decryption succeeds exactly for the inputs of `Plaintext`, and has then
sent the plaintext. -/
theorem decipher_exact (acc : Access) (junk : Bytes 16) (hreads : dev.Reads)
    (hwrites : dev.Writes) (hallocs : dev.Allocates) {armored : Bool} {d : List UInt8}
    (hd : Decodes dev.inp armored d) (hlen : d.length ≤ 2 ^ 63) (hreg : Regular armored d) :
    (∀ p, Plaintext C acc d p →
        ∃ io', Runs ageHandler (decipher C acc junk) (m.start fi fo true isarmor dev) (.ok ()) io' ∧
          io'.dev.out = dev.out ++ Snk.text isarmor p) ∧
      ∀ io', Runs ageHandler (decipher C acc junk) (m.start fi fo true isarmor dev) (.ok ()) io' →
        ∃ p, Plaintext C acc d p ∧ io'.dev.out = dev.out ++ Snk.text isarmor p := by
  obtain ⟨f, fresh, hfirst, hin⟩ := @inHeader_start _ _ (devChan fi fo True) m isarmor dev trivial
    ⟨hreads, fun _ => hwrites⟩ hallocs armored d hd hlen
  exact decipher_spec (fun _ => trivial) hfirst hin hreg (Snk.has_nil rfl)

end

theorem decipher_exact_sample :
    ∃ io', Runs ageHandler (decipher Crypto.sample (.identities [sampleId]) (Bytes.zero 16))
        (Memory.zero.start 3 4 true false (Dev.steady sampleFile 0)) (.ok ()) io' ∧
      io'.dev.out = (Dev.steady sampleFile 0).out ++ Snk.text false samplePlaintext :=
  have hlen := length_sampleFile
  have hmac : MACLEN = 45 := rfl
  (decipher_exact Crypto.sample Memory.zero 3 4 false (Dev.steady sampleFile 0)
    (.identities [sampleId]) (Bytes.zero 16) (fun _ h => Event.noConfusion h)
    (fun _ h => Event.noConfusion h) (fun _ => rfl) decodes_sampleFile (by omega)
    (regular_of_length (by simp only [Bool.false_eq_true, if_false]; omega))).1 samplePlaintext
    plaintext_sample

end Agecrypt
